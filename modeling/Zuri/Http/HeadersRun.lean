import Zuri.Http.HeadersSteps

/-!
Collections of parsed heads, and every run of operations on collections: they hold what plain
lists hold, and their size is the number of bytes they write, as long as values that are counted
by their characters are in ASCII and collections are extended from others with other names only.
-/

namespace Zuri.Http

open Grouped Utf8

variable {x : Casing} {h : Headers} {p : Plain} {name : Text}

/-- What the parser has gathered, as the fields of a collection. -/
def asFields (entries : List H1.Entry) : List (Text × HeaderEntry) :=
  entries.map fun e => (e.orig.toLower.toList, ⟨e.orig.toList, e.values.map String.toList⟩)

structure Gathers (c : H1.Collected) (p : Plain) : Prop where
  fields : asFields c.entries = p.fields
  size : c.size = p.wireTotal
  clean : p.Clean

theorem toLower_toList (s : String) : s.toLower.toList = fold s.toList := String.toList_map

theorem toLower_eq_iff {s t : String} : s.toLower = t.toLower ↔ fold s.toList = fold t.toList := by
  rw [← toLower_toList, ← toLower_toList, String.toList_inj]

theorem Gathers.find {c : H1.Collected} (hc : Gathers c p) (name : String) :
    ((c.find name).map fun e => (e.orig.toList, e.values.map String.toList)) =
      if has fold p (fold name.toList) then
        some ((nameOf fold p (fold name.toList)).getD [], valuesOf fold p (fold name.toList))
      else none := by
  have hlookup : (c.find name).map (fun e =>
      (⟨e.orig.toList, e.values.map String.toList⟩ : HeaderEntry)) =
        (asFields c.entries).lookup (fold name.toList) := by
    rw [H1.Collected.find]
    generalize c.entries = entries
    induction entries with
    | nil => rfl
    | cons e entries ih =>
        rw [asFields, List.map_cons, List.lookup_cons, toLower_toList, List.find?_cons]
        by_cases heq : fold e.orig.toList = fold name.toList
        · rw [decide_eq_true (toLower_eq_iff.mpr heq), heq, beq_self_eq_true]
          rfl
        · rw [decide_eq_false (mt toLower_eq_iff.mp heq), beq_false_of_ne (Ne.symm heq)]
          exact ih
  rw [hc.fields, Plain.lookup_fields] at hlookup
  split at hlookup
  · next hhas =>
      obtain ⟨e, he, hentry⟩ := Option.map_eq_some_iff.mp hlookup
      obtain ⟨hname, hvalues⟩ := HeaderEntry.mk.inj hentry
      rw [if_pos hhas, he, ← hname, ← hvalues]
      rfl
  · next hhas => rw [if_neg hhas, Option.map_eq_none_iff.mp hlookup]; rfl

theorem Gathers.push {c : H1.Collected} (hc : Gathers c p) {name value : String}
    (hname : isValidName name.toList = true)
    (hvalue : ∀ name, coerce name (some value.toList) = .ok value.toList) :
    Gathers (c.push name value) (p ++ [(name.toList, value.toList)]) := by
  refine ⟨?_, ?_, hc.clean.snoc hname hvalue⟩
  · have hfind := hc.find name
    rw [Plain.fields_snoc, ← hc.fields]
    by_cases hhas : has fold p (fold name.toList)
    · rw [if_pos hhas] at hfind ⊢
      obtain ⟨e, he, -⟩ := Option.map_eq_some_iff.mp hfind
      simp only [H1.Collected.push, he, asFields, List.map_map]
      apply List.map_congr_left
      intro e' _
      simp only [Function.comp_apply, toLower_toList, toLower_eq_iff]
      split <;> simp
    · rw [if_neg hhas] at hfind ⊢
      simp only [H1.Collected.push, Option.map_eq_none_iff.mp hfind, asFields, List.map_append,
        List.map_cons, List.map_nil, toLower_toList]
  · rw [Plain.wireTotal_append, ← hc.size]
    simp [H1.Collected.push, Plain.wireTotal, utf8ByteSize_eq]

theorem note_same {c c' : H1.Collected} {name value : String} (h : c.note name value = .ok c') :
    c'.entries = c.entries ∧ c'.size = c.size := by
  unfold H1.Collected.note at h
  split at h
  · split at h
    · exact absurd h (by simp)
    · rw [← Except.ok.inj h]
      exact ⟨rfl, rfl⟩
  · split at h
    · split at h
      · rw [← Except.ok.inj h]
        exact ⟨rfl, rfl⟩
      · rw [← Except.ok.inj h]
        exact ⟨rfl, rfl⟩
    · rw [← Except.ok.inj h]
      exact ⟨rfl, rfl⟩

theorem Gathers.keep {c c' : H1.Collected} (hc : Gathers c p) {name value : String}
    (hname : isValidName name.toList = true)
    (hvalue : ∀ name, coerce name (some value.toList) = .ok value.toList)
    (hkeep : c.keep name value = .ok c') :
    Gathers c' (if H1.isSingleton name && p.contains name.toList then p
      else p ++ [(name.toList, value.toList)]) := by
  have hfind := hc.find name
  unfold H1.Collected.keep at hkeep
  by_cases hhas : has fold p (fold name.toList)
  · rw [if_pos hhas] at hfind
    obtain ⟨e, he, hentry⟩ := Option.map_eq_some_iff.mp hfind
    obtain ⟨first, rest, hvalues⟩ : ∃ first rest, e.values = first :: rest := by
      apply List.exists_cons_of_ne_nil
      intro hnil
      have hnone := (Prod.mk.inj hentry).2
      rw [hnil] at hnone
      exact valuesOf_ne_nil.mpr hhas hnone.symm
    have hcontains : p.contains name.toList = true := decide_eq_true hhas
    simp only [he, Option.bind_some, hvalues, List.head?_cons] at hkeep
    cases hsingle : H1.isSingleton name with
    | true =>
        simp only [hsingle] at hkeep
        split at hkeep
        · rw [hcontains, ← Except.ok.inj hkeep]
          exact hc
        · exact absurd hkeep (by simp)
    | false =>
        simp only [hsingle] at hkeep
        rw [← Except.ok.inj hkeep]
        exact hc.push hname hvalue
  · rw [if_neg hhas] at hfind
    have hcontains : p.contains name.toList = false := decide_eq_false hhas
    rw [Option.map_eq_none_iff.mp hfind] at hkeep
    rw [hcontains, Bool.and_false]
    cases hsingle : H1.isSingleton name <;>
    · simp only [hsingle, Option.bind_none] at hkeep
      rw [← Except.ok.inj hkeep]
      exact hc.push hname hvalue

theorem Gathers.add {c c' : H1.Collected} (hc : Gathers c p) {platform : H1.Platform}
    {header : String × List UInt8} (hname : isValidName header.1.toList = true)
    (hvalue : ∀ value, platform.utf8 header.2 = some value →
      coerce header.1.toList (some value.toList) = .ok value.toList)
    (hadd : H1.Collected.add platform c header = .ok c') :
    Gathers c' (p.header platform header) := by
  rw [H1.Collected.add] at hadd
  rw [Plain.header]
  cases hutf8 : platform.utf8 header.2 with
  | none => rw [hutf8] at hadd; exact absurd hadd (by simp)
  | some value =>
      rw [hutf8] at hadd
      simp only at hadd ⊢
      cases hnote : c.note header.1 value with
      | error e => rw [hnote] at hadd; exact absurd hadd (by simp [Except.bind])
      | ok noted =>
          rw [hnote] at hadd
          obtain ⟨hentries, hsize⟩ := note_same hnote
          have hnoted : Gathers noted p :=
            ⟨hentries ▸ hc.fields, hsize ▸ hc.size, hc.clean⟩
          exact hnoted.keep hname (fun _ => coerce_again (hvalue value hutf8)) hadd

theorem Gathers.foldlM {platform : H1.Platform} {headers : List (String × List UInt8)}
    {c c' : H1.Collected} (hc : Gathers c p)
    (hnames : ∀ header ∈ headers, isValidName header.1.toList = true)
    (hvalues : ∀ header ∈ headers, ∀ value, platform.utf8 header.2 = some value →
      coerce header.1.toList (some value.toList) = .ok value.toList)
    (hfold : headers.foldlM (H1.Collected.add platform) c = .ok c') :
    Gathers c' (headers.foldl (Plain.header platform) p) := by
  induction headers generalizing c p with
  | nil =>
      rw [← Except.ok.inj hfold]
      exact hc
  | cons header headers ih =>
      rw [List.foldlM_cons] at hfold
      cases hadd : H1.Collected.add platform c header with
      | error e => rw [hadd] at hfold; exact absurd hfold (by simp [bind, Except.bind])
      | ok next =>
          rw [hadd] at hfold
          exact ih (hc.add (hnames header List.mem_cons_self)
              (hvalues header List.mem_cons_self) hadd)
            (fun header' hmem => hnames header' (List.mem_cons_of_mem _ hmem))
            (fun header' hmem => hvalues header' (List.mem_cons_of_mem _ hmem)) hfold

theorem agrees_parsed (head : ParsedHead) :
    Agrees (.fromRaw head.fields) (.ofHead head.platform head.head.headers) := by
  have hparsed := head.parsed
  unfold H1.fieldsOf at hparsed
  cases hversion : H1.versionOf head.head.version with
  | error e => rw [hversion] at hparsed; exact absurd hparsed (by simp [Except.bind])
  | ok version =>
      rw [hversion] at hparsed
      simp only [Except.bind] at hparsed
      cases hfold : head.head.headers.foldlM (H1.Collected.add head.platform) {} with
      | error e => rw [hfold] at hparsed; exact absurd hparsed (by simp)
      | ok c =>
          rw [hfold] at hparsed
          simp only at hparsed
          split at hparsed
          · exact absurd hparsed (by simp)
          · have hempty : Gathers {} [] := ⟨rfl, rfl, fun _ hq => absurd hq List.not_mem_nil⟩
            have hc := hempty.foldlM head.names head.values hfold
            rw [← Except.ok.inj hparsed]
            refine ⟨hc.fields, ?_, hc.clean⟩
            exact congrArg Nat.cast hc.size

/-- The values of a name are in ASCII. -/
def Headers.Held (x : Casing) (h : Headers) (name : Text) : Prop :=
  ∀ value ∈ h.getAll x name, Ascii value

/-- All values are in ASCII. -/
def Headers.Plainly (h : Headers) : Prop := ∀ f ∈ h.fields, ∀ value ∈ f.2.values, Ascii value

/-- What a step has to be given for the collections to stay as plain lists are. -/
def HeadersOp.Meets (x : Casing) (store : List Headers) : HeadersOp → Prop
  | .new | .parsed _ | .canonicalize _ | .clear _ => True
  | .set i name value => Countable name value ∧
      (isValidName name = true → ∀ h, store[i]? = some h → h.Held x name)
  | .add _ name value => Countable name value
  | .setDefault i name value => x.Plainly name ∧
      ∀ h, store[i]? = some h → h.contains x name = false → Countable name value
  | .remove i name => x.Plainly name ∧ ∀ h, store[i]? = some h → h.Held x name
  | .extend i other => ∀ h, store[i]? = some h → ∀ o, store[other]? = some o →
      o.Plainly ∧ ∀ f ∈ o.fields, h.fields.lookup f.1 = none
  | .extendDict i pairs => ∀ q ∈ pairs, q.2.Countable q.1 ∧ x.Plainly q.1 ∧
      ∀ h, store[i]? = some h → h.Held x q.1
  | .clone i => ∀ h, store[i]? = some h → h.Plainly
  | .stripHopByHop i => ∀ h, store[i]? = some h →
      ∀ name ∈ Headers.doomed (h.tokens x "connection".toList), h.Held x name

/-- Every step of a run meets the condition where it is taken. -/
def MeetsRun (x : Casing) : List Headers → List HeadersOp → Prop
  | _, [] => True
  | store, op :: ops => op.Meets x store ∧ ∀ next, op.step x store = some next → MeetsRun x next ops

theorem Agrees.held (hagrees : Agrees h p) (hname : x.Plainly name) (hheld : h.Held x name) :
    ∀ q ∈ p, fold q.1 = fold name → Ascii q.2 := by
  intro q hq heq
  apply hheld
  rw [hagrees.getAll_eq hname]
  exact List.mem_map.mpr ⟨q, List.mem_filter.mpr ⟨hq, decide_eq_true heq⟩, rfl⟩

theorem Agrees.tracks (hagrees : Agrees h p) (hname : x.Plainly name) (hheld : h.Held x name) :
    Tracks (fun k => k = fold name) h p :=
  ⟨hagrees, fun q hq heq => hagrees.held hname hheld q hq heq⟩

theorem Agrees.plainly (hagrees : Agrees h p) (hplainly : h.Plainly) : ∀ e ∈ p, Ascii e.2 := by
  intro e he
  have hhas : has fold p (fold e.1) := ⟨e, he, rfl⟩
  refine hplainly (Plain.toField (fold e.1, nameOf fold p (fold e.1), valuesOf fold p (fold e.1)))
    ?_ e.2 ?_
  · rw [hagrees.fields]
    exact List.mem_map_of_mem (List.mem_map.mpr ⟨fold e.1, mem_keys.mpr hhas, rfl⟩)
  · exact List.mem_map.mpr ⟨e, List.mem_filter.mpr ⟨he, decide_eq_true rfl⟩, rfl⟩

theorem Agrees.setDefault (hagrees : Agrees h p) {value : Option Text} (hname : x.Plainly name)
    (hvalue : h.contains x name = false → Countable name value) :
    Agrees (h.setDefault x name value).state (p.setDefault name value).state := by
  rw [Headers.setDefault, Plain.setDefault, ← hagrees.contains_eq hname]
  cases hcontains : h.contains x name with
  | true => exact hagrees
  | false =>
      have hheld : h.Held x name := by
        intro v hv
        rw [hagrees.contains_eq hname] at hcontains
        rw [hagrees.getAll_eq hname] at hv
        have hhas := valuesOf_ne_nil.mp (List.ne_nil_of_mem hv)
        exact absurd hhas (of_decide_eq_false hcontains)
      have hset : Follows (fun k => k = fold name) (Headers.set x name value)
          (Plain.set name value) := set_follows (hvalue hcontains) fun _ => rfl
      exact (hset h p (hagrees.tracks hname hheld)).1.agrees

theorem Agrees.set (hagrees : Agrees h p) {value : Option Text} (hvalue : Countable name value)
    (hheld : isValidName name = true → h.Held x name) :
    Agrees (h.set x name value).state (p.set name value).state := by
  by_cases hvalid : isValidName name = true
  · have hset : Follows (fun k => k = fold name) (Headers.set x name value)
        (Plain.set name value) := set_follows hvalue fun _ => rfl
    exact (hset h p (hagrees.tracks (x.plainly_of_valid hvalid) (hheld hvalid))).1.agrees
  · have hnone : Tracks (fun _ => False) h p := ⟨hagrees, fun _ _ hfalse => hfalse.elim⟩
    exact (set_follows hvalue (fun htrue => absurd htrue hvalid) h p hnone).1.agrees

theorem Agrees.extend {o : Headers} {q : Plain} (hagrees : Agrees h p) (hother : Agrees o q)
    (hplainly : o.Plainly) (happart : ∀ f ∈ o.fields, h.fields.lookup f.1 = none) :
    Agrees (Headers.extend x o h).state (Plain.extend q p) := by
  have hkept : p.filter (fun e => !q.contains e.1) = p := by
    rw [List.filter_eq_self]
    intro e he
    rw [Bool.not_eq_true', Plain.contains, decide_eq_false_iff_not]
    intro hhas
    have hfield := happart (Plain.toField (fold e.1, nameOf fold q (fold e.1),
      valuesOf fold q (fold e.1))) (by
        rw [hother.fields]
        exact List.mem_map_of_mem (List.mem_map.mpr ⟨fold e.1, mem_keys.mpr hhas, rfl⟩))
    rw [hagrees.fields, Plain.lookup_fields] at hfield
    change (if has fold p (fold e.1) then _ else none) = none at hfield
    rw [if_pos ⟨e, he, rfl⟩] at hfield
    exact absurd hfield (by simp)
  rw [Plain.extend, hkept]
  exact (hagrees.append hother (hother.plainly hplainly)).1

theorem Agrees.clone (hagrees : Agrees h p) (hplainly : h.Plainly) :
    Agrees (h.clone x).state p ∧ (h.clone x).error = none :=
  agrees_empty.append hagrees (hagrees.plainly hplainly)

theorem Agrees.extendDict (hagrees : Agrees h p) {pairs : List (Text × Given)}
    (hpairs : ∀ q ∈ pairs, q.2.Countable q.1 ∧ x.Plainly q.1 ∧ h.Held x q.1) :
    Agrees (h.extendDict x pairs).state (p.extendDict pairs).state := by
  have htracks : Tracks (fun k => ∃ q ∈ pairs, k = fold q.1) h p := by
    refine ⟨hagrees, fun e he hwatched => ?_⟩
    obtain ⟨q, hq, heq⟩ := hwatched
    obtain ⟨-, hname, hheld⟩ := hpairs q hq
    exact hagrees.held hname hheld e he heq
  have hfollows : Follows (fun k => ∃ q ∈ pairs, k = fold q.1) (Headers.extendDict x pairs)
      (Plain.extendDict pairs) :=
    extendDict_follows fun q hq => ⟨(hpairs q hq).1, (hpairs q hq).2.1, q, hq, rfl⟩
  exact (hfollows h p htracks).1.agrees

theorem hopByHop_ascii : ∀ name ∈ Headers.hopByHop, ∀ c ∈ name, c.toNat < 128 := by
  simp only [← List.forall_iff_forall_mem]
  decide

theorem mem_doomed {tokens : List Text} {doomed : List Text} {name : Text}
    (hmem : name ∈ tokens.foldl (fun doomed token =>
      if token ∈ doomed then doomed else doomed ++ [token]) doomed) :
    name ∈ doomed ∨ name ∈ tokens := by
  induction tokens generalizing doomed with
  | nil => exact .inl hmem
  | cons token tokens ih =>
      rw [List.foldl_cons] at hmem
      rcases ih hmem with hmem | hmem
      · split at hmem
        · exact .inl hmem
        · rcases List.mem_append.mp hmem with hmem | hmem
          · exact .inl hmem
          · exact .inr (List.mem_singleton.mp hmem ▸ List.mem_cons_self)
      · exact .inr (List.mem_cons_of_mem _ hmem)

theorem doomed_of_mem {tokens : List Text} {doomed : List Text} {name : Text}
    (hmem : name ∈ doomed) :
    name ∈ tokens.foldl (fun doomed token =>
      if token ∈ doomed then doomed else doomed ++ [token]) doomed := by
  induction tokens generalizing doomed with
  | nil => exact hmem
  | cons token tokens ih =>
      rw [List.foldl_cons]
      apply ih
      split
      · exact hmem
      · exact List.mem_append_left _ hmem

theorem Tracks.removeAll {watched : Text → Prop} {names : List Text}
    (htracks : Tracks watched h p)
    (hnames : ∀ name ∈ names, x.Plainly name ∧ watched (fold name)) :
    Tracks watched (names.foldl (fun h name => h.remove x name) h)
      (names.foldl (fun p name => p.remove name) p) := by
  induction names generalizing h p with
  | nil => exact htracks
  | cons name names ih =>
      obtain ⟨hname, hwatched⟩ := hnames name List.mem_cons_self
      exact ih (htracks.remove hname hwatched) fun name hmem =>
        hnames name (List.mem_cons_of_mem _ hmem)

theorem Agrees.stripHopByHop (hagrees : Agrees h p)
    (hheld : ∀ name ∈ Headers.doomed (h.tokens x "connection".toList), h.Held x name) :
    Agrees (h.stripHopByHop x) p.stripHopByHop := by
  have hconnection : Ascii "connection".toList := hopByHop_ascii _ (by decide)
  have hplainly : x.Plainly "connection".toList := fun _ => hconnection
  have hvalues : ∀ value ∈ p.getAll "connection".toList, Ascii value := by
    rw [← hagrees.getAll_eq hplainly]
    exact hheld _ (doomed_of_mem (by decide))
  have htokens := hagrees.tokens_eq hplainly hvalues
  rw [Headers.stripHopByHop, Plain.stripHopByHop, ← htokens]
  have hascii : ∀ name ∈ Headers.doomed (h.tokens x "connection".toList), Ascii name := by
    intro name hmem
    rcases mem_doomed hmem with hmem | hmem
    · exact hopByHop_ascii name hmem
    · rw [htokens, Plain.tokens] at hmem
      obtain ⟨value, hvalue, hmem⟩ := List.mem_flatMap.mp hmem
      obtain ⟨part, hpart, rfl⟩ := List.mem_map.mp (List.mem_filter.mp hmem).1
      exact ascii_fold.mpr (trim_ascii (splitComma_ascii (hvalues value hvalue) hpart))
  have htracks : Tracks (fun k => ∃ name ∈ Headers.doomed (h.tokens x "connection".toList),
      k = fold name) h p := by
    refine ⟨hagrees, fun e he hwatched => ?_⟩
    obtain ⟨name, hmem, heq⟩ := hwatched
    exact hagrees.held (fun _ => hascii name hmem) (hheld name hmem) e he heq
  exact (htracks.removeAll fun name hmem => ⟨fun _ => hascii name hmem, name, hmem, rfl⟩).agrees

theorem forall₂_modify {α β : Type} {R : α → β → Prop} {as : List α} {bs : List β}
    (hall : List.Forall₂ R as bs) (i : Nat) {f : α → α} {g : β → β}
    (hat : ∀ a b, as[i]? = some a → R a b → R (f a) (g b)) :
    List.Forall₂ R (as.modify i f) (bs.modify i g) := by
  induction hall generalizing i with
  | nil => simp
  | @cons a b as bs hab hall ih =>
      cases i with
      | zero =>
          rw [List.modify_zero_cons, List.modify_zero_cons]
          exact .cons (hat a b rfl hab) hall
      | succ i =>
          rw [List.modify_succ_cons, List.modify_succ_cons]
          exact .cons hab (ih i fun a b ha => hat a b ha)

theorem forall₂_snoc {α β : Type} {R : α → β → Prop} {as : List α} {bs : List β}
    (hall : List.Forall₂ R as bs) {a : α} {b : β} (hab : R a b) :
    List.Forall₂ R (as ++ [a]) (bs ++ [b]) :=
  List.rel_append hall (.cons hab .nil)

theorem forall₂_getElem? {α β : Type} {R : α → β → Prop} {as : List α} {bs : List β}
    (hall : List.Forall₂ R as bs) (i : Nat) :
    (as[i]? = none ∧ bs[i]? = none) ∨ ∃ a b, as[i]? = some a ∧ bs[i]? = some b ∧ R a b := by
  induction hall generalizing i with
  | nil => exact .inl ⟨rfl, rfl⟩
  | @cons a b as bs hab hall ih =>
      cases i with
      | zero => exact .inr ⟨a, b, rfl, rfl, hab⟩
      | succ i => exact ih i

theorem step_agrees {store : List Headers} {plain : List Plain} {op : HeadersOp}
    (hall : List.Forall₂ Agrees store plain) (hmeets : op.Meets x store) :
    ∃ next, op.step x store = some next ∧ List.Forall₂ Agrees next (op.plain x plain) := by
  cases op with
  | new => exact ⟨_, rfl, forall₂_snoc hall agrees_empty⟩
  | parsed head => exact ⟨_, rfl, forall₂_snoc hall (agrees_parsed head)⟩
  | set i name value =>
      exact ⟨_, rfl, forall₂_modify hall i fun h _ hh hagrees =>
        hagrees.set hmeets.1 fun hvalid => hmeets.2 hvalid h hh⟩
  | add i name value =>
      refine ⟨_, rfl, forall₂_modify hall i fun h p _ hagrees => ?_⟩
      have hnone : Tracks (fun _ => False) h p := ⟨hagrees, fun _ _ hfalse => hfalse.elim⟩
      exact (add_follows hmeets h p hnone).1.agrees
  | setDefault i name value =>
      exact ⟨_, rfl, forall₂_modify hall i fun h _ hh hagrees =>
        hagrees.setDefault hmeets.1 (hmeets.2 h hh)⟩
  | remove i name =>
      exact ⟨_, rfl, forall₂_modify hall i fun h _ hh hagrees =>
        hagrees.remove hmeets.1 (hagrees.held hmeets.1 (hmeets.2 h hh))⟩
  | extend i other =>
      simp only [HeadersOp.step, HeadersOp.plain]
      rcases forall₂_getElem? hall other with ⟨hnone, hnone'⟩ | ⟨o, q, ho, hq, hother⟩
      · rw [hnone, hnone']
        exact ⟨_, rfl, hall⟩
      · rw [ho, hq]
        have hends : ¬(i = other ∧ o.fields ≠ []) := by
          rintro ⟨rfl, hne⟩
          obtain ⟨f, fs, hcons⟩ := List.exists_cons_of_ne_nil hne
          have hself := (hmeets o ho o ho).2 f (hcons ▸ List.mem_cons_self)
          rw [hcons, List.lookup_cons, beq_self_eq_true] at hself
          exact absurd hself (by simp)
        simp only [if_neg hends]
        refine ⟨_, rfl, forall₂_modify hall i fun h _ hh hagrees => ?_⟩
        obtain ⟨hplainly, happart⟩ := hmeets h hh o ho
        exact hagrees.extend hother hplainly happart
  | extendDict i pairs =>
      refine ⟨_, rfl, forall₂_modify hall i fun h _ hh hagrees => hagrees.extendDict ?_⟩
      exact fun q hq => ⟨(hmeets q hq).1, (hmeets q hq).2.1, (hmeets q hq).2.2 h hh⟩
  | canonicalize i => exact ⟨_, rfl, forall₂_modify hall i fun _ _ _ hagrees => hagrees.canonicalize⟩
  | clone i =>
      simp only [HeadersOp.step, HeadersOp.plain]
      rcases forall₂_getElem? hall i with ⟨hnone, hnone'⟩ | ⟨h, p, hh, hp, hagrees⟩
      · rw [hnone, hnone']
        exact ⟨_, rfl, hall⟩
      · obtain ⟨hstate, herror⟩ := hagrees.clone (hmeets h hh)
        rw [hh, hp]
        refine ⟨store ++ [(h.clone x).state], ?_, forall₂_snoc hall hstate⟩
        simp only [herror]
  | stripHopByHop i =>
      exact ⟨_, rfl, forall₂_modify hall i fun h _ hh hagrees =>
        hagrees.stripHopByHop (hmeets h hh)⟩
  | clear i => exact ⟨_, rfl, forall₂_modify hall i fun _ _ _ _ => agrees_empty⟩

theorem run_agrees {store : List Headers} {plain : List Plain} {ops : List HeadersOp}
    (hall : List.Forall₂ Agrees store plain) (hmeets : MeetsRun x store ops) :
    ∃ final, ops.foldlM (HeadersOp.step x) store = some final ∧
      List.Forall₂ Agrees final (ops.foldl (HeadersOp.plain x) plain) := by
  induction ops generalizing store plain with
  | nil => exact ⟨store, rfl, hall⟩
  | cons op ops ih =>
      obtain ⟨next, hstep, hnext⟩ := step_agrees hall hmeets.1
      obtain ⟨final, hrun, hfinal⟩ := ih hnext (hmeets.2 next hstep)
      refine ⟨final, ?_, hfinal⟩
      rw [List.foldlM_cons, hstep]
      exact hrun

/-- Lookups give what the plain list gives, and the size is what is written. -/
structure Answers (x : Casing) (h : Headers) (p : Plain) : Prop where
  get : ∀ name, x.Plainly name → h.get x name = p.get name
  getAll : ∀ name, x.Plainly name → h.getAll x name = p.getAll name
  getJoined : ∀ name, x.Plainly name → h.getJoined x name = p.getJoined name
  contains : ∀ name, x.Plainly name → h.contains x name = p.contains name
  tokens : ∀ name, x.Plainly name → h.Held x name → h.tokens x name = p.tokens name
  containsToken : ∀ name token, x.Plainly name → Ascii token → h.Held x name →
    h.containsToken x name token = p.containsToken name token
  names : h.names = p.names
  size : h.size = byteLen h.toWire

theorem Agrees.answers (hagrees : Agrees h p) : Answers x h p where
  get _ := hagrees.get_eq
  getAll _ := hagrees.getAll_eq
  getJoined _ := hagrees.getJoined_eq
  contains _ := hagrees.contains_eq
  tokens _ hname hheld := hagrees.tokens_eq hname (hagrees.getAll_eq hname ▸ hheld)
  containsToken _ _ hname htoken hheld :=
    hagrees.containsToken_eq hname (hagrees.getAll_eq hname ▸ hheld) htoken
  names := hagrees.names_eq
  size := hagrees.size_eq

/-- In every run whose steps meet the condition the collections are what plain lists are. -/
theorem headers_answer (x : Casing) (ops : List HeadersOp) (hmeets : MeetsRun x [] ops) :
    ∃ final, ops.foldlM (HeadersOp.step x) [] = some final ∧
      List.Forall₂ (Answers x) final (ops.foldl (HeadersOp.plain x) []) := by
  obtain ⟨final, hrun, hfinal⟩ := run_agrees .nil hmeets
  exact ⟨final, hrun, hfinal.imp fun _ _ hagrees => hagrees.answers⟩

/-- Upper and lower case for ASCII only. -/
def Casing.ascii : Casing where
  lower text := text.map Char.toLower
  upper text := text.map Char.toUpper
  lower_ascii _ _ := rfl
  upper_ascii _ _ := rfl

theorem headers_answer_host :
    ∃ final, [HeadersOp.new, .set 0 "Host".toList (some "h".toList)].foldlM
        (HeadersOp.step .ascii) [] = some final ∧
      List.Forall₂ (Answers .ascii) final ([HeadersOp.new,
        .set 0 "Host".toList (some "h".toList)].foldl (HeadersOp.plain .ascii) []) := by
  refine headers_answer .ascii [.new, .set 0 "Host".toList (some "h".toList)] ⟨trivial, ?_⟩
  intro next hnext
  obtain rfl := Option.some.inj hnext
  refine ⟨⟨fun _ text htext => ?_, fun _ h hh value hvalue => ?_⟩, fun _ _ => trivial⟩
  · have hcoerce : coerce "Host".toList (some "h".toList) = .ok "h".toList := by rfl
    rw [← Except.ok.inj (hcoerce.symm.trans htext)]
    intro c hc
    rw [List.mem_singleton.mp hc]
    decide
  · obtain rfl := Option.some.inj hh
    exact absurd hvalue List.not_mem_nil

/-- A value outside ASCII is counted short, and extending from a collection adds. -/
theorem headers_answer_fails :
    (¬∃ final, [HeadersOp.new, .set 0 "x".toList (some ['é'])].foldlM
        (HeadersOp.step .ascii) [] = some final ∧
      List.Forall₂ (Answers .ascii) final ([HeadersOp.new,
        .set 0 "x".toList (some ['é'])].foldl (HeadersOp.plain .ascii) [])) ∧
    ¬∃ final, [HeadersOp.new, .set 0 "x".toList (some ['1']), .new,
        .set 1 "x".toList (some ['2']), .extend 0 1].foldlM (HeadersOp.step .ascii) [] =
          some final ∧
      List.Forall₂ (Answers .ascii) final ([HeadersOp.new, .set 0 "x".toList (some ['1']), .new,
        .set 1 "x".toList (some ['2']), .extend 0 1].foldl (HeadersOp.plain .ascii) []) := by
  constructor
  · rintro ⟨final, hrun, hall⟩
    obtain rfl := Option.some.inj hrun
    change List.Forall₂ _ _ [[("x".toList, ['é'])]] at hall
    obtain ⟨hanswers, -⟩ := List.forall₂_cons.mp hall
    exact absurd hanswers.size (by decide)
  · rintro ⟨final, hrun, hall⟩
    obtain rfl := Option.some.inj hrun
    change List.Forall₂ _ _ [[("x".toList, ['2'])], [("x".toList, ['2'])]] at hall
    obtain ⟨hanswers, -⟩ := List.forall₂_cons.mp hall
    have hascii : ∀ c ∈ "x".toList, c.toNat < 128 := List.forall_iff_forall_mem.mp (by decide)
    exact absurd (hanswers.getAll "x".toList fun _ => hascii) (by decide)

end Zuri.Http
