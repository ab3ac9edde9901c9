import Mathlib.Algebra.BigOperators.Ring.Finset
import Zuri.Http.HeadersPlain

/-!
The operations on header collections do what they do to plain lists, and keep the size, as long
as they count values in ASCII only and are given names whose lower case is in ASCII only where
the names are.
-/

namespace Zuri.Http

open Grouped Utf8

variable {x : Casing} {h : Headers} {p : Plain} {name : Text}

/-- The values of the names in `watched` are in ASCII. -/
def AsciiIn (watched : Text → Prop) (p : Plain) : Prop :=
  ∀ q ∈ p, watched (fold q.1) → Ascii q.2

structure Tracks (watched : Text → Prop) (h : Headers) (p : Plain) : Prop where
  agrees : Agrees h p
  ascii : AsciiIn watched p

/-- A call does to collections what another does to plain lists. -/
def Follows (watched : Text → Prop) (f : Headers → Outcome Headers) (g : Plain → Outcome Plain) :
    Prop :=
  ∀ h p, Tracks watched h p → Tracks watched (f h).state (g p).state ∧ (f h).error = (g p).error

variable {watched : Text → Prop}

theorem run_follows {fs : List (Headers → Outcome Headers)} {gs : List (Plain → Outcome Plain)}
    (hcalls : List.Forall₂ (Follows watched) fs gs) :
    Follows watched (Outcome.run fs) (Outcome.run gs) := by
  induction hcalls with
  | nil => exact fun h p htracks => ⟨htracks, rfl⟩
  | @cons f g fs gs hcall _ ih =>
      intro h p htracks
      obtain ⟨hstate, herror⟩ := hcall h p htracks
      simp only [Outcome.run, herror]
      cases (g p).error with
      | some _ => exact ⟨hstate, rfl⟩
      | none => exact ih _ _ hstate

/-- The value as it is taken is in ASCII. -/
def Countable (name : Text) (value : Option Text) : Prop :=
  isValidName name = true → ∀ text, coerce name value = .ok text → Ascii text

def counts (name value : Text) : Nat := name.length + value.length + 4

theorem counts_eq {value : Text} (hname : Ascii name) (hvalue : Ascii value) :
    counts name value = byteLen name + byteLen value + 4 := by
  rw [hname.byteLen, hvalue.byteLen, counts]

theorem Agrees.snoc (hagrees : Agrees h p) {value : Text} (hname : isValidName name = true)
    (hclean : ∀ name, coerce name (some value) = .ok value) {fields : List (Text × HeaderEntry)}
    (hfields : fields = Plain.fields (p ++ [(name, value)])) {size : Int}
    (hsize : size = h.size + (byteLen name + byteLen value + 4 : Nat)) :
    Agrees ⟨fields, size⟩ (p ++ [(name, value)]) := by
  refine ⟨hfields, ?_, hagrees.clean.snoc hname hclean⟩
  rw [Plain.wireTotal_append, hsize, hagrees.size]
  simp [Plain.wireTotal]

theorem AsciiIn.snoc (hascii : AsciiIn watched p) {value : Text}
    (hvalue : Ascii value) : AsciiIn watched (p ++ [(name, value)]) := by
  intro q hq hwatched
  rcases List.mem_append.mp hq with hq | hq
  · exact hascii q hq hwatched
  · rw [List.mem_singleton.mp hq]
    exact hvalue

theorem Plain.fields_snoc (p : Plain) (name value : Text) : Plain.fields (p ++ [(name, value)]) =
    if has fold p (fold name) then
      p.fields.map fun f =>
        if f.1 = fold name then (f.1, ⟨f.2.name, f.2.values ++ [value]⟩) else f
    else p.fields ++ [(fold name, ⟨name, [value]⟩)] := by
  rw [Plain.fields, group_snoc]
  by_cases hhas : has fold p (fold name)
  · rw [if_pos hhas, if_pos hhas, Plain.fields, List.map_map, List.map_map]
    apply List.map_congr_left
    intro e _
    by_cases hkey : e.1 = fold name <;> simp [Plain.toField, hkey]
  · rw [if_neg hhas, if_neg hhas, List.map_append, Plain.fields]
    rfl

theorem add_follows {value : Option Text} (hvalue : Countable name value) :
    Follows watched (Headers.add x name value) (Plain.add name value) := by
  intro h p htracks
  simp only [Headers.add, Plain.add]
  cases hcoerce : coerce name value with
  | error e => exact ⟨htracks, rfl⟩
  | ok text =>
      by_cases hvalid : isValidName name = true
      · have hname := ascii_of_valid hvalid
        have htext := hvalue hvalid text hcoerce
        simp only [if_pos hvalid]
        refine ⟨⟨htracks.agrees.snoc hvalid (fun _ => coerce_again hcoerce) ?_ ?_,
          htracks.ascii.snoc htext⟩, trivial⟩
        · rw [Plain.fields_snoc, x.lower_eq hname, htracks.agrees.fields, Plain.lookup_fields]
          by_cases hhas : has fold p (fold name)
          · rw [if_pos hhas, if_pos hhas]
            rfl
          · rw [if_neg hhas, if_neg hhas]
            rfl
        · rw [← counts_eq hname htext, counts]
      · simp only [if_neg hvalid]
        exact ⟨htracks, trivial⟩

theorem counted_eq (hp : p.Clean) {k : Text} (hhas : has fold p k)
    (hvalues : ∀ q ∈ p, fold q.1 = k → Ascii q.2) :
    Headers.counted ⟨(nameOf fold p k).getD [], valuesOf fold p k⟩ =
      Plain.wireTotal (p.filter fun q => decide (fold q.1 = k)) := by
  obtain ⟨n, hn, hkey, hascii⟩ := hp.nameOf hhas
  rw [Headers.counted, hn, valuesOf, List.map_map, Plain.wireTotal]
  have heach : ∀ q ∈ p.filter (fun q => decide (fold q.1 = k)),
      n.length + q.2.length + 4 = byteLen q.1 + byteLen q.2 + 4 := by
    intro q hq
    obtain ⟨hmem, hfold⟩ := List.mem_filter.mp hq
    have hq1 := ascii_of_valid (hp q hmem).1
    have hq2 := hvalues q hmem (of_decide_eq_true hfold)
    have hlen := byteLen_of_fold hascii hq1 (hkey.trans (of_decide_eq_true hfold).symm)
    rw [hascii.byteLen] at hlen
    rw [hlen, hq2.byteLen]
  rw [← List.map_congr_left heach, Nat.cast_list_sum, List.map_map]
  rfl

theorem Agrees.remove (hagrees : Agrees h p) (hname : x.Plainly name)
    (hvalues : ∀ q ∈ p, fold q.1 = fold name → Ascii q.2) :
    Agrees (h.remove x name) (p.remove name) := by
  rw [Headers.remove, hagrees.entry_eq hname, Plain.remove]
  by_cases hhas : has fold p (fold name)
  · have hascii : Ascii name := ascii_fold.mp (hagrees.clean.ascii hhas)
    rw [if_pos hhas]
    refine ⟨?_, ?_, hagrees.clean.without _⟩
    · rw [x.lower_eq hascii, hagrees.fields, Plain.fields, Plain.fields, group_without,
        List.filter_map]
      rfl
    · change h.size - _ = _
      rw [hagrees.size, p.wireTotal_split (fold name), counted_eq hagrees.clean hhas hvalues]
      omega
  · rw [if_neg hhas]
    have hsame : without fold p (fold name) = p := by
      rw [without, List.filter_eq_self]
      exact fun q hq => decide_eq_true fun heq => hhas ⟨q, hq, heq⟩
    rw [hsame]
    exact hagrees

theorem AsciiIn.remove (hascii : AsciiIn watched p) : AsciiIn watched (p.remove name) :=
  fun q hq => hascii q (List.mem_filter.mp hq).1

theorem Tracks.remove (htracks : Tracks watched h p) (hname : x.Plainly name)
    (hwatched : watched (fold name)) : Tracks watched (h.remove x name) (p.remove name) :=
  ⟨htracks.agrees.remove hname fun q hq heq => htracks.ascii q hq (heq ▸ hwatched),
    htracks.ascii.remove⟩

theorem Casing.plainly_of_valid (x : Casing) (hvalid : isValidName name = true) : x.Plainly name :=
  fun _ => ascii_of_valid hvalid

/-- Setting is removing and adding. -/
theorem Headers.set_eq (h : Headers) (x : Casing) (name : Text) {value : Option Text} {text : Text}
    (hcoerce : coerce name value = .ok text) (hvalid : isValidName name = true)
    (hnone : (h.remove x name).fields.lookup (x.lower name) = none) :
    h.set x name value = (h.remove x name).add x name value := by
  rw [Headers.set, Headers.add, hcoerce]
  simp only [if_pos hvalid, hnone, Option.isSome_none, Bool.false_eq_true, if_false]

theorem set_follows {value : Option Text} (hvalue : Countable name value)
    (hwatched : isValidName name = true → watched (fold name)) :
    Follows watched (Headers.set x name value) (Plain.set name value) := by
  intro h p htracks
  cases hcoerce : coerce name value with
  | error e =>
      simp only [Headers.set, Plain.set, hcoerce]
      exact ⟨htracks, trivial⟩
  | ok text =>
      by_cases hvalid : isValidName name = true
      · have hremoved := htracks.remove (x.plainly_of_valid hvalid) (hwatched hvalid)
        have hnone : (h.remove x name).fields.lookup (x.lower name) = none := by
          rw [hremoved.agrees.fields, Plain.lookup_fields, x.lower_eq (ascii_of_valid hvalid),
            if_neg]
          exact fun hhas => (has_without.mp hhas).2 rfl
        have hplain : p.set name value = (p.remove name).add name value := by
          rw [Plain.set, Plain.add, hcoerce]
          simp only [if_pos hvalid]
        rw [h.set_eq x name hcoerce hvalid hnone, hplain]
        exact add_follows hvalue _ _ hremoved
      · simp only [Headers.set, Plain.set, hcoerce, if_neg hvalid]
        exact ⟨htracks, trivial⟩

def Given.Countable (name : Text) : Given → Prop
  | .one value => Http.Countable name value
  | .many values => ∀ value ∈ values, Http.Countable name value

theorem forall₂_map {α β γ : Type} {R : β → γ → Prop} {f : α → β} {g : α → γ} {l : List α}
    (hall : ∀ a ∈ l, R (f a) (g a)) : List.Forall₂ R (l.map f) (l.map g) := by
  rw [List.forall₂_map_left_iff, List.forall₂_map_right_iff]
  exact List.forall₂_same.mpr hall

theorem assign_follows {q : Text × Given} (hgiven : q.2.Countable q.1) (hname : x.Plainly q.1)
    (hwatched : watched (fold q.1)) :
    Follows watched (Headers.assign x q) (Plain.assign q) := by
  obtain ⟨name, given⟩ := q
  cases given with
  | one value => exact set_follows hgiven fun _ => hwatched
  | many values =>
      intro h p htracks
      refine run_follows (forall₂_map ?_) _ _ (htracks.remove hname hwatched)
      exact fun value hvalue => add_follows (hgiven value hvalue)

theorem extendDict_follows {pairs : List (Text × Given)}
    (hpairs : ∀ q ∈ pairs, q.2.Countable q.1 ∧ x.Plainly q.1 ∧ watched (fold q.1)) :
    Follows watched (Headers.extendDict x pairs) (Plain.extendDict pairs) := by
  refine run_follows (forall₂_map fun q hq => ?_)
  obtain ⟨hgiven, hname, hwatched⟩ := hpairs q hq
  exact assign_follows hgiven hname hwatched

theorem run_add (p : Plain) {l : Plain} (hclean : l.Clean) :
    Outcome.run (l.map fun q => Plain.add q.1 (some q.2)) p = ⟨p ++ l, none⟩ := by
  induction l generalizing p with
  | nil => rw [List.append_nil]; rfl
  | cons q l ih =>
      obtain ⟨hvalid, hcoerce⟩ := hclean q List.mem_cons_self
      have hadd : p.add q.1 (some q.2) = ⟨p ++ [q], none⟩ := by
        simp only [Plain.add, hcoerce, if_pos hvalid]
      rw [List.map_cons, Outcome.run, hadd]
      change Outcome.run _ (p ++ [q]) = _
      rw [ih _ fun q' hq' => hclean q' (List.mem_cons_of_mem _ hq'), List.append_assoc]
      rfl

/-- A plain list, name by name. -/
def Plain.listed (q : Plain) : Plain :=
  flatten (keys fold q) (fun k => (nameOf fold q k).getD []) (valuesOf fold q)

theorem Agrees.each_eq (hagrees : Agrees h p) : h.each = p.listed := by
  rw [Headers.each, hagrees.fields, Plain.fields, group, Plain.listed, flatten, List.map_map,
    List.flatMap_map]
  rfl

theorem Plain.Clean.group_listed (p : Plain) {q : Plain} (hq : q.Clean) :
    group fold (p ++ q.listed) = group fold (p ++ q) := by
  apply group_append_flatten
  intro k hk
  obtain ⟨n, hn, -⟩ := hq.nameOf hk
  rw [hn]
  rfl

theorem Plain.mem_listed {q : Plain} {e : Text × Text} (he : e ∈ q.listed) :
    (∃ k, nameOf fold q k = some e.1) ∧ ∃ e' ∈ q, e'.2 = e.2 := by
  simp only [Plain.listed, flatten, List.mem_flatMap, List.mem_map] at he
  obtain ⟨k, hk, v, hv, rfl⟩ := he
  refine ⟨⟨k, ?_⟩, ?_⟩
  · cases hn : nameOf fold q k with
    | none => exact absurd (mem_keys.mp hk) (nameOf_none.mp hn)
    | some n => rfl
  · obtain ⟨e', he', hsnd⟩ := List.mem_map.mp hv
    exact ⟨e', (List.mem_filter.mp he').1, hsnd⟩

theorem Plain.Clean.listed {q : Plain} (hq : q.Clean) : q.listed.Clean := by
  intro e he
  obtain ⟨⟨k, hk⟩, e', he', hvalue⟩ := Plain.mem_listed he
  obtain ⟨e'', hfind, hname⟩ := Option.map_eq_some_iff.mp hk
  rw [← hname, ← hvalue]
  exact ⟨(hq e'' (List.mem_of_find?_eq_some hfind)).1, (hq e' he').2⟩

theorem Plain.Clean.append {q : Plain} (hp : p.Clean) (hq : q.Clean) : Plain.Clean (p ++ q) :=
  fun e he => (List.mem_append.mp he).elim (hp e) (hq e)

theorem Agrees.of_group (hagrees : Agrees h p) {q : Plain} (hgroup : group fold p = group fold q)
    (hq : q.Clean) : Agrees h q := by
  refine ⟨?_, ?_, hq⟩
  · rw [hagrees.fields, Plain.fields, hgroup, Plain.fields]
  · rw [hagrees.size, wireTotal_group hagrees.clean, hgroup, wireTotal_group hq]

/-- Values in ASCII are copied from one collection to the other. -/
theorem Agrees.append {o : Headers} {q : Plain} (hagrees : Agrees h p) (hother : Agrees o q)
    (hascii : ∀ e ∈ q, Ascii e.2) :
    Agrees (Headers.extend x o h).state (p ++ q) ∧ (Headers.extend x o h).error = none := by
  have hcalls : Follows (fun _ => False)
      (Outcome.run (o.each.map fun e => Headers.add x e.1 (some e.2)))
      (Outcome.run (o.each.map fun e => Plain.add e.1 (some e.2))) := by
    refine run_follows (forall₂_map fun e he => add_follows fun _ text htext => ?_)
    rw [hother.each_eq] at he
    have hclean := (hother.clean.listed e he).2 e.1
    obtain ⟨-, e', he', hvalue⟩ := Plain.mem_listed he
    rw [Except.ok.inj (htext.symm.trans hclean), ← hvalue]
    exact hascii e' he'
  obtain ⟨hstate, herror⟩ := hcalls h p ⟨hagrees, fun _ _ hfalse => hfalse.elim⟩
  rw [hother.each_eq, run_add p hother.clean.listed] at hstate herror
  rw [Headers.extend, hother.each_eq]
  refine ⟨?_, herror⟩
  exact hstate.agrees.of_group (hother.clean.group_listed p) (hagrees.clean.append hother.clean)

theorem agrees_empty : Agrees .empty [] :=
  ⟨rfl, rfl, fun _ hq => absurd hq List.not_mem_nil⟩

theorem canonicalName_special : ∀ e ∈ canonicalNames, fold e.2 = e.1 := by decide

theorem fold_capitalize {part : Text} (hpart : Ascii part) :
    fold (Headers.capitalize x part) = fold part := by
  cases part with
  | nil => rfl
  | cons c part =>
      have hc : c.toNat < 128 := hpart c List.mem_cons_self
      have hone : Ascii [c] := fun c' hc' => by rwa [List.mem_singleton.mp hc']
      rw [Headers.capitalize, x.upper_ascii _ hone]
      simp only [fold, List.map_append, List.map_cons, List.map_nil, toUpper_toLower hc]
      rfl

theorem fold_fold (hname : Ascii name) : fold (fold name) = fold name := by
  rw [fold, fold, List.map_map]
  apply List.map_congr_left
  intro c hc
  exact ascii_cases (fun c => c.toLower.toLower = c.toLower) (by decide) (hname c hc)

theorem map_intercalate {α β : Type} (f : α → β) (sep : List α) (ls : List (List α)) :
    (sep.intercalate ls).map f = (sep.map f).intercalate (ls.map (List.map f)) := by
  induction ls with
  | nil => rfl
  | cons l ls ih =>
      cases ls with
      | nil => simp [List.intercalate_singleton]
      | cons l' ls =>
          rw [List.intercalate_cons_cons, List.map_append, List.map_append, ih]
          simp only [List.map_cons, List.intercalate_cons_cons]

theorem fold_canonicalName (hname : Ascii name) :
    fold (Headers.canonicalName x (fold name)) = fold name := by
  rw [Headers.canonicalName, x.lower_eq (ascii_fold.mpr hname), fold_fold hname]
  cases hlookup : canonicalNames.lookup (fold name) with
  | some special =>
      obtain ⟨l₁, l₂, heq, -⟩ := List.lookup_eq_some_iff.mp hlookup
      have hmem : (fold name, special) ∈ canonicalNames := by
        rw [heq]
        simp
      exact canonicalName_special _ hmem
  | none =>
      have hparts : ((fold name).splitOn '-').map (fold ∘ Headers.capitalize x) =
          ((fold name).splitOn '-').map fold :=
        List.map_congr_left fun part hpart =>
          fold_capitalize (splitOn_ascii (ascii_fold.mpr hname) hpart)
      have hback : fold (['-'].intercalate ((fold name).splitOn '-')) = fold name := by
        rw [List.intercalate_splitOn, fold_fold hname]
      refine Eq.trans ?_ hback
      unfold fold at hparts ⊢
      rw [map_intercalate, map_intercalate, List.map_map]
      exact congrArg _ hparts

theorem Agrees.canonicalize (hagrees : Agrees h p) :
    Agrees (h.canonicalize x) (p.canonicalize x) := by
  have hfold : ∀ q ∈ p, fold (Headers.canonicalName x (fold q.1)) = fold q.1 := fun q hq =>
    fold_canonicalName (ascii_of_valid (hagrees.clean q hq).1)
  have hvalid : ∀ q ∈ p, isValidName (Headers.canonicalName x (fold q.1)) = true := by
    intro q hq
    rw [← isValidName_fold, hfold q hq, isValidName_fold]
    exact (hagrees.clean q hq).1
  refine ⟨?_, ?_, ?_⟩
  · rw [Headers.canonicalize, hagrees.fields, Plain.fields, Plain.canonicalize, Plain.fields,
      group_rename hfold, List.map_map, List.map_map]
    rfl
  · rw [Headers.canonicalize, Plain.canonicalize, Plain.wireTotal, rename, List.map_map]
    refine hagrees.size.trans ?_
    rw [Plain.wireTotal]
    congr 2
    apply List.map_congr_left
    intro q hq
    have hlen := byteLen_of_fold (ascii_of_valid (hvalid q hq))
      (ascii_of_valid (hagrees.clean q hq).1) (hfold q hq)
    rw [Function.comp_apply, hlen]
  · intro e he
    obtain ⟨q, hq, rfl⟩ := List.mem_map.mp he
    exact ⟨hvalid q hq, (hagrees.clean q hq).2⟩

end Zuri.Http
