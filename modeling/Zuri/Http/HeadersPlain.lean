import Mathlib.Data.List.DropRight
import Mathlib.Data.List.Induction
import Mathlib.Algebra.BigOperators.Group.List.Basic
import Zuri.Http.Headers

/-!
Header collections as plain lists of names and values, where names that differ in the case of
ASCII letters only are the same. The grouped fields of a collection are those of such a list, and
its running size is the number of bytes on the wire, as long as the sizes are taken of values in
ASCII.
-/

namespace Zuri.Http

open Grouped Utf8

abbrev Plain := List (Text × Text)

/-- A name without regard to the case of ASCII letters. -/
def fold (text : Text) : Text := text.map Char.toLower

namespace Plain

def getAll (p : Plain) (name : Text) : List Text := valuesOf fold p (fold name)

def get (p : Plain) (name : Text) : Option Text := (p.getAll name).head?

def getJoined (p : Plain) (name : Text) : Option Text :=
  if has fold p (fold name) then some ([',', ' '].intercalate (p.getAll name)) else none

def contains (p : Plain) (name : Text) : Bool := decide (has fold p (fold name))

def containsToken (p : Plain) (name token : Text) : Bool :=
  (p.getAll name).any fun value =>
    (splitComma value).any fun part => decide (fold (trim part) = fold token)

def tokens (p : Plain) (name : Text) : List Text :=
  (p.getAll name).flatMap fun value =>
    ((splitComma value).map fun part => fold (trim part)).filter fun token => !token.isEmpty

def names (p : Plain) : List Text := (keys fold p).map fun k => (nameOf fold p k).getD []

def remove (name : Text) (p : Plain) : Plain := without fold p (fold name)

def set (name : Text) (value : Option Text) (p : Plain) : Outcome Plain :=
  match coerce name value with
  | .error e => ⟨p, some e⟩
  | .ok text =>
      if isValidName name then ⟨p.remove name ++ [(name, text)], none⟩
      else ⟨p, some s!"invalid header field name: {String.ofList name}"⟩

def add (name : Text) (value : Option Text) (p : Plain) : Outcome Plain :=
  match coerce name value with
  | .error e => ⟨p, some e⟩
  | .ok text =>
      if isValidName name then ⟨p ++ [(name, text)], none⟩
      else ⟨p, some s!"invalid header field name: {String.ofList name}"⟩

def setDefault (name : Text) (value : Option Text) (p : Plain) : Outcome Plain :=
  if p.contains name then ⟨p, none⟩ else p.set name value

/-- Extending from another collection replaces the fields of the same names. -/
def extend (other : Plain) (p : Plain) : Plain :=
  p.filter (fun q => !other.contains q.1) ++ other

def assign (q : Text × Given) (p : Plain) : Outcome Plain :=
  match q.2 with
  | .one value => p.set q.1 value
  | .many values => Outcome.run (values.map (add q.1)) (p.remove q.1)

def extendDict (pairs : List (Text × Given)) (p : Plain) : Outcome Plain :=
  Outcome.run (pairs.map assign) p

def canonicalize (x : Casing) (p : Plain) : Plain := rename fold (Headers.canonicalName x) p

def stripHopByHop (p : Plain) : Plain :=
  (Headers.doomed (p.tokens "connection".toList)).foldl (fun p name => p.remove name) p

/-- A header of a parsed head; one that may be there only once is repeated for nothing. -/
def header (platform : H1.Platform) (p : Plain) (header : String × List UInt8) : Plain :=
  match platform.utf8 header.2 with
  | none => p
  | some value =>
      if H1.isSingleton header.1 && p.contains header.1.toList then p
      else p ++ [(header.1.toList, value.toList)]

def ofHead (platform : H1.Platform) (headers : List (String × List UInt8)) : Plain :=
  headers.foldl (Plain.header platform) []

end Plain

/-- What an operation does to plain lists. -/
def HeadersOp.plain (x : Casing) (store : List Plain) : HeadersOp → List Plain
  | .new => store ++ [[]]
  | .parsed head => store ++ [.ofHead head.platform head.head.headers]
  | .set i name value => store.modify i fun p => (Plain.set name value p).state
  | .add i name value => store.modify i fun p => (Plain.add name value p).state
  | .setDefault i name value => store.modify i fun p => (Plain.setDefault name value p).state
  | .remove i name => store.modify i (Plain.remove name)
  | .extend i other =>
      match store[other]? with
      | none => store
      | some o => store.modify i (Plain.extend o)
  | .extendDict i pairs => store.modify i fun p => (Plain.extendDict pairs p).state
  | .canonicalize i => store.modify i (Plain.canonicalize x)
  | .clone i =>
      match store[i]? with
      | none => store
      | some p => store ++ [p]
  | .stripHopByHop i => store.modify i Plain.stripHopByHop
  | .clear i => store.modify i fun _ => []

theorem ascii_cases (P : Char → Prop) (h : ∀ n < 128, P (Char.ofNat n)) {c : Char}
    (hc : c.toNat < 128) : P c := by
  have hchar := h c.toNat hc
  rwa [Char.ofNat_toNat] at hchar

theorem toLower_of_not_ascii {c : Char} (h : ¬c.toNat < 128) : c.toLower = c := by
  refine dif_neg fun hupper => h ?_
  have hle : c.toNat ≤ 90 := UInt32.le_iff_toNat_le.mp hupper.2
  omega

theorem toLower_ascii {c : Char} : c.toLower.toNat < 128 ↔ c.toNat < 128 := by
  by_cases h : c.toNat < 128
  · exact iff_of_true (ascii_cases (fun c => c.toLower.toNat < 128) (by decide) h) h
  · rw [toLower_of_not_ascii h]

theorem toUpper_toLower {c : Char} (h : c.toNat < 128) : c.toUpper.toLower = c.toLower :=
  ascii_cases (fun c => c.toUpper.toLower = c.toLower) (by decide) h

theorem isTokenChar_toLower (c : Char) : isTokenChar c.toLower = isTokenChar c := by
  by_cases h : c.toNat < 128
  · exact ascii_cases (fun c => isTokenChar c.toLower = isTokenChar c) (by decide) h
  · rw [toLower_of_not_ascii h]

theorem isTokenChar_ascii {c : Char} (h : isTokenChar c) : c.toNat < 128 := by
  simp only [isTokenChar, Bool.or_eq_true] at h
  rcases h with h | h
  · simp only [Char.isAlphanum, Char.isAlpha, Char.isUpper, Char.isLower, Char.isDigit,
      Bool.or_eq_true, Bool.and_eq_true, decide_eq_true_eq, UInt32.le_iff_toNat_le,
      ge_iff_le] at h
    have hval : c.toNat = c.val.toNat := rfl
    have h90 : ('Z' : Char).val.toNat = 90 := rfl
    have h122 : ('z' : Char).val.toNat = 122 := rfl
    have h57 : ('9' : Char).val.toNat = 57 := rfl
    omega
  · have hall : ∀ c ∈ "!#$%&'*+-.^_`|~".toList, c.toNat < 128 :=
      List.forall_iff_forall_mem.mp (by decide)
    exact hall c (List.contains_iff_mem.mp h)

theorem utf8Size_ascii {c : Char} (h : c.toNat < 128) : c.utf8Size = 1 := 
  ascii_cases (fun c => c.utf8Size = 1) (by decide) h

theorem utf8ByteSize_eq (s : String) : s.utf8ByteSize = byteLen s.toList := by
  rw [← String.size_toByteArray, ← String.utf8Encode_toList]
  simp [List.utf8Encode, byteLen, encode]

theorem ascii_fold {text : Text} : Ascii (fold text) ↔ Ascii text := by
  simp only [Ascii, fold, List.forall_mem_map, toLower_ascii]

theorem isValidName_fold (name : Text) : isValidName (fold name) = isValidName name := by
  rw [isValidName, fold, List.all_map, isValidName]
  simp only [Function.comp_def, isTokenChar_toLower, List.isEmpty_map]

theorem Ascii.byteLen {text : Text} (h : Ascii text) : byteLen text = text.length := by
  apply byteLen_of_ascii
  rw [List.all_eq_true]
  exact fun c hc => beq_iff_eq.mpr (utf8Size_ascii (h c hc))

theorem trimMatches_eq (strip : Char → Bool) (text : Text) :
    trimMatches strip text = (text.dropWhile strip).rdropWhile strip := rfl

theorem trimMatches_trimMatches (strip : Char → Bool) (text : Text) :
    trimMatches strip (trimMatches strip text) = trimMatches strip text := by
  simp only [trimMatches_eq]
  have hfirst : ((text.dropWhile strip).rdropWhile strip).dropWhile strip =
      (text.dropWhile strip).rdropWhile strip := by
    rw [List.dropWhile_eq_self_iff]
    intro hpos
    have hprefix := List.rdropWhile_prefix strip (text.dropWhile strip)
    have hlong := Nat.lt_of_lt_of_le hpos hprefix.length_le
    rw [List.IsPrefix.getElem hprefix]
    exact List.dropWhile_get_zero_not strip text hlong
  rw [hfirst, List.rdropWhile_idempotent]

theorem coerce_again {name name' text : Text} {value : Option Text}
    (h : coerce name value = .ok text) : coerce name' (some text) = .ok text := by
  cases value with
  | none => exact absurd h (by simp [coerce])
  | some given =>
      simp only [coerce] at h ⊢
      split at h
      · next hvalid =>
          obtain rfl := Except.ok.inj h
          rw [trimMatches_trimMatches, if_pos hvalid]
      · exact absurd h (by simp)

namespace Plain

/-- The bytes of the names and values on the wire. -/
def wireTotal (p : Plain) : Nat := (p.map fun q => byteLen q.1 + byteLen q.2 + 4).sum

def toField (e : Text × Option Text × List Text) : Text × HeaderEntry :=
  (e.1, ⟨e.2.1.getD [], e.2.2⟩)

def fields (p : Plain) : List (Text × HeaderEntry) := (group fold p).map toField

/-- Names are valid, and values as they are taken. -/
def Clean (p : Plain) : Prop :=
  ∀ q ∈ p, isValidName q.1 = true ∧ ∀ name, coerce name (some q.2) = .ok q.2

end Plain

structure Agrees (h : Headers) (p : Plain) : Prop where
  fields : h.fields = p.fields
  size : h.size = p.wireTotal
  clean : p.Clean

/-- The lower case of the name is in ASCII only if the name is. -/
def Casing.Plainly (x : Casing) (name : Text) : Prop := Ascii (x.lower name) → Ascii name

variable {x : Casing} {h : Headers} {p : Plain} {name : Text}

theorem Casing.lower_eq (x : Casing) (hname : Ascii name) : x.lower name = fold name :=
  x.lower_ascii name hname

theorem ascii_of_valid (hname : isValidName name = true) : Ascii name := by
  simp only [isValidName, Bool.and_eq_true, List.all_eq_true] at hname
  exact fun c hc => isTokenChar_ascii (hname.2 c hc)

theorem byteLen_of_fold {s t : Text} (hs : Ascii s) (ht : Ascii t) (heq : fold s = fold t) :
    byteLen s = byteLen t := by
  have hlength := congrArg List.length heq
  rw [fold, fold, List.length_map, List.length_map] at hlength
  rw [hs.byteLen, ht.byteLen, hlength]

theorem lookup_map_snd {κ α β : Type} [BEq κ] (f : α → β) (l : List (κ × α)) (k : κ) :
    (l.map fun e => (e.1, f e.2)).lookup k = (l.lookup k).map f := by
  induction l with
  | nil => rfl
  | cons e l ih =>
      rw [List.map_cons, List.lookup_cons, List.lookup_cons, ih]
      cases k == e.1 <;> rfl

namespace Plain

theorem lookup_fields (p : Plain) (k : Text) : p.fields.lookup k =
    if has fold p k then some ⟨(nameOf fold p k).getD [], valuesOf fold p k⟩ else none := by
  have hmap := lookup_map_snd
    (fun e : Option Text × List Text => (⟨e.1.getD [], e.2⟩ : HeaderEntry)) (group fold p) k
  refine hmap.trans ?_
  rw [lookup_group]
  split <;> rfl

theorem Clean.ascii (hp : p.Clean) {k : Text} (hhas : has fold p k) : Ascii k := by
  obtain ⟨q, hq, rfl⟩ := hhas
  exact ascii_fold.mpr (ascii_of_valid (hp q hq).1)

theorem Clean.snoc (hp : p.Clean) {value : Text} (hname : isValidName name = true)
    (hvalue : ∀ name, coerce name (some value) = .ok value) : Clean (p ++ [(name, value)]) := by
  intro q hq
  rcases List.mem_append.mp hq with hq | hq
  · exact hp q hq
  · rw [List.mem_singleton.mp hq]
    exact ⟨hname, hvalue⟩

theorem Clean.without (hp : p.Clean) (k : Text) : Clean (Grouped.without fold p k) :=
  fun q hq => hp q (List.mem_filter.mp hq).1

theorem wireTotal_append (p q : Plain) : wireTotal (p ++ q) = p.wireTotal + wireTotal q := by
  rw [wireTotal, List.map_append, List.sum_append, wireTotal, wireTotal]

theorem wireTotal_split (p : Plain) (k : Text) : p.wireTotal =
    wireTotal (Grouped.without fold p k) + wireTotal (p.filter fun q => decide (fold q.1 = k)) := by
  induction p with
  | nil => rfl
  | cons q p ih =>
      unfold wireTotal Grouped.without at ih ⊢
      rw [List.map_cons, List.sum_cons, ih]
      by_cases heq : fold q.1 = k
      · simp [heq]
        omega
      · simp [heq]
        omega

end Plain

section

variable (hagrees : Agrees h p)
include hagrees

theorem Agrees.entry_eq (hname : x.Plainly name) : h.entry x name =
    if has fold p (fold name) then
      some ⟨(nameOf fold p (fold name)).getD [], valuesOf fold p (fold name)⟩
    else none := by
  rw [Headers.entry, hagrees.fields, Plain.lookup_fields]
  by_cases hascii : Ascii name
  · rw [x.lower_eq hascii]
  · rw [if_neg fun hhas => hascii (hname (hagrees.clean.ascii hhas)),
      if_neg fun hhas => hascii (ascii_fold.mp (hagrees.clean.ascii hhas))]

theorem Agrees.getAll_eq (hname : x.Plainly name) : h.getAll x name = p.getAll name := by
  rw [Headers.getAll, hagrees.entry_eq hname, Plain.getAll]
  by_cases hhas : has fold p (fold name)
  · rw [if_pos hhas]
    rfl
  · rw [if_neg hhas]
    by_contra hne
    exact hhas (valuesOf_ne_nil.mp (Ne.symm hne))

theorem Agrees.get_eq (hname : x.Plainly name) : h.get x name = p.get name := by
  rw [Plain.get, ← hagrees.getAll_eq hname, Headers.get, Headers.getAll]
  cases h.entry x name <;> rfl

theorem Agrees.contains_eq (hname : x.Plainly name) : h.contains x name = p.contains name := by
  rw [Headers.contains, hagrees.entry_eq hname, Plain.contains]
  by_cases hhas : has fold p (fold name)
  · rw [if_pos hhas, decide_eq_true hhas]
    rfl
  · rw [if_neg hhas, decide_eq_false hhas]
    rfl

theorem Agrees.getJoined_eq (hname : x.Plainly name) : h.getJoined x name = p.getJoined name := by
  rw [Headers.getJoined, hagrees.entry_eq hname, Plain.getJoined]
  split <;> rfl

theorem Agrees.names_eq : h.names = p.names := by
  rw [Headers.names, hagrees.fields, Plain.fields, Plain.names, group, List.map_map, List.map_map]
  rfl

end

theorem trim_ascii {part : Text} (hpart : Ascii part) : Ascii (trim part) := by
  intro c hc
  have hmem := (List.rdropWhile_prefix _ _).subset hc
  exact hpart c ((List.dropWhile_suffix _).subset hmem)

theorem mem_of_mem_intercalate {α : Type} {sep : List α} {l : List α} {ls : List (List α)}
    (hl : l ∈ ls) : ∀ c ∈ l, c ∈ sep.intercalate ls := by
  induction ls with
  | nil => exact absurd hl (List.not_mem_nil)
  | cons l' ls ih =>
      intro c hc
      cases ls with
      | nil =>
          rw [List.mem_singleton.mp hl] at hc
          rwa [List.intercalate_singleton]
      | cons l'' ls =>
          rw [List.intercalate_cons_cons]
          rcases List.mem_cons.mp hl with rfl | hl
          · exact List.mem_append_left _ (List.mem_append_left _ hc)
          · exact List.mem_append_right _ (ih hl c hc)

theorem splitOn_ascii {text part : Text} {sep : Char} (htext : Ascii text)
    (hpart : part ∈ text.splitOn sep) : Ascii part := by
  intro c hc
  have hmem : c ∈ [sep].intercalate (text.splitOn sep) := mem_of_mem_intercalate hpart c hc
  rw [List.intercalate_splitOn] at hmem
  exact htext c hmem

theorem splitComma_ascii {text part : Text} (htext : Ascii text)
    (hpart : part ∈ splitComma text) : Ascii part := by
  rw [splitComma] at hpart
  split at hpart
  · exact absurd hpart List.not_mem_nil
  · exact splitOn_ascii htext hpart

theorem Agrees.tokens_eq (hagrees : Agrees h p) (hname : x.Plainly name)
    (hvalues : ∀ value ∈ p.getAll name, Ascii value) : h.tokens x name = p.tokens name := by
  rw [Headers.tokens, hagrees.getAll_eq hname, Plain.tokens]
  apply List.flatMap_congr
  intro value hvalue
  congr 1
  apply List.map_congr_left
  intro part hpart
  exact x.lower_eq (trim_ascii (splitComma_ascii (hvalues value hvalue) hpart))

theorem Agrees.containsToken_eq (hagrees : Agrees h p) (hname : x.Plainly name)
    (hvalues : ∀ value ∈ p.getAll name, Ascii value) {token : Text} (htoken : Ascii token) :
    h.containsToken x name token = p.containsToken name token := by
  have hparts : h.containsToken x name token = (h.getAll x name).any fun value =>
      (splitComma value).any fun part => decide (x.lower (trim part) = x.lower token) := by
    rw [Headers.containsToken, Headers.getAll]
    cases h.entry x name <;> rfl
  rw [hparts, hagrees.getAll_eq hname, Plain.containsToken, Bool.eq_iff_iff]
  simp only [List.any_eq_true, decide_eq_true_eq]
  apply exists_congr
  intro value
  apply and_congr_right
  intro hvalue
  apply exists_congr
  intro part
  apply and_congr_right
  intro hpart
  rw [x.lower_eq htoken,
    x.lower_eq (trim_ascii (splitComma_ascii (hvalues value hvalue) hpart))]

theorem byteLen_flatMap {α : Type} (f : α → Text) (l : List α) :
    byteLen (l.flatMap f) = (l.map fun a => byteLen (f a)).sum := by
  induction l with
  | nil => rfl
  | cons a l ih => rw [List.flatMap_cons, byteLen_append, ih, List.map_cons, List.sum_cons]

/-- The bytes an entry of a grouped list takes on the wire. -/
def entryTotal (e : Text × Option Text × List Text) : Nat :=
  (e.2.2.map fun value => byteLen (e.2.1.getD []) + byteLen value + 4).sum

theorem entryTotal_snoc (k : Text) (n : Option Text) (values : List Text) (value : Text) :
    entryTotal (k, n, values ++ [value]) =
      entryTotal (k, n, values) + (byteLen (n.getD []) + byteLen value + 4) := by
  simp [entryTotal]

theorem sum_map_update {α : Type} (l : List α) (f : α → Nat) (g : α → α) (a : α) (d : Nat)
    (hnodup : l.Nodup) (hmem : a ∈ l) (hat : f (g a) = f a + d) (helse : ∀ b ∈ l, b ≠ a → g b = b) :
    ((l.map g).map f).sum = (l.map f).sum + d := by
  induction l with
  | nil => exact absurd hmem List.not_mem_nil
  | cons b l ih =>
      obtain ⟨hnot, hnodup⟩ := List.nodup_cons.mp hnodup
      simp only [List.map_cons, List.sum_cons]
      rcases List.mem_cons.mp hmem with rfl | hmem
      · have hsame : l.map g = l := by
          refine (List.map_congr_left fun b hb => ?_).trans (List.map_id l)
          exact helse b (List.mem_cons_of_mem _ hb) fun heq => hnot (heq ▸ hb)
        rw [hsame, hat]
        omega
      · have hne : b ≠ a := fun heq => hnot (heq ▸ hmem)
        rw [helse b List.mem_cons_self hne,
          ih hnodup hmem fun c hc => helse c (List.mem_cons_of_mem _ hc)]
        omega

theorem mem_group {e : Text × Option Text × List Text} (he : e ∈ group fold p) :
    has fold p e.1 ∧ e = (e.1, nameOf fold p e.1, valuesOf fold p e.1) := by
  obtain ⟨k, hk, rfl⟩ := List.mem_map.mp he
  exact ⟨mem_keys.mp hk, rfl⟩

theorem nodup_group (p : Plain) : (group fold p).Nodup :=
  List.Nodup.map (fun _ _ heq => congrArg Prod.fst heq) (nodup_firsts _)

theorem Plain.Clean.nameOf (hp : p.Clean) {k : Text} (hhas : has fold p k) :
    ∃ n, Grouped.nameOf fold p k = some n ∧ fold n = k ∧ Ascii n := by
  cases hn : Grouped.nameOf fold p k with
  | none => exact absurd hhas (nameOf_none.mp hn)
  | some n =>
      have hkey := key_nameOf hn
      refine ⟨n, rfl, hkey, ascii_fold.mp ?_⟩
      rw [hkey]
      exact hp.ascii hhas

theorem wireTotal_group (hp : p.Clean) : p.wireTotal = ((group fold p).map entryTotal).sum := by
  induction p using List.reverseRecOn with
  | nil => rfl
  | append_singleton p q ih =>
      obtain ⟨n, v⟩ := q
      have hclean : Plain.Clean p := fun q hq => hp q (List.mem_append_left _ hq)
      have hascii : Ascii n := ascii_of_valid (hp (n, v) (by simp)).1
      have hlast : Plain.wireTotal [(n, v)] = byteLen n + byteLen v + 4 := by
        simp [Plain.wireTotal]
      rw [Plain.wireTotal_append, ih hclean, group_snoc, hlast]
      by_cases hhas : has fold p (fold n)
      · obtain ⟨first, hfirst, hkey, hfirstAscii⟩ := hclean.nameOf hhas
        have hlen := byteLen_of_fold hfirstAscii hascii hkey
        rw [if_pos hhas]
        symm
        apply sum_map_update _ _ _ (fold n, nameOf fold p (fold n), valuesOf fold p (fold n))
        · exact nodup_group p
        · exact List.mem_map.mpr ⟨fold n, mem_keys.mpr hhas, rfl⟩
        · rw [if_pos rfl, entryTotal_snoc, hfirst, ← hlen]
          rfl
        · intro e he hne
          rw [if_neg]
          intro hkey
          have hshape := (mem_group he).2
          rw [hkey] at hshape
          exact hne hshape
      · rw [if_neg hhas, List.map_append, List.sum_append]
        simp [entryTotal]

/-- The running size is the number of bytes that are written. -/
theorem Agrees.size_eq (hagrees : Agrees h p) : h.size = byteLen h.toWire := by
  rw [hagrees.size, wireTotal_group hagrees.clean, Headers.toWire, hagrees.fields, Plain.fields,
    byteLen_flatMap, List.map_map]
  congr 2
  apply List.map_congr_left
  intro e _
  rw [Function.comp_apply, byteLen_flatMap, entryTotal]
  congr 1
  apply List.map_congr_left
  intro value _
  simp only [Plain.toField, byteLen_append]
  have hcolon : byteLen [':', ' '] = 2 := rfl
  have hcrlf : byteLen ['\r', '\n'] = 2 := rfl
  omega

end Zuri.Http
