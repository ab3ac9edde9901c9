import Zuri.Float.Exact
import Zuri.Maps.Ordered

/-!
The storage of a dictionary: its entries in the order they were put in, and past eight of
them an index by hash. Keys are numbers and strings by value, and every other value by
identity. What the hasher makes of what a key writes into it is a parameter.
-/

namespace Zuri.Vm

inductive Value where
  | number (n : F64)
  | nil
  | bool (b : Bool)
  | obj (addr : Nat)
  deriving DecidableEq

/-- The text at every address that holds a string. -/
abbrev Texts := Nat → Option (List Char)

/-- Whether two keys name the same entry. -/
def sameKey (t : Texts) : Value → Value → Bool
  | .number x, .number y => x.eq y
  | .obj a, .obj b => a == b || ((t a).isSome && t a == t b)
  | a, b => a == b

/-- What a key writes into the hasher. -/
inductive HashInput where
  | whole (n : Int)
  | bits (b : BitVec 64)
  | nil
  | bool (b : Bool)
  | text (text : List Char)
  | addr (addr : Nat)
  deriving DecidableEq

def hashInput (t : Texts) : Value → HashInput
  | .number n => if (F64.ofInt n.toInt).eq n then .whole n.toInt else .bits n.bits
  | .nil => .nil
  | .bool b => .bool b
  | .obj a =>
      match t a with
      | some text => .text text
      | none => .addr a

structure Slot where
  hash : Nat
  key : Value
  place : Nat
  deriving DecidableEq

structure DictStorage where
  entries : List (Value × Value)
  index : Option (List Slot)
  deriving DecidableEq

namespace DictStorage

variable (fx : HashInput → Nat) (t : Texts)

/-- The most entries found by scanning. -/
def scanned : Nat := 8

def new : DictStorage := ⟨[], none⟩

/-- A slot of the index holds a key when the hashes and the keys agree. -/
def holds (key : Value) (slot : Slot) : Bool :=
  slot.hash == fx (hashInput t key) && sameKey t key slot.key

def insert (index : List Slot) (key : Value) (place : Nat) : List Slot :=
  match index.findIdx? (holds fx t key) with
  | some i => index.modify i fun slot => { slot with place := place }
  | none => index ++ [⟨fx (hashInput t key), key, place⟩]

def reindex (s : DictStorage) : DictStorage :=
  if s.entries.length ≤ scanned then { s with index := none }
  else
    { s with
      index := some (s.entries.zipIdx.foldl (fun index e => insert fx t index e.1.1 e.2) []) }

def indexOf (s : DictStorage) (key : Value) : Option Nat :=
  match s.index with
  | some index => (index.find? (holds fx t key)).map Slot.place
  | none => s.entries.findIdx? fun e => sameKey t e.1 key

def get (s : DictStorage) (key : Value) : Option Value :=
  (s.indexOf fx t key).bind fun i => s.entries[i]?.map Prod.snd

def set (s : DictStorage) (key value : Value) : DictStorage :=
  match s.indexOf fx t key with
  | some i => { s with entries := s.entries.modify i fun e => (e.1, value) }
  | none =>
      let entries := s.entries ++ [(key, value)]
      match s.index with
      | some index => ⟨entries, some (insert fx t index key s.entries.length)⟩
      | none => if scanned < entries.length then reindex fx t ⟨entries, none⟩ else ⟨entries, none⟩

/-- No key repeats an earlier one. -/
def distinct (pairs : List (Value × Value)) : Bool :=
  pairs.zipIdx.all fun p => (pairs.take p.2).all fun e => !sameKey t e.1 p.1.1

def fromPairs (pairs : List (Value × Value)) : DictStorage :=
  if pairs.length ≤ scanned && distinct t pairs then ⟨pairs, none⟩
  else pairs.foldl (fun s p => s.set fx t p.1 p.2) new

/-- The key after a given one; nil asks for the first and is the answer past the last. -/
def nextKey (s : DictStorage) (key : Value) : Value :=
  if s.entries.length = 0 then .nil
  else if key = .nil then (s.entries[0]?.map Prod.fst).getD .nil
  else
    match s.indexOf fx t key with
    | some i =>
        if i < s.entries.length - 1 then (s.entries[i + 1]?.map Prod.fst).getD .nil else .nil
    | none => .nil

def valueAt (s : DictStorage) (key : Value) : Value :=
  match s.indexOf fx t key with
  | some i => (s.entries[i]?.map Prod.snd).getD .nil
  | none => .nil

/-- The keys and values a loop over the dictionary sees, which ends at the first nil key. -/
def stepped (s : DictStorage) : Nat → Value → Option (List (Value × Value))
  | 0, _ => none
  | fuel + 1, key =>
      let next := s.nextKey fx t key
      if next = .nil then some []
      else (s.stepped fuel next).map ((next, s.valueAt fx t next) :: ·)

end DictStorage

section Keys

variable {t : Texts} {a b k : Value}

theorem sameKey_symm (t : Texts) (a b : Value) : sameKey t a b = sameKey t b a := by
  cases a with
  | number x =>
      cases b with
      | number y => exact F64.eq_symm x y
      | _ => rfl
  | nil => cases b <;> rfl
  | bool x =>
      cases b with
      | bool y =>
          apply Bool.eq_iff_iff.mpr
          simp only [sameKey, beq_iff_eq]
          exact eq_comm
      | _ => rfl
  | obj x =>
      cases b with
      | obj y =>
          apply Bool.eq_iff_iff.mpr
          simp only [sameKey, Bool.or_eq_true, Bool.and_eq_true, beq_iff_eq]
          constructor
          · rintro (rfl | ⟨htext, hsame⟩)
            · exact .inl rfl
            · exact .inr ⟨hsame ▸ htext, hsame.symm⟩
          · rintro (rfl | ⟨htext, hsame⟩)
            · exact .inl rfl
            · exact .inr ⟨hsame ▸ htext, hsame.symm⟩
      | _ => rfl

/-- A NaN is the same key as nothing, itself included. -/
def Steady (k : Value) : Prop := k ≠ .nil ∧ ∀ n, k = .number n → n.isNan = false

theorem Steady.same_self (h : Steady k) : sameKey t k k = true := by
  cases k with
  | number n => exact F64.eq_self n (h.2 n rfl)
  | nil => rfl
  | bool b => simp [sameKey]
  | obj a => simp [sameKey]

/-- Equal keys write the same into the hasher. -/
theorem hashInput_of_sameKey (h : sameKey t a b = true) : hashInput t a = hashInput t b := by
  cases a with
  | number x =>
      cases b with
      | number y =>
          obtain rfl | ⟨s, s', hx, hy⟩ := F64.eq_cases h
          · rfl
          · have hzero : ∀ (n : F64) (s : Bool), n.num = .fin s 0 →
                hashInput t (.number n) = .whole 0 := by
              intro n s hn
              have hint : n.toInt = 0 := by
                rw [F64.toInt, hn, F64.Num.toInt, Nat.zero_div]
                cases s <;> decide
              have heq : (F64.ofInt 0).eq n = true := by
                rw [F64.eq, F64.num_ofInt (by decide), hn, F64.Num.eq, Int.natAbs_zero, Nat.zero_mul]
                cases s <;> decide
              rw [hashInput, hint, if_pos heq]
            rw [hzero x s hx, hzero y s' hy]
      | _ => cases h
  | nil => cases b <;> first | rfl | cases h
  | bool x =>
      cases b with
      | bool y => rw [show x = y by simpa [sameKey] using h]
      | _ => cases h
  | obj x =>
      cases b with
      | obj y =>
          simp only [sameKey, Bool.or_eq_true, Bool.and_eq_true, beq_iff_eq] at h
          rcases h with rfl | ⟨htext, hsame⟩
          · rfl
          · obtain ⟨text, hx⟩ := Option.isSome_iff_exists.mp htext
            have hy : t y = some text := hsame ▸ hx
            simp only [hashInput, hx, hy]
      | _ => cases h

end Keys

namespace DictStorage

open OrderedMap

variable {fx : HashInput → Nat} {t : Texts} {s : DictStorage} {entries pairs : List (Value × Value)}
  {key value : Value}

def slotOf (fx : HashInput → Nat) (t : Texts) (e : (Value × Value) × Nat) : Slot :=
  ⟨fx (hashInput t e.1.1), e.1.1, e.2⟩

def slots (fx : HashInput → Nat) (t : Texts) (entries : List (Value × Value)) : List Slot :=
  entries.zipIdx.map (slotOf fx t)

/-- No two entries have the same key, and an index has every entry at its place. -/
structure Exact (fx : HashInput → Nat) (t : Texts) (s : DictStorage) : Prop where
  distinct : Distinct (sameKey t) s.entries
  index : ∀ index, s.index = some index → index = slots fx t s.entries

theorem holds_slotOf (e : (Value × Value) × Nat) :
    holds fx t key (slotOf fx t e) = sameKey t e.1.1 key := by
  rw [sameKey_symm t e.1.1 key]
  apply Bool.eq_iff_iff.mpr
  simp only [holds, slotOf, Bool.and_eq_true, beq_iff_eq]
  constructor
  · exact And.right
  · intro hsame
    exact ⟨by rw [hashInput_of_sameKey hsame], hsame⟩

theorem find_slots_from (n : Nat) :
    (((entries.zipIdx n).map (slotOf fx t)).find? (holds fx t key)).map Slot.place =
      (position (sameKey t) entries key).map (· + n) := by
  induction entries generalizing n with
  | nil => rfl
  | cons e entries ih =>
      rw [List.zipIdx_cons, List.map_cons, position, List.findIdx?_cons]
      cases hsame : sameKey t e.1 key with
      | true =>
          rw [List.find?_cons_of_pos (by rw [holds_slotOf]; exact hsame)]
          simp [slotOf]
      | false =>
          rw [List.find?_cons_of_neg (by rw [holds_slotOf]; simp [hsame]), ih]
          simp only [Bool.false_eq_true, if_false, Option.map_map]
          rw [position]
          congr 1
          funext i
          simp only [Function.comp]
          omega

theorem find_slots :
    ((slots fx t entries).find? (holds fx t key)).map Slot.place =
      position (sameKey t) entries key := by
  rw [slots, find_slots_from]
  simp

theorem Exact.indexOf (h : s.Exact fx t) (key : Value) :
    s.indexOf fx t key = position (sameKey t) s.entries key := by
  unfold DictStorage.indexOf
  cases hindex : s.index with
  | none => rfl
  | some index =>
      rw [h.index index hindex]
      exact find_slots

theorem Exact.get (h : s.Exact fx t) (key : Value) :
    s.get fx t key = OrderedMap.get (sameKey t) s.entries key := by
  rw [DictStorage.get, h.indexOf, get_eq_position]

theorem insert_slots (value : Value) (hnone : position (sameKey t) entries key = none) :
    insert fx t (slots fx t entries) key entries.length = slots fx t (entries ++ [(key, value)]) := by
  have hfind : (slots fx t entries).findIdx? (holds fx t key) = none := by
    rw [List.findIdx?_eq_none_iff]
    intro slot hslot
    obtain ⟨e, he, rfl⟩ := List.mem_map.mp hslot
    rw [holds_slotOf]
    exact position_none.mp hnone e.1 (List.fst_mem_of_mem_zipIdx he)
  rw [insert, hfind]
  simp only [slots, List.zipIdx_append, List.map_append, Nat.zero_add]
  rfl

theorem insert_all (entries more : List (Value × Value)) (h : Distinct (sameKey t) (entries ++ more)) :
    (more.zipIdx entries.length).foldl (fun index e => insert fx t index e.1.1 e.2)
      (slots fx t entries) = slots fx t (entries ++ more) := by
  induction more generalizing entries with
  | nil => simp
  | cons e more ih =>
      have hnone : position (sameKey t) entries e.1 = none := by
        rw [position_none]
        intro earlier hearlier
        exact (List.pairwise_append.mp h).2.2 earlier hearlier e List.mem_cons_self
      rw [List.append_cons] at h ⊢
      rw [List.zipIdx_cons, List.foldl_cons, insert_slots e.2 hnone]
      have := ih _ h
      rw [List.length_append, List.length_singleton] at this
      exact this

theorem slots_congr {more : List (Value × Value)}
    (h : entries.map Prod.fst = more.map Prod.fst) : slots fx t entries = slots fx t more := by
  have hslots : ∀ l : List (Value × Value), slots fx t l =
      (l.map Prod.fst).zipIdx.map fun k => ⟨fx (hashInput t k.1), k.1, k.2⟩ := by
    intro l
    rw [slots, List.zipIdx_map, List.map_map]
    rfl
  rw [hslots, hslots, h]

theorem reindex_entries (fx : HashInput → Nat) (t : Texts) (s : DictStorage) :
    (s.reindex fx t).entries = s.entries := by
  unfold reindex
  split <;> rfl

theorem reindex_exact (h : Distinct (sameKey t) s.entries) : (s.reindex fx t).Exact fx t := by
  refine ⟨by rw [reindex_entries]; exact h, fun index hindex => ?_⟩
  rw [reindex_entries]
  unfold reindex at hindex
  split at hindex
  · cases hindex
  · cases hindex
    exact insert_all [] s.entries h

theorem set_entries (h : s.Exact fx t) (key value : Value) :
    (s.set fx t key value).entries = put (sameKey t) s.entries key value := by
  unfold DictStorage.set put
  rw [h.indexOf]
  cases position (sameKey t) s.entries key with
  | some i => rfl
  | none =>
      cases s.index with
      | some index => rfl
      | none =>
          simp only
          split
          · rw [reindex_entries]
          · rfl

theorem set_exact (h : s.Exact fx t) (key value : Value) : (s.set fx t key value).Exact fx t := by
  have hdistinct : Distinct (sameKey t) (s.set fx t key value).entries := by
    rw [set_entries h key value]
    exact h.distinct.put
  unfold DictStorage.set at hdistinct ⊢
  cases hat : s.indexOf fx t key with
  | some i =>
      rw [hat] at hdistinct
      refine ⟨hdistinct, fun index hindex => ?_⟩
      rw [h.index index hindex]
      exact slots_congr (map_fst_modify s.entries i value).symm
  | none =>
      rw [hat] at hdistinct
      rw [h.indexOf] at hat
      cases hindex : s.index with
      | some index =>
          rw [hindex] at hdistinct
          refine ⟨hdistinct, fun index' hindex' => ?_⟩
          cases hindex'
          rw [h.index index hindex]
          exact insert_slots value hat
      | none =>
          rw [hindex] at hdistinct
          simp only at hdistinct ⊢
          split
          · apply reindex_exact
            rw [← reindex_entries fx t]
            rwa [if_pos ‹_›] at hdistinct
          · rw [if_neg ‹_›] at hdistinct
            exact ⟨hdistinct, fun _ hindex' => by cases hindex'⟩

theorem new_exact : new.Exact fx t := ⟨Distinct.nil, fun _ h => by cases h⟩

theorem setAll (h : s.Exact fx t) (pairs : List (Value × Value)) :
    (pairs.foldl (fun s p => s.set fx t p.1 p.2) s).Exact fx t ∧
      (pairs.foldl (fun s p => s.set fx t p.1 p.2) s).entries =
        putAll (sameKey t) s.entries pairs := by
  induction pairs generalizing s with
  | nil => exact ⟨h, rfl⟩
  | cons p pairs ih =>
      obtain ⟨hexact, hentries⟩ := ih (set_exact h p.1 p.2)
      rw [set_entries h p.1 p.2] at hentries
      exact ⟨hexact, hentries⟩

theorem distinct_sound (h : distinct t pairs = true) : Distinct (sameKey t) pairs := by
  apply List.pairwise_iff_getElem.mpr
  intro i j hi hj hij
  simp only [distinct, List.all_eq_true] at h
  have := h (pairs[j], j) (List.mk_mem_zipIdx_iff_getElem?.mpr (List.getElem?_eq_getElem hj))
    pairs[i] (List.mem_take_iff_getElem.mpr ⟨i, by omega, rfl⟩)
  simpa using this

theorem fromPairs_spec (fx : HashInput → Nat) (t : Texts) (pairs : List (Value × Value)) :
    (fromPairs fx t pairs).Exact fx t ∧
      (fromPairs fx t pairs).entries = putAll (sameKey t) [] pairs := by
  unfold fromPairs
  split
  · rename_i h
    have hdistinct := distinct_sound (Bool.and_eq_true _ _ ▸ h).2
    exact ⟨⟨hdistinct, fun _ h => by cases h⟩, hdistinct.putAll_nil.symm⟩
  · exact setAll new_exact pairs

theorem fromPairs_distinct (fx : HashInput → Nat) (h : Distinct (sameKey t) pairs) :
    (fromPairs fx t pairs).entries = pairs := by
  rw [(fromPairs_spec fx t pairs).2, h.putAll_nil]

theorem sameKey_congr {t t' : Texts} {a b : Value} (ha : ∀ x, a = .obj x → t' x = t x)
    (hb : ∀ x, b = .obj x → t' x = t x) : sameKey t' a b = sameKey t a b := by
  cases a with
  | obj x =>
      cases b with
      | obj y => simp only [sameKey, ha x rfl, hb y rfl]
      | _ => rfl
  | _ => cases b <;> rfl

theorem hashInput_congr {t t' : Texts} {a : Value} (ha : ∀ x, a = .obj x → t' x = t x) :
    hashInput t' a = hashInput t a := by
  cases a with
  | obj x => simp only [hashInput, ha x rfl]
  | _ => rfl

theorem slots_retext {t' : Texts}
    (hsame : ∀ e ∈ entries, ∀ x, e.1 = .obj x → t' x = t x) :
    slots fx t' entries = slots fx t entries := by
  apply List.map_congr_left
  intro e he
  simp only [slotOf, hashInput_congr (hsame e.1 (List.fst_mem_of_mem_zipIdx he))]

theorem distinct_retext {t' : Texts} (h : Distinct (sameKey t) entries)
    (hsame : ∀ e ∈ entries, ∀ x, e.1 = .obj x → t' x = t x) : Distinct (sameKey t') entries := by
  refine List.Pairwise.imp_of_mem (fun ha hb hdiffer => ?_) h
  rw [sameKey_congr (hsame _ ha) (hsame _ hb)]
  exact hdiffer

/-- A dictionary is exact as long as the texts of its keys are what they were. -/
theorem Exact.retext {t' : Texts} (h : s.Exact fx t)
    (hsame : ∀ e ∈ s.entries, ∀ x, e.1 = .obj x → t' x = t x) : s.Exact fx t' :=
  ⟨distinct_retext h.distinct hsame, fun index hindex => by
    rw [slots_retext hsame]
    exact h.index index hindex⟩

theorem nextKey_nil : s.nextKey fx t .nil = (s.entries[0]?.map Prod.fst).getD .nil := by
  unfold nextKey
  cases s.entries <;> rfl

theorem Exact.at (h : s.Exact fx t) {i : Nat} {e : Value × Value} (hi : s.entries[i]? = some e)
    (hsteady : Steady e.1) :
    s.nextKey fx t e.1 = (s.entries[i + 1]?.map Prod.fst).getD .nil ∧ s.valueAt fx t e.1 = e.2 := by
  have hlt := (List.getElem?_eq_some_iff.mp hi).1
  have hindex : s.indexOf fx t e.1 = some i := by
    rw [h.indexOf]
    exact h.distinct.position_at hi hsteady.same_self
  constructor
  · unfold nextKey
    rw [if_neg (by omega), if_neg hsteady.1, hindex]
    simp only
    split
    · rfl
    · rw [List.getElem?_eq_none (by omega)]
      rfl
  · rw [valueAt, hindex]
    simp [hi]

/-- What is stepped through from a key on, when that key is followed by the entry at `i`. -/
theorem Exact.stepped_from (h : s.Exact fx t) (hsteady : ∀ e ∈ s.entries, Steady e.1) (i : Nat)
    (hnext : s.nextKey fx t key = (s.entries[i]?.map Prod.fst).getD .nil) :
    s.stepped fx t (s.entries.length - i + 1) key = some (s.entries.drop i) := by
  induction hn : s.entries.length - i generalizing i key with
  | zero =>
      rw [List.getElem?_eq_none (by omega)] at hnext
      rw [stepped, hnext, List.drop_eq_nil_of_le (by omega)]
      rfl
  | succ n ih =>
      have hlt : i < s.entries.length := by omega
      have hi := List.getElem?_eq_getElem hlt
      have hs := hsteady _ (List.getElem_mem hlt)
      obtain ⟨hafter, hvalue⟩ := h.at hi hs
      rw [hi] at hnext
      have hrest := ih (i + 1) hafter (by omega)
      rw [stepped, hnext]
      simp only [Option.map_some, Option.getD_some, if_neg hs.1, hrest, hvalue]
      rw [List.drop_eq_getElem_cons hlt]

/-- Stepping from nil goes through every entry in order and ends. -/
theorem Exact.stepped (h : s.Exact fx t) (hsteady : ∀ e ∈ s.entries, Steady e.1) :
    s.stepped fx t (s.entries.length + 1) .nil = some s.entries :=
  h.stepped_from hsteady 0 nextKey_nil

end DictStorage

end Zuri.Vm
