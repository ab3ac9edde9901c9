import Mathlib.Data.List.Basic

/-!
Maps in the order of insertion, as lists of entries, under any notion of two keys being the
same. A key that is put again keeps its place and the key it was first put under.
-/

namespace OrderedMap

variable {κ β : Type} (same : κ → κ → Bool)

def position (entries : List (κ × β)) (k : κ) : Option Nat :=
  entries.findIdx? fun e => same e.1 k

def get (entries : List (κ × β)) (k : κ) : Option β :=
  (entries.find? fun e => same e.1 k).map Prod.snd

def put (entries : List (κ × β)) (k : κ) (v : β) : List (κ × β) :=
  match position same entries k with
  | some i => entries.modify i fun e => (e.1, v)
  | none => entries ++ [(k, v)]

def remove (entries : List (κ × β)) (k : κ) : List (κ × β) :=
  entries.filter fun e => !same e.1 k

def putAll (entries pairs : List (κ × β)) : List (κ × β) :=
  pairs.foldl (fun es p => put same es p.1 p.2) entries

/-- No two entries have the same key. -/
def Distinct (entries : List (κ × β)) : Prop :=
  entries.Pairwise fun a b => same a.1 b.1 = false

variable {same} {entries pairs : List (κ × β)} {k : κ} {v : β}

theorem map_fst_modify (entries : List (κ × β)) (i : Nat) (v : β) :
    (entries.modify i fun e => (e.1, v)).map Prod.fst = entries.map Prod.fst := by
  apply List.ext_getElem?
  intro j
  simp only [List.getElem?_map, List.getElem?_modify]
  cases entries[j]? with
  | none => rfl
  | some e => by_cases h : i = j <;> simp [h]

theorem map_fst_put :
    (put same entries k v).map Prod.fst =
      if (position same entries k).isSome then entries.map Prod.fst
      else entries.map Prod.fst ++ [k] := by
  unfold put
  cases position same entries k with
  | some i => exact map_fst_modify entries i v
  | none => simp

theorem distinct_iff_keys :
    Distinct same entries ↔ (entries.map Prod.fst).Pairwise fun a b => same a b = false := by
  rw [List.pairwise_map]
  exact Iff.rfl

theorem position_none : position same entries k = none ↔ ∀ e ∈ entries, same e.1 k = false := by
  simp only [position, List.findIdx?_eq_none_iff]

theorem forall_put {P : κ → Prop} (h : ∀ e ∈ entries, P e.1) (hk : P k) :
    ∀ e ∈ put same entries k v, P e.1 := by
  have hkeys : ∀ x ∈ (put same entries k v).map Prod.fst, P x := by
    rw [map_fst_put]
    intro x hx
    split at hx
    · obtain ⟨e, he, rfl⟩ := List.mem_map.mp hx
      exact h e he
    · rcases List.mem_append.mp hx with hx | hx
      · obtain ⟨e, he, rfl⟩ := List.mem_map.mp hx
        exact h e he
      · rw [List.mem_singleton.mp hx]
        exact hk
  exact fun e he => hkeys e.1 (List.mem_map_of_mem he)

theorem forall_putAll {P : κ → Prop} (h : ∀ e ∈ entries, P e.1) (hp : ∀ p ∈ pairs, P p.1) :
    ∀ e ∈ putAll same entries pairs, P e.1 := by
  induction pairs generalizing entries with
  | nil => exact h
  | cons p pairs ih =>
      exact ih (forall_put h (hp p List.mem_cons_self))
        fun q hq => hp q (List.mem_cons_of_mem p hq)

theorem remove_absent (h : position same entries k = none) : remove same entries k = entries := by
  apply List.filter_eq_self.mpr
  intro e he
  rw [position_none.mp h e he]
  rfl

namespace Distinct

theorem nil : Distinct same ([] : List (κ × β)) := List.Pairwise.nil

theorem snoc (h : Distinct same entries) (hk : ∀ e ∈ entries, same e.1 k = false) :
    Distinct same (entries ++ [(k, v)]) := by
  refine List.pairwise_append.mpr ⟨h, List.pairwise_singleton _ _, fun a ha b hb => ?_⟩
  rw [List.mem_singleton.mp hb]
  exact hk a ha

theorem put (h : Distinct same entries) : Distinct same (put same entries k v) := by
  rw [distinct_iff_keys, map_fst_put]
  cases hp : position same entries k with
  | some i => exact distinct_iff_keys.mp h
  | none =>
      have := h.snoc (v := v) (position_none.mp hp)
      rw [distinct_iff_keys] at this
      simpa using this

theorem filter (h : Distinct same entries) (p : κ × β → Bool) : Distinct same (entries.filter p) :=
  List.Pairwise.filter p h

/-- Entries whose keys differ are put as they are. -/
theorem putAll_append (h : Distinct same (entries ++ pairs)) :
    OrderedMap.putAll same entries pairs = entries ++ pairs := by
  induction pairs generalizing entries with
  | nil => rw [List.append_nil]; rfl
  | cons p pairs ih =>
      have hnone : position same entries p.1 = none := by
        rw [position_none]
        intro e he
        exact (List.pairwise_append.mp h).2.2 e he p List.mem_cons_self
      have hput : OrderedMap.put same entries p.1 p.2 = entries ++ [p] := by
        rw [OrderedMap.put, hnone]
      rw [List.append_cons] at h
      rw [OrderedMap.putAll, List.foldl_cons, hput]
      have := ih h
      rw [OrderedMap.putAll] at this
      rw [this, List.append_assoc, List.singleton_append]

theorem putAll_nil (h : Distinct same pairs) : OrderedMap.putAll same [] pairs = pairs := by
  rw [← List.nil_append pairs] at h
  exact putAll_append h

/-- A key that is the same as itself is found where it stands. -/
theorem position_at (h : Distinct same entries) {i : Nat} {e : κ × β}
    (hi : entries[i]? = some e) (hself : same e.1 e.1 = true) :
    position same entries e.1 = some i := by
  obtain ⟨hlt, hat⟩ := List.getElem?_eq_some_iff.mp hi
  rw [position, List.findIdx?_eq_some_iff_getElem]
  refine ⟨hlt, by rw [hat]; exact hself, fun j hj => ?_⟩
  have hpair := List.pairwise_iff_getElem.mp h j i (by omega) hlt hj
  rw [hat] at hpair
  simp [hpair]

end Distinct

theorem get_eq_position (entries : List (κ × β)) (k : κ) :
    get same entries k = (position same entries k).bind fun i => entries[i]?.map Prod.snd := by
  induction entries with
  | nil => rfl
  | cons e entries ih =>
      simp only [get, position] at ih ⊢
      cases he : same e.1 k with
      | true => simp [List.findIdx?_cons, he]
      | false =>
          rw [List.find?_cons_of_neg (by simp [he]), List.findIdx?_cons]
          simp only [he, Bool.false_eq_true, if_false, ih]
          cases entries.findIdx? (fun e => same e.1 k) <;> rfl

theorem mem_put {e : κ × β} (h : e ∈ put same entries k v) :
    e ∈ entries ∨ e.2 = v ∧ (e.1 = k ∨ same e.1 k = true) := by
  unfold put at h
  cases hp : position same entries k with
  | none =>
      rw [hp] at h
      rcases List.mem_append.mp h with he | he
      · exact .inl he
      · rw [List.mem_singleton.mp he]
        exact .inr ⟨rfl, .inl rfl⟩
  | some i =>
      rw [hp] at h
      obtain ⟨j, hj⟩ := List.mem_iff_getElem?.mp h
      rw [List.getElem?_modify] at hj
      obtain ⟨a, ha, rfl⟩ := Option.map_eq_some_iff.mp hj
      by_cases hij : i = j
      · subst hij
        obtain ⟨hlt, hat⟩ := List.getElem?_eq_some_iff.mp ha
        rw [position, List.findIdx?_eq_some_iff_getElem] at hp
        obtain ⟨_, hsame, -⟩ := hp
        rw [hat] at hsame
        rw [if_pos rfl]
        exact .inr ⟨rfl, .inr hsame⟩
      · rw [if_neg hij]
        exact .inl (List.mem_of_getElem? ha)

/-- What an entry holds is found under its key. -/
theorem Distinct.get_mem (h : Distinct same entries) {e : κ × β} (he : e ∈ entries)
    (hself : same e.1 e.1 = true) : get same entries e.1 = some e.2 := by
  obtain ⟨i, hi⟩ := List.mem_iff_getElem?.mp he
  rw [get_eq_position, h.position_at hi hself]
  simp only [Option.bind_some, hi, Option.map_some]

theorem mem_of_get (h : get same entries k = some v) :
    ∃ e ∈ entries, same e.1 k = true ∧ e.2 = v := by
  obtain ⟨e, he, rfl⟩ := Option.map_eq_some_iff.mp h
  exact ⟨e, List.mem_of_find?_eq_some he, List.find?_some (p := fun e : κ × β => same e.1 k) he, rfl⟩

section Lawful

variable [BEq κ]

theorem put_cons (e : κ × β) :
    put (· == ·) (e :: entries) k v =
      if e.1 == k then (e.1, v) :: entries else e :: put (· == ·) entries k v := by
  cases he : e.1 == k with
  | true => simp [put, position, List.findIdx?_cons, he]
  | false =>
      simp only [put, position, List.findIdx?_cons, he, Bool.false_eq_true, if_false]
      cases entries.findIdx? (fun x => x.1 == k) <;> rfl

variable [LawfulBEq κ]

/-- What is put is found under its key, and the other keys hold what they held. -/
theorem get_put (k' : κ) :
    get (· == ·) (put (· == ·) entries k v) k' =
      if k == k' then some v else get (· == ·) entries k' := by
  induction entries with
  | nil =>
      cases hk : k == k' <;> simp [put, position, get, hk]
  | cons e entries ih =>
      rw [put_cons]
      cases he : e.1 == k with
      | true =>
          cases hk : k == k' with
          | true =>
              simp [get, eq_of_beq he, hk]
          | false => simp [get, eq_of_beq he, hk]
      | false =>
          simp only [Bool.false_eq_true, if_false]
          cases hk' : e.1 == k' with
          | true =>
              have hne : (k == k') = false := by
                cases hk : k == k' with
                | false => rfl
                | true => rw [eq_of_beq hk, hk'] at he; cases he
              simp [get, hk', hne]
          | false =>
              simp only [get, List.find?_cons, hk'] at ih ⊢
              exact ih

end Lawful
end OrderedMap
