import Mathlib.Data.List.Induction

/-!
Queues with a cost: entries stand newest first and the oldest are dropped until the
rest fits a room. Dropping one by one from the old end leaves the longest run of
newest entries that fits.
-/

namespace Eviction

variable {α : Type}

def total (cost : α → Nat) : List α → Nat
  | [] => 0
  | a :: older => cost a + total cost older

/-- The newest entries that fit. -/
def keep (cost : α → Nat) : Nat → List α → List α
  | _, [] => []
  | room, a :: older => if cost a ≤ room then a :: keep cost (room - cost a) older else []

/-- Drops entries, the oldest standing first, while the size is over. -/
def evictOld (exceeds : Nat → Bool) (less : Nat → α → Nat) : List α → Nat → List α × Nat
  | [], size => ([], size)
  | a :: newer, size =>
      if exceeds size then evictOld exceeds less newer (less size a) else (a :: newer, size)

/-- Drops entries from the old end while the size is over. -/
def evict (exceeds : Nat → Bool) (less : Nat → α → Nat) (entries : List α) (size : Nat) :
    List α × Nat :=
  let (left, size) := evictOld exceeds less entries.reverse size
  (left.reverse, size)

variable {cost : α → Nat}

theorem total_append (cost : α → Nat) (xs ys : List α) : total cost (xs ++ ys) = total cost xs + total cost ys := by
  induction xs with
  | nil => simp [total]
  | cons a xs ih => simp only [List.cons_append, total, ih, Nat.add_assoc]

theorem keep_initial (room : Nat) (entries : List α) : keep cost room entries <+: entries := by
  induction entries generalizing room with
  | nil => exact List.prefix_rfl
  | cons a older ih =>
      simp only [keep]
      split
      · exact (List.prefix_cons_inj a).mpr (ih _)
      · exact List.nil_prefix

theorem total_keep_le (cost : α → Nat) (room : Nat) (entries : List α) : total cost (keep cost room entries) ≤ room := by
  induction entries generalizing room with
  | nil => exact Nat.zero_le room
  | cons a older ih =>
      simp only [keep]
      split
      · rename_i h
        have hrest := ih (room - cost a)
        simp only [total]
        omega
      · exact Nat.zero_le room

theorem keep_of_total_le (room : Nat) (entries : List α) (h : total cost entries ≤ room) :
    keep cost room entries = entries := by
  induction entries generalizing room with
  | nil => rfl
  | cons a older ih =>
      simp only [total] at h
      simp only [keep]
      rw [if_pos (by omega), ih (room - cost a) (by omega)]

theorem keep_keep (r s : Nat) (entries : List α) :
    keep cost r (keep cost s entries) = keep cost (min r s) entries := by
  induction entries generalizing r s with
  | nil => rfl
  | cons a older ih =>
      by_cases hs : cost a ≤ s
      · by_cases hr : cost a ≤ r
        · simp only [keep, if_pos hs, if_pos hr, if_pos (Nat.le_min.mpr ⟨hr, hs⟩)]
          rw [ih, Nat.sub_min_sub_right]
        · have hmin : ¬ cost a ≤ min r s := fun h => hr (Nat.le_trans h (Nat.min_le_left r s))
          simp only [keep, if_pos hs, if_neg hr, if_neg hmin]
      · have hmin : ¬ cost a ≤ min r s := fun h => hs (Nat.le_trans h (Nat.min_le_right r s))
        simp only [keep, if_neg hs, if_neg hmin]

theorem keep_cons_keep (r s : Nat) (h : r ≤ s) (a : α) (entries : List α) :
    keep cost r (a :: keep cost s entries) = keep cost r (a :: entries) := by
  simp only [keep]
  split
  · rw [keep_keep, Nat.min_eq_left (by omega)]
  · rfl

theorem keep_snoc (room : Nat) (entries : List α) (a : α) :
    keep cost room (entries ++ [a]) =
      if total cost (entries ++ [a]) ≤ room then entries ++ [a] else keep cost room entries := by
  induction entries generalizing room with
  | nil =>
      simp only [List.nil_append, keep, total, Nat.add_zero]
  | cons b entries ih =>
      simp only [List.cons_append, keep, total, ih]
      by_cases hb : cost b ≤ room
      · rw [if_pos hb]
        by_cases hrest : total cost (entries ++ [a]) ≤ room - cost b
        · rw [if_pos hrest, if_pos (by omega)]
        · rw [if_neg hrest, if_neg (by omega)]
          simp [hb]
      · rw [if_neg hb, if_neg (by omega)]
        simp [hb]

/-- Dropping one by one leaves what fits, and the size keeps its account. -/
theorem evict_eq_keep (cost : α → Nat) (exceeds : Nat → Bool) (less : Nat → α → Nat) (bound room : Nat)
    (entries : List α) (hover : ∀ size ≤ bound, exceeds size = decide (room < size))
    (hless : ∀ size a, cost a ≤ size → size ≤ bound → less size a = size - cost a)
    (hbound : total cost entries ≤ bound) :
    evict exceeds less entries (total cost entries) =
      (keep cost room entries, total cost (keep cost room entries)) := by
  induction entries using List.reverseRecOn with
  | nil => rfl
  | append_singleton entries a ih =>
      have hsum := total_append cost entries [a]
      simp only [total, Nat.add_zero] at hsum
      rw [keep_snoc]
      simp only [evict, List.reverse_append, List.reverse_singleton, List.singleton_append,
        evictOld]
      rw [hover _ hbound]
      by_cases hroom : room < total cost (entries ++ [a])
      · have hstep : less (total cost (entries ++ [a])) a = total cost entries := by
          rw [hless _ _ (by omega) hbound]
          omega
        rw [if_pos (decide_eq_true hroom), hstep, if_neg (by omega)]
        exact ih (by omega)
      · rw [if_neg (by simpa using hroom), if_pos (by omega)]
        simp

/-- Where nothing fits, everything goes. -/
theorem evict_all (cost : α → Nat) (exceeds : Nat → Bool) (less : Nat → α → Nat) (bound : Nat) (entries : List α)
    (hover : ∀ size ≤ bound, exceeds size = true)
    (hless : ∀ size a, cost a ≤ size → size ≤ bound → less size a = size - cost a)
    (hbound : total cost entries ≤ bound) :
    evict exceeds less entries (total cost entries) = ([], 0) := by
  induction entries using List.reverseRecOn with
  | nil => rfl
  | append_singleton entries a ih =>
      have hsum := total_append cost entries [a]
      simp only [total, Nat.add_zero] at hsum
      have hstep : less (total cost (entries ++ [a])) a = total cost entries := by
        rw [hless _ _ (by omega) hbound]
        omega
      simp only [evict, List.reverse_append, List.reverse_singleton, List.singleton_append,
        evictOld, hover _ hbound, if_true, hstep]
      exact ih (by omega)

/-- Adding entries one after another under one room keeps the newest that fit. -/
theorem foldl_keep (room : Nat) (added entries : List α) :
    added.foldl (fun kept a => keep cost room (a :: kept)) (keep cost room entries) =
      keep cost room (added.reverse ++ entries) := by
  induction added generalizing entries with
  | nil => rfl
  | cons a added ih =>
      simp only [List.foldl_cons, List.reverse_cons, List.append_assoc, List.singleton_append]
      rw [keep_cons_keep room room (Nat.le_refl room), ih]

theorem total_map {β : Type} (f : α → β) (cost : β → Nat) (entries : List α) :
    total cost (entries.map f) = total (cost ∘ f) entries := by
  induction entries with
  | nil => rfl
  | cons a entries ih => simp only [List.map_cons, total, ih, Function.comp]

theorem length_le_total (entries : List α) (h : ∀ a, 1 ≤ cost a) :
    entries.length ≤ total cost entries := by
  induction entries with
  | nil => exact Nat.le_refl 0
  | cons a entries ih =>
      have ha := h a
      simp only [List.length_cons, total]
      omega

theorem cost_le_total (entries : List α) (a : α) (h : a ∈ entries) :
    cost a ≤ total cost entries := by
  induction entries with
  | nil => cases h
  | cons b entries ih =>
      simp only [total]
      cases h with
      | head => exact Nat.le_add_right _ _
      | tail _ h => exact Nat.le_trans (ih h) (Nat.le_add_left _ _)

theorem keep_map {β : Type} (f : α → β) (cost : β → Nat) (room : Nat) (entries : List α) :
    keep cost room (entries.map f) = (keep (cost ∘ f) room entries).map f := by
  induction entries generalizing room with
  | nil => rfl
  | cons a entries ih =>
      simp only [List.map_cons, keep, ih, Function.comp]
      split <;> simp

theorem keep_congr {cost other : α → Nat} (room : Nat) (entries : List α)
    (h : ∀ a ∈ entries, cost a = other a) : keep cost room entries = keep other room entries := by
  induction entries generalizing room with
  | nil => rfl
  | cons a entries ih =>
      simp only [keep, h a List.mem_cons_self]
      rw [ih _ (fun b hb => h b (List.mem_cons_of_mem a hb))]

theorem total_congr {cost other : α → Nat} (entries : List α)
    (h : ∀ a ∈ entries, cost a = other a) : total cost entries = total other entries := by
  induction entries with
  | nil => rfl
  | cons a entries ih =>
      simp only [total, h a List.mem_cons_self]
      rw [ih (fun b hb => h b (List.mem_cons_of_mem a hb))]

end Eviction
