import Mathlib

/-!
The sign of a comparison, and lists compared element by element with the shorter one first. Where
the elements are compared after a monotone map, what counts is the first place where their images
differ.
-/

namespace Lexical

variable {α β : Type} [LinearOrder α] [LinearOrder β]

/-- `-1`, `0` or `1` as one element is below, level with or above another. -/
def order (x y : α) : Int := if x < y then -1 else if y < x then 1 else 0

theorem order_lt {x y : α} (h : x < y) : order x y = -1 := if_pos h

theorem order_gt {x y : α} (h : y < x) : order x y = 1 := by
  rw [order, if_neg (lt_asymm h), if_pos h]

theorem order_self (x : α) : order x x = 0 := by
  rw [order, if_neg (lt_irrefl x), if_neg (lt_irrefl x)]

theorem order_eq_zero {x y : α} : order x y = 0 ↔ x = y := by
  constructor
  · intro h
    rcases lt_trichotomy x y with hlt | heq | hgt
    · rw [order_lt hlt] at h
      omega
    · exact heq
    · rw [order_gt hgt] at h
      omega
  · rintro rfl
    exact order_self x

theorem order_nonpos {x y : α} : order x y ≤ 0 ↔ x ≤ y := by
  rcases lt_trichotomy x y with hlt | heq | hgt
  · rw [order_lt hlt]
    exact iff_of_true (by decide) hlt.le
  · rw [heq, order_self]
    exact iff_of_true (le_refl 0) (le_refl y)
  · rw [order_gt hgt]
    exact iff_of_false (by decide) (not_le.mpr hgt)

theorem order_pos {x y : α} : 0 < order x y ↔ y < x := by
  rw [← not_le, order_nonpos, not_le]

theorem order_cons (x y : α) (xs ys : List α) :
    order (x :: xs) (y :: ys) = if order x y = 0 then order xs ys else order x y := by
  rcases lt_trichotomy x y with hlt | heq | hgt
  · rw [order_lt hlt, if_neg (by decide), order_lt]
    exact List.cons_lt_cons_iff.mpr (.inl hlt)
  · subst heq
    rw [order_self, if_pos rfl]
    rcases lt_trichotomy xs ys with hlt | rfl | hgt
    · rw [order_lt hlt, order_lt]
      exact List.cons_lt_cons_iff.mpr (.inr ⟨rfl, hlt⟩)
    · rw [order_self, order_self]
    · rw [order_gt hgt, order_gt]
      exact List.cons_lt_cons_iff.mpr (.inr ⟨rfl, hgt⟩)
  · rw [order_gt hgt, if_neg (by decide), order_gt]
    exact List.cons_lt_cons_iff.mpr (.inl hgt)

theorem order_nil_cons (y : α) (ys : List α) : order [] (y :: ys) = -1 :=
  order_lt (List.nil_lt_cons y ys)

theorem order_cons_nil (x : α) (xs : List α) : order (x :: xs) [] = 1 :=
  order_gt (List.nil_lt_cons x xs)

/-- How two lists compare at the first place where the images of their elements differ. -/
def firstOrder (f : α → β) : List α → List α → Int
  | [], [] => 0
  | [], _ :: _ => -1
  | _ :: _, [] => 1
  | x :: xs, y :: ys => if f x = f y then firstOrder f xs ys else order x y

theorem order_image {f : α → β} (hf : Monotone f) {x y : α} (hne : f x ≠ f y) :
    order (f x) (f y) = order x y := by
  rcases lt_trichotomy x y with hlt | heq | hgt
  · rw [order_lt hlt, order_lt (lt_of_le_of_ne (hf hlt.le) hne)]
  · exact absurd (congrArg f heq) hne
  · rw [order_gt hgt, order_gt (lt_of_le_of_ne (hf hgt.le) (Ne.symm hne))]

theorem order_map {f : α → β} (hf : Monotone f) (xs ys : List α) :
    order (xs.map f) (ys.map f) = firstOrder f xs ys := by
  induction xs, ys using firstOrder.induct f with
  | case1 => exact order_self _
  | case2 y ys => exact order_nil_cons _ _
  | case3 x xs => exact order_cons_nil _ _
  | case4 x xs y ys heq ih =>
      rw [List.map_cons, List.map_cons, order_cons, firstOrder, if_pos heq, ih,
        if_pos (order_eq_zero.mpr heq)]
  | case5 x xs y ys hne =>
      rw [List.map_cons, List.map_cons, order_cons, firstOrder, if_neg hne,
        if_neg (mt order_eq_zero.mp hne), order_image hf hne]

theorem order_eq_firstOrder (xs ys : List α) : order xs ys = firstOrder id xs ys := by
  rw [← order_map monotone_id, List.map_id, List.map_id]

/-- Images that do not fall together change nothing. -/
theorem firstOrder_injOn {f : α → β} {xs ys : List α}
    (hf : ∀ x ∈ xs, ∀ y ∈ ys, f x = f y → x = y) : firstOrder f xs ys = firstOrder id xs ys := by
  induction xs, ys using firstOrder.induct f with
  | case1 => rfl
  | case2 y ys => rfl
  | case3 x xs => rfl
  | case4 x xs y ys heq ih =>
      have hsame : id x = id y := hf x List.mem_cons_self y List.mem_cons_self heq
      rw [firstOrder, if_pos heq, firstOrder, if_pos hsame]
      exact ih fun x' hx' y' hy' => hf x' (List.mem_cons_of_mem _ hx') y' (List.mem_cons_of_mem _ hy')
  | case5 x xs y ys hne =>
      have hdiff : ¬id x = id y := fun heq => hne (congrArg f heq)
      rw [firstOrder, if_neg hne, firstOrder, if_neg hdiff]

end Lexical
