import Mathlib.Data.List.Basic

/-!
Merge sort by halves. For a total and transitive relation the result is a permutation of the
list, ascending, and elements of which each is no more than the other stay in their order.
-/

namespace MergeSort

variable {α : Type} (le : α → α → Bool)

def merge : List α → List α → List α
  | [], ys => ys
  | x :: xs, [] => x :: xs
  | x :: xs, y :: ys =>
      if le x y then x :: merge xs (y :: ys) else y :: merge (x :: xs) ys

def sort (items : List α) : List α :=
  if items.length ≤ 1 then items
  else
    let middle := items.length / 2
    merge le (sort (items.take middle)) (sort (items.drop middle))
termination_by items.length
decreasing_by
  all_goals
    simp only [List.length_take, List.length_drop]
    omega

/-- Elements of which each is no more than the other. -/
def same (c x : α) : Bool := le x c && le c x

theorem sort_single (x : α) : sort le [x] = [x] := by
  rw [sort, if_pos (Nat.le_of_eq List.length_singleton)]

theorem sort_pair (x y : α) :
    sort le [x, y] = if le x y then [x, y] else [y, x] := by
  have hlong : ¬ [x, y].length ≤ 1 := Nat.not_succ_le_self 1
  have hmiddle : [x, y].length / 2 = 1 := by simp
  rw [sort, if_neg hlong, hmiddle]
  simp only [List.take_succ_cons, List.take_zero, List.drop_succ_cons, List.drop_zero,
    sort_single, merge]

variable {le}

theorem merge_perm (xs ys : List α) : (merge le xs ys).Perm (xs ++ ys) := by
  induction xs, ys using merge.induct le with
  | case1 ys => rw [merge, List.nil_append]
  | case2 x xs => rw [merge, List.append_nil]
  | case3 x xs y ys hle ih =>
      rw [merge, if_pos hle, List.cons_append]
      exact ih.cons x
  | case4 x xs y ys hle ih =>
      rw [merge, if_neg hle]
      exact (ih.cons y).trans List.perm_middle.symm

theorem sort_perm (items : List α) : (sort le items).Perm items := by
  induction items using sort.induct with
  | case1 items hshort => rw [sort, if_pos hshort]
  | case2 items hlong middle ihleft ihright =>
      rw [sort, if_neg hlong]
      refine (merge_perm _ _).trans ((ihleft.append ihright).trans ?_)
      rw [List.take_append_drop]

theorem merge_map {β : Type} {le' : β → β → Bool} {f : α → β}
    (hf : ∀ x y, le' (f x) (f y) = le x y) (xs ys : List α) :
    merge le' (xs.map f) (ys.map f) = (merge le xs ys).map f := by
  induction xs, ys using merge.induct le with
  | case1 ys => rw [List.map_nil, merge, merge]
  | case2 x xs => rw [List.map_nil, List.map_cons, merge, merge, List.map_cons]
  | case3 x xs y ys hle ih =>
      rw [List.map_cons] at ih
      rw [List.map_cons, List.map_cons, merge, hf, if_pos hle, ih, merge, if_pos hle, List.map_cons]
  | case4 x xs y ys hle ih =>
      rw [List.map_cons] at ih
      rw [List.map_cons, List.map_cons, merge, hf, if_neg hle, ih, merge, if_neg hle, List.map_cons]

/-- Sorting by a key is sorting the keys along with what they belong to. -/
theorem sort_map {β : Type} {le' : β → β → Bool} {f : α → β}
    (hf : ∀ x y, le' (f x) (f y) = le x y) (items : List α) :
    sort le' (items.map f) = (sort le items).map f := by
  induction items using sort.induct with
  | case1 items hshort => rw [sort, List.length_map, if_pos hshort, sort, if_pos hshort]
  | case2 items hlong middle ihleft ihright =>
      rw [sort, List.length_map, if_neg hlong, sort, if_neg hlong]
      simp only
      rw [← List.map_take, ← List.map_drop, ihleft, ihright, merge_map hf]

section

variable (htotal : ∀ x y, le x y = true ∨ le y x = true)
variable (htrans : ∀ x y z, le x y = true → le y z = true → le x z = true)
include htotal htrans

theorem merge_sorted {xs ys : List α} (hxs : xs.Pairwise fun x y => le x y = true)
    (hys : ys.Pairwise fun x y => le x y = true) :
    (merge le xs ys).Pairwise fun x y => le x y = true := by
  induction xs, ys using merge.induct le with
  | case1 ys => rwa [merge]
  | case2 x xs => rwa [merge]
  | case3 x xs y ys hle ih =>
      obtain ⟨hx, hxs⟩ := List.pairwise_cons.mp hxs
      rw [merge, if_pos hle, List.pairwise_cons]
      refine ⟨fun z hz => ?_, ih hxs hys⟩
      rcases List.mem_append.mp ((merge_perm _ _).mem_iff.mp hz) with hz | hz
      · exact hx z hz
      · rcases List.mem_cons.mp hz with rfl | hz
        · exact hle
        · exact htrans x y z hle ((List.pairwise_cons.mp hys).1 z hz)
  | case4 x xs y ys hle ih =>
      obtain ⟨hy, hys⟩ := List.pairwise_cons.mp hys
      have hyx : le y x = true := (htotal x y).resolve_left hle
      rw [merge, if_neg hle, List.pairwise_cons]
      refine ⟨fun z hz => ?_, ih hxs hys⟩
      rcases List.mem_append.mp ((merge_perm _ _).mem_iff.mp hz) with hz | hz
      · rcases List.mem_cons.mp hz with rfl | hz
        · exact hyx
        · exact htrans y x z hyx ((List.pairwise_cons.mp hxs).1 z hz)
      · exact hy z hz

theorem sort_sorted (items : List α) : (sort le items).Pairwise fun x y => le x y = true := by
  induction items using sort.induct with
  | case1 items hshort =>
      rw [sort, if_pos hshort]
      match items, hshort with
      | [], _ => exact .nil
      | [x], _ => exact List.pairwise_singleton _ x
  | case2 items hlong middle ihleft ihright =>
      rw [sort, if_neg hlong]
      exact merge_sorted htotal htrans ihleft ihright

theorem merge_filter {xs ys : List α} (c : α) (hxs : xs.Pairwise fun x y => le x y = true) :
    (merge le xs ys).filter (same le c) = xs.filter (same le c) ++ ys.filter (same le c) := by
  induction xs, ys using merge.induct le with
  | case1 ys => rw [merge, List.filter_nil, List.nil_append]
  | case2 x xs => rw [merge, List.filter_nil, List.append_nil]
  | case3 x xs y ys hle ih =>
      have hrest := ih (List.pairwise_cons.mp hxs).2
      rw [merge, if_pos hle]
      by_cases hsame : same le c x = true
      · rw [List.filter_cons_of_pos hsame, List.filter_cons_of_pos hsame, hrest, List.cons_append]
      · rw [List.filter_cons_of_neg hsame, List.filter_cons_of_neg hsame, hrest]
  | case4 x xs y ys hle ih =>
      rw [merge, if_neg hle, List.filter_cons, ih hxs]
      by_cases hsame : same le c y = true
      · -- what is left of the first list is above this element, and so not the same as `c`
        have hnone : (x :: xs).filter (same le c) = [] := by
          rw [List.filter_eq_nil_iff]
          intro z hz hzc
          obtain ⟨hyc, hcy⟩ := Bool.and_eq_true_iff.mp hsame
          obtain ⟨hzle, -⟩ := Bool.and_eq_true_iff.mp hzc
          have hxz : le x z = true := by
            rcases List.mem_cons.mp hz with rfl | hz
            · exact (htotal z z).elim id id
            · exact (List.pairwise_cons.mp hxs).1 z hz
          exact hle (htrans x c y (htrans x z c hxz hzle) hcy)
        rw [if_pos hsame, hnone, List.nil_append, List.nil_append, List.filter_cons_of_pos hsame]
      · rw [if_neg hsame, List.filter_cons_of_neg hsame]

/-- Elements that are the same stay in their order. -/
theorem sort_stable (items : List α) (c : α) :
    (sort le items).filter (same le c) = items.filter (same le c) := by
  induction items using sort.induct with
  | case1 items hshort => rw [sort, if_pos hshort]
  | case2 items hlong middle ihleft ihright =>
      rw [sort, if_neg hlong]
      simp only
      rw [merge_filter htotal htrans c (sort_sorted htotal htrans _), ihleft, ihright,
        ← List.filter_append, List.take_append_drop]

end

section Antisymmetric
variable (htotal : ∀ x y, le x y = true ∨ le y x = true)
  (htrans : ∀ x y z, le x y = true → le y z = true → le x z = true)
  (hanti : ∀ x y, le x y = true → le y x = true → x = y)

include hanti

theorem eq_of_sorted {xs ys : List α} (hperm : xs.Perm ys)
    (hxs : xs.Pairwise fun x y => le x y = true) (hys : ys.Pairwise fun x y => le x y = true) :
    xs = ys :=
  hperm.eq_of_pairwise (fun x y _ _ => hanti x y) hxs hys

include htotal htrans

theorem sort_eq_of_perm {xs ys : List α} (h : xs.Perm ys) : sort le xs = sort le ys :=
  eq_of_sorted hanti ((sort_perm xs).trans (h.trans (sort_perm ys).symm))
    (sort_sorted htotal htrans xs) (sort_sorted htotal htrans ys)

theorem sort_of_sorted {xs : List α} (h : xs.Pairwise fun x y => le x y = true) :
    sort le xs = xs :=
  eq_of_sorted hanti (sort_perm xs) (sort_sorted htotal htrans xs) h

end Antisymmetric

end MergeSort
