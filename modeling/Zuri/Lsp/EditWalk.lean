import Zuri.Lsp.EditRounds

/-!
The walk back takes, on every round, the diagonal the round came from, so its steps lead from the
start of both lists to their ends, and no script makes one of the other with fewer.
-/

namespace Zuri.Lsp

open EditGraph

/-- Steps that lead from the start of two lists to a point; the number counts those that delete
or insert. -/
inductive Steps {α : Type} (a b : List α) : List Step → Nat → Nat → Nat → Prop where
  | start : Steps a b [] 0 0 0
  | keep {steps : List Step} {x y n : Nat} : Steps a b steps x y n → Match a b x y →
      Steps a b (steps ++ [.keep x y]) (x + 1) (y + 1) n
  | delete {steps : List Step} {x y n : Nat} : Steps a b steps x y n → x < a.length →
      Steps a b (steps ++ [.delete x]) (x + 1) y (n + 1)
  | insert {steps : List Step} {x y n : Nat} : Steps a b steps x y n → y < b.length →
      Steps a b (steps ++ [.insert y]) x (y + 1) (n + 1)

section Slide

variable {α : Type} {a b : List α}

/-- The walk back along a diagonal stops where the round came to it. -/
theorem slide_steps {front : List Step} {px xs ys n s : Nat} {py : Int}
    (hsteps : Steps a b front xs ys n) (hrun : ∀ i < s, Match a b (xs + i) (ys + i))
    (hx : px ≤ xs) (hy : py ≤ ys) (hstop : ¬ (xs > px ∧ (ys : Int) > py)) :
    (slide px py (xs + s) (ys + s)).2 = (xs, ys) ∧
      Steps a b (front ++ (slide px py (xs + s) (ys + s)).1.reverse) (xs + s) (ys + s) n := by
  induction s with
  | zero =>
    have hnone : slide px py xs ys = ([], xs, ys) := by
      cases xs with
      | zero => rw [slide]
      | succ x => rw [slide, if_neg hstop]
    rw [Nat.add_zero, Nat.add_zero, hnone]
    exact ⟨rfl, by simpa using hsteps⟩
  | succ s ih =>
    obtain ⟨hends, hrest⟩ := ih fun i hi => hrun i (Nat.lt_succ_of_lt hi)
    have hmore : xs + s + 1 > px ∧ ((ys + s + 1 : Nat) : Int) > py := ⟨by omega, by omega⟩
    have hslide : slide px py (xs + s + 1) (ys + s + 1) =
        (.keep (xs + s) (ys + s) :: (slide px py (xs + s) (ys + s)).1,
          (slide px py (xs + s) (ys + s)).2) := by
      rw [slide, if_pos hmore, Nat.add_sub_cancel]
    rw [← Nat.add_assoc, ← Nat.add_assoc, hslide]
    refine ⟨hends, ?_⟩
    rw [List.reverse_cons, ← List.append_assoc]
    exact .keep hrest (hrun s (Nat.lt_succ_self s))

end Slide

section Ends

variable {α : Type} [DecidableEq α] {a b : List α} {offset : Nat} {kept : List (List Nat)}

/-- The search ends in the first round that reaches the end of both lists, and there. -/
theorem kept_ends {v : List Nat} (hoffset : offset = a.length + b.length + 1)
    (hkept : RoundsKept a b offset offset 0 v kept) (hzero : entry v offset 1 = 0) :
    ∃ d, kept.length = d + 1 ∧ OnRound d ((a.length : Int) - b.length) ∧
      endOn a b (kept.getD d []) offset d ((a.length : Int) - b.length) = a.length ∧
      ∀ e, Reach a b e a.length b.length → d ≤ e := by
  have hfurthest := furthest_of_kept hkept hzero
  have hround : ∀ e, Reach a b e a.length b.length → OnRound e ((a.length : Int) - b.length) := by
    intro e hreach
    obtain ⟨hx, hy, hsum⟩ := hreach.diagonal
    exact ⟨by omega, by omega, by omega⟩
  have hdone : ∀ e, e < kept.length → Reach a b e a.length b.length →
      Done a b (kept.getD e []) offset e ((a.length : Int) - b.length) := by
    intro e he hreach
    have hlong := (hfurthest e he _ (hround e hreach)).last _ _ hreach rfl
    exact ⟨hlong, by omega⟩
  obtain ⟨d, hlength, hlast⟩ := hkept.last
  rw [Nat.zero_add] at hlast
  have hleast : ∀ e, Reach a b e a.length b.length → d ≤ e := by
    intro e hreach
    by_contra hlt
    have hnext := hkept.next e (by omega) _ (by rw [Nat.zero_add]; exact hround e hreach)
    rw [Nat.zero_add] at hnext
    exact hnext.2 (hdone e (by omega) hreach)
  have hfound : ∃ j, OnRound d j ∧ Done a b (kept.getD d []) offset d j := by
    rcases hlast with hfound | ⟨hout, hnot⟩
    · exact hfound
    · have hall : Reach a b d a.length b.length := by
        rw [show d = a.length + b.length by omega]
        exact reach_all
      exact absurd (hdone d (by omega) hall) (hnot _ (hround d hall))
  obtain ⟨j, hj, hfar, hpast⟩ := hfound
  obtain ⟨y, hy, hreach⟩ := (hfurthest d (by omega) j hj).reached
  obtain ⟨e, hclip, hsum⟩ := hreach.clip
  rw [Nat.min_eq_right hfar, Nat.min_eq_right (by omega)] at hclip
  have hde := hleast e hclip
  obtain rfl : e = d := by omega
  obtain rfl : j = (a.length : Int) - b.length := by omega
  exact ⟨e, hlength, hj, by omega, hleast⟩

/-- One round of the walk back, when the round came from the diagonal above. -/
theorem walk_down {d x y px ys : Nat} {k : Int} {steps : List Step} (hk : (x : Int) - y = k)
    (hdown : comesDown (kept.getD (d + 1) []) offset (d + 1) k = true)
    (hread : entry (kept.getD (d + 1) []) offset (k + 1) = px)
    (hslide : slide px (px - (k + 1)) x y = (steps, px, ys + 1)) :
    walk kept offset (d + 1 + 1) x y = steps ++ .insert ys :: walk kept offset (d + 1) px ys := by
  rw [walk]
  simp only [hk, hdown, if_true, hread, hslide, gt_iff_lt, Nat.succ_pos, Nat.add_sub_cancel]

/-- One round of the walk back, when the round came from the diagonal below. -/
theorem walk_along {d x y px ys : Nat} {k : Int} {steps : List Step} (hk : (x : Int) - y = k)
    (hdown : ¬ comesDown (kept.getD (d + 1) []) offset (d + 1) k = true)
    (hread : entry (kept.getD (d + 1) []) offset (k - 1) = px)
    (hslide : slide px (px - (k - 1)) x y = (steps, px + 1, ys)) :
    walk kept offset (d + 1 + 1) x y = steps ++ .delete px :: walk kept offset (d + 1) px ys := by
  rw [walk]
  simp only [hk, hdown, if_false, hread, hslide, gt_iff_lt, Nat.succ_pos, if_true,
    Nat.add_sub_cancel, Nat.succ_ne_self, Bool.false_eq_true]

/-- The walk back from the end of a round's diagonal leads there with as many moves as rounds. -/
theorem walk_steps {count : Nat} {v : List Nat} (hkept : RoundsKept a b offset count 0 v kept)
    (hzero : entry v offset 1 = 0) {d x y : Nat} (hd : d < kept.length)
    (hround : OnRound d ((x : Int) - y)) (hx : x ≤ a.length) (hy : y ≤ b.length)
    (hend : endOn a b (kept.getD d []) offset d ((x : Int) - y) = x) :
    Steps a b (walk kept offset (d + 1) x y).reverse x y d := by
  have hfurthest := furthest_of_kept hkept hzero
  induction d generalizing x y with
  | zero =>
    have hlow := hround.low
    have hhigh := hround.high
    obtain rfl : x = y := by omega
    have hk : (x : Int) - x = 0 := Int.sub_self _
    have hdown : comesDown v offset 0 0 = true := rfl
    have hstart : startOn v offset 0 0 = 0 := by rw [startOn, if_pos hdown, Int.zero_add, hzero]
    obtain ⟨hrun, -⟩ := common_run a b 0 0
    rw [hk, hkept.first, endOn, hstart, Nat.zero_add] at hend
    rw [show (((0 : Nat) : Int) - 0).toNat = 0 from rfl] at hend
    rw [hend] at hrun
    have hslide := slide_steps (Steps.start : Steps a b [] 0 0 0) hrun (Nat.le_refl 0)
      (show (-1 : Int) ≤ (0 : Nat) by omega) (fun h => absurd h.1 (Nat.lt_irrefl 0))
    rw [Nat.zero_add, List.nil_append] at hslide
    have hwalk : walk kept offset (0 + 1) x x = (slide 0 (-1) x x).1 := by
      rw [walk]
      simp only [hk, hkept.first, hdown, if_true, Int.zero_add, hzero, gt_iff_lt, Nat.lt_irrefl,
        if_false]
      rfl
    rw [hwalk]
    exact hslide.2
  | succ d ih =>
    obtain ⟨k, hk⟩ : ∃ k, (x : Int) - y = k := ⟨_, rfl⟩
    rw [hk] at hround hend
    have hlow := hround.low
    have hhigh := hround.high
    have hparity := hround.parity
    have hread : ∀ i, OnRound d i →
        entry (kept.getD (d + 1) []) offset i = endOn a b (kept.getD d []) offset d i := by
      intro i hi
      have hnext := (hkept.next d hd i (by rw [Nat.zero_add]; exact hi)).1
      rwa [Nat.zero_add] at hnext
    by_cases hdown : comesDown (kept.getD (d + 1) []) offset (d + 1) k = true
    · have hne : k ≠ ((d + 1 : Nat) : Int) := by
        rintro rfl
        simp only [comesDown, Bool.or_eq_true, beq_iff_eq, bne_self_eq_false, Bool.false_and,
          Bool.false_eq_true, or_false] at hdown
        omega
      have hup : OnRound d (k + 1) := ⟨by omega, by omega, by omega⟩
      obtain ⟨px, hpx⟩ : ∃ px, entry (kept.getD (d + 1) []) offset (k + 1) = px := ⟨_, rfl⟩
      have hbefore := (hread _ hup).symm.trans hpx
      obtain ⟨ys, hys, -⟩ := (hfurthest d (by omega) _ hup).reached
      rw [hbefore] at hys
      have hstart : startOn (kept.getD (d + 1) []) offset (d + 1) k = px :=
        (if_pos hdown).trans hpx
      rw [endOn, hstart, show ((px : Int) - k).toNat = ys + 1 by omega] at hend
      obtain ⟨hrun, -⟩ := common_run a b px (ys + 1)
      generalize common (a.drop px) (b.drop (ys + 1)) = s at hend hrun
      subst hend
      obtain rfl : y = ys + 1 + s := by omega
      have hfront := ih (by omega) (by rw [hys]; exact hup) (by omega) (by omega)
        (by rw [hys]; exact hbefore)
      have hslide := slide_steps (hfront.insert (by omega)) hrun (Nat.le_refl px)
        (show (px : Int) - (k + 1) ≤ (ys + 1 : Nat) by omega)
        (fun h => absurd h.1 (Nat.lt_irrefl px))
      rw [walk_down hk hdown hpx (Prod.ext rfl hslide.1), List.reverse_append, List.reverse_cons]
      exact hslide.2
    · have hne : k ≠ -((d + 1 : Nat) : Int) := by
        rintro rfl
        simp [comesDown] at hdown
      have hbelow : OnRound d (k - 1) := ⟨by omega, by omega, by omega⟩
      obtain ⟨px, hpx⟩ : ∃ px, entry (kept.getD (d + 1) []) offset (k - 1) = px := ⟨_, rfl⟩
      have hbefore := (hread _ hbelow).symm.trans hpx
      obtain ⟨ys, hys, -⟩ := (hfurthest d (by omega) _ hbelow).reached
      rw [hbefore] at hys
      have hstart : startOn (kept.getD (d + 1) []) offset (d + 1) k = px + 1 :=
        (if_neg hdown).trans (congrArg (· + 1) hpx)
      rw [endOn, hstart, show (((px + 1 : Nat) : Int) - k).toNat = ys by omega] at hend
      obtain ⟨hrun, -⟩ := common_run a b (px + 1) ys
      generalize common (a.drop (px + 1)) (b.drop ys) = s at hend hrun
      subst hend
      obtain rfl : y = ys + s := by omega
      have hfront := ih (by omega) (by rw [hys]; exact hbelow) (by omega) (by omega)
        (by rw [hys]; exact hbefore)
      have hslide := slide_steps (hfront.delete (by omega)) hrun (Nat.le_succ px)
        (show (px : Int) - (k - 1) ≤ ys by omega) (fun h => by omega)
      rw [walk_along hk hdown hpx (Prod.ext rfl hslide.1), List.reverse_append, List.reverse_cons]
      exact hslide.2

end Ends

section Shortest

variable {α : Type} [DecidableEq α]

/-- The steps of `_edit_script` lead from the start of both lists to their ends, and no script
deletes and inserts fewer elements. -/
theorem editScript_steps (a b : List α) :
    ∃ n, Steps a b (editScript a b) a.length b.length n ∧
      ∀ m, Script a b m → n ≤ m := by
  have hzero : entry (List.replicate (2 * (a.length + b.length) + 3) 0)
      (a.length + b.length + 1) 1 = 0 := entry_replicate _ _
  have hkept : RoundsKept a b (a.length + b.length + 1) (a.length + b.length + 1) 0
      (List.replicate (2 * (a.length + b.length) + 3) 0) (trace a b) :=
    rounds_spec (a.length + b.length) 0 _ (by omega) (by rw [List.length_replicate]; omega)
  obtain ⟨d, hlength, hround, hend, hleast⟩ := kept_ends rfl hkept hzero
  refine ⟨d, ?_, fun m hscript => ?_⟩
  · rw [editScript, hlength]
    exact walk_steps hkept hzero (by omega) hround (Nat.le_refl _) (Nat.le_refl _) hend
  · have hreach := hscript.reach rfl rfl (Nat.zero_le _) (Nat.zero_le _)
      (Reach.start (a := a) (b := b))
    rw [Nat.zero_add] at hreach
    exact hleast m hreach

end Shortest

end Zuri.Lsp
