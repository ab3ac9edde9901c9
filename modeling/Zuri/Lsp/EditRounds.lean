import Zuri.Lsp.EditScript

/-!
What the rounds keep. The frontier a round starts from has, on every diagonal of the round before
it, the furthest point that as many moves reach, and the search ends in the first round that
reaches the end of both lists.
-/

namespace Zuri.Lsp

open EditGraph

/-- The diagonals of a round. -/
structure OnRound (d : Nat) (k : Int) : Prop where
  low : -(d : Int) ≤ k
  high : k ≤ d
  parity : (k + d) % 2 = 0

section Entries

variable {v : List Nat} {offset : Nat}

theorem entry_set {j k : Int} (x : Nat) (hlen : v.length = 2 * offset + 1)
    (hj : -(offset : Int) ≤ j) (hk : -(offset : Int) ≤ k ∧ k ≤ offset) :
    entry (v.set (offset + k).toNat x) offset j = if j = k then x else entry v offset j := by
  have hindex : (offset + k).toNat < v.length := by omega
  simp only [entry, List.getD_eq_getElem?_getD, List.getElem?_set]
  by_cases heq : j = k
  · subst heq
    simp [hindex]
  · rw [if_neg (by omega), if_neg heq]

theorem entry_replicate (n : Nat) (k : Int) : entry (List.replicate n 0) offset k = 0 := by
  simp only [entry, List.getD_eq_getElem?_getD, List.getElem?_replicate]
  split <;> rfl

end Entries

variable {α : Type} [DecidableEq α] {a b : List α}

theorem common_spec (a b : List α) :
    (∀ i < common a b, Match a b i i) ∧ ¬ Match a b (common a b) (common a b) := by
  induction a, b using common.induct with
  | case1 a d b ih =>
    rw [common, if_pos rfl]
    constructor
    · intro i hi
      match i with
      | 0 => exact ⟨d, rfl, rfl⟩
      | i + 1 =>
        obtain ⟨e, ha, hb⟩ := ih.1 i (by omega)
        exact ⟨e, ha, hb⟩
    · rintro ⟨e, ha, hb⟩
      exact ih.2 ⟨e, ha, hb⟩
  | case2 c a d b hne =>
    rw [common, if_neg hne]
    refine ⟨fun i hi => absurd hi (Nat.not_lt_zero i), ?_⟩
    rintro ⟨e, ha, hb⟩
    simp only [List.getElem?_cons_zero, Option.some.injEq] at ha hb
    exact hne (ha.trans hb.symm)
  | case3 a b hnil =>
    have hzero : common a b = 0 := by
      cases a with
      | nil => rfl
      | cons c a =>
        cases b with
        | nil => rfl
        | cons d b => exact absurd rfl (hnil c a d b rfl)
    rw [hzero]
    refine ⟨fun i hi => absurd hi (Nat.not_lt_zero i), ?_⟩
    rintro ⟨e, ha, hb⟩
    cases a with
    | nil => cases ha
    | cons c a =>
      cases b with
      | nil => cases hb
      | cons d b => exact absurd rfl (hnil c a d b rfl)

theorem common_run (a b : List α) (x y : Nat) :
    (∀ i < common (a.drop x) (b.drop y), Match a b (x + i) (y + i)) ∧
      ¬ Match a b (x + common (a.drop x) (b.drop y)) (y + common (a.drop x) (b.drop y)) := by
  have hshift : ∀ i, Match (a.drop x) (b.drop y) i i ↔ Match a b (x + i) (y + i) := fun i => by
    simp only [Match, List.getElem?_drop]
  obtain ⟨hrun, hstop⟩ := common_spec (a.drop x) (b.drop y)
  exact ⟨fun i hi => (hshift i).1 (hrun i hi), fun hmatch => hstop ((hshift _).2 hmatch)⟩

/-- A round's diagonal ends at or past the end of both lists. -/
def Done (a b : List α) (v : List Nat) (offset d : Nat) (k : Int) : Prop :=
  endOn a b v offset d k ≥ a.length ∧ (endOn a b v offset d k : Int) - k ≥ b.length

theorem endOn_congr {v v' : List Nat} {offset d : Nat} {k : Int}
    (hbelow : entry v offset (k - 1) = entry v' offset (k - 1))
    (habove : entry v offset (k + 1) = entry v' offset (k + 1)) :
    endOn a b v offset d k = endOn a b v' offset d k := by
  have hstart : startOn v offset d k = startOn v' offset d k := by
    rw [startOn, startOn, comesDown, comesDown, hbelow, habove]
  rw [endOn, endOn, hstart]

section OneRound

variable {offset d : Nat} {saved : List Nat}

/-- What a round has done when it comes to diagonal `k`: the diagonals before it are new, and
those of the round before are as they were. -/
structure RoundState (a b : List α) (offset d : Nat) (saved v : List Nat) (k : Int) : Prop where
  length : v.length = 2 * offset + 1
  old : ∀ j : Int, -(offset : Int) ≤ j → (j + d) % 2 ≠ 0 → entry v offset j = entry saved offset j
  new : ∀ j, OnRound d j → j < k →
    entry v offset j = endOn a b saved offset d j ∧ ¬ Done a b saved offset d j

theorem round_spec (hd : d + 1 ≤ offset) (count : Nat) (k : Int) (v : List Nat)
    (hk : k + 2 * count = d + 2) (hcount : count ≤ d + 1)
    (hstate : RoundState a b offset d saved v k) :
    ((round a b offset d count k v).2 = true ∧ ∃ j, OnRound d j ∧ Done a b saved offset d j) ∨
      ((round a b offset d count k v).2 = false ∧
        RoundState a b offset d saved (round a b offset d count k v).1 (d + 2)) := by
  induction count generalizing k v with
  | zero =>
    obtain rfl : k = d + 2 := by omega
    exact .inr ⟨rfl, hstate⟩
  | succ count ih =>
    have hround : OnRound d k := ⟨by omega, by omega, by omega⟩
    have hlow := hround.low
    have hhigh := hround.high
    have hparity := hround.parity
    have hend : endOn a b v offset d k = endOn a b saved offset d k :=
      endOn_congr (hstate.old _ (by omega) (by omega)) (hstate.old _ (by omega) (by omega))
    rw [round]
    split
    · next hdone =>
      rw [hend] at hdone
      exact .inl ⟨rfl, k, hround, hdone⟩
    · next hdone =>
      have hnot : ¬ Done a b saved offset d k := by
        rw [Done, ← hend]
        exact hdone
      refine ih (k + 2) _ (by omega) (by omega) ⟨?_, fun j hj hother => ?_, fun j hj hlt => ?_⟩
      · rw [List.length_set]
        exact hstate.length
      · rw [entry_set _ hstate.length hj (by omega), if_neg (by rintro rfl; omega)]
        exact hstate.old j hj hother
      · have hjlow := hj.low
        have hjparity := hj.parity
        rw [entry_set _ hstate.length (by omega) (by omega)]
        by_cases heq : j = k
        · subst heq
          rw [if_pos rfl]
          exact ⟨hend, hnot⟩
        · rw [if_neg heq]
          exact hstate.new j hj (by omega)

end OneRound

/-- What the rounds from `d` on keep: each frontier has the ends of the round before, no round but
the last is done, and the last one is unless the rounds have run out. -/
structure RoundsKept (a b : List α) (offset count d : Nat) (v : List Nat)
    (kept : List (List Nat)) : Prop where
  first : kept.getD 0 [] = v
  next : ∀ e, e + 1 < kept.length → ∀ j, OnRound (d + e) j →
    entry (kept.getD (e + 1) []) offset j = endOn a b (kept.getD e []) offset (d + e) j ∧
      ¬ Done a b (kept.getD e []) offset (d + e) j
  last : ∃ e, kept.length = e + 1 ∧
    ((∃ j, OnRound (d + e) j ∧ Done a b (kept.getD e []) offset (d + e) j) ∨
      (e + 1 = count ∧ ∀ j, OnRound (d + e) j → ¬ Done a b (kept.getD e []) offset (d + e) j))

theorem rounds_spec {offset : Nat} (count d : Nat) (v : List Nat)
    (hd : d + count + 1 ≤ offset) (hlen : v.length = 2 * offset + 1) :
    RoundsKept a b offset (count + 1) d v (rounds a b offset (count + 1) d v) := by
  induction count generalizing d v with
  | zero =>
    rw [rounds]
    rcases @round_spec α _ a b offset d v (by omega) (d + 1) (-d) v
      (by omega) (Nat.le_refl _) ⟨hlen, fun _ _ _ => rfl, fun j hj hlt => by
        have := hj.low
        omega⟩ with ⟨hfound, hdone⟩ | ⟨hfound, hstate⟩
    · simp only [hfound, if_true]
      exact ⟨rfl, fun e he => absurd he (by simp), 0, rfl, .inl hdone⟩
    · simp only [hfound, Bool.false_eq_true, if_false, rounds]
      refine ⟨rfl, fun e he => absurd he (by simp), 0, rfl, .inr ⟨rfl, fun j hj => ?_⟩⟩
      have := hj.high
      exact (hstate.new j hj (by omega)).2
  | succ count ih =>
    rw [rounds]
    rcases @round_spec α _ a b offset d v (by omega) (d + 1) (-d) v
      (by omega) (Nat.le_refl _) ⟨hlen, fun _ _ _ => rfl, fun j hj hlt => by
        have := hj.low
        omega⟩ with ⟨hfound, hdone⟩ | ⟨hfound, hstate⟩
    · simp only [hfound, if_true]
      exact ⟨rfl, fun e he => absurd he (by simp), 0, rfl, .inl hdone⟩
    · have hrest := ih (d + 1) (round a b offset d (d + 1) (-d) v).1 (by omega) hstate.length
      simp only [hfound, Bool.false_eq_true, if_false]
      refine ⟨rfl, fun e he j hj => ?_, ?_⟩
      · match e with
        | 0 =>
          have := hj.high
          rw [List.getD_cons_succ, hrest.first]
          exact hstate.new j hj (by omega)
        | e + 1 =>
          have hshift : d + 1 + e = d + (e + 1) := by omega
          have hnext := hrest.next e (by simpa using he) j (by rw [hshift]; exact hj)
          rw [hshift] at hnext
          rw [List.getD_cons_succ, List.getD_cons_succ]
          exact hnext
      · obtain ⟨e, hlength, hlast⟩ := hrest.last
        have hshift : d + 1 + e = d + (e + 1) := by omega
        rw [hshift] at hlast
        refine ⟨e + 1, by rw [List.length_cons, hlength], ?_⟩
        rw [List.getD_cons_succ]
        exact hlast.imp id fun hout => ⟨by omega, hout.2⟩

section Frontiers

variable {offset d : Nat} {kept : List (List Nat)}

/-- Every frontier's ends are the furthest points of its round. -/
theorem furthest_of_kept {count : Nat} {v : List Nat}
    (hkept : RoundsKept a b offset count 0 v kept) (hzero : entry v offset 1 = 0) :
    ∀ e < kept.length, ∀ j, OnRound e j →
      Furthest a b e j (endOn a b (kept.getD e []) offset e j) := by
  intro e
  induction e with
  | zero =>
    intro _ j hj
    have hlow := hj.low
    have hhigh := hj.high
    obtain rfl : j = 0 := by omega
    have hstart : startOn v offset 0 0 = 0 := by simp [startOn, comesDown, hzero]
    obtain ⟨hrun, hstop⟩ := common_spec a b
    rw [hkept.first, endOn, hstart]
    simpa using furthest_zero hrun hstop
  | succ e ih =>
    intro he j hj
    have hlow := hj.low
    have hhigh := hj.high
    have hparity := hj.parity
    have hbefore := ih (by omega)
    have hread : ∀ i, OnRound e i → Furthest a b e i (entry (kept.getD (e + 1) []) offset i) := by
      intro i hi
      have hnext := (hkept.next e he i (by rw [Nat.zero_add]; exact hi)).1
      rw [Nat.zero_add] at hnext
      rw [hnext]
      exact hbefore i hi
    have hbelow : j ≠ -((e + 1 : Nat) : Int) → OnRound e (j - 1) :=
      fun hne => ⟨by omega, by omega, by omega⟩
    have habove : j ≠ ((e + 1 : Nat) : Int) → OnRound e (j + 1) :=
      fun hne => ⟨by omega, by omega, by omega⟩
    have hfar : ∀ x y : Nat, Reach a b e x y → OnRound e ((x : Int) - y) := fun x y hreach => by
      obtain ⟨hx, hy, hsum⟩ := hreach.diagonal
      exact ⟨by omega, by omega, by omega⟩
    generalize kept.getD (e + 1) [] = saved at hread
    rw [endOn]
    by_cases hdown : comesDown saved offset (e + 1) j = true
    · have hne : j ≠ ((e + 1 : Nat) : Int) := by
        rintro rfl
        simp only [comesDown, Bool.or_eq_true, beq_iff_eq, bne_self_eq_false, Bool.false_and,
          Bool.false_eq_true, or_false] at hdown
        omega
      have hup := hread _ (habove hne)
      obtain ⟨y, hy, hreach⟩ := hup.reached
      have hstart : startOn saved offset (e + 1) j = entry saved offset (j + 1) := if_pos hdown
      rw [hstart, show ((entry saved offset (j + 1) : Int) - j).toNat = y + 1 by omega]
      obtain ⟨hrun, hstop⟩ := common_run a b (entry saved offset (j + 1)) (y + 1)
      refine furthest_succ (.insert hreach) (by omega) hrun hstop (fun p q hp hpq => ?_)
        fun p q hp hpq => hup.last p q hp hpq
      have hp' := hfar p q hp
      rw [hpq] at hp'
      have hle := (hread _ hp').last p q hp hpq
      have hjlow := hp'.low
      simp only [comesDown, Bool.or_eq_true, beq_iff_eq, Bool.and_eq_true, decide_eq_true_eq]
        at hdown
      rcases hdown with hedge | ⟨-, hless⟩
      · omega
      · omega
    · have hne : j ≠ -((e + 1 : Nat) : Int) := by
        rintro rfl
        simp [comesDown] at hdown
      have hdiag := hread _ (hbelow hne)
      obtain ⟨y, hy, hreach⟩ := hdiag.reached
      have hstart : startOn saved offset (e + 1) j = entry saved offset (j - 1) + 1 := if_neg hdown
      rw [hstart, show (((entry saved offset (j - 1) + 1 : Nat) : Int) - j).toNat = y by omega]
      obtain ⟨hrun, hstop⟩ := common_run a b (entry saved offset (j - 1) + 1) y
      refine furthest_succ (.delete hreach) (by omega) hrun hstop (fun p q hp hpq => ?_)
        fun p q hp hpq => ?_
      · exact Nat.succ_le_succ (hdiag.last p q hp hpq)
      · have hp' := hfar p q hp
        rw [hpq] at hp'
        have hle := (hread _ hp').last p q hp hpq
        have hjhigh := hp'.high
        simp only [comesDown, Bool.or_eq_true, beq_iff_eq, Bool.and_eq_true, decide_eq_true_eq,
          bne_iff_ne] at hdown
        have hnot : ¬ entry saved offset (j - 1) < entry saved offset (j + 1) :=
          fun hless => hdown (.inr ⟨by omega, hless⟩)
        omega

end Frontiers

end Zuri.Lsp
