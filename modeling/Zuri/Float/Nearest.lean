import Mathlib.Order.WithBot
import Zuri.Float.Whole

/-!
The nearest double to a whole number grows with the number, so that doubles that differ are in
the order of the numbers.
-/

namespace F64

theorem roundMag_bounds (n : Nat) :
    (n / 2 ^ shiftOf n 1) * 2 ^ shiftOf n 1 ≤ roundMag n 1 ∧
      roundMag n 1 ≤ (n / 2 ^ shiftOf n 1 + 1) * 2 ^ shiftOf n 1 := by
  unfold roundMag
  simp only [Nat.one_mul]
  rw [← shiftOf]
  split
  · exact ⟨Nat.mul_le_mul_right _ (Nat.le_succ _), Nat.le_refl _⟩
  · exact ⟨Nat.le_refl _, Nat.mul_le_mul_right _ (Nat.le_succ _)⟩

theorem shiftOf_mono {m n : Nat} (h : m ≤ n) : shiftOf m 1 ≤ shiftOf n 1 := by
  unfold shiftOf
  rw [Nat.div_one, Nat.div_one]
  have hlog : Nat.log2 m ≤ Nat.log2 n := log2_le_of_lt (Nat.lt_of_le_of_lt h Nat.lt_log2_self)
  omega

theorem roundMag_mono {m n : Nat} (h : m ≤ n) : roundMag m 1 ≤ roundMag n 1 := by
  rcases Nat.eq_or_lt_of_le (shiftOf_mono h) with heq | hlt
  · -- with one unit for both, the quotients decide, or else the remainders
    have hquotient : m / 2 ^ shiftOf n 1 ≤ n / 2 ^ shiftOf n 1 := Nat.div_le_div_right h
    rcases Nat.eq_or_lt_of_le hquotient with hsame | hless
    · have hm := Nat.div_add_mod m (2 ^ shiftOf n 1)
      have hn := Nat.div_add_mod n (2 ^ shiftOf n 1)
      rw [hsame] at hm
      have hrest : m % 2 ^ shiftOf n 1 ≤ n % 2 ^ shiftOf n 1 := by omega
      unfold roundMag
      simp only [Nat.one_mul]
      rw [← shiftOf, ← shiftOf, heq, hsame]
      apply Nat.mul_le_mul_right
      split
      · next hup =>
          rw [if_pos]
          rcases hup with hup | hup
          · exact .inl (by omega)
          · rcases Nat.eq_or_lt_of_le hrest with hrest | hrest
            · exact .inr (by omega)
            · exact .inl (by omega)
      · split
        · exact Nat.le_succ _
        · exact Nat.le_refl _
    · refine (roundMag_bounds m).2.trans (Nat.le_trans ?_ (roundMag_bounds n).1)
      rw [heq]
      exact Nat.mul_le_mul_right _ hless
  · have hlarge : 52 < Nat.log2 n := by
      unfold shiftOf at hlt
      rw [Nat.div_one, Nat.div_one] at hlt
      omega
    have hm := quotient_lt m
    have hn := quotient_ge n hlarge
    have hshift : ∀ k, Nat.log2 k - 52 = shiftOf k 1 := by
      intro k
      rw [shiftOf, Nat.div_one]
    rw [hshift] at hm hn
    calc roundMag m 1 ≤ (m / 2 ^ shiftOf m 1 + 1) * 2 ^ shiftOf m 1 := (roundMag_bounds m).2
      _ ≤ 2 ^ 53 * 2 ^ shiftOf m 1 := Nat.mul_le_mul_right _ hm
      _ = 2 ^ 52 * 2 ^ (shiftOf m 1 + 1) := by rw [Nat.pow_succ 2 (shiftOf m 1)]; omega
      _ ≤ 2 ^ 52 * 2 ^ shiftOf n 1 :=
        Nat.mul_le_mul_left _ (Nat.pow_le_pow_right (by decide) hlt)
      _ ≤ n / 2 ^ shiftOf n 1 * 2 ^ shiftOf n 1 := Nat.mul_le_mul_right _ hn
      _ ≤ roundMag n 1 := (roundMag_bounds n).1

/-- A magnitude a double can have, or the infinite one. -/
def capped (bound mag : Nat) : WithTop Nat := if mag < bound then (mag : WithTop Nat) else ⊤

theorem capped_mono (bound : Nat) : Monotone (capped bound) := by
  intro m n h
  unfold capped
  by_cases hn : n < bound
  · rw [if_pos hn, if_pos (Nat.lt_of_le_of_lt h hn)]
    exact WithTop.coe_le_coe.mpr h
  · rw [if_neg hn]
    exact le_top

/-- The magnitude of the double nearest to a whole number; past the largest it is infinite. -/
def nearest (n : Nat) : WithTop Nat := capped limit (roundMag (n * one) 1)

theorem nearest_mono : Monotone nearest := fun _ _ h =>
  capped_mono limit (roundMag_mono (Nat.mul_le_mul_right one h))

theorem ofInt_num (n : Nat) : (ofInt n).num = round false (n * one) 1 := by
  by_cases hzero : n = 0
  · subst hzero
    have hround := round_exact false representable_zero 1 Nat.one_pos
    rw [Nat.zero_mul] at hround ⊢
    rw [hround]
    rfl
  · have hne : ¬(n : Int) = 0 := by omega
    have hneg : decide ((n : Int) < 0) = false := decide_eq_false (by omega)
    rw [ofInt, Num.ofInt, if_neg hne, num_round _ _ _ Nat.one_pos, Int.natAbs_natCast, hneg]

theorem lt_capped (bound a b : Nat) :
    (if a < bound then Num.fin false a else .inf false).lt
      (if b < bound then Num.fin false b else .inf false) =
        decide (capped bound a < capped bound b) := by
  unfold capped
  by_cases ha : a < bound
  · by_cases hb : b < bound
    · simp [ha, hb, Num.lt, signed]
    · simp [ha, hb, Num.lt]
  · by_cases hb : b < bound
    · simp [ha, hb, Num.lt]
    · simp [ha, hb, Num.lt]

/-- Doubles of whole numbers are compared by their magnitudes. -/
theorem lt_nearest (m n : Nat) :
    (ofInt m).lt (ofInt n) = decide (nearest m < nearest n) := by
  rw [lt, ofInt_num, ofInt_num, nearest, nearest, ← lt_capped]
  rfl

theorem nearest_whole {n : Nat} (h : n ≤ 2 ^ 53) : nearest n = (n * one : Nat) := by
  have hwhole := representable_whole h
  have hround := roundMag_exact hwhole 1 Nat.one_pos
  rw [Nat.mul_one] at hround
  rw [nearest, capped, hround, if_pos hwhole.1]

/-- Numbers that are exact as doubles have doubles of their own. -/
theorem nearest_inj {m n : Nat} (hm : m ≤ 2 ^ 53) (hn : n ≤ 2 ^ 53) (h : nearest m = nearest n) :
    m = n := by
  rw [nearest_whole hm, nearest_whole hn] at h
  exact Nat.eq_of_mul_eq_mul_right one_pos (WithTop.coe_injective h)

theorem nearest_congr {m n : Nat} (h : ofInt m = ofInt n) : nearest m = nearest n := by
  have hmn := lt_nearest m n
  have hnm := lt_nearest n m
  rw [h, lt_nearest, decide_eq_false (lt_irrefl _)] at hmn
  rw [← h, lt_nearest, decide_eq_false (lt_irrefl _)] at hnm
  exact le_antisymm (not_lt.mp (of_decide_eq_false hnm.symm))
    (not_lt.mp (of_decide_eq_false hmn.symm))

end F64
