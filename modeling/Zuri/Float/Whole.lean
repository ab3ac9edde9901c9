import Zuri.Float.Exact
import Mathlib.Data.Nat.Prime.Basic

/-!
Doubles that are whole numbers of at most `2^53`: they compare, add, subtract and multiply as
the whole numbers do, and a quotient of two of them rounds up as the quotient of the whole
numbers does, although it is rounded to a double first.
-/

namespace F64

section Compare

variable {a b : Int}

theorem lt_ofInt (ha : a.natAbs ≤ 2 ^ 53) (hb : b.natAbs ≤ 2 ^ 53) :
    (ofInt a).lt (ofInt b) = decide (a < b) := by
  have hpos : (0 : Int) < one := by exact_mod_cast one_pos
  unfold lt
  rw [num_ofInt ha, num_ofInt hb]
  simp only [Num.lt, signed_whole]
  exact decide_eq_decide.mpr (Int.mul_lt_mul_right hpos)

theorem le_ofInt (ha : a.natAbs ≤ 2 ^ 53) (hb : b.natAbs ≤ 2 ^ 53) :
    (ofInt a).le (ofInt b) = decide (a ≤ b) := by
  have hone : (one : Int) ≠ 0 := by exact_mod_cast one_pos.ne'
  have heq : (ofInt a).eq (ofInt b) = decide (a = b) := by
    unfold eq
    rw [num_ofInt ha, num_ofInt hb]
    simp only [Num.eq, signed_whole]
    exact decide_eq_decide.mpr (Int.mul_eq_mul_right_iff hone)
  unfold le
  rw [lt_ofInt ha hb, heq, ← Bool.decide_or]
  exact decide_eq_decide.mpr (by omega)

theorem zero_eq : zero = ofInt 0 := by rfl

theorem sub_ofInt (ha : a.natAbs ≤ 2 ^ 53) (hb : b.natAbs ≤ 2 ^ 53) :
    (ofInt a).sub (ofInt b) = ofInt (a - b) := by
  rw [Int.sub_eq_add_neg, ← add_ofInt ha (by omega : (-b).natAbs ≤ 2 ^ 53)]
  unfold sub add
  congr 1
  rw [num_ofInt ha, num_ofInt hb, num_ofInt (by omega)]
  simp only [Num.neg, Num.add, Int.natAbs_neg]
  by_cases hzero : b = 0
  · subst hzero
    simp only [Int.natAbs_zero, Nat.zero_mul, signed, neg_zero, lt_self_iff_false, decide_false]
    have hzero : ∀ c : Bool, (if c = true then -((0 : Nat) : Int) else (0 : Nat)) = 0 := by
      intro c
      cases c <;> rfl
    simp only [hzero, Int.add_zero]
    refine ite_congr rfl (fun hsum => ?_) (fun _ => rfl)
    have hneg : ¬ a < 0 := by
      intro hneg
      rw [decide_eq_true hneg, if_pos rfl, Int.neg_eq_zero, Int.natCast_eq_zero] at hsum
      cases Nat.mul_eq_zero.mp hsum with
      | inl ha0 => omega
      | inr hone => exact one_pos.ne' hone
    rw [decide_eq_false hneg]
    rfl
  · have hsign : decide (-b < 0) = !decide (b < 0) := by
      rw [← decide_not]
      exact decide_eq_decide.mpr (by omega)
    rw [hsign]

theorem abs_ofInt (ha : a.natAbs ≤ 2 ^ 53) : (ofInt a).abs = ofInt a.natAbs := by
  have hneg : decide ((a.natAbs : Int) < 0) = false := decide_eq_false (by omega)
  apply num_inj
  · rw [num_abs, num_ofInt ha, num_ofInt (by rwa [Int.natAbs_natCast]), hneg, Int.natAbs_natCast]
    rfl
  · rw [num_abs, num_ofInt ha]
    exact nofun

end Compare

theorem num_ofNat {n : Nat} (h : n ≤ 2 ^ 53) : (ofInt n).num = .fin false (n * one) := by
  have hneg : decide ((n : Int) < 0) = false := decide_eq_false (by omega)
  rw [num_ofInt (by rwa [Int.natAbs_natCast]), hneg, Int.natAbs_natCast]

theorem mul_ofNat {a b : Nat} (ha : a ≤ 2 ^ 53) (hb : b ≤ 2 ^ 53) (hab : a * b ≤ 2 ^ 53) :
    (ofInt a).mul (ofInt b) = ofInt (a * b : Nat) := by
  have hproduct : a * one * (b * one) = a * b * one * one := by ring
  have hround : round false (a * b * one * one) one = .fin false (a * b * one) :=
    round_exact false (representable_whole hab) one one_pos
  have hmul : (ofInt a).mul (ofInt b) = ofNum (.fin false (a * b * one)) := by
    unfold mul
    rw [num_ofNat ha, num_ofNat hb]
    simp only [Num.mul, bne_self_eq_false, hproduct, hround]
  apply num_inj
  · rw [hmul, num_ofNum_fin false (representable_whole hab), num_ofNat hab]
  · rw [hmul, num_ofNum_fin false (representable_whole hab)]
    exact nofun

/-- The unit a quotient is rounded to. -/
def shiftOf (n d : Nat) : Nat := Nat.log2 (n / d) - 52

/-- Rounding moves a quotient by at most half a unit. -/
theorem roundMag_near (n : Nat) {d : Nat} (hd : 0 < d) :
    2 * n ≤ 2 * (roundMag n d * d) + d * 2 ^ shiftOf n d := by
  have hdiv := Nat.div_add_mod n (d * 2 ^ shiftOf n d)
  unfold roundMag
  simp only
  rw [← shiftOf]
  generalize n / (d * 2 ^ shiftOf n d) = m at hdiv ⊢
  generalize hr : n % (d * 2 ^ shiftOf n d) = r at hdiv ⊢
  have hcommon : m * 2 ^ shiftOf n d * d = d * 2 ^ shiftOf n d * m := by ring
  split
  · have hnext : (m + 1) * 2 ^ shiftOf n d * d = d * 2 ^ shiftOf n d * m + d * 2 ^ shiftOf n d := by
      ring
    have hlt := Nat.mod_lt n (Nat.mul_pos hd (Nat.two_pow_pos (shiftOf n d)))
    rw [hr] at hlt
    rw [hnext]
    omega
  · rw [hcommon]
    omega

/-- A quotient no more than some number of units is rounded to no more. -/
theorem roundMag_le {n d k : Nat} (hd : 0 < d) (h : n ≤ k * (d * 2 ^ shiftOf n d)) :
    roundMag n d ≤ k * 2 ^ shiftOf n d := by
  have hpos : 0 < d * 2 ^ shiftOf n d := Nat.mul_pos hd (Nat.two_pow_pos _)
  have hm : n / (d * 2 ^ shiftOf n d) ≤ k := by
    rw [← Nat.mul_div_cancel k hpos]
    exact Nat.div_le_div_right h
  have hdiv := Nat.div_add_mod n (d * 2 ^ shiftOf n d)
  unfold roundMag
  simp only
  rw [← shiftOf]
  apply Nat.mul_le_mul_right
  split
  · rename_i hup
    rcases Nat.lt_or_ge (n / (d * 2 ^ shiftOf n d)) k with hlt | hge
    · exact hlt
    · have heq : n / (d * 2 ^ shiftOf n d) = k := Nat.le_antisymm hm hge
      rw [heq, Nat.mul_comm] at hdiv
      omega
  · exact hm

/-- Half a unit of a quotient that is not whole is less than what is missing to a whole
number below it. -/
theorem lt_half {w s q c : Nat} (hle : w ≤ 2 ^ 53) (hs : 0 < s) (hsle : s ≤ 2 ^ 53) (hunit : s ≠ 1)
    (hc : w = q * s + c + 1) :
    s * 2 ^ shiftOf (w * one * one) (s * one) < 2 * (c + 1) * one := by
  have hone := one_pos
  have hquotient : w * one * one / (s * one) = w * one / s := Nat.mul_div_mul_right _ _ hone
  have hbig : 2 ^ 53 * 2 ≤ one := by
    rw [one, ← Nat.pow_succ]
    exact Nat.pow_le_pow_right (by decide) (by decide)
  by_contra hge
  have hge := Nat.le_of_not_lt hge
  have hcone : one ≤ (c + 1) * one := Nat.le_mul_of_pos_left _ (Nat.succ_pos c)
  rw [Nat.mul_assoc] at hge
  by_cases hzero : shiftOf (w * one * one) (s * one) = 0
  · rw [hzero] at hge
    omega
  · have hlog : 2 ^ (shiftOf (w * one * one) (s * one) + 52) ≤ w * one / s := by
      rw [shiftOf, hquotient] at hzero ⊢
      rw [Nat.sub_add_cancel (by omega)]
      apply Nat.log2_self_le
      intro hnone
      rw [hnone] at hzero
      simp at hzero
    generalize shiftOf (w * one * one) (s * one) = shift at hlog hge
    have hscaled := (Nat.le_div_iff_mul_le hs).mp hlog
    rw [Nat.pow_add, Nat.mul_right_comm, Nat.mul_comm (2 ^ shift)] at hscaled
    have hwone : w * one ≤ 2 ^ 53 * one := Nat.mul_le_mul_right _ hle
    -- Only a power of two could lie half a unit above a whole number.
    have hc0 : c = 0 := by
      by_contra hpos
      have htwo : 2 * one ≤ (c + 1) * one := Nat.mul_le_mul_right _ (by omega)
      omega
    subst hc0
    have hpower : s * 2 ^ shift = 2 * one := by omega
    have hwhole : w = 2 ^ 53 := by
      by_contra hless
      have : w * one + one ≤ 2 ^ 53 * one := by
        rw [← Nat.succ_mul]
        exact Nat.mul_le_mul_right _ (by omega)
      omega
    have hodd : Nat.Coprime s 2 := by
      rw [Nat.coprime_comm]
      apply (Nat.Prime.coprime_iff_not_dvd Nat.prime_two).mpr
      intro htwo
      have := Nat.dvd_mul_left_of_dvd htwo q
      omega
    have hdvd : s ∣ 2 ^ 1075 := ⟨2 ^ shift, by rw [hpower, one, Nat.pow_succ, Nat.mul_comm]⟩
    exact hunit (Nat.Coprime.eq_one_of_dvd (hodd.pow_right 1075) hdvd)

/-- The quotient of two whole numbers is rounded to between the whole numbers it lies between,
and not down to the lower one. -/
theorem roundMag_whole {w s : Nat} (hw : 0 < w) (hle : w ≤ 2 ^ 53) (hs : 0 < s) (hsle : s ≤ 2 ^ 53) :
    (w - 1) / s * one < roundMag (w * one * one) (s * one) ∧
      roundMag (w * one * one) (s * one) ≤ ((w - 1) / s + 1) * one := by
  have hone := one_pos
  have hd : 0 < s * one := Nat.mul_pos hs hone
  have hquotient : w * one * one / (s * one) = w * one / s := Nat.mul_div_mul_right _ _ hone
  have hlow : (w - 1) / s * s + 1 ≤ w := by
    have := Nat.div_mul_le_self (w - 1) s
    omega
  have hhigh : w ≤ ((w - 1) / s + 1) * s := by
    have := Nat.lt_div_mul_add hs (a := w - 1)
    rw [Nat.add_mul]
    omega
  generalize (w - 1) / s = q at hlow hhigh ⊢
  by_cases hunit : s = 1
  · subst hunit
    have hq : w = q + 1 := by omega
    have hexact := roundMag_exact (representable_whole hle) one hone
    rw [Nat.one_mul, hexact, hq]
    exact ⟨Nat.mul_lt_mul_of_pos_right (by omega) hone, Nat.le_refl _⟩
  -- The unit of the quotient is no more than one.
  have hshift : shiftOf (w * one * one) (s * one) ≤ 1074 := by
    have hlog : Nat.log2 (w * one / s) ≤ 1126 := by
      apply log2_le_of_lt
      apply (Nat.div_lt_iff_lt_mul hs).mpr
      have hpow : (2 : Nat) ^ (1126 + 1) = 2 ^ 53 * one := by
        rw [one, ← Nat.pow_add]
      rw [hpow]
      have htwo : 2 ^ 53 * one * 2 ≤ 2 ^ 53 * one * s := Nat.mul_le_mul_left _ (by omega)
      have hw' : w * one ≤ 2 ^ 53 * one := Nat.mul_le_mul_right _ hle
      have hbig : 0 < 2 ^ 53 * one := Nat.mul_pos (by decide) hone
      omega
    rw [shiftOf, hquotient]
    omega
  constructor
  · by_contra hdown
    have hnear := roundMag_near (w * one * one) hd
    have hmul := Nat.mul_le_mul_right (s * one) (Nat.le_of_not_lt hdown)
    obtain ⟨c, hc⟩ := Nat.exists_eq_add_of_lt hlow
    have hhalf : 2 * (c + 1) * one ≤ s * 2 ^ shiftOf (w * one * one) (s * one) := by
      generalize 2 ^ shiftOf (w * one * one) (s * one) = unit at hnear ⊢
      have hleft : 2 * (w * one * one) = 2 * (q * one * (s * one)) + 2 * (c + 1) * one * one := by
        rw [hc]
        ring
      have hright : s * one * unit = s * unit * one := by ring
      rw [hleft, hright] at hnear
      exact Nat.le_of_mul_le_mul_right (by omega) hone
    exact absurd hhalf (Nat.not_le_of_lt (lt_half hle hs hsle hunit hc))
  · obtain ⟨k, hk⟩ : 2 ^ shiftOf (w * one * one) (s * one) ∣ one := Nat.pow_dvd_pow 2 hshift
    have hunits : (q + 1) * one = (q + 1) * k * 2 ^ shiftOf (w * one * one) (s * one) := by
      rw [Nat.mul_assoc, Nat.mul_comm k, ← hk]
    rw [hunits]
    apply roundMag_le hd
    have hsplit : (q + 1) * k * (s * one * 2 ^ shiftOf (w * one * one) (s * one)) =
        (q + 1) * s * one * (2 ^ shiftOf (w * one * one) (s * one) * k) := by ring
    rw [hsplit, ← hk]
    exact Nat.mul_le_mul_right _ (Nat.mul_le_mul_right _ hhigh)

end F64
