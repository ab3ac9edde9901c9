import Zuri.Float.Nearest

/-!
Doubles that are whole numbers, of any size. Their sums and differences are the roundings of
the whole numbers' own, but for a zero made of zeros alone, and a whole number past `2^53` is
even.
-/

namespace F64

/-- A double that stands for a whole number; both zeros stand for 0. -/
def Integral (x : F64) (v : Int) : Prop := ∃ s mag, x.num = .fin s mag ∧ signed s mag = v * one

section Integral

variable {x y : F64} {v w : Int}

theorem one_cast : (0 : Int) < (one : Nat) := by exact_mod_cast one_pos

theorem signed_mul (s : Bool) (m n : Nat) : signed s (m * n) = signed s m * (n : Int) := by
  cases s
  · exact Int.natCast_mul m n
  · exact (congrArg Neg.neg (Int.natCast_mul m n)).trans (Int.neg_mul _ _).symm

theorem signed_natAbs (s : Bool) (mag : Nat) : (signed s mag).natAbs = mag := by
  cases s
  · exact Int.natAbs_natCast mag
  · rw [signed, if_pos rfl, Int.natAbs_neg, Int.natAbs_natCast]

theorem mag_of_signed {s : Bool} {mag : Nat} (h : signed s mag = v * (one : Nat)) :
    mag = v.natAbs * one := by
  rw [← signed_natAbs s mag, h, Int.natAbs_mul, Int.natAbs_natCast]

theorem sign_of_signed {s : Bool} {mag : Nat} (h : signed s mag = v * (one : Nat)) (hv : v ≠ 0) :
    s = decide (v < 0) := by
  have hpos := one_cast
  cases s
  · have hnonneg : 0 ≤ v * (one : Nat) := by
      rw [← h]
      exact Int.natCast_nonneg mag
    have hle : 0 ≤ v := by
      by_contra hlt
      have hmul := Int.mul_neg_of_neg_of_pos (Int.not_le.mp hlt) hpos
      omega
    exact (decide_eq_false (by omega)).symm
  · have hnonpos : v * (one : Nat) ≤ 0 := by
      rw [← h, signed, if_pos rfl]
      omega
    have hle : v ≤ 0 := by
      by_contra hgt
      have hmul := Int.mul_pos (Int.not_le.mp hgt) hpos
      omega
    exact (decide_eq_true (by omega)).symm

theorem integral_ofInt (h : v.natAbs ≤ 2 ^ 53) : Integral (ofInt v) v :=
  ⟨_, _, num_ofInt h, signed_whole v⟩

theorem Integral.unique (hv : Integral x v) (hw : Integral x w) : v = w := by
  obtain ⟨s, mag, hx, hsv⟩ := hv
  obtain ⟨t, mag', hx', hsw⟩ := hw
  rw [hx] at hx'
  cases hx'
  exact Int.eq_of_mul_eq_mul_right (ne_of_gt one_cast) (hsv.symm.trans hsw)

theorem num_minusZero : minusZero.num = .fin true 0 := by rfl

/-- A zero is one of the two. -/
theorem eq_minusZero {mag : Nat} (hx : x.num = .fin true mag) (hmag : mag = 0) :
    x = minusZero := by
  subst hmag
  refine num_inj (hx.trans num_minusZero.symm) ?_
  rw [hx]
  exact nofun

theorem Integral.eq_of (hx : Integral x v) (hy : Integral y v) (hv : v ≠ 0) : x = y := by
  obtain ⟨s, mag, hx, hs⟩ := hx
  obtain ⟨t, mag', hy, ht⟩ := hy
  have hsame : x.num = y.num := by
    rw [hx, hy, mag_of_signed hs, mag_of_signed ht, sign_of_signed hs hv, sign_of_signed ht hv]
  refine num_inj hsame ?_
  rw [hx]
  exact nofun

theorem Integral.even (h : Integral x v) (hlarge : 2 ^ 53 < v.natAbs) : v % 2 = 0 := by
  obtain ⟨s, mag, hx, hs⟩ := h
  have hmag := mag_of_signed hs
  have hbig : 2 ^ 53 * one < mag := by
    rw [hmag]
    exact Nat.mul_lt_mul_of_pos_right hlarge one_pos
  obtain ⟨q, hq⟩ := (representable_num hx).even hbig
  have habs : v.natAbs = 2 * q := Nat.eq_of_mul_eq_mul_right one_pos (hmag.symm.trans hq)
  omega

theorem add_parts {s t : Bool} {a b : Nat} (hv : signed s a = v * (one : Nat))
    (hw : signed t b = w * (one : Nat)) (hzero : ¬((s && t) = true ∧ a = 0 ∧ b = 0)) :
    Num.add (.fin s a) (.fin t b) = .ofInt (v + w) := by
  have hsum : signed s a + signed t b = (v + w) * (one : Nat) := by rw [hv, hw, Int.add_mul]
  simp only [Num.add, Num.ofInt, hsum]
  by_cases hvw : v + w = 0
  · rw [if_pos (by rw [hvw, Int.zero_mul]), if_pos hvw]
    have hsign : (s && t) = false := by
      by_contra hboth
      rw [Bool.not_eq_false] at hboth
      obtain ⟨rfl, rfl⟩ := (Bool.and_eq_true_iff).mp hboth
      rw [hvw, Int.zero_mul] at hsum
      simp only [signed, if_true] at hsum
      exact hzero ⟨rfl, by omega, by omega⟩
    rw [hsign]
  · have hpos := one_cast
    have hne : (v + w) * ((one : Nat) : Int) ≠ 0 := Int.mul_ne_zero hvw (ne_of_gt hpos)
    rw [if_neg hne, if_neg hvw]
    have hsign : decide ((v + w) * ((one : Nat) : Int) < 0) = decide (v + w < 0) := by
      refine decide_eq_decide.mpr ⟨fun h => ?_, fun h => Int.mul_neg_of_neg_of_pos h hpos⟩
      by_contra hge
      have hmul := Int.mul_nonneg (Int.not_lt.mp hge) (Int.le_of_lt hpos)
      omega
    rw [hsign, Int.natAbs_mul, Int.natAbs_natCast]

theorem add_integral (hx : Integral x v) (hy : Integral y w)
    (hzero : ¬(x = minusZero ∧ y = minusZero)) : x.add y = ofInt (v + w) := by
  obtain ⟨s, a, hx, hs⟩ := hx
  obtain ⟨t, b, hy, ht⟩ := hy
  rw [add, hx, hy, ofInt, add_parts hs ht]
  rintro ⟨hsigns, ha, hb⟩
  obtain ⟨rfl, rfl⟩ := (Bool.and_eq_true_iff).mp hsigns
  exact hzero ⟨eq_minusZero hx ha, eq_minusZero hy hb⟩

theorem num_zero : zero.num = .fin false 0 := by rfl

theorem eq_zero {mag : Nat} (hx : x.num = .fin false mag) (hmag : mag = 0) : x = zero := by
  subst hmag
  refine num_inj (hx.trans num_zero.symm) ?_
  rw [hx]
  exact nofun

theorem sub_integral (hx : Integral x v) (hy : Integral y w)
    (hzero : ¬(x = minusZero ∧ y = zero)) : x.sub y = ofInt (v - w) := by
  obtain ⟨s, a, hx, hs⟩ := hx
  obtain ⟨t, b, hy, ht⟩ := hy
  have hneg : signed (!t) b = -w * (one : Nat) := by
    rw [Int.neg_mul, ← ht]
    cases t
    · rfl
    · simp [signed]
  rw [sub, hx, hy, ofInt, Int.sub_eq_add_neg]
  rw [show Num.neg (.fin t b) = .fin (!t) b from rfl, add_parts hs hneg]
  rintro ⟨hsigns, ha, hb⟩
  rw [Bool.and_eq_true_iff, Bool.not_eq_true'] at hsigns
  obtain ⟨rfl, rfl⟩ := hsigns
  exact hzero ⟨eq_minusZero hx ha, eq_zero hy hb⟩

/-- A product within `2^53` is the whole numbers' own, unless it is a zero of the other sign. -/
theorem mul_integral {s t : Bool} {a b : Nat} (hx : x.num = .fin s a) (hy : y.num = .fin t b)
    (hv : signed s a = v * (one : Nat)) (hw : signed t b = w * (one : Nat))
    (hsmall : (v * w).natAbs ≤ 2 ^ 53) (hzero : v * w = 0 → s = t) :
    x.mul y = ofInt (v * w) := by
  have hproduct : a * b = (v * w).natAbs * one * one := by
    rw [mag_of_signed hv, mag_of_signed hw, Int.natAbs_mul]
    ring
  have hsign : (s != t) = decide (v * w < 0) := by
    by_cases hvw : v * w = 0
    · rw [hzero hvw, hvw, bne_self_eq_false]
      rfl
    · have hv0 : v ≠ 0 := left_ne_zero_of_mul hvw
      have hw0 : w ≠ 0 := right_ne_zero_of_mul hvw
      rw [sign_of_signed hv hv0, sign_of_signed hw hw0]
      by_cases hvneg : v < 0 <;> by_cases hwneg : w < 0
      · have := Int.mul_pos_of_neg_of_neg hvneg hwneg
        simp [hvneg, hwneg]
        omega
      · have := Int.mul_neg_of_neg_of_pos hvneg (by omega : 0 < w)
        simp [hvneg, hwneg, this]
      · have := Int.mul_neg_of_pos_of_neg (by omega : 0 < v) hwneg
        simp [hvneg, hwneg, this]
      · have := Int.mul_pos (by omega : 0 < v) (by omega : 0 < w)
        simp [hvneg, hwneg]
        omega
  have hround := round_exact (s != t) (representable_whole hsmall) one one_pos
  have hmul : x.mul y = ofNum (.fin (s != t) ((v * w).natAbs * one)) := by
    rw [mul, hx, hy]
    simp only [Num.mul, hproduct, hround]
  rw [hmul, hsign, ← num_ofInt hsmall]
  refine ofNum_num ?_
  rw [num_ofInt hsmall]
  intro hnan
  cases hnan

theorem toInt_integral (hx : Integral x v) : x.toInt = max (-2 ^ 63) (min (2 ^ 63 - 1) v) := by
  obtain ⟨s, mag, hx, hs⟩ := hx
  have hwhole : signed s (mag / one) = v := by
    have hmag := mag_of_signed hs
    rw [hmag, Nat.mul_div_cancel _ one_pos]
    rw [hmag] at hs
    have hcast : signed s (v.natAbs * one) = signed s v.natAbs * (one : Nat) := signed_mul s _ _
    exact Int.eq_of_mul_eq_mul_right (ne_of_gt one_cast) (hcast.symm.trans hs)
  rw [toInt, hx]
  simp only [Num.toInt, hwhole]

theorem integral_power {k p : Nat} (hk : k < 2 ^ 53) (hp : p ≤ 63) (hv : v.natAbs = k * 2 ^ p) :
    Integral (ofInt v) v := by
  by_cases hzero : v = 0
  · subst hzero
    exact integral_ofInt (by decide)
  · have h : Representable (v.natAbs * one) := by
      rw [hv]
      exact representable_power hk hp
    have hround := round_exact (decide (v < 0)) h 1 (by decide)
    rw [Nat.mul_one] at hround
    refine ⟨decide (v < 0), v.natAbs * one, ?_, signed_whole v⟩
    rw [ofInt, Num.ofInt, if_neg hzero, hround]
    exact num_ofNum_fin _ h

theorem representable_two63 : Representable (2 ^ 63 * one) := by
  have h := representable_power (k := 1) (p := 63) (by decide) (Nat.le_refl _)
  rwa [Nat.one_mul] at h

/-- Rounding a whole number of sixty-four bits gives a whole number that is no larger. -/
theorem roundMag_within {n : Nat} (h : n ≤ 2 ^ 63) :
    ∃ k, k ≤ 2 ^ 63 ∧ roundMag (n * one) 1 = k * one := by
  have htop : Representable (2 ^ 63 * one) := representable_two63
  have hexact : roundMag (2 ^ 63 * one) 1 = 2 ^ 63 * one := by
    have := roundMag_exact htop 1 (by decide)
    rwa [Nat.mul_one] at this
  have hle : roundMag (n * one) 1 ≤ 2 ^ 63 * one := by
    rw [← hexact]
    exact roundMag_mono (Nat.mul_le_mul_right one h)
  have hfactor : ∀ {k}, roundMag (n * one) 1 = k * one → k ≤ 2 ^ 63 := by
    intro k hk
    rw [hk] at hle
    exact Nat.le_of_mul_le_mul_right hle one_pos
  by_cases hsmall : n ≤ 2 ^ 53
  · have hround := roundMag_exact (representable_whole hsmall) 1 (by decide)
    rw [Nat.mul_one] at hround
    exact ⟨n, hfactor hround, hround⟩
  · have hedge := roundMag_exact (representable_whole (Nat.le_refl (2 ^ 53))) 1 (by decide)
    rw [Nat.mul_one] at hedge
    have hge : 2 ^ 53 * one ≤ roundMag (n * one) 1 := by
      rw [← hedge]
      exact roundMag_mono (Nat.mul_le_mul_right one (by omega))
    obtain heq | hlt := Nat.eq_or_lt_of_le hge
    · exact ⟨2 ^ 53, hfactor heq.symm, heq.symm⟩
    · have hrep := roundMag_representable (n * one) 1 (by decide) (Nat.lt_of_le_of_lt hle htop.1)
      obtain ⟨q, hq⟩ := hrep.even hlt
      exact ⟨2 * q, hfactor hq, hq⟩

/-- A double equal to a whole number of sixty-four bits, once that is rounded, is one. -/
theorem integral_of_eq {i : Int} (hi : i.natAbs ≤ 2 ^ 63) (h : (ofInt i).eq x = true) :
    ∃ v, Integral x v ∧ v.natAbs ≤ 2 ^ 63 := by
  obtain ⟨k, hk, hround⟩ := roundMag_within hi
  have hlimit : k * one < limit :=
    Nat.lt_of_le_of_lt (Nat.mul_le_mul_right one hk) (representable_two63).1
  have hnum : ∃ s, (ofInt i).num = .fin s (k * one) := by
    by_cases hzero : i = 0
    · subst hzero
      have hk : k * one = 0 := by
        have hnone := roundMag_exact representable_zero 1 (by decide)
        rw [← hround, Int.natAbs_zero, Nat.zero_mul]
        exact hnone
      refine ⟨false, ?_⟩
      rw [hk, num_ofInt (by decide), Int.natAbs_zero, Nat.zero_mul]
      rfl
    · refine ⟨decide (i < 0), ?_⟩
      rw [ofInt, Num.ofInt, if_neg hzero, num_round _ _ 1 (by decide), round, hround]
      exact if_pos hlimit
  obtain ⟨s, hs⟩ := hnum
  rw [eq, hs] at h
  cases hx : x.num with
  | nan => rw [hx] at h; cases h
  | inf t => rw [hx] at h; cases h
  | fin t mag =>
      rw [hx] at h
      have hsame : signed s (k * one) = signed t mag := of_decide_eq_true h
      have hwhole : signed s (k * one) = signed s k * (one : Nat) := signed_mul s k one
      refine ⟨signed s k, ⟨t, mag, hx, by rw [← hsame, hwhole]⟩, ?_⟩
      rwa [signed_natAbs]

theorem num_trunc (x : F64) : x.trunc.num = x.num.trunc := by
  cases hx : x.num with
  | nan => rw [trunc, hx]; exact num_ofNum_nan
  | inf s => rw [trunc, hx]; exact num_ofNum_inf s
  | fin s a =>
      rw [trunc, hx]
      refine num_ofNum_fin s ?_
      have hrep := representable_num hx
      by_cases hlarge : 2 ^ 53 * one < a
      · obtain ⟨q, hq⟩ := hrep.even hlarge
        rw [hq] at hrep ⊢
        rwa [Nat.mul_div_cancel (2 * q) one_pos]
      · have hle : a ≤ one * 2 ^ 53 := by
          rw [Nat.mul_comm]
          exact Nat.not_lt.mp hlarge
        exact representable_whole (Nat.div_le_of_le_mul hle)

theorem roundMag_pos {n : Nat} (h : 0 < n) : 0 < roundMag n 1 := by
  have hself := Nat.log2_self_le (Nat.pos_iff_ne_zero.mp h)
  have hunit : 2 ^ (Nat.log2 n - 52) ≤ n :=
    Nat.le_trans (Nat.pow_le_pow_right (by decide) (Nat.sub_le _ _)) hself
  have hm : 0 < n / 2 ^ (Nat.log2 n - 52) := Nat.div_pos hunit (Nat.two_pow_pos _)
  unfold roundMag
  simp only [Nat.div_one, Nat.one_mul]
  refine Nat.mul_pos ?_ (Nat.two_pow_pos _)
  split
  · exact Nat.succ_pos _
  · exact hm

/-- A double that its own whole part takes all of is a whole number. -/
theorem integral_of_fract (h : (x.sub x.trunc).eq zero = true) : ∃ v, Integral x v := by
  rw [eq, num_sub, num_trunc, num_zero] at h
  cases hx : x.num with
  | nan => rw [hx] at h; cases h
  | inf s => rw [hx] at h; cases s <;> cases h
  | fin s a =>
      rw [hx] at h
      have hwhole : a = a / one * one := by
        by_contra hne
        have hlt : a / one * one < a := by
          have := Nat.div_mul_le_self a one
          omega
        have hsum : (signed s a + signed (!s) (a / one * one)).natAbs = a - a / one * one := by
          cases s <;> simp only [signed, Bool.not_false, Bool.not_true, if_true] <;>
            simp only [Bool.false_eq_true, if_false] <;> omega
        have hzero : signed s a + signed (!s) (a / one * one) ≠ 0 := by
          intro hz
          rw [hz] at hsum
          simp at hsum
          omega
        simp only [Num.trunc, Num.neg, Num.add, if_neg hzero, round, hsum] at h
        have hpos := roundMag_pos (Nat.sub_pos_of_lt hlt)
        split at h
        · have hz := of_decide_eq_true h
          have hmag := congrArg Int.natAbs hz
          rw [signed_natAbs, signed_natAbs] at hmag
          omega
        · cases h
      refine ⟨signed s (a / one), s, a, hx, ?_⟩
      conv_lhs => rw [hwhole]
      exact signed_mul s _ one

end Integral

end F64
