import Zuri.Float.Binary64
import Mathlib.Tactic.Ring

/-!
What a double stands for, read back from its bits, and the arithmetic that needs no
rounding: a magnitude a double can hold is its own rounding, so whole numbers up to
`2^53` add as they should.
-/

namespace F64

/-- A magnitude a double can hold. -/
def Representable (mag : Nat) : Prop := mag < limit ∧ ∃ m p, m < 2 ^ 53 ∧ mag = m * 2 ^ p

theorem log2_le_of_lt {n k : Nat} (h : n < 2 ^ (k + 1)) : Nat.log2 n ≤ k := by
  by_cases hzero : n = 0
  · subst hzero
    simp
  · have hlt := (Nat.log2_lt hzero).mpr h
    omega

/-- The unit of a magnitude divides it. -/
theorem Representable.dvd {mag : Nat} (h : Representable mag) :
    2 ^ (Nat.log2 mag - 52) ∣ mag := by
  obtain ⟨_, m, p, hm, rfl⟩ := h
  have hlog : Nat.log2 (m * 2 ^ p) ≤ 52 + p := by
    apply log2_le_of_lt
    have hpow : 2 ^ (52 + p + 1) = 2 ^ 53 * 2 ^ p := by
      rw [← Nat.pow_add]
      congr 1
      omega
    rw [hpow]
    exact Nat.mul_lt_mul_of_pos_right hm (Nat.two_pow_pos p)
  exact Nat.dvd_mul_left_of_dvd (Nat.pow_dvd_pow 2 (by omega)) m

/-- How many units a magnitude is. -/
theorem quotient_lt (n : Nat) : n / 2 ^ (Nat.log2 n - 52) < 2 ^ 53 := by
  apply (Nat.div_lt_iff_lt_mul (Nat.two_pow_pos _)).mpr
  rw [← Nat.pow_add]
  exact Nat.lt_of_lt_of_le Nat.lt_log2_self (Nat.pow_le_pow_right (by decide) (by omega))

theorem quotient_ge (n : Nat) (h : 52 < Nat.log2 n) : 2 ^ 52 ≤ n / 2 ^ (Nat.log2 n - 52) := by
  apply (Nat.le_div_iff_mul_le (Nat.two_pow_pos _)).mpr
  rw [← Nat.pow_add]
  have hlog : 52 + (Nat.log2 n - 52) = Nat.log2 n := by omega
  rw [hlog]
  apply Nat.log2_self_le
  rintro rfl
  simp at h

theorem pack_lt {mag : Nat} (h : mag < limit) : pack mag < 2047 * 2 ^ 52 := by
  have hlog : Nat.log2 mag ≤ 2097 := log2_le_of_lt h
  have hquotient := quotient_lt mag
  unfold pack
  simp only
  generalize mag / 2 ^ (Nat.log2 mag - 52) = q at hquotient ⊢
  by_cases hlarge : 52 < Nat.log2 mag
  · have hshift : Nat.log2 mag - 52 ≤ 2045 := by omega
    have hmul : (Nat.log2 mag - 52) * 2 ^ 52 ≤ 2045 * 2 ^ 52 := Nat.mul_le_mul_right _ hshift
    omega
  · have hshift : Nat.log2 mag - 52 = 0 := by omega
    rw [hshift]
    omega

theorem bits_toNat {s : Bool} {n : Nat} (h : n < 2 ^ 63) :
    (BitVec.ofNat 64 (signBit s + n)).toNat = signBit s + n := by
  rw [BitVec.toNat_ofNat]
  apply Nat.mod_eq_of_lt
  cases s <;> simp only [signBit] <;> split <;> omega

/-- The fields of a word with a sign. -/
theorem num_bits (s : Bool) (n : Nat) (h : n < 2 ^ 63) :
    (F64.mk (BitVec.ofNat 64 (signBit s + n))).num =
      if n / 2 ^ 52 = 2047 then if n % 2 ^ 52 = 0 then .inf s else .nan
      else if n / 2 ^ 52 = 0 then .fin s (n % 2 ^ 52)
      else .fin s ((2 ^ 52 + n % 2 ^ 52) * 2 ^ (n / 2 ^ 52 - 1)) := by
  have hsign : decide (2 ^ 63 ≤ signBit s + n) = s := by
    cases s with
    | true => simp only [signBit, if_true, decide_eq_true_eq]; omega
    | false => simp only [signBit, Bool.false_eq_true, if_false, decide_eq_false_iff_not]; omega
  have hexponent : (signBit s + n) / 2 ^ 52 % 2048 = n / 2 ^ 52 := by
    cases s <;> simp only [signBit, Bool.false_eq_true, if_true, if_false] <;> omega
  have hfraction : (signBit s + n) % 2 ^ 52 = n % 2 ^ 52 := by
    cases s <;> simp only [signBit, Bool.false_eq_true, if_true, if_false] <;> omega
  simp only [num, bits_toNat h, hsign, hexponent, hfraction]

theorem num_ofNum_inf (s : Bool) : (ofNum (.inf s)).num = .inf s := by
  unfold ofNum
  rw [num_bits s _ (by decide)]
  rfl

theorem num_ofNum_nan : (ofNum .nan).num = .nan := by
  rfl

theorem num_ofNum_fin (s : Bool) {mag : Nat} (h : Representable mag) :
    (ofNum (.fin s mag)).num = .fin s mag := by
  have hpack := pack_lt h.1
  have hquotient := quotient_lt mag
  have hdvd := h.dvd
  unfold ofNum
  rw [num_bits s _ (by omega), if_neg (by omega)]
  by_cases hlarge : 52 < Nat.log2 mag
  · have hge := quotient_ge mag hlarge
    have hwhole : mag / 2 ^ (Nat.log2 mag - 52) * 2 ^ (Nat.log2 mag - 52) = mag :=
      Nat.div_mul_cancel hdvd
    have hfields : pack mag = (Nat.log2 mag - 52 + 1) * 2 ^ 52 +
        (mag / 2 ^ (Nat.log2 mag - 52) - 2 ^ 52) := by
      unfold pack
      simp only
      omega
    have hexponent : pack mag / 2 ^ 52 = Nat.log2 mag - 52 + 1 := by
      rw [hfields]
      omega
    have hfraction : 2 ^ 52 + pack mag % 2 ^ 52 = mag / 2 ^ (Nat.log2 mag - 52) := by
      rw [hfields]
      omega
    rw [hexponent, hfraction, if_neg (by omega), Nat.add_sub_cancel, hwhole]
  · have hshift : Nat.log2 mag - 52 = 0 := by omega
    have hsame : pack mag = mag := by
      unfold pack
      simp [hshift]
    rw [hshift, Nat.pow_zero, Nat.div_one] at hquotient
    rw [hsame]
    split
    · congr 1
      omega
    · have hone : mag / 2 ^ 52 = 1 := by omega
      rw [hone]
      congr 1
      omega

/-- What stands in the bits of a double is a magnitude it can hold. -/
theorem representable_num {x : F64} {s : Bool} {mag : Nat} (h : x.num = .fin s mag) :
    Representable mag := by
  unfold num at h
  simp only at h
  have hfraction : x.bits.toNat % 2 ^ 52 < 2 ^ 52 := Nat.mod_lt _ (by decide)
  generalize x.bits.toNat % 2 ^ 52 = fraction at h hfraction
  have hbound : x.bits.toNat / 2 ^ 52 % 2048 < 2048 := Nat.mod_lt _ (by decide)
  generalize x.bits.toNat / 2 ^ 52 % 2048 = exponent at h hbound
  split at h
  · split at h <;> cases h
  · split at h
    · cases h
      refine ⟨?_, mag, 0, by omega, by simp⟩
      exact Nat.lt_trans hfraction (Nat.pow_lt_pow_right (by decide) (by decide))
    · cases h
      refine ⟨?_, _, exponent - 1, by omega, rfl⟩
      have hpow : (2 : Nat) ^ (exponent - 1) ≤ 2 ^ 2045 :=
        Nat.pow_le_pow_right (by decide) (by omega)
      have hlimit : limit = 2 ^ 53 * 2 ^ 2045 := by
        rw [← Nat.pow_add]
        rfl
      rw [hlimit]
      exact Nat.lt_of_lt_of_le (Nat.mul_lt_mul_of_pos_right (by omega) (Nat.two_pow_pos _))
        (Nat.mul_le_mul_left _ hpow)

theorem log2_scaled {m p : Nat} (hlow : 2 ^ 52 ≤ m) (hhigh : m < 2 ^ 53) :
    Nat.log2 (m * 2 ^ p) = 52 + p := by
  have hpos : m * 2 ^ p ≠ 0 := Nat.mul_ne_zero (by omega) (Nat.two_pow_pos p).ne'
  rw [Nat.log2_eq_iff hpos, Nat.pow_add, show 52 + p + 1 = 53 + p by omega, Nat.pow_add]
  exact ⟨Nat.mul_le_mul_right _ hlow, Nat.mul_lt_mul_of_pos_right hhigh (Nat.two_pow_pos p)⟩

/-- A double that is no NaN is the only one that stands for what it stands for. -/
theorem ofNum_num {x : F64} (h : x.num ≠ .nan) : ofNum x.num = x := by
  have hword := x.bits.isLt
  have hbits : ∀ {n : Nat}, n = x.bits.toNat → (⟨BitVec.ofNat 64 n⟩ : F64) = x := by
    rintro n rfl
    rw [BitVec.ofNat_toNat, BitVec.setWidth_eq]
  have hsplit : x.bits.toNat = signBit (decide (2 ^ 63 ≤ x.bits.toNat)) +
      (x.bits.toNat / 2 ^ 52 % 2048 * 2 ^ 52 + x.bits.toNat % 2 ^ 52) := by
    by_cases hneg : 2 ^ 63 ≤ x.bits.toNat
    · simp only [hneg, decide_true, signBit, if_true]
      omega
    · simp only [hneg, decide_false, signBit, Bool.false_eq_true, if_false]
      omega
  have hfraction : x.bits.toNat % 2 ^ 52 < 2 ^ 52 := Nat.mod_lt _ (by decide)
  unfold num at h ⊢
  simp only at h ⊢
  generalize decide (2 ^ 63 ≤ x.bits.toNat) = neg at h hsplit ⊢
  generalize x.bits.toNat % 2 ^ 52 = fraction at h hsplit hfraction ⊢
  generalize x.bits.toNat / 2 ^ 52 % 2048 = exponent at h hsplit ⊢
  by_cases hinf : exponent = 2047
  · by_cases hzero : fraction = 0
    · simp only [hinf, hzero, if_true, ofNum]
      apply hbits
      rw [hsplit, hinf, hzero]
      omega
    · simp [hinf, hzero] at h
  · by_cases hsmall : exponent = 0
    · simp only [hsmall, if_true, ofNum]
      apply hbits
      have hlog : Nat.log2 fraction ≤ 51 := log2_le_of_lt hfraction
      rw [hsplit, hsmall, pack, show Nat.log2 fraction - 52 = 0 by omega]
      simp
    · simp only [hinf, hsmall, if_false, ofNum]
      apply hbits
      have hlog := log2_scaled (m := 2 ^ 52 + fraction) (p := exponent - 1) (by omega) (by omega)
      rw [hsplit, pack, hlog, show 52 + (exponent - 1) - 52 = exponent - 1 by omega]
      simp only [Nat.mul_div_cancel _ (Nat.two_pow_pos _)]
      omega
theorem num_inj {x y : F64} (h : x.num = y.num) (hnan : x.num ≠ .nan) : x = y := by
  rw [← ofNum_num hnan, h, ofNum_num (h ▸ hnan)]

/-- Equal numbers are the same double, or zeros. -/
theorem eq_cases {x y : F64} (h : x.eq y = true) :
    x = y ∨ ∃ s t, x.num = .fin s 0 ∧ y.num = .fin t 0 := by
  unfold eq at h
  cases hx : x.num with
  | nan => rw [hx] at h; cases h
  | inf s =>
      cases hy : y.num with
      | nan => rw [hx, hy] at h; cases h
      | fin t b => rw [hx, hy] at h; cases h
      | inf t =>
          rw [hx, hy] at h
          have hst : s = t := of_decide_eq_true h
          exact .inl (num_inj (by rw [hx, hy, hst]) (by rw [hx]; intro hnan; cases hnan))
  | fin s a =>
      cases hy : y.num with
      | nan => rw [hx, hy] at h; cases h
      | inf t => rw [hx, hy] at h; cases h
      | fin t b =>
          rw [hx, hy] at h
          have hsigned : signed s a = signed t b := of_decide_eq_true h
          have hmag : a = b ∧ (s = t ∨ a = 0) := by
            cases s <;> cases t <;> simp [signed] at hsigned ⊢ <;> omega
          obtain ⟨rfl, rfl | rfl⟩ := hmag
          · exact .inl (num_inj (by rw [hx, hy]) (by rw [hx]; intro hnan; cases hnan))
          · exact .inr ⟨s, t, rfl, rfl⟩

theorem num_eq_symm (a b : Num) : a.eq b = b.eq a := by
  cases a with
  | nan => cases b <;> rfl
  | inf s =>
      cases b with
      | inf t => exact decide_eq_decide.mpr eq_comm
      | _ => rfl
  | fin s m =>
      cases b with
      | fin t n => exact decide_eq_decide.mpr eq_comm
      | _ => rfl

theorem eq_symm (x y : F64) : x.eq y = y.eq x := num_eq_symm x.num y.num

/-- A magnitude a double can hold is its own rounding. -/
theorem roundMag_exact {mag : Nat} (h : Representable mag) (d : Nat) (hd : 0 < d) :
    roundMag (mag * d) d = mag := by
  have hwhole : mag / 2 ^ (Nat.log2 mag - 52) * 2 ^ (Nat.log2 mag - 52) = mag :=
    Nat.div_mul_cancel h.dvd
  unfold roundMag
  simp only [Nat.mul_div_cancel _ hd]
  generalize Nat.log2 mag - 52 = shift at hwhole ⊢
  have hquotient : mag * d / (d * 2 ^ shift) = mag / 2 ^ shift := by
    rw [Nat.mul_comm mag d]
    exact Nat.mul_div_mul_left _ _ hd
  have hremainder : mag * d % (d * 2 ^ shift) = 0 := by
    rw [Nat.mul_comm mag d, Nat.mul_mod_mul_left]
    have hmod : mag % 2 ^ shift = 0 := by
      rw [← hwhole, Nat.mul_mod_left]
    rw [hmod, Nat.mul_zero]
  have hunit : 0 < d * 2 ^ shift := Nat.mul_pos hd (Nat.two_pow_pos _)
  rw [hquotient, hremainder, if_neg (by omega), hwhole]

theorem round_exact (s : Bool) {mag : Nat} (h : Representable mag) (d : Nat) (hd : 0 < d) :
    round s (mag * d) d = .fin s mag := by
  unfold round
  simp only [roundMag_exact h d hd, if_pos h.1]

theorem roundMag_representable (n d : Nat) (hd : 0 < d) (h : roundMag n d < limit) :
    Representable (roundMag n d) := by
  refine ⟨h, ?_⟩
  have hquotient := quotient_lt (n / d)
  rw [Nat.div_div_eq_div_mul] at hquotient
  unfold roundMag
  simp only
  generalize n / (d * 2 ^ (Nat.log2 (n / d) - 52)) = m at hquotient ⊢
  split
  · by_cases hcarry : m + 1 = 2 ^ 53
    · refine ⟨1, 53 + (Nat.log2 (n / d) - 52), by decide, ?_⟩
      rw [hcarry, Nat.one_mul, Nat.pow_add]
    · exact ⟨m + 1, _, by omega, rfl⟩
  · exact ⟨m, _, hquotient, rfl⟩

/-- Rounding gives a number that is read back as it is. -/
theorem num_round (s : Bool) (n d : Nat) (hd : 0 < d) :
    (ofNum (round s n d)).num = round s n d := by
  unfold round
  simp only
  split
  · rename_i hlt
    exact num_ofNum_fin s (roundMag_representable n d hd hlt)
  · exact num_ofNum_inf s

theorem representable_zero : Representable 0 := ⟨Nat.two_pow_pos _, 0, 0, by decide, by simp⟩

theorem num_ofNum_add (a b : Num) : (ofNum (a.add b)).num = a.add b := by
  cases a with
  | nan => exact num_ofNum_nan
  | inf s =>
      cases b with
      | nan => exact num_ofNum_nan
      | inf t =>
          simp only [Num.add]
          split
          · exact num_ofNum_inf s
          · exact num_ofNum_nan
      | fin t n => exact num_ofNum_inf s
  | fin s m =>
      cases b with
      | nan => exact num_ofNum_nan
      | inf t => exact num_ofNum_inf t
      | fin t n =>
          simp only [Num.add]
          split
          · exact num_ofNum_fin _ representable_zero
          · exact num_round _ _ 1 (by decide)

theorem num_sub (x y : F64) : (x.sub y).num = x.num.add y.num.neg := num_ofNum_add _ _

def Num.abs : Num → Num
  | .nan => .nan
  | .inf _ => .inf false
  | .fin _ mag => .fin false mag

theorem num_abs (x : F64) : x.abs.num = x.num.abs := by
  have hmask : (x.bits &&& BitVec.ofNat 64 (2 ^ 63 - 1)).toNat = x.bits.toNat % 2 ^ 63 := by
    rw [BitVec.toNat_and, BitVec.toNat_ofNat]
    exact Nat.and_two_pow_sub_one_eq_mod _ 63
  have hsign : decide (2 ^ 63 ≤ x.bits.toNat % 2 ^ 63) = false := by
    rw [decide_eq_false_iff_not]
    omega
  have hexponent : x.bits.toNat % 2 ^ 63 / 2 ^ 52 % 2048 = x.bits.toNat / 2 ^ 52 % 2048 := by omega
  have hfraction : x.bits.toNat % 2 ^ 63 % 2 ^ 52 = x.bits.toNat % 2 ^ 52 := by omega
  unfold abs num
  simp only [hmask, hsign, hexponent, hfraction]
  split
  · split <;> rfl
  · split <;> rfl

theorem one_pos : 0 < one := Nat.two_pow_pos _

theorem representable_whole {k : Nat} (h : k ≤ 2 ^ 53) : Representable (k * one) := by
  refine ⟨?_, ?_⟩
  · have hlimit : limit = 2 ^ 1024 * one := by
      unfold one limit
      rw [← Nat.pow_add]
    rw [hlimit]
    exact Nat.mul_lt_mul_of_pos_right
      (Nat.lt_of_le_of_lt h (Nat.pow_lt_pow_right (by decide) (by decide))) one_pos
  · by_cases hlt : k < 2 ^ 53
    · refine ⟨k, 1074, hlt, ?_⟩
      unfold one
      rfl
    · have hk : k = 2 ^ 53 := by omega
      refine ⟨1, 53 + 1074, by decide, ?_⟩
      unfold one
      rw [hk, Nat.one_mul, Nat.pow_add]

theorem representable_power {k p : Nat} (hk : k < 2 ^ 53) (hp : p ≤ 63) :
    Representable (k * 2 ^ p * one) := by
  refine ⟨?_, k, p + 1074, hk, ?_⟩
  · have hlimit : limit = 2 ^ 53 * (2 ^ 971 * one) := by
      unfold one limit
      rw [← Nat.pow_add, ← Nat.pow_add]
    have hpower : 2 ^ p * one ≤ 2 ^ 971 * one :=
      Nat.mul_le_mul_right one (Nat.pow_le_pow_right (by decide) (by omega))
    rw [hlimit, Nat.mul_assoc]
    exact Nat.lt_of_le_of_lt (Nat.mul_le_mul_left k hpower)
      (Nat.mul_lt_mul_of_pos_right hk (Nat.mul_pos (Nat.two_pow_pos _) one_pos))
  · rw [one, Nat.mul_assoc, ← Nat.pow_add]

/-- The doubles past `2^53` are whole and even. -/
theorem Representable.even {mag : Nat} (h : Representable mag) (hlarge : 2 ^ 53 * one < mag) :
    ∃ q, mag = 2 * q * one := by
  obtain ⟨_, m, p, hm, rfl⟩ := h
  have hp : 1074 + 1 ≤ p := by
    by_contra hsmall
    have hpow : 2 ^ p ≤ one := Nat.pow_le_pow_right (by decide) (by omega)
    have hle := Nat.mul_le_mul (Nat.le_of_lt hm) hpow
    omega
  obtain ⟨q, rfl⟩ := Nat.exists_eq_add_of_le hp
  refine ⟨m * 2 ^ q, ?_⟩
  unfold one
  generalize 1074 = n
  rw [Nat.pow_add, Nat.pow_succ]
  ring

theorem num_ofInt {n : Int} (h : n.natAbs ≤ 2 ^ 53) :
    (ofInt n).num = .fin (decide (n < 0)) (n.natAbs * one) := by
  unfold ofInt Num.ofInt
  split
  · rename_i hzero
    subst hzero
    rw [num_ofNum_fin false representable_zero]
    simp
  · have hround := round_exact (decide (n < 0)) (representable_whole h) 1 (by decide)
    rw [Nat.mul_one] at hround
    rw [hround]
    exact num_ofNum_fin _ (representable_whole h)

theorem signed_whole (n : Int) : signed (decide (n < 0)) (n.natAbs * one) = n * one := by
  unfold signed
  by_cases hneg : n < 0
  · have habs : (n.natAbs : Int) = -n := by omega
    simp only [hneg, decide_true, if_true, Nat.cast_mul, habs]
    ring
  · have habs : (n.natAbs : Int) = n := by omega
    simp only [hneg, decide_false, Bool.false_eq_true, if_false, Nat.cast_mul, habs]

theorem toInt_ofInt {n : Int} (h : n.natAbs ≤ 2 ^ 53) : (ofInt n).toInt = n := by
  unfold toInt
  rw [num_ofInt h]
  simp only [Num.toInt, Nat.mul_div_cancel _ one_pos]
  unfold signed
  by_cases hneg : n < 0
  · simp only [hneg, decide_true, if_true]
    omega
  · simp only [hneg, decide_false, Bool.false_eq_true, if_false]
    omega

/-- Whole numbers up to `2^53` add as whole numbers, with one rounding at the end. -/
theorem add_ofInt {a b : Int} (ha : a.natAbs ≤ 2 ^ 53) (hb : b.natAbs ≤ 2 ^ 53) :
    (ofInt a).add (ofInt b) = ofInt (a + b) := by
  have hpos : (0 : Int) < one := by exact_mod_cast one_pos
  have hsum : a * (one : Int) + b * one = (a + b) * one := by ring
  unfold add
  rw [num_ofInt ha, num_ofInt hb]
  simp only [Num.add, signed_whole, hsum]
  unfold ofInt Num.ofInt
  by_cases hzero : a + b = 0
  · rw [if_pos (by rw [hzero, Int.zero_mul]), if_pos hzero]
    congr 2
    by_cases hneg : a < 0
    · have hb' : ¬ b < 0 := by omega
      simp [hb']
    · simp [hneg]
  · have hne : (a + b) * (one : Int) ≠ 0 := Int.mul_ne_zero hzero (by omega)
    rw [if_neg hne, if_neg hzero]
    have hsign : decide ((a + b) * (one : Int) < 0) = decide (a + b < 0) := by
      congr 1
      apply propext
      constructor
      · intro h
        by_contra hge
        have hmul := Int.mul_nonneg (Int.not_lt.mp hge) (Int.le_of_lt hpos)
        omega
      · intro h
        exact Int.mul_neg_of_neg_of_pos h hpos
    rw [hsign, Int.natAbs_mul, Int.natAbs_natCast]

end F64
