import Zuri.Float.Binary32
import Zuri.Float.Exact

/-!
A single that is no NaN is widened and narrowed again to itself, and so is a half through a single.
-/

namespace F32

theorem log2_scaled {m p : Nat} (hlow : 2 ^ 23 ≤ m) (hhigh : m < 2 ^ 24) :
    Nat.log2 (m * 2 ^ p) = 23 + p := by
  have hpos : m * 2 ^ p ≠ 0 := Nat.mul_ne_zero (by omega) (Nat.two_pow_pos p).ne'
  rw [Nat.log2_eq_iff hpos, Nat.pow_add, show 23 + p + 1 = 24 + p by omega, Nat.pow_add]
  exact ⟨Nat.mul_le_mul_right _ hlow, Nat.mul_lt_mul_of_pos_right hhigh (Nat.two_pow_pos p)⟩

theorem unit_pos : 0 < unit := Nat.two_pow_pos _

/-- A magnitude whose shift divides it is its own rounding. -/
theorem roundMag_whole {k : Nat} (h : 2 ^ (Nat.log2 k - 23) ∣ k) :
    roundMag (k * unit) unit = k := by
  have hwhole : k / 2 ^ (Nat.log2 k - 23) * 2 ^ (Nat.log2 k - 23) = k := Nat.div_mul_cancel h
  unfold roundMag
  simp only [Nat.mul_div_cancel _ unit_pos]
  generalize Nat.log2 k - 23 = shift at hwhole ⊢
  have hquotient : k * unit / (unit * 2 ^ shift) = k / 2 ^ shift := by
    rw [Nat.mul_comm k]
    exact Nat.mul_div_mul_left _ _ unit_pos
  have hremainder : k * unit % (unit * 2 ^ shift) = 0 := by
    have hmod : k % 2 ^ shift = 0 := by
      rw [← hwhole, Nat.mul_mod_left]
    rw [Nat.mul_comm k, Nat.mul_mod_mul_left, hmod, Nat.mul_zero]
  have hstep : 0 < unit * 2 ^ shift := Nat.mul_pos unit_pos (Nat.two_pow_pos _)
  rw [hquotient, hremainder, if_neg (by omega), hwhole]

theorem representable_scaled {m p : Nat} (hm : m < 2 ^ 24) (hp : p ≤ 253) :
    F64.Representable (m * 2 ^ p * unit) := by
  have hmag : m * 2 ^ p * unit = m * 2 ^ (p + 925) := by
    rw [unit, Nat.mul_assoc, ← Nat.pow_add]
  rw [hmag]
  refine ⟨?_, m, p + 925, Nat.lt_trans hm (by decide), rfl⟩
  have hlimit : F64.limit = 2 ^ 920 * 2 ^ 1178 := by
    rw [← Nat.pow_add]
    rfl
  have hfactor : m < 2 ^ 920 := Nat.lt_trans hm (Nat.pow_lt_pow_right (by decide) (by decide))
  rw [hlimit]
  exact Nat.lt_of_lt_of_le (Nat.mul_lt_mul_of_pos_right hfactor (Nat.two_pow_pos _))
    (Nat.mul_le_mul_left _ (Nat.pow_le_pow_right (by decide) (by omega)))

/-- A single's magnitude is narrowed to its bits. -/
theorem ofF64_scaled (neg : Bool) {m p : Nat} (hm : m < 2 ^ 24) (hp : p ≤ 253)
    (hshift : 2 ^ (Nat.log2 (m * 2 ^ p) - 23) ∣ m * 2 ^ p) :
    ofF64 (F64.ofNum (.fin neg (m * 2 ^ p * unit))) = signBit neg + pack (m * 2 ^ p) := by
  rw [ofF64, F64.num_ofNum_fin neg (representable_scaled hm hp), ofNum, roundMag_whole hshift,
    if_pos]
  have hlimit : limit = 2 ^ 24 * 2 ^ 253 := by
    rw [← Nat.pow_add]
    rfl
  rw [hlimit]
  exact Nat.lt_of_lt_of_le (Nat.mul_lt_mul_of_pos_right hm (Nat.two_pow_pos _))
    (Nat.mul_le_mul_left _ (Nat.pow_le_pow_right (by decide) hp))

theorem ofF64_toF64 {bits : Nat} (h : bits < 2 ^ 32) (hnan : num bits ≠ .nan) :
    ofF64 (toF64 bits) = bits := by
  have hsplit : bits = signBit (decide (2 ^ 31 ≤ bits)) +
      (bits / 2 ^ 23 % 256 * 2 ^ 23 + bits % 2 ^ 23) := by
    by_cases hneg : 2 ^ 31 ≤ bits
    · simp only [hneg, decide_true, signBit, if_true]
      omega
    · simp only [hneg, decide_false, signBit, Bool.false_eq_true, if_false]
      omega
  have hfraction : bits % 2 ^ 23 < 2 ^ 23 := Nat.mod_lt _ (by decide)
  have hexponent : bits / 2 ^ 23 % 256 < 256 := Nat.mod_lt _ (by decide)
  unfold toF64
  unfold num at hnan ⊢
  simp only at hnan ⊢
  generalize decide (2 ^ 31 ≤ bits) = neg at hnan hsplit ⊢
  generalize bits % 2 ^ 23 = fraction at hnan hsplit hfraction ⊢
  generalize bits / 2 ^ 23 % 256 = exponent at hnan hsplit hexponent ⊢
  by_cases hinf : exponent = 255
  · by_cases hzero : fraction = 0
    · simp only [hinf, hzero, if_true]
      rw [ofF64, F64.num_ofNum_inf, ofNum, hsplit, hinf, hzero]
      omega
    · simp [hinf, hzero] at hnan
  by_cases hsmall : exponent = 0
  · simp only [hsmall, if_true, if_neg (show ¬(0 : Nat) = 255 by decide)]
    have hlog : Nat.log2 fraction - 23 = 0 := by
      have := F64.log2_le_of_lt (k := 22) hfraction
      omega
    have hscaled := ofF64_scaled neg (m := fraction) (p := 0) (by omega) (by decide)
      (by rw [Nat.pow_zero, Nat.mul_one, hlog]; exact one_dvd _)
    rw [Nat.pow_zero, Nat.mul_one] at hscaled
    rw [hscaled, hsplit, hsmall, pack, hlog]
    simp
  · simp only [hinf, hsmall, if_false]
    have hlog := log2_scaled (m := 2 ^ 23 + fraction) (p := exponent - 1) (by omega) (by omega)
    have hshift : Nat.log2 ((2 ^ 23 + fraction) * 2 ^ (exponent - 1)) - 23 = exponent - 1 := by
      omega
    rw [ofF64_scaled neg (by omega) (by omega) (by rw [hshift]; exact Dvd.intro_left _ rfl), pack,
      hshift, hsplit]
    simp only [Nat.mul_div_cancel _ (Nat.two_pow_pos _)]
    omega

theorem or_fields (s : Nat) {e m i j : Nat} (he : e < 2 ^ j) (hm : m < 2 ^ i) :
    s * 2 ^ (j + i) ||| e * 2 ^ i ||| m = s * 2 ^ (j + i) + e * 2 ^ i + m := by
  have hlow : e * 2 ^ i < 2 ^ (j + i) := by
    rw [Nat.pow_add]
    exact Nat.mul_lt_mul_of_pos_right he (Nat.two_pow_pos i)
  have hhigh := Nat.shiftLeft_add_eq_or_of_lt hlow s
  have hall := Nat.shiftLeft_add_eq_or_of_lt hm (s * 2 ^ j + e)
  rw [Nat.shiftLeft_eq] at hhigh hall
  rw [← hhigh, Nat.pow_add, ← Nat.mul_assoc, ← Nat.add_mul, hall]

theorem and_top (x i : Nat) : x &&& 2 ^ i = x / 2 ^ i % 2 * 2 ^ i := by
  rw [Nat.and_two_pow, Nat.testBit_eq_decide_div_mod_eq]
  rcases Nat.mod_two_eq_zero_or_one (x / 2 ^ i) with h | h
  · simp [h]
  · simp [h]

/-- The fields of a single. -/
theorem toHalf_fields {s e m : Nat} (hs : s < 2) (he : e < 256) (hm : m < 2 ^ 23) :
    (s * 2 ^ 31 + e * 2 ^ 23 + m) >>> 16 &&& 0x8000 = s * 2 ^ 15 ∧
      (s * 2 ^ 31 + e * 2 ^ 23 + m) >>> 23 &&& 0xff = e ∧
      (s * 2 ^ 31 + e * 2 ^ 23 + m) &&& 0x7fffff = m := by
  refine ⟨?_, ?_, ?_⟩
  · rw [Nat.shiftRight_eq_div_pow, show 0x8000 = 2 ^ 15 from rfl, and_top]
    omega
  · rw [Nat.shiftRight_eq_div_pow, Nat.and_two_pow_sub_one_eq_mod _ 8]
    omega
  · rw [Nat.and_two_pow_sub_one_eq_mod _ 23]
    omega

/-- The fields of a half. -/
theorem ofHalf_fields {s e m : Nat} (hs : s < 2) (he : e < 32) (hm : m < 2 ^ 10) :
    (s * 2 ^ 15 + e * 2 ^ 10 + m) &&& 0x8000 = s * 2 ^ 15 ∧
      (s * 2 ^ 15 + e * 2 ^ 10 + m) >>> 10 &&& 0x1f = e ∧
      (s * 2 ^ 15 + e * 2 ^ 10 + m) &&& 0x3ff = m := by
  refine ⟨?_, ?_, ?_⟩
  · rw [show 0x8000 = 2 ^ 15 from rfl, and_top]
    omega
  · rw [Nat.shiftRight_eq_div_pow, Nat.and_two_pow_sub_one_eq_mod _ 5]
    omega
  · rw [Nat.and_two_pow_sub_one_eq_mod _ 10]
    omega

/-- A half that is no NaN, by its fields. -/
inductive HalfFields : Nat → Prop
  | small {s m : Nat} : s < 2 → m < 2 ^ 10 → HalfFields (s * 2 ^ 15 + m)
  | normal {s e m : Nat} : s < 2 → 0 < e → e < 31 → m < 2 ^ 10 →
      HalfFields (s * 2 ^ 15 + e * 2 ^ 10 + m)
  | inf {s : Nat} : s < 2 → HalfFields (s * 2 ^ 15 + 31 * 2 ^ 10)

/-- A mantissa is shifted until its implicit bit is set. -/
theorem normalize_shifted {m k shifts : Nat} (e : Int) (hlow : 2 ^ k ≤ m) (hhigh : m < 2 ^ (k + 1))
    (hk : k ≤ 10) (hshifts : 10 - k ≤ shifts) :
    normalize shifts e m = (e + (10 - k : Nat), m * 2 ^ (10 - k)) := by
  induction shifts generalizing e m k with
  | zero =>
      rw [normalize, Nat.le_zero.mp hshifts, Nat.pow_zero, Nat.mul_one]
      simp
  | succ shifts ih =>
      rw [normalize, show 0x400 = 2 ^ 10 from rfl, and_top]
      by_cases hten : k = 10
      · subst hten
        have hset : m / 2 ^ 10 % 2 = 1 := by omega
        rw [hset, if_neg (by decide), Nat.sub_self, Nat.pow_zero, Nat.mul_one]
        simp
      · have hclear : m / 2 ^ 10 = 0 := by
          have hpow : 2 ^ (k + 1) ≤ 2 ^ 10 := Nat.pow_le_pow_right (by decide) (by omega)
          exact Nat.div_eq_of_lt (by omega)
        have hdouble : 2 ^ (k + 1) ≤ m <<< 1 ∧ m <<< 1 < 2 ^ (k + 1 + 1) := by
          rw [Nat.shiftLeft_eq, Nat.pow_succ (n := 2) (m := k + 1)]
          rw [Nat.pow_succ] at hhigh ⊢
          omega
        have hnext := ih (e + 1) hdouble.1 hdouble.2 (by omega) (by omega)
        rw [hclear, if_pos (by decide), hnext, Nat.shiftLeft_eq, Nat.mul_assoc, ← Nat.pow_add,
          show 1 + (10 - (k + 1)) = 10 - k by omega]
        congr 1
        omega

/-- Where a subnormal half lies in a single, and how it is brought back. -/
theorem normalize_small {m : Nat} (hm : m < 2 ^ 10) (hne : m ≠ 0) :
    (127 - 15 - (normalize 10 (-1) m).1).toNat < 113 ∧
      24 ≥ 14 - (((127 - 15 - (normalize 10 (-1) m).1).toNat : Int) - 127 + 15) ∧
      ((((normalize 10 (-1) m).2 &&& 0x3ff) * 2 ^ 13 ||| 0x800000) >>>
        (14 - (((127 - 15 - (normalize 10 (-1) m).1).toNat : Int) - 127 + 15)).toNat) %
          2 ^ 16 = m := by
  obtain ⟨hlow, hhigh⟩ := (Nat.log2_eq_iff hne).mp (rfl : Nat.log2 m = Nat.log2 m)
  have hk : Nat.log2 m < 10 := (Nat.log2_lt hne).mpr hm
  generalize Nat.log2 m = k at hlow hhigh hk
  have hscaled : 2 ^ k * 2 ^ (10 - k) = 2 ^ 10 := by
    rw [← Nat.pow_add, show k + (10 - k) = 10 by omega]
  have hge : 2 ^ 10 ≤ m * 2 ^ (10 - k) := by
    rw [← hscaled]
    exact Nat.mul_le_mul_right _ hlow
  have hlt : m * 2 ^ (10 - k) < 2 ^ 11 := by
    have hmore : m * 2 ^ (10 - k) < 2 ^ (k + 1) * 2 ^ (10 - k) :=
      Nat.mul_lt_mul_of_pos_right hhigh (Nat.two_pow_pos _)
    rw [Nat.pow_succ, Nat.mul_right_comm, hscaled] at hmore
    omega
  rw [normalize_shifted (-1) hlow hhigh (by omega) (by omega), Nat.and_two_pow_sub_one_eq_mod _ 10]
  have hexponent : (127 - 15 - ((-1 : Int) + (10 - k : Nat))).toNat = 103 + k := by omega
  have hshift : (14 - (((103 + k : Nat) : Int) - 127 + 15)).toNat = 23 - k := by omega
  simp only [hexponent, hshift]
  refine ⟨by omega, by omega, ?_⟩
  have hor := Nat.shiftLeft_add_eq_or_of_lt
    (show m * 2 ^ (10 - k) % 2 ^ 10 * 2 ^ 13 < 2 ^ 23 by omega) 1
  rw [Nat.shiftLeft_eq, Nat.one_mul, Nat.or_comm] at hor
  have hwhole : 2 ^ 23 + m * 2 ^ (10 - k) % 2 ^ 10 * 2 ^ 13 = m * 2 ^ (23 - k) := by
    rw [show 23 - k = 10 - k + 13 by omega, Nat.pow_add, ← Nat.mul_assoc]
    omega
  rw [show 0x800000 = 2 ^ 23 from rfl, ← hor, hwhole, Nat.shiftRight_eq_div_pow,
    Nat.mul_div_cancel _ (Nat.two_pow_pos _)]
  omega

theorem ofHalf_normal {s e m : Nat} (hs : s < 2) (hpos : 0 < e) (he : e < 31) (hm : m < 2 ^ 10) :
    ofHalf (s * 2 ^ 15 + e * 2 ^ 10 + m) = s * 2 ^ 31 + (e + 112) * 2 ^ 23 + m * 2 ^ 13 := by
  obtain ⟨hsign, hexp, hmantissa⟩ := ofHalf_fields hs (show e < 32 by omega) hm
  unfold ofHalf
  simp only [hsign, hexp, hmantissa, Nat.shiftLeft_eq]
  rw [if_neg (by omega), if_neg (by omega), show s * 2 ^ 15 * 2 ^ 16 = s * 2 ^ (8 + 23) by omega,
    or_fields s (i := 23) (j := 8) (by omega) (by omega)]

theorem toHalf_normal {s e m : Nat} (hs : s < 2) (hpos : 0 < e) (he : e < 31) (hm : m < 2 ^ 10) :
    toHalf (s * 2 ^ 31 + (e + 112) * 2 ^ 23 + m * 2 ^ 13) = s * 2 ^ 15 + e * 2 ^ 10 + m := by
  obtain ⟨hsign, hexp, hmantissa⟩ :=
    toHalf_fields hs (show e + 112 < 256 by omega) (show m * 2 ^ 13 < 2 ^ 23 by omega)
  have hhalf : ((e + 112 : Nat) : Int) - 127 + 15 = e := by omega
  unfold toHalf
  simp only [hsign, hexp, hmantissa, hhalf]
  simp only [Nat.shiftLeft_eq, Nat.shiftRight_eq_div_pow, Int.toNat_natCast,
    Nat.mul_div_cancel _ (Nat.two_pow_pos 13)]
  rw [if_neg (by omega), if_neg (by omega), if_neg (by omega),
    or_fields s (i := 10) (j := 5) (by omega) hm]

theorem ofHalf_small {s m : Nat} (hs : s < 2) (hm : m < 2 ^ 10) (hne : m ≠ 0) :
    ofHalf (s * 2 ^ 15 + m) = s * 2 ^ 31 + (127 - 15 - (normalize 10 (-1) m).1).toNat * 2 ^ 23 +
      ((normalize 10 (-1) m).2 &&& 0x3ff) * 2 ^ 13 := by
  obtain ⟨hsign, hexp, hmantissa⟩ := ofHalf_fields hs (show 0 < 32 by decide) hm
  rw [Nat.zero_mul, Nat.add_zero] at hsign hexp hmantissa
  have hlow : (normalize 10 (-1) m).2 &&& 0x3ff < 2 ^ 10 := by
    rw [Nat.and_two_pow_sub_one_eq_mod _ 10]
    exact Nat.mod_lt _ (by decide)
  have hexponent := (normalize_small hm hne).1
  unfold ofHalf
  simp only [hsign, hexp, hmantissa, Nat.shiftLeft_eq]
  rw [if_pos trivial, if_neg hne, show s * 2 ^ 15 * 2 ^ 16 = s * 2 ^ (8 + 23) by omega,
    or_fields s (i := 23) (j := 8) (by omega) (by omega)]

theorem toHalf_small {s m : Nat} (hs : s < 2) (hm : m < 2 ^ 10) (hne : m ≠ 0) :
    toHalf (s * 2 ^ 31 + (127 - 15 - (normalize 10 (-1) m).1).toNat * 2 ^ 23 +
      ((normalize 10 (-1) m).2 &&& 0x3ff) * 2 ^ 13) = s * 2 ^ 15 + m := by
  have hlow : (normalize 10 (-1) m).2 &&& 0x3ff < 2 ^ 10 := by
    rw [Nat.and_two_pow_sub_one_eq_mod _ 10]
    exact Nat.mod_lt _ (by decide)
  obtain ⟨hexponent, hshift, hback⟩ := normalize_small hm hne
  obtain ⟨hsign, hexp, hmantissa⟩ := toHalf_fields hs
    (show (127 - 15 - (normalize 10 (-1) m).1).toNat < 256 by omega)
    (show ((normalize 10 (-1) m).2 &&& 0x3ff) * 2 ^ 13 < 2 ^ 23 by omega)
  unfold toHalf
  simp only [hsign, hexp, hmantissa]
  rw [if_neg (by omega), if_neg (by omega), if_pos (by omega), if_neg (by omega), hback]
  have hor := Nat.shiftLeft_add_eq_or_of_lt (show m < 2 ^ 15 by omega) s
  rw [Nat.shiftLeft_eq] at hor
  exact hor.symm

theorem halfFields {h : Nat} (hlt : h < 2 ^ 16)
    (hnan : h / 2 ^ 10 % 32 = 31 → h % 2 ^ 10 = 0) : HalfFields h := by
  have hsplit : h = h / 2 ^ 15 * 2 ^ 15 + h / 2 ^ 10 % 32 * 2 ^ 10 + h % 2 ^ 10 := by omega
  by_cases hzero : h / 2 ^ 10 % 32 = 0
  · have hsmall := HalfFields.small (s := h / 2 ^ 15) (m := h % 2 ^ 10) (by omega) (by omega)
    rwa [show h / 2 ^ 15 * 2 ^ 15 + h % 2 ^ 10 = h by omega] at hsmall
  by_cases hinf : h / 2 ^ 10 % 32 = 31
  · have hlast := HalfFields.inf (s := h / 2 ^ 15) (by omega)
    have hmantissa := hnan hinf
    rwa [show h / 2 ^ 15 * 2 ^ 15 + 31 * 2 ^ 10 = h by omega] at hlast
  · have hnormal := HalfFields.normal (s := h / 2 ^ 15) (e := h / 2 ^ 10 % 32) (m := h % 2 ^ 10)
      (by omega) (by omega) (by omega) (by omega)
    rwa [← hsplit] at hnormal

/-- A single that is no NaN by the fields it has. -/
theorem num_fields {s e m : Nat} (he : e < 255) (hm : m < 2 ^ 23) :
    num (s * 2 ^ 31 + e * 2 ^ 23 + m) ≠ .nan := by
  have hexponent : (s * 2 ^ 31 + e * 2 ^ 23 + m) / 2 ^ 23 % 256 = e := by omega
  unfold num
  simp only [hexponent]
  rw [if_neg (by omega)]
  split
  · exact nofun
  · exact nofun

/-- A half goes through a single that is no NaN, and comes back. -/
theorem half_single {h : Nat} (hfields : HalfFields h) :
    toHalf (ofHalf h) = h ∧ ofHalf h < 2 ^ 32 ∧ num (ofHalf h) ≠ .nan := by
  cases hfields with
  | @small s m hs hm =>
      by_cases hzero : m = 0
      · subst hzero
        have hall : ∀ s < 2, toHalf (ofHalf (s * 2 ^ 15 + 0)) = s * 2 ^ 15 + 0 ∧
            ofHalf (s * 2 ^ 15 + 0) < 2 ^ 32 ∧ num (ofHalf (s * 2 ^ 15 + 0)) ≠ .nan := by
          decide
        exact hall s hs
      · have hlow : (normalize 10 (-1) m).2 &&& 0x3ff < 2 ^ 10 := by
          rw [Nat.and_two_pow_sub_one_eq_mod _ 10]
          exact Nat.mod_lt _ (by decide)
        have hexponent := (normalize_small hm hzero).1
        rw [ofHalf_small hs hm hzero, toHalf_small hs hm hzero]
        exact ⟨rfl, by omega, num_fields (by omega) (by omega)⟩
  | @normal s e m hs hpos he hm =>
      rw [ofHalf_normal hs hpos he hm, toHalf_normal hs hpos he hm]
      exact ⟨rfl, by omega, num_fields (by omega) (by omega)⟩
  | @inf s hs =>
      have hall : ∀ s < 2, toHalf (ofHalf (s * 2 ^ 15 + 31 * 2 ^ 10)) = s * 2 ^ 15 + 31 * 2 ^ 10 ∧
          ofHalf (s * 2 ^ 15 + 31 * 2 ^ 10) < 2 ^ 32 ∧
            num (ofHalf (s * 2 ^ 15 + 31 * 2 ^ 10)) ≠ .nan := by
        decide
      exact hall s hs

theorem toHalf_toF64 {h : Nat} (hfields : HalfFields h) :
    toHalf (ofF64 (toF64 (ofHalf h))) = h := by
  obtain ⟨hback, hlt, hnan⟩ := half_single hfields
  rw [ofF64_toF64 hlt hnan, hback]

theorem ofHalf_last {s m : Nat} (hs : s < 2) (hm : m < 2 ^ 10) :
    ofHalf (s * 2 ^ 15 + 31 * 2 ^ 10 + m) = s * 2 ^ 31 + 255 * 2 ^ 23 + m * 2 ^ 13 := by
  obtain ⟨hsign, hexp, hmantissa⟩ := ofHalf_fields hs (show 31 < 32 by decide) hm
  have hwide : m * 2 ^ 13 < 2 ^ 23 := by omega
  have hor := or_fields s (e := 255) (i := 23) (j := 8) (by decide) hwide
  unfold ofHalf
  simp only [hsign, hexp, hmantissa, Nat.shiftLeft_eq]
  rw [if_neg (by decide), if_pos trivial, Nat.mul_assoc, ← Nat.pow_add]
  exact hor

theorem num_last (s : Nat) {m : Nat} (hm : m < 2 ^ 10) (hne : m ≠ 0) :
    num (s * 2 ^ 31 + 255 * 2 ^ 23 + m * 2 ^ 13) = .nan := by
  have hexponent : (s * 2 ^ 31 + 255 * 2 ^ 23 + m * 2 ^ 13) / 2 ^ 23 % 256 = 255 := by omega
  have hfraction : (s * 2 ^ 31 + 255 * 2 ^ 23 + m * 2 ^ 13) % 2 ^ 23 ≠ 0 := by omega
  unfold num
  simp only
  rw [if_pos hexponent, if_neg hfraction]

theorem num_ofHalf_nan {h : Nat} (hlt : h < 2 ^ 16) (hlast : h / 2 ^ 10 % 32 = 31)
    (hne : h % 2 ^ 10 ≠ 0) : num (ofHalf h) = .nan := by
  have hm : h % 2 ^ 10 < 2 ^ 10 := Nat.mod_lt _ (by decide)
  have hsplit : h = h / 2 ^ 15 * 2 ^ 15 + 31 * 2 ^ 10 + h % 2 ^ 10 := by omega
  rw [hsplit, ofHalf_last (by omega) hm]
  exact num_last _ hm hne

end F32
