import Zuri.Float.Nearest

/-!
Doubles that are whole multiples of one power of two, of at most `2^53` of it: they compare, add
and subtract as whole numbers do, be they fractions or past `2^53`.
-/

namespace F64

/-- The double nearest to `n` times a power of two, which is the smallest double doubled `p`
times. -/
def ofGrains (p : Nat) (n : Int) : F64 :=
  ofNum (if n = 0 then .fin false 0 else round (decide (n < 0)) (n.natAbs * 2 ^ p) 1)

theorem ofGrains_one (n : Int) : ofGrains 1074 n = ofInt n := by
  unfold ofGrains ofInt Num.ofInt one
  rfl

theorem representable_grains {p k : Nat} (hp : p ≤ 2044) (hk : k ≤ 2 ^ 53) :
    Representable (k * 2 ^ p) := by
  have hlimit : 2 ^ 53 * 2 ^ p < limit := by
    unfold limit
    rw [← Nat.pow_add]
    exact Nat.pow_lt_pow_right (by decide) (by omega)
  refine ⟨Nat.lt_of_le_of_lt (Nat.mul_le_mul_right _ hk) hlimit, ?_⟩
  by_cases hlt : k < 2 ^ 53
  · exact ⟨k, p, hlt, rfl⟩
  · obtain rfl : k = 2 ^ 53 := by omega
    exact ⟨1, 53 + p, by decide, by rw [Nat.one_mul, Nat.pow_add]⟩

theorem signed_grains (n : Int) (p : Nat) :
    signed (decide (n < 0)) (n.natAbs * 2 ^ p) = n * (2 ^ p : Nat) := by
  unfold signed
  by_cases hneg : n < 0
  · have habs : (n.natAbs : Int) = -n := by omega
    simp only [hneg, decide_true, if_true, Nat.cast_mul, habs]
    ring
  · have habs : (n.natAbs : Int) = n := by omega
    simp only [hneg, decide_false, Bool.false_eq_true, if_false, Nat.cast_mul, habs]

theorem grain_pos (p : Nat) : (0 : Int) < (2 ^ p : Nat) := by exact_mod_cast Nat.two_pow_pos p

section

variable {p : Nat} (hp : p ≤ 2044)
include hp

theorem num_ofGrains {n : Int} (h : n.natAbs ≤ 2 ^ 53) :
    (ofGrains p n).num = .fin (decide (n < 0)) (n.natAbs * 2 ^ p) := by
  unfold ofGrains
  split
  · next hzero =>
      subst hzero
      rw [num_ofNum_fin false representable_zero]
      simp
  · have hround := round_exact (decide (n < 0)) (representable_grains hp h) 1 (by decide)
    rw [Nat.mul_one] at hround
    rw [hround]
    exact num_ofNum_fin _ (representable_grains hp h)

theorem num_ofGrains_nat {n : Nat} (h : n ≤ 2 ^ 53) :
    (ofGrains p n).num = .fin false (n * 2 ^ p) := by
  have hneg : decide ((n : Int) < 0) = false := decide_eq_false (by omega)
  rw [num_ofGrains hp (by rwa [Int.natAbs_natCast]), hneg, Int.natAbs_natCast]

section Whole

variable {a b : Int} (ha : a.natAbs ≤ 2 ^ 53) (hb : b.natAbs ≤ 2 ^ 53)
include ha hb

theorem lt_ofGrains : (ofGrains p a).lt (ofGrains p b) = decide (a < b) := by
  unfold lt
  rw [num_ofGrains hp ha, num_ofGrains hp hb]
  simp only [Num.lt, signed_grains]
  exact decide_eq_decide.mpr (Int.mul_lt_mul_right (grain_pos p))

theorem le_ofGrains : (ofGrains p a).le (ofGrains p b) = decide (a ≤ b) := by
  have heq : (ofGrains p a).eq (ofGrains p b) = decide (a = b) := by
    unfold eq
    rw [num_ofGrains hp ha, num_ofGrains hp hb]
    simp only [Num.eq, signed_grains]
    exact decide_eq_decide.mpr (Int.mul_eq_mul_right_iff (grain_pos p).ne')
  unfold le
  rw [lt_ofGrains hp ha hb, heq, ← Bool.decide_or]
  exact decide_eq_decide.mpr (by omega)

/-- They add with one rounding at the end. -/
theorem add_ofGrains : (ofGrains p a).add (ofGrains p b) = ofGrains p (a + b) := by
  have hpos := grain_pos p
  have hsum : a * ((2 ^ p : Nat) : Int) + b * (2 ^ p : Nat) = (a + b) * (2 ^ p : Nat) := by ring
  unfold add
  rw [num_ofGrains hp ha, num_ofGrains hp hb]
  simp only [Num.add, signed_grains, hsum]
  unfold ofGrains
  generalize 2 ^ p = g at hpos
  by_cases hzero : a + b = 0
  · rw [if_pos (by rw [hzero, Int.zero_mul]), if_pos hzero]
    congr 2
    by_cases hneg : a < 0
    · have hb' : ¬ b < 0 := by omega
      simp [hb']
    · simp [hneg]
  · have hne : (a + b) * (g : Int) ≠ 0 := Int.mul_ne_zero hzero (by omega)
    rw [if_neg hne, if_neg hzero]
    have hsign : decide ((a + b) * (g : Int) < 0) = decide (a + b < 0) := by
      refine decide_eq_decide.mpr ⟨fun h => ?_, fun h => Int.mul_neg_of_neg_of_pos h hpos⟩
      by_contra hge
      have hmul := Int.mul_nonneg (Int.not_lt.mp hge) (Int.le_of_lt hpos)
      omega
    rw [hsign, Int.natAbs_mul, Int.natAbs_natCast]

theorem sub_ofGrains : (ofGrains p a).sub (ofGrains p b) = ofGrains p (a - b) := by
  by_cases hzero : b = 0
  · subst hzero
    have hadd := add_ofGrains hp ha (by decide : (0 : Int).natAbs ≤ 2 ^ 53)
    rw [Int.add_zero] at hadd
    rw [Int.sub_zero]
    refine Eq.trans ?_ hadd
    unfold sub add
    congr 1
    rw [num_ofGrains hp ha, num_ofGrains hp (by decide : (0 : Int).natAbs ≤ 2 ^ 53)]
    simp only [Num.neg, Num.add, Int.natAbs_zero, Nat.zero_mul, lt_self_iff_false, decide_false,
      Bool.not_false]
    have hnone : ∀ c : Bool, signed c 0 = 0 := by
      intro c
      cases c <;> rfl
    simp only [hnone, Int.add_zero, signed_grains]
    refine ite_congr rfl (fun hsum => ?_) (fun _ => rfl)
    rcases Int.mul_eq_zero.mp hsum with hnil | hgrain
    · subst hnil
      rfl
    · exact absurd hgrain (grain_pos p).ne'
  · have hsign : decide (-b < 0) = !decide (b < 0) := by
      rw [← decide_not]
      exact decide_eq_decide.mpr (by omega)
    rw [Int.sub_eq_add_neg, ← add_ofGrains hp ha (by omega : (-b).natAbs ≤ 2 ^ 53)]
    unfold sub add
    congr 1
    rw [num_ofGrains hp hb, num_ofGrains hp (by omega : (-b).natAbs ≤ 2 ^ 53)]
    simp only [Num.neg, Int.natAbs_neg, hsign]

omit hb in
theorem abs_ofGrains : (ofGrains p a).abs = ofGrains p a.natAbs := by
  apply num_inj
  · rw [num_abs, num_ofGrains hp ha, num_ofGrains_nat hp ha]
    rfl
  · rw [num_abs, num_ofGrains hp ha]
    exact nofun

omit ha hb in
/-- A number that is rounded does not come below a bound it has reached. -/
theorem num_past {n : Int} (h : 2 ^ 53 < n.natAbs) :
    (ofGrains p n).num = .inf (decide (n < 0)) ∨
      ∃ mag, 2 ^ 53 * 2 ^ p ≤ mag ∧ (ofGrains p n).num = .fin (decide (n < 0)) mag := by
  have hmono := roundMag_mono (Nat.mul_le_mul_right (2 ^ p) (Nat.le_of_lt h))
  have hexact := roundMag_exact (representable_grains hp (Nat.le_refl (2 ^ 53))) 1 (by decide)
  rw [Nat.mul_one] at hexact
  rw [hexact] at hmono
  unfold ofGrains
  rw [if_neg (by omega), num_round _ _ _ (by decide)]
  unfold round
  simp only
  split
  · exact .inr ⟨_, hmono, rfl⟩
  · exact .inl rfl

end Whole

theorem not_lt_of_le {n u : Int} (hu : u.natAbs ≤ 2 ^ 53) (h : u ≤ n) :
    (ofGrains p n).lt (ofGrains p u) = false := by
  by_cases hn : n.natAbs ≤ 2 ^ 53
  · rw [lt_ofGrains hp hn hu]
    exact decide_eq_false (by omega)
  · have hneg : decide (n < 0) = false := decide_eq_false (by omega)
    have hbound : u * ((2 ^ p : Nat) : Int) ≤ 2 ^ 53 * (2 ^ p : Nat) :=
      Int.mul_le_mul_of_nonneg_right (by omega) (Int.le_of_lt (grain_pos p))
    unfold lt
    rw [num_ofGrains hp hu]
    rcases num_past hp (Nat.lt_of_not_le hn) with hinf | ⟨mag, hmag, hfin⟩
    · rw [hinf, hneg]
      rfl
    · rw [hfin, hneg]
      simp only [Num.lt, signed_grains]
      refine decide_eq_false fun hlt => ?_
      have hcast : (2 ^ 53 * (2 ^ p : Nat) : Int) ≤ mag := by exact_mod_cast hmag
      simp only [signed, Bool.false_eq_true, if_false] at hlt
      omega

theorem not_lt_of_ge {n u : Int} (hu : u.natAbs ≤ 2 ^ 53) (h : n ≤ u) :
    (ofGrains p u).lt (ofGrains p n) = false := by
  by_cases hn : n.natAbs ≤ 2 ^ 53
  · rw [lt_ofGrains hp hu hn]
    exact decide_eq_false (by omega)
  · have hneg : decide (n < 0) = true := decide_eq_true (by omega)
    have hbound : -(2 ^ 53 * ((2 ^ p : Nat) : Int)) ≤ u * (2 ^ p : Nat) := by
      rw [← Int.neg_mul]
      exact Int.mul_le_mul_of_nonneg_right (by omega) (Int.le_of_lt (grain_pos p))
    unfold lt
    rw [num_ofGrains hp hu]
    rcases num_past hp (Nat.lt_of_not_le hn) with hinf | ⟨mag, hmag, hfin⟩
    · rw [hinf, hneg]
      rfl
    · rw [hfin, hneg]
      simp only [Num.lt, signed_grains]
      refine decide_eq_false fun hlt => ?_
      have hcast : (2 ^ 53 * (2 ^ p : Nat) : Int) ≤ mag := by exact_mod_cast hmag
      simp only [signed, if_true] at hlt
      omega

/-- A whole number of times so many grains. -/
theorem mul_ofGrains {a b : Nat} (ha : a ≤ 2 ^ 53) (hb : b ≤ 2 ^ 53) (hab : a * b ≤ 2 ^ 53) :
    (ofInt a).mul (ofGrains p b) = ofGrains p (a * b : Nat) := by
  have hproduct : a * one * (b * 2 ^ p) = a * b * 2 ^ p * one := by ring
  have hround : round false (a * b * 2 ^ p * one) one = .fin false (a * b * 2 ^ p) :=
    round_exact false (representable_grains hp hab) one one_pos
  have hmul : (ofInt a).mul (ofGrains p b) = ofNum (.fin false (a * b * 2 ^ p)) := by
    unfold mul
    rw [num_ofNat ha, num_ofGrains_nat hp hb]
    simp only [Num.mul, bne_self_eq_false, hproduct, hround]
  apply num_inj
  · rw [hmul, num_ofNum_fin false (representable_grains hp hab), num_ofGrains_nat hp hab]
  · rw [hmul, num_ofNum_fin false (representable_grains hp hab)]
    intro hnan
    cases hnan

omit hp in
/-- What is common to both sides of a quotient does not matter to its rounding. -/
theorem roundMag_scale (n d : Nat) {c : Nat} (hc : 0 < c) :
    roundMag (n * c) (d * c) = roundMag n d := by
  unfold roundMag
  simp only [Nat.mul_div_mul_right _ _ hc]
  generalize 2 ^ (Nat.log2 (n / d) - 52) = unit
  have hunit : d * c * unit = d * unit * c := by ring
  have hless : d * unit * c < 2 * (n % (d * unit) * c) ↔ d * unit < 2 * (n % (d * unit)) := by
    rw [← Nat.mul_assoc]
    exact Nat.mul_lt_mul_right hc
  have hsame : d * unit * c = 2 * (n % (d * unit) * c) ↔ d * unit = 2 * (n % (d * unit)) := by
    rw [← Nat.mul_assoc]
    exact Nat.mul_left_inj hc.ne'
  simp only [hunit, Nat.mul_div_mul_right _ _ hc, Nat.mul_mod_mul_right, hless, hsame]

theorem div_ofGrains {w s : Nat} (hw : w ≤ 2 ^ 53) (hs : 0 < s) (hsle : s ≤ 2 ^ 53) :
    (ofGrains p w).div (ofGrains p s) = (ofInt w).div (ofInt s) := by
  have hgrain := Nat.two_pow_pos p
  have hleft : w * 2 ^ p * one = w * one * 2 ^ p := by ring
  unfold div
  rw [num_ofGrains_nat hp hw, num_ofGrains_nat hp hsle, num_ofNat hw, num_ofNat hsle]
  simp only [Num.div, if_neg (Nat.mul_ne_zero hs.ne' hgrain.ne'),
    if_neg (Nat.mul_ne_zero hs.ne' one_pos.ne')]
  unfold round
  rw [hleft, roundMag_scale _ _ hgrain, roundMag_scale _ _ one_pos]

end

end F64
