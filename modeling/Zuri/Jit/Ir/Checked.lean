import Zuri.Float.Integral
import Zuri.Jit.Ir.Semantics

/-!
Checked integer arithmetic as it is lowered. A whole number comes out of a double by a guard,
a constant or a list whose elements have been checked, and arithmetic on such numbers is done
on sixty-four bits, with the result in `-2^53..2^53` or compiled code left. The test for
overflow is left out of a sum or difference with an operand known to be small.

Each integer stands for a double that is a whole number, and is that number but for `2^63`,
which it is one short of. Arithmetic that passes its guard is exact but there, or where a zero
has lost its sign.
-/

namespace Zuri.Jit.Ir

/-- A double as an integer, and whether the conversion was exact. -/
def f64ToInt (f : F64) : BitVec 64 × Bool :=
  let i := f64ToI64 f
  (i, (F64.ofInt i.toInt).eq f)

def guardInt (f : F64) : Option (BitVec 64) :=
  let (i, exact) := f64ToInt f
  if exact then some i else none

def guardWhole (f : F64) : Option (BitVec 64) :=
  let (i, exact) := f64ToInt f
  if exact && !(f.bits == BitVec.intMin 64) then some i else none

/-- A constant operand integer arithmetic can take as it is. -/
def wholeImm (c : F64) : Option (BitVec 64) :=
  let usable := (c.sub c.trunc).eq .zero && c.abs.lt (.ofInt 9007199254740992) &&
    !(c.eq .zero && decide (2 ^ 63 ≤ c.bits.toNat))
  if usable then some (f64ToI64 c) else none

/-- The operation on two integers, and what the overflow test says where it is made. -/
def IntOp.wrapping (oneSmall : Bool) (x y : BitVec 64) : IntOp → BitVec 64 × Bool
  | add => (x + y, !oneSmall && x.saddOverflow y)
  | sub => (x - y, !oneSmall && x.ssubOverflow y)
  | mul => (x * y, x.smulOverflow y)

/-- The operation as a guard: none when compiled code is left. -/
def IntOp.lowered (oneSmall : Bool) (x y : BitVec 64) (op : IntOp) : Option (BitVec 64) :=
  let (r, overflow) := op.wrapping oneSmall x y
  let inRange := (r.sshiftRight 53 + 1).ult 2
  let minusZero := op == .mul && (x ||| y).slt 0 && r == 0
  if inRange && !overflow && !minusZero then some r else none

/-- The operation the interpreter does. -/
def IntOp.onF64 (x y : F64) : IntOp → F64
  | add => x.add y
  | sub => x.sub y
  | mul => x.mul y

/-- Where an operand comes from, with the double it stands for. -/
inductive Operand
  | whole (f : F64)
  | int (f : F64)
  /-- An element of a list whose elements were checked before the loop. -/
  | elem (f : F64)
  | const (f : F64)
  /-- Earlier arithmetic; `known` says that the operands that are small were known to be. -/
  | arith (op : IntOp) (known : Bool) (x y : Operand)

namespace Operand

/-- Within `2^53` of zero by what defines it. -/
def small : Operand → Bool
  | const _ | arith _ _ _ _ => true
  | _ => false

/-- The integer compiled code has; none when it has been left before. -/
def int? : Operand → Option (BitVec 64)
  | whole f => guardWhole f
  | int f => guardInt f
  | elem f => if wholeInI64 f then some (f64ToI64 f) else none
  | const f => wholeImm f
  | arith op known x y =>
      x.int?.bind fun i => y.int?.bind fun j => op.lowered (known && (x.small || y.small)) i j

/-- The double the interpreter has. -/
def num : Operand → F64
  | whole f | int f | elem f | const f => f
  | arith op _ x y => op.onF64 x.num y.num

end Operand

section Exact

variable {x y r : BitVec 64}

theorem toInt_bounds (x : BitVec 64) : -2 ^ 63 ≤ x.toInt ∧ x.toInt < 2 ^ 63 :=
  ⟨x.le_toInt, x.toInt_lt⟩

/-- The bits above the 53rd are all ones or all zeros within `-2^53..2^53`. -/
theorem inRange_iff (r : BitVec 64) :
    (r.sshiftRight 53 + 1).ult 2 = true ↔ -2 ^ 53 ≤ r.toInt ∧ r.toInt < 2 ^ 53 := by
  have hshift : (r.sshiftRight 53).toInt = r.toInt / 2 ^ 53 := by
    rw [BitVec.toInt_sshiftRight, Int.shiftRight_eq_div_pow]
    rfl
  have hq := toInt_bounds (r.sshiftRight 53)
  generalize r.sshiftRight 53 = q at hshift hq ⊢
  have hcond : q.toInt = if 2 * q.toNat < 2 ^ 64 then (q.toNat : Int) else q.toNat - 2 ^ 64 :=
    BitVec.toInt_eq_toNat_cond q
  rw [BitVec.ult_eq_decide, decide_eq_true_iff, BitVec.toNat_add]
  have hlt := q.isLt
  change (q.toNat + 1) % 2 ^ 64 < 2 ↔ _
  omega

theorem toInt_wrap {v : Int} (hlow : -2 ^ 63 ≤ v) (hhigh : v < 2 ^ 63) :
    (BitVec.ofInt 64 v).toInt = v := by
  rw [BitVec.toInt_ofInt, Int.bmod_def]
  omega

theorem signs_negative (x y : BitVec 64) :
    (x ||| y).slt 0 = true ↔ x.toInt < 0 ∨ y.toInt < 0 := by
  rw [show (0 : BitVec 64) = 0#64 from rfl, BitVec.slt_zero_iff_msb_cond, BitVec.msb_or,
    Bool.or_eq_true, BitVec.msb_eq_toInt, BitVec.msb_eq_toInt, decide_eq_true_iff,
    decide_eq_true_iff]

/-- Two's complement arithmetic is exact modulo `2^64`. -/
theorem wrapping_eq (small : Bool) (x y : BitVec 64) (op : IntOp) :
    (op.wrapping small x y).1 = BitVec.ofInt 64 (op.exact x.toInt y.toInt) := by
  cases op with
  | add =>
      apply BitVec.eq_of_toInt_eq
      rw [IntOp.exact, BitVec.toInt_ofInt, IntOp.wrapping, BitVec.toInt_add]
  | sub =>
      apply BitVec.eq_of_toInt_eq
      rw [IntOp.exact, BitVec.toInt_ofInt, IntOp.wrapping, BitVec.toInt_sub]
  | mul =>
      apply BitVec.eq_of_toInt_eq
      rw [IntOp.exact, BitVec.toInt_ofInt, IntOp.wrapping, BitVec.toInt_mul]

/-- Where overflow is tested, the test says whether the exact result fits. -/
theorem overflow_iff (small : Bool) (x y : BitVec 64) (op : IntOp)
    (htested : small = false ∨ op = .mul) :
    (op.wrapping small x y).2 = true ↔
      2 ^ 63 ≤ op.exact x.toInt y.toInt ∨ op.exact x.toInt y.toInt < -2 ^ 63 := by
  cases op with
  | add =>
      obtain rfl | h := htested
      · simp [IntOp.wrapping, BitVec.saddOverflow, IntOp.exact]
      · cases h
  | sub =>
      obtain rfl | h := htested
      · simp [IntOp.wrapping, BitVec.ssubOverflow, IntOp.exact]
      · cases h
  | mul => simp [IntOp.wrapping, BitVec.smulOverflow, IntOp.exact]

def Near (x : BitVec 64) : Prop := -2 ^ 53 ≤ x.toInt ∧ x.toInt ≤ 2 ^ 53

/-- A sum or difference that wraps although an operand is small lands far from zero. -/
theorem wraps_far {small : Bool} {op : IntOp} (hop : op ≠ .mul) (hsmall : Near x ∨ Near y)
    (hout : 2 ^ 63 ≤ op.exact x.toInt y.toInt ∨ op.exact x.toInt y.toInt < -2 ^ 63) :
    ¬(-2 ^ 53 ≤ (op.wrapping small x y).1.toInt ∧ (op.wrapping small x y).1.toInt < 2 ^ 53) := by
  have hx := toInt_bounds x
  have hy := toInt_bounds y
  rw [wrapping_eq, BitVec.toInt_ofInt, Int.bmod_def]
  unfold Near at hsmall
  cases op with
  | add =>
      simp only [IntOp.exact] at hout ⊢
      omega
  | sub =>
      simp only [IntOp.exact] at hout ⊢
      omega
  | mul => exact absurd rfl hop

/-- The test that was left out is one that the range check makes good. -/
theorem lowered_eq_checked {small : Bool} (op : IntOp)
    (hsmall : small = true → Near x ∨ Near y) : op.lowered small x y = op.checked x y := by
  have hpasses : ((op.wrapping small x y).1.sshiftRight 53 + 1).ult 2 = true ∧
      (op.wrapping small x y).2 = false ↔
      -2 ^ 53 ≤ op.exact x.toInt y.toInt ∧ op.exact x.toInt y.toInt < 2 ^ 53 := by
    rw [inRange_iff]
    by_cases hout : 2 ^ 63 ≤ op.exact x.toInt y.toInt ∨ op.exact x.toInt y.toInt < -2 ^ 63
    · refine iff_of_false (fun h => ?_) (by omega)
      by_cases htested : small = false ∨ op = .mul
      · have hset := (overflow_iff small x y op htested).mpr hout
        rw [h.2] at hset
        cases hset
      · rw [not_or, Bool.not_eq_false] at htested
        exact wraps_far htested.2 (hsmall htested.1) hout h.1
    · have hfits : (op.wrapping small x y).1.toInt = op.exact x.toInt y.toInt := by
        rw [wrapping_eq]
        exact toInt_wrap (by omega) (by omega)
      have hclear : (op.wrapping small x y).2 = false := by
        by_cases htested : small = false ∨ op = .mul
        · exact Bool.eq_false_iff.mpr fun h => hout ((overflow_iff small x y op htested).mp h)
        · rw [not_or, Bool.not_eq_false] at htested
          cases op with
          | add => simp [IntOp.wrapping, htested.1]
          | sub => simp [IntOp.wrapping, htested.1]
          | mul => exact absurd rfl htested.2
      rw [hfits, hclear]
      simp
  have hzero : -2 ^ 53 ≤ op.exact x.toInt y.toInt → op.exact x.toInt y.toInt < 2 ^ 53 →
      ((op == .mul && (x ||| y).slt 0 && (op.wrapping small x y).1 == 0) = true ↔
        op = .mul ∧ op.exact x.toInt y.toInt = 0 ∧ (x.toInt < 0 ∨ y.toInt < 0)) := by
    intro hlow hhigh
    have hnull : (op.wrapping small x y).1 = 0 ↔ op.exact x.toInt y.toInt = 0 := by
      rw [wrapping_eq, ← BitVec.toInt_inj, toInt_wrap (by omega) (by omega)]
      rfl
    rw [Bool.and_eq_true, Bool.and_eq_true, beq_iff_eq, beq_iff_eq, signs_negative, hnull,
      and_assoc, and_comm (a := x.toInt < 0 ∨ y.toInt < 0)]
  unfold IntOp.lowered IntOp.checked
  simp only
  by_cases hrange : -2 ^ 53 ≤ op.exact x.toInt y.toInt ∧ op.exact x.toInt y.toInt < 2 ^ 53
  · obtain ⟨hin, hflow⟩ := hpasses.mpr hrange
    have hsame := hzero hrange.1 hrange.2
    rw [hin, hflow, wrapping_eq]
    rw [wrapping_eq] at hsame
    by_cases hminus : op = .mul ∧ op.exact x.toInt y.toInt = 0 ∧ (x.toInt < 0 ∨ y.toInt < 0)
    · rw [hsame.mpr hminus]
      exact (if_neg fun h => h.2.2 hminus).symm
    · rw [Bool.eq_false_iff.mpr fun h => hminus (hsame.mp h), if_pos (by rfl),
        if_pos ⟨hrange.1, hrange.2, hminus⟩]
  · rw [if_neg, if_neg]
    · exact fun h => hrange ⟨h.1, h.2.1⟩
    · intro h
      rw [Bool.and_eq_true, Bool.and_eq_true, Bool.not_eq_true'] at h
      exact hrange (hpasses.mp h.1)

end Exact

open F64 (Integral)

/-- The operands whose integers give another number than they do. -/
def IntOp.Misses (x y : F64) : IntOp → Prop
  | add =>
      (x = .ofInt (2 ^ 63) ∧ y.le (.ofInt (2 ^ 53 - 2 ^ 63)) = true) ∨
      (y = .ofInt (2 ^ 63) ∧ x.le (.ofInt (2 ^ 53 - 2 ^ 63)) = true) ∨
      (x = .minusZero ∧ y = .minusZero)
  | sub =>
      (x = .ofInt (2 ^ 63) ∧ y ≠ .ofInt (2 ^ 63) ∧ (F64.ofInt (2 ^ 63 - 2 ^ 53)).le y = true) ∨
      (y = .ofInt (2 ^ 63) ∧ x ≠ .ofInt (2 ^ 63) ∧ (F64.ofInt (2 ^ 63 - 2 ^ 53)).le x = true) ∨
      (x = .minusZero ∧ y = .zero)
  | mul =>
      (x = .minusZero ∧ y ≠ .minusZero ∧ F64.zero.le y = true) ∨
      (y = .minusZero ∧ x ≠ .minusZero ∧ F64.zero.le x = true)

namespace Operand

/-- All arithmetic that passes its guard gives the interpreter's double. -/
def Exact : Operand → Prop
  | arith op known x y => x.Exact ∧ y.Exact ∧
      ∀ r, (arith op known x y).int? = some r → F64.ofInt r.toInt = op.onF64 x.num y.num
  | _ => True

/-- No arithmetic is on operands it misses. -/
def Clear : Operand → Prop
  | arith op _ x y => x.Clear ∧ y.Clear ∧ ¬op.Misses x.num y.num
  | _ => True

end Operand

/-- An integer stands for a double that is a whole number, or is one short of `2^63`. -/
def Stands (x : BitVec 64) (d : F64) : Prop :=
  ∃ v, Integral d v ∧ -2 ^ 63 ≤ v ∧ v ≤ 2 ^ 63 ∧ x.toInt = min v (2 ^ 63 - 1)

section Steps

variable {x y r : BitVec 64} {d e : F64} {v w : Int}

theorem integral_two63 : Integral (.ofInt (2 ^ 63)) (2 ^ 63) :=
  F64.integral_power (k := 1) (p := 63) (by decide) (by decide) (by decide)

theorem integral_low : Integral (.ofInt (2 ^ 53 - 2 ^ 63)) (2 ^ 53 - 2 ^ 63) :=
  F64.integral_power (k := 2 ^ 10 - 1) (p := 53) (by decide) (by decide) (by decide)

theorem integral_high : Integral (.ofInt (2 ^ 63 - 2 ^ 53)) (2 ^ 63 - 2 ^ 53) :=
  F64.integral_power (k := 2 ^ 10 - 1) (p := 53) (by decide) (by decide) (by decide)

theorem integral_zero : Integral .zero 0 := ⟨_, _, F64.num_zero, (Int.zero_mul _).symm⟩

theorem integral_minusZero : Integral .minusZero 0 :=
  ⟨_, _, F64.num_minusZero, (Int.zero_mul _).symm⟩

theorem lt_iff (hd : Integral d v) (he : Integral e w) : d.lt e = true ↔ v < w := by
  obtain ⟨s, a, hd, hs⟩ := hd
  obtain ⟨t, b, he, ht⟩ := he
  rw [F64.lt, hd, he]
  simp only [F64.Num.lt, hs, ht, decide_eq_true_iff, Int.mul_lt_mul_right F64.one_cast]

theorem le_iff (hd : Integral d v) (he : Integral e w) : d.le e = true ↔ v ≤ w := by
  rw [F64.le, Bool.or_eq_true, lt_iff hd he, Int.le_iff_lt_or_eq]
  refine or_congr_right ?_
  obtain ⟨s, a, hd, hs⟩ := hd
  obtain ⟨t, b, he, ht⟩ := he
  rw [F64.eq, hd, he]
  simp only [F64.Num.eq, hs, ht, decide_eq_true_iff,
    Int.mul_eq_mul_right_iff (ne_of_gt F64.one_cast)]

theorem eq_two63 (hd : Integral d v) : d = .ofInt (2 ^ 63) ↔ v = 2 ^ 63 := by
  constructor
  · intro h
    rw [h] at hd
    exact hd.unique integral_two63
  · intro h
    rw [h] at hd
    exact hd.eq_of integral_two63 (by decide)

theorem ofInt_ne {a b : Int} (ha : a.natAbs ≤ 2 ^ 53) (hb : b.natAbs ≤ 2 ^ 53) (hne : a ≠ b) :
    F64.ofInt a ≠ F64.ofInt b := by
  intro h
  have hint := congrArg F64.toInt h
  rw [F64.toInt_ofInt ha, F64.toInt_ofInt hb] at hint
  exact hne hint

theorem checked_eq_some (op : IntOp) :
    op.checked x y = some r ↔
      (-2 ^ 53 ≤ op.exact x.toInt y.toInt ∧ op.exact x.toInt y.toInt < 2 ^ 53 ∧
        ¬(op = .mul ∧ op.exact x.toInt y.toInt = 0 ∧ (x.toInt < 0 ∨ y.toInt < 0))) ∧
      r.toInt = op.exact x.toInt y.toInt := by
  unfold IntOp.checked
  simp only
  constructor
  · intro h
    split at h
    · rename_i hpass
      cases h
      exact ⟨hpass, toInt_wrap (by omega) (by omega)⟩
    · cases h
  · rintro ⟨hpass, hr⟩
    rw [if_pos hpass, ← hr, BitVec.ofInt_toInt]

theorem ofInt_zero : F64.ofInt 0 = .zero := by rfl

/-- A sum that passes is the doubles' own, but where it misses. -/
theorem add_exact (hx : Stands x d) (hy : Stands y e) :
    (∀ r, IntOp.add.checked x y = some r → F64.ofInt r.toInt = d.add e) ↔
      ¬IntOp.add.Misses d e := by
  obtain ⟨v, hd, hvlow, hvhigh, hxv⟩ := hx
  obtain ⟨w, he, hwlow, hwhigh, hyw⟩ := hy
  have hd63 := eq_two63 hd
  have he63 := eq_two63 he
  have hdlow := le_iff hd integral_low
  have helow := le_iff he integral_low
  constructor
  · intro hexact hmiss
    have hwrong : ∀ k : Int, x.toInt + y.toInt = k → -2 ^ 53 ≤ k → k < 2 ^ 53 →
        F64.ofInt k = d.add e := by
      intro k hk hlow hhigh
      have hr := hexact (BitVec.ofInt 64 k) ((checked_eq_some .add).mpr ⟨⟨?_, ?_, ?_⟩, ?_⟩)
      · rwa [toInt_wrap (by omega) (by omega)] at hr
      · rw [IntOp.exact, hk]
        exact hlow
      · rw [IntOp.exact, hk]
        exact hhigh
      · exact fun h => by cases h.1
      · rw [IntOp.exact, hk]
        exact toInt_wrap (by omega) (by omega)
    obtain ⟨hd2, hle⟩ | ⟨he2, hle⟩ | ⟨rfl, rfl⟩ := hmiss
    · have hv := hd63.mp hd2
      have hw := helow.mp hle
      have hsum := hwrong (2 ^ 63 - 1 + w) (by omega) (by omega) (by omega)
      rw [F64.add_integral hd he ?_] at hsum
      · exact ofInt_ne (by omega) (by omega) (by omega) hsum
      · rintro ⟨rfl, -⟩
        have := hd.unique integral_minusZero
        omega
    · have hw := he63.mp he2
      have hv := hdlow.mp hle
      have hsum := hwrong (v + (2 ^ 63 - 1)) (by omega) (by omega) (by omega)
      rw [F64.add_integral hd he ?_] at hsum
      · exact ofInt_ne (by omega) (by omega) (by omega) hsum
      · rintro ⟨-, rfl⟩
        have := he.unique integral_minusZero
        omega
    · have hv := hd.unique integral_minusZero
      have hw := he.unique integral_minusZero
      have hsum := hwrong 0 (by omega) (by omega) (by omega)
      rw [ofInt_zero] at hsum
      exact absurd hsum (by decide)
  · intro hclear r hr
    obtain ⟨⟨hlow, hhigh, -⟩, hval⟩ := (checked_eq_some .add).mp hr
    rw [IntOp.exact] at hlow hhigh hval
    have hv : x.toInt = v := by
      by_contra hne
      exact hclear (.inl ⟨hd63.mpr (by omega), helow.mpr (by omega)⟩)
    have hw : y.toInt = w := by
      by_contra hne
      exact hclear (.inr (.inl ⟨he63.mpr (by omega), hdlow.mpr (by omega)⟩))
    rw [F64.add_integral hd he fun h => hclear (.inr (.inr h)), hval, hv, hw]

theorem sub_exact (hx : Stands x d) (hy : Stands y e) :
    (∀ r, IntOp.sub.checked x y = some r → F64.ofInt r.toInt = d.sub e) ↔
      ¬IntOp.sub.Misses d e := by
  obtain ⟨v, hd, hvlow, hvhigh, hxv⟩ := hx
  obtain ⟨w, he, hwlow, hwhigh, hyw⟩ := hy
  have hd63 := eq_two63 hd
  have he63 := eq_two63 he
  have hdhigh := le_iff integral_high hd
  have hehigh := le_iff integral_high he
  constructor
  · intro hexact hmiss
    have hwrong : ∀ k : Int, x.toInt - y.toInt = k → -2 ^ 53 ≤ k → k < 2 ^ 53 →
        F64.ofInt k = d.sub e := by
      intro k hk hlow hhigh
      have hr := hexact (BitVec.ofInt 64 k) ((checked_eq_some .sub).mpr ⟨⟨?_, ?_, ?_⟩, ?_⟩)
      · rwa [toInt_wrap (by omega) (by omega)] at hr
      · rw [IntOp.exact, hk]
        exact hlow
      · rw [IntOp.exact, hk]
        exact hhigh
      · exact fun h => by cases h.1
      · rw [IntOp.exact, hk]
        exact toInt_wrap (by omega) (by omega)
    obtain ⟨hd2, hne, hle⟩ | ⟨he2, hne, hle⟩ | ⟨rfl, rfl⟩ := hmiss
    · have hv := hd63.mp hd2
      have hw := hehigh.mp hle
      have hw2 : w ≠ 2 ^ 63 := fun h => hne (he63.mpr h)
      have hsum := hwrong (2 ^ 63 - 1 - w) (by omega) (by omega) (by omega)
      rw [F64.sub_integral hd he ?_] at hsum
      · exact ofInt_ne (by omega) (by omega) (by omega) hsum
      · rintro ⟨rfl, -⟩
        have := hd.unique integral_minusZero
        omega
    · have hw := he63.mp he2
      have hv := hdhigh.mp hle
      have hv2 : v ≠ 2 ^ 63 := fun h => hne (hd63.mpr h)
      have hsum := hwrong (v - (2 ^ 63 - 1)) (by omega) (by omega) (by omega)
      rw [F64.sub_integral hd he ?_] at hsum
      · exact ofInt_ne (by omega) (by omega) (by omega) hsum
      · rintro ⟨-, rfl⟩
        have := he.unique integral_zero
        omega
    · have hv := hd.unique integral_minusZero
      have hw := he.unique integral_zero
      have hsum := hwrong 0 (by omega) (by omega) (by omega)
      rw [ofInt_zero] at hsum
      exact absurd hsum (by decide)
  · intro hclear r hr
    obtain ⟨⟨hlow, hhigh, -⟩, hval⟩ := (checked_eq_some .sub).mp hr
    rw [IntOp.exact] at hlow hhigh hval
    have heven : 2 ^ 53 < v.natAbs → v % 2 = 0 := hd.even
    have hdiff : x.toInt - y.toInt = v - w := by
      by_contra hne
      by_cases hv : v = 2 ^ 63
      · have hw : w ≠ 2 ^ 63 := by omega
        exact hclear (.inl ⟨hd63.mpr hv, fun h => hw (he63.mp h), hehigh.mpr (by omega)⟩)
      · have hw : w = 2 ^ 63 := by omega
        exact hclear (.inr (.inl ⟨he63.mpr hw, fun h => hv (hd63.mp h), hdhigh.mpr (by omega)⟩))
    rw [F64.sub_integral hd he fun h => hclear (.inr (.inr h)), hval, hdiff]

/-- A product within `2^53` has a factor of zero where the other one is one short. -/
theorem mul_short {a b : Int} (ha : a = 2 ^ 63 - 1) (hlow : -2 ^ 53 ≤ a * b)
    (hhigh : a * b < 2 ^ 53) : b = 0 := by
  subst ha
  omega

theorem sign_of_nonneg {s : Bool} {a : Nat} (hd : d.num = .fin s a) (hint : Integral d v)
    (hv : 0 ≤ v) (hzero : d ≠ .minusZero) : s = false := by
  obtain ⟨t, b, hd', hs⟩ := hint
  rw [hd] at hd'
  cases hd'
  cases s with
  | false => rfl
  | true =>
      have hpos := Int.mul_nonneg hv (Int.le_of_lt F64.one_cast)
      rw [← hs, F64.signed, if_pos rfl] at hpos
      exact absurd (F64.eq_minusZero hd (by omega)) hzero

/-- A zero that has lost its sign makes a zero of the wrong one. -/
theorem mul_minusZero {b : Nat} (he : e.num = .fin false b) :
    F64.minusZero.mul e = .minusZero ∧ e.mul .minusZero = .minusZero := by
  have hround : F64.round true (0 * b) F64.one = .fin true 0 := by
    have h := F64.round_exact true F64.representable_zero F64.one F64.one_pos
    rwa [Nat.zero_mul] at h ⊢
  have hround' : F64.round true (b * 0) F64.one = .fin true 0 := by
    rwa [Nat.zero_mul, ← Nat.mul_zero b] at hround
  have hback : F64.ofNum (.fin true 0) = .minusZero := by rfl
  rw [F64.mul, F64.mul, he, F64.num_minusZero]
  exact ⟨(congrArg F64.ofNum hround).trans hback, (congrArg F64.ofNum hround').trans hback⟩

theorem mul_exact (hx : Stands x d) (hy : Stands y e) :
    (∀ r, IntOp.mul.checked x y = some r → F64.ofInt r.toInt = d.mul e) ↔
      ¬IntOp.mul.Misses d e := by
  obtain ⟨v, hd, hvlow, hvhigh, hxv⟩ := hx
  obtain ⟨w, he, hwlow, hwhigh, hyw⟩ := hy
  have hdzero := le_iff integral_zero hd
  have hezero := le_iff integral_zero he
  obtain ⟨s, a, hdn, hs⟩ := id hd
  obtain ⟨t, b, hen, ht⟩ := id he
  constructor
  · intro hexact hmiss
    have hwrong : x.toInt * y.toInt = 0 → 0 ≤ x.toInt → 0 ≤ y.toInt → F64.zero = d.mul e := by
      intro hk hxn hyn
      have hr := hexact 0 ((checked_eq_some .mul).mpr ⟨⟨?_, ?_, ?_⟩, ?_⟩)
      · rwa [show (0 : BitVec 64).toInt = 0 from rfl, ofInt_zero] at hr
      · rw [IntOp.exact, hk]
        decide
      · rw [IntOp.exact, hk]
        decide
      · omega
      · rw [IntOp.exact, hk]
        rfl
    have hne : F64.zero ≠ .minusZero := by decide
    obtain ⟨rfl, hother, hle⟩ | ⟨rfl, hother, hle⟩ := hmiss
    · have hv := hd.unique integral_minusZero
      have hw := hezero.mp hle
      have hzero : x.toInt = 0 := by omega
      have hprod := hwrong (by rw [hzero, Int.zero_mul]) (by omega) (by omega)
      rw [sign_of_nonneg hen he hw hother] at hen
      exact hne (hprod.trans (mul_minusZero hen).1)
    · have hw := he.unique integral_minusZero
      have hv := hdzero.mp hle
      have hzero : y.toInt = 0 := by omega
      have hprod := hwrong (by rw [hzero, Int.mul_zero]) (by omega) (by omega)
      rw [sign_of_nonneg hdn hd hv hother] at hdn
      exact hne (hprod.trans (mul_minusZero hdn).2)
  · intro hclear r hr
    obtain ⟨⟨hlow, hhigh, hminus⟩, hval⟩ := (checked_eq_some .mul).mp hr
    rw [IntOp.exact] at hlow hhigh hval hminus
    have hprod : x.toInt * y.toInt = v * w := by
      by_cases hv : v = 2 ^ 63
      · have hy0 : y.toInt = 0 := mul_short (by omega) hlow hhigh
        have hw0 : w = 0 := by omega
        rw [hy0, hw0, Int.mul_zero, Int.mul_zero]
      · have hxv : x.toInt = v := by omega
        by_cases hw : w = 2 ^ 63
        · rw [Int.mul_comm] at hlow hhigh
          have hx0 : x.toInt = 0 := mul_short (by omega) hlow hhigh
          rw [← hxv, hx0, Int.zero_mul, Int.zero_mul]
        · have hyw : y.toInt = w := by omega
          rw [hxv, hyw]
    have hsigns : v * w = 0 → s = t := by
      intro hzero
      have hxn : 0 ≤ x.toInt ∧ 0 ≤ y.toInt := by
        have hnone : ¬(x.toInt < 0 ∨ y.toInt < 0) := fun h =>
          hminus ⟨rfl, hprod.trans hzero, h⟩
        omega
      have hv : 0 ≤ v := by omega
      have hw : 0 ≤ w := by omega
      by_cases hdm : d = .minusZero
      · have hem : e = .minusZero := by
          by_contra hne
          exact hclear (.inl ⟨hdm, hne, hezero.mpr hw⟩)
        rw [hdm, F64.num_minusZero] at hdn
        rw [hem, F64.num_minusZero] at hen
        cases hdn
        cases hen
        rfl
      · have hem : e ≠ .minusZero := fun hem => hclear (.inr ⟨hem, hdm, hdzero.mpr hv⟩)
        rw [sign_of_nonneg hdn hd hv hdm, sign_of_nonneg hen he hw hem]
    rw [hval, hprod, F64.mul_integral hdn hen hs ht (by omega) hsigns]

theorem step_exact (op : IntOp) (hx : Stands x d) (hy : Stands y e) :
    (∀ r, op.checked x y = some r → F64.ofInt r.toInt = op.onF64 d e) ↔ ¬op.Misses d e := by
  cases op with
  | add => exact add_exact hx hy
  | sub => exact sub_exact hx hy
  | mul => exact mul_exact hx hy

end Steps

section Origins

variable {x : BitVec 64} {f : F64}

theorem f64ToI64_toInt (f : F64) : (f64ToI64 f).toInt = f.toInt := by
  have hbounds : -2 ^ 63 ≤ f.toInt ∧ f.toInt < 2 ^ 63 := by
    rw [F64.toInt]
    cases f.num with
    | nan => decide
    | inf s => cases s <;> decide
    | fin s a =>
        simp only [F64.Num.toInt]
        omega
  exact toInt_wrap hbounds.1 hbounds.2

theorem stands_of_integral {v : Int} (h : Integral f v) (hlow : -2 ^ 63 ≤ v) (hhigh : v ≤ 2 ^ 63) :
    Stands (f64ToI64 f) f := by
  refine ⟨v, h, hlow, hhigh, ?_⟩
  rw [f64ToI64_toInt, F64.toInt_integral h]
  omega

theorem stands_of_exact (h : (f64ToInt f).2 = true) : Stands (f64ToI64 f) f := by
  have hbounds := toInt_bounds (f64ToI64 f)
  obtain ⟨v, hint, hv⟩ := F64.integral_of_eq (by omega) h
  exact stands_of_integral hint (by omega) (by omega)

theorem stands_of_elem (h : wholeInI64 f = true) : Stands (f64ToI64 f) f := by
  rw [wholeInI64, Bool.and_eq_true, Bool.and_eq_true] at h
  obtain ⟨v, hint⟩ := F64.integral_of_fract h.1.1
  have hmin : Integral (.ofInt (-2 ^ 63)) (-2 ^ 63) :=
    F64.integral_power (k := 1) (p := 63) (by decide) (by decide) (by decide)
  have hlow := (le_iff hmin hint).mp h.1.2
  have hle : f.le (.ofInt (2 ^ 63)) = true := by
    rw [F64.le, h.2, Bool.true_or]
  exact stands_of_integral hint hlow ((le_iff hint integral_two63).mp hle)

theorem small_of_const (h : wholeImm f = some x) :
    ∃ v, Integral f v ∧ v.natAbs < 2 ^ 53 ∧ x = f64ToI64 f := by
  rw [wholeImm] at h
  split at h
  · rename_i husable
    cases h
    rw [Bool.and_eq_true, Bool.and_eq_true] at husable
    obtain ⟨⟨hfract, hsmall⟩, -⟩ := husable
    obtain ⟨v, hint⟩ := F64.integral_of_fract hfract
    refine ⟨v, hint, ?_, rfl⟩
    have habs : Integral f.abs v.natAbs := by
      obtain ⟨s, mag, hf, hs⟩ := hint
      refine ⟨false, mag, by rw [F64.num_abs, hf]; rfl, ?_⟩
      rw [F64.mag_of_signed hs]
      exact Int.natCast_mul _ _
    have hbound : Integral (.ofInt 9007199254740992) 9007199254740992 :=
      F64.integral_ofInt (by decide)
    have hlt := (lt_iff habs hbound).mp hsmall
    omega
  · cases h

theorem lowered_near {small : Bool} {i j : BitVec 64} {op : IntOp}
    (h : op.lowered small i j = some x) : Near x := by
  rw [IntOp.lowered] at h
  simp only at h
  split at h
  · rename_i hpass
    cases h
    rw [Bool.and_eq_true, Bool.and_eq_true] at hpass
    have hrange := (inRange_iff _).mp hpass.1.1
    exact ⟨hrange.1, Int.le_of_lt hrange.2⟩
  · cases h

/-- What is small by what defines it is within `2^53` of zero. -/
theorem Operand.near_of_small {o : Operand} (hsmall : o.small = true) (h : o.int? = some x) :
    Near x := by
  cases o with
  | const f =>
      obtain ⟨v, hint, hv, rfl⟩ := small_of_const h
      rw [Near, f64ToI64_toInt, F64.toInt_integral hint]
      omega
  | arith op known a b =>
      obtain ⟨i, -, hrest⟩ := Option.bind_eq_some_iff.mp h
      obtain ⟨j, -, hlowered⟩ := Option.bind_eq_some_iff.mp hrest
      exact lowered_near hlowered
  | whole f => cases hsmall
  | int f => cases hsmall
  | elem f => cases hsmall

/-- A guard that was lowered with what is known of its operands checks the exact result. -/
theorem Operand.int?_arith {op : IntOp} {known : Bool} {a b : Operand} {i j : BitVec 64}
    (ha : a.int? = some i) (hb : b.int? = some j) :
    (arith op known a b).int? = op.checked i j := by
  rw [int?, ha, hb, Option.bind_some, Option.bind_some]
  refine lowered_eq_checked op fun h => ?_
  rw [Bool.and_eq_true, Bool.or_eq_true] at h
  exact h.2.imp (fun h => near_of_small h ha) fun h => near_of_small h hb

/-- An operand compiled code has is exact all through when it is clear, and then stands for
its double. -/
theorem Operand.exact_iff {o : Operand} (h : o.int? = some x) :
    (o.Exact ↔ o.Clear) ∧ (o.Clear → Stands x o.num) := by
  induction o generalizing x with
  | whole f =>
      refine ⟨Iff.rfl, fun _ => ?_⟩
      rw [int?, guardWhole] at h
      simp only at h
      split at h
      · rename_i hpass
        cases h
        exact stands_of_exact (Bool.and_eq_true_iff.mp hpass).1
      · cases h
  | int f =>
      refine ⟨Iff.rfl, fun _ => ?_⟩
      rw [int?, guardInt] at h
      simp only at h
      split at h
      · rename_i hpass
        cases h
        exact stands_of_exact hpass
      · cases h
  | elem f =>
      refine ⟨Iff.rfl, fun _ => ?_⟩
      rw [int?] at h
      split at h
      · rename_i hpass
        cases h
        exact stands_of_elem hpass
      · cases h
  | const f =>
      refine ⟨Iff.rfl, fun _ => ?_⟩
      obtain ⟨v, hint, hv, rfl⟩ := small_of_const h
      exact stands_of_integral hint (by omega) (by omega)
  | arith op known a b iha ihb =>
      obtain ⟨i, ha, hrest⟩ := Option.bind_eq_some_iff.mp h
      obtain ⟨j, hb, -⟩ := Option.bind_eq_some_iff.mp hrest
      obtain ⟨ihaexact, ihastands⟩ := iha ha
      obtain ⟨ihbexact, ihbstands⟩ := ihb hb
      rw [int?_arith ha hb] at h
      have hexact : (arith op known a b).Exact ↔ (arith op known a b).Clear := by
        rw [Exact, Clear, ihaexact, ihbexact, int?_arith ha hb]
        refine and_congr_right fun hca => and_congr_right fun hcb => ?_
        exact step_exact op (ihastands hca) (ihbstands hcb)
      refine ⟨hexact, fun hclear => ?_⟩
      have hnum := (hexact.mpr hclear).2.2 x (by rw [int?_arith ha hb, h])
      obtain ⟨⟨hlow, hhigh, -⟩, hval⟩ := (checked_eq_some op).mp h
      rw [← hval] at hlow hhigh
      refine ⟨x.toInt, ?_, by omega, by omega, by omega⟩
      rw [num, ← hnum]
      exact F64.integral_ofInt (by omega)

/-- Whatever two operands compiled code has and whatever doubles they stand for, all arithmetic
that passes on the way, and on them, gives the interpreter's double exactly when none of it is
on operands it misses. -/
theorem arith_exact (op : IntOp) (known : Bool) (a b : Operand) (i j : BitVec 64)
    (ha : a.int? = some i) (hb : b.int? = some j) :
    (Operand.arith op known a b).Exact ↔ (Operand.arith op known a b).Clear := by
  obtain ⟨haexact, hastands⟩ := Operand.exact_iff ha
  obtain ⟨hbexact, hbstands⟩ := Operand.exact_iff hb
  rw [Operand.Exact, Operand.Clear, haexact, hbexact, Operand.int?_arith ha hb]
  refine and_congr_right fun hca => and_congr_right fun hcb => ?_
  exact step_exact op (hastands hca) (hbstands hcb)

def three : F64 := ⟨0x4008000000000000#64⟩

theorem arith_exact_three :
    (Operand.arith .mul true (.whole three) (.const three)).Exact ↔
      (Operand.arith .mul true (.whole three) (.const three)).Clear :=
  arith_exact .mul true (.whole three) (.const three) 3#64 3#64 (by decide +kernel)
    (by decide +kernel)

def two63 : F64 := ⟨0x43E0000000000000#64⟩

/-- `2^63 + -2^63` passes its guard with -1. -/
theorem two63_cancels :
    (Operand.arith .add false (.whole two63) (.whole two63.neg)).int? =
        some (BitVec.ofInt 64 (-1)) ∧
      two63.add two63.neg = .zero ∧
      ¬(Operand.arith .add false (.whole two63) (.whole two63.neg)).Exact := by
  have hpass : (Operand.arith .add false (.whole two63) (.whole two63.neg)).int? =
      some (BitVec.ofInt 64 (-1)) := by decide +kernel
  refine ⟨hpass, by decide +kernel, fun hexact => ?_⟩
  have hwrong := hexact.2.2 _ hpass
  exact absurd hwrong (by decide +kernel)

end Origins

end Zuri.Jit.Ir
