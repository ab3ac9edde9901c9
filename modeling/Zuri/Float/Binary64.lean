import Mathlib.Data.Nat.Bitwise

/-!
Binary64 numbers by their bits.

A double is its sixty-four bits, so two doubles are equal exactly when they are
bit for bit the same. What a finite double stands for is a whole number of
`2^-1074`, the distance between the smallest ones, so arithmetic is exact
arithmetic on whole numbers with one rounding, to nearest and to even, at the
end. Every NaN an operation produces is the quiet one with no payload.
-/

/-- A double, by its bits. -/
structure F64 where
  bits : BitVec 64
deriving DecidableEq, Repr

namespace F64

/-- What a double stands for; a magnitude counts units of `2^-1074`. -/
inductive Num
  | nan
  | inf (neg : Bool)
  | fin (neg : Bool) (mag : Nat)
deriving DecidableEq, Repr

/-- How many units make one. -/
def one : Nat := 2 ^ 1074

/-- The first magnitude past every finite double. -/
def limit : Nat := 2 ^ 2098

def num (x : F64) : Num :=
  let n := x.bits.toNat
  let neg := decide (2 ^ 63 ≤ n)
  let exponent := n / 2 ^ 52 % 2048
  let fraction := n % 2 ^ 52
  if exponent = 2047 then if fraction = 0 then .inf neg else .nan
  else if exponent = 0 then .fin neg fraction
  else .fin neg ((2 ^ 52 + fraction) * 2 ^ (exponent - 1))

def signBit (neg : Bool) : Nat := if neg then 2 ^ 63 else 0

/-- The bits of a magnitude a double can hold. -/
def pack (mag : Nat) : Nat :=
  let shift := Nat.log2 mag - 52
  shift * 2 ^ 52 + mag / 2 ^ shift

def ofNum : Num → F64
  | .nan => ⟨BitVec.ofNat 64 0x7ff8000000000000⟩
  | .inf neg => ⟨BitVec.ofNat 64 (signBit neg + 0x7ff0000000000000)⟩
  | .fin neg mag => ⟨BitVec.ofNat 64 (signBit neg + pack mag)⟩

/-- `n / d` rounded to the magnitudes a double can hold, to nearest and ties to
even. -/
def roundMag (n d : Nat) : Nat :=
  let shift := Nat.log2 (n / d) - 52
  let unit := d * 2 ^ shift
  let m := n / unit
  let r := n % unit
  (if unit < 2 * r ∨ (unit = 2 * r ∧ m % 2 = 1) then m + 1 else m) * 2 ^ shift

def round (neg : Bool) (n d : Nat) : Num :=
  let mag := roundMag n d
  if mag < limit then .fin neg mag else .inf neg

def signed (neg : Bool) (mag : Nat) : Int := if neg then -(mag : Int) else mag

namespace Num

def neg : Num → Num
  | nan => nan
  | inf s => inf !s
  | fin s m => fin (!s) m

def add : Num → Num → Num
  | nan, _ => nan
  | _, nan => nan
  | inf s, inf t => if s = t then inf s else nan
  | inf s, fin _ _ => inf s
  | fin _ _, inf t => inf t
  | fin s a, fin t b =>
      let sum := signed s a + signed t b
      if sum = 0 then fin (s && t) 0 else round (decide (sum < 0)) sum.natAbs 1

def mul : Num → Num → Num
  | nan, _ => nan
  | _, nan => nan
  | inf s, inf t => inf (s != t)
  | inf s, fin t b => if b = 0 then nan else inf (s != t)
  | fin s a, inf t => if a = 0 then nan else inf (s != t)
  | fin s a, fin t b => round (s != t) (a * b) one

def div : Num → Num → Num
  | nan, _ => nan
  | _, nan => nan
  | inf _, inf _ => nan
  | inf s, fin t _ => inf (s != t)
  | fin s _, inf t => fin (s != t) 0
  | fin s a, fin t b =>
      if b = 0 then if a = 0 then nan else inf (s != t)
      else round (s != t) (a * one) b

/-- The truncated remainder, with the sign of the dividend. -/
def rem : Num → Num → Num
  | nan, _ => nan
  | _, nan => nan
  | inf _, _ => nan
  | fin s a, inf _ => fin s a
  | fin s a, fin _ b => if b = 0 then nan else fin s (a % b)

def trunc : Num → Num
  | fin s a => fin s (a / one * one)
  | x => x

def floor : Num → Num
  | fin s a => fin s ((if s then (a + one - 1) / one else a / one) * one)
  | x => x

def ceil : Num → Num
  | fin s a => fin s ((if s then a / one else (a + one - 1) / one) * one)
  | x => x

def sqrt : Num → Num
  | nan => nan
  | inf s => if s then nan else inf s
  | fin s a =>
      if a = 0 then fin s 0
      else if s then nan
      else
        let root := Nat.sqrt (a * one * 16)
        -- A root that is not whole lies strictly between two sixteenths.
        let sticky := if root * root = a * one * 16 then 0 else 1
        round false (2 * root + sticky) 8

/-- Whether the first is less than the second; never true of a NaN. -/
def lt : Num → Num → Bool
  | nan, _ => false
  | _, nan => false
  | inf s, inf t => s && !t
  | inf s, fin _ _ => s
  | fin _ _, inf t => !t
  | fin s a, fin t b => decide (signed s a < signed t b)

/-- Equality of numbers: the zeros are equal, and a NaN is equal to nothing. -/
def eq : Num → Num → Bool
  | nan, _ => false
  | _, nan => false
  | inf s, inf t => s = t
  | inf _, fin _ _ => false
  | fin _ _, inf _ => false
  | fin s a, fin t b => signed s a = signed t b

/-- The whole part toward zero, kept within sixty-four bits; a NaN gives 0. -/
def toInt : Num → Int
  | nan => 0
  | inf s => if s then -2 ^ 63 else 2 ^ 63 - 1
  | fin s a => max (-2 ^ 63) (min (2 ^ 63 - 1) (signed s (a / one)))

/-- The whole part modulo `2^64`; an infinity or NaN gives 0. -/
def wrapped : Num → Int
  | fin s a => signed s (a / one)
  | _ => 0

def ofInt (n : Int) : Num :=
  if n = 0 then fin false 0 else round (decide (n < 0)) (n.natAbs * one) 1

end Num

def zero : F64 := ⟨0#64⟩
def minusZero : F64 := ⟨BitVec.ofNat 64 (2 ^ 63)⟩

def isNan (x : F64) : Bool := x.num = .nan
def neg (x : F64) : F64 := ⟨x.bits ^^^ BitVec.ofNat 64 (2 ^ 63)⟩
def abs (x : F64) : F64 := ⟨x.bits &&& BitVec.ofNat 64 (2 ^ 63 - 1)⟩
def copysign (x y : F64) : F64 :=
  ⟨x.abs.bits ||| (y.bits &&& BitVec.ofNat 64 (2 ^ 63))⟩

def add (x y : F64) : F64 := ofNum (x.num.add y.num)
def sub (x y : F64) : F64 := ofNum (x.num.add y.num.neg)
def mul (x y : F64) : F64 := ofNum (x.num.mul y.num)
def div (x y : F64) : F64 := ofNum (x.num.div y.num)
def rem (x y : F64) : F64 := ofNum (x.num.rem y.num)
def sqrt (x : F64) : F64 := ofNum x.num.sqrt
def trunc (x : F64) : F64 := ofNum x.num.trunc
def floor (x : F64) : F64 := ofNum x.num.floor
def ceil (x : F64) : F64 := ofNum x.num.ceil

def lt (x y : F64) : Bool := x.num.lt y.num
def eq (x y : F64) : Bool := x.num.eq y.num
def le (x y : F64) : Bool := x.lt y || x.eq y

theorem eq_self (x : F64) (h : x.isNan = false) : x.eq x = true := by
  unfold isNan at h
  unfold eq
  cases hx : x.num with
  | nan => simp [hx] at h
  | inf s => simp [Num.eq]
  | fin s a => simp [Num.eq]

/-- The nearest double to a whole number. -/
def ofInt (n : Int) : F64 := ofNum (.ofInt n)

/-- Conversion to a whole number, toward zero and saturating. -/
def toInt (x : F64) : Int := x.num.toInt

/-- Conversion to a whole number modulo `2^64`. -/
def wrapped (x : F64) : Int := x.num.wrapped

end F64
