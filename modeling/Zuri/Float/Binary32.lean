import Zuri.Float.Binary64

/-!
Binary32 and binary16 numbers by their bits, and their conversions. A magnitude of a single is a
whole number of `2^-149`, which is `2^925` units of a double; narrowing rounds to nearest and to
even, and to a half toward zero.
-/

namespace F32

/-- The units of a double in one unit of a single. -/
def unit : Nat := 2 ^ 925

/-- The first magnitude past every finite single. -/
def limit : Nat := 2 ^ 277

def num (bits : Nat) : F64.Num :=
  let neg := decide (2 ^ 31 ≤ bits)
  let exponent := bits / 2 ^ 23 % 256
  let fraction := bits % 2 ^ 23
  if exponent = 255 then if fraction = 0 then .inf neg else .nan
  else if exponent = 0 then .fin neg (fraction * unit)
  else .fin neg ((2 ^ 23 + fraction) * 2 ^ (exponent - 1) * unit)

def toF64 (bits : Nat) : F64 := F64.ofNum (num bits)

def signBit (neg : Bool) : Nat := if neg then 2 ^ 31 else 0

/-- The bits of a magnitude a single can hold. -/
def pack (mag : Nat) : Nat :=
  let shift := Nat.log2 mag - 23
  shift * 2 ^ 23 + mag / 2 ^ shift

/-- `n / d` rounded to the magnitudes a single can hold, to nearest and ties to even. -/
def roundMag (n d : Nat) : Nat :=
  let shift := Nat.log2 (n / d) - 23
  let step := d * 2 ^ shift
  let m := n / step
  let r := n % step
  (if step < 2 * r ∨ (step = 2 * r ∧ m % 2 = 1) then m + 1 else m) * 2 ^ shift

def ofNum : F64.Num → Nat
  | .nan => 0x7fc00000
  | .inf neg => signBit neg + 0x7f800000
  | .fin neg mag =>
      if roundMag mag unit < limit then signBit neg + pack (roundMag mag unit)
      else signBit neg + 0x7f800000

/-- A double as a single. -/
def ofF64 (x : F64) : Nat := ofNum x.num

def toHalf (bits : Nat) : Nat :=
  let sign := bits >>> 16 &&& 0x8000
  let exp := bits >>> 23 &&& 0xff
  let mantissa := bits &&& 0x7fffff
  if exp = 0xff then sign ||| 0x7c00 ||| (if mantissa ≠ 0 then 0x0200 else 0)
  else
    let halfExp : Int := (exp : Int) - 127 + 15
    if 0x1f ≤ halfExp then sign ||| 0x7c00
    else if halfExp ≤ 0 then
      if 24 < 14 - halfExp then sign
      else sign ||| ((mantissa ||| 0x800000) >>> (14 - halfExp).toNat) % 2 ^ 16
    else sign ||| halfExp.toNat <<< 10 ||| mantissa >>> 13

/-- Shifts a subnormal mantissa up to its implicit bit; ten shifts are enough. -/
def normalize : Nat → Int → Nat → Int × Nat
  | 0, e, m => (e, m)
  | shifts + 1, e, m => if m &&& 0x400 = 0 then normalize shifts (e + 1) (m <<< 1) else (e, m)

def ofHalf (h : Nat) : Nat :=
  let sign := (h &&& 0x8000) <<< 16
  let exp := h >>> 10 &&& 0x1f
  let mantissa := h &&& 0x3ff
  if exp = 0 then
    if mantissa = 0 then sign
    else
      let (e, m) := normalize 10 (-1) mantissa
      sign ||| (127 - 15 - e).toNat <<< 23 ||| (m &&& 0x3ff) <<< 13
  else if exp = 0x1f then sign ||| 0x7f800000 ||| mantissa <<< 13
  else sign ||| (exp + (127 - 15)) <<< 23 ||| mantissa <<< 13

end F32
