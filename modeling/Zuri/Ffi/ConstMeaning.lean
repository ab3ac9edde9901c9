import Zuri.Ffi.ConstReader

/-!
What C says of a constant expression: the type of each operand, the conversions of operands to a
common type, and a value unless the behaviour is undefined. Operands that C does not evaluate may
have none. Negative values are of two's complement, as on every target.
-/

namespace Zuri.Cdecl

/-- An integer type of C. -/
structure IntType where
  width : Nat
  signed : Bool
  deriving DecidableEq

def IntType.Holds (t : IntType) (value : Int) : Prop :=
  if t.signed then -2 ^ (t.width - 1) ≤ value ∧ value < 2 ^ (t.width - 1)
  else 0 ≤ value ∧ value < 2 ^ t.width

instance (t : IntType) (value : Int) : Decidable (t.Holds value) := by
  unfold IntType.Holds
  infer_instance

/-- The value converted to a type, modulo the power of two of its width. -/
def IntType.convert (t : IntType) (value : Int) : Int :=
  let low := value % 2 ^ t.width
  if t.signed && 2 ^ (t.width - 1) ≤ low then low - 2 ^ t.width else low

/-- The integer promotions, to an `int` of a width. -/
def IntType.promote (int : Nat) (t : IntType) : IntType :=
  if t.width < int then ⟨int, true⟩ else t

/-- The usual arithmetic conversions. -/
def IntType.common (int : Nat) (t u : IntType) : IntType :=
  let t := t.promote int
  let u := u.promote int
  if t.signed = u.signed then ⟨max t.width u.width, t.signed⟩
  else if t.signed then (if t.width ≤ u.width then u else t)
  else (if u.width ≤ t.width then t else u)

/-- What the types of a target and the constants declared before are. For the condition of an `#if`
every type is as wide as the widest. -/
structure Target where
  int : Nat
  long : Nat
  size : Nat
  int_ge : 16 ≤ int
  int_le : int ≤ long
  long_le : long ≤ 64
  size_pos : 0 < size
  size_le : size ≤ 64
  names : Text → Option (IntType × Int)
  charSigned : Bool
  wchar : IntType
  wchar_pos : 0 < wchar.width
  wchar_le : wchar.width ≤ 64

def Target.intType (target : Target) : IntType := ⟨target.int, true⟩

/-- The types that a constant may have, in the order that C tries them. -/
def Target.candidates (target : Target) (l : Literal) : List IntType :=
  let widths := [target.int, target.long, 64].drop l.longs
  widths.flatMap fun width =>
    if l.unsigned then [⟨width, false⟩]
    else if l.decimal then [⟨width, true⟩]
    else [⟨width, true⟩, ⟨width, false⟩]

def Target.literalType (target : Target) (l : Literal) : Option IntType :=
  (target.candidates l).find? fun t => t.Holds l.value

/-- The type of a character constant. -/
def CharConst.type (target : Target) (c : CharConst) : IntType :=
  match c.encoding with
  | .plain => target.intType
  | .wide => target.wchar
  | .char16 => ⟨16, false⟩
  | .char32 => ⟨32, false⟩
  | .utf8 => ⟨8, false⟩

/-- The code of a part of a character constant, if the part is one that C has. -/
def CharUnit.code : CharUnit → Option Nat
  | .plain c => some c.toNat
  | .octal value => some value
  | .hex value => some value
  | .escape c =>
      if c ∈ ['n', 't', 'r', 'a', 'b', 'f', 'v', '\\', '\'', '"', '?'] then
        some (CharUnit.escape c).char.toNat
      else none

/-- The bytes that a part stands for. -/
def CharUnit.bytes : CharUnit → Option (List Nat)
  | .plain c => some ((String.singleton c).toUTF8.data.toList.map UInt8.toNat)
  | unit => unit.code.bind fun value => if value < 256 then some [value] else none

/-- The value of a character constant. Several bytes are packed the way GCC and Clang do. -/
def CharConst.meaning (target : Target) (c : CharConst) : Option Int :=
  match c.units with
  | none => none
  | some units =>
      match c.encoding with
      | .plain =>
          if units.all fun unit => unit.bytes.isSome then
            match (units.flatMap fun unit => unit.bytes.getD [] : List Nat) with
            | [] => none
            | [b] => some (if target.charSigned && 128 ≤ b then (b : Int) - 256 else b)
            | bytes => some (target.intType.convert (packed bytes))
          else none
      | _ =>
          match units with
          | [unit] => unit.code.bind fun value =>
              if (c.type target).Holds value then some (value : Int) else none
          | _ => none

/-- The type of a cast, if it is to an integer type. -/
def castType : Kind → Option IntType
  | .bool => some ⟨1, false⟩
  | .int size signed => if 0 < size ∧ size < 16 then some ⟨size * 8, signed⟩ else none
  | .enum underlying => castType underlying
  | .other => none

def castValue (value : Int) : Kind → Int
  | .bool => truth (value ≠ 0)
  | .int size signed => IntType.convert ⟨size * 8, signed⟩ value
  | .enum underlying => castValue value underlying
  | .other => value

inductive Class where
  | logical | comparison | shift | arithmetic
  deriving DecidableEq

def Op.kind : Op → Class
  | .oror | .andand => .logical
  | .eq | .ne | .lt | .gt | .le | .ge => .comparison
  | .shl | .shr => .shift
  | _ => .arithmetic

section
variable (target : Target)

def Expr.type : Expr → Option IntType
  | .lit l => target.literalType l
  | .chr c => some (c.type target)
  | .name n => (target.names n).map Prod.fst
  | .size _ _ => some ⟨target.size, false⟩
  | .sizeOf e => e.type.map fun _ => ⟨target.size, false⟩
  | .cast type _ => castType type.type.kind
  | .unary .not _ => some target.intType
  | .unary _ e => e.type.map (IntType.promote target.int)
  | .binary op left right =>
      match op.kind, left.type, right.type with
      | .arithmetic, some l, some r => some (l.common target.int r)
      | .shift, some l, _ => some (l.promote target.int)
      | .arithmetic, _, _ => none
      | .shift, _, _ => none
      | _, _, _ => some target.intType
  | .cond _ yes no =>
      match yes.type, no.type with
      | some y, some n => some (y.common target.int n)
      | _, _ => none
  | .comma _ second => second.type
  | .paren e => e.type

/-- A result of a type: modulo its width if it is unsigned, undefined if it does not hold it. -/
def IntType.result (t : IntType) (value : Int) : Option Int :=
  if t.Holds value then some value else if t.signed then none else some (t.convert value)

/-- The result of an arithmetic operator before its type is looked at. -/
def Op.exact (op : Op) (left right : Int) : Option Int :=
  match op with
  | .or => some (Int.lor left right)
  | .xor => some (Int.xor left right)
  | .and => some (Int.land left right)
  | .add => some (left + right)
  | .sub => some (left - right)
  | .mul => some (left * right)
  | .div => if right = 0 then none else some (left.tdiv right)
  | .rem => if right = 0 then none else some (left.tmod right)
  | _ => none

def Op.compare (op : Op) (left right : Int) : Int :=
  match op with
  | .eq => truth (left = right)
  | .ne => truth (left ≠ right)
  | .lt => truth (left < right)
  | .gt => truth (right < left)
  | .le => truth (left ≤ right)
  | _ => truth (right ≤ left)

/-- A shift of a value of a type. -/
def shift (op : Op) (t : IntType) (left right : Int) : Option Int :=
  if right < 0 ∨ (t.width : Int) ≤ right then none
  else if op = .shl then
    if t.signed ∧ left < 0 then none else t.result (left * 2 ^ right.toNat)
  else some (left / 2 ^ right.toNat)

/-- The value that C gives. -/
def Expr.meaning : Expr → Option Int
  | .lit l => (target.literalType l).map fun _ => (l.value : Int)
  | .chr c => c.meaning target
  | .name n => (target.names n).map Prod.snd
  | .size keyword type =>
      (if keyword = sizeofName then type.type.size else type.type.align).map
        fun n : Nat => (n : Int)
  | .sizeOf e => (e.type target).map fun t => (((t.width + 7) / 8 : Nat) : Int)
  | .cast type e =>
      match castType type.type.kind, e.meaning with
      | some _, some value => some (castValue value type.type.kind)
      | _, _ => none
  | .unary u e =>
      match e.type target, e.meaning with
      | some t, some value =>
          match u with
          | .neg => (t.promote target.int).result (-value)
          | .plus => some value
          | .compl => (t.promote target.int).result (-value - 1)
          | .not => some (truth (value = 0))
      | _, _ => none
  | .binary op left right =>
      match op.kind, left.meaning with
      | .logical, some l =>
          if op = .oror ∧ l ≠ 0 then some 1
          else if op = .andand ∧ l = 0 then some 0
          else right.meaning.map fun r => truth (r ≠ 0)
      | .shift, some l =>
          match left.type target, right.meaning with
          | some t, some r => shift op (t.promote target.int) l r
          | _, _ => none
      | .comparison, some l =>
          match left.type target, right.type target, right.meaning with
          | some t, some u, some r =>
              let common := t.common target.int u
              some (op.compare (common.convert l) (common.convert r))
          | _, _, _ => none
      | .arithmetic, some l =>
          match left.type target, right.type target, right.meaning with
          | some t, some u, some r =>
              let common := t.common target.int u
              (op.exact (common.convert l) (common.convert r)).bind common.result
          | _, _, _ => none
      | _, none => none
  | .cond condition yes no =>
      match condition.meaning, yes.type target, no.type target with
      | some c, some t, some u =>
          (if c ≠ 0 then yes.meaning else no.meaning).map (t.common target.int u).convert
      | _, _, _ => none
  | .comma first second =>
      match first.meaning with
      | some _ => second.meaning
      | none => none
  | .paren e => e.meaning

end

end Zuri.Cdecl
