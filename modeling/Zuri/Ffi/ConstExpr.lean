import Mathlib.Data.Int.Bitwise
import Mathlib.Data.List.Basic

/-!
The reader of constant expressions in C declarations. It evaluates an expression while it reads its
tokens, by precedence, in integers of 128 bits. How a type name is read, which names are constants
and what sizes types have is given.
-/

namespace Zuri.Cdecl

abbrev Text := List Char

inductive Op where
  | oror | andand | or | xor | and | eq | ne | lt | gt | le | ge | shl | shr | add | sub | mul
  | div | rem
  deriving DecidableEq

def Op.prec : Op → Nat
  | .oror => 1
  | .andand => 2
  | .or => 3
  | .xor => 4
  | .and => 5
  | .eq | .ne => 6
  | .lt | .gt | .le | .ge => 7
  | .shl | .shr => 8
  | .add | .sub => 9
  | .mul | .div | .rem => 10

inductive Punct where
  | op (op : Op)
  | tilde | bang | lparen | rparen | question | colon | comma
  | other (text : Text)
  deriving DecidableEq

inductive Tok where
  | ident (name : Text)
  | int (value : Int) (unsigned : Bool)
  | char (value : Int)
  | punct (punct : Punct)
  | eof
  deriving DecidableEq

inductive Kind where
  | bool
  | int (size : Nat) (signed : Bool)
  | enum (underlying : Kind)
  | other
  deriving DecidableEq

structure CType where
  kind : Kind
  size : Option Nat
  align : Option Nat

inductive Error where
  | divisionByZero
  | expected (punct : Punct)
  | needsType (name : Text)
  | noSize
  | notKnown (name : Text)
  | notConstant
  | inType

/-- What the reader knows besides the tokens: where a type name starts and what it is, and the
constants declared before. -/
structure Scope where
  startsType : List Tok → Bool
  typeName : List Tok → Except Error (CType × List Tok)
  constant : Text → Option Int

/-- A value of 128 bits. -/
def wrap (value : Int) : Int := (value + 2 ^ 127) % 2 ^ 128 - 2 ^ 127

def truth (b : Bool) : Int := if b then 1 else 0

/-- A cast to an integer type. -/
def cast (value : Int) : Kind → Int
  | .bool => truth (value ≠ 0)
  | .int size signed =>
      if size < 16 then
        let low := value % 2 ^ (size * 8)
        if signed && 2 ^ (size * 8 - 1) ≤ low then low - 2 ^ (size * 8) else low
      else value
  | .enum underlying => cast value underlying
  | .other => value

/-- A binary operator, of operands that are both evaluated. -/
def apply (op : Op) (left right : Int) : Except Error Int :=
  match op with
  | .oror => .ok (truth (left ≠ 0 || right ≠ 0))
  | .andand => .ok (truth (left ≠ 0 && right ≠ 0))
  | .or => .ok (Int.lor left right)
  | .xor => .ok (Int.xor left right)
  | .and => .ok (Int.land left right)
  | .eq => .ok (truth (left = right))
  | .ne => .ok (truth (left ≠ right))
  | .lt => .ok (truth (left < right))
  | .gt => .ok (truth (right < left))
  | .le => .ok (truth (left ≤ right))
  | .ge => .ok (truth (right ≤ left))
  | .shl => .ok (wrap (left * 2 ^ (right % 128).toNat))
  | .shr => .ok (left / 2 ^ (right % 128).toNat)
  | .add => .ok (wrap (left + right))
  | .sub => .ok (wrap (left - right))
  | .mul => .ok (wrap (left * right))
  | .div => if right = 0 then .error .divisionByZero else .ok (wrap (left.tdiv right))
  | .rem => if right = 0 then .error .divisionByZero else .ok (left.tmod right)

/-- What is read, and the tokens after it. `none` is a reader that has not come to an end. -/
abbrev Parse := Option (Except Error (Int × List Tok))

def done (value : Int) (rest : List Tok) : Parse := some (.ok (value, rest))

def fail (e : Error) : Parse := some (.error e)

def Parse.next (p : Parse) (f : Int → List Tok → Parse) : Parse :=
  match p with
  | none => none
  | some (.error e) => fail e
  | some (.ok (value, rest)) => f value rest

def expectPunct (p : Punct) (tokens : List Tok) (f : List Tok → Parse) : Parse :=
  match tokens with
  | .punct q :: rest => if q = p then f rest else fail (.expected p)
  | _ => fail (.expected p)

def sizeofName : Text := "sizeof".toList

def alignNames : List Text :=
  ["_Alignof".toList, "alignof".toList, "__alignof__".toList]

section
variable (scope : Scope)

def primary : List Tok → Parse
  | .int value _ :: rest => done value rest
  | .char value :: rest => done value rest
  | .ident name :: rest =>
      if name = "true".toList then done 1 rest
      else if name = "false".toList then done 0 rest
      else
        match scope.constant name with
        | some value => done value rest
        | none => fail (.notKnown name)
  | _ => fail .notConstant

/-- `sizeof` and the names of alignment. -/
def sizeofType (name : Text) (tokens : List Tok) : Parse :=
  expectPunct .lparen tokens fun inside =>
    if !scope.startsType inside then fail (.needsType name)
    else
      match scope.typeName inside with
      | .error e => fail e
      | .ok (ty, after) =>
          expectPunct .rparen after fun rest =>
            match if name = sizeofName then ty.size else ty.align with
            | some value => done value rest
            | none => fail .noSize

def startsIdent : List Tok → Bool
  | .ident _ :: _ => true
  | _ => false

mutual

def expression : Nat → List Tok → Parse
  | 0, _ => none
  | n + 1, tokens => (conditional n tokens).next (commas n)

/-- The loop over the operands of commas. -/
def commas : Nat → Int → List Tok → Parse
  | 0, _, _ => none
  | n + 1, value, tokens =>
      match tokens with
      | .punct .comma :: rest => (conditional n rest).next (commas n)
      | _ => done value tokens

def conditional : Nat → List Tok → Parse
  | 0, _ => none
  | n + 1, tokens =>
      (binary n 0 tokens).next fun condition after =>
        match after with
        | .punct .question :: rest =>
            (expression n rest).next fun yes after =>
              expectPunct .colon after fun rest =>
                (conditional n rest).next fun no rest =>
                  done (if condition ≠ 0 then yes else no) rest
        | _ => done condition after

def binary : Nat → Nat → List Tok → Parse
  | 0, _, _ => none
  | n + 1, min, tokens => (unary n tokens).next (climb n min)

/-- The loop over the operators that bind as tightly as `min`. -/
def climb : Nat → Nat → Int → List Tok → Parse
  | 0, _, _, _ => none
  | n + 1, min, left, tokens =>
      match tokens with
      | .punct (.op op) :: rest =>
          if op.prec < max min 1 then done left tokens
          else
            (binary n (op.prec + 1) rest).next fun right rest =>
              match apply op left right with
              | .error e => fail e
              | .ok value => climb n min value rest
      | _ => done left tokens

def unary : Nat → List Tok → Parse
  | 0, _ => none
  | n + 1, tokens =>
      match tokens with
      | .punct (.op .sub) :: rest => (unary n rest).next fun value rest => done (wrap (-value)) rest
      | .punct (.op .add) :: rest => unary n rest
      | .punct .tilde :: rest => (unary n rest).next fun value rest => done (-value - 1) rest
      | .punct .bang :: rest =>
          (unary n rest).next fun value rest => done (truth (value = 0)) rest
      | .punct .lparen :: rest =>
          if startsIdent rest && scope.startsType rest then
            match scope.typeName rest with
            | .error e => fail e
            | .ok (ty, after) =>
                expectPunct .rparen after fun rest =>
                  (unary n rest).next fun value rest => done (cast value ty.kind) rest
          else
            (expression n rest).next fun value after =>
              expectPunct .rparen after fun rest => done value rest
      | .ident name :: rest =>
          if name = sizeofName ∨ alignNames.contains name = true then sizeofType scope name rest
          else primary scope tokens
      | _ => primary scope tokens

end

end

end Zuri.Cdecl
