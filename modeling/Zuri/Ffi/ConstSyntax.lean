import Zuri.Ffi.ConstNumber

/-!
The syntax of C's constant expressions, the tokens that each is written with, and what the reader
makes of each. The reader gives that value for the tokens whatever follows them.
-/

namespace Zuri.Cdecl

/-- A type name: its tokens, and the type. -/
structure TypeName where
  tokens : List Tok
  type : CType

inductive Unary where
  | neg | plus | compl | not

def Unary.punct : Unary → Punct
  | .neg => .op .sub
  | .plus => .op .add
  | .compl => .tilde
  | .not => .bang

def Unary.apply (u : Unary) (value : Int) : Int :=
  match u with
  | .neg => wrap (-value)
  | .plus => value
  | .compl => -value - 1
  | .not => truth (value = 0)

inductive Expr where
  | lit (l : Literal)
  | chr (c : CharConst)
  | name (n : Text)
  | size (keyword : Text) (type : TypeName)
  | sizeOf (e : Expr)
  | cast (type : TypeName) (e : Expr)
  | unary (u : Unary) (e : Expr)
  | binary (op : Op) (left right : Expr)
  | cond (condition yes no : Expr)
  | comma (first second : Expr)
  | paren (e : Expr)

abbrev lparen : Tok := .punct .lparen

abbrev rparen : Tok := .punct .rparen

def Expr.tokens : Expr → List Tok
  | .lit l => [.int (wrap l.value) l.unsigned]
  | .chr c => (charConstant c.text).toList.map .char
  | .name n => [.ident n]
  | .size keyword type => .ident keyword :: lparen :: (type.tokens ++ [rparen])
  | .sizeOf e => .ident sizeofName :: e.tokens
  | .cast type e => lparen :: (type.tokens ++ rparen :: e.tokens)
  | .unary u e => .punct u.punct :: e.tokens
  | .binary op left right => left.tokens ++ .punct (.op op) :: right.tokens
  | .cond condition yes no =>
      condition.tokens ++ .punct .question :: (yes.tokens ++ .punct .colon :: no.tokens)
  | .comma first second => first.tokens ++ .punct .comma :: second.tokens
  | .paren e => lparen :: (e.tokens ++ [rparen])

/-- How tightly an expression binds. -/
def Expr.level : Expr → Nat
  | .comma _ _ => 0
  | .cond _ _ _ => 1
  | .binary op _ _ => op.prec + 1
  | _ => 12

def nameValue (scope : Scope) (n : Text) : Option Int :=
  if n = "true".toList then some 1
  else if n = "false".toList then some 0
  else scope.constant n

/-- A name that is an operand, and not `sizeof`, a name of alignment or the start of a type. -/
structure Operand (scope : Scope) (n : Text) : Prop where
  notType : ∀ rest, scope.startsType (.ident n :: rest) = false
  notKeyword : ¬ (n = sizeofName ∨ alignNames.contains n = true)

/-- A type name is read as its type, before a closing parenthesis. -/
structure Reads (scope : Scope) (type : TypeName) : Prop where
  ident : ∀ rest, startsIdent (type.tokens ++ rest) = true
  starts : ∀ rest, scope.startsType (type.tokens ++ rparen :: rest) = true
  name : ∀ rest, scope.typeName (type.tokens ++ rparen :: rest) = .ok (type.type, rparen :: rest)

/-- An expression is written as the grammar of C has it, operands within operators that bind less
tightly. -/
def Expr.Written (scope : Scope) : Expr → Prop
  | .lit _ => True
  | .chr c => (charConstant c.text).isSome = true
  | .name n => Operand scope n
  | .size keyword type => (keyword = sizeofName ∨ alignNames.contains keyword = true) ∧
      (∀ rest, scope.startsType (.ident keyword :: rest) = false) ∧ Reads scope type
  | .sizeOf e => (∀ rest, scope.startsType (.ident sizeofName :: rest) = false) ∧ e.level = 12 ∧
      e.Written scope
  | .cast type e => Reads scope type ∧ e.level = 12 ∧ e.Written scope
  | .unary _ e => e.level = 12 ∧ e.Written scope
  | .binary op left right => (op.prec + 1 ≤ left.level ∧ op.prec + 2 ≤ right.level) ∧
      left.Written scope ∧ right.Written scope
  | .cond condition yes no => (2 ≤ condition.level ∧ 1 ≤ no.level) ∧
      condition.Written scope ∧ yes.Written scope ∧ no.Written scope
  | .comma first second => 1 ≤ second.level ∧ first.Written scope ∧ second.Written scope
  | .paren e => e.Written scope

/-- What the reader makes of an expression, every operand evaluated. It knows no size but that of a
type name. -/
def Expr.value (scope : Scope) : Expr → Option Int
  | .lit l => some (wrap l.value)
  | .chr c => charConstant c.text
  | .name n => nameValue scope n
  | .size keyword type =>
      (if keyword = sizeofName then type.type.size else type.type.align).map
        fun n : Nat => (n : Int)
  | .sizeOf _ => none
  | .cast type e => (e.value scope).map fun value => Cdecl.cast value type.type.kind
  | .unary u e => (e.value scope).map u.apply
  | .binary op left right =>
      match left.value scope, right.value scope with
      | some l, some r => (apply op l r).toOption
      | _, _ => none
  | .cond condition yes no =>
      match condition.value scope, yes.value scope, no.value scope with
      | some c, some y, some n => some (if c ≠ 0 then y else n)
      | _, _, _ => none
  | .comma first second =>
      match first.value scope, second.value scope with
      | some _, some v => some v
      | _, _ => none
  | .paren e => e.value scope

/-- Whatever the fuel, if it is enough, a reader ends so. -/
def Ends (f : Nat → Parse) (result : Parse) : Prop := ∃ enough, ∀ n, enough ≤ n → f n = result

theorem Ends.succ {f g : Nat → Parse} {before result : Parse} (h : Ends f before)
    (hstep : ∀ n, f n = before → g (n + 1) = result) : Ends g result := by
  obtain ⟨enough, hends⟩ := h
  refine ⟨enough + 1, fun n hn => ?_⟩
  obtain ⟨m, rfl⟩ : ∃ m, n = m + 1 := ⟨n - 1, by omega⟩
  exact hstep m (hends m (by omega))

/-- A reader that goes on after another ends as it does. -/
theorem Ends.then {f : Nat → Parse} {g h : Nat → Parse} {value : Int} {rest : List Tok}
    {result : Parse} (hf : Ends f (done value rest)) (hg : Ends g result)
    (hstep : ∀ n, f n = done value rest → g n = result → h (n + 1) = result) : Ends h result := by
  obtain ⟨a, ha⟩ := hf
  obtain ⟨b, hb⟩ := hg
  refine ⟨max a b + 1, fun n hn => ?_⟩
  obtain ⟨m, rfl⟩ : ∃ m, n = m + 1 := ⟨n - 1, by omega⟩
  exact hstep m (ha m (by omega)) (hb m (by omega))

theorem Ends.unique {f : Nat → Parse} {first second : Parse} (hf : Ends f first)
    (hs : Ends f second) : first = second := by
  obtain ⟨a, ha⟩ := hf
  obtain ⟨b, hb⟩ := hs
  exact (ha (max a b) (le_max_left a b)).symm.trans (hb (max a b) (le_max_right a b))

theorem Ends.const {f : Nat → Parse} {result : Parse} (h : ∀ n, f (n + 1) = result) :
    Ends f result := by
  refine ⟨1, fun n hn => ?_⟩
  obtain ⟨m, rfl⟩ : ∃ m, n = m + 1 := ⟨n - 1, by omega⟩
  exact h m

variable {scope : Scope} {value : Int} {tokens rest : List Tok} {result : Parse} {min : Nat}

theorem next_done (f : Int → List Tok → Parse) : (done value rest).next f = f value rest := rfl

theorem binary_ends (hunary : Ends (unary scope · tokens) (done value rest))
    (hclimb : Ends (climb scope · min value rest) result) :
    Ends (binary scope · min tokens) result :=
  hunary.then hclimb fun n hu hc => by rw [binary, hu, next_done, hc]

/-- No operator at the head of the tokens binds as tightly as `min`. -/
def Below (min : Nat) (tokens : List Tok) : Prop :=
  ∀ op rest, tokens = .punct (.op op) :: rest → op.prec < min

theorem climb_stop (hbelow : Below (max min 1) rest) :
    Ends (climb scope · min value rest) (done value rest) := by
  refine .const fun n => ?_
  by_cases hop : ∃ op after, rest = .punct (.op op) :: after
  · obtain ⟨op, after, rfl⟩ := hop
    rw [climb, if_pos (hbelow op after rfl)]
  · rw [climb]
    exact fun op after heq => hop ⟨op, after, heq⟩

theorem climb_goes {op : Op} {left right : Int} (hmin : max min 1 ≤ op.prec)
    (hright : Ends (binary scope · (op.prec + 1) tokens) (done right rest))
    (happly : apply op left right = .ok value)
    (hclimb : Ends (climb scope · min value rest) result) :
    Ends (climb scope · min left (.punct (.op op) :: tokens)) result :=
  hright.then hclimb fun n hr hc => by
    rw [climb]
    simp only [if_neg (Nat.not_lt.2 hmin), hr, next_done, happly, hc]

/-- The head of the tokens does not go on with an operator or a `?`. -/
structure Closed (tokens : List Tok) : Prop where
  op : ∀ op rest, tokens ≠ .punct (.op op) :: rest
  question : ∀ rest, tokens ≠ .punct .question :: rest

theorem Closed.below (h : Closed tokens) (min : Nat) : Below min tokens :=
  fun op rest heq => absurd heq (h.op op rest)

theorem conditional_ends (hbinary : Ends (binary scope · 0 tokens) (done value rest))
    (hclosed : Closed rest) : Ends (conditional scope · tokens) (done value rest) :=
  hbinary.succ fun n h => by
    rw [conditional, h, next_done]
    split
    · next after => exact absurd rfl (hclosed.question after)
    · rfl

theorem commas_stop (hcomma : ∀ after, rest ≠ .punct .comma :: after) :
    Ends (commas scope · value rest) (done value rest) := by
  refine .const fun n => ?_
  rw [commas]
  exact hcomma

theorem expression_ends (hconditional : Ends (conditional scope · tokens) (done value rest))
    (hcommas : Ends (commas scope · value rest) result) :
    Ends (expression scope · tokens) result :=
  hconditional.then hcommas fun n hc hr => by rw [expression, hc, next_done, hr]

theorem commas_goes {first : Int}
    (hconditional : Ends (conditional scope · tokens) (done value rest))
    (hcommas : Ends (commas scope · value rest) result) :
    Ends (commas scope · first (.punct .comma :: tokens)) result :=
  hconditional.then hcommas fun n hc hr => by
    rw [commas]
    simp only [hc, next_done, hr]

end Zuri.Cdecl
