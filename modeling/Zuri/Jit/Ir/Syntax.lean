import Zuri.Jit.Value

/-!
The optimizing tier's intermediate representation.

A function is a list of blocks over one list of instructions and one list of
values. Each value is a block parameter or the result of an instruction; a
block names its instructions by their position, so a pass that removes one only
takes its name out of a block. Frame states say where the interpreter resumes
and what each live register holds there.
-/

namespace Zuri.Jit.Ir

abbrev ValueId := Nat
abbrev BlockId := Nat
abbrev InstId := Nat

inductive Cmp
  | eq
  | ne
  | lt
  | le
  | gt
  | ge
deriving DecidableEq, Repr

/-- Where compiled code resumes in the interpreter, and what every live
register holds there. `blame` names the check a moved guard belongs to. -/
structure FrameState where
  ip : Nat
  regs : List (Nat × ValueId)
  frame : Nat
  blame : Option (Nat × Nat)
deriving DecidableEq, Repr

/-- The frame and position whose speculation failed when this state is left
through. -/
def FrameState.site (s : FrameState) : Nat × Nat := s.blame.getD (s.frame, s.ip)

/-- A function body in a compiled function: the function running there and
where its register 0 sits. -/
structure InlineFrame where
  proto : Nat
  offset : Nat
deriving DecidableEq, Repr

/-- A class a parameter check names, and the upvalue it was reached through. -/
structure ParamClass where
  bits : Nat
  depth : Nat
  upvalue : Option Nat
deriving DecidableEq, Repr

/-- A slot of the root globals, or of a module's own table. -/
inductive GlobalRef
  | root (slot : Nat)
  | module (table slot : Nat)
deriving DecidableEq, Repr

inductive IntOp
  | add
  | sub
  | mul
deriving DecidableEq, Repr

inductive BitOp
  | and
  | or
  | xor
  | shl
  | shr
  | ushr
deriving DecidableEq, Repr

inductive FUnary
  | sqrt
  | abs
  | floor
  | ceil
  | trunc
  | round
  | sign
  | int
deriving DecidableEq, Repr

inductive FTest
  | isNan
  | isInf
  | isFinite
  | truthy
deriving DecidableEq, Repr

/-- A builtin type predicate; the object tags are those a heap object can have. -/
inductive NativeTest
  | number
  | bool
  | object
  | int
  | tags (tags : List (Fin 17))
deriving DecidableEq, Repr

/-- What a guard checks. -/
inductive GuardKind
  | number
  | int
  | bool
  | list
  | instance_ (cls : Nat)
  | family (cls depth : Nat)
  | whole
  | arith (op : IntOp)
  | tag (tag : Nat)
  | bounds
  | true
  | param (frame check : Nat)
  | proto (bits : Nat)
  | native (code : Nat)
  | elems (whole : Bool)
deriving DecidableEq, Repr

def GuardKind.resultTy : GuardKind → Option Ty
  | number => some .f64
  | int | whole | arith _ => some .i64
  | bool => some .bool
  | list | instance_ _ | family _ _ | tag _ => some .ptr
  | bounds | true | param _ _ | proto _ | native _ | elems _ => none

/-- One operation; its operands are the instruction's. A helper is named by the
address of its name, and the bytecode instruction `generic` runs is the one at
`ip` in `frame`'s function. -/
inductive Op
  | constTagged (bits : BitVec 64)
  | constF64 (x : F64)
  | constI64 (n : BitVec 64)
  | constBool (b : Bool)
  | osrIndex
  | param (reg : Nat)
  | osrParam (reg : Nat)
  | reload (reg : Nat)
  | loadGlobal (global : GlobalRef)
  | methodGeneration
  | storeGlobal (slot : Nat)
  | boxF64
  | boxBool
  | intToF64
  | f64ToI64
  | unboxF64
  | unboxBool
  | objPtr
  | guard (kind : GuardKind)
  | fAdd
  | fSub
  | fMul
  | fDiv
  | fNeg
  | fMod
  | fFloorDiv
  | fCmp (cmp : Cmp)
  | iAdd
  | iSub
  | iMul
  | iCmp (cmp : Cmp)
  | iBit (bit : BitOp)
  | wrapI64
  | unsaturate
  | isFalsey
  | bNot
  | eqConst (x : F64)
  | taggedEq
  | fPow
  | fUnary (op : FUnary)
  | fMax
  | fMin
  | fTest (test : FTest)
  | fCall (helper : Nat)
  | listLen
  | listData
  | loadElem
  | listEnd (last : Bool)
  | listAppend
  | storeElem
  | loadField (slot : Nat)
  | storeField (slot : Nat)
  | strAscii
  | strByteLen
  | strByte
  | asciiChar
  | strLength
  | strOrd
  | wrapIndex
  | getIndex
  | bytesLen
  | bytesLoad
  | bytesStore
  | bytesAppend
  | listGetOr
  | dictGet
  | dictSet
  | dictContains
  | dictLen
  | objLength
  | isBits (bits : BitVec 64)
  | isKind (test : NativeTest)
  | nextKey
  | rangeCount
  | rangeAt
  | moduleMember (table slot : Nat)
  | newInstance (cls fieldCount : Nat)
  | newList (dst start count frame : Nat)
  | storeReg (reg : Nat)
  | upvalCell (n : Nat)
  | loadUpval
  | storeUpval
  | usingTarget (table reg frame : Nat)
  | generic (ip frame : Nat)
  | safepoint
  | unreached
deriving DecidableEq

namespace Op

/-- Whether this operation can allocate, call Zuri code or collect. -/
def mayCollect : Op → Bool
  | generic _ _ | safepoint | newList _ _ _ _ => true
  | _ => false

/-- Whether this operation has an effect beyond producing its result. -/
def hasEffect : Op → Bool
  | guard _ | taggedEq | listAppend | bytesStore | bytesAppend | dictSet
  | newList _ _ _ _ | newInstance _ _ | storeElem | storeField _ | storeGlobal _
  | storeReg _ | upvalCell _ | storeUpval | usingTarget _ _ _ | generic _ _
  | safepoint | unreached => true
  | _ => false

end Op

structure Inst where
  op : Op
  args : List ValueId
  result : Option ValueId
  state : Option FrameState
deriving DecidableEq

inductive Terminator
  | jump (target : BlockId) (args : List ValueId)
  | branch (cond : ValueId) (thenBlock : BlockId) (thenArgs : List ValueId)
      (elseBlock : BlockId) (elseArgs : List ValueId)
  | ret (v : ValueId)
  | deopt (state : FrameState)
  | unset
deriving DecidableEq

namespace Terminator

def successors : Terminator → List BlockId
  | jump target _ => [target]
  | branch _ thenBlock _ elseBlock _ => [thenBlock, elseBlock]
  | _ => []

def uses : Terminator → List ValueId
  | jump _ args => args
  | branch cond _ thenArgs _ elseArgs => cond :: (thenArgs ++ elseArgs)
  | ret v => [v]
  | deopt state => state.regs.map Prod.snd
  | unset => []

/-- The edges out, each with the values it passes. -/
def edges : Terminator → List (BlockId × List ValueId)
  | jump target args => [(target, args)]
  | branch _ thenBlock thenArgs elseBlock elseArgs =>
      [(thenBlock, thenArgs), (elseBlock, elseArgs)]
  | _ => []

end Terminator

/-- `paramRegs` names the register each parameter carries, `fixedRegs` the live
registers that no longer have a parameter, and `ip` the position in `frame`'s
bytecode the block starts at, when it starts one. -/
structure Block where
  params : List ValueId
  paramRegs : List Nat
  fixedRegs : List (Nat × ValueId)
  insts : List InstId
  term : Terminator
  ip : Option Nat
  frame : Nat
deriving DecidableEq

inductive ValueDef
  | inst (i : InstId)
  | param (b : BlockId) (index : Nat)
deriving DecidableEq

structure ValueData where
  ty : Ty
  origin : ValueDef
deriving DecidableEq

structure Func where
  blocks : List Block
  insts : List Inst
  values : List ValueData
  entry : BlockId
  osrEntries : List (Int × BlockId)
  frames : List InlineFrame
  paramClasses : Nat → Nat → List ParamClass

namespace Func

variable (f : Func)

def ty (v : ValueId) : Ty := (f.values.getD v ⟨.tagged, .inst 0⟩).ty

def noBlock : Block := ⟨[], [], [], [], .unset, none, 0⟩

def block (b : BlockId) : Block := f.blocks.getD b noBlock

def noInst : Inst := ⟨.unreached, [], none, none⟩

def inst (i : InstId) : Inst := f.insts.getD i noInst

/-- A block's instructions, in order. -/
def code (b : BlockId) : List Inst := (f.block b).insts.map f.inst

end Func

end Zuri.Jit.Ir
