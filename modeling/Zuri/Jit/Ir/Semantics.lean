import Zuri.Jit.Ir.Syntax
import Zuri.Transition.Follow
import Mathlib.Logic.Function.Basic

/-!
What the IR means.

Memory is split the way the operations touch it, into parts of their own. An object not
yet allocated already holds what a new one of its kind holds, so allocating one
only takes the next name. What the runtime computes elsewhere, the helpers and
the bytecode instructions run through them, is a parameter of the machine. A
block runs as a whole: its instructions in order, then its terminator.
-/

namespace Zuri.Jit.Ir

open Transition (Next)

/-- A list's or byte stream's length, its capacity and its element buffer. -/
structure Header where
  len : Nat
  cap : Nat
  buf : Nat
deriving DecidableEq, Repr

structure RangeObj where
  lower : F64
  upper : F64
  step : F64
deriving DecidableEq, Repr

structure World (Rest : Type) where
  header : Ref → Header
  elems : Nat → BitVec 64 → Value
  bytes : Ref → BitVec 64 → BitVec 8
  fields : Ref → Nat → Value
  globals : GlobalRef → Value
  cells : Nat → Option Ref
  upvals : Ref → Value
  dicts : Ref → List (Value × Value)
  ranges : Ref → RangeObj
  regs : Nat → Value
  generation : BitVec 64
  osr : BitVec 64
  nextRef : Nat
  nextBuf : Nat
  rest : Rest

/-- A type a parameter check accepts. -/
inductive ParamType
  | bool
  | number
  | int
  | named
  | tags (tags : List Nat)
deriving DecidableEq, Repr

structure ParamCheck where
  nullable : Bool
  types : List ParamType
deriving DecidableEq, Repr

/-- How a runtime helper ends: it comes back, or leaves an error raised. -/
inductive Call (Rest : Type)
  | returns (w : World Rest)
  | raises (w : World Rest)

/-- What compiled code calls or finds outside itself. -/
structure Machine where
  Rest : Type
  /-- The value of a constant's bits. -/
  decode : BitVec 64 → Value
  /-- A string's bytes. -/
  text : Ref → List (BitVec 8)
  /-- `ord()` on a string, NaN where it would raise. -/
  ord : List (BitVec 8) → F64
  /-- The one-character string of an ASCII byte. -/
  asciiChar : BitVec 64 → Value
  bigZero : Ref → Bool
  pow : F64 → F64 → F64
  helper : Nat → List F64 → F64
  /-- The class at a depth of another's display. -/
  display : Nat → Nat → Nat
  paramCheck : Nat → Nat → ParamCheck
  sameKey : Value → Value → Bool
  /-- Structural equality, `none` where the left class defines `@eq`. -/
  valuesEqual : World Rest → Ref → Ref → Option Bool
  moduleMember : World Rest → Value → Nat → Nat → Value
  usingTarget : World Rest → Nat → Nat → Value → BitVec 64
  /-- The capacity a full list grows to. -/
  grown : Nat → Nat
  generic : Nat → Nat → World Rest → Call Rest
  safepoint : World Rest → Call Rest

variable (M : Machine)

/-- Whether a double is a whole number once converted and back. -/
def exactInt (x : F64) : Bool := (F64.ofInt x.toInt).eq x

def f64ToI64 (x : F64) : BitVec 64 := BitVec.ofInt 64 x.toInt

def Cmp.onF64 (x y : F64) : Cmp → Bool
  | eq => x.eq y
  | ne => !x.eq y
  | lt => x.lt y
  | le => x.le y
  | gt => y.lt x
  | ge => y.le x

def Cmp.onI64 (x y : BitVec 64) : Cmp → Bool
  | eq => x == y
  | ne => x != y
  | lt => x.slt y
  | le => x.sle y
  | gt => y.slt x
  | ge => y.sle x

def BitOp.apply (x y : BitVec 64) : BitOp → BitVec 64
  | and => x &&& y
  | or => x ||| y
  | xor => x ^^^ y
  | shl => let n := y.toNat % 2 ^ 32; if 64 ≤ n then 0 else x <<< n
  | shr => let n := y.toNat % 2 ^ 32; if 64 ≤ n then 0 else x.sshiftRight n
  | ushr =>
      let n := y.toNat % 2 ^ 32
      if 32 ≤ n then 0 else (x &&& 0xffffffff#64) >>> n

def IntOp.exact (x y : Int) : IntOp → Int
  | add => x + y
  | sub => x - y
  | mul => x * y

/-- Integer arithmetic that gives the interpreter's double exactly. -/
def IntOp.checked (x y : BitVec 64) (op : IntOp) : Option (BitVec 64) :=
  let r := op.exact x.toInt y.toInt
  let minusZero := op = .mul ∧ r = 0 ∧ (x.toInt < 0 ∨ y.toInt < 0)
  if -2 ^ 53 ≤ r ∧ r < 2 ^ 53 ∧ ¬ minusZero then some (BitVec.ofInt 64 r) else none

def FUnary.apply (x : F64) : FUnary → F64
  | sqrt => x.sqrt
  | abs => x.abs
  | floor => x.floor
  | ceil => x.ceil
  | trunc => x.trunc
  | round => ((x.abs.add ((F64.ofInt 1).div (.ofInt 2))).floor).copysign x
  | sign =>
      if x.eq .zero then x else if F64.zero.lt x then .ofInt 1 else .ofInt (-1)
  | int => .ofInt x.toInt

def FTest.apply (x : F64) : FTest → Bool
  | isNan => !x.eq x
  | isInf => x.num = .inf false || x.num = .inf true
  | isFinite => x.eq x && !(x.num = .inf false || x.num = .inf true)
  | truthy => x.lt .zero || F64.zero.lt x

/-- The larger or smaller of two numbers: a NaN gives way to the other, and
`-0` counts as less than `0`. -/
def fPick (max : Bool) (x y : F64) : F64 :=
  if x.isNan then y
  else if y.isNan then x
  else
    let below := x.lt y || (x.eq y && (x == .minusZero || x == y))
    if below == max then y else x

def Value.isWhole : Value → Bool
  | .num x => (x.sub x.trunc).eq .zero
  | _ => false

def Value.hasTag (v : Value) (tags : List Nat) : Bool :=
  match v with
  | .obj r => tags.contains r.kind.tag
  | _ => false

def Value.isNumber : Value → Bool
  | .num _ => true
  | _ => false

def NativeTest.apply (v : Value) : NativeTest → Bool
  | number => Value.isNumber v
  | bool => v = .bool true || v = .bool false
  | object => match v with | .obj _ | .noValue => true | _ => false
  | int => Value.isWhole v
  | tags ts => Value.hasTag v (ts.map Fin.val)

/-- The iteration protocol's next key over `len` positions. -/
def nextKey (prev : Value) (len : BitVec 64) : Value :=
  match prev with
  | .nil => if len = 0 then .nil else .num .zero
  | .num x =>
      let k := f64ToI64 x
      if k.slt (len - 1) && BitVec.sle 0 k then .num (.ofInt (k + 1).toInt) else .nil
  | _ => .noValue

/-- A range's step, 1 standing in for one that is not positive, and how many
values it yields. -/
def RangeObj.shape (r : RangeObj) : F64 × F64 :=
  let step := if F64.zero.lt r.step then r.step else .ofInt 1
  (step, ((r.upper.sub r.lower).abs.div step).ceil)

def RangeObj.at (r : RangeObj) (pos : F64) : Value :=
  let (step, count) := r.shape
  if F64.zero.le pos && pos.lt count then
    let delta := pos.mul step
    .num (if r.lower.le r.upper then r.lower.add delta else r.lower.sub delta)
  else .nil

def codepoints (text : List (BitVec 8)) : Nat :=
  text.countP fun b => b &&& 0xc0#8 != 0x80#8

namespace Op

/-- What an operation that looks at nothing but its operands gives. -/
def compute (args : List Val) (a b : Val) : Op → Option Val
  | constTagged bits => some (.tagged (M.decode bits))
  | constF64 x => some (.f64 x)
  | constI64 n => some (.i64 n)
  | constBool c => some (.bool c)
  | boxF64 => some (.tagged (.num a.asF64))
  | boxBool => some (.tagged (.bool a.asBool))
  | intToF64 => some (.f64 (.ofInt a.asI64.toInt))
  | f64ToI64 => some (.i64 (Ir.f64ToI64 a.asF64))
  | unboxF64 => some (.f64 a.asF64)
  | unboxBool => some (.bool (a.taggedOf = .bool true))
  | objPtr => some (.ptr (.obj a.asRef))
  | fAdd => some (.f64 (a.asF64.add b.asF64))
  | fSub => some (.f64 (a.asF64.sub b.asF64))
  | fMul => some (.f64 (a.asF64.mul b.asF64))
  | fDiv => some (.f64 (a.asF64.div b.asF64))
  | fNeg => some (.f64 a.asF64.neg)
  | fMod => some (.f64 (a.asF64.rem b.asF64))
  | fFloorDiv => some (.f64 (a.asF64.div b.asF64).floor)
  | fCmp c => some (.bool (c.onF64 a.asF64 b.asF64))
  | iAdd => some (.i64 (a.asI64 + b.asI64))
  | iSub => some (.i64 (a.asI64 - b.asI64))
  | iMul => some (.i64 (a.asI64 * b.asI64))
  | iCmp c => some (.bool (c.onI64 a.asI64 b.asI64))
  | iBit bit => some (.i64 (bit.apply a.asI64 b.asI64))
  | wrapI64 => some (.i64 (BitVec.ofInt 64 a.asF64.wrapped))
  | unsaturate =>
      some (.i64 (if a.asI64 = BitVec.intMax 64 then BitVec.intMin 64 else a.asI64))
  | bNot => some (.bool !a.asBool)
  | eqConst x =>
      some (.bool (match a.taggedOf with | .num y => y.eq x | _ => false))
  | fPow => some (.f64 (M.pow a.asF64 b.asF64))
  | fUnary op => some (.f64 (op.apply a.asF64))
  | fMax => some (.f64 (fPick true a.asF64 b.asF64))
  | fMin => some (.f64 (fPick false a.asF64 b.asF64))
  | fTest test => some (.bool (test.apply a.asF64))
  | fCall helper => some (.f64 (M.helper helper (args.map Val.asF64)))
  | strAscii => some (.bool ((M.text a.asRef).all fun c => c < 0x80#8))
  | strByteLen => some (.i64 (BitVec.ofNat 64 (M.text a.asRef).length))
  | strByte => some (.i64 (((M.text a.asRef).getD b.asI64.toNat 0#8).zeroExtend 64))
  | asciiChar => some (.tagged (M.asciiChar a.asI64))
  | strLength => some (.i64 (BitVec.ofNat 64 (codepoints (M.text a.asRef))))
  | strOrd => some (.f64 (M.ord (M.text a.asRef)))
  | wrapIndex =>
      some (.i64 (if a.asI64.slt 0 then a.asI64 + b.asI64 else a.asI64))
  | getIndex =>
      some (.i64 (if F64.zero.le a.asF64 then Ir.f64ToI64 a.asF64 else BitVec.ofInt 64 (-1)))
  | isBits bits => some (.bool (a.taggedOf = M.decode bits))
  | isKind test => some (.bool (test.apply a.taggedOf))
  | nextKey => some (.tagged (Ir.nextKey a.taggedOf b.asI64))
  | _ => none

variable {M}

/-- `length()` on whatever a value turns out to be, -1 where it has none. -/
def lengthOf (w : World M.Rest) (v : Value) : BitVec 64 :=
  match v with
  | .obj r =>
      match r.kind with
      | .list | .bytes => BitVec.ofNat 64 (w.header r).len
      | .str => BitVec.ofNat 64 (codepoints (M.text r))
      | .dict => BitVec.ofNat 64 (w.dicts r).length
      | _ => BitVec.ofInt 64 (-1)
  | _ => BitVec.ofInt 64 (-1)

/-- Zuri truthiness, true when the value is falsey. -/
def falsey (w : World M.Rest) : Value → Bool
  | .nil => true
  | .bool b => !b
  | .num x => x.isNan || x.eq .zero
  | .obj r =>
      match r.kind with
      | .str => (M.text r).isEmpty
      | .bytes => (w.header r).len = 0
      | .bigint => M.bigZero r
      | _ => false
  | _ => false

/-- A value's entry in a dict. -/
def dictFind (dict : List (Value × Value)) (key : Value) : Option Value :=
  (dict.find? fun e => M.sameKey e.1 key).map Prod.snd

/-- What an operation that reads memory and changes nothing gives. -/
def load (w : World M.Rest) (a b c : Val) : Op → Option Val
  | osrIndex => some (.i64 w.osr)
  | param r | osrParam r | reload r => some (.tagged (w.regs r))
  | loadGlobal g => some (.tagged (w.globals g))
  | methodGeneration => some (.i64 w.generation)
  | isFalsey => some (.bool (falsey w a.taggedOf))
  | listLen => some (.i64 (BitVec.ofNat 64 (w.header a.asRef).len))
  | listData => some (.ptr (.buf (w.header a.asRef).buf))
  | loadElem => some (.tagged (w.elems a.asBuf b.asI64))
  | listEnd last =>
      let h := w.header a.asRef
      some (.tagged (if h.len = 0 then .nil
        else w.elems h.buf (if last then BitVec.ofNat 64 (h.len - 1) else 0)))
  | loadField slot => some (.tagged (w.fields a.asRef slot))
  | bytesLen => some (.i64 (BitVec.ofNat 64 (w.header a.asRef).len))
  | bytesLoad => some (.i64 ((w.bytes a.asRef b.asI64).zeroExtend 64))
  | listGetOr =>
      let h := w.header a.asRef
      some (if b.asI64.toNat < h.len then .tagged (w.elems h.buf b.asI64)
        else .tagged c.taggedOf)
  | dictGet =>
      some (.tagged ((dictFind (M := M) (w.dicts a.asRef) b.taggedOf).getD c.taggedOf))
  | dictContains =>
      some (.bool (dictFind (M := M) (w.dicts a.asRef) b.taggedOf).isSome)
  | dictLen => some (.i64 (BitVec.ofNat 64 (w.dicts a.asRef).length))
  | objLength => some (.i64 (lengthOf w a.taggedOf))
  | rangeCount => some (.i64 (Ir.f64ToI64 (w.ranges a.asRef).shape.2))
  | rangeAt => some (.tagged ((w.ranges a.asRef).at b.asF64))
  | moduleMember table slot => some (.tagged (M.moduleMember w a.taggedOf table slot))
  | loadUpval => some (.tagged (w.upvals a.asRef))
  | _ => none

end Op

variable {M}

/-- Whether a value is an instance of a class or of one descending from it. -/
def inFamily (cls depth : Nat) : Value → Bool
  | .obj r => match r.kind with | .instance_ c => M.display c depth = cls | _ => false
  | _ => false

/-- One type of a parameter check, with the classes it still has to name. -/
def ParamType.accepts (w : World M.Rest) (v : Value) (classes : List ParamClass) :
    ParamType → Option (Bool × List ParamClass)
  | bool => some (v = .bool true || v = .bool false, classes)
  | number => some (Value.isNumber v, classes)
  | int => some (Value.isWhole v, classes)
  | tags ts => some (Value.hasTag v ts, classes)
  | named =>
      match classes with
      | [] => none
      | c :: rest =>
          match c.upvalue with
          | none => some (inFamily (M := M) c.bits c.depth v, rest)
          | some n =>
              -- The cell is read, and may send the check back, whatever the value.
              (w.cells n).map fun cell =>
                (inFamily (M := M) c.bits c.depth v &&
                  w.upvals cell = M.decode (BitVec.ofNat 64 c.bits), rest)

/-- Whether a value passes a parameter check; every type is tested. -/
def paramAccepts (w : World M.Rest) (v : Value) :
    List ParamType → List ParamClass → Option Bool
  | [], _ => some false
  | t :: ts, classes => do
      let (ok, classes) ← t.accepts w v classes
      let more ← paramAccepts w v ts classes
      pure (ok || more)

/-- Whether a double is a whole number of sixty-four bits; `2^63` is not. -/
def wholeInI64 (x : F64) : Bool :=
  (x.sub x.trunc).eq .zero && (F64.ofInt (-2 ^ 63)).le x && x.lt (.ofInt (2 ^ 63))

/-- Whether every element of a list is a number, or a whole one. -/
def elemsAre (w : World M.Rest) (whole : Bool) (list : Ref) : Bool :=
  let h := w.header list
  (List.range h.len).all fun i =>
    match w.elems h.buf (BitVec.ofNat 64 i) with
    | .num x => !whole || wholeInI64 x
    | _ => false

def numberOf : Val → Option F64
  | .f64 x => some x
  | .tagged (.num x) => some x
  | _ => none

/-- A guard: `none` when it fails, else what it produces, if anything. -/
def GuardKind.check (f : Func) (w : World M.Rest) (a b : Val) :
    GuardKind → Option (Option Val)
  | number => (numberOf a).map fun x => some (.f64 x)
  | int => do
      let x ← numberOf a
      if exactInt x then some (some (.i64 (f64ToI64 x))) else none
  | whole => do
      let x ← numberOf a
      if exactInt x && x != .minusZero then some (some (.i64 (f64ToI64 x))) else none
  | bool =>
      match a.taggedOf with
      | .bool c => some (some (.bool c))
      | _ => none
  | list => if Value.hasTag a.taggedOf [Kind.list.tag] then some (some (.ptr (.obj a.asRef))) else none
  | tag t => if Value.hasTag a.taggedOf [t] then some (some (.ptr (.obj a.asRef))) else none
  | instance_ cls =>
      match a.taggedOf with
      | .obj r => if r.kind = .instance_ cls then some (some (.ptr (.obj r))) else none
      | _ => none
  | family cls depth =>
      if inFamily (M := M) cls depth a.taggedOf then some (some (.ptr (.obj a.asRef))) else none
  | arith op => (op.checked a.asI64 b.asI64).map fun r => some (.i64 r)
  | bounds => if a.asI64.ult b.asI64 then some none else none
  | true => if a.asBool then some none else none
  | param frame n =>
      let check := M.paramCheck (f.frames.getD frame ⟨0, 0⟩).proto n
      match paramAccepts w a.taggedOf check.types (f.paramClasses frame n) with
      | some ok => if ok || (check.nullable && a.taggedOf = .nil) then some none else none
      | none => none
  | proto bits =>
      match a.taggedOf with
      | .obj r => if r.kind = .closure bits then some none else none
      | _ => none
  | native code =>
      match a.taggedOf with
      | .obj r => if r.kind = .native code then some none else none
      | _ => none
  | elems ints => if elemsAre w ints a.asRef then some none else none

namespace World

variable {Rest : Type} (w : World Rest)

def setHeader (r : Ref) (h : Header) : World Rest :=
  { w with header := Function.update w.header r h }

def setElem (buf : Nat) (i : BitVec 64) (v : Value) : World Rest :=
  { w with elems := Function.update w.elems buf (Function.update (w.elems buf) i v) }

def setByte (r : Ref) (i : BitVec 64) (b : BitVec 8) : World Rest :=
  { w with bytes := Function.update w.bytes r (Function.update (w.bytes r) i b) }

def setField (r : Ref) (slot : Nat) (v : Value) : World Rest :=
  { w with fields := Function.update w.fields r (Function.update (w.fields r) slot v) }

def setGlobal (g : GlobalRef) (v : Value) : World Rest :=
  { w with globals := Function.update w.globals g v }

def setUpval (r : Ref) (v : Value) : World Rest :=
  { w with upvals := Function.update w.upvals r v }

def setDict (r : Ref) (d : List (Value × Value)) : World Rest :=
  { w with dicts := Function.update w.dicts r d }

def setReg (r : Nat) (v : Value) : World Rest :=
  { w with regs := Function.update w.regs r v }

/-- Writes registers out to the register file. -/
def flush (regs : List (Nat × Value)) : World Rest :=
  regs.foldl (fun w e => w.setReg e.1 e.2) w

/-- Adds to the end of a list, in a larger buffer when the list is full. -/
def listAppend (grown : Nat → Nat) (r : Ref) (v : Value) : World Rest :=
  let h := w.header r
  let i := BitVec.ofNat 64 h.len
  if h.len < h.cap then (w.setElem h.buf i v).setHeader r { h with len := h.len + 1 }
  else
    let moved := { w with
      elems := Function.update w.elems w.nextBuf (w.elems h.buf)
      nextBuf := w.nextBuf + 1 }
    (moved.setElem w.nextBuf i v).setHeader r ⟨h.len + 1, grown h.cap, w.nextBuf⟩

def bytesAppend (r : Ref) (b : BitVec 8) : World Rest :=
  let h := w.header r
  (w.setByte r (BitVec.ofNat 64 h.len) b).setHeader r { h with len := h.len + 1 }

/-- A new list of the given elements, with its name. -/
def newList (items : List Value) : Ref × World Rest :=
  let r : Ref := ⟨.list, w.nextRef⟩
  (r, { w with
    header := Function.update w.header r ⟨items.length, items.length, w.nextBuf⟩
    elems := Function.update w.elems w.nextBuf fun i => items.getD i.toNat .nil
    nextRef := w.nextRef + 1
    nextBuf := w.nextBuf + 1 })

end World

/-- How one operation goes: on with a result and the memory it leaves, out
through its frame state, or out with an error raised. -/
inductive Answer (Rest : Type)
  | next (result : Option Val) (w : World Rest)
  | leave
  | raise (w : World Rest)

def Call.answer {Rest : Type} : Call Rest → Answer Rest
  | returns w => .next none w
  | raises w => .raise w

/-- An operation that changes memory; `regs` is what its frame state writes
out. -/
def Op.store (f : Func) (w : World M.Rest) (regs : List (Nat × Value)) (args : List Val)
    (a b c d : Val) : Op → Answer M.Rest
  | storeGlobal slot => .next none (w.setGlobal (.root slot) a.taggedOf)
  | listAppend => .next none (w.listAppend M.grown a.asRef b.taggedOf)
  | storeElem => .next none (w.setElem b.asBuf c.asI64 d.taggedOf)
  | storeField slot => .next none (w.setField a.asRef slot b.taggedOf)
  | bytesStore => .next none (w.setByte a.asRef b.asI64 (c.asI64.truncate 8))
  | bytesAppend => .next none (w.bytesAppend a.asRef (b.asI64.truncate 8))
  | dictSet =>
      let old := w.dicts a.asRef
      let key := b.taggedOf
      let new := if (dictFind (M := M) old key).isSome
        then old.map fun e => if M.sameKey e.1 key then (e.1, c.taggedOf) else e
        else old ++ [(key, c.taggedOf)]
      .next none (w.setDict a.asRef new)
  | newInstance cls _ =>
      .next (some (.tagged (.obj ⟨.instance_ cls, w.nextRef⟩))) { w with nextRef := w.nextRef + 1 }
  | newList dst _ _ frame =>
      let (r, w) := (w.flush regs).newList (args.map Val.taggedOf)
      let offset := (f.frames.getD frame ⟨0, 0⟩).offset
      .next (some (.tagged (.obj r))) (w.setReg (offset + dst) (.obj r))
  | storeReg r => .next none (w.setReg r a.taggedOf)
  | storeUpval => .next none (w.setUpval a.asRef b.taggedOf)
  | usingTarget table reg frame =>
      let w := w.setReg reg a.taggedOf
      let proto := (f.frames.getD frame ⟨0, 0⟩).proto
      .next (some (.i64 (M.usingTarget w proto table a.taggedOf))) w
  | generic ip frame => (M.generic ip frame (w.flush regs)).answer
  | safepoint => (M.safepoint (w.flush regs)).answer
  | _ => .next none w

/-- One operation on its operands. -/
def Op.eval (f : Func) (w : World M.Rest) (regs : List (Nat × Value)) (args : List Val)
    (op : Op) : Answer M.Rest :=
  let a := args.getD 0 (.bool false)
  let b := args.getD 1 (.bool false)
  let c := args.getD 2 (.bool false)
  let d := args.getD 3 (.bool false)
  match op.compute M args a b with
  | some v => .next (some v) w
  | none =>
      match op.load w a b c with
      | some v => .next (some v) w
      | none =>
          match op with
          | guard kind =>
              match kind.check f w a b with
              | some r => .next r w
              | none => .leave
          | taggedEq =>
              match a.taggedOf, b.taggedOf with
              | .num x, .num y => .next (some (.bool (x.eq y))) w
              | .obj x, .obj y =>
                  match M.valuesEqual w x y with
                  | some same => .next (some (.bool same)) w
                  | none => .leave
              | x, y => .next (some (.bool (x = y))) w
          | upvalCell n =>
              match w.cells n with
              | some cell => .next (some (.ptr (.obj cell))) w
              | none => .leave
          | op => op.store f w regs args a b c d

section

variable (f : Func) (w : World M.Rest) (regs : List (Nat × Value)) (args : List Val)

theorem Op.eval_guard (kind : GuardKind) : (guard kind).eval f w regs args =
    match kind.check f w (args.getD 0 (.bool false)) (args.getD 1 (.bool false)) with
    | some r => .next r w
    | none => .leave := rfl

theorem Op.eval_upvalCell (n : Nat) : (upvalCell n).eval f w regs args =
    match w.cells n with
    | some cell => .next (some (.ptr (.obj cell))) w
    | none => .leave := rfl

end

/-- What a run does that can be seen: the way each branch goes, and each
operation with an effect, with its operands and the registers it writes out. -/
inductive Event
  | branch (taken : Bool)
  | effect (op : Op) (args : List Val) (regs : List (Nat × Value))

/-- Operations a run is seen to make. A check that passes is not. -/
def Op.visible : Op → Bool
  | guard _ | taggedEq | upvalCell _ | unreached => false
  | op => op.hasEffect

/-- Why compiled code was left, where the runtime is told. -/
inductive Note
  | plain
  | intMiss
  | unreached
deriving DecidableEq, Repr

/-- How a run ends. `stuck` is code that could not have been lowered. -/
inductive Outcome (Rest : Type)
  | returned (v : Value) (w : World Rest)
  | deopt (frame ip : Nat) (regs : List (Nat × Value)) (site : Nat × Nat) (note : Note)
      (w : World Rest)
  | raised (w : World Rest)
  | stuck

/-- What each value is at a moment of a run. -/
abbrev Env := ValueId → Val

def Env.regs (env : Env) (regs : List (Nat × ValueId)) : List (Nat × Value) :=
  regs.map fun e => (e.1, (env e.2).taggedOf)

def Env.define (env : Env) (result : Option ValueId) (v : Option Val) : Env :=
  match result, v with
  | some r, some v => Function.update env r v
  | _, _ => env

/-- The values a block is entered with, all at once. -/
def Env.enter (env : Env) (params : List ValueId) (args : List Val) : Env :=
  (params.zip args).foldl (fun env e => Function.update env e.1 e.2) env

def leaveThrough {Rest : Type} (env : Env) (w : World Rest) (note : Note) (s : FrameState) :
    Outcome Rest :=
  .deopt s.frame s.ip (env.regs s.regs) s.site note w

def GuardKind.note : GuardKind → Note
  | whole | arith _ => .intMiss
  | _ => .plain

def Op.note : Op → Note
  | guard kind => kind.note
  | _ => .plain

def Inst.regs (inst : Inst) (env : Env) : List (Nat × Value) :=
  env.regs ((inst.state.map FrameState.regs).getD [])

def Inst.run (f : Func) (inst : Inst) (env : Env) (w : World M.Rest) :
    List Event × Next (Env × World M.Rest) (Outcome M.Rest) :=
  let args := inst.args.map env
  let regs := inst.regs env
  let seen := if inst.op.visible then [Event.effect inst.op args regs] else []
  match inst.op.eval f w regs args with
  | .next v w => (seen, .on (env.define inst.result v, w))
  | .leave =>
      match inst.state with
      | some s => ([], .done (leaveThrough env w inst.op.note s))
      | none => ([], .done .stuck)
  | .raise w => (seen, .done (.raised w))

def runInsts (f : Func) : List Inst → Env → World M.Rest →
    List Event × Next (Env × World M.Rest) (Outcome M.Rest)
  | [], env, w => ([], .on (env, w))
  | inst :: rest, env, w =>
      match inst.run f env w with
      | (seen, .done o) => (seen, .done o)
      | (seen, .on (env, w)) =>
          let (more, next) := runInsts f rest env w
          (seen ++ more, next)

/-- Where a run stands between two blocks. -/
structure State (Rest : Type) where
  block : BlockId
  env : Env
  world : World Rest

def Terminator.run (f : Func) (code : List Inst) (env : Env) (w : World M.Rest) :
    Terminator → List Event × Next (State M.Rest) (Outcome M.Rest)
  | jump target args =>
      ([], .on ⟨target, env.enter (f.block target).params (args.map env), w⟩)
  | branch cond thenBlock thenArgs elseBlock elseArgs =>
      let taken := (env cond).asBool
      let (target, args) := if taken then (thenBlock, thenArgs) else (elseBlock, elseArgs)
      ([.branch taken], .on ⟨target, env.enter (f.block target).params (args.map env), w⟩)
  | ret v => ([], .done (.returned (env v).taggedOf w))
  | deopt s =>
      let note := if code.any (fun i => i.op = .unreached) then .unreached else .plain
      ([], .done (leaveThrough env w note s))
  | unset => ([], .done .stuck)

/-- One block, from its entry to the entry of the next. -/
def Func.step (f : Func) (s : State M.Rest) :
    List Event × Next (State M.Rest) (Outcome M.Rest) :=
  match runInsts f (f.code s.block) s.env s.world with
  | (seen, .done o) => (seen, .done o)
  | (seen, .on (env, w)) =>
      let (more, next) := (f.block s.block).term.run f (f.code s.block) env w
      (seen ++ more, next)

/-- What a register of a type holds before anything is put there. -/
def initialOf : Ty → Val
  | .tagged => .tagged .nil
  | .f64 => .f64 .zero
  | .i64 => .i64 0
  | .bool => .bool false
  | .ptr => .ptr (.obj ⟨.ptr, 0⟩)

/-- Where a run of the function begins. -/
def Func.start (f : Func) (w : World M.Rest) : State M.Rest :=
  ⟨f.entry, fun v => initialOf (f.ty v), w⟩

/-- A machine around code that calls nothing. -/
def Machine.bare : Machine where
  Rest := Unit
  decode _ := .nil
  text _ := []
  ord _ := .zero
  asciiChar _ := .nil
  bigZero _ := false
  pow x _ := x
  helper _ _ := .zero
  display _ _ := 0
  paramCheck _ _ := ⟨false, []⟩
  sameKey a b := a = b
  valuesEqual _ a b := some (a = b)
  moduleMember _ _ _ _ := .nil
  usingTarget _ _ _ _ := 0
  grown n := 2 * n + 1
  generic _ _ w := .returns w
  safepoint w := .returns w

/-- Memory with nothing in it. -/
def World.bare : World Machine.bare.Rest where
  header _ := ⟨0, 0, 0⟩
  elems _ _ := .nil
  bytes _ _ := 0
  fields _ _ := .nil
  globals _ := .nil
  cells _ := none
  upvals _ := .nil
  dicts _ := []
  ranges _ := ⟨.zero, .zero, .zero⟩
  regs _ := .nil
  generation := 0
  osr := 0
  nextRef := 0
  nextBuf := 1
  rest := ()

/-- Whether a run has returned, and what. -/
def Outcome.value {Rest : Type} : Outcome Rest → Option Value
  | returned v _ => some v
  | _ => none

end Zuri.Jit.Ir
