import Zuri.Jit.Ir.Edit

/-!
Global value numbering over the dominator tree.

A walk of the dominator tree keeps a table from what an operation does and the
values it does it to, to the value it gave. Reads from memory carry the version
of what they read in their key, and a block keeps its dominator's versions only
when the dominator is the one way into it. Checks and a few reads carry no
version at all.
-/

namespace Zuri.Jit.Ir.Gvn

/-- The alias classes memory reads are versioned by. -/
structure Versions where
  header : Nat
  elems : Nat
  fields : Nat
  globals : Nat
  cells : Nat
  upvals : Nat
  dicts : Nat
deriving DecidableEq, Repr

/-- What a key without a version says an operation is. -/
inductive Name
  | constTagged
  | constF64
  | constI64
  | constBool
  | boxF64
  | boxBool
  | intToF64
  | f64ToI64
  | unboxF64
  | unboxBool
  | objPtr
  | fAdd
  | fSub
  | fMul
  | fDiv
  | fNeg
  | fMod
  | fFloorDiv
  | fCmp
  | iAdd
  | iSub
  | iMul
  | iBit
  | wrapI64
  | unsaturate
  | iCmp
  | isFalsey
  | bNot
  | eqConst
  | fPow
  | fUnary
  | fMax
  | fMin
  | fTest
  | fCall
  | strAscii
  | strByteLen
  | strByte
  | asciiChar
  | strLength
  | strOrd
  | wrapIndex
  | getIndex
  | isBits
  | isKind
  | nextKey
  | rangeCount
  | rangeAt
deriving DecidableEq, Repr

inductive ReadName
  | bytesLen
  | bytesLoad
  | listGetOr
  | dictGet
  | dictContains
  | dictLen
deriving DecidableEq, Repr

inductive HeaderName
  | len
  | data
deriving DecidableEq, Repr

/-- What makes two operations interchangeable, beyond their operands. -/
inductive Key
  | pure (name : Name) (bits : Nat)
  | guard (kind : GuardKind)
  | header (name : HeaderName) (version : Nat)
  | elem (version : Nat)
  | listEnd (last : Bool) (header elems : Nat)
  | field (slot version : Nat)
  | global (ref : GlobalRef) (version : Nat)
  | cell (n version : Nat)
  | upval (version : Nat)
  | read (name : ReadName) (version : Nat)
deriving DecidableEq, Repr

def cmpCode : Cmp → Nat
  | .eq => 0
  | .ne => 1
  | .lt => 2
  | .le => 3
  | .gt => 4
  | .ge => 5

def bitCode : BitOp → Nat
  | .and => 0
  | .or => 1
  | .xor => 2
  | .shl => 3
  | .shr => 4
  | .ushr => 5

def unaryCode : FUnary → Nat
  | .sqrt => 0
  | .abs => 1
  | .floor => 2
  | .ceil => 3
  | .trunc => 4
  | .round => 5
  | .sign => 6
  | .int => 7

def testCode : FTest → Nat
  | .isNan => 0
  | .isInf => 1
  | .isFinite => 2
  | .truthy => 3

/-- One number per builtin type predicate. -/
def nativeKey : NativeTest → Nat
  | .number => 1
  | .bool => 2
  | .object => 3
  | .int => 4
  | .tags ts => ts.foldl (fun key tag => key ||| 1 <<< (16 + tag.val)) 0x100

def keyOf (v : Versions) : Op → Option Key
  | .constTagged bits => some (.pure .constTagged bits.toNat)
  | .constF64 x => some (.pure .constF64 x.bits.toNat)
  | .constI64 n => some (.pure .constI64 n.toNat)
  | .constBool c => some (.pure .constBool c.toNat)
  | .boxF64 => some (.pure .boxF64 0)
  | .boxBool => some (.pure .boxBool 0)
  | .intToF64 => some (.pure .intToF64 0)
  | .f64ToI64 => some (.pure .f64ToI64 0)
  | .unboxF64 => some (.pure .unboxF64 0)
  | .unboxBool => some (.pure .unboxBool 0)
  | .objPtr => some (.pure .objPtr 0)
  | .fAdd => some (.pure .fAdd 0)
  | .fSub => some (.pure .fSub 0)
  | .fMul => some (.pure .fMul 0)
  | .fDiv => some (.pure .fDiv 0)
  | .fNeg => some (.pure .fNeg 0)
  | .fMod => some (.pure .fMod 0)
  | .fFloorDiv => some (.pure .fFloorDiv 0)
  | .fCmp c => some (.pure .fCmp (cmpCode c))
  | .iAdd => some (.pure .iAdd 0)
  | .iSub => some (.pure .iSub 0)
  | .iMul => some (.pure .iMul 0)
  | .iBit bit => some (.pure .iBit (bitCode bit))
  | .wrapI64 => some (.pure .wrapI64 0)
  | .unsaturate => some (.pure .unsaturate 0)
  | .iCmp c => some (.pure .iCmp (cmpCode c))
  | .isFalsey => some (.pure .isFalsey 0)
  | .bNot => some (.pure .bNot 0)
  | .eqConst x => some (.pure .eqConst x.bits.toNat)
  | .fPow => some (.pure .fPow 0)
  | .fUnary u => some (.pure .fUnary (unaryCode u))
  | .fMax => some (.pure .fMax 0)
  | .fMin => some (.pure .fMin 0)
  | .fTest t => some (.pure .fTest (testCode t))
  | .fCall helper => some (.pure .fCall helper)
  | .strAscii => some (.pure .strAscii 0)
  | .strByteLen => some (.pure .strByteLen 0)
  | .strByte => some (.pure .strByte 0)
  | .asciiChar => some (.pure .asciiChar 0)
  | .strLength => some (.pure .strLength 0)
  | .strOrd => some (.pure .strOrd 0)
  | .wrapIndex => some (.pure .wrapIndex 0)
  | .getIndex => some (.pure .getIndex 0)
  | .isBits bits => some (.pure .isBits bits.toNat)
  | .isKind test => some (.pure .isKind (nativeKey test))
  | .nextKey => some (.pure .nextKey 0)
  | .rangeCount => some (.pure .rangeCount 0)
  | .rangeAt => some (.pure .rangeAt 0)
  | .bytesLen => some (.read .bytesLen v.header)
  | .bytesLoad => some (.read .bytesLoad v.elems)
  | .listGetOr => some (.read .listGetOr v.elems)
  | .dictGet => some (.read .dictGet v.dicts)
  | .dictContains => some (.read .dictContains v.dicts)
  | .dictLen => some (.read .dictLen v.dicts)
  | .guard kind => some (.guard kind)
  | .listLen => some (.header .len v.header)
  | .listData => some (.header .data v.header)
  | .loadElem => some (.elem v.elems)
  | .listEnd last => some (.listEnd last v.header v.elems)
  | .loadField slot => some (.field slot v.fields)
  | .loadGlobal ref => some (.global ref v.globals)
  | .upvalCell n => some (.cell n v.cells)
  | .loadUpval => some (.upval v.upvals)
  | _ => none

/-- Versions nothing has been read at, and the counter past them. -/
def fresh (next : Nat) : Versions × Nat :=
  (⟨next, next + 1, next + 2, next + 3, next + 4, next + 5, next + 6⟩, next + 7)

/-- What an operation did and the values it did it to. -/
abbrev Lookup := Key × List ValueId

abbrev Table := List (Lookup × ValueId)

def Table.remove (table : Table) (key : Lookup) : Table :=
  table.filter fun e => e.1 ≠ key

/-- The state of a visit of one block. -/
structure Visit where
  versions : Versions
  table : Table
  replaced : List (ValueId × ValueId)
  next : Nat
  added : List Lookup
  keep : List InstId

namespace Visit

def insert (s : Visit) (key : Lookup) (v : ValueId) : Visit :=
  { s with table := (key, v) :: s.table, added := key :: s.added }

/-- Writes and anything that may run code invalidate what they touch. -/
def write (args : List ValueId) (s : Visit) : Op → Visit
  | .storeElem | .bytesStore =>
      { s with versions.elems := s.next + 1, next := s.next + 1 }
  | .listAppend | .bytesAppend =>
      { s with versions.header := s.next + 1, versions.elems := s.next + 2, next := s.next + 2 }
  | .dictSet => { s with versions.dicts := s.next + 1, next := s.next + 1 }
  | .storeUpval => { s with versions.upvals := s.next + 1, next := s.next + 1 }
  | .storeGlobal slot =>
      s.insert (.global (.root slot) s.versions.globals, []) (args.getD 0 0)
  | .storeField slot =>
      let s := { s with versions.fields := s.next + 1, next := s.next + 1 }
      s.insert (.field slot s.versions.fields, [args.getD 0 0]) (args.getD 1 0)
  | op => if op.mayCollect then { s with versions := (fresh s.next).1, next := (fresh s.next).2 } else s

/-- What a guard without a result is entered as. -/
def placeholder : ValueId := 2 ^ 32 - 1

/-- Looks an operation up, and removes it or enters it. -/
def look (id : InstId) (inst : Inst) (args : List ValueId) (s : Visit) : Visit :=
  match keyOf s.versions inst.op with
  | none => { s with keep := s.keep ++ [id] }
  | some key =>
      match s.table.lookup (key, args) with
      | some earlier =>
          match inst.result with
          | some r => { s with replaced := (r, earlier) :: s.replaced }
          | none => s
      | none =>
          let s := { s with keep := s.keep ++ [id] }
          match inst.result with
          | some r => s.insert (key, args) r
          | none =>
              match inst.op with
              | .guard _ => s.insert (key, args) placeholder
              | _ => s

def step (f : Func) (s : Visit) (id : InstId) : Visit :=
  let inst := f.inst id
  let args := inst.args.map (resolve s.replaced)
  (s.write args inst.op).look id inst args

end Visit

/-- One thing left to do in the walk. -/
inductive Step
  | enter (b : BlockId) (versions : Versions)
  | leave
deriving DecidableEq, Repr

structure Walk where
  func : Func
  work : List Step
  table : Table
  undo : List (List Lookup)
  replaced : List (ValueId × ValueId)
  next : Nat

/-- What the walk reads off the function before it starts. -/
structure Tree where
  order : List BlockId
  idom : List (BlockId × BlockId)
  preds : BlockId → List BlockId

def Tree.of (f : Func) : Tree :=
  let order := f.reversePostorder
  ⟨order, f.dominators order, f.preds⟩

def Tree.children (t : Tree) (b : BlockId) : List BlockId :=
  t.order.filter fun c => t.idom.lookup c = some b

/-- Puts children on the work list, the first of them on top, each with the
versions it starts with. -/
def push (inherit : BlockId → Option Versions) :
    List BlockId → List Step × Nat → List Step × Nat
  | [], acc => acc
  | c :: cs, acc =>
      let (work, next) := push inherit cs acc
      match inherit c with
      | some v => (.enter c v :: work, next)
      | none => (.enter c (fresh next).1 :: work, (fresh next).2)

def Walk.step (t : Tree) (w : Walk) : Step → Walk
  | .leave => { w with
      table := (w.undo.headD []).foldl Table.remove w.table
      undo := w.undo.tail }
  | .enter b versions =>
      let s := ((w.func.block b).insts).foldl (Visit.step w.func)
        ⟨versions, w.table, w.replaced, w.next, [], []⟩
      let inherit := fun c => if t.preds c = [b] then some s.versions else none
      let (work, next) := push inherit (t.children b) (.leave :: w.work, s.next)
      ⟨w.func.setInsts b s.keep, work, s.table, s.added :: w.undo, s.replaced, next⟩

def walk (t : Tree) : Nat → Walk → Option Walk
  | 0, _ => none
  | fuel + 1, w =>
      match w.work with
      | [] => some w
      | s :: rest => walk t fuel (({ w with work := rest }).step t s)

def start (f : Func) : Walk :=
  let t := Tree.of f
  let (work, next) := push (fun _ => none) (t.children f.blocks.length) ([], 1)
  ⟨f, work, [], [], [], next⟩

def run (f : Func) : Option Func :=
  (walk (Tree.of f) (2 * f.blocks.length + 1) (start f)).map fun w =>
    w.func.replaceAll w.replaced

end Zuri.Jit.Ir.Gvn
