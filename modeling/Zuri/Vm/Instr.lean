import Mathlib.Data.List.Basic
import Mathlib.Data.Set.Basic
import Mathlib.Logic.Function.Basic
import Zuri.Compiler.Using

/-!
The instructions of the register machine, with what is computed from the same registers as an
operand, and one frame that runs them: its registers, the instruction it is at and the `catch`
handlers it has registered. What a machine computes is a parameter; of it there is known which
registers it reads and writes and when it raises. A call is one instruction of its frame.
-/

namespace Zuri.Vm

open Zuri.Compiler.Using (JumpKey)

inductive Binary where
  | Add | Sub | Mul | Div | Pow | Floor | Mod | Concat
  | BitAnd | BitOr | BitXor | BitShl | BitShr | BitUshr
  | Eq | Neq | Lt | Le | Gt | Ge
  deriving DecidableEq

inductive Unary where
  | Neg | BitNot | Not
  deriving DecidableEq

inductive Immediate where
  | AddImm | SubImm | MulImm | LtImm | LeImm | GtImm | GeImm | EqImm | NeqImm
  deriving DecidableEq

inductive Instr where
  | loadConst (dst constIdx : Nat)
  | loadNil (dst : Nat)
  | loadBool (dst : Nat) (val : Bool)
  | move (dst src : Nat)
  | binary (op : Binary) (dst a b : Nat)
  | unary (op : Unary) (dst src : Nat)
  | immediate (op : Immediate) (dst a immConst : Nat)
  | jmp (offset : Int)
  | jmpIfFalse (cond : Nat) (offset : Int)
  | jmpIfTrue (cond : Nat) (offset : Int)
  | call (dst func numArgs : Nat)
  | ret (src : Nat)
  | print (src : Nat)
  | getGlobal (dst nameConst : Nat)
  | setGlobal (nameConst src : Nat)
  | assignGlobal (nameConst src : Nat)
  | closure (dst protoConst : Nat)
  | getUpval (dst idx : Nat)
  | setUpval (idx src : Nat)
  | closeUpvalues (first : Nat)
  | makeList (dst start count : Nat)
  | makeDict (dst start count : Nat)
  | makeClass (dst nameConst : Nat) (superclass : Option Nat)
  | declareField (cls nameConst : Nat)
  | setFieldDefault (cls nameConst valueConst : Nat)
  | setFieldInit (cls src : Nat)
  | setMethod (cls nameConst src : Nat)
  | declareStatic (cls nameConst src : Nat)
  | finalizeClass (cls : Nat)
  | getField (dst obj nameConst : Nat)
  | setField (obj nameConst src : Nat)
  | invoke (dst obj methodConst numArgs : Nat)
  | invokeSuper (dst superclass methodConst numArgs : Nat)
  | callSuperCtor (dst superclass numArgs : Nat)
  | importPath (dst pathConst importerConst : Nat)
  | importAll (module : Nat) (exported : Bool)
  | makePromoted (dst module nameConst : Nat)
  | getIndex (dst obj idx : Nat)
  | setIndex (obj idx src : Nat)
  | getSlice (dst obj lo hi : Nat)
  | makeRange (dst lower upper : Nat)
  | usingJump (subject tableIdx : Nat)
  | raise (src : Nat)
  | pushCatch (varReg : Option Nat) (offset : Int)
  | popCatch
  | checkParamType (reg checkIdx : Nat)

/-- Where a closure finds a value it captures: in a register of the function that makes it,
or among that function's own upvalues. -/
inductive UpvalueDescriptor where
  | local (reg : Nat)
  | upvalue (idx : Nat)
  deriving DecidableEq

/-- A compiled function. Of its constants there is, for those that are functions, what their
closures capture. -/
structure ObjFunction where
  code : List Instr
  numRegisters : Nat
  jumpTables : List (List (JumpKey × Nat)) := []
  upvalues : Nat → List UpvalueDescriptor := fun _ => []

def asUsize (n : Int) : Nat := (n % 2 ^ 64).toNat

namespace ObjFunction

def jumpTable (f : ObjFunction) (idx : Nat) : List (JumpKey × Nat) := f.jumpTables[idx]?.getD []

/-- The registers that a closure of this constant captures. -/
def captured (f : ObjFunction) (protoConst : Nat) : List Nat :=
  (f.upvalues protoConst).filterMap fun
    | .local reg => some reg
    | .upvalue _ => none

/-- A position outside every `catch` body. -/
def noRegion : Nat := 2 ^ 32 - 1

/-- What the `catch` bodies among `code`, which starts at `at_`, make of the region of `ip`.
Outer bodies come first, so an inner one overwrites them. -/
def region (ip : Nat) : Nat → List Instr → Nat → Nat
  | _, [], slot => slot
  | at_, .pushCatch _ offset :: code, slot =>
      let resume := asUsize (at_ + 1 + offset)
      region ip (at_ + 1) code
        (if at_ + 1 ≤ ip ∧ ip < resume - 1 then resume % 2 ^ 32 else slot)
  | at_, _ :: code, slot => region ip (at_ + 1) code slot

/-- Where an error raised at `ip` resumes, when `ip` is inside a `catch` body. -/
def catchResume (f : ObjFunction) (ip : Nat) : Option Nat :=
  if ip < f.code.length ∧ region ip 0 f.code noRegion ≠ noRegion then
    some (region ip 0 f.code noRegion)
  else none

end ObjFunction

/-- The registers from `start` on, `count` of them. -/
def window (start count : Nat) : List Nat := (List.range count).map (start + ·)

namespace Instr

/-- The register an instruction writes when it completes. -/
def anyDst : Instr → Option Nat
  | .loadConst dst _ | .loadNil dst | .loadBool dst _ | .move dst _ | .binary _ dst _ _
  | .unary _ dst _ | .immediate _ dst _ _ | .call dst _ _ | .getGlobal dst _
  | .closure dst _ | .getUpval dst _ | .makeList dst _ _ | .makeDict dst _ _
  | .makeClass dst _ _ | .getField dst _ _ | .invoke dst _ _ _ | .invokeSuper dst _ _ _
  | .callSuperCtor dst _ _ | .importPath dst _ _ | .makePromoted dst _ _
  | .getIndex dst _ _ | .getSlice dst _ _ _ | .makeRange dst _ _ => some dst
  | _ => none

/-- The registers an instruction's handler reads, other than through an open upvalue. A call
reads its callee and its arguments; a closure reads what it captures, now or later. -/
def reads (f : ObjFunction) : Instr → List Nat
  | .move _ src | .unary _ _ src => [src]
  | .binary _ _ a b => [a, b]
  | .immediate _ _ a _ => [a]
  | .jmpIfFalse cond _ | .jmpIfTrue cond _ => [cond]
  | .call _ func numArgs => func :: window (func + 1) numArgs
  | .ret src | .print src | .raise src => [src]
  | .setGlobal _ src | .assignGlobal _ src | .setUpval _ src => [src]
  | .closure _ protoConst => f.captured protoConst
  | .makeList _ start count => window start count
  | .makeDict _ start count => window start count ++ window (start + count) count
  | .makeClass _ _ superclass => superclass.toList
  | .declareField cls _ | .setFieldDefault cls _ _ | .finalizeClass cls => [cls]
  | .setFieldInit cls src | .setMethod cls _ src | .declareStatic cls _ src => [cls, src]
  | .getField _ obj _ => [obj]
  | .setField obj _ src => [obj, src]
  | .invoke _ obj _ numArgs => obj :: (obj + 1) :: window (obj + 2) numArgs
  | .invokeSuper _ superclass _ numArgs | .callSuperCtor _ superclass numArgs =>
      superclass :: (superclass + 1) :: window (superclass + 2) numArgs
  | .importAll module _ | .makePromoted _ module _ => [module]
  | .getIndex _ obj idx => [obj, idx]
  | .setIndex obj idx src => [obj, idx, src]
  | .getSlice _ obj lo hi => [obj, lo, hi]
  | .makeRange _ lower upper => [lower, upper]
  | .usingJump subject _ => [subject]
  | .checkParamType reg _ => [reg]
  | .loadConst _ _ | .loadNil _ | .loadBool _ _ | .jmp _ | .getGlobal _ _ | .getUpval _ _
  | .closeUpvalues _ | .importPath _ _ _ | .pushCatch _ _ | .popCatch => []

/-- Whether an instruction's handler can end in an error. -/
def mayRaise : Instr → Bool
  | .loadConst _ _ | .loadNil _ | .loadBool _ _ | .move _ _ | .jmp _ | .jmpIfFalse _ _
  | .jmpIfTrue _ _ | .ret _ | .closure _ _ | .closeUpvalues _ | .makeList _ _ _
  | .makeDict _ _ _ | .setFieldInit _ _ | .usingJump _ _ | .pushCatch _ _ | .popCatch => false
  | .binary op _ _ _ => op ≠ .Concat
  | .unary op _ _ => op ≠ .Not
  | .immediate op _ _ _ => op ≠ .EqImm ∧ op ≠ .NeqImm
  | _ => true

end Instr

/-- Where control can go on from an instruction that completes. -/
def directSuccessors (ip : Nat) (instr : Instr) (f : ObjFunction) : List Nat :=
  match instr with
  | .jmp offset => [asUsize (ip + 1 + offset)]
  | .jmpIfFalse _ offset | .jmpIfTrue _ offset => [asUsize (ip + 1 + offset), ip + 1]
  | .usingJump _ tableIdx => (f.jumpTable tableIdx).map (·.2) ++ [ip + 1]
  | .ret _ => []
  | _ => [ip + 1]

/-- Where control can go on from an instruction: inside a `catch` body, also where the body's
handler resumes. -/
def successors (ip : Nat) (instr : Instr) (f : ObjFunction) : List Nat :=
  let out := directSuccessors ip instr f
  match f.catchResume ip with
  | some resume => if resume ∈ out then out else out ++ [resume]
  | none => out

theorem mem_successors {ip : Nat} {instr : Instr} {f : ObjFunction} {s : Nat} :
    s ∈ successors ip instr f ↔
      s ∈ directSuccessors ip instr f ∨ f.catchResume ip = some s := by
  cases hresume : f.catchResume ip with
  | none => simp [successors, hresume]
  | some resume =>
      by_cases hmem : resume ∈ directSuccessors ip instr f
      · simp only [successors, hresume, if_pos hmem, Option.some_inj]
        exact ⟨.inl, fun h => h.elim id fun heq => heq ▸ hmem⟩
      · simp only [successors, hresume, if_neg hmem, List.mem_append, List.mem_singleton,
          Option.some_inj]
        exact or_congr_right eq_comm

@[simp] theorem mem_window {start count r : Nat} :
    r ∈ window start count ↔ start ≤ r ∧ r < start + count := by
  simp only [window, List.mem_map, List.mem_range]
  exact ⟨fun ⟨i, hi, heq⟩ => by omega, fun ⟨hle, hlt⟩ => ⟨r - start, by omega, by omega⟩⟩

/-- What an instruction makes of the registers and of the rest of the world. Registers other
than its destination may be written as well: a call uses those above its own window, and code
that runs may write a register through an open upvalue. -/
inductive Outcome (V W : Type) where
  | done (writes : Nat → Option V) (world : W)
  | raised (error : V) (writes : Nat → Option V) (world : W)
  | diverges

/-- What the interpreter does with values, for the code of `f`. `openUpvalue` holds of the
registers of the frame that a closure still reads and writes. -/
structure Machine (f : ObjFunction) (V W : Type) where
  constant : Nat → V
  nil : V
  bool : Bool → V
  isFalsey : W → V → Bool
  valueToJumpKey : W → V → Option Zuri.Compiler.Using.JumpKey
  openUpvalue : W → Nat → Prop
  operate : Instr → (Nat → V) → W → Outcome V W
  closeUpvalues : (Nat → V) → W → W
  fellOff : W → V × W
  reads_only : ∀ (i : Instr) (regs regs' : Nat → V) (w : W),
    (∀ r, r ∈ i.reads f ∨ openUpvalue w r → regs r = regs' r) →
      operate i regs w = operate i regs' w
  writes_dst : ∀ (i : Instr) (regs : Nat → V) (w w' : W) (writes : Nat → Option V) (d : Nat),
    operate i regs w = .done writes w' → i.anyDst = some d → (writes d).isSome
  quiet : ∀ (i : Instr) (regs : Nat → V) (w w' : W) (e : V) (writes : Nat → Option V),
    operate i regs w = .raised e writes w' → i.mayRaise = true
  opens_done : ∀ (i : Instr) (regs : Nat → V) (w w' : W) (writes : Nat → Option V) (r : Nat),
    operate i regs w = .done writes w' → openUpvalue w' r →
      openUpvalue w r ∨ r ∈ i.reads f ∨ (writes r).isSome
  opens_raised : ∀ (i : Instr) (regs : Nat → V) (w w' : W) (e : V) (writes : Nat → Option V)
    (r : Nat), operate i regs w = .raised e writes w' → openUpvalue w' r →
      openUpvalue w r ∨ r ∈ i.reads f ∨ (writes r).isSome
  close_reads : ∀ (regs regs' : Nat → V) (w : W), (∀ r, openUpvalue w r → regs r = regs' r) →
    closeUpvalues regs w = closeUpvalues regs' w

/-- A handler is the register its error goes to, if any, and where it resumes. -/
structure Frame (V : Type) where
  ip : Nat
  regs : Nat → V
  catches : List (Option Nat × Nat)

variable {V W : Type} {f : ObjFunction}

namespace Frame

def setReg (frame : Frame V) (r : Nat) (v : V) : Frame V :=
  { frame with regs := Function.update frame.regs r v }

def overlay (frame : Frame V) (writes : Nat → Option V) : Frame V :=
  { frame with regs := fun r => (writes r).getD (frame.regs r) }

def jump (frame : Frame V) (offset : Int) : Frame V :=
  { frame with ip := asUsize (frame.ip + offset) }

end Frame

inductive Next (V W : Type) where
  | goes (frame : Frame V) (world : W)
  | returns (v : V) (world : W)
  | escapes (error : V) (world : W)
  | diverges

namespace Machine

/-- An error goes to the innermost handler of the frame, and out of the frame when there is
none. -/
def handleError (error : V) (frame : Frame V) (w : W) : Next V W :=
  match frame.catches with
  | [] => .escapes error w
  | (varReg, resumeIp) :: rest =>
      let top : Frame V := ⟨resumeIp, frame.regs, rest⟩
      match varReg with
      | some reg => .goes (top.setReg reg error) w
      | none => .goes top w

variable (m : Machine f V W)

/-- An instruction that computes with values. -/
def perform (i : Instr) (frame : Frame V) (w : W) : Next V W :=
  match m.operate i frame.regs w with
  | .done writes w' => .goes (frame.overlay writes) w'
  | .raised error writes w' => handleError error (frame.overlay writes) w'
  | .diverges => .diverges

/-- An instruction, in a frame that already stands at the next one. -/
def exec (i : Instr) (frame : Frame V) (w : W) : Next V W :=
  match i with
  | .loadConst dst constIdx => .goes (frame.setReg dst (m.constant constIdx)) w
  | .loadNil dst => .goes (frame.setReg dst m.nil) w
  | .loadBool dst val => .goes (frame.setReg dst (m.bool val)) w
  | .move dst src => .goes (frame.setReg dst (frame.regs src)) w
  | .jmp offset => .goes (frame.jump offset) w
  | .jmpIfFalse cond offset =>
      .goes (if m.isFalsey w (frame.regs cond) then frame.jump offset else frame) w
  | .jmpIfTrue cond offset =>
      .goes (if m.isFalsey w (frame.regs cond) then frame else frame.jump offset) w
  | .ret src => .returns (frame.regs src) (m.closeUpvalues frame.regs w)
  | .usingJump subject tableIdx =>
      match (m.valueToJumpKey w (frame.regs subject)).bind (List.lookup · (f.jumpTable tableIdx)) with
      | some target => .goes { frame with ip := target } w
      | none => .goes frame w
  | .pushCatch varReg offset =>
      .goes { frame with catches := (varReg, asUsize (frame.ip + offset)) :: frame.catches } w
  | .popCatch => .goes { frame with catches := frame.catches.tail } w
  | i => m.perform i frame w

def step (frame : Frame V) (w : W) : Next V W :=
  match f.code[frame.ip]? with
  | some i => m.exec i { frame with ip := frame.ip + 1 } w
  | none => .escapes (m.fellOff w).1 (m.fellOff w).2

end Machine

/-- How a frame stands after some steps. -/
inductive Ending (V W : Type) where
  | running
  | returned (v : V) (world : W)
  | escaped (error : V) (world : W)
  | diverged

/-- What a frame does in some number of steps: the positions it passes, with the world it finds
there, and how it ends. -/
def Machine.run (m : Machine f V W) : Nat → Frame V → W → List (Nat × W) × Ending V W
  | 0, frame, w => ([(frame.ip, w)], .running)
  | n + 1, frame, w =>
      match m.step frame w with
      | .goes frame' w' => ((frame.ip, w) :: (m.run n frame' w').1, (m.run n frame' w').2)
      | .returns v w' => ([(frame.ip, w)], .returned v w')
      | .escapes error w' => ([(frame.ip, w)], .escaped error w')
      | .diverges => ([(frame.ip, w)], .diverged)

end Zuri.Vm
