import Zuri.Graph.Backward
import Zuri.Vm.Needed

/-!
Liveness of registers, as compiled code consults it: a backward data flow with one set of
registers for all the ways on from an instruction. A register that an instruction writes is taken
out of it, also when one way on is the handler at which an error of the instruction resumes.

It reports all that is needed exactly when no instruction inside a `catch` body that may raise
writes a register which the handler's resume point needs and which the instruction does not read.
-/

namespace Zuri.Jit.Typeflow

open Zuri.Vm

abbrev RegSet := Finset Nat

def wordCount (numRegisters : Nat) : Nat := max ((numRegisters + 63) / 64) 1

/-- A set of registers is made of words of 64 bits; registers past them are not kept. -/
def capacity (numRegisters : Nat) : Nat := wordCount numRegisters * 64

/-- The registers that `set_range` marks; it stops past the last register number there is. -/
def setRange (start count : Nat) : List Nat := (window start count).filter (· ≤ 255)

/-- The registers that `mark_uses` marks. -/
def uses (f : ObjFunction) : Instr → List Nat
  | .loadConst _ _ | .loadNil _ | .loadBool _ _ => []
  | .move _ src | .unary _ _ src => [src]
  | .binary _ _ a b => [a, b]
  | .immediate _ _ a _ => [a]
  | .jmp _ => []
  | .jmpIfFalse cond _ | .jmpIfTrue cond _ => [cond]
  | .call _ func numArgs => setRange func (numArgs + 1)
  | .ret src | .print src | .raise src => [src]
  | .getGlobal _ _ => []
  | .setGlobal _ src | .assignGlobal _ src => [src]
  | .closure _ protoConst => f.captured protoConst
  | .getUpval _ _ => []
  | .setUpval _ src => [src]
  | .closeUpvalues first => setRange first (f.numRegisters - first)
  | .makeList _ start count => setRange start count
  | .makeDict _ start count => setRange start (count * 2)
  | .makeClass _ _ superclass => superclass.toList
  | .declareField cls _ | .setFieldDefault cls _ _ | .finalizeClass cls => [cls]
  | .setFieldInit cls src | .setMethod cls _ src | .declareStatic cls _ src => [cls, src]
  | .getField _ obj _ => [obj]
  | .setField obj _ src => [obj, src]
  | .invoke _ obj _ numArgs => setRange obj (numArgs + 2)
  | .invokeSuper _ superclass _ numArgs | .callSuperCtor _ superclass numArgs =>
      setRange superclass (numArgs + 2)
  | .importPath _ _ _ => []
  | .importAll module _ | .makePromoted _ module _ => [module]
  | .getIndex _ obj idx => [obj, idx]
  | .setIndex obj idx src => [obj, idx, src]
  | .getSlice _ obj lo hi => [obj, lo, hi]
  | .makeRange _ lower upper => [lower, upper]
  | .usingJump subject _ => [subject]
  | .checkParamType reg _ => [reg]
  | .pushCatch _ _ | .popCatch => []

def markUses (i : Instr) (f : ObjFunction) (set : RegSet) : RegSet :=
  set ∪ (uses f i).toFinset.filter (· < capacity f.numRegisters)

/-- What is live before an instruction, given what is live after it on any way on. -/
def liveBefore (i : Instr) (f : ObjFunction) (out : RegSet) : RegSet :=
  match i.anyDst with
  | some d => markUses i f (out.erase d)
  | none => markUses i f out

def successorsAt (f : ObjFunction) (ip : Nat) : List Nat :=
  match f.code[ip]? with
  | some i => successors ip i f
  | none => []

def liveBeforeAt (f : ObjFunction) (ip : Nat) (out : RegSet) : RegSet :=
  match f.code[ip]? with
  | some i => liveBefore i f out
  | none => out

theorem mem_markUses {i : Instr} {f : ObjFunction} {set : RegSet} {r : Nat} :
    r ∈ markUses i f set ↔ r ∈ set ∨ r ∈ uses f i ∧ r < capacity f.numRegisters := by
  simp [markUses]

theorem mem_liveBefore {i : Instr} {f : ObjFunction} {out : RegSet} {r : Nat} :
    r ∈ liveBefore i f out ↔
      r ∈ out ∧ i.anyDst ≠ some r ∨ r ∈ uses f i ∧ r < capacity f.numRegisters := by
  cases hdst : i.anyDst with
  | none => simp [liveBefore, hdst, mem_markUses]
  | some d =>
      simp only [liveBefore, hdst, mem_markUses, Finset.mem_erase, ne_eq, Option.some_inj]
      rw [and_comm, eq_comm]

theorem liveBeforeAt_mono (f : ObjFunction) (ip : Nat) {s t : RegSet} (h : s ⊆ t) :
    liveBeforeAt f ip s ⊆ liveBeforeAt f ip t := by
  intro r hr
  cases hi : f.code[ip]? with
  | none =>
      simp only [liveBeforeAt, hi] at hr ⊢
      exact h hr
  | some i =>
      simp only [liveBeforeAt, hi, mem_liveBefore] at hr ⊢
      exact hr.imp_left (And.imp_left (@h r))

theorem liveBeforeAt_bounded (f : ObjFunction) (ip : Nat) {s : RegSet}
    (h : s ⊆ Finset.range (capacity f.numRegisters)) :
    liveBeforeAt f ip s ⊆ Finset.range (capacity f.numRegisters) := by
  intro r hr
  cases hi : f.code[ip]? with
  | none =>
      simp only [liveBeforeAt, hi] at hr
      exact h hr
  | some i =>
      simp only [liveBeforeAt, hi, mem_liveBefore] at hr
      exact hr.elim (fun hout => h hout.1) fun huse => Finset.mem_range.mpr huse.2

def flow (f : ObjFunction) : Backward.Flow Nat where
  size := f.code.length
  succ := successorsAt f
  transfer := liveBeforeAt f
  all := Finset.range (capacity f.numRegisters)
  transfer_mono := liveBeforeAt_mono f
  transfer_all := liveBeforeAt_bounded f

/-- The registers live before each instruction. -/
def liveness (f : ObjFunction) : Option (Nat → RegSet) :=
  (flow f).solve (flow f).rounds (flow f).start

/-- The equation that liveness solves. -/
def Solves (f : ObjFunction) (live : Nat → RegSet) : Prop :=
  ∀ ip i, f.code[ip]? = some i → ∀ r, r ∈ live ip ↔
    (∃ s ∈ successors ip i f, s < f.code.length ∧ r ∈ live s) ∧ i.anyDst ≠ some r ∨
      r ∈ uses f i ∧ r < capacity f.numRegisters

theorem liveness_solves (f : ObjFunction) : ∃ live, liveness f = some live ∧ Solves f live := by
  obtain ⟨live, hsolve, heq⟩ := (flow f).solution
  refine ⟨live, hsolve, fun ip i hi r => ?_⟩
  have hlt : ip < f.code.length := (List.getElem?_eq_some_iff.mp hi).1
  rw [heq ip hlt]
  simp only [flow, liveBeforeAt, hi, mem_liveBefore, Backward.Flow.mem_out, successorsAt]

theorem mem_setRange {start count r : Nat} :
    r ∈ setRange start count ↔ (start ≤ r ∧ r < start + count) ∧ r ≤ 255 := by
  simp [setRange]

theorem uses_of_reads {f : ObjFunction} {i : Instr} {r : Nat} (hr : r ∈ i.reads f)
    (hfits : r ≤ 255) : r ∈ uses f i := by
  cases i with
  | call dst func numArgs | invoke dst obj methodConst numArgs
  | invokeSuper dst superclass methodConst numArgs | callSuperCtor dst superclass numArgs
  | makeList dst start count | makeDict dst start count =>
      simp only [Instr.reads, List.mem_cons, List.mem_append, mem_window] at hr
      refine mem_setRange.mpr ⟨?_, hfits⟩
      omega
  | closeUpvalues first => exact absurd hr List.not_mem_nil
  | _ => exact hr

/-- Only the end of a block marks more than is read. -/
theorem reads_of_uses {f : ObjFunction} {i : Instr} {d r : Nat} (hdst : i.anyDst = some d)
    (hr : r ∈ uses f i) : r ∈ i.reads f := by
  cases i with
  | call dst func numArgs | invoke dst obj methodConst numArgs
  | invokeSuper dst superclass methodConst numArgs | callSuperCtor dst superclass numArgs
  | makeList dst start count | makeDict dst start count =>
      have hin := (mem_setRange.mp hr).1
      simp only [Instr.reads, List.mem_cons, List.mem_append, mem_window]
      omega
  | closeUpvalues first => cases hdst
  | _ => exact hr

theorem lt_capacity {numRegisters r : Nat} (h : r < numRegisters) : r < capacity numRegisters := by
  have hwords : (numRegisters + 63) / 64 ≤ wordCount numRegisters := le_max_left ..
  simp only [capacity]
  omega

variable {f : ObjFunction} {standing : Nat → List Nat} {live : Nat → RegSet}

/-- No raise skips a write over a value that is needed where the error resumes. -/
def KeepsResumed (f : ObjFunction) : Prop :=
  ∀ ip i s d, f.code[ip]? = some i → i.mayRaise = true → f.catchResume ip = some s →
    i.anyDst = some d → Needed f d s → d ∈ i.reads f

def Covers (f : ObjFunction) (live : Nat → RegSet) : Prop :=
  ∀ r ip, Needed f r ip → r ∈ live ip

/-- Frames at one position, with the same handlers, that agree on what is reported live there
and on the registers with open upvalues, do the same, whatever the machine. -/
def Sound (f : ObjFunction) (standing : Nat → List Nat) (live : Nat → RegSet) : Prop :=
  ∀ (V W : Type) (m : Machine f V W) (a b : Frame V) (w : W),
    a.catches.map Prod.snd = standing a.ip → Agree m (· ∈ live a.ip) a b w →
      ∀ n, m.run n a w = m.run n b w

theorem Solves.reads (hl : Solves f live) (hf : Compiled f standing) {ip r : Nat} {i : Instr}
    (hi : f.code[ip]? = some i) (hr : r ∈ i.reads f) : r ∈ live ip := by
  have hlt := hf.named i (List.mem_of_getElem? hi) r hr
  have hfew := hf.registers
  exact (hl ip i hi r).mpr (.inr ⟨uses_of_reads hr (by omega), lt_capacity hlt⟩)

theorem Solves.goesOn (hl : Solves f live) {ip r s : Nat} {i : Instr}
    (hi : f.code[ip]? = some i) (hs : s ∈ successors ip i f) (hlt : s < f.code.length)
    (hdst : i.anyDst ≠ some r) (hr : r ∈ live s) : r ∈ live ip :=
  (hl ip i hi r).mpr (.inl ⟨⟨s, hs, hlt, hr⟩, hdst⟩)

theorem covers_of_keeps (hl : Solves f live) (hf : Compiled f standing) (hk : KeepsResumed f) :
    Covers f live := by
  intro r ip h
  induction h with
  | read hi hr => exact hl.reads hf hi hr
  | passes hi hs hdst hafter ih =>
      exact hl.goesOn hi (mem_successors.mpr (.inl hs)) hafter.lt hdst ih
  | @caught ip s i hi hraise hresume hafter ih =>
      by_cases hdst : i.anyDst = some r
      · exact hl.reads hf hi (hk ip i s r hi hraise hresume hdst hafter)
      · exact hl.goesOn hi (mem_successors.mpr (.inr hresume)) hafter.lt hdst ih

theorem keeps_of_covers (hl : Solves f live) (hc : Covers f live) : KeepsResumed f := by
  intro ip i s d hi hraise hresume hdst hafter
  have hlive := hc d ip (.caught hi hraise hresume hafter)
  cases (hl ip i hi d).mp hlive with
  | inl hout => exact absurd hdst hout.2
  | inr huse => exact reads_of_uses hdst huse.1

theorem covers_iff (hl : Solves f live) (hf : Compiled f standing) :
    Covers f live ↔ KeepsResumed f :=
  ⟨keeps_of_covers hl, covers_of_keeps hl hf⟩

theorem sound_of_covers (hf : Compiled f standing) (hc : Covers f live) :
    Sound f standing live := by
  intro V W m a b w hcatches h n
  exact run_together hf n a b w hcatches (h.weaken fun r hr => hc r a.ip hr)

/-- Liveness is worked out for every function; what it reports covers every path, the ones
through a handler included, exactly when no raise skips a write over a needed value, and then
what it does not report makes no difference to any execution. -/
theorem liveness_sound (f : ObjFunction) (standing : Nat → List Nat) (hf : Compiled f standing) :
    ∃ live, liveness f = some live ∧ (Covers f live ↔ KeepsResumed f) ∧
      (KeepsResumed f → Sound f standing live) := by
  obtain ⟨live, hlive, hl⟩ := liveness_solves f
  refine ⟨live, hlive, covers_iff hl hf, fun hk => ?_⟩
  exact sound_of_covers hf (covers_of_keeps hl hf hk)

/-! A body that fetches a global and prints it, and a function that ends after it. -/

def guarded : ObjFunction :=
  { code := [.pushCatch none 3, .getGlobal 0 0, .print 0, .popCatch, .loadNil 0, .ret 0]
    numRegisters := 1 }

def guardedStanding (ip : Nat) : List Nat := if 1 ≤ ip ∧ ip ≤ 3 then [4] else []

theorem guarded_compiled : Compiled guarded guardedStanding where
  nests := nests_of_bounded (by decide)
  named := by decide
  registers := by decide

theorem guarded_needs {r : Nat} (h : Needed guarded r 4) : r ≠ 0 := by
  intro hr
  subst hr
  cases h with
  | read hi hr => cases hi; exact absurd hr List.not_mem_nil
  | passes hi _ hdst _ => cases hi; exact hdst rfl
  | caught hi hraise _ _ => cases hi; cases hraise

theorem guarded_keeps : KeepsResumed guarded := by
  intro ip i s d hi hraise hresume hdst hneeded
  obtain _ | _ | _ | _ | _ | _ | ip := ip
  · cases hi; cases hraise
  · cases hi
    cases hdst
    have hat : guarded.catchResume 1 = some 4 := by decide
    rw [hat] at hresume
    cases hresume
    exact absurd rfl (guarded_needs hneeded)
  · cases hi; cases hdst
  · cases hi; cases hraise
  · cases hi; cases hraise
  · cases hi; cases hraise
  · cases hi

theorem liveness_sound_guarded : ∃ live, liveness guarded = some live ∧
    Sound guarded guardedStanding live := by
  obtain ⟨live, hlive, _, hsound⟩ := liveness_sound guarded guardedStanding guarded_compiled
  exact ⟨live, hlive, hsound guarded_keeps⟩

/-- The bytecode of `var y = 1; var x = 2; catch { echo (x = y) + missing }; echo x`: once `x` has
its value the compiler takes the registers from that of `y` on for temporaries, and the fetch
of `missing`, which raises, has the register of `x` for its destination. -/
def skipping : ObjFunction :=
  { code := [.loadConst 0 0, .loadConst 1 1, .pushCatch none 5, .move 1 0, .getGlobal 1 2,
      .binary .Add 0 1 1, .print 0, .popCatch, .print 1, .loadNil 0, .ret 0]
    numRegisters := 2 }

def skippingStanding (ip : Nat) : List Nat := if 3 ≤ ip ∧ ip ≤ 7 then [8] else []

theorem skipping_compiled : Compiled skipping skippingStanding where
  nests := nests_of_bounded (by decide)
  named := by decide
  registers := by decide

inductive Printed where
  | nil
  | number (n : Nat)
  | undefinedGlobal

/-- Fetching and printing, in a program without globals. -/
def printing : Machine skipping Printed (List Printed) where
  constant := fun constIdx => .number (constIdx + 1)
  nil := .nil
  bool := fun b => .number b.toNat
  isFalsey := fun _ _ => false
  valueToJumpKey := fun _ _ => none
  openUpvalue := fun _ _ => False
  operate := fun i regs w =>
    match i with
    | .getGlobal _ _ => .raised .undefinedGlobal (fun _ => none) w
    | .print src => .done (fun _ => none) (w ++ [regs src])
    | _ => .diverges
  closeUpvalues := fun _ w => w
  fellOff := fun w => (.nil, w)
  reads_only := by
    intro i regs regs' w h
    cases i with
    | print src => simp only [h src (.inl (List.mem_singleton_self src))]
    | _ => rfl
  writes_dst := by
    intro i regs w w' writes d hop hdst
    cases i with
    | print src => cases hdst
    | _ => cases hop
  quiet := by
    intro i regs w w' e writes hop
    cases i with
    | getGlobal dst nameConst => rfl
    | _ => cases hop
  opens_done := fun _ _ _ _ _ _ _ hopen => hopen.elim
  opens_raised := fun _ _ _ _ _ _ _ _ hopen => hopen.elim
  close_reads := fun _ _ _ _ => rfl

/-- At the fetch, with some value in the register of `x`. -/
def fetching (x : Printed) : Frame Printed :=
  ⟨4, fun r => if r = 1 then x else .number 1, [(none, 8)]⟩

theorem skippedWrite_wrong : Compiled skipping skippingStanding ∧
    ∃ live, liveness skipping = some live ∧ ¬ Sound skipping skippingStanding live := by
  obtain ⟨live, hlive, hl⟩ := liveness_solves skipping
  refine ⟨skipping_compiled, live, hlive, fun hsound => ?_⟩
  have hdead : 1 ∉ live 4 := fun h =>
    ((hl 4 (.getGlobal 1 2) rfl 1).mp h).elim (fun hout => hout.2 rfl) fun huse =>
      List.not_mem_nil huse.1
  have hagree : Agree printing (· ∈ live 4) (fetching (.number 1)) (fetching .nil) [] := by
    refine ⟨rfl, rfl, fun r hr => ?_⟩
    have hne : r ≠ 1 := fun heq => hr.elim (fun h => hdead (heq ▸ h)) id
    simp only [fetching, if_neg hne]
  have hsame := hsound _ _ printing (fetching (.number 1)) (fetching .nil) [] rfl hagree 2
  have hfirst : (printing.run 2 (fetching (.number 1)) []).1.getLast? =
    some (9, [.number 1]) := rfl
  have hsecond : (printing.run 2 (fetching .nil) []).1.getLast? = some (9, [.nil]) := rfl
  rw [hsame, hsecond] at hfirst
  cases hfirst

end Zuri.Jit.Typeflow
