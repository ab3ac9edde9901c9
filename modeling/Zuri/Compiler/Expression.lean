import Zuri.Compiler.Operands

/-!
Expressions as the compiler goes through them: each arm compiles its parts one after the other
and answers with the register of the result. Whatever the parts are, an arm takes its operands
in steps, and answers with a register that has been given.
-/

namespace Zuri.Compiler.Operands

open Zuri.Vm (UpvalueDescriptor)

/-- What compiling an expression does to the scope, with the register of its result. -/
abbrev Arm := FunctionScope → Nat × FunctionScope

namespace Arm

def literal : Arm := fun s => (s.nextReg, (s.allocReg.addConstant).name s.nextReg)

/-- `nil`, `true` and `false`. -/
def fresh : Arm := fun s => (s.nextReg, s.allocReg.name s.nextReg)

def local_ (reg : Nat) : Arm := fun s => (reg, s)

def upvalue (desc : UpvalueDescriptor) : Arm := fun s => fresh (s.addUpvalue desc)

/-- A function literal, after its body has captured variables of functions further out. -/
def closure (captured : List UpvalueDescriptor) : Arm := fun s =>
  let compiled := captured.foldl FunctionScope.addUpvalue s
  fresh compiled.addConstant

/-- The register of an operand, when it was allocated for it, or a fresh one. -/
def reuse (mark a : Nat) : Arm := fun s =>
  if mark ≤ a then (a, s) else (s.nextReg, s.allocReg)

def unary (operand : Arm) : Arm := fun s =>
  let src := operand s
  let dst := reuse s.nextReg src.1 src.2
  (dst.1, (dst.2.name dst.1).name src.1)

/-- An operator with a number for its right operand. -/
def immediate (lhs : Arm) : Arm := fun s =>
  let left := lhs s
  let dst := reuse s.nextReg left.1 left.2
  (dst.1, ((dst.2.addConstant.name dst.1).name left.1).freeRegsTo (asU8 (dst.1 + 1)))

/-- Operators, comparisons, ranges and indexing. -/
def binary (lhs rhs : Arm) : Arm := fun s =>
  let left := lhs s
  let dst := reuse s.nextReg left.1 left.2
  let right := rhs dst.2
  let emitted := ((right.2.name dst.1).name left.1).name right.1
  (dst.1, emitted.freeRegsTo (asU8 (max dst.2.nextReg (asU8 (dst.1 + 1)))))

def slice (obj lo hi : Arm) : Arm := fun s =>
  let subject := obj s
  let dst := reuse s.nextReg subject.1 subject.2
  let lower := lo dst.2
  let upper := hi lower.2
  let emitted := (((upper.2.name dst.1).name subject.1).name lower.1).name upper.1
  (dst.1, emitted.freeRegsTo (asU8 (max dst.2.nextReg (asU8 (dst.1 + 1)))))

def get (obj : Arm) : Arm := fun s =>
  let subject := obj s
  let dst := subject.2.nextReg
  (dst, (subject.2.allocReg.addConstant.name dst).name subject.1)

def set (obj value : Arm) : Arm := fun s =>
  let subject := obj s
  let src := value subject.2
  (src.1, (src.2.addConstant.name subject.1).name src.1)

def assignLocal (reg : Nat) (value : Arm) : Arm := fun s =>
  let src := value s
  if src.1 = reg then (reg, src.2)
  else (reg, ((src.2.name reg).name src.1).freeRegsTo (asU8 src.1))

def assignUpvalue (desc : UpvalueDescriptor) (value : Arm) : Arm := fun s =>
  let src := value (s.addUpvalue desc)
  (src.1, src.2.name src.1)

def assignGlobal (value : Arm) : Arm := fun s =>
  let src := value s
  (src.1, src.2.addConstant.name src.1)

/-- `and` and `or`: the result register is the next free one, and both operands go there. -/
def circuit (lhs rhs : Arm) : Arm := fun s =>
  let left := lhs s
  let moved := (left.2.name left.1).take s.nextReg
  let right := rhs moved
  (s.nextReg, (right.2.name right.1).take s.nextReg)

def condition (test truth falsey : Arm) : Arm := fun s =>
  let tested := test s
  let then_ := truth ((tested.2.name tested.1).freeRegsTo (asU8 s.nextReg))
  let else_ := falsey ((then_.2.name then_.1).take s.nextReg |>.freeRegsTo (asU8 s.nextReg))
  (s.nextReg, (else_.2.name else_.1).take s.nextReg)

/-- The arguments of a call from the one numbered `n` on. -/
def arguments (func : Nat) : Nat → List Arm → FunctionScope → FunctionScope
  | _, [], s => s
  | n, arg :: args, s =>
      let value := arg s
      arguments func (n + 1) args ((value.2.name value.1).take (func + 1 + min n 255))

/-- A fresh register with the value of another one. -/
def duplicate (reg : Nat) : Arm := fun s => (s.nextReg, (s.allocReg.name s.nextReg).name reg)

/-- The callee goes to a register of its own when it is a local's. -/
def callee (mark raw : Nat) : Arm := fun s => if mark ≤ raw then (raw, s) else duplicate raw s

def call (func : Arm) (args : List Arm) : Arm := fun s =>
  let raw := func s
  let base := callee s.nextReg raw.1 raw.2
  let placed := (arguments base.1 0 args base.2).checkedArgCount args.length
  (base.1, (placed.name base.1).freeRegsTo (asU8 (base.1 + 1)))

/-- The receiver of a method call goes to a register that is allocated before it. -/
def receiver (obj : Arm) : Arm := fun s =>
  let raw := obj s.allocReg
  (s.nextReg, ((raw.2.name s.nextReg).name raw.1).freeRegsTo (asU8 (s.nextReg + 1)))

/-- A method call: the receiver, the receiver once more, and the arguments after it. -/
def invoke (obj : Arm) (args : List Arm) : Arm := fun s =>
  let base := receiver obj s
  let self := duplicate base.1 base.2
  let placed := (arguments self.1 0 args self.2).checkedArgCount args.length
  (base.1, (placed.addConstant.name base.1).freeRegsTo (asU8 (base.1 + 1)))

end Arm

/-- The scope goes on by steps. -/
def Goes (s t : FunctionScope) : Prop := ∃ steps : List Step, t = steps.foldl FunctionScope.step s

namespace Goes

variable {s t u : FunctionScope}

theorem refl (s : FunctionScope) : Goes s s := ⟨[], rfl⟩

theorem trans (h : Goes s t) (h' : Goes t u) : Goes s u := by
  obtain ⟨steps, rfl⟩ := h
  obtain ⟨more, rfl⟩ := h'
  exact ⟨steps ++ more, (List.foldl_append ..).symm⟩

theorem step (x : Step) : Goes s (s.step x) := ⟨[x], rfl⟩

theorem name {reg : Nat} (hreg : reg ∈ s.given) : Goes s (s.name reg) := by
  obtain ⟨k, hk⟩ := List.mem_iff_getElem?.mp hreg
  refine ⟨[.name k], ?_⟩
  simp only [List.foldl_cons, List.foldl_nil, FunctionScope.step, hk]

/-- An instruction with two registers. -/
theorem pair {a b : Nat} (ha : a ∈ s.given) (hb : b ∈ s.given) :
    Goes s ((s.name a).name b) := by
  have hfirst : Goes s (s.name a) := name ha
  have hsecond : Goes (s.name a) ((s.name a).name b) := name hb
  exact hfirst.trans hsecond

/-- An instruction with three registers. -/
theorem names {a b c : Nat} (ha : a ∈ s.given) (hb : b ∈ s.given) (hc : c ∈ s.given) :
    Goes s (((s.name a).name b).name c) := by
  have hthird : Goes ((s.name a).name b) (((s.name a).name b).name c) := name hc
  exact (pair ha hb).trans hthird

theorem addUpvalues (captured : List UpvalueDescriptor) (s : FunctionScope) :
    Goes s (captured.foldl FunctionScope.addUpvalue s) := by
  induction captured generalizing s with
  | nil => exact refl s
  | cons desc captured ih => exact (step (.addUpvalue desc)).trans (ih _)

end Goes

theorem step_given (s : FunctionScope) (x : Step) : ∀ reg ∈ s.given, reg ∈ (s.step x).given := by
  intro reg hreg
  cases x with
  | addEntry t =>
      rw [step_addEntry]
      exact hreg
  | addUpvalue desc =>
      simp only [FunctionScope.step, FunctionScope.addUpvalue]
      split <;> exact hreg
  | allocReg =>
      simp only [FunctionScope.step, FunctionScope.allocReg]
      split <;> exact List.mem_append_left _ hreg
  | name k =>
      simp only [FunctionScope.step]
      split <;> exact hreg
  | take reg => exact List.mem_append_left _ hreg
  | freeRegsTo mark => exact hreg
  | checkedArgCount args =>
      simp only [FunctionScope.step, FunctionScope.checkedArgCount]
      split <;> exact hreg

theorem Goes.given {s t : FunctionScope} (h : Goes s t) : ∀ reg ∈ s.given, reg ∈ t.given := by
  obtain ⟨steps, rfl⟩ := h
  induction steps generalizing s with
  | nil => exact fun _ hreg => hreg
  | cons x steps ih => exact fun reg hreg => ih reg (step_given s x reg hreg)

theorem allocReg_given (s : FunctionScope) : s.nextReg ∈ s.allocReg.given := by
  simp only [FunctionScope.allocReg]
  split
  · next hfull =>
      rw [hfull]
      exact List.mem_append_right _ (List.mem_singleton_self _)
  · exact List.mem_append_right _ (List.mem_singleton_self _)

theorem take_given (s : FunctionScope) (reg : Nat) : reg ∈ (s.take reg).given :=
  List.mem_append_right _ (List.mem_singleton_self _)

/-- From a scope that has given the registers `locals`, the arm goes on by steps, and answers
with a register that has been given. -/
def Arm.Stepwise (locals : List Nat) (arm : Arm) : Prop :=
  ∀ s : FunctionScope, (∀ reg ∈ locals, reg ∈ s.given) →
    Goes s (arm s).2 ∧ (arm s).1 ∈ (arm s).2.given

namespace Arm.Stepwise

variable {locals : List Nat} {lhs rhs test truth falsey func : Arm}

theorem literal : Arm.literal.Stepwise locals := by
  intro s _
  have hconstant : Goes s s.allocReg.addConstant := ⟨[.allocReg, .addEntry .constants], rfl⟩
  have hgiven : s.nextReg ∈ s.allocReg.addConstant.given := allocReg_given s
  exact ⟨hconstant.trans (.name hgiven), hgiven⟩

theorem fresh : Arm.fresh.Stepwise locals := by
  intro s _
  have halloc : Goes s s.allocReg := .step .allocReg
  exact ⟨halloc.trans (.name (allocReg_given s)), allocReg_given s⟩

theorem local_ {reg : Nat} (hreg : reg ∈ locals) : (Arm.local_ reg).Stepwise locals :=
  fun s hlocals => ⟨.refl s, hlocals reg hreg⟩

/-- What comes before an expression is some more steps. -/
theorem after {arm : Arm} (harm : arm.Stepwise locals) {s t : FunctionScope} (h : Goes s t)
    (hlocals : ∀ reg ∈ locals, reg ∈ s.given) :
    Goes s (arm t).2 ∧ (arm t).1 ∈ (arm t).2.given := by
  obtain ⟨hgoes, hreg⟩ := harm t fun reg hreg => h.given reg (hlocals reg hreg)
  exact ⟨h.trans hgoes, hreg⟩

theorem upvalue (desc : UpvalueDescriptor) : (Arm.upvalue desc).Stepwise locals :=
  fun _ hlocals => fresh.after (.step (.addUpvalue desc)) hlocals

theorem closure (captured : List UpvalueDescriptor) : (Arm.closure captured).Stepwise locals :=
  fun s hlocals =>
    fresh.after ((Goes.addUpvalues captured s).trans (.step (.addEntry .constants))) hlocals

theorem reuse {s : FunctionScope} (mark : Nat) {a : Nat} (ha : a ∈ s.given) :
    Goes s (Arm.reuse mark a s).2 ∧ (Arm.reuse mark a s).1 ∈ (Arm.reuse mark a s).2.given := by
  simp only [Arm.reuse]
  split
  · exact ⟨.refl s, ha⟩
  · exact ⟨.step .allocReg, allocReg_given s⟩

theorem unary (hl : lhs.Stepwise locals) : (Arm.unary lhs).Stepwise locals := by
  intro s hlocals
  obtain ⟨hsrc, ha⟩ := hl s hlocals
  obtain ⟨hdst, hd⟩ := reuse s.nextReg ha
  exact ⟨hsrc.trans (hdst.trans (.pair hd (hdst.given _ ha))), hd⟩

theorem immediate (hl : lhs.Stepwise locals) : (Arm.immediate lhs).Stepwise locals := by
  intro s hlocals
  obtain ⟨hleft, ha⟩ := hl s hlocals
  obtain ⟨hdst, hd⟩ := reuse s.nextReg ha
  have hconstant := hdst.trans (.step (.addEntry .constants))
  have hnamed := Goes.pair (s := (Arm.reuse s.nextReg (lhs s).1 (lhs s).2).2.addConstant) hd
    (hconstant.given _ ha)
  exact ⟨hleft.trans (hconstant.trans (hnamed.trans (.step (.freeRegsTo _)))), hd⟩

theorem binary (hl : lhs.Stepwise locals) (hr : rhs.Stepwise locals) :
    (Arm.binary lhs rhs).Stepwise locals := by
  intro s hlocals
  obtain ⟨hleft, ha⟩ := hl s hlocals
  obtain ⟨hdst, hd⟩ := reuse s.nextReg ha
  obtain ⟨hright, hb⟩ := hr _ fun reg hreg => hdst.given reg (hleft.given reg (hlocals reg hreg))
  refine ⟨?_, hright.given _ hd⟩
  have hnamed := Goes.names (hright.given _ hd) (hright.given _ (hdst.given _ ha)) hb
  exact hleft.trans (hdst.trans (hright.trans (hnamed.trans (.step (.freeRegsTo _)))))

theorem slice (ho : func.Stepwise locals) (hl : lhs.Stepwise locals) (hr : rhs.Stepwise locals) :
    (Arm.slice func lhs rhs).Stepwise locals := by
  intro s hlocals
  obtain ⟨hobj, ha⟩ := ho s hlocals
  obtain ⟨hdst, hd⟩ := reuse s.nextReg ha
  obtain ⟨hlo, hb⟩ := hl _ fun reg hreg => hdst.given reg (hobj.given reg (hlocals reg hreg))
  have hbefore := hdst.trans hlo
  obtain ⟨hhi, hc⟩ := hr _ fun reg hreg => hbefore.given reg (hobj.given reg (hlocals reg hreg))
  have hnamed := Goes.names (hhi.given _ (hlo.given _ hd)) (hhi.given _ (hbefore.given _ ha))
    (hhi.given _ hb)
  have hall := hbefore.trans (hhi.trans (hnamed.trans (.name hc)))
  exact ⟨hobj.trans (hall.trans (.step (.freeRegsTo _))), hhi.given _ (hlo.given _ hd)⟩

theorem get (ho : func.Stepwise locals) : (Arm.get func).Stepwise locals := by
  intro s hlocals
  obtain ⟨hobj, ha⟩ := ho s hlocals
  have halloc : Goes (func s).2 (func s).2.allocReg := .step .allocReg
  have hconstant := halloc.trans (.step (.addEntry .constants))
  have hnamed := Goes.pair (s := (func s).2.allocReg.addConstant) (allocReg_given (func s).2)
    (hconstant.given _ ha)
  exact ⟨hobj.trans (hconstant.trans hnamed), allocReg_given (func s).2⟩

theorem set (ho : func.Stepwise locals) (hr : rhs.Stepwise locals) :
    (Arm.set func rhs).Stepwise locals := by
  intro s hlocals
  obtain ⟨hobj, ha⟩ := ho s hlocals
  obtain ⟨hvalue, hv⟩ := hr _ fun reg hreg => hobj.given reg (hlocals reg hreg)
  have hconstant := hvalue.trans (.step (.addEntry .constants))
  have hnamed := Goes.pair (hconstant.given _ ha) hv
  exact ⟨hobj.trans (hconstant.trans hnamed), hv⟩

theorem assignLocal {reg : Nat} (hreg : reg ∈ locals) (hr : rhs.Stepwise locals) :
    (Arm.assignLocal reg rhs).Stepwise locals := by
  intro s hlocals
  obtain ⟨hvalue, hv⟩ := hr s hlocals
  have hlocal := hvalue.given reg (hlocals reg hreg)
  simp only [Arm.assignLocal]
  split
  · exact ⟨hvalue, hlocal⟩
  · exact ⟨hvalue.trans ((Goes.pair hlocal hv).trans (.step (.freeRegsTo _))), hlocal⟩

theorem assignUpvalue (desc : UpvalueDescriptor) (hr : rhs.Stepwise locals) :
    (Arm.assignUpvalue desc rhs).Stepwise locals := by
  intro s hlocals
  obtain ⟨hvalue, hv⟩ := hr.after (.step (.addUpvalue desc)) hlocals
  exact ⟨hvalue.trans (.name hv), hv⟩

theorem assignGlobal (hr : rhs.Stepwise locals) : (Arm.assignGlobal rhs).Stepwise locals := by
  intro s hlocals
  obtain ⟨hvalue, hv⟩ := hr s hlocals
  have hconstant := hvalue.trans (.step (.addEntry .constants))
  exact ⟨hconstant.trans (.name hv), hv⟩

theorem circuit (hl : lhs.Stepwise locals) (hr : rhs.Stepwise locals) :
    (Arm.circuit lhs rhs).Stepwise locals := by
  intro s hlocals
  obtain ⟨hleft, ha⟩ := hl s hlocals
  have hmoved := hleft.trans ((Goes.name ha).trans (.step (.take s.nextReg)))
  obtain ⟨hright, hb⟩ := hr _ fun reg hreg => hmoved.given reg (hlocals reg hreg)
  refine ⟨?_, take_given _ _⟩
  exact hmoved.trans (hright.trans ((Goes.name hb).trans (.step (.take s.nextReg))))

theorem condition (ht : test.Stepwise locals) (hy : truth.Stepwise locals)
    (hn : falsey.Stepwise locals) : (Arm.condition test truth falsey).Stepwise locals := by
  intro s hlocals
  obtain ⟨htest, hc⟩ := ht s hlocals
  have htested := htest.trans ((Goes.name hc).trans (.step (.freeRegsTo s.nextReg)))
  obtain ⟨hthen, ha⟩ := hy _ fun reg hreg => htested.given reg (hlocals reg hreg)
  have hchosen := htested.trans (hthen.trans ((Goes.name ha).trans
    ((Goes.step (.take s.nextReg)).trans (.step (.freeRegsTo s.nextReg)))))
  obtain ⟨helse, hb⟩ := hn _ fun reg hreg => hchosen.given reg (hlocals reg hreg)
  refine ⟨?_, take_given _ _⟩
  exact hchosen.trans (helse.trans ((Goes.name hb).trans (.step (.take s.nextReg))))

theorem arguments (base : Nat) {args : List Arm} (hargs : ∀ arg ∈ args, arg.Stepwise locals) :
    ∀ (n : Nat) (s : FunctionScope), (∀ reg ∈ locals, reg ∈ s.given) →
      Goes s (Arm.arguments base n args s) := by
  induction args with
  | nil => exact fun _ s _ => .refl s
  | cons arg args ih =>
      intro n s hlocals
      obtain ⟨hvalue, hv⟩ := hargs arg (List.mem_cons_self ..) s hlocals
      have hplaced := hvalue.trans ((Goes.name hv).trans (.step (.take (base + 1 + min n 255))))
      exact hplaced.trans (ih (fun arg harg => hargs arg (List.mem_cons_of_mem _ harg)) (n + 1) _
        fun reg hreg => hplaced.given reg (hlocals reg hreg))

theorem duplicate {s : FunctionScope} {reg : Nat} (hreg : reg ∈ s.given) :
    Goes s (Arm.duplicate reg s).2 ∧ (Arm.duplicate reg s).1 ∈ (Arm.duplicate reg s).2.given := by
  have halloc : Goes s s.allocReg := .step .allocReg
  have hnamed : Goes s.allocReg (s.allocReg.name s.nextReg) := .name (allocReg_given s)
  have hmoved : Goes (s.allocReg.name s.nextReg) (Arm.duplicate reg s).2 :=
    .name (halloc.given reg hreg)
  exact ⟨halloc.trans (hnamed.trans hmoved), allocReg_given s⟩

theorem callee {s : FunctionScope} (mark : Nat) {raw : Nat} (hraw : raw ∈ s.given) :
    Goes s (Arm.callee mark raw s).2 ∧
      (Arm.callee mark raw s).1 ∈ (Arm.callee mark raw s).2.given := by
  simp only [Arm.callee]
  split
  · exact ⟨.refl s, hraw⟩
  · exact duplicate hraw

theorem call (hf : func.Stepwise locals) {args : List Arm}
    (hargs : ∀ arg ∈ args, arg.Stepwise locals) : (Arm.call func args).Stepwise locals := by
  intro s hlocals
  obtain ⟨hraw, hr⟩ := hf s hlocals
  obtain ⟨hcallee, hb⟩ := callee s.nextReg hr
  have hbase := hraw.trans hcallee
  have hplaced := (arguments (Arm.callee s.nextReg (func s).1 (func s).2).1 hargs 0 _
    fun reg hreg => hbase.given reg (hlocals reg hreg)).trans
      (.step (.checkedArgCount args.length))
  have hfunc := hplaced.given _ hb
  exact ⟨hbase.trans (hplaced.trans ((Goes.name hfunc).trans (.step (.freeRegsTo _)))), hfunc⟩

theorem receiver (ho : func.Stepwise locals) : (Arm.receiver func).Stepwise locals := by
  intro s hlocals
  have halloc : Goes s s.allocReg := .step .allocReg
  obtain ⟨hobj, hr⟩ := ho _ fun reg hreg => halloc.given reg (hlocals reg hreg)
  have hreg := hobj.given _ (allocReg_given s)
  have hnamed : Goes (func s.allocReg).2 ((func s.allocReg).2.name s.nextReg) := .name hreg
  have hmoved : Goes ((func s.allocReg).2.name s.nextReg)
      (((func s.allocReg).2.name s.nextReg).name (func s.allocReg).1) := .name hr
  refine ⟨?_, hreg⟩
  exact halloc.trans (hobj.trans (hnamed.trans (hmoved.trans (.step (.freeRegsTo _)))))

theorem invoke (ho : func.Stepwise locals) {args : List Arm}
    (hargs : ∀ arg ∈ args, arg.Stepwise locals) : (Arm.invoke func args).Stepwise locals := by
  intro s hlocals
  obtain ⟨hreceived, hb⟩ := receiver ho s hlocals
  obtain ⟨hself, -⟩ := duplicate hb
  have hbase := hreceived.trans hself
  have hplaced := (arguments (Arm.duplicate (Arm.receiver func s).1 (Arm.receiver func s).2).1
    hargs 0 _ fun reg hreg => hbase.given reg (hlocals reg hreg)).trans
      ((Goes.step (.checkedArgCount args.length)).trans (.step (.addEntry .constants)))
  have hobj := hplaced.given _ (hself.given _ hb)
  exact ⟨hbase.trans (hplaced.trans ((Goes.name hobj).trans (.step (.freeRegsTo _)))), hobj⟩

end Arm.Stepwise

/-- Expressions by what they take: a literal or a global, which a constant fetches, a local in
its register, operators, fields, assignments and calls. -/
inductive Expr where
  | literal
  | fresh
  | local_ (reg : Nat)
  | upvalue (desc : UpvalueDescriptor)
  | closure (captured : List UpvalueDescriptor)
  | unary (operand : Expr)
  | immediate (lhs : Expr)
  | binary (lhs rhs : Expr)
  | slice (obj lo hi : Expr)
  | get (obj : Expr)
  | set (obj value : Expr)
  | assignLocal (reg : Nat) (value : Expr)
  | assignUpvalue (desc : UpvalueDescriptor) (value : Expr)
  | assignGlobal (value : Expr)
  | circuit (lhs rhs : Expr)
  | condition (test truth falsey : Expr)
  | call (func : Expr) (args : List Expr)
  | invoke (obj : Expr) (args : List Expr)

mutual

def compileExpression : Expr → Arm
  | .literal => .literal
  | .fresh => .fresh
  | .local_ reg => .local_ reg
  | .upvalue desc => .upvalue desc
  | .closure captured => .closure captured
  | .unary operand => .unary (compileExpression operand)
  | .immediate lhs => .immediate (compileExpression lhs)
  | .binary lhs rhs => .binary (compileExpression lhs) (compileExpression rhs)
  | .slice obj lo hi =>
      .slice (compileExpression obj) (compileExpression lo) (compileExpression hi)
  | .get obj => .get (compileExpression obj)
  | .set obj value => .set (compileExpression obj) (compileExpression value)
  | .assignLocal reg value => .assignLocal reg (compileExpression value)
  | .assignUpvalue desc value => .assignUpvalue desc (compileExpression value)
  | .assignGlobal value => .assignGlobal (compileExpression value)
  | .circuit lhs rhs => .circuit (compileExpression lhs) (compileExpression rhs)
  | .condition test truth falsey =>
      .condition (compileExpression test) (compileExpression truth) (compileExpression falsey)
  | .call func args => .call (compileExpression func) (compileExpressions args)
  | .invoke obj args => .invoke (compileExpression obj) (compileExpressions args)

def compileExpressions : List Expr → List Arm
  | [] => []
  | e :: es => compileExpression e :: compileExpressions es

end

mutual

def Expr.locals : Expr → List Nat
  | .literal | .fresh | .upvalue _ | .closure _ => []
  | .local_ reg => [reg]
  | .unary e | .immediate e | .get e | .assignUpvalue _ e | .assignGlobal e => e.locals
  | .binary lhs rhs | .circuit lhs rhs | .set lhs rhs => lhs.locals ++ rhs.locals
  | .slice a b c | .condition a b c => a.locals ++ b.locals ++ c.locals
  | .assignLocal reg value => reg :: value.locals
  | .call func args | .invoke func args => func.locals ++ localsOf args

def localsOf : List Expr → List Nat
  | [] => []
  | e :: es => e.locals ++ localsOf es

end

mutual

theorem compileExpression_stepwise (locals : List Nat) : ∀ e : Expr,
    (∀ reg ∈ e.locals, reg ∈ locals) → (compileExpression e).Stepwise locals
  | .literal, _ => by
      rw [compileExpression]
      exact .literal
  | .fresh, _ => by
      rw [compileExpression]
      exact .fresh
  | .local_ reg, h => by
      rw [compileExpression]
      exact .local_ (h reg (by simp [Expr.locals]))
  | .upvalue desc, _ => by
      rw [compileExpression]
      exact .upvalue desc
  | .closure captured, _ => by
      rw [compileExpression]
      exact .closure captured
  | .unary operand, h => by
      rw [compileExpression]
      simp only [Expr.locals] at h
      exact .unary (compileExpression_stepwise locals operand h)
  | .immediate lhs, h => by
      rw [compileExpression]
      simp only [Expr.locals] at h
      exact .immediate (compileExpression_stepwise locals lhs h)
  | .binary lhs rhs, h => by
      rw [compileExpression]
      simp only [Expr.locals, List.forall_mem_append] at h
      exact .binary (compileExpression_stepwise locals lhs h.1)
        (compileExpression_stepwise locals rhs h.2)
  | .slice obj lo hi, h => by
      rw [compileExpression]
      simp only [Expr.locals, List.forall_mem_append] at h
      exact .slice (compileExpression_stepwise locals obj h.1.1)
        (compileExpression_stepwise locals lo h.1.2) (compileExpression_stepwise locals hi h.2)
  | .get obj, h => by
      rw [compileExpression]
      simp only [Expr.locals] at h
      exact .get (compileExpression_stepwise locals obj h)
  | .set obj value, h => by
      rw [compileExpression]
      simp only [Expr.locals, List.forall_mem_append] at h
      exact .set (compileExpression_stepwise locals obj h.1)
        (compileExpression_stepwise locals value h.2)
  | .assignLocal reg value, h => by
      rw [compileExpression]
      simp only [Expr.locals, List.forall_mem_cons] at h
      exact .assignLocal h.1 (compileExpression_stepwise locals value h.2)
  | .assignUpvalue desc value, h => by
      rw [compileExpression]
      simp only [Expr.locals] at h
      exact .assignUpvalue desc (compileExpression_stepwise locals value h)
  | .assignGlobal value, h => by
      rw [compileExpression]
      simp only [Expr.locals] at h
      exact .assignGlobal (compileExpression_stepwise locals value h)
  | .circuit lhs rhs, h => by
      rw [compileExpression]
      simp only [Expr.locals, List.forall_mem_append] at h
      exact .circuit (compileExpression_stepwise locals lhs h.1)
        (compileExpression_stepwise locals rhs h.2)
  | .condition test truth falsey, h => by
      rw [compileExpression]
      simp only [Expr.locals, List.forall_mem_append] at h
      exact .condition (compileExpression_stepwise locals test h.1.1)
        (compileExpression_stepwise locals truth h.1.2)
        (compileExpression_stepwise locals falsey h.2)
  | .call func args, h => by
      rw [compileExpression]
      simp only [Expr.locals, List.forall_mem_append] at h
      exact .call (compileExpression_stepwise locals func h.1)
        (compileExpressions_stepwise locals args h.2)
  | .invoke obj args, h => by
      rw [compileExpression]
      simp only [Expr.locals, List.forall_mem_append] at h
      exact .invoke (compileExpression_stepwise locals obj h.1)
        (compileExpressions_stepwise locals args h.2)

theorem compileExpressions_stepwise (locals : List Nat) : ∀ es : List Expr,
    (∀ reg ∈ localsOf es, reg ∈ locals) →
      ∀ arm ∈ compileExpressions es, arm.Stepwise locals
  | [], _ => by
      rw [compileExpressions]
      exact fun _ harm => absurd harm List.not_mem_nil
  | e :: es, h => by
      rw [compileExpressions]
      simp only [localsOf, List.forall_mem_append] at h
      refine List.forall_mem_cons.mpr ⟨compileExpression_stepwise locals e h.1, ?_⟩
      exact compileExpressions_stepwise locals es h.2

end

/-- Compiling an expression in the middle of a function is some more steps of that function. -/
theorem compileExpression_steps (steps : List Step) (e : Expr)
    (h : ∀ reg ∈ e.locals, reg ∈ (compile steps).given) :
    ∃ more, (compileExpression e (compile steps)).2 = compile (steps ++ more) := by
  obtain ⟨more, hmore⟩ := (compileExpression_stepwise e.locals e (fun _ hreg => hreg) _ h).1
  exact ⟨more, hmore.trans (List.foldl_append ..).symm⟩

theorem compileExpression_steps_call :
    ∃ more, (compileExpression (.call .fresh [.literal, .local_ 0]) (compile [.allocReg])).2 =
      compile ([.allocReg] ++ more) :=
  compileExpression_steps [.allocReg] (.call .fresh [.literal, .local_ 0]) (by decide)

end Zuri.Compiler.Operands
