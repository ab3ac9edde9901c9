import Zuri.Jit.Ir.Run

/-!
The types of operands and results.

A function is built with every result of the type its operation gives and every
operand of the type its operation takes; an operand an operation takes in any
representation has no type here. Along a run each value then holds something of
its own type.
-/

namespace Zuri.Jit.Ir

/-- The type of an operation's result. -/
def Op.resultTy : Op → Option Ty
  | constTagged _ | param _ | osrParam _ | reload _ | loadGlobal _ | boxF64 | boxBool
  | loadElem | listEnd _ | loadField _ | asciiChar | listGetOr | dictGet | nextKey
  | rangeAt | moduleMember _ _ | newInstance _ _ | newList _ _ _ _ | loadUpval => some .tagged
  | constF64 _ | intToF64 | unboxF64 | fAdd | fSub | fMul | fDiv | fNeg | fMod | fFloorDiv
  | fPow | fUnary _ | fMax | fMin | fCall _ | strOrd => some .f64
  | constI64 _ | osrIndex | methodGeneration | f64ToI64 | iAdd | iSub | iMul | iBit _
  | wrapI64 | unsaturate | listLen | strByteLen | strByte | strLength | wrapIndex | getIndex
  | bytesLen | bytesLoad | dictLen | objLength | rangeCount | usingTarget _ _ _ => some .i64
  | constBool _ | unboxBool | fCmp _ | iCmp _ | isFalsey | bNot | eqConst _ | taggedEq
  | fTest _ | strAscii | dictContains | isBits _ | isKind _ => some .bool
  | objPtr | listData | upvalCell _ => some .ptr
  | guard kind => kind.resultTy
  | storeGlobal _ | listAppend | storeElem | storeField _ | bytesStore | bytesAppend | dictSet
  | storeReg _ | storeUpval | generic _ _ | safepoint | unreached => none

def GuardKind.argTys : GuardKind → List (Option Ty)
  | int | whole => [none]
  | arith _ | bounds => [some .i64, some .i64]
  | true => [some .bool]
  | elems _ => [some .ptr]
  | number | bool | list | instance_ _ | family _ _ | tag _ | param _ _ | proto _ | native _ =>
      [some .tagged]

/-- The types of an operation's operands, `none` for one that may have any. -/
def Op.argTys : Op → List (Option Ty)
  | constTagged _ | constF64 _ | constI64 _ | constBool _ | osrIndex | param _ | osrParam _
  | loadGlobal _ | methodGeneration | newInstance _ _ | upvalCell _ | generic _ _ | safepoint
  | unreached => []
  | newList _ _ count _ => List.replicate count none
  | reload _ | storeReg _ | usingTarget _ _ _ | dictLen => [none]
  | boxF64 | f64ToI64 | fNeg | fUnary _ | fTest _ | wrapI64 | getIndex => [some .f64]
  | boxBool | bNot => [some .bool]
  | intToF64 | unsaturate | asciiChar => [some .i64]
  | unboxF64 | unboxBool | objPtr | isFalsey | eqConst _ | objLength | isBits _ | isKind _
  | moduleMember _ _ | storeGlobal _ => [some .tagged]
  | guard kind => kind.argTys
  | fAdd | fSub | fMul | fDiv | fMod | fFloorDiv | fCmp _ | fPow | fMax | fMin =>
      [some .f64, some .f64]
  | fCall _ => [some .f64]
  | iAdd | iSub | iMul | iCmp _ | iBit _ | wrapIndex => [some .i64, some .i64]
  | taggedEq => [some .tagged, some .tagged]
  | listLen | listData | listEnd _ | loadField _ | strAscii | strByteLen | strLength | strOrd
  | bytesLen | rangeCount | loadUpval => [some .ptr]
  | loadElem | strByte | bytesLoad | bytesAppend => [some .ptr, some .i64]
  | listAppend | storeUpval => [some .ptr, none]
  | storeElem => [some .ptr, some .ptr, some .i64, none]
  | storeField _ => [some .ptr, some .tagged]
  | bytesStore => [some .ptr, some .i64, some .i64]
  | listGetOr => [some .ptr, some .i64, some .tagged]
  | dictGet | dictSet => [none, none, none]
  | dictContains => [none, none]
  | nextKey => [some .tagged, some .i64]
  | rangeAt => [some .ptr, some .f64]

/-- An instruction's result and operands have the types of its operation. A
helper takes one number or two. -/
structure Inst.Typed (f : Func) (inst : Inst) : Prop where
  result : inst.result.map f.ty = inst.op.resultTy
  arity : (∀ helper, inst.op ≠ .fCall helper) → inst.args.length = inst.op.argTys.length
  args : ∀ (k : Nat) (t : Ty), inst.op.argTys[k]? = some (some t) → ∃ a, inst.args[k]? = some a ∧ f.ty a = t

def Func.Typed (f : Func) : Prop := ∀ b, ∀ inst ∈ f.code b, inst.Typed f

def Op.isFCall : Op → Bool
  | fCall _ => true
  | _ => false

instance (f : Func) (inst : Inst) : Decidable (inst.Typed f) :=
  decidable_of_iff (inst.result.map f.ty = inst.op.resultTy ∧
      (inst.op.isFCall = true ∨ inst.args.length = inst.op.argTys.length) ∧
      ∀ k < inst.op.argTys.length, ∀ t ∈ (inst.op.argTys[k]?).join,
        (inst.args[k]?).map f.ty = some t) <| by
    have hcall : inst.op.isFCall = true ↔ ∃ helper, inst.op = .fCall helper := by
      cases inst.op <;> simp [Op.isFCall]
    constructor
    · rintro ⟨h1, h2, h3⟩
      refine ⟨h1, fun hno => h2.resolve_left fun hc => ?_, fun k t hk => ?_⟩
      · obtain ⟨helper, hop⟩ := hcall.mp hc
        exact hno helper hop
      · have := h3 k (List.getElem?_eq_some_iff.mp hk).1 t (by simp [hk])
        simpa [Option.map_eq_some_iff] using this
    · rintro ⟨h1, h2, h3⟩
      refine ⟨h1, ?_, fun k _ t ht => ?_⟩
      · by_cases hc : ∃ helper, inst.op = .fCall helper
        · exact .inl (hcall.mpr hc)
        · exact .inr (h2 fun helper hop => hc ⟨helper, hop⟩)
      · obtain ⟨a, ha, hty⟩ := h3 k t (by simpa [Option.join_eq_some_iff] using ht)
        simp [ha, hty]

instance (f : Func) : Decidable f.Typed :=
  decidable_of_iff (∀ b < f.blocks.length, ∀ inst ∈ (f.block b).insts.map f.inst, inst.Typed f)
    (Func.forall_block (P := fun _ blk => ∀ inst ∈ blk.insts.map f.inst, inst.Typed f)
      (by simp [Func.noBlock])).symm

section

variable {M : Machine}

theorem Op.compute_ty {op : Op} {args : List Val} {a b v : Val}
    (h : op.compute M args a b = some v) : op.resultTy = some v.ty := by
  cases op <;> cases h <;> rfl

theorem Op.load_ty {op : Op} {w : World M.Rest} {a b c v : Val}
    (h : op.load w a b c = some v) : op.resultTy = some v.ty := by
  cases op <;> cases h <;> first | rfl | (split <;> rfl)

theorem GuardKind.check_ty {kind : GuardKind} {f : Func} {w : World M.Rest} {a b : Val}
    {r : Option Val} (h : kind.check f w a b = some r) : r.map Val.ty = kind.resultTy := by
  cases kind <;> simp only [GuardKind.check] at h
  case number | arith =>
    obtain ⟨x, _, rfl⟩ := Option.map_eq_some_iff.mp h
    rfl
  case int | whole =>
    cases hn : numberOf a with
    | none => simp [hn] at h
    | some x =>
        simp only [hn, Option.bind_eq_bind, Option.bind_some, Option.ite_none_right_eq_some,
          Option.some.injEq] at h
        obtain ⟨_, rfl⟩ := h
        rfl
  case bool =>
    split at h <;> cases h
    rfl
  all_goals
    repeat' split at h
    all_goals cases h
    all_goals rfl

theorem Op.store_ty {op : Op} {f : Func} {w w' : World M.Rest} {regs : List (Nat × Value)}
    {args : List Val} {a b c d v : Val}
    (h : op.store f w regs args a b c d = .next (some v) w') : op.resultTy = some v.ty := by
  cases op
  case generic ip frame =>
    change (M.generic ip frame (w.flush regs)).answer = _ at h
    cases hg : M.generic ip frame (w.flush regs) <;> rw [hg] at h <;> cases h
  case safepoint =>
    change (M.safepoint (w.flush regs)).answer = _ at h
    cases hg : M.safepoint (w.flush regs) <;> rw [hg] at h <;> cases h
  all_goals cases h
  all_goals rfl

/-- What an operation gives has its result type. -/
theorem Op.eval_ty {op : Op} {f : Func} {w w' : World M.Rest} {regs : List (Nat × Value)}
    {args : List Val} {v : Val} (h : op.eval f w regs args = .next (some v) w') :
    op.resultTy = some v.ty := by
  unfold Op.eval at h
  simp only at h
  split at h
  · rename_i x hx
    cases h
    exact compute_ty hx
  · split at h
    · rename_i x hx
      cases h
      exact load_ty hx
    · split at h
      · rename_i kind _ _
        split at h
        · rename_i r hr
          cases h
          exact (GuardKind.check_ty hr).symm
        · cases h
      · repeat' split at h
        all_goals cases h
        all_goals rfl
      · split at h <;> cases h
        rfl
      · exact store_ty h

end

section

variable {M : Machine} {f : Func}

/-- Every value holds something of its type. -/
def Env.Typed (f : Func) (env : Env) : Prop := ∀ v, (env v).ty = f.ty v

theorem Env.Typed.enter {env : Env} (h : env.Typed f) {params : List ValueId}
    {args : List ValueId} (hty : ∀ e ∈ args.zip params, f.ty e.1 = f.ty e.2) :
    (env.enter params (args.map env)).Typed f := by
  have key : ∀ (params args : List ValueId) (env' : Env), env'.Typed f →
      (∀ e ∈ args.zip params, f.ty e.1 = f.ty e.2) →
      (env'.enter params (args.map env)).Typed f := by
    intro params
    induction params with
    | nil => exact fun args env' he _ => he
    | cons p params ih =>
        intro args env' he hty
        cases args with
        | nil => exact he
        | cons a args =>
            refine ih args (Function.update env' p (env a)) (fun v => ?_)
              fun e hm => hty e (List.mem_cons_of_mem _ hm)
            by_cases hv : v = p
            · subst hv
              rw [Function.update_self, h a]
              exact hty (a, v) List.mem_cons_self
            · rw [Function.update_of_ne hv]
              exact he v
  exact key params args env h hty

/-- Along a run of a typed function every value holds something of its type. -/
theorem At.typed (hv : f.Valid) (ht : f.Typed) {w₀ w : World M.Rest} {b : BlockId} {j : Nat}
    {env : Env} (h : At f w₀ b j env w) : env.Typed f := by
  induction h with
  | start =>
      intro v
      simp only [Func.start]
      cases f.ty v <;> rfl
  | @inst b j env env' w w' inst seen hat hj hrun ih =>
      obtain ⟨v, he, rfl, _⟩ := Inst.run_on hrun
      have htyped := ht b inst (List.mem_of_getElem? hj)
      intro x
      cases hr : inst.result with
      | none => exact ih x
      | some r =>
          cases v with
          | none => exact ih x
          | some v =>
              simp only [Env.define]
              by_cases hx : x = r
              · subst hx
                have := htyped.result
                rw [hr, Op.eval_ty he, Option.map_some, Option.some.injEq] at this
                rw [Function.update_self, this]
              · rw [Function.update_of_ne hx]
                exact ih x
  | @edge b c env env' w w' seen hat hrun ih =>
      obtain ⟨args, he, rfl, _⟩ := Terminator.run_on hrun
      exact ih.enter (hv.edges b hat.reachable _ he).2

/-- No operation of a run is done to an operand of another type than it takes. -/
theorem types_hold (hs : f.Ssa) (hverify : f.verify = .ok ()) (ht : f.Typed)
    {w₀ w : World M.Rest} {b : BlockId} {j : Nat} {env : Env} (h : At f w₀ b j env w) :
    (∀ v, (env v).ty = f.ty v) ∧ ∀ inst, (f.code b)[j]? = some inst →
      ∀ (k : Nat) (t : Ty), inst.op.argTys[k]? = some (some t) →
        ∃ x, (inst.args.map env)[k]? = some x ∧ x.ty = t := by
  have henv := h.typed (hs.verify_iff.mp hverify) ht
  refine ⟨henv, fun inst hj k t hk => ?_⟩
  obtain ⟨a, ha, hty⟩ := (ht b inst (List.mem_of_getElem? hj)).args k t hk
  exact ⟨env a, by simp [ha], (henv a).trans hty⟩

/-- A double that a block is passed and adds to itself. -/
def doubled : Func where
  blocks := [
    ⟨[], [], [], [0], .jump 1 [0], some 0, 0⟩,
    ⟨[1], [3], [], [1, 2], .ret 3, none, 0⟩]
  insts := [
    ⟨.constF64 ⟨1⟩, [], some 0, none⟩,
    ⟨.fAdd, [1, 1], some 2, none⟩,
    ⟨.boxF64, [2], some 3, none⟩]
  values := [⟨.f64, .inst 0⟩, ⟨.f64, .param 1 0⟩, ⟨.f64, .inst 1⟩, ⟨.tagged, .inst 2⟩]
  entry := 0
  osrEntries := []
  frames := [⟨0, 0⟩]
  paramClasses _ _ := []

theorem types_hold_doubled : ∃ env, At doubled World.bare 1 0 env World.bare ∧
    (env 1).ty = .f64 ∧ ∃ x, ([1, 1].map env)[1]? = some x ∧ x.ty = .f64 := by
  have hstart : At doubled World.bare 0 0 (doubled.start World.bare).env World.bare := .start
  have hat := At.edge (.inst hstart rfl rfl) rfl
  have h := types_hold (Func.ssa_of_check rfl) rfl (by decide) hat
  exact ⟨_, hat, h.1 1, h.2 ⟨.fAdd, [1, 1], some 2, none⟩ rfl 1 .f64 rfl⟩

end

end Zuri.Jit.Ir
