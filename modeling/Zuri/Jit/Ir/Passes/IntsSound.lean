import Zuri.Jit.Ir.Passes.Ints

/-!
When ranges and what is decided from them are right. They are along every run in which each
length that is asked for is of a value that has one: what an instruction reads where there is
none, -1, lies outside the range it has, and the check against it is one that is deleted.
-/

namespace Zuri.Jit.Ir.Ints

variable {M : Machine} {f : Func} {w₀ : World M.Rest} {b c : BlockId} {j : Nat} {env : Env}
  {w : World M.Rest} {v : ValueId}

/-- A comparison whose answer is known comes out so. -/
theorem decided_sound {cmp : Cmp} {x y : ValueId} {answer : Bool}
    (hx : ∀ r, range f x = some r → Within r (env x).asI64)
    (hy : ∀ r, range f y = some r → Within r (env y).asI64)
    (h : decided f cmp x y = some answer) :
    cmp.onI64 (env x).asI64 (env y).asI64 = answer := by
  obtain ⟨p, hp, hrest⟩ := Option.bind_eq_some_iff.mp h
  obtain ⟨q, hq, hanswer⟩ := Option.bind_eq_some_iff.mp hrest
  obtain ⟨hxlow, hxhigh⟩ := hx p hp
  obtain ⟨hylow, hyhigh⟩ := hy q hq
  generalize (env x).asI64 = k at hxlow hxhigh
  generalize (env y).asI64 = l at hylow hyhigh
  have hne : k.toInt ≠ l.toInt → k ≠ l := fun hd heq => hd (by rw [heq])
  cases cmp with
  | lt =>
      rw [Cmp.onI64, BitVec.slt_eq_decide]
      simp only at hanswer
      split at hanswer
      · cases hanswer
        exact decide_eq_true (by omega)
      · split at hanswer
        · cases hanswer
          exact decide_eq_false (by omega)
        · cases hanswer
  | le =>
      rw [Cmp.onI64, BitVec.sle_eq_decide]
      simp only at hanswer
      split at hanswer
      · cases hanswer
        exact decide_eq_true (by omega)
      · split at hanswer
        · cases hanswer
          exact decide_eq_false (by omega)
        · cases hanswer
  | gt =>
      rw [Cmp.onI64, BitVec.slt_eq_decide]
      simp only at hanswer
      split at hanswer
      · cases hanswer
        exact decide_eq_true (by omega)
      · split at hanswer
        · cases hanswer
          exact decide_eq_false (by omega)
        · cases hanswer
  | ge =>
      rw [Cmp.onI64, BitVec.sle_eq_decide]
      simp only at hanswer
      split at hanswer
      · cases hanswer
        exact decide_eq_true (by omega)
      · split at hanswer
        · cases hanswer
          exact decide_eq_false (by omega)
        · cases hanswer
  | eq =>
      simp only at hanswer
      split at hanswer
      · cases hanswer
        exact beq_eq_false_iff_ne.mpr (hne (by omega))
      · cases hanswer
  | ne =>
      simp only at hanswer
      split at hanswer
      · cases hanswer
        exact bne_iff_ne.mpr (hne (by omega))
      · cases hanswer

/-- What is right at a moment of a run: every integer in scope is within its range, a
comparison whose answer is known comes out so, and a check that is deleted passes. -/
structure SoundAt (f : Func) (b : BlockId) (j : Nat) (env : Env) : Prop where
  within : ∀ v r, f.InScope v b j → range f v = some r → Within r (env v).asI64
  compares : ∀ inst cmp answer, (f.code b)[j]? = some inst → inst.op = .iCmp cmp →
    folded f inst = .constBool answer →
    cmp.onI64 (env (inst.args.getD 0 0)).asI64 (env (inst.args.getD 1 0)).asI64 = answer
  checks : ∀ inst, (f.code b)[j]? = some inst → alwaysPasses f inst = true →
    (env (inst.args.getD 0 0)).asBool = true

/-- The builder's check that a length is not the -1 that stands for none. -/
def SentinelCheck (f : Func) (inst : Inst) : Prop :=
  inst.op = .guard .true ∧ ∃ d, f.defInst (inst.args.getD 0 0) = some d ∧ d.op = .iCmp .ge ∧
    (∃ n, f.defInst (d.args.getD 0 0) = some n ∧ n.op = .objLength) ∧
    ∃ z, f.defInst (d.args.getD 1 0) = some z ∧ z.op = .constI64 0

/-- What the ranges are for, along every run from a memory: they are right, what is decided
from them is, and no check against a sentinel is deleted. -/
structure Sound (f : Func) (w₀ : World M.Rest) : Prop where
  runs : ∀ b j env (w : World M.Rest), At f w₀ b j env w → SoundAt f b j env
  keeps : ∀ b, ∀ inst ∈ f.code b, SentinelCheck f inst → alwaysPasses f inst = false

/-- Every length that is asked for is of a value that has one, and none is checked. -/
structure Measured (f : Func) (w₀ : World M.Rest) : Prop where
  runs : ∀ b j env (w : World M.Rest) inst, At f w₀ b j env w → (f.code b)[j]? = some inst →
    Measures inst env
  none : ∀ b, ∀ inst ∈ f.code b, ¬SentinelCheck f inst

theorem folded_iCmp {inst : Inst} {cmp : Cmp} {answer : Bool} (hop : inst.op = .iCmp cmp)
    (h : folded f inst = .constBool answer) :
    decided f cmp (inst.args.getD 0 0) (inst.args.getD 1 0) = some answer := by
  rw [folded, hop] at h
  simp only at h
  split at h
  · rename_i known hknown
    cases h
    exact hknown
  · cases h

theorem compares_sound (hv : f.Valid) (ht : f.Typed) (hr : f.Reachable b)
    (hall : WithinAll f b j env) {inst : Inst} {cmp : Cmp} {answer : Bool}
    (hj : (f.code b)[j]? = some inst) (hop : inst.op = .iCmp cmp)
    (h : folded f inst = .constBool answer) :
    cmp.onI64 (env (inst.args.getD 0 0)).asI64 (env (inst.args.getD 1 0)).asI64 = answer := by
  have hx := (operand env hv ht hr hj (k := 0) (t := .i64) (by rw [hop]; rfl)).2
  have hy := (operand env hv ht hr hj (k := 1) (t := .i64) (by rw [hop]; rfl)).2
  exact decided_sound (fun r => hall _ _ r hx) (fun r => hall _ _ r hy) (folded_iCmp hop h)

/-- An instruction that becomes a constant gives that constant. -/
theorem result_known (hv : f.Valid) (ht : f.Typed) (hr : f.Reachable b)
    (hall : WithinAll f b j env) {inst : Inst} {answer : Bool} {w' : World M.Rest}
    {val : Option Val} (hj : (f.code b)[j]? = some inst)
    (h : folded f inst = .constBool answer)
    (heval : inst.op.eval f w (inst.regs env) (inst.args.map env) = .next val w') :
    val = some (.bool answer) := by
  cases hop : inst.op with
  | iCmp cmp =>
      obtain ⟨hx, -⟩ := operand env hv ht hr hj (k := 0) (t := .i64) (by rw [hop]; rfl)
      obtain ⟨hy, -⟩ := operand env hv ht hr hj (k := 1) (t := .i64) (by rw [hop]; rfl)
      have hanswer := compares_sound hv ht hr hall hj hop h
      rw [hop] at heval
      cases heval
      rw [hx, hy, hanswer]
  | constBool known =>
      rw [folded, hop] at h
      cases h
      rw [hop] at heval
      cases heval
      rfl
  | _ =>
      rw [folded, hop] at h
      cases h

/-- What is known of a condition holds wherever it is in scope. -/
theorem at_known (hs : f.Ssa) (hv : f.Valid) (ht : f.Typed)
    (hall : ∀ b j env (w : World M.Rest), At f w₀ b j env w → WithinAll f b j env)
    (h : At f w₀ b j env w) :
    ∀ v d answer, f.InScope v b j → f.defInst v = some d → folded f d = .constBool answer →
      env v = .bool answer := by
  induction h with
  | start =>
      intro v d answer hscope hdef _
      rw [defInst_param hs (param_of_start hscope)] at hdef
      cases hdef
  | @inst b j env env' w w' inst seen hat hj hrun ih =>
      obtain ⟨val, heval, rfl, -⟩ := Inst.run_on hrun
      intro v d answer hscope hdef hfold
      by_cases hres : inst.result = some v
      · rw [defInst_eq hs hj hres] at hdef
        cases hdef
        rw [result_known hv ht hat.reachable (hall _ _ _ _ hat) hj hfold heval, hres]
        exact Function.update_self _ _ _
      · rw [Env.define_of_ne env val hres]
        exact ih v d answer (inScope_succ hj hscope hres) hdef hfold
  | @edge b c env env' w w' seen hat hrun ih =>
      obtain ⟨args, he, rfl, rfl⟩ := Terminator.run_on hrun
      intro v d answer hscope hdef hfold
      by_cases hparam : v ∈ (f.block c).params
      · rw [defInst_param hs hparam] at hdef
        cases hdef
      · rw [Env.enter_of_not_mem _ _ _ hparam]
        exact ih v d answer (inScope_edge hscope (Func.mem_edges_succs he) hparam) hdef hfold

theorem measured_sound (hs : f.Ssa) (hv : f.Valid) (ht : f.Typed)
    (hsized : ∀ b j env (w : World M.Rest), At f w₀ b j env w → Sized w)
    (h : Measured f w₀) : Sound f w₀ := by
  have hall : ∀ b j env (w : World M.Rest), At f w₀ b j env w → WithinAll f b j env :=
    fun b j env w hat => at_within hs hv ht hsized h.runs hat
  refine ⟨fun b j env w hat => ⟨?_, ?_, ?_⟩, fun b inst hmem hcheck => ?_⟩
  · exact fun v r hscope hrange => hall _ _ _ _ hat 4 v r hscope hrange
  · exact fun inst cmp answer hj hop hfold =>
      compares_sound hv ht hat.reachable (hall _ _ _ _ hat) hj hop hfold
  · intro inst hj hpasses
    rw [alwaysPasses, Bool.and_eq_true, decide_eq_true_iff] at hpasses
    obtain ⟨hop, hany⟩ := hpasses
    obtain ⟨d, hdef, hfold⟩ := (Option.any_eq_true _ _).mp hany
    have hscope := (operand env hv ht hat.reachable hj (k := 0) (t := .bool)
      (by rw [hop]; rfl)).2
    rw [at_known hs hv ht hall hat _ d true hscope hdef (of_decide_eq_true hfold)]
    rfl
  · exact absurd hcheck (h.none b inst hmem)

/-- A check against a sentinel is always deleted. -/
theorem sentinel_deleted {inst : Inst} (h : SentinelCheck f inst) :
    alwaysPasses f inst = true := by
  obtain ⟨hop, d, hdef, hcmp, ⟨n, hn, hnop⟩, z, hz, hzop⟩ := h
  have hlength : range f (d.args.getD 0 0) = some (0, exact) := by
    rw [range, rangeAt, hn, Option.bind_some, hnop]
    rfl
  have hzero : range f (d.args.getD 1 0) = some (0, 0) := by
    rw [range, rangeAt, hz, Option.bind_some, hzop]
    rfl
  have hdecided : decided f .ge (d.args.getD 0 0) (d.args.getD 1 0) = some true := by
    rw [decided, hlength, hzero]
    rfl
  have hfold : folded f d = .constBool true := by
    rw [folded, hcmp]
    simp only [hdecided]
  rw [alwaysPasses, hop, hdef, Option.any_some, hfold]
  rfl

/-- A length asked of a value that has none is read out of its range. -/
theorem sound_measures (hs : f.Ssa) (ht : f.Typed) (h : Sound f w₀) {inst : Inst}
    (hat : At f w₀ b j env w) (hj : (f.code b)[j]? = some inst) : Measures inst env := by
  intro hop
  by_contra hnone
  have htyped := ht b inst (List.mem_of_getElem? hj)
  obtain ⟨x, hx, -⟩ := htyped.args 0 .tagged (by rw [hop]; rfl)
  obtain ⟨hval, hget⟩ := args_getD env hx
  rw [hget] at hnone
  have hresult : ∃ r, inst.result = some r := by
    have hty := htyped.result
    rw [hop] at hty
    exact (Option.map_eq_some_iff.mp hty).imp fun r hr => hr.1
  obtain ⟨r, hr⟩ := hresult
  have heval : inst.op.eval f w (inst.regs env) (inst.args.map env) =
      .next (some (.i64 (BitVec.ofInt 64 (-1)))) w := by
    rw [hop, ← lengthOf_none (w := w) hnone, ← hval]
    rfl
  have hrun : inst.run f env w = (if inst.op.visible
      then [.effect inst.op (inst.args.map env) (inst.regs env)] else [],
      .on (env.define inst.result (some (.i64 (BitVec.ofInt 64 (-1)))), w)) := by
    rw [Inst.run]
    simp only [heval]
  have hnext := At.inst hat hj hrun
  have hscope : f.InScope r b (j + 1) :=
    ⟨b, j + 1, Func.Defines.inst hj hr, .inl ⟨rfl, Nat.le_refl _⟩⟩
  have hrange : range f r = some (0, exact) := by
    rw [range, rangeAt, defInst_eq hs hj hr, Option.bind_some, hop]
    rfl
  have hwithin := (h.runs _ _ _ _ hnext).within r _ hscope hrange
  rw [hr] at hwithin
  simp only [Env.define, Function.update_self, Val.asI64] at hwithin
  exact absurd hwithin.1 (by decide)

/-- Whatever the function and the memory its run begins with, as long as nothing in memory is
longer than a double can count, ranges and what is decided from them are right along the run,
and no check against a sentinel is deleted, exactly when every length is asked of a value that
has one and the function has no such check. -/
theorem ranges_sound (f : Func) (w₀ : World M.Rest) (hs : f.Ssa) (ht : f.Typed)
    (hv : f.verify = .ok ())
    (hsized : ∀ b j env (w : World M.Rest), At f w₀ b j env w → Sized w) :
    Sound f w₀ ↔ Measured f w₀ := by
  constructor
  · intro h
    refine ⟨fun b j env w inst hat hj => sound_measures hs ht h hat hj,
      fun b inst hmem hcheck => ?_⟩
    have hkept := h.keeps b inst hmem hcheck
    rw [sentinel_deleted hcheck] at hkept
    cases hkept
  · exact measured_sound hs (hs.verify_iff.mp hv) ht hsized

/-- Three against five. -/
def compared : Func where
  blocks := [⟨[], [], [], [0, 1, 2], .ret 2, some 0, 0⟩]
  insts := [
    ⟨.constI64 3, [], some 0, none⟩,
    ⟨.constI64 5, [], some 1, none⟩,
    ⟨.iCmp .lt, [0, 1], some 2, none⟩]
  values := [⟨.i64, .inst 0⟩, ⟨.i64, .inst 1⟩, ⟨.bool, .inst 2⟩]
  entry := 0
  osrEntries := []
  frames := [⟨0, 0⟩]
  paramClasses _ _ := []

theorem compared_world {w : World Machine.bare.Rest} (h : At compared World.bare b j env w) :
    w = World.bare := by
  induction h with
  | start => rfl
  | @inst b j env env' w w' inst seen hat hj hrun ih =>
      obtain ⟨val, heval, -, -⟩ := Inst.run_on hrun
      have hmem : inst ∈ compared.insts := by
        have hblock : compared.code b = compared.insts ∨ compared.code b = [] := by
          cases b with
          | zero => exact .inl rfl
          | succ b => exact .inr rfl
        have hcode := List.mem_of_getElem? hj
        obtain hall | hnone := hblock
        · rwa [hall] at hcode
        · rw [hnone] at hcode
          cases hcode
      obtain rfl | hmem := List.mem_cons.mp hmem
      · cases heval
        exact ih
      · obtain rfl | hmem := List.mem_cons.mp hmem
        · cases heval
          exact ih
        · obtain rfl := List.mem_singleton.mp hmem
          cases heval
          exact ih
  | edge _ hrun ih =>
      obtain ⟨args, -, -, rfl⟩ := Terminator.run_on hrun
      exact ih

theorem sized_bare : Sized World.bare :=
  ⟨fun _ => Nat.zero_le _, fun _ => Nat.zero_le _, fun _ => Nat.zero_le _⟩

theorem ranges_sound_compared : Sound compared World.bare ↔ Measured compared World.bare :=
  ranges_sound compared World.bare (Func.ssa_of_check (by decide)) (by decide)
    (by rfl) fun _ _ _ _ h => by rw [compared_world h]; exact sized_bare

/-- The length of nil, with the check the builder makes. -/
def nilLength : Func where
  blocks := [⟨[], [], [], [0, 1, 2, 3, 4], .ret 1, some 0, 0⟩]
  insts := [
    ⟨.constTagged 0, [], some 0, none⟩,
    ⟨.objLength, [0], some 1, none⟩,
    ⟨.constI64 0, [], some 2, none⟩,
    ⟨.iCmp .ge, [1, 2], some 3, none⟩,
    ⟨.guard .true, [3], none, some ⟨0, [(0, 0)], 0, none⟩⟩]
  values := [⟨.tagged, .inst 0⟩, ⟨.i64, .inst 1⟩, ⟨.i64, .inst 2⟩, ⟨.bool, .inst 3⟩]
  entry := 0
  osrEntries := []
  frames := [⟨0, 0⟩]
  paramClasses _ _ := []

/-- The length read is -1, which is not in its range, and the check of it is deleted. -/
theorem nilLength_unsound : nilLength.Ssa ∧ nilLength.Typed ∧ nilLength.verify = .ok () ∧
    (∃ env, At nilLength World.bare 0 2 env World.bare ∧
      range nilLength 1 = some (0, exact) ∧ env 1 = .i64 (BitVec.ofInt 64 (-1))) ∧
    alwaysPasses nilLength (nilLength.inst 4) = true ∧ ¬Sound nilLength World.bare := by
  have hdeleted : alwaysPasses nilLength (nilLength.inst 4) = true := by rfl
  have hcheck : SentinelCheck nilLength (nilLength.inst 4) :=
    ⟨rfl, nilLength.inst 3, rfl, rfl, ⟨nilLength.inst 1, rfl, rfl⟩, nilLength.inst 2, rfl, rfl⟩
  refine ⟨Func.ssa_of_check (by decide), by decide, by decide, ?_,
    hdeleted, fun h => ?_⟩
  · exact ⟨_, .inst (.inst .start rfl rfl) rfl rfl, by rfl, rfl⟩
  · have hkept := h.keeps 0 (nilLength.inst 4) (by simp [nilLength, Func.code, Func.block,
      Func.inst]) hcheck
    rw [hdeleted] at hkept
    cases hkept

end Zuri.Jit.Ir.Ints
