import Zuri.Jit.Ir.Passes.GvnKeys
import Zuri.Jit.Ir.Prune

/-!
What an entry of the table says about a run.

An entry holds at a moment when its key's operation, on the entry's operands,
would give the entry's value there. Entries of checks without a version are
known only as long as no write of the run changes what a check it has made, and
makes again further on, would answer: `Steady` says so of one step.
-/

namespace Zuri.Jit.Ir.Gvn

open Transition (Next)

variable {M : Machine}

/-- The operation of a position is asked again where the position has been
passed. -/
def Again (f : Func) (b : BlockId) (j : Nat) (inst : Inst) : Prop :=
  ∃ c k again, (f.code c)[k]? = some again ∧ again.op = inst.op ∧ f.Before b (j + 1) c k

/-- A step of the run, at `(c, k)`, from memory `w` to `w'`, changes the answer
of no unversioned check made before it that is asked again. -/
def Steady (f : Func) (c : BlockId) (k : Nat) (env : Env) (w w' : World M.Rest) : Prop :=
  ∀ b j inst, (f.code b)[j]? = some inst → unversioned inst.op = true →
    f.Before b (j + 1) c k → Again f b j inst →
    ∀ r, inst.op.eval f w [] (inst.args.map env) = .next r w →
      inst.op.eval f w' [] (inst.args.map env) = .next r w'

/-- Every step of the run from `w₀` is steady. -/
def SteadyRun (f : Func) (w₀ : World M.Rest) : Prop :=
  ∀ b j env w inst seen env' w', At f w₀ b j env w → (f.code b)[j]? = some inst →
    inst.run f env w = (seen, .on (env', w')) → Steady f b j env w w'

/-- What an entry says of a moment. -/
def Holds (f : Func) (key : Lookup) (v : ValueId) (env : Env) (w : World M.Rest) : Prop :=
  key.1.op.eval f w [] (key.2.map env) =
    .next (if key.1.op.resultTy.isSome then some (env v) else none) w

/-- The values an entry is about. -/
def About (key : Lookup) (v x : ValueId) : Prop :=
  x ∈ key.2 ∨ (x = v ∧ key.1.op.resultTy.isSome)

/-- The position a check was entered from, with its operands the entry's. -/
structure Origin (f : Func) (w₀ : World M.Rest) (key : Lookup) (d : BlockId) (i : Nat)
    (inst : Inst) : Prop where
  code : (f.code d)[i]? = some inst
  op : inst.op = key.1.op
  args : ∀ b j env (w : World M.Rest), At f w₀ b j env w → f.Before d i b j →
    key.2.map env = inst.args.map env

/-- An entry holds whenever a run comes to `(b, j)`; one without a version at
least if it is looked up again. -/
def Known (f : Func) (w₀ : World M.Rest) (key : Lookup) (v : ValueId) (b : BlockId) (j : Nat) :
    Prop :=
  (unversioned key.1.op = false ∧ ∀ env w, At f w₀ b j env w → Holds f key v env w) ∨
    (unversioned key.1.op = true ∧ ∃ d i inst, Origin f w₀ key d i inst ∧
      f.Before d (i + 1) b j ∧
      (Again f d i inst → ∀ env w, At f w₀ b j env w → Holds f key v env w))

theorem Holds.congr {f : Func} {key : Lookup} {v : ValueId} {env env' : Env} {w : World M.Rest}
    (he : ∀ x, About key v x → env' x = env x) (h : Holds f key v env w) :
    Holds f key v env' w := by
  unfold Holds at h ⊢
  have hargs : key.2.map env' = key.2.map env :=
    List.map_congr_left fun x hx => he x (.inl hx)
  rw [hargs, h]
  split
  · rename_i hr
    rw [he v (.inr ⟨rfl, hr⟩)]
  · rfl

theorem Holds.stable {f : Func} {key : Lookup} {v : ValueId} {env : Env} {w w' : World M.Rest}
    (h : Holds f key v env w) (hs : key.1.Stable w w') : Holds f key v env w' := hs.eval h

/-- A steady step keeps what is known of a check that is asked again. -/
theorem Holds.steady {f : Func} {w₀ : World M.Rest} {key : Lookup} {v : ValueId} {d b : BlockId}
    {i j : Nat} {inst : Inst} {env : Env} {w w' : World M.Rest} (h : Holds f key v env w)
    (ho : Origin f w₀ key d i inst) (hu : unversioned key.1.op = true)
    (hb : f.Before d (i + 1) b j) (ha : Again f d i inst) (hat : At f w₀ b j env w)
    (hs : Steady f b j env w w') : Holds f key v env w' := by
  have hbef : f.Before d i b j := by
    rcases hb with ⟨rfl, hle⟩ | hdom
    · exact .inl ⟨rfl, by omega⟩
    · exact .inr hdom
  have hargs := ho.args b j env w hat hbef
  unfold Holds at h ⊢
  rw [hargs, ← ho.op] at h ⊢
  exact hs d i inst ho.code (ho.op ▸ hu) hb ha _ h

section

variable {f : Func} {w₀ : World M.Rest} {key : Lookup} {v : ValueId} {b c : BlockId} {j : Nat}

/-- The moments at a position past an instruction come from the moments at it. -/
theorem at_succ {inst : Inst} {env' : Env} {w' : World M.Rest} (hj : (f.code b)[j]? = some inst)
    (h : At f w₀ b (j + 1) env' w') :
    ∃ env w seen, At f w₀ b j env w ∧ inst.run f env w = (seen, .on (env', w')) := by
  cases h with
  | inst hat hj' hrun =>
      rw [hj] at hj'
      cases hj'
      exact ⟨_, _, _, hat, hrun⟩

/-- An entry stays known over an instruction that leaves alone what it reads. -/
theorem Known.step (hs : f.Ssa) (hst : SteadyRun f w₀) {inst : Inst}
    (hj : (f.code b)[j]? = some inst) (h : Known f w₀ key v b j)
    (hscope : ∀ x, About key v x → f.InScope x b j)
    (hkeep : ∀ (w w' : World M.Rest) regs args r, inst.op.eval f w regs args = .next r w' →
      unversioned key.1.op = true ∨ key.1.Stable w w') :
    Known f w₀ key v b (j + 1) := by
  have henv : ∀ env (w : World M.Rest) (r : Option Val), At f w₀ b j env w → ∀ x, About key v x →
      env.define inst.result r x = env x := fun env w r hat x hx =>
    Env.define_of_ne env r
      (hs.result_not_inScope (hscope x hx) (.inl ⟨rfl, Nat.le_refl j⟩) hat.reachable hj)
  rcases h with ⟨hu, hall⟩ | ⟨hu, d, i, origin, ho, hbef, hall⟩
  · refine .inl ⟨hu, fun env' w' hat' => ?_⟩
    obtain ⟨env, w, seen, hat, hrun⟩ := at_succ hj hat'
    obtain ⟨r, he, rfl, _⟩ := Inst.run_on hrun
    have hstable := (hkeep _ _ _ _ _ he).resolve_left (by simp [hu])
    exact ((hall env w hat).stable hstable).congr (henv env w r hat)
  · have hbef' : f.Before d (i + 1) b (j + 1) := by
      rcases hbef with ⟨rfl, hle⟩ | hdom
      · exact .inl ⟨rfl, by omega⟩
      · exact .inr hdom
    refine .inr ⟨hu, d, i, origin, ho, hbef', fun ha env' w' hat' => ?_⟩
    obtain ⟨env, w, seen, hat, hrun⟩ := at_succ hj hat'
    have hsteady := hst _ _ _ _ _ _ _ _ hat hj hrun
    obtain ⟨r, he, rfl, _⟩ := Inst.run_on hrun
    exact ((hall ha env w hat).steady ho hu hbef ha hat hsteady).congr (henv env w r hat)

/-- What is known at the end of a block is known in the block it alone leads
to. -/
theorem Known.inherit (hs : f.Ssa) (h : Known f w₀ key v b (f.code b).length)
    (hscope : ∀ x, About key v x → f.InScope x b (f.code b).length)
    (hne : b ≠ c) (hdom : f.Dom b c) (hr : f.Reachable c) (honly : f.preds c = [b]) :
    Known f w₀ key v c 0 := by
  have hall : ∀ {P : Env → World M.Rest → Prop},
      (∀ env env' w, (∀ x, About key v x → env' x = env x) → P env w → P env' w) →
      (∀ env w, At f w₀ b (f.code b).length env w → P env w) →
      ∀ env w, At f w₀ c 0 env w → P env w := by
    intro P hcongr hP env w hat
    cases hat with
    | start => exact absurd (Graph.Dom.eq_root hdom) hne
    | @edge b' _ env _ _ _ _ hat hrun =>
        obtain ⟨args, he, rfl, rfl⟩ := Terminator.run_on hrun
        have hedge := Func.mem_edges_succs he
        have hbb : b' = b := by
          have := Func.mem_preds.mpr hedge
          rw [honly] at this
          exact List.mem_singleton.mp this
        subst hbb
        refine hcongr env _ _ (fun x hx => ?_) (hP env _ hat)
        exact Env.enter_of_not_mem _ _ _
          (hs.param_not_inScope (hscope x hx) hne hdom (.step hat.reachable hedge))
  have hcongr : ∀ env env' (w : World M.Rest), (∀ x, About key v x → env' x = env x) →
      Holds f key v env w → Holds f key v env' w := fun _ _ _ he h => h.congr he
  rcases h with ⟨hu, hat⟩ | ⟨hu, d, i, origin, ho, hbef, hat⟩
  · exact .inl ⟨hu, hall hcongr hat⟩
  · exact .inr ⟨hu, d, i, origin, ho, hbef.trans (.inr ⟨hne, hdom⟩) hr,
      fun ha => hall hcongr (hat ha)⟩

/-- What is known of a check whatever memory it is made in is known wherever it
has been passed. -/
theorem Known.persist (hs : f.Ssa) (hst : SteadyRun f w₀) (h : Known f w₀ key v b j)
    (hj : j ≤ (f.code b).length) (hscope : ∀ x, About key v x → f.InScope x b j)
    (hstable : ∀ w w' : World M.Rest, unversioned key.1.op = true ∨ key.1.Stable w w') {k : Nat}
    (hb : f.Before b j c k) (hr : f.Reachable c) : Known f w₀ key v c k := by
  have hcongr : ∀ env env' (w : World M.Rest), (∀ x, About key v x → env' x = env x) →
      Holds f key v env w → Holds f key v env' w := fun _ _ _ he h => h.congr he
  rcases h with ⟨hu, hall⟩ | ⟨hu, d, i, origin, ho, hbef, hall⟩
  · refine .inl ⟨hu, fun env w hat => ?_⟩
    refine At.persist hs hj hscope hcongr ?_ hall hat hb
    intro b' j' env w inst seen env' w' _ _ _ _ hold
    exact hold.stable ((hstable w w').resolve_left (by simp [hu]))
  · refine .inr ⟨hu, d, i, origin, ho, hbef.trans hb hr, fun ha env w hat => ?_⟩
    refine At.persist hs hj hscope hcongr ?_ (hall ha) hat hb
    intro b' j' env w inst seen env' w' hat' hbef' hj' hrun hold
    have hbef'' := hbef.trans hbef' hat'.reachable
    exact hold.steady ho hu hbef'' ha hat' (hst _ _ _ _ _ _ _ _ hat' hj' hrun)

end

end Zuri.Jit.Ir.Gvn
