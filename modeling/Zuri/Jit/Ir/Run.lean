import Zuri.Jit.Ir.Semantics
import Zuri.Jit.Ir.Verify

/-!
The moments of a run, and what stays true from one to the next.

`At f w₀ b j env w` says that a run from memory `w₀` comes to position `j` of
block `b` with the given values and memory. A value never changes once the run
is past its definition, so a fact about values in scope at a position holds at
every moment the position is passed before: `At.persist` is the one induction
over runs the passes' proofs are built from.
-/

namespace Zuri.Jit.Ir

open Transition (Next)

variable {M : Machine}

/-- The moments a run of `f` comes to. -/
inductive At (f : Func) (w₀ : World M.Rest) : BlockId → Nat → Env → World M.Rest → Prop
  | start : At f w₀ f.entry 0 (f.start w₀).env w₀
  | inst {b : BlockId} {j : Nat} {env env' : Env} {w w' : World M.Rest} {inst : Inst}
      {seen : List Event} :
      At f w₀ b j env w → (f.code b)[j]? = some inst →
      inst.run f env w = (seen, .on (env', w')) → At f w₀ b (j + 1) env' w'
  | edge {b c : BlockId} {env env' : Env} {w w' : World M.Rest} {seen : List Event} :
      At f w₀ b (f.code b).length env w →
      (f.block b).term.run f (f.code b) env w = (seen, .on ⟨c, env', w'⟩) →
      At f w₀ c 0 env' w'

theorem Env.enter_of_not_mem (env : Env) (params : List ValueId) (args : List Val)
    {v : ValueId} (h : v ∉ params) : env.enter params args v = env v := by
  unfold Env.enter
  induction params generalizing env args with
  | nil => rfl
  | cons p params ih =>
      cases args with
      | nil => rfl
      | cons a args =>
          rw [List.mem_cons, not_or] at h
          rw [List.zip_cons_cons, List.foldl_cons, ih _ _ h.2]
          exact Function.update_of_ne h.1 _ _

/-- A parameter is what it was passed. -/
theorem Env.enter_mem (env : Env) {params : List ValueId} (hn : params.Nodup) {args : List Val}
    {p : ValueId} {a : Val} (h : (p, a) ∈ params.zip args) : env.enter params args p = a := by
  induction params generalizing env args with
  | nil => cases h
  | cons q params ih =>
      cases args with
      | nil => cases h
      | cons x args =>
          rw [List.nodup_cons] at hn
          rw [List.zip_cons_cons, List.mem_cons] at h
          change Env.enter (Function.update env q x) params args p = a
          rcases h with h | h
          · cases h
            rw [Env.enter_of_not_mem _ _ _ hn.1]
            exact Function.update_self _ _ _
          · exact ih _ hn.2 h

theorem Env.define_of_ne (env : Env) {result : Option ValueId} (val : Option Val) {v : ValueId}
    (h : result ≠ some v) : env.define result val v = env v := by
  cases result with
  | none => rfl
  | some r =>
      cases val with
      | none => rfl
      | some x => exact Function.update_of_ne (fun he => h (by rw [he])) _ _

/-- An instruction that goes on has defined its result and nothing else. -/
theorem Inst.run_on {f : Func} {inst : Inst} {env env' : Env} {w w' : World M.Rest}
    {seen : List Event} (h : inst.run f env w = (seen, .on (env', w'))) :
    ∃ v, inst.op.eval f w (inst.regs env) (inst.args.map env) = .next v w' ∧
      env' = env.define inst.result v ∧
      seen = if inst.op.visible
        then [.effect inst.op (inst.args.map env) (inst.regs env)] else [] := by
  simp only [Inst.run] at h
  split at h
  · rename_i v w₁ he
    cases h
    exact ⟨v, he, rfl, rfl⟩
  · split at h <;> cases h
  · cases h

/-- A block that goes on enters one of its successors. -/
theorem Terminator.run_on {f : Func} {code : List Inst} {env env' : Env} {w w' : World M.Rest}
    {t : Terminator} {c : BlockId} {seen : List Event}
    (h : t.run f code env w = (seen, .on ⟨c, env', w'⟩)) :
    ∃ args, (c, args) ∈ t.edges ∧ env' = env.enter (f.block c).params (args.map env) ∧
      w' = w := by
  cases t with
  | jump target args =>
      simp only [Terminator.run, Prod.mk.injEq, Next.on.injEq, State.mk.injEq] at h
      obtain ⟨_, rfl, rfl, rfl⟩ := h
      exact ⟨args, by simp [Terminator.edges], rfl, rfl⟩
  | branch cond tb ta eb ea =>
      simp only [Terminator.run] at h
      cases ht : (env cond).asBool <;>
        simp only [ht, Prod.mk.injEq, Next.on.injEq, State.mk.injEq, if_true, Bool.false_eq_true,
          if_false] at h <;>
        obtain ⟨_, rfl, rfl, rfl⟩ := h
      · exact ⟨ea, by simp [Terminator.edges], rfl, rfl⟩
      · exact ⟨ta, by simp [Terminator.edges], rfl, rfl⟩
  | ret v => simp [Terminator.run] at h
  | deopt s => simp [Terminator.run] at h
  | unset => simp [Terminator.run] at h

section

variable {f : Func} {w₀ : World M.Rest}

theorem At.reachable {b : BlockId} {j : Nat} {env : Env} {w : World M.Rest}
    (h : At f w₀ b j env w) : f.Reachable b := by
  induction h with
  | start => exact .root
  | inst _ _ _ ih => exact ih
  | edge _ ht ih =>
      obtain ⟨args, he, _⟩ := Terminator.run_on ht
      exact .step ih (Func.mem_edges_succs he)

theorem Func.Before.trans {d b c : BlockId} {i j k : Nat} (hd : f.Before d i b j)
    (hb : f.Before b j c k) (hr : f.Reachable c) : f.Before d i c k := by
  rcases hd with ⟨rfl, hij⟩ | ⟨hne, hdom⟩
  · rcases hb with ⟨rfl, hjk⟩ | ⟨hne, hdom⟩
    · exact .inl ⟨rfl, by omega⟩
    · exact .inr ⟨hne, hdom⟩
  · rcases hb with ⟨rfl, _⟩ | ⟨hbc, hdom'⟩
    · exact .inr ⟨hne, hdom⟩
    · refine .inr ⟨fun hdc => ?_, Graph.Dom.trans hdom hdom'⟩
      subst hdc
      exact hne (Graph.Dom.antisymm hdom hdom' (hdom'.reachable_of_ne hr))

theorem Func.Before.reachable {d b : BlockId} {i j : Nat} (h : f.Before d i b j)
    (hr : f.Reachable b) : f.Reachable d := by
  rcases h with ⟨rfl, _⟩ | ⟨_, hdom⟩
  · exact hr
  · exact hdom.reachable_of_ne hr

/-- What is in scope at a position is in scope wherever the position is passed
before. -/
theorem Func.InScope.mono {v : ValueId} {b c : BlockId} {j k : Nat} (h : f.InScope v b j)
    (hb : f.Before b j c k) (hr : f.Reachable c) : f.InScope v c k := by
  obtain ⟨d, i, hdef, hbef⟩ := h
  exact ⟨d, i, hdef, hbef.trans hb hr⟩

/-- An instruction past a position defines nothing that was in scope there. -/
theorem Func.Ssa.result_not_inScope (hs : f.Ssa) {d b : BlockId} {i j : Nat} {inst : Inst}
    {v : ValueId} (hv : f.InScope v d i) (hb : f.Before d i b j) (hr : f.Reachable b)
    (hj : (f.code b)[j]? = some inst) : inst.result ≠ some v := by
  intro hres
  obtain ⟨d', i', hdef, hbef⟩ := hv
  obtain ⟨rfl, rfl⟩ := hs.unique hdef (Func.Defines.inst hj hres)
  have hself := hbef.trans hb hr
  rcases hself with ⟨_, hle⟩ | ⟨hne, _⟩
  · omega
  · exact hne rfl

/-- A block entered past a position has no parameter that was in scope there. -/
theorem Func.Ssa.param_not_inScope (hs : f.Ssa) {d c : BlockId} {i : Nat} {v : ValueId}
    (hv : f.InScope v d i) (hne : d ≠ c) (hdom : f.Dom d c) (hr : f.Reachable c) :
    v ∉ (f.block c).params := by
  intro hp
  obtain ⟨d', i', hdef, hbef⟩ := hv
  obtain ⟨rfl, rfl⟩ := hs.unique hdef (Func.Defines.param hp)
  rcases hbef with ⟨rfl, _⟩ | ⟨_, hdom'⟩
  · exact hne rfl
  · exact hne (Graph.Dom.antisymm hdom hdom' hr)

/-- A fact about values in scope at a position, kept by every change to memory
past it, holds whenever a run has passed the position. -/
theorem At.persist (hs : f.Ssa) {φ : Env → World M.Rest → Prop} {D : ValueId → Prop}
    {d : BlockId} {i : Nat} (hi : i ≤ (f.code d).length) (hD : ∀ v, D v → f.InScope v d i)
    (hφ : ∀ env env' w, (∀ v, D v → env' v = env v) → φ env w → φ env' w)
    (hw : ∀ b j env w inst seen env' w', At f w₀ b j env w → f.Before d i b j →
      (f.code b)[j]? = some inst → inst.run f env w = (seen, .on (env', w')) →
      φ env w → φ env w')
    (hat : ∀ env w, At f w₀ d i env w → φ env w)
    {b : BlockId} {j : Nat} {env : Env} {w : World M.Rest} (h : At f w₀ b j env w)
    (hb : f.Before d i b j) : φ env w := by
  induction h with
  | start =>
      rcases hb with ⟨rfl, hle⟩ | ⟨hne, hdom⟩
      · cases Nat.le_zero.mp hle
        exact hat _ _ .start
      · exact absurd (Graph.Dom.eq_root hdom) hne
  | @inst b j env env' w w' inst seen hat' hj hrun ih =>
      by_cases heq : d = b ∧ i = j + 1
      · obtain ⟨rfl, rfl⟩ := heq
        exact hat _ _ (.inst hat' hj hrun)
      · have hbef : f.Before d i b j := by
          rcases hb with ⟨rfl, hle⟩ | hdom
          · have hne : i ≠ j + 1 := fun hi => heq ⟨rfl, hi⟩
            exact .inl ⟨rfl, by omega⟩
          · exact .inr hdom
        obtain ⟨v, _, rfl, _⟩ := Inst.run_on hrun
        refine hφ env _ w' (fun x hx => ?_) (hw _ _ _ _ _ _ _ _ hat' hbef hj hrun (ih hbef))
        exact Env.define_of_ne _ _
          (hs.result_not_inScope (hD x hx) hbef hat'.reachable hj)
  | @edge b c env env' w w' seen hat' hrun ih =>
      obtain ⟨args, he, rfl, rfl⟩ := Terminator.run_on hrun
      have hedge := Func.mem_edges_succs he
      rcases hb with ⟨rfl, hle⟩ | ⟨hne, hdom⟩
      · cases Nat.le_zero.mp hle
        exact hat _ _ (.edge hat' hrun)
      · have hdomb : f.Dom d b := Graph.Dom.pred hdom hedge hne
        have hbef : f.Before d i b (f.code b).length := by
          by_cases hdb : d = b
          · subst hdb
            exact .inl ⟨rfl, hi⟩
          · exact .inr ⟨hdb, hdomb⟩
        refine hφ env _ _ (fun x hx => ?_) (ih hbef)
        exact Env.enter_of_not_mem _ _ _
          (hs.param_not_inScope (hD x hx) hne hdom (.step hat'.reachable hedge))

/-- The same for a fact that looks at no memory. -/
theorem At.persist_env (hs : f.Ssa) {φ : Env → Prop} {D : ValueId → Prop}
    {d : BlockId} {i : Nat} (hi : i ≤ (f.code d).length) (hD : ∀ v, D v → f.InScope v d i)
    (hφ : ∀ env env', (∀ v, D v → env' v = env v) → φ env → φ env')
    (hat : ∀ env (w : World M.Rest), At f w₀ d i env w → φ env)
    {b : BlockId} {j : Nat} {env : Env} {w : World M.Rest} (h : At f w₀ b j env w)
    (hb : f.Before d i b j) : φ env :=
  At.persist (φ := fun env _ => φ env) hs hi hD (fun env env' _ he => hφ env env' he)
    (fun _ _ _ _ _ _ _ _ _ _ _ _ hp => hp) hat h hb

end

end Zuri.Jit.Ir
