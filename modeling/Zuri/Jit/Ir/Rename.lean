import Zuri.Jit.Ir.Edit

/-!
Running renamed code.

A block whose uses are renamed runs as it did, as long as each renamed use
holds what the use held. How the two runs' values are related beyond that is
up to the pass: `run_body` carries any relation the block's results keep.
-/

namespace Zuri.Jit.Ir

open Transition (Next observe Lockstep)

variable {M : Machine}

theorem Op.eval_congr {f f' : Func} (hf : f'.frames = f.frames)
    (hp : f'.paramClasses = f.paramClasses) (op : Op) (w : World M.Rest)
    (regs : List (Nat × Value)) (args : List Val) :
    op.eval f' w regs args = op.eval f w regs args := by
  have hcheck : ∀ (kind : GuardKind) (a b : Val), kind.check f' w a b = kind.check f w a b := by
    intro kind a b
    cases kind <;> simp only [GuardKind.check, hf, hp]
  have hstore : ∀ (op : Op) (a b c d : Val),
      op.store f' w regs args a b c d = op.store f w regs args a b c d := by
    intro op a b c d
    cases op <;> first | rfl | simp only [Op.store, hf]
  simp only [Op.eval, hcheck, hstore]

theorem Inst.mapUses_uses (g : ValueId → ValueId) (inst : Inst) :
    (inst.mapUses g).uses = inst.uses.map g := by
  unfold Inst.uses Inst.mapUses
  cases inst.state <;> simp [FrameState.mapUses]

theorem Terminator.mapUses_uses (g : ValueId → ValueId) (t : Terminator) :
    (t.mapUses g).uses = t.uses.map g := by
  cases t <;> simp [Terminator.mapUses, Terminator.uses, FrameState.mapUses]

theorem Terminator.mapUses_edges (g : ValueId → ValueId) (t : Terminator) :
    (t.mapUses g).edges = t.edges.map fun e => (e.1, e.2.map g) := by
  cases t <;> rfl

theorem Terminator.mapUses_successors (g : ValueId → ValueId) (t : Terminator) :
    (t.mapUses g).successors = t.successors := by
  cases t <;> rfl

theorem Terminator.edges_uses {t : Terminator} {e : BlockId × List ValueId} (he : e ∈ t.edges)
    {v : ValueId} (hv : v ∈ e.2) : v ∈ t.uses := by
  cases t with
  | jump target args =>
      simp only [edges, List.mem_singleton] at he
      subst he
      exact hv
  | branch cond tb ta eb ea =>
      simp only [edges, List.mem_cons, List.not_mem_nil, or_false] at he
      rcases he with rfl | rfl
      · exact List.mem_cons_of_mem _ (List.mem_append_left _ hv)
      · exact List.mem_cons_of_mem _ (List.mem_append_right _ hv)
  | _ => cases he

/-- What a terminator shows as it goes on, and by which of its edges. -/
def Terminator.next (env : Env) : Terminator → Option (List Event × Nat)
  | jump _ _ => some ([], 0)
  | branch cond _ _ _ _ =>
      some ([.branch (env cond).asBool], if (env cond).asBool then 0 else 1)
  | _ => none

theorem Terminator.run_next {t : Terminator} {env : Env} {seen : List Event} {k : Nat}
    (h : t.next env = some (seen, k)) : ∃ e, t.edges[k]? = some e ∧
      ∀ (f : Func) code (w : World M.Rest), t.run f code env w =
        (seen, .on ⟨e.1, env.enter (f.block e.1).params (e.2.map env), w⟩) := by
  cases t with
  | jump target args =>
      cases h
      exact ⟨(target, args), rfl, fun _ _ _ => rfl⟩
  | branch cond tb ta eb ea =>
      cases hc : (env cond).asBool <;> simp only [next, hc, Option.some.injEq, Prod.mk.injEq] at h <;>
        obtain ⟨rfl, rfl⟩ := h
      · exact ⟨(eb, ea), rfl, fun f code w => by simp [run, hc]⟩
      · exact ⟨(tb, ta), rfl, fun f code w => by simp [run, hc]⟩
  | _ => cases h

/-- A terminator that ends the run ends it alike where its uses hold the same. -/
theorem Terminator.run_end {t : Terminator} {g : ValueId → ValueId} {env env' : Env}
    (h : t.next env = none) (hg : ∀ v ∈ t.uses, env' (g v) = env v) {f f' : Func}
    {code code' : List Inst}
    (hany : code'.any (fun i => i.op = .unreached) = code.any fun i => i.op = .unreached)
    (w : World M.Rest) : ∃ o, t.run f code env w = ([], .done o) ∧
      (t.mapUses g).run f' code' env' w = ([], .done o) := by
  cases t with
  | ret v =>
      have := hg v (by simp [uses])
      exact ⟨_, rfl, by simp only [mapUses, run, this]⟩
  | deopt s =>
      have hflush : env'.regs (s.mapUses g).regs = env.regs s.regs :=
        FrameState.mapUses_regs fun v hv => hg v (by simpa [uses] using hv)
      refine ⟨_, rfl, ?_⟩
      simp only [mapUses, run, leaveThrough, hflush, hany]
      rfl
  | unset => exact ⟨_, rfl, rfl⟩
  | _ => cases h

theorem Terminator.next_mapUses {t : Terminator} {g : ValueId → ValueId} {env env' : Env}
    (hg : ∀ v ∈ t.uses, env' (g v) = env v) : (t.mapUses g).next env' = t.next env := by
  cases t with
  | branch cond tb ta eb ea => simp only [mapUses, next, hg cond (by simp [uses])]
  | _ => rfl

section

variable {f f' : Func} {g : ValueId → ValueId}

/-- An instruction whose renamed uses hold what its uses held. -/
theorem Inst.run_mapUses (hf : f'.frames = f.frames) (hp : f'.paramClasses = f.paramClasses)
    {inst : Inst} {env env' : Env} (w : World M.Rest)
    (hg : ∀ v ∈ inst.uses, env' (g v) = env v) :
    (∃ seen o, inst.run f env w = (seen, .done o) ∧
      (inst.mapUses g).run f' env' w = (seen, .done o)) ∨
    ∃ seen val w₁, inst.run f env w = (seen, .on (env.define inst.result val, w₁)) ∧
      (inst.mapUses g).run f' env' w = (seen, .on (env'.define inst.result val, w₁)) := by
  have hargs := Inst.mapUses_args hg
  have hregs := Inst.mapUses_regs hg
  have heval := Op.eval_congr hf hp inst.op w (inst.regs env) (inst.args.map env)
  have hop : (inst.mapUses g).op = inst.op := rfl
  simp only [Inst.run, hop, hargs, hregs, heval]
  cases inst.op.eval f w (inst.regs env) (inst.args.map env) with
  | next v w₁ => exact .inr ⟨_, v, w₁, rfl, rfl⟩
  | leave =>
      left
      cases hs : inst.state with
      | none => exact ⟨_, _, rfl, by simp [Inst.mapUses, hs]⟩
      | some s =>
          refine ⟨_, _, rfl, ?_⟩
          have hflush : env'.regs (s.mapUses g).regs = env.regs s.regs :=
            FrameState.mapUses_regs fun v hvs =>
              hg v (List.mem_append_right _ (by simpa [hs] using hvs))
          simp only [Inst.mapUses, hs, Option.map_some, leaveThrough, hflush]
          rfl
  | raise w₁ => exact .inl ⟨_, _, rfl, rfl⟩

/-- The rest of a block, renamed, keeps any relation its results keep. -/
theorem run_body (hf : f'.frames = f.frames) (hp : f'.paramClasses = f.paramClasses)
    {w₀ : World M.Rest} {b : BlockId} {A : Env → Env → Prop}
    (huse : ∀ (j : Nat) inst env env' (w : World M.Rest), (f.code b)[j]? = some inst →
      At f w₀ b j env w → A env env' → ∀ v ∈ inst.uses, env' (g v) = env v)
    (hdef : ∀ (j : Nat) inst env env' val, (f.code b)[j]? = some inst → A env env' →
      A (env.define inst.result val) (env'.define inst.result val))
    (pre rest : List Inst) (hsplit : f.code b = pre ++ rest) {env env' : Env} {w : World M.Rest}
    (hat : At f w₀ b pre.length env w) (hA : A env env') :
    (∃ seen o, runInsts f rest env w = (seen, .done o) ∧
      runInsts f' (rest.map (Inst.mapUses g)) env' w = (seen, .done o)) ∨
    ∃ seen env₁ env₁' w₁, runInsts f rest env w = (seen, .on (env₁, w₁)) ∧
      runInsts f' (rest.map (Inst.mapUses g)) env' w = (seen, .on (env₁', w₁)) ∧
      A env₁ env₁' ∧ At f w₀ b (f.code b).length env₁ w₁ := by
  induction rest generalizing pre env env' w with
  | nil =>
      right
      have hlen : (f.code b).length = pre.length := by simp [hsplit]
      exact ⟨[], env, env', w, rfl, rfl, hA, hlen ▸ hat⟩
  | cons inst rest ih =>
      have hj : (f.code b)[pre.length]? = some inst := by simp [hsplit]
      simp only [List.map_cons, runInsts]
      rcases Inst.run_mapUses hf hp w (huse _ inst env env' w hj hat hA) with
        ⟨seen, o, h1, h2⟩ | ⟨seen, val, w₁, h1, h2⟩
      · exact .inl ⟨seen, o, by rw [h1], by rw [h2]⟩
      · simp only [h1, h2]
        have hat' := At.inst hat hj h1
        rcases ih (pre ++ [inst]) (by simp [hsplit]) (by simpa using hat')
          (hdef _ inst env env' val hj hA) with
          ⟨seen', o, h3, h4⟩ | ⟨seen', e₁, e₁', w₂, h3, h4, h5, h6⟩
        · exact .inl ⟨_, _, by rw [h3], by rw [h4]⟩
        · exact .inr ⟨_, _, _, _, by rw [h3], by rw [h4], h5, h6⟩

end

variable {f f' : Func} {w₀ : World M.Rest}
  {name : BlockId → ValueId → ValueId} {A : BlockId → Env → Env → Prop}

/-- `f'` is `f` with the uses of each block renamed. `A` says of each block what the two runs
hold in common there; an edge may bring other values as long as it brings about what holds in
common where it leads. -/
structure Renames (f f' : Func) (w₀ : World M.Rest) (name : BlockId → ValueId → ValueId)
    (A : BlockId → Env → Env → Prop) : Prop where
  frames : f'.frames = f.frames
  paramClasses : f'.paramClasses = f.paramClasses
  code : ∀ u, f.Reachable u → f'.code u = (f.code u).map (Inst.mapUses (name u))
  use : ∀ u (j : Nat) inst env env' (w : World M.Rest), At f w₀ u j env w → A u env env' →
    (f.code u)[j]? = some inst → ∀ v ∈ inst.uses, env' (name u v) = env v
  define : ∀ u (j : Nat) inst env env' val, f.Reachable u → (f.code u)[j]? = some inst →
    A u env env' → A u (env.define inst.result val) (env'.define inst.result val)
  ends : ∀ u env env' (w : World M.Rest), At f w₀ u (f.code u).length env w → A u env env' →
    (f.block u).term.next env = none →
      (f'.block u).term = (f.block u).term.mapUses (name u) ∧
        ∀ v ∈ (f.block u).term.uses, env' (name u v) = env v
  goes : ∀ u env env' (w : World M.Rest) seen k e, At f w₀ u (f.code u).length env w →
    A u env env' → (f.block u).term.next env = some (seen, k) →
      (f.block u).term.edges[k]? = some e → ∃ args,
        (f'.block u).term.next env' = some (seen, k) ∧
        (f'.block u).term.edges[k]? = some (e.1, args) ∧
        A e.1 (env.enter (f.block e.1).params (e.2.map env))
          (env'.enter (f'.block e.1).params (args.map env'))

namespace Renames

theorem run_term (h : Renames f f' w₀ name A) {u : BlockId} {env env' : Env} {w : World M.Rest}
    (hat : At f w₀ u (f.code u).length env w) (hA : A u env env') :
    (∃ seen o, (f.block u).term.run f (f.code u) env w = (seen, .done o) ∧
      (f'.block u).term.run f' (f'.code u) env' w = (seen, .done o)) ∨
    ∃ seen c env₁ env₁', (f.block u).term.run f (f.code u) env w = (seen, .on ⟨c, env₁, w⟩) ∧
      (f'.block u).term.run f' (f'.code u) env' w = (seen, .on ⟨c, env₁', w⟩) ∧
      A c env₁ env₁' := by
  cases hnext : (f.block u).term.next env with
  | none =>
      obtain ⟨hterm, huse⟩ := h.ends u env env' w hat hA hnext
      have hany : ((f'.code u).any fun i => i.op = .unreached) =
          (f.code u).any fun i => i.op = .unreached := by
        rw [h.code u hat.reachable, List.any_map]
        rfl
      obtain ⟨o, h1, h2⟩ := Terminator.run_end hnext huse hany w
      rw [hterm]
      exact .inl ⟨[], o, h1, h2⟩
  | some way =>
      obtain ⟨seen, k⟩ := way
      obtain ⟨e, he, hrun⟩ := Terminator.run_next (M := M) hnext
      obtain ⟨args, hnext', he', hentered⟩ := h.goes u env env' w seen k e hat hA hnext he
      obtain ⟨e', hsame, hrun'⟩ := Terminator.run_next (M := M) hnext'
      obtain rfl := Option.some.inj (hsame.symm.trans he')
      exact .inr ⟨seen, e.1, _, _, hrun f _ w, hrun' f' _ w, hentered⟩

/-- The states of the two runs that belong together. -/
def Related (f : Func) (w₀ : World M.Rest) (A : BlockId → Env → Env → Prop)
    (s t : State M.Rest) : Prop :=
  t.block = s.block ∧ t.world = s.world ∧ A s.block s.env t.env ∧
    At f w₀ s.block 0 s.env s.world

theorem lockstep (h : Renames f f' w₀ name A) : Lockstep f.step f'.step (Related f w₀ A) := by
  rintro ⟨b, env, w⟩ ⟨b', env', w'⟩ ⟨hb, hw, hA, hat⟩
  cases hb
  cases hw
  have hrun := run_body (A := A b) h.frames h.paramClasses
    (fun j inst env env' w hj hat hA => h.use b j inst env env' w hat hA hj)
    (fun j inst env env' val hj hA => h.define b j inst env env' val hat.reachable hj hA)
    [] (f.code b) rfl hat hA
  rw [← h.code b hat.reachable] at hrun
  rcases hrun with ⟨seen, o, h1, h2⟩ | ⟨seen, env₁, env₁', w₁, h1, h2, h3, h4⟩
  · exact .inr ⟨seen, o, by simp only [Func.step, h1], by simp only [Func.step, h2]⟩
  · rcases h.run_term h4 h3 with ⟨more, o, h5, h6⟩ | ⟨more, c, env₂, env₂', h5, h6, h7⟩
    · exact .inr ⟨seen ++ more, o, by simp only [Func.step, h1, h5],
        by simp only [Func.step, h2, h6]⟩
    · exact .inl ⟨seen ++ more, ⟨c, env₂, w₁⟩, ⟨c, env₂', w₁⟩, by simp only [Func.step, h1, h5],
        by simp only [Func.step, h2, h6], rfl, rfl, h7, .edge h4 h5⟩

/-- Runs that begin alike show the same. -/
theorem observe_eq (h : Renames f f' w₀ name A) (hentry : f'.entry = f.entry)
    (hstart : A f.entry (f.start w₀).env (f'.start w₀).env) (n : Nat) :
    observe f.step n (f.start w₀) = observe f'.step n (f'.start w₀) :=
  h.lockstep.observe_eq n ⟨hentry, rfl, hstart, .start⟩

end Renames

end Zuri.Jit.Ir
