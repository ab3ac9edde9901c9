import Zuri.Jit.Ir.Rename

/-!
Removing instructions that would change nothing.

A pass that finds an instruction redundant takes it out of its block and points
the uses of its result at a value that already holds the same. `Prunes` says
what has to be known about each such instruction along the runs of the original
function; the theorem is that both functions then show the same at every moment
of every run.
-/

namespace Zuri.Jit.Ir

open Transition (Next observe Lockstep)

/-- The function without the given instructions. -/
def Func.without (f : Func) (drops : List InstId) : Func :=
  { f with blocks := f.blocks.map fun blk =>
      { blk with insts := blk.insts.filter (· ∉ drops) } }

/-- The values `map` replaces. -/
def keys (map : List (ValueId × ValueId)) : List ValueId := map.map Prod.fst

theorem resolve_of_not_mem {map : List (ValueId × ValueId)} {v : ValueId} (h : v ∉ keys map) :
    resolve map v = v := by
  have hnone : map.lookup v = none := by
    cases hl : map.lookup v with
    | none => rfl
    | some t => exact absurd (List.mem_map_of_mem (f := Prod.fst) (Func.mem_of_lookup hl)) h
  simp [resolve, resolveIn, hnone]

/-- Where no target is itself replaced, resolving is one lookup. -/
theorem resolve_of_flat {map : List (ValueId × ValueId)} (h : ∀ e ∈ map, e.2 ∉ keys map)
    (v : ValueId) : resolve map v ∉ keys map ∧
      (resolve map v = v ∨ (v, resolve map v) ∈ map) := by
  cases hl : map.lookup v with
  | none =>
      have hv : v ∉ keys map := fun hv => by
        obtain ⟨e, he, rfl⟩ := List.mem_map.mp hv
        rw [List.lookup_eq_none_iff] at hl
        simpa using hl e he
      rw [resolve_of_not_mem hv]
      exact ⟨hv, .inl rfl⟩
  | some t =>
      have hmem := Func.mem_of_lookup hl
      have ht := h _ hmem
      have hres : resolve map v = t := by
        have hne : map ≠ [] := List.ne_nil_of_mem hmem
        obtain ⟨n, hn⟩ : ∃ n, map.length = n + 1 :=
          ⟨map.length - 1, by have := List.length_pos_iff.mpr hne; omega⟩
        have hnone : map.lookup t = none := by
          cases hl' : map.lookup t with
          | none => rfl
          | some u => exact absurd (List.mem_map_of_mem (f := Prod.fst) (Func.mem_of_lookup hl')) ht
        simp [resolve, resolveIn, hl, hn, hnone]
      rw [hres]
      exact ⟨ht, .inr hmem⟩

variable {M : Machine}

/-- An instruction a run could leave out: it goes on, changes no memory, is not
seen, and what it gives `map` has elsewhere already. -/
structure Redundant (f : Func) (map : List (ValueId × ValueId)) (inst : Inst) (env : Env)
    (w : World M.Rest) : Prop where
  quiet : inst.op.visible = false
  goes : ∃ v, inst.op.eval f w (inst.regs env) (inst.args.map env) = .next v w
  key : ∀ r ∈ inst.result, r ∈ keys map

theorem Redundant.mono {f : Func} {map map' : List (ValueId × ValueId)} {inst : Inst}
    {env : Env} {w : World M.Rest} (h : Redundant f map inst env w) (hsub : ∀ r ∈ keys map, r ∈ keys map') :
    Redundant f map' inst env w := ⟨h.quiet, h.goes, fun r hr => hsub r (h.key r hr)⟩

/-- What a run of `f` has to satisfy for instructions to be dropped and uses
resolved through `map`. -/
structure Prunes (f : Func) (w₀ : World M.Rest) (drops : List InstId)
    (map : List (ValueId × ValueId)) : Prop where
  redundant : ∀ b (j : Nat) i, (f.block b).insts[j]? = some i → i ∈ drops →
    ∀ env (w : World M.Rest), At f w₀ b j env w → Redundant f map (f.inst i) env w
  reached : ∀ i ∈ drops, (f.inst i).op ≠ .unreached
  same : ∀ b j env (w : World M.Rest), At f w₀ b j env w → ∀ v, f.InScope v b j →
    env (resolve map v) = env v
  target : ∀ v, resolve map v ∉ keys map

@[simp] theorem Func.without_block (f : Func) (drops : List InstId) (b : BlockId) :
    (f.without drops).block b =
      { f.block b with insts := (f.block b).insts.filter (· ∉ drops) } := by
  simp only [Func.without, Func.block, List.getD_eq_getElem?_getD, List.getElem?_map]
  cases f.blocks[b]? <;> rfl

theorem Func.without_nil (f : Func) : f.without [] = f := by
  have hfilter : ∀ ids : List InstId, ids.filter (fun i => decide (i ∉ ([] : List InstId))) = ids :=
    fun ids => List.filter_eq_self.mpr (by simp)
  simp only [Func.without, hfilter]
  exact congrArg (fun blocks => { f with blocks }) (List.map_id _)

/-- Dropping more instructions of one block is filtering that block. -/
theorem Func.setInsts_without {f : Func} (hs : f.Ssa) {b : BlockId} (hb : b < f.blocks.length)
    {more drops : List InstId} (hmore : ∀ x ∈ more, x ∈ (f.block b).insts) :
    (f.without drops).setInsts b ((f.block b).insts.filter (· ∉ more ++ drops)) =
      f.without (more ++ drops) := by
  have hblocks : (f.without drops).blocks.set b { (f.without drops).block b with
      insts := (f.block b).insts.filter (· ∉ more ++ drops) } =
      (f.without (more ++ drops)).blocks := by
    refine List.ext_getElem? fun c => ?_
    by_cases hc : c = b
    · subst hc
      simp [Func.without, Func.block, hb]
    · rw [List.getElem?_set_ne (Ne.symm hc)]
      simp only [Func.without, List.getElem?_map]
      cases hblk : f.blocks[c]? with
      | none => rfl
      | some blk =>
          have hblock : f.block c = blk := by simp [Func.block, hblk]
          simp only [Option.map_some, Option.some.injEq]
          congr 1
          refine List.filter_congr fun x hx => ?_
          have hnot : x ∉ more := fun hm => by
            obtain ⟨i, hi⟩ := List.mem_iff_getElem?.mp (hmore x hm)
            obtain ⟨j, hj⟩ := List.mem_iff_getElem?.mp hx
            exact hc (hs.place (hblock ▸ hj) hi).1
          simp [hnot]
  simp only [Func.setInsts, Func.setBlock, hblocks]
  rfl

theorem Env.enter_agree {K : ValueId → Prop} {env env' : Env} (h : ∀ v, ¬ K v → env' v = env v)
    (params : List ValueId) (args : List Val) :
    ∀ v, ¬ K v → env'.enter params args v = env.enter params args v := by
  unfold Env.enter
  induction params generalizing env env' args with
  | nil => exact h
  | cons p params ih =>
      cases args with
      | nil => exact h
      | cons a args =>
          refine ih (fun v hv => ?_) args
          by_cases hvp : v = p
          · subst hvp
            simp
          · simp only [Function.update_of_ne hvp]
            exact h v hv

theorem Env.define_agree {K : ValueId → Prop} {env env' : Env} (h : ∀ v, ¬ K v → env' v = env v)
    (result : Option ValueId) (x : Option Val) :
    ∀ v, ¬ K v → env'.define result x v = env.define result x v := by
  intro v hv
  cases result with
  | none => exact h v hv
  | some r =>
      cases x with
      | none => exact h v hv
      | some x =>
          simp only [Env.define]
          by_cases hvr : v = r
          · subst hvr
            simp
          · rw [Function.update_of_ne hvr, Function.update_of_ne hvr]
            exact h v hv

namespace Prunes

variable {f : Func} {w₀ : World M.Rest} {drops : List InstId} {map : List (ValueId × ValueId)}

/-- The function with the instructions dropped and the uses resolved. -/
abbrev result (f : Func) (drops : List InstId) (map : List (ValueId × ValueId)) : Func :=
  (f.without drops).rewriteUses (resolve map)

/-- Both runs hold the same in every value that was not replaced. -/
def Agree (map : List (ValueId × ValueId)) (env env' : Env) : Prop :=
  ∀ v, v ∉ keys map → env' v = env v

theorem agree_use (h : Prunes f w₀ drops map) {b : BlockId} {j : Nat} {env env' : Env}
    {w : World M.Rest} (hat : At f w₀ b j env w) (ha : Agree map env env') {v : ValueId}
    (hv : f.InScope v b j) : env' (resolve map v) = env v := by
  rw [ha _ (h.target v), h.same b j env w hat v hv]

/-- A kept instruction does in both functions the same. -/
theorem run_kept (h : Prunes f w₀ drops map) (hv : f.Valid) {b : BlockId} {j : Nat} {i : InstId}
    {env env' : Env} {w : World M.Rest} (hat : At f w₀ b j env w) (ha : Agree map env env')
    (hi : (f.block b).insts[j]? = some i) :
    (∃ seen o, (f.inst i).run f env w = (seen, .done o) ∧
      ((result f drops map).inst i).run (result f drops map) env' w = (seen, .done o)) ∨
    ∃ seen env₁ env₁' w₁, (f.inst i).run f env w = (seen, .on (env₁, w₁)) ∧
      ((result f drops map).inst i).run (result f drops map) env' w = (seen, .on (env₁', w₁)) ∧
      Agree map env₁ env₁' := by
  have hcode : (f.code b)[j]? = some (f.inst i) := by simp [Func.code, hi]
  have hscope : ∀ v ∈ (f.inst i).uses, env' (resolve map v) = env v := fun v hvu =>
    h.agree_use hat ha (hv.uses b hat.reachable j _ hcode v hvu)
  have hinst : (result f drops map).inst i = (f.inst i).mapUses (resolve map) :=
    Func.rewriteUses_inst i
  rw [hinst]
  have hframes : (result f drops map).frames = f.frames := rfl
  have hclasses : (result f drops map).paramClasses = f.paramClasses := rfl
  rcases Inst.run_mapUses hframes hclasses w hscope with h | ⟨seen, val, w₁, h1, h2⟩
  · exact .inl h
  · exact .inr ⟨seen, _, _, w₁, h1, h2, Env.define_agree ha _ _⟩

/-- What is left of a block runs as the block did. -/
theorem run_insts (h : Prunes f w₀ drops map) (hv : f.Valid) {b : BlockId} (pre ids : List InstId)
    (hsplit : (f.block b).insts = pre ++ ids) {env env' : Env} {w : World M.Rest}
    (hat : At f w₀ b pre.length env w) (ha : Agree map env env') :
    (∃ seen o, runInsts f (ids.map f.inst) env w = (seen, .done o) ∧
      runInsts (result f drops map) ((ids.filter (· ∉ drops)).map (result f drops map).inst)
        env' w = (seen, .done o)) ∨
    ∃ seen env₁ env₁' w₁, runInsts f (ids.map f.inst) env w = (seen, .on (env₁, w₁)) ∧
      runInsts (result f drops map) ((ids.filter (· ∉ drops)).map (result f drops map).inst)
        env' w = (seen, .on (env₁', w₁)) ∧
      Agree map env₁ env₁' ∧ At f w₀ b (f.code b).length env₁ w₁ := by
  induction ids generalizing pre env env' w with
  | nil =>
      right
      have hlen : (f.code b).length = pre.length := by simp [Func.code, hsplit]
      exact ⟨[], env, env', w, rfl, rfl, ha, hlen ▸ hat⟩
  | cons i ids ih =>
      have hi : (f.block b).insts[pre.length]? = some i := by simp [hsplit]
      have hcode : (f.code b)[pre.length]? = some (f.inst i) := by simp [Func.code, hi]
      have hsplit' : (f.block b).insts = (pre ++ [i]) ++ ids := by simp [hsplit]
      by_cases hd : i ∈ drops
      · obtain ⟨hquiet, ⟨v, he⟩, hkey⟩ := h.redundant b pre.length i hi hd env w hat
        have hrun : (f.inst i).run f env w = ([], .on (env.define (f.inst i).result v, w)) := by
          simp only [Inst.run, he, hquiet, Bool.false_eq_true, if_false]
        have hat' := At.inst hat hcode hrun
        have ha' : Agree map (env.define (f.inst i).result v) env' := fun x hx => by
          rw [Env.define_of_ne env v fun hr => hx (hkey x hr), ha x hx]
        have hfilter : (i :: ids).filter (· ∉ drops) = ids.filter (· ∉ drops) := by simp [hd]
        rw [hfilter]
        simp only [List.map_cons, runInsts, hrun, List.nil_append]
        have := ih (pre ++ [i]) hsplit' (by simpa using hat') ha'
        rcases this with ⟨seen, o, h1, h2⟩ | ⟨seen, e₁, e₁', w₁, h1, h2, h3, h4⟩
        · exact .inl ⟨seen, o, by rw [h1], h2⟩
        · exact .inr ⟨seen, e₁, e₁', w₁, by rw [h1], h2, h3, h4⟩
      · have hfilter : (i :: ids).filter (· ∉ drops) = i :: ids.filter (· ∉ drops) := by simp [hd]
        rw [hfilter]
        simp only [List.map_cons, runInsts]
        rcases h.run_kept hv hat ha hi with ⟨seen, o, h1, h2⟩ |
          ⟨seen, e₁, e₁', w₁, h1, h2, h3⟩
        · exact .inl ⟨seen, o, by rw [h1], by rw [h2]⟩
        · have hat' := At.inst hat hcode h1
          simp only [h1, h2]
          rcases ih (pre ++ [i]) hsplit' (by simpa using hat') h3 with
            ⟨seen', o, h4, h5⟩ | ⟨seen', e₂, e₂', w₂, h4, h5, h6, h7⟩
          · exact .inl ⟨_, _, by rw [h4], by rw [h5]⟩
          · exact .inr ⟨_, _, _, _, by rw [h4], by rw [h5], h6, h7⟩

/-- A block that leaves for the interpreter does so for the same reason. -/
theorem any_unreached (h : Prunes f w₀ drops map) (b : BlockId) :
    ((result f drops map).code b).any (fun i => i.op = .unreached) =
      (f.code b).any (fun i => i.op = .unreached) := by
  have hcode : (result f drops map).code b =
      ((f.block b).insts.filter (· ∉ drops)).map fun i => (f.inst i).mapUses (resolve map) := by
    rw [Func.code, Func.rewriteUses_block, Func.without_block]
    exact List.map_congr_left fun i _ => Func.rewriteUses_inst i
  rw [hcode, Bool.eq_iff_iff]
  simp only [List.any_eq_true, decide_eq_true_eq, Func.code, List.mem_map]
  constructor
  · rintro ⟨_, ⟨i, hi, rfl⟩, hop⟩
    exact ⟨_, ⟨i, (List.mem_filter.mp hi).1, rfl⟩, hop⟩
  · rintro ⟨_, ⟨i, hi, rfl⟩, hop⟩
    refine ⟨_, ⟨i, List.mem_filter.mpr ⟨hi, ?_⟩, rfl⟩, hop⟩
    simp only [decide_not, Bool.not_eq_true', decide_eq_false_iff_not]
    exact fun hd => h.reached i hd hop

/-- Terminators of the two functions go the same way. -/
theorem run_term (h : Prunes f w₀ drops map) (hv : f.Valid) {b : BlockId} {env env' : Env}
    {w : World M.Rest} (hat : At f w₀ b (f.code b).length env w) (ha : Agree map env env') :
    (∃ seen o, (f.block b).term.run f (f.code b) env w = (seen, .done o) ∧
      ((result f drops map).block b).term.run (result f drops map) ((result f drops map).code b)
        env' w = (seen, .done o)) ∨
    ∃ seen c env₁ env₁', (f.block b).term.run f (f.code b) env w = (seen, .on ⟨c, env₁, w⟩) ∧
      ((result f drops map).block b).term.run (result f drops map) ((result f drops map).code b)
        env' w = (seen, .on ⟨c, env₁', w⟩) ∧ Agree map env₁ env₁' := by
  have huse : ∀ v ∈ (f.block b).term.uses, env' (resolve map v) = env v := fun v hvu =>
    h.agree_use hat ha (hv.termUses b hat.reachable v hvu)
  have hterm : ((result f drops map).block b).term = (f.block b).term.mapUses (resolve map) := by
    rw [Func.rewriteUses_block, Func.without_block]
    rfl
  have hparams : ∀ c, ((result f drops map).block c).params = (f.block c).params := by
    intro c
    rw [Func.rewriteUses_block, Func.without_block]
    rfl
  have hargs : ∀ args : List ValueId, (∀ v ∈ args, v ∈ (f.block b).term.uses) →
      (args.map (resolve map)).map env' = args.map env := by
    intro args hsub
    rw [List.map_map]
    exact List.map_congr_left fun v hva => huse v (hsub v hva)
  have hany := h.any_unreached b
  rw [hterm]
  cases ht : (f.block b).term with
  | jump target args =>
      right
      have := hargs args (by simp [ht, Terminator.uses])
      refine ⟨_, _, _, _, rfl, ?_, Env.enter_agree ha _ _⟩
      simp only [Terminator.mapUses, Terminator.run, hparams, this]
  | branch cond tb ta eb ea =>
      right
      have hc := huse cond (by simp [ht, Terminator.uses])
      have hta := hargs ta fun v hva => by simp [ht, Terminator.uses, hva]
      have hea := hargs ea fun v hva => by simp [ht, Terminator.uses, hva]
      simp only [Terminator.mapUses, Terminator.run, hc]
      cases (env cond).asBool
      · refine ⟨_, _, _, _, rfl, ?_, Env.enter_agree ha _ _⟩
        simp only [Bool.false_eq_true, if_false, hparams, hea]
      · refine ⟨_, _, _, _, rfl, ?_, Env.enter_agree ha _ _⟩
        simp only [if_true, hparams, hta]
  | ret v =>
      left
      have := huse v (by simp [ht, Terminator.uses])
      exact ⟨_, _, rfl, by simp only [Terminator.mapUses, Terminator.run, this]⟩
  | deopt s =>
      left
      have hflush : env'.regs (s.mapUses (resolve map)).regs = env.regs s.regs :=
        FrameState.mapUses_regs fun v hvs => huse v (by simpa [ht, Terminator.uses] using hvs)
      refine ⟨_, _, rfl, ?_⟩
      simp only [Terminator.mapUses, Terminator.run, leaveThrough, hflush, hany]
      rfl
  | unset => exact .inl ⟨_, _, rfl, rfl⟩

/-- The states of the two runs that belong together. -/
def Related (f : Func) (w₀ : World M.Rest) (map : List (ValueId × ValueId))
    (s t : State M.Rest) : Prop :=
  t.block = s.block ∧ t.world = s.world ∧ Agree map s.env t.env ∧
    At f w₀ s.block 0 s.env s.world

theorem lockstep (h : Prunes f w₀ drops map) (hv : f.Valid) :
    Lockstep f.step (result f drops map).step (Related f w₀ map) := by
  rintro ⟨b, env, w⟩ ⟨b', env', w'⟩ ⟨hb, hw, ha, hat⟩
  cases hb
  cases hw
  have hcode : (result f drops map).code b =
      ((f.block b).insts.filter (· ∉ drops)).map (result f drops map).inst := by
    rw [Func.code, Func.rewriteUses_block, Func.without_block]
    rfl
  rcases h.run_insts hv [] (f.block b).insts rfl hat ha with
    ⟨seen, o, h1, h2⟩ | ⟨seen, env₁, env₁', w₁, h1, h2, h3, h4⟩
  · right
    exact ⟨seen, o, by simp only [Func.step, Func.code, h1],
      by simp only [Func.step, hcode, h2]⟩
  · rcases h.run_term hv h4 h3 with ⟨more, o, h5, h6⟩ | ⟨more, c, env₂, env₂', h5, h6, h7⟩
    · right
      refine ⟨seen ++ more, o, ?_, ?_⟩
      · simp only [Func.step]
        rw [show runInsts f (f.code b) env w = _ from h1]
        simp only [h5]
      · simp only [Func.step]
        rw [hcode] at h6 ⊢
        rw [h2]
        simp only [h6]
    · left
      refine ⟨seen ++ more, ⟨c, env₂, w₁⟩, ⟨c, env₂', w₁⟩, ?_, ?_, rfl, rfl, h7, .edge h4 h5⟩
      · simp only [Func.step]
        rw [show runInsts f (f.code b) env w = _ from h1]
        simp only [h5]
      · simp only [Func.step]
        rw [hcode] at h6 ⊢
        rw [h2]
        simp only [h6]

/-- Dropping redundant instructions is invisible. -/
theorem observe_eq (h : Prunes f w₀ drops map) (hv : f.Valid) (n : Nat) :
    observe f.step n (f.start w₀) =
      observe (result f drops map).step n ((result f drops map).start w₀) :=
  (h.lockstep hv).observe_eq n ⟨rfl, rfl, fun _ _ => rfl, .start⟩

end Prunes

end Zuri.Jit.Ir
