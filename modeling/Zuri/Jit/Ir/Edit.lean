import Zuri.Jit.Ir.Run

/-!
How passes change a function: replacing the uses of values.

A replacement may itself be replaced, so each use goes to the end of its chain.
Rewriting uses touches operands, frame states, edges and the registers kept for
folded parameters, and nothing else, so a rewritten instruction runs as the old
one did wherever the new values hold what the old ones held.
-/

namespace Zuri.Jit.Ir

open Transition (Next)

def FrameState.mapUses (g : ValueId → ValueId) (s : FrameState) : FrameState :=
  { s with regs := s.regs.map fun e => (e.1, g e.2) }

def Inst.mapUses (g : ValueId → ValueId) (inst : Inst) : Inst :=
  { inst with
    args := inst.args.map g
    state := inst.state.map (FrameState.mapUses g) }

def Terminator.mapUses (g : ValueId → ValueId) : Terminator → Terminator
  | jump target args => jump target (args.map g)
  | branch cond thenBlock thenArgs elseBlock elseArgs =>
      branch (g cond) thenBlock (thenArgs.map g) elseBlock (elseArgs.map g)
  | ret v => ret (g v)
  | deopt s => deopt (s.mapUses g)
  | unset => unset

def Block.mapUses (g : ValueId → ValueId) (b : Block) : Block :=
  { b with
    fixedRegs := b.fixedRegs.map fun e => (e.1, g e.2)
    term := b.term.mapUses g }

namespace Func

def rewriteUses (g : ValueId → ValueId) (f : Func) : Func :=
  { f with
    insts := f.insts.map (Inst.mapUses g)
    blocks := f.blocks.map (Block.mapUses g) }

/-- Points every use of one value at another. -/
def replaceUses (f : Func) (old new : ValueId) : Func :=
  if old = new then f else f.rewriteUses fun v => if v = old then new else v

def setBlock (f : Func) (b : BlockId) (blk : Block) : Func :=
  { f with blocks := f.blocks.set b blk }

/-- The function with a block holding just the given instructions. -/
def setInsts (f : Func) (b : BlockId) (insts : List InstId) : Func :=
  f.setBlock b { f.block b with insts := insts }

end Func

def resolveIn (map : List (ValueId × ValueId)) : Nat → ValueId → ValueId
  | 0, v => v
  | fuel + 1, v =>
      match map.lookup v with
      | some next => resolveIn map fuel next
      | none => v

/-- Where `v` ends up after following `map`. -/
def resolve (map : List (ValueId × ValueId)) (v : ValueId) : ValueId :=
  resolveIn map (map.length + 1) v

/-- Applies a whole set of replacements in one walk. -/
def Func.replaceAll (f : Func) (map : List (ValueId × ValueId)) : Func :=
  if map.isEmpty then f else f.rewriteUses (resolve map)

@[simp] theorem FrameState.mapUses_id : FrameState.mapUses id = id :=
  funext fun s => by simp [FrameState.mapUses]

@[simp] theorem Inst.mapUses_id : Inst.mapUses id = id :=
  funext fun i => by simp [Inst.mapUses]

@[simp] theorem Terminator.mapUses_id : Terminator.mapUses id = id :=
  funext fun t => by cases t <;> simp [Terminator.mapUses]

theorem Func.rewriteUses_id (f : Func) : f.rewriteUses id = f := by
  have hblock : Block.mapUses id = id := funext fun b => by simp [Block.mapUses]
  simp [Func.rewriteUses, hblock]

theorem Func.replaceAll_eq (f : Func) (map : List (ValueId × ValueId)) :
    f.replaceAll map = f.rewriteUses (resolve map) := by
  unfold Func.replaceAll
  split
  · rename_i hempty
    rw [List.isEmpty_iff.mp hempty]
    exact f.rewriteUses_id.symm
  · rfl

section

variable {M : Machine} {f : Func} {g : ValueId → ValueId}

@[simp] theorem Func.rewriteUses_block (b : BlockId) :
    (f.rewriteUses g).block b = (f.block b).mapUses g := by
  simp only [Func.rewriteUses, Func.block, List.getD_eq_getElem?_getD, List.getElem?_map]
  cases f.blocks[b]? <;> rfl

@[simp] theorem Func.rewriteUses_inst (i : InstId) :
    (f.rewriteUses g).inst i = (f.inst i).mapUses g := by
  simp only [Func.rewriteUses, Func.inst, List.getD_eq_getElem?_getD, List.getElem?_map]
  cases f.insts[i]? <;> rfl

theorem Func.setBlock_self {b : BlockId} (blk : Block) (h : b < f.blocks.length) :
    (f.setBlock b blk).block b = blk := by
  simp [Func.setBlock, Func.block, h]

theorem Func.setBlock_other {b c : BlockId} (blk : Block) (h : c ≠ b) :
    (f.setBlock b blk).block c = f.block c := by
  simp [Func.setBlock, Func.block, List.getElem?_set_ne (Ne.symm h)]

theorem FrameState.mapUses_regs {env env' : Env} {s : FrameState}
    (h : ∀ v ∈ s.regs.map Prod.snd, env' (g v) = env v) :
    env'.regs (s.mapUses g).regs = env.regs s.regs := by
  simp only [Env.regs, FrameState.mapUses, List.map_map]
  refine List.map_congr_left fun e he => ?_
  simp only [Function.comp_apply, h e.2 (List.mem_map_of_mem he)]

theorem Inst.mapUses_args {env env' : Env} {inst : Inst}
    (h : ∀ v ∈ inst.uses, env' (g v) = env v) :
    (inst.mapUses g).args.map env' = inst.args.map env := by
  simp only [Inst.mapUses, List.map_map]
  exact List.map_congr_left fun a ha => h a (List.mem_append_left _ ha)

theorem Inst.mapUses_regs {env env' : Env} {inst : Inst}
    (h : ∀ v ∈ inst.uses, env' (g v) = env v) :
    (inst.mapUses g).regs env' = inst.regs env := by
  simp only [Inst.regs, Inst.mapUses]
  cases hs : inst.state with
  | none => rfl
  | some s =>
      exact FrameState.mapUses_regs fun v hv => h v (List.mem_append_right _ (by simpa [hs] using hv))

end

/-- Whether every edge, those of blocks control cannot reach included, passes a value for each
parameter of its target. The passes index what edges pass. -/
def Func.Fed (f : Func) : Prop :=
  ∀ block ∈ f.blocks, ∀ e ∈ block.term.edges, (f.block e.1).params.length ≤ e.2.length

instance (f : Func) : Decidable f.Fed :=
  inferInstanceAs (Decidable (∀ block ∈ f.blocks, ∀ e ∈ block.term.edges,
    (f.block e.1).params.length ≤ e.2.length))

theorem Func.fed_iff {f : Func} : f.Fed ↔
    ∀ b, ∀ e ∈ (f.block b).term.edges, (f.block e.1).params.length ≤ e.2.length := by
  constructor
  · intro h b e he
    by_cases hb : b < f.blocks.length
    · refine h (f.block b) ?_ e he
      rw [Func.block, List.getD_eq_getElem _ _ hb]
      exact List.getElem_mem hb
    · rw [Func.block, List.getD_eq_default _ _ (Nat.le_of_not_lt hb)] at he
      exact absurd he List.not_mem_nil
  · intro h block hblock e he
    obtain ⟨b, hb, rfl⟩ := List.getElem_of_mem hblock
    refine h b e ?_
    rwa [Func.block, List.getD_eq_getElem _ _ hb]

theorem Terminator.edges_mapUses (g : ValueId → ValueId) (t : Terminator) :
    (t.mapUses g).edges = t.edges.map fun e => (e.1, e.2.map g) := by
  cases t <;> rfl

theorem Func.Fed.rewriteUses {f : Func} (h : f.Fed) (g : ValueId → ValueId) :
    (f.rewriteUses g).Fed := by
  rw [Func.fed_iff] at h ⊢
  intro b e he
  rw [Func.rewriteUses_block, Block.mapUses, Terminator.edges_mapUses, List.mem_map] at he
  obtain ⟨e', he', rfl⟩ := he
  rw [Func.rewriteUses_block, List.length_map]
  exact h b e' he'

end Zuri.Jit.Ir
