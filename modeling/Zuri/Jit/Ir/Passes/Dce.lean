import Zuri.Jit.Ir.Passes.Cut
import Zuri.Jit.Ir.Prune
import Mathlib.Data.List.Nodup

/-!
Removing what nothing needs, block parameters included.

A value is live when something with an effect uses it, a branch tests it, a frame state holds
it, or something live is made of it. What edges pass for a parameter is live only when the
parameter is, so a value that only feeds itself round a loop goes with its parameter. The
function that is left holds the same in every live value, at every moment of every run.
-/

namespace Zuri.Jit.Ir

open Transition (Next observe Lockstep)

namespace Dce

/-- What is known to be live, and the values whose own needs have not been marked yet. -/
structure Marks where
  live : List ValueId
  insts : List InstId
  work : List ValueId

def mark (s : Marks) (v : ValueId) : Marks :=
  if v ∈ s.live then s else { s with live := v :: s.live, work := v :: s.work }

def markAll (s : Marks) (vs : List ValueId) : Marks := vs.foldl mark s

/-- What the end of a block needs however it is left. -/
def endUses : Terminator → List ValueId
  | .branch cond _ _ _ _ => [cond]
  | .ret v => [v]
  | .deopt state => state.regs.map Prod.snd
  | .jump _ _ | .unset => []

def effects (f : Func) (block : Block) : List InstId :=
  block.insts.filter fun i => (f.inst i).op.hasEffect

/-- What a block needs whatever else is live. -/
def seeds (f : Func) (block : Block) : List ValueId :=
  ((effects f block).flatMap fun i => (f.inst i).uses) ++ endUses block.term ++
    block.fixedRegs.map Prod.snd

def seed (f : Func) : Marks :=
  markAll ⟨[], f.blocks.flatMap (effects f), []⟩ (f.blocks.flatMap (seeds f))

def origin (f : Func) (v : ValueId) : ValueDef :=
  (f.values.getD v ⟨.tagged, .inst 0⟩).origin

/-- The values a live value is made of: for a parameter, what each edge passes for it, which every
edge of a `Fed` function does. -/
def needs (f : Func) (preds : BlockId → List BlockId) (v : ValueId) : List ValueId :=
  match origin f v with
  | .inst i => (f.inst i).uses
  | .param b _ =>
      if v ∈ (f.block b).params then
        let k := (f.block b).params.idxOf v
        (preds b).flatMap fun pred => (edgeArgs f pred b).map fun args => args.getD k 0
      else []

def keeps (f : Func) (v : ValueId) : List InstId :=
  match origin f v with
  | .inst i => [i]
  | .param _ _ => []

def visit (f : Func) (preds : BlockId → List BlockId) (s : Marks) (v : ValueId) : Marks :=
  markAll { s with insts := keeps f v ++ s.insts } (needs f preds v)

def flow (f : Func) (preds : BlockId → List BlockId) : Nat → Marks → Option Marks
  | 0, _ => none
  | fuel + 1, s =>
      match s.work with
      | [] => some s
      | v :: work => flow f preds fuel (visit f preds { s with work := work } v)

/-- Every value that can be marked. -/
def marked (f : Func) : List ValueId :=
  0 :: (f.blocks.flatMap (seeds f) ++ f.insts.flatMap Inst.uses ++
    f.blocks.flatMap fun block => block.term.edges.flatMap Prod.snd)

def keepInsts (f : Func) (insts : List InstId) : Func :=
  { f with blocks := f.blocks.map fun block =>
      { block with insts := block.insts.filter (· ∈ insts) } }

def dropParam (block : Block) (k : Nat) : Block :=
  { block with
    params := block.params.eraseIdx k
    paramRegs := block.paramRegs.eraseIdx k }

/-- The parameters of a block below the index, from the last to the first. -/
def scan (live : List ValueId) (preds : List BlockId) (b : BlockId) : Nat → Func → Func
  | 0, f => f
  | k + 1, f =>
      if (f.block b).params.getD k 0 ∈ live then scan live preds b k f
      else scan live preds b k (cutParam (dropParam · k) f preds b k)

def cutParams (live : List ValueId) (preds : BlockId → List BlockId) (f : Func) : Func :=
  (List.range f.blocks.length).foldl
    (fun f b => scan live (preds b) b (f.block b).params.length f) f

def run (f : Func) : Option Func :=
  (flow f f.preds ((marked f).length + 1) (seed f)).map fun s =>
    cutParams s.live f.preds (keepInsts f s.insts)

section Marking

variable {f : Func} {s : Marks} {v : ValueId}

theorem mem_mark {u : ValueId} : u ∈ (mark s v).live ↔ u ∈ s.live ∨ u = v := by
  unfold mark
  split
  · next h =>
      constructor
      · exact .inl
      · rintro (hu | rfl)
        · exact hu
        · exact h
  · rw [List.mem_cons]
    exact or_comm

theorem mem_markAll (vs : List ValueId) (s : Marks) {u : ValueId} :
    u ∈ (markAll s vs).live ↔ u ∈ s.live ∨ u ∈ vs := by
  induction vs generalizing s with
  | nil => simp [markAll]
  | cons v vs ih =>
      rw [markAll, List.foldl_cons, ← markAll, ih, mem_mark, List.mem_cons, or_assoc]

theorem markAll_insts (vs : List ValueId) (s : Marks) : (markAll s vs).insts = s.insts := by
  induction vs generalizing s with
  | nil => rfl
  | cons v vs ih =>
      rw [markAll, List.foldl_cons, ← markAll, ih]
      unfold mark
      split <;> rfl

/-- What is newly marked is waiting, and so is what was. -/
theorem markAll_done (vs : List ValueId) (s : Marks) {u : ValueId} (hu : u ∈ (markAll s vs).live)
    (hwork : u ∉ (markAll s vs).work) : u ∈ s.live ∧ u ∉ s.work := by
  induction vs generalizing s with
  | nil => exact ⟨hu, hwork⟩
  | cons v vs ih =>
      obtain ⟨hlive, hdone⟩ := ih (mark s v) hu hwork
      unfold mark at hlive hdone
      split at hlive
      · next h =>
          rw [if_pos h] at hdone
          exact ⟨hlive, hdone⟩
      · next h =>
          rw [if_neg h] at hdone
          rw [List.mem_cons, not_or] at hdone
          exact ⟨(List.mem_cons.mp hlive).resolve_left hdone.1, hdone.2⟩

theorem markAll_nodup (vs : List ValueId) (s : Marks) (h : s.live.Nodup) :
    (markAll s vs).live.Nodup := by
  induction vs generalizing s with
  | nil => exact h
  | cons v vs ih =>
      refine ih (mark s v) ?_
      unfold mark
      split
      · exact h
      · next hnew => exact List.nodup_cons.mpr ⟨hnew, h⟩

theorem markAll_length (vs : List ValueId) (s : Marks) :
    (markAll s vs).live.length + s.work.length = s.live.length + (markAll s vs).work.length := by
  induction vs generalizing s with
  | nil => rfl
  | cons v vs ih =>
      have hrest := ih (mark s v)
      have hone : (mark s v).live.length + s.work.length =
          s.live.length + (mark s v).work.length := by
        unfold mark
        split
        · rfl
        · simp only [List.length_cons]
          omega
      rw [markAll, List.foldl_cons, ← markAll]
      omega

/-- How far the marking is: what each value that has been looked at needs is marked. -/
structure Marking (f : Func) (preds : BlockId → List BlockId) (s : Marks) : Prop where
  nodup : s.live.Nodup
  marked : s.live ⊆ marked f
  seeds : ∀ block ∈ f.blocks, seeds f block ⊆ s.live
  effects : ∀ block ∈ f.blocks, effects f block ⊆ s.insts
  uses : ∀ i ∈ s.insts, (f.inst i).uses ⊆ s.live
  needs : ∀ v ∈ s.live, v ∉ s.work → needs f preds v ⊆ s.live ∧ keeps f v ⊆ s.insts

theorem inst_uses_marked (f : Func) (i : InstId) : (f.inst i).uses ⊆ marked f := by
  intro u hu
  refine List.mem_cons_of_mem _ (List.mem_append_left _ (List.mem_append_right _ ?_))
  by_cases hi : i < f.insts.length
  · refine List.mem_flatMap.mpr ⟨f.inst i, ?_, hu⟩
    rw [Func.inst, List.getD_eq_getElem _ _ hi]
    exact List.getElem_mem hi
  · rw [Func.inst, List.getD_eq_default _ _ (Nat.le_of_not_lt hi)] at hu
    exact absurd hu List.not_mem_nil

theorem edgeArgs_marked {a b : BlockId} {args : List ValueId} (h : args ∈ edgeArgs f a b)
    (k : Nat) :
    args.getD k 0 ∈ marked f := by
  obtain ⟨e, he, rfl⟩ := List.mem_map.mp h
  have he := (List.mem_filter.mp he).1
  by_cases hk : k < e.2.length
  · rw [List.getD_eq_getElem _ _ hk]
    refine List.mem_cons_of_mem _ (List.mem_append_right _ ?_)
    refine List.mem_flatMap.mpr ⟨f.block a, ?_,
      List.mem_flatMap.mpr ⟨e, he, List.getElem_mem hk⟩⟩
    by_cases ha : a < f.blocks.length
    · rw [Func.block, List.getD_eq_getElem _ _ ha]
      exact List.getElem_mem ha
    · rw [Func.block_of_le (Nat.le_of_not_lt ha)] at he
      exact absurd he List.not_mem_nil
  · rw [List.getD_eq_default _ _ (Nat.le_of_not_lt hk)]
    exact List.mem_cons_self

theorem needs_marked (f : Func) (preds : BlockId → List BlockId) (v : ValueId) :
    needs f preds v ⊆ marked f := by
  intro u hu
  unfold needs at hu
  split at hu
  · exact inst_uses_marked f _ hu
  · split at hu
    · obtain ⟨pred, -, hpassed⟩ := List.mem_flatMap.mp hu
      obtain ⟨args, hargs, rfl⟩ := List.mem_map.mp hpassed
      exact edgeArgs_marked hargs _
    · exact absurd hu List.not_mem_nil

theorem seed_marking (f : Func) (preds : BlockId → List BlockId) : Marking f preds (seed f) where
  nodup := markAll_nodup _ _ List.nodup_nil
  marked v hv := by
    rcases (mem_markAll _ _).mp hv with hv | hv
    · exact absurd hv List.not_mem_nil
    · exact List.mem_cons_of_mem _ (List.mem_append_left _ (List.mem_append_left _ hv))
  seeds block hb v hv := (mem_markAll _ _).mpr (.inr (List.mem_flatMap.mpr ⟨block, hb, hv⟩))
  effects block hb i hi := by
    rw [seed, markAll_insts]
    exact List.mem_flatMap.mpr ⟨block, hb, hi⟩
  uses i hi v hv := by
    rw [seed, markAll_insts] at hi
    obtain ⟨block, hb, hi⟩ := List.mem_flatMap.mp hi
    refine (mem_markAll _ _).mpr (.inr (List.mem_flatMap.mpr ⟨block, hb, ?_⟩))
    exact List.mem_append_left _ (List.mem_append_left _ (List.mem_flatMap.mpr ⟨i, hi, hv⟩))
  needs v hv hwork := absurd (markAll_done _ _ hv hwork).1 List.not_mem_nil

theorem Marking.visit {preds : BlockId → List BlockId} {work : List ValueId}
    (h : Marking f preds s) (hwork : s.work = v :: work) :
    Marking f preds (visit f preds { s with work := work } v) where
  nodup := markAll_nodup _ _ h.nodup
  marked u hu := by
    rcases (mem_markAll _ _).mp hu with hu | hu
    · exact h.marked hu
    · exact needs_marked f preds v hu
  seeds block hb u hu := (mem_markAll _ _).mpr (.inl (h.seeds block hb hu))
  effects block hb i hi := by
    rw [Dce.visit, markAll_insts]
    exact List.mem_append_right _ (h.effects block hb hi)
  uses i hi u hu := by
    rw [Dce.visit, markAll_insts] at hi
    refine (mem_markAll _ _).mpr ?_
    rcases List.mem_append.mp hi with hi | hi
    · right
      unfold keeps at hi
      unfold Dce.needs
      cases horigin : origin f v with
      | inst j =>
          rw [horigin] at hi
          obtain rfl := List.mem_singleton.mp hi
          exact hu
      | param b k =>
          rw [horigin] at hi
          exact absurd hi List.not_mem_nil
    · exact .inl (h.uses i hi hu)
  needs u hu hdone := by
    rw [Dce.visit, markAll_insts]
    obtain ⟨hlive, hnot⟩ := markAll_done _ _ hu hdone
    by_cases huv : u = v
    · subst huv
      exact ⟨fun x hx => (mem_markAll _ _).mpr (.inr hx), fun i hi => List.mem_append_left _ hi⟩
    · have hold := h.needs u hlive (by rw [hwork, List.mem_cons, not_or]; exact ⟨huv, hnot⟩)
      exact ⟨fun x hx => (mem_markAll _ _).mpr (.inl (hold.1 hx)),
        fun i hi => List.mem_append_right _ (hold.2 hi)⟩

/-- The marking ends, with nothing waiting. -/
theorem flow_ends {preds : BlockId → List BlockId} (fuel done : Nat) (s : Marks)
    (h : Marking f preds s) (hdone : s.live.length = done + s.work.length)
    (hfuel : (marked f).length < done + fuel) :
    ∃ t, flow f preds fuel s = some t ∧ Marking f preds t ∧ t.work = [] := by
  induction fuel generalizing s done with
  | zero =>
      have hle := (h.nodup.subperm h.marked).length_le
      omega
  | succ fuel ih =>
      rw [flow]
      cases hwork : s.work with
      | nil => exact ⟨s, rfl, h, hwork⟩
      | cons v work =>
          refine ih (done + 1) _ (h.visit hwork) ?_ (by omega)
          have hlength := markAll_length (needs f preds v)
            { s with insts := keeps f v ++ s.insts, work := work }
          rw [hwork, List.length_cons] at hdone
          simp only at hlength
          unfold visit
          simp only
          omega

end Marking

end Dce

end Zuri.Jit.Ir
