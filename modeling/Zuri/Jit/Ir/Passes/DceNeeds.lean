import Zuri.Jit.Ir.Passes.DceSound

/-!
What is left is what is needed.

A value is needed for what has an effect, what a branch tests, what a frame state holds, or for
another needed value. The marks come to those values and to no others.
-/

namespace Zuri.Jit.Ir.Dce

/-- A value is needed when a block needs it whatever else is, or a needed value is made of it. -/
inductive Needed (f : Func) : ValueId → Prop
  | seed {block : Block} {v : ValueId} : block ∈ f.blocks → v ∈ seeds f block → Needed f v
  | made {v u : ValueId} : Needed f v → u ∈ needs f f.preds v → Needed f u

/-- An instruction is needed for its effect or for a value. -/
def Wanted (f : Func) (i : InstId) : Prop :=
  (f.inst i).op.hasEffect = true ∨ ∃ v, Needed f v ∧ i ∈ keeps f v

section Needing

variable {f : Func} {s t : Marks}

/-- Nothing is marked that is not needed. -/
structure Sparing (f : Func) (s : Marks) : Prop where
  live : ∀ v ∈ s.live, Needed f v
  work : ∀ v ∈ s.work, Needed f v
  insts : ∀ i ∈ s.insts, Wanted f i

theorem Sparing.markAll {vs : List ValueId} (h : Sparing f s) (hvs : ∀ v ∈ vs, Needed f v) :
    Sparing f (markAll s vs) := by
  induction vs generalizing s with
  | nil => exact h
  | cons v vs ih =>
      refine ih ?_ fun u hu => hvs u (List.mem_cons_of_mem _ hu)
      have hv := hvs v List.mem_cons_self
      unfold mark
      split
      · exact h
      · exact ⟨List.forall_mem_cons.mpr ⟨hv, h.live⟩, List.forall_mem_cons.mpr ⟨hv, h.work⟩,
          h.insts⟩

theorem seed_sparing (f : Func) : Sparing f (seed f) := by
  refine Sparing.markAll ⟨fun v hv => absurd hv List.not_mem_nil,
    fun v hv => absurd hv List.not_mem_nil, fun i hi => ?_⟩ fun v hv => ?_
  · obtain ⟨block, -, hi⟩ := List.mem_flatMap.mp hi
    exact .inl (List.mem_filter.mp hi).2
  · obtain ⟨block, hb, hv⟩ := List.mem_flatMap.mp hv
    exact .seed hb hv

theorem flow_sparing {fuel : Nat} (h : Sparing f s) (hflow : flow f f.preds fuel s = some t) :
    Sparing f t := by
  induction fuel generalizing s with
  | zero => cases hflow
  | succ fuel ih =>
      rw [flow] at hflow
      split at hflow
      · cases hflow
        exact h
      · next v work hwork =>
          have hv : Needed f v := h.work v (by rw [hwork]; exact List.mem_cons_self)
          have hnext : Sparing f { s with insts := keeps f v ++ s.insts, work := work } :=
            ⟨h.live, fun u hu => h.work u (by rw [hwork]; exact List.mem_cons_of_mem _ hu),
              fun i hi => (List.mem_append.mp hi).elim (fun hi => .inr ⟨v, hv, hi⟩) (h.insts i)⟩
          exact ih (hnext.markAll fun u hu => .made hv hu) hflow

theorem Marking.live_of_needed (h : Marking f f.preds s) (hwork : s.work = []) {v : ValueId}
    (hv : Needed f v) : v ∈ s.live := by
  induction hv with
  | seed hb hv => exact h.seeds _ hb hv
  | made _ hu ih => exact (h.needs _ ih (by rw [hwork]; exact List.not_mem_nil)).1 hu

theorem run_marks (hs : f.Ssa) (hv : f.Valid) :
    ∃ g s gone, run f = some g ∧ Sparing f s ∧ Marking f f.preds s ∧ s.work = [] ∧
      Sliced f g s.live s.insts gone ∧ g.Ssa := by
  have hseed : (seed f).live.length = 0 + (seed f).work.length := by
    have hlength := markAll_length (f.blocks.flatMap (seeds f))
      ⟨[], f.blocks.flatMap (effects f), []⟩
    simp only [List.length_nil] at hlength
    unfold seed
    omega
  obtain ⟨s, hflow, hmarking, hwork⟩ :=
    flow_ends ((marked f).length + 1) 0 _ (seed_marking f f.preds) hseed (by omega)
  have hkept : (keepInsts f s.insts).Ssa := keepInsts_ssa hs
  have htrims : Trimmed (keepInsts f s.insts) (cutParams s.live _ (keepInsts f s.insts)) s.live ∧
      ∀ b, ∀ p ∈ ((cutParams s.live _ (keepInsts f s.insts)).block b).params, p ∈ s.live :=
    cutParams_trims hkept (keepInsts_fits hv)
  obtain ⟨⟨gone, hcut, hdead⟩, hlive⟩ := htrims
  have hsliced := sliced_of_cut hcut hdead hlive
  have hssa := cut_ssa hcut hkept
  rw [show (keepInsts f s.insts).preds = f.preds from funext fun b => keepInsts_preds b]
    at hsliced hssa
  exact ⟨_, s, gone, by rw [run, hflow]; rfl, flow_sparing (seed_sparing f) hflow, hmarking, hwork,
    hsliced, hssa⟩

end Needing

end Zuri.Jit.Ir.Dce
