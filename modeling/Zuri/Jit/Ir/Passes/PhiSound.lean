import Zuri.Jit.Ir.Passes.Phi

/-!
Removing block parameters is invisible.

A value that stays holds the same in both runs, and one that goes holds what it resolves to; so
every use that is rewritten holds what it held, and each edge brings the parameters that stay
what it brought them.
-/

namespace Zuri.Jit.Ir

open Transition (Next observe Lockstep)

theorem mapEdges_of_next {h : BlockId → List ValueId → List ValueId} {t : Terminator} {env : Env}
    (hnext : t.next env = none) : mapEdges h t = t := by
  cases t with
  | jump target args => cases hnext
  | branch cond tb ta eb ea => cases hnext
  | _ => rfl

theorem next_mapEdges (h : BlockId → List ValueId → List ValueId) (t : Terminator) (env : Env) :
    (mapEdges h t).next env = t.next env := by
  cases t <;> rfl

namespace Phi

variable {M : Machine} {f g : Func} {w₀ : World M.Rest} {map : List (ValueId × ValueId)}

/-- Both runs hold the same in every value that stays. -/
def Agree (map : List (ValueId × ValueId)) (env env' : Env) : Prop :=
  ∀ v, v ∉ keys map → env' v = env v

theorem agree_use (hf : Folds f (resolve map) (· ∈ keys map)) (hs : f.Ssa) (hv : f.Valid)
    {b : BlockId} {j : Nat} {env env' : Env} {w : World M.Rest} (hat : At f w₀ b j env w)
    (ha : Agree map env env') {v : ValueId} (hscope : f.InScope v b j) :
    env' (resolve map v) = env v := by
  rw [ha _ (hf.kept v), hf.equal hs hv hat v hscope]

/-- Entering a block over an edge that passes less. -/
theorem enter_agree (h : Folded f g map) (hf : Folds f (resolve map) (· ∈ keys map)) (hs : f.Ssa)
    (hv : f.Valid) {b : BlockId} {env env' : Env} {w : World M.Rest}
    (hat : At f w₀ b (f.code b).length env w) (ha : Agree map env env')
    {e : BlockId × List ValueId} (he : e ∈ (f.block b).term.edges) :
    Agree map (env.enter (f.block e.1).params (e.2.map env))
      (env'.enter (g.block e.1).params
        (((keepArgs (keys map) (f.block e.1).params e.2).map (resolve map)).map env')) := by
  intro v hkept
  have hfits := hv.edges b hat.reachable e he
  rw [h.params e.1]
  by_cases hp : v ∈ (f.block e.1).params
  · obtain ⟨a, hmem, -, hpassed⟩ := hfits.arg hp
    have hscope := hv.termUses b hat.reachable a (Terminator.edges_uses he hmem)
    have hbefore : (v, env a) ∈ (f.block e.1).params.zip (e.2.map env) := by
      rw [List.zip_map_right, List.mem_map]
      exact ⟨(v, a), hpassed, rfl⟩
    have hafter : (v, env' (resolve map a)) ∈
        ((f.block e.1).params.filter (· ∉ keys map)).zip
          (((keepArgs (keys map) (f.block e.1).params e.2).map (resolve map)).map env') := by
      rw [← map_fst_zip_filter (keys map) (Nat.le_of_eq hfits.1.symm), keepArgs, List.map_map,
        List.map_map, List.zip_map', List.mem_map]
      exact ⟨(v, a), List.mem_filter.mpr ⟨hpassed, decide_eq_true hkept⟩, rfl⟩
    rw [Env.enter_mem _ (hs.params e.1) hbefore,
      Env.enter_mem _ ((hs.params e.1).filter _) hafter]
    exact agree_use hf hs hv hat ha hscope
  · rw [Env.enter_of_not_mem _ _ _ hp,
      Env.enter_of_not_mem _ _ _ fun hmem => hp (List.mem_filter.mp hmem).1]
    exact ha v hkept

theorem renames (h : Folded f g map) (hframes : g.frames = f.frames)
    (hclasses : g.paramClasses = f.paramClasses)
    (hf : Folds f (resolve map) (· ∈ keys map)) (hs : f.Ssa) (hv : f.Valid) :
    Renames f g w₀ (fun _ => resolve map) (fun _ => Agree map) where
  frames := hframes
  paramClasses := hclasses
  code b _ := h.code_eq b
  use b j inst env env' w hat ha hj v hmem :=
    agree_use hf hs hv hat ha (hv.uses b hat.reachable j inst hj v hmem)
  define b j inst env env' val _ _ ha := Env.define_agree ha inst.result val
  ends b env env' w hat ha hnext := by
    rw [h.term b hat.reachable, mapEdges_of_next hnext]
    exact ⟨rfl, fun v hmem => agree_use hf hs hv hat ha (hv.termUses b hat.reachable v hmem)⟩
  goes b env env' w seen k e hat ha hnext he := by
    have hcut : ∀ v ∈ (mapEdges (fun c args => keepArgs (keys map) (f.block c).params args)
        (f.block b).term).uses, env' (resolve map v) = env v := fun v hmem =>
      agree_use hf hs hv hat ha (hv.termUses b hat.reachable v
        (uses_mapEdges (fun c args => keepArgs_subset _ _ args) _ hmem))
    rw [h.term b hat.reachable]
    refine ⟨_, (Terminator.next_mapUses hcut).trans ((next_mapEdges _ _ env).trans hnext), ?_,
      enter_agree h hf hs hv hat ha (List.mem_of_getElem? he)⟩
    rw [Terminator.mapUses_edges, edges_mapEdges, List.map_map, List.getElem?_map, he]
    rfl

/-- The pass keeps a function that the check accepts and that shows the same. -/
theorem run_keeps (hs : f.Ssa) (hverify : f.verify = .ok ()) (hfed : f.Fed) :
    ∃ g map, run f = some (g, map) ∧ g.Ssa ∧ g.verify = .ok () ∧ g.Fed ∧
      ∀ (M : Machine) (w₀ : World M.Rest) (n : Nat),
        observe f.step n (f.start w₀) = observe g.step n (g.start w₀) := by
  have hv := hs.verify_iff.mp hverify
  obtain ⟨t, ht, hsound⟩ := rounds_sound hs hv (paramCount f + 1) _ (sound_start hv) (by
    simp only [List.length_nil]
    omega)
  have hfolded := folded_of_cut hsound.cut
  have hssa := hfolded.ssa hs
  refine ⟨_, t.replaced, by rw [run, ht]; rfl, hssa,
    hssa.verify_iff.mpr (hfolded.valid hsound.folds hs hv), hfolded.fed hfed, fun M w₀ n => ?_⟩
  have hframes : (t.func.replaceAll t.replaced).frames = f.frames := by
    rw [Func.replaceAll_eq]
    exact hsound.cut.frames
  have hclasses : (t.func.replaceAll t.replaced).paramClasses = f.paramClasses := by
    rw [Func.replaceAll_eq]
    exact hsound.cut.paramClasses
  refine (renames hfolded hframes hclasses hsound.folds hs hv).observe_eq hfolded.entry
    (fun v _ => ?_) n
  have hty : ∀ v, (t.func.replaceAll t.replaced).ty v = f.ty v := fun v => by
    rw [Func.ty, hfolded.values, Func.ty]
  exact congrArg initialOf (hty v)

end Phi

end Zuri.Jit.Ir
