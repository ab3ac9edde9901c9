import Zuri.Jit.Ir.Passes.DceNeeds
import Zuri.Jit.Ir.Passes.PhiSound

/-!
The passes that only take things out, one after the other.

Each leaves what the next asks for, so in no order does the check between them refuse a function.
-/

namespace Zuri.Jit.Ir

open Transition (observe)

/-- A pass that only takes things out. -/
inductive Removal
  | phi
  | dce

def Removal.run (f : Func) : Removal → Option Func
  | phi => (Phi.run f).map Prod.fst
  | dce => Dce.run f

/-- What a pass has to keep. -/
structure Kept (f g : Func) : Prop where
  ssa : g.Ssa
  verified : g.verify = .ok ()
  fed : g.Fed
  same : ∀ (M : Machine) (w₀ : World M.Rest) (n : Nat),
    observe f.step n (f.start w₀) = observe g.step n (g.start w₀)

theorem Removal.keeps {f : Func} (hs : f.Ssa) (hverify : f.verify = .ok ()) (hfed : f.Fed)
    (p : Removal) : ∃ g, p.run f = some g ∧ Kept f g := by
  cases p with
  | phi =>
      obtain ⟨g, map, hrun, hssa, hok, hfed, hsame⟩ := Phi.run_keeps hs hverify hfed
      exact ⟨g, by rw [run, hrun]; rfl, hssa, hok, hfed, hsame⟩
  | dce =>
      have hv := hs.verify_iff.mp hverify
      obtain ⟨g, s, gone, hrun, -, hmarking, hwork, hsliced, hssa⟩ := Dce.run_marks hs hv
      have hclosed := hmarking.closed hs hwork
      exact ⟨g, hrun, hssa, hssa.verify_iff.mpr (hsliced.valid hclosed hv), hsliced.fed hfed,
        fun M w₀ n => hsliced.observe_eq hclosed hs hv w₀ n⟩

end Zuri.Jit.Ir
