import Mathlib.Data.Finset.Card
import Mathlib.Data.List.Basic

/-!
Dominance in a directed graph with one root, over an arbitrary type of nodes.

A node dominates another when no path from the root reaches the second without
the first. Paths appear only through `Avoid`, reachability by a path that stays
clear of one node, so every fact here is an induction over that relation.
-/

namespace Graph

variable {α : Type} {E : α → α → Prop} {r : α}

/-- Reachable from the root. -/
inductive Reach (E : α → α → Prop) (r : α) : α → Prop
  | root : Reach E r r
  | step {u v : α} : Reach E r u → E u v → Reach E r v

/-- Reachable from the root by a path on which `a` does not lie. -/
inductive Avoid (E : α → α → Prop) (r a : α) : α → Prop
  | root : r ≠ a → Avoid E r a r
  | step {u v : α} : Avoid E r a u → E u v → v ≠ a → Avoid E r a v

/-- Every path from the root to `b` goes through `a`. -/
def Dom (E : α → α → Prop) (r a b : α) : Prop := ¬ Avoid E r a b

theorem Avoid.reach {a b : α} (h : Avoid E r a b) : Reach E r b := by
  induction h with
  | root _ => exact .root
  | step _ e _ ih => exact .step ih e

theorem Avoid.ne {a b : α} (h : Avoid E r a b) : b ≠ a := by
  cases h with
  | root hne => exact hne
  | step _ _ hne => exact hne

theorem Dom.refl (a : α) : Dom E r a a := fun h => h.ne rfl

theorem dom_root (b : α) : Dom E r r b := by
  intro h
  induction h with
  | root hne => exact hne rfl
  | step _ _ _ ih => exact ih

/-- A path clear of `a` either is clear of `b` too or leads to `b`. -/
theorem Avoid.split {a b c : α} (h : Avoid E r a c) :
    Avoid E r b c ∨ Avoid E r a b := by
  classical
  induction h with
  | root hne =>
      by_cases hb : r = b
      · exact .inr (hb ▸ .root hne)
      · exact .inl (.root hb)
  | step hu e hne ih =>
      rename_i u v
      by_cases hb : v = b
      · exact .inr (hb ▸ .step hu e hne)
      · exact ih.imp (fun h => .step h e hb) id

theorem Dom.trans {a b c : α} (hab : Dom E r a b) (hbc : Dom E r b c) :
    Dom E r a c := fun h => h.split.elim hbc hab

/-- A node other than `v` that dominates `v` dominates each way into it. -/
theorem Dom.pred {a u v : α} (h : Dom E r a v) (e : E u v) (hne : a ≠ v) :
    Dom E r a u := fun hu => h (.step hu e hne.symm)

/-- What dominates every reachable way into `v` dominates `v`. -/
theorem Dom.of_preds {a v : α} (hv : v ≠ r)
    (h : ∀ u, E u v → Reach E r u → Dom E r a u) : Dom E r a v := by
  intro hav
  cases hav with
  | root _ => exact hv rfl
  | step hu e _ => exact h _ e hu.reach hu

/-- The root is the only node that dominates it. -/
theorem Dom.eq_root {a : α} (h : Dom E r a r) : a = r := by
  by_contra hne
  exact h (.root (Ne.symm hne))

/-- Reachable nodes on a path clear of `a` are reached before `a` is. -/
theorem Reach.first {b : α} (h : Reach E r b) (a : α) :
    Avoid E r a b ∨ a = r ∨ ∃ p, Avoid E r a p ∧ E p a := by
  classical
  induction h with
  | root =>
      by_cases hr : r = a
      · exact .inr (.inl hr.symm)
      · exact .inl (.root hr)
  | step hu e ih =>
      rename_i u v
      rcases ih with hav | hex
      · by_cases hv : v = a
        · subst hv
          exact .inr (.inr ⟨u, hav, e⟩)
        · exact .inl (.step hav e hv)
      · exact .inr hex

/-- Dominance is antisymmetric on what the root reaches. -/
theorem Dom.antisymm {a b : α} (hab : Dom E r a b) (hba : Dom E r b a)
    (hb : Reach E r b) : a = b := by
  by_contra hne
  rcases hb.first a with hav | rfl | ⟨p, hav, e⟩
  · exact hab hav
  · exact hne (Eq.symm hba.eq_root)
  · rcases hav.split (b := b) with hbp | habp
    · exact hba (.step hbp e hne)
    · exact hab habp

end Graph
