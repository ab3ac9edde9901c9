import Mathlib.Data.List.Basic

/-!
Two systems side by side. Runs are compared by what they show after any number of steps, so runs
without an end are compared as well; and a program over one machine follows the same program over
another as long as the other says that all is well.
-/

namespace Transition

/-- What a step comes to. -/
inductive Next (σ ο : Type)
  | on (next : σ)
  | done (o : ο)

section Steps

variable {σ τ ε ο : Type}

/-- What a run shows in its first steps: its events, and its end if it has
come to it. -/
def observe (step : σ → List ε × Next σ ο) : Nat → σ → List ε × Option ο
  | 0, _ => ([], none)
  | n + 1, s =>
      match step s with
      | (es, .done o) => (es, some o)
      | (es, .on next) =>
          let (more, out) := observe step n next
          (es ++ more, out)

/-- Related states make the same events and end the same way or go on to
related states. -/
def Lockstep (f : σ → List ε × Next σ ο) (g : τ → List ε × Next τ ο)
    (R : σ → τ → Prop) : Prop :=
  ∀ s t, R s t →
    (∃ es s' t', f s = (es, .on s') ∧ g t = (es, .on t') ∧ R s' t') ∨
      ∃ es o, f s = (es, .done o) ∧ g t = (es, .done o)

/-- Runs from related states show the same at every moment. -/
theorem Lockstep.observe_eq {f : σ → List ε × Next σ ο} {g : τ → List ε × Next τ ο}
    {R : σ → τ → Prop} (h : Lockstep f g R) (n : Nat) {s : σ} {t : τ} (hst : R s t) :
    observe f n s = observe g n t := by
  induction n generalizing s t with
  | zero => rfl
  | succ n ih =>
      rcases h s t hst with ⟨es, s', t', hs, ht, hnext⟩ | ⟨es, o, hs, ht⟩
      · simp only [observe, hs, ht, ih hnext]
      · simp only [observe, hs, ht]

end Steps

section Programs

variable {σ τ ε α β : Type}

/-- How the states of two machines belong together, and when the second is well. -/
structure Pair (σ τ : Type) where
  Rel : σ → τ → Prop
  Well : τ → Prop

/-- A program that may fail, run from a state. -/
def runFrom (f : ExceptT ε (StateM σ) α) (s : σ) : Except ε α × σ := f.run.run s

def Follows (P : Pair σ τ) (f : ExceptT ε (StateM σ) α) (g : ExceptT ε (StateM τ) α) : Prop :=
  ∀ s t, P.Well (runFrom g t).2 → P.Well t ∧
    (P.Rel s t → (runFrom f s).1 = (runFrom g t).1 ∧ P.Rel (runFrom f s).2 (runFrom g t).2)

variable {P : Pair σ τ}

theorem runFrom_bind (f : ExceptT ε (StateM σ) α) (k : α → ExceptT ε (StateM σ) β) (s : σ) :
    runFrom (f >>= k) s = match (runFrom f s).1 with
      | .ok a => runFrom (k a) (runFrom f s).2
      | .error e => (.error e, (runFrom f s).2) := by
  cases h : f.run.run s with
  | mk out s' =>
      simp only [runFrom, ExceptT.run_bind, StateT.run_bind, h]
      cases out with
      | ok a => rfl
      | error e => rfl

theorem follows_pure (a : α) :
    Follows P (pure a : ExceptT ε (StateM σ) α) (pure a : ExceptT ε (StateM τ) α) :=
  fun _ _ hwell => ⟨hwell, fun hrel => ⟨rfl, hrel⟩⟩

theorem follows_throw (e : ε) :
    Follows P (throw e : ExceptT ε (StateM σ) α) (throw e : ExceptT ε (StateM τ) α) :=
  fun _ _ hwell => ⟨hwell, fun hrel => ⟨rfl, hrel⟩⟩

theorem Follows.bind {f : ExceptT ε (StateM σ) α} {g : ExceptT ε (StateM τ) α}
    {k : α → ExceptT ε (StateM σ) β} {l : α → ExceptT ε (StateM τ) β} (h : Follows P f g)
    (hk : ∀ a, Follows P (k a) (l a)) : Follows P (f >>= k) (g >>= l) := by
  intro s t hwell
  rw [runFrom_bind g l] at hwell ⊢
  rw [runFrom_bind f k]
  cases hg : (runFrom g t).1 with
  | error e =>
      rw [hg] at hwell
      obtain ⟨hbefore, hsame⟩ := h s t hwell
      refine ⟨hbefore, fun hrel => ?_⟩
      obtain ⟨hout, hafter⟩ := hsame hrel
      rw [hout.trans hg]
      exact ⟨rfl, hafter⟩
  | ok a =>
      rw [hg] at hwell
      obtain ⟨hmiddle, hrest⟩ := hk a (runFrom f s).2 (runFrom g t).2 hwell
      obtain ⟨hbefore, hsame⟩ := h s t hmiddle
      refine ⟨hbefore, fun hrel => ?_⟩
      obtain ⟨hout, hafter⟩ := hsame hrel
      rw [hout.trans hg]
      exact hrest hafter

end Programs

end Transition
