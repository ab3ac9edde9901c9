/-!
Scripts of operations any of which may raise an error, and any of which the process may
be killed before. A script is run against the fates of its operations; what a script
ensures is computed from its end, with a postcondition for each way it can stop.
-/

namespace Transition

/-- What becomes of an operation: it goes through, it raises and changes nothing, or the
process is killed before it. -/
inductive Fate where
  | done
  | raises
  | killed
  deriving DecidableEq

structure Attempted (σ ω : Type) where
  before : σ
  op : ω
  fate : Fate

inductive Script (σ ω α : Type) where
  | ret (a : α)
  | raise
  | look (k : σ → Script σ ω α)
  | update (f : σ → σ) (k : Script σ ω α)
  | perform (op : ω) (k failed : Script σ ω α)

inductive Ended (α : Type) where
  | value (a : α)
  | raised
  | killed
  deriving DecidableEq

structure Outcome (σ ω α : Type) where
  ended : Ended α
  state : σ
  attempts : List (Attempted σ ω)

namespace Script

variable {σ ω α β : Type}

def bind : Script σ ω α → (α → Script σ ω β) → Script σ ω β
  | .ret a, next => next a
  | .raise, _ => .raise
  | .look k, next => .look fun s => (k s).bind next
  | .update f k, next => .update f (k.bind next)
  | .perform op k failed, next => .perform op (k.bind next) (failed.bind next)

instance : Monad (Script σ ω) where
  pure := .ret
  bind := bind

/-- `catch { body } as error { handler }`. -/
def attempt : Script σ ω α → Script σ ω α → Script σ ω α
  | .ret a, _ => .ret a
  | .raise, handler => handler
  | .look k, handler => .look fun s => (k s).attempt handler
  | .update f k, handler => .update f (k.attempt handler)
  | .perform op k failed, handler => .perform op (k.attempt handler) (failed.attempt handler)

def get : Script σ ω σ := .look .ret

def modify (f : σ → σ) : Script σ ω Unit := .update f (.ret ())

def act (op : ω) : Script σ ω Unit := .perform op (.ret ()) .raise

/-- Runs a script. Operations after the fates that are given all go through, unless the
operation itself is not possible. -/
def run (exec : ω → σ → Option σ) : Script σ ω α → σ → List Fate → Outcome σ ω α
  | .ret a, s, _ => ⟨.value a, s, []⟩
  | .raise, s, _ => ⟨.raised, s, []⟩
  | .look k, s, fates => (k s).run exec s fates
  | .update f k, s, fates => k.run exec (f s) fates
  | .perform op k failed, s, fates =>
      match fates.headD .done, exec op s with
      | .killed, _ => ⟨.killed, s, [⟨s, op, .killed⟩]⟩
      | .done, some t =>
          let rest := k.run exec t fates.tail
          { rest with attempts := ⟨s, op, .done⟩ :: rest.attempts }
      | _, _ =>
          let rest := failed.run exec s fates.tail
          { rest with attempts := ⟨s, op, .raises⟩ :: rest.attempts }

end Script

/-- The postcondition for the way a run ended holds. -/
def Outcome.Holds {σ ω α : Type} (Q : α → σ → Prop) (R K : σ → Prop) (o : Outcome σ ω α) :
    Prop :=
  match o.ended with
  | .value a => Q a o.state
  | .raised => R o.state
  | .killed => K o.state

namespace Script

variable {σ ω α β : Type}

/-- Where every operation attempted meets the condition `C`, the script ends in `Q`,
raises in `R` or is killed in `K`. -/
def Ensures (exec : ω → σ → Option σ) (C : Attempted σ ω → Prop) (Q : α → σ → Prop)
    (R K : σ → Prop) : Script σ ω α → σ → Prop
  | .ret a, s => Q a s
  | .raise, s => R s
  | .look k, s => (k s).Ensures exec C Q R K s
  | .update f k, s => k.Ensures exec C Q R K (f s)
  | .perform op k failed, s =>
      (∀ t, exec op s = some t → C ⟨s, op, .done⟩ → k.Ensures exec C Q R K t) ∧
        (C ⟨s, op, .raises⟩ → failed.Ensures exec C Q R K s) ∧ (C ⟨s, op, .killed⟩ → K s)

variable {exec : ω → σ → Option σ} {C : Attempted σ ω → Prop} {R K : σ → Prop}

@[simp] theorem ensures_pure (Q : α → σ → Prop) (a : α) (s : σ) :
    Ensures exec C Q R K (pure a : Script σ ω α) s ↔ Q a s :=
  Iff.rfl

@[simp] theorem ensures_get (Q : σ → σ → Prop) (s : σ) :
    Ensures exec C Q R K (get : Script σ ω σ) s ↔ Q s s :=
  Iff.rfl

@[simp] theorem ensures_modify (Q : Unit → σ → Prop) (f : σ → σ) (s : σ) :
    Ensures exec C Q R K (modify f : Script σ ω Unit) s ↔ Q () (f s) :=
  Iff.rfl

theorem ensures_act (Q : Unit → σ → Prop) (op : ω) (s : σ) :
    Ensures exec C Q R K (act op : Script σ ω Unit) s ↔
      (∀ t, exec op s = some t → C ⟨s, op, .done⟩ → Q () t) ∧
        (C ⟨s, op, .raises⟩ → R s) ∧ (C ⟨s, op, .killed⟩ → K s) :=
  Iff.rfl

@[simp] theorem ensures_bind (Q : β → σ → Prop) (p : Script σ ω α) (next : α → Script σ ω β)
    (s : σ) : Ensures exec C Q R K (p >>= next) s ↔
      Ensures exec C (fun a t => Ensures exec C Q R K (next a) t) R K p s := by
  change Ensures exec C Q R K (p.bind next) s ↔ _
  induction p generalizing s with
  | ret a => rfl
  | raise => rfl
  | look k ih => exact ih s s
  | update f k ih => exact ih (f s)
  | perform op k failed ihk ihf =>
      simp only [bind, Ensures]
      exact and_congr (forall_congr' fun t => imp_congr_right fun _ => imp_congr_right fun _ => ihk t)
        (and_congr_left' (imp_congr_right fun _ => ihf s))

@[simp] theorem ensures_attempt (Q : α → σ → Prop) (p handler : Script σ ω α) (s : σ) :
    Ensures exec C Q R K (p.attempt handler) s ↔
      Ensures exec C Q (fun t => Ensures exec C Q R K handler t) K p s := by
  induction p generalizing s with
  | ret a => rfl
  | raise => rfl
  | look k ih => exact ih s s
  | update f k ih => exact ih (f s)
  | perform op k failed ihk ihf =>
      simp only [attempt, Ensures]
      exact and_congr (forall_congr' fun t => imp_congr_right fun _ => imp_congr_right fun _ => ihk t)
        (and_congr_left' (imp_congr_right fun _ => ihf s))

theorem Ensures.weaken {Q Q' : α → σ → Prop} {R' K' : σ → Prop} {p : Script σ ω α} {s : σ}
    (h : Ensures exec C Q R K p s) (hQ : ∀ a t, Q a t → Q' a t) (hR : ∀ t, R t → R' t)
    (hK : ∀ t, K t → K' t) : Ensures exec C Q' R' K' p s := by
  induction p generalizing s with
  | ret a => exact hQ a s h
  | raise => exact hR s h
  | look k ih => exact ih s h
  | update f k ih => exact ih h
  | perform op k failed ihk ihf =>
      obtain ⟨hdone, hraises, hkilled⟩ := h
      exact ⟨fun t ht hC => ihk (hdone t ht hC), fun hC => ihf (hraises hC),
        fun hC => hK s (hkilled hC)⟩

/-- A loop: what each round takes from the rest of the list to the list after it. -/
theorem ensures_forM (I : List β → σ → Prop) (f : β → Script σ ω PUnit)
    (hround : ∀ x xs s, I (x :: xs) s → Ensures exec C (fun _ => I xs) R K (f x) s)
    (xs : List β) (s : σ) (h : I xs s) :
    Ensures exec C (fun _ => I []) R K (xs.forM f) s := by
  induction xs generalizing s with
  | nil => exact h
  | cons x xs ih =>
      change Ensures exec C _ R K (f x >>= fun _ => xs.forM f) s
      rw [ensures_bind]
      exact (hround x xs s h).weaken (fun _ t ht => ih t ht) (fun _ hR => hR) fun _ hK => hK

/-- What a script ensures holds of its runs. -/
theorem Ensures.run {Q : α → σ → Prop} {p : Script σ ω α} {s : σ}
    (h : Ensures exec C Q R K p s) (fates : List Fate)
    (hmeets : ∀ a ∈ (p.run exec s fates).attempts, C a) :
    (p.run exec s fates).Holds Q R K := by
  induction p generalizing s fates with
  | ret a => exact h
  | raise => exact h
  | look k ih => exact ih s h fates hmeets
  | update f k ih => exact ih h fates hmeets
  | perform op k failed ihk ihf =>
      obtain ⟨hdone, hraises, hkilled⟩ := h
      simp only [Script.run] at hmeets ⊢
      split at hmeets
      · exact hkilled (hmeets _ List.mem_cons_self)
      · rename_i t _ ht
        exact ihk (hdone t ht (hmeets _ List.mem_cons_self)) _
          fun a ha => hmeets a (List.mem_cons_of_mem _ ha)
      · exact ihf (hraises (hmeets _ List.mem_cons_self)) _
          fun a ha => hmeets a (List.mem_cons_of_mem _ ha)

/-- Left alone, a run is not killed, and only what is not possible raises. -/
theorem run_alone (p : Script σ ω α) (s : σ) (a : Attempted σ ω)
    (ha : a ∈ (p.run exec s []).attempts) :
    a.fate ≠ .killed ∧ (a.fate = .raises → exec a.op a.before = none) := by
  induction p generalizing s with
  | ret _ | raise => cases ha
  | look k ih => exact ih s s ha
  | update f k ih => exact ih (f s) ha
  | perform op k failed ihk ihf =>
      simp only [run, List.headD_nil, List.tail_nil] at ha
      cases hop : exec op s with
      | some t =>
          simp only [hop, List.mem_cons] at ha
          cases ha with
          | inl ha => subst ha; exact ⟨by simp, fun h => by cases h⟩
          | inr ha => exact ihk t ha
      | none =>
          simp only [hop, List.mem_cons] at ha
          cases ha with
          | inl ha => subst ha; exact ⟨by simp, fun _ => hop⟩
          | inr ha => exact ihf s ha

end Script
end Transition
