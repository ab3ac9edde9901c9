/-!
Computations over a state that raise, return, or are not done with the fuel they were given,
and loops of turns. A loop ends when each of its turns leaves it or lowers a measure. Two
computations are tied when the first gives what the second does, or is still running where the
second stopped at a mark.
-/

namespace Fuelled

def Exec (ε σ α : Type) := σ → Option (Except ε (α × σ))

variable {ε σ α β γ : Type}

instance : Monad (Exec ε σ) where
  pure a := fun s => some (.ok (a, s))
  bind x f := fun s =>
    match x s with
    | none => none
    | some (.error e) => some (.error e)
    | some (.ok (a, s)) => f a s

/-- What follows a result: nothing follows no result or an error. -/
def follow (r : Option (Except ε (α × σ))) (f : α → Exec ε σ β) : Option (Except ε (β × σ)) :=
  match r with
  | none => none
  | some (.error e) => some (.error e)
  | some (.ok (a, s)) => f a s

theorem bind_apply (x : Exec ε σ α) (f : α → Exec ε σ β) (s : σ) :
    (x >>= f) s = follow (x s) f := rfl

/-- Still running when the fuel is gone. -/
def spent : Exec ε σ α := fun _ => none

def raise (e : ε) : Exec ε σ α := fun _ => some (.error e)

def read (f : σ → α) : Exec ε σ α := fun s => some (.ok (f s, s))

def update (f : σ → σ) : Exec ε σ Unit := fun s => some (.ok ((), f s))

inductive Turn (β γ : Type) where
  | next (b : β)
  | done (c : γ)

def loop (turn : β → Exec ε σ (Turn β γ)) : Nat → β → Exec ε σ γ
  | 0, _ => spent
  | fuel + 1, b => do
      match ← turn b with
      | .next b => loop turn fuel b
      | .done c => pure c

/-- A loop with the fuel a measure of its state gives. -/
def turns (size : σ → Nat) (turn : β → Exec ε σ (Turn β γ)) (b : β) : Exec ε σ γ :=
  fun s => loop turn (size s + 1) b s

/-- The computation raises an error that is allowed, or returns with the postcondition. -/
def Ends (allowed : ε → Prop) (x : Exec ε σ α) (s : σ) (post : α → σ → Prop) : Prop :=
  match x s with
  | none => False
  | some (.error e) => allowed e
  | some (.ok (a, s')) => post a s'

section
variable {x : Exec ε σ α} {f : α → Exec ε σ β} {s : σ} {post post' : α → σ → Prop}
  {allowed : ε → Prop}

@[simp] theorem ends_read {f : σ → α} : Ends allowed (read f : Exec ε σ α) s post ↔ post (f s) s :=
  Iff.rfl

@[simp] theorem ends_update {f : σ → σ} {post : Unit → σ → Prop} :
    Ends allowed (update f : Exec ε σ Unit) s post ↔ post () (f s) := Iff.rfl

@[simp] theorem ends_bind {post : β → σ → Prop} :
    Ends allowed (x >>= f) s post ↔ Ends allowed x s fun a s' => Ends allowed (f a) s' post := by
  rw [Ends, Ends, bind_apply]
  cases x s with
  | none => exact Iff.rfl
  | some r =>
    cases r with
    | error e => exact Iff.rfl
    | ok p => exact Iff.rfl

@[simp] theorem ends_map {g : α → β} {post : β → σ → Prop} :
    Ends allowed (g <$> x) s post ↔ Ends allowed x s fun a s' => post (g a) s' :=
  ends_bind

theorem Ends.mono (h : Ends allowed x s post) (hp : ∀ a s', post a s' → post' a s') :
    Ends allowed x s post' := by
  unfold Ends at *
  cases hx : x s with
  | none => simp [hx] at h
  | some r =>
    cases r with
    | error e =>
      rw [hx] at h
      exact h
    | ok p =>
      rw [hx] at h
      exact hp p.1 p.2 h

theorem Ends.isSome (h : Ends allowed x s post) : (x s).isSome := by
  unfold Ends at h
  cases hx : x s with
  | none => simp [hx] at h
  | some r => rfl

theorem Ends.ne_error {e : ε} (h : Ends allowed x s post) (he : ¬ allowed e) :
    x s ≠ some (.error e) := by
  intro hx
  unfold Ends at h
  rw [hx] at h
  exact he h

end

section
variable {turn : β → Exec ε σ (Turn β γ)} {post : γ → σ → Prop} {allowed : ε → Prop}

/-- A turn leaves the loop with the postcondition, or keeps the invariant and lowers the
measure. -/
def Advances (size : σ → Nat) (inv : β → σ → Prop) (post : γ → σ → Prop) (s : σ) :
    Turn β γ → σ → Prop
  | .next b, s' => inv b s' ∧ size s' < size s
  | .done c, s' => post c s'

theorem ends_loop (size : σ → Nat) (inv : β → σ → Prop)
    (h : ∀ b s, inv b s → Ends allowed (turn b) s (Advances size inv post s)) (fuel : Nat) :
    ∀ b s, inv b s → size s < fuel → Ends allowed (loop turn fuel b) s post := by
  induction fuel with
  | zero =>
    intro b s _ hs
    omega
  | succ fuel ih =>
    intro b s hinv hs
    rw [loop, ends_bind]
    apply (h b s hinv).mono
    intro t s' ht
    cases t with
    | next b' => exact ih b' s' ht.1 (by have := ht.2; omega)
    | done c => exact ht

end

/-- The first result is the second and not the mark, or there is none where the second is the
mark; or, to spare, there may be none. -/
def Tied (spare : Prop) (mark : ε) (x y : Option (Except ε α)) : Prop :=
  x = y ∧ (spare ∨ x ≠ some (.error mark)) ∨ x = none ∧ (spare ∨ y = some (.error mark))

section
variable {spare : Prop} {mark : ε} {x y : Exec ε σ α} {f g : α → Exec ε σ β} {s : σ}

theorem tied_none (r : Option (Except ε α)) (h : spare ∨ r = some (.error mark)) :
    Tied spare mark none r := .inr ⟨rfl, h⟩

theorem tied_refl {r : Option (Except ε α)} (h : spare ∨ r ≠ some (.error mark)) :
    Tied spare mark r r := .inl ⟨rfl, h⟩

theorem tied_spent : Tied spare mark (none : Option (Except ε α)) none :=
  tied_refl (.inr nofun)

theorem tied_pure (a : α) : Tied spare mark ((pure a : Exec ε σ α) s) ((pure a : Exec ε σ α) s) :=
  tied_refl (.inr nofun)

theorem tied_bind (hx : Tied spare mark (x s) (y s))
    (hf : ∀ a s', Tied spare mark (f a s') (g a s')) :
    Tied spare mark ((x >>= f) s) ((y >>= g) s) := by
  rw [bind_apply, bind_apply]
  obtain ⟨h, hmark⟩ | ⟨h, hmark⟩ := hx
  · rw [← h]
    cases hr : x s with
    | none => exact tied_spent
    | some r =>
      cases r with
      | error e =>
        refine tied_refl (hmark.imp_right fun hne heq => hne ?_)
        rw [hr]
        cases heq
        rfl
      | ok p => exact hf p.1 p.2
  · rw [h]
    refine tied_none _ (hmark.imp_right fun hy => ?_)
    rw [hy]
    rfl

variable {turn turn' : β → Exec ε σ (Turn β γ)}

theorem loop_stuck {stuck : β → σ → Prop}
    (h : ∀ b s, stuck b s → turn b s = none ∨
      ∃ b', turn b s = some (.ok (.next b', s)) ∧ stuck b' s) (fuel : Nat) :
    ∀ b s, stuck b s → loop turn fuel b s = none := by
  induction fuel with
  | zero => exact fun b s _ => rfl
  | succ fuel ih =>
    intro b s hs
    rw [loop, bind_apply]
    obtain h' | ⟨b', h', hb'⟩ := h b s hs
    · rw [h']
      rfl
    · rw [h']
      exact ih b' s hb'

/-- Loops whose turns are tied, or where the second stops at the mark and the first turns on
the spot, are tied. -/
theorem tied_loop (stuck : β → σ → Prop)
    (hstuck : ∀ b s, stuck b s → turn' b s = some (.error mark) ∧ (turn b s = none ∨
      ∃ b', turn b s = some (.ok (.next b', s)) ∧ stuck b' s))
    (hturn : ∀ b s, ¬ stuck b s → Tied spare mark (turn b s) (turn' b s)) (fuel : Nat) :
    ∀ {fuel' : Nat}, fuel = fuel' ∨ spare ∧ fuel ≤ fuel' →
      ∀ b s, Tied spare mark (loop turn fuel b s) (loop turn' fuel' b s) := by
  induction fuel with
  | zero =>
    intro fuel' hf b s
    obtain rfl | ⟨hs, _⟩ := hf
    · exact tied_spent
    · exact tied_none _ (.inl hs)
  | succ fuel ih =>
    intro fuel' hf b s
    obtain ⟨fuel', rfl⟩ : ∃ k, fuel' = k + 1 := ⟨fuel' - 1, by omega⟩
    by_cases hs : stuck b s
    · rw [loop_stuck (fun b s hb => (hstuck b s hb).2) (fuel + 1) b s hs]
      refine tied_none _ (.inr ?_)
      rw [loop, bind_apply, (hstuck b s hs).1]
      rfl
    · rw [loop, loop]
      refine tied_bind (hturn b s hs) ?_
      intro t s'
      cases t with
      | next b' => exact ih (hf.imp (by omega) (by rintro ⟨h, _⟩; exact ⟨h, by omega⟩)) b' s'
      | done c => exact tied_pure c

end

end Fuelled
