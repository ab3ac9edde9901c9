import Mathlib.Logic.Relation

/-!
Systems that keep a log. An observer replays the log and has a state of its own; a
condition holds along a log if every event meets it at what the observer made of the
events before. What each step carries over, runs carry over.
-/

namespace Transition

variable {σ ε ρ : Type}

/-- A condition on every event, at what the observer made of the events before it. -/
def Along (P : ρ → ε → Prop) (f : ρ → ε → ρ) : ρ → List ε → Prop
  | _, [] => True
  | r, e :: es => P r e ∧ Along P f (f r e) es

instance decidableAlong (P : ρ → ε → Prop) [∀ r e, Decidable (P r e)] (f : ρ → ε → ρ) :
    ∀ r log, Decidable (Along P f r log)
  | _, [] => isTrue trivial
  | r, e :: es =>
      have := decidableAlong P f (f r e) es
      inferInstanceAs (Decidable (P r e ∧ Along P f (f r e) es))

theorem along_append (P : ρ → ε → Prop) (f : ρ → ε → ρ) (r : ρ) (first more : List ε) :
    Along P f r (first ++ more) ↔ Along P f r first ∧ Along P f (first.foldl f r) more := by
  induction first generalizing r with
  | nil => simp [Along]
  | cons e es ih => simp only [List.cons_append, Along, List.foldl_cons, ih, and_assoc]

theorem Along.and {P Q : ρ → ε → Prop} {f : ρ → ε → ρ} {r : ρ} {log : List ε}
    (h : Along P f r log) (k : Along Q f r log) : Along (fun r e => P r e ∧ Q r e) f r log := by
  induction log generalizing r with
  | nil => trivial
  | cons e es ih => exact ⟨⟨h.1, k.1⟩, ih h.2 k.2⟩

theorem along_of_forall {P : ρ → ε → Prop} (f : ρ → ε → ρ) (r : ρ) (log : List ε)
    (h : ∀ e ∈ log, ∀ r, P r e) : Along P f r log := by
  induction log generalizing r with
  | nil => trivial
  | cons e es ih =>
      exact ⟨h e List.mem_cons_self r, ih _ fun x hx => h x (List.mem_cons_of_mem e hx)⟩

/-- Events that leave every observer as it was and meet the condition can be left out. -/
theorem along_filter {P : ρ → ε → Prop} {f : ρ → ε → ρ} (p : ε → Bool)
    (hsilent : ∀ r e, p e = false → f r e = r ∧ P r e) {r : ρ} {log : List ε}
    (h : Along P f r (log.filter p)) : Along P f r log := by
  induction log generalizing r with
  | nil => trivial
  | cons e es ih =>
      cases hp : p e with
      | true =>
          rw [List.filter_cons_of_pos hp] at h
          exact ⟨h.1, ih h.2⟩
      | false =>
          rw [List.filter_cons_of_neg (by simp [hp])] at h
          obtain ⟨hsame, hmet⟩ := hsilent r e hp
          exact ⟨hmet, ih (hsame.symm ▸ h)⟩

/-- What every step that meets the condition preserves holds after all of them, and what
it grants at each of them is granted along the whole list. -/
theorem Along.keeps {P Q : ρ → ε → Prop} {f : ρ → ε → ρ} {I : ρ → Prop}
    (hstep : ∀ r e, I r → P r e → I (f r e) ∧ Q r e) {r : ρ} {log : List ε} (hr : I r)
    (h : Along P f r log) : I (log.foldl f r) ∧ Along Q f r log := by
  induction log generalizing r with
  | nil => exact ⟨hr, trivial⟩
  | cons e es ih =>
      obtain ⟨hnext, hkept⟩ := hstep r e hr h.1
      obtain ⟨hlast, hmore⟩ := ih hnext h.2
      exact ⟨hlast, hkept, hmore⟩

/-- The log grows. Where the new events meet the condition, what relates the observer to
the state is kept, and the new events do as they are promised to. -/
def Carries (log : σ → List ε) (P Q : ρ → ε → Prop) (f : ρ → ε → ρ) (I : ρ → σ → Prop)
    (s t : σ) : Prop :=
  ∃ es, log t = log s ++ es ∧
    ∀ r, I r s → Along P f r es → I (es.foldl f r) t ∧ Along Q f r es

/-- The log grows by events that move every observer in the same way, each as promised. -/
def Appends (log : σ → List ε) (Q : ρ → ε → Prop) (f : ρ → ε → ρ) (s t : σ) (g : ρ → ρ) : Prop :=
  ∃ es, log t = log s ++ es ∧ (∀ r, es.foldl f r = g r) ∧ ∀ e ∈ es, ∀ r, Q r e

section Appending

variable {log : σ → List ε} {Q : ρ → ε → Prop} {f : ρ → ε → ρ}

theorem Appends.same {s t : σ} (h : log t = log s) : Appends log Q f s t id :=
  ⟨[], by rw [h, List.append_nil], fun _ => rfl, by simp⟩

theorem Appends.event {s t : σ} {e : ε} (h : log t = log s ++ [e]) (hkept : ∀ r, Q r e) :
    Appends log Q f s t (f · e) :=
  ⟨[e], h, fun _ => rfl, by simpa using hkept⟩

theorem Appends.trans {s t u : σ} {g k : ρ → ρ} (h : Appends log Q f s t g)
    (hk : Appends log Q f t u k) : Appends log Q f s u (k ∘ g) := by
  obtain ⟨first, hfirst, hg, hkept⟩ := h
  obtain ⟨more, hmore, hk, kept⟩ := hk
  refine ⟨first ++ more, by rw [hmore, hfirst, List.append_assoc], ?_, ?_⟩
  · intro r
    rw [List.foldl_append, hg, hk]
    rfl
  · intro e he
    rcases List.mem_append.mp he with he | he
    · exact hkept e he
    · exact kept e he

end Appending

section Runs

variable {log : σ → List ε} {P Q : ρ → ε → Prop} {f : ρ → ε → ρ} {I : ρ → σ → Prop}

theorem Carries.trans {s t u : σ} (h : Carries log P Q f I s t) (k : Carries log P Q f I t u) :
    Carries log P Q f I s u := by
  obtain ⟨es, hlog, hes⟩ := h
  obtain ⟨fs, klog, hfs⟩ := k
  refine ⟨es ++ fs, by rw [klog, hlog, List.append_assoc], ?_⟩
  intro r hr halong
  obtain ⟨hfirst, hmore⟩ := (along_append P f r es fs).mp halong
  obtain ⟨ht, hkept⟩ := hes r hr hfirst
  obtain ⟨hu, kept⟩ := hfs _ ht hmore
  rw [List.foldl_append]
  exact ⟨hu, (along_append Q f r es fs).mpr ⟨hkept, kept⟩⟩

theorem carries_run {step : σ → σ → Prop} (hstep : ∀ s t, step s t → Carries log P Q f I s t)
    {s t : σ} (hrun : Relation.ReflTransGen step s t) : Carries log P Q f I s t := by
  induction hrun with
  | refl => exact ⟨[], (List.append_nil _).symm, fun _ hr _ => ⟨hr, trivial⟩⟩
  | tail _ hlast ih => exact Carries.trans ih (hstep _ _ hlast)

/-- Along a whole log that meets the condition, the observer and the state stay related,
and the events do as they are promised to. -/
theorem replay_run {step : σ → σ → Prop} (hstep : ∀ s t, step s t → Carries log P Q f I s t)
    {s t : σ} (hrun : Relation.ReflTransGen step s t) {r : ρ} (hstart : I ((log s).foldl f r) s)
    (hkept : Along Q f r (log s)) (halong : Along P f r (log t)) :
    I ((log t).foldl f r) t ∧ Along Q f r (log t) := by
  obtain ⟨es, hlog, hes⟩ := carries_run hstep hrun
  rw [hlog] at halong ⊢
  obtain ⟨ht, kept⟩ := hes _ hstart ((along_append P f r (log s) es).mp halong).2
  rw [List.foldl_append]
  exact ⟨ht, (along_append Q f r (log s) es).mpr ⟨hkept, kept⟩⟩

end Runs

end Transition
