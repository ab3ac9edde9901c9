import Zuri.Cmds.Store

/-!
What undoing the moves of a transaction brings back. A package's old contents are in
`libs` or in the transaction's `old` directory. A list of entries covers what has been
moved if undoing it puts every package where it was; the journal is such a list wherever
a command may stop.
-/

namespace Zuri.Cmds.Store

open Transition Transaction

variable {Name Contents : Type} [DecidableEq Name]

/-- The old contents of every package are in one of two places. -/
structure Places (libs : Name → Option Contents) (d : Disk Name Contents) : Prop where
  absent : ∀ n, libs n = none → d.saved n = none
  present : ∀ n c, libs n = some c →
    d.saved n = some c ∨ d.saved n = none ∧ d.libs n = some c

/-- Entries, newest first, as the moves of a transaction leave them: what came in place
of an old package came after the old one went. -/
def Sound (libs : Name → Option Contents) : List (Entry Name) → Prop
  | [] => True
  | e :: older =>
      (e.old = true → libs e.name ≠ none ∧ ∀ a ∈ older, a.name = e.name → a.new = false) ∧
        (e.new = true → libs e.name ≠ none →
          e.old = true ∨ ∃ a ∈ older, a.name = e.name ∧ a.old = true) ∧
        Sound libs older

/-- The entries tell of every old package that was moved out and every new one that came
where none was, and none that has come in has been replaced by the old one again. -/
structure Covers (libs : Name → Option Contents) (done : List (Entry Name))
    (d : Disk Name Contents) : Prop where
  left : ∀ n, d.saved n ≠ none → ∃ e ∈ done, e.name = n ∧ e.old = true
  notBack : ∀ e ∈ done, e.new = true → (∃ a ∈ done, a.name = e.name ∧ a.old = true) →
    d.saved e.name ≠ none
  arrived : ∀ n, libs n = none → d.libs n ≠ none → ∃ e ∈ done, e.name = n ∧ e.new = true

variable {libs : Name → Option Contents} {d d' : Disk Name Contents}

omit [DecidableEq Name] in
theorem covers_reverse (done : List (Entry Name)) :
    Covers libs done.reverse d ↔ Covers libs done d := by
  constructor
  · intro h
    exact ⟨by simpa using h.left, by simpa using h.notBack, by simpa using h.arrived⟩
  · intro h
    exact ⟨by simpa using h.left, by simpa using h.notBack, by simpa using h.arrived⟩

/-- What is left to undo, newest first. -/
structure Undoing (libs : Name → Option Contents) (es : List (Entry Name))
    (d : Disk Name Contents) : Prop where
  places : Places libs d
  sound : Sound libs es
  covers : Covers libs es d

omit [DecidableEq Name] in
theorem Undoing.finished (h : Undoing libs [] d) : d.libs = libs ∧ d.saved = fun _ => none := by
  have hsaved : ∀ n, d.saved n = none := by
    intro n
    by_contra hn
    obtain ⟨e, he, _⟩ := h.covers.left n hn
    cases he
  refine ⟨funext fun n => ?_, funext hsaved⟩
  cases hn : libs n with
  | none =>
      by_contra hd
      obtain ⟨e, he, _⟩ := h.covers.arrived n hn hd
      cases he
  | some c =>
      cases h.places.present n c hn with
      | inl hc => rw [hsaved n] at hc; cases hc
      | inr hc => exact hc.2

theorem Places.remove (h : Places libs d) {n : Name} (hn : libs n ≠ none → d.saved n ≠ none) :
    Places libs { d with libs := Function.update d.libs n none } := by
  refine ⟨h.absent, fun k c hk => ?_⟩
  by_cases hkn : k = n
  · subst hkn
    cases h.present k c hk with
    | inl hc => exact .inl hc
    | inr hc => exact absurd hc.1 (hn (by simp [hk]))
  · simpa [Function.update_of_ne hkn] using h.present k c hk

theorem Places.putBack (h : Places libs d) {n : Name} {c : Contents} (hn : d.saved n = some c) :
    Places libs { d with
      saved := Function.update d.saved n none
      libs := Function.update d.libs n (some c) } := by
  constructor
  · intro k hk
    by_cases hkn : k = n
    · subst hkn
      simp
    · simpa [Function.update_of_ne hkn] using h.absent k hk
  · intro k b hk
    by_cases hkn : k = n
    · subst hkn
      cases h.present k b hk with
      | inl hb => exact .inr ⟨by simp, by simpa [hn] using hb⟩
      | inr hb => rw [hn] at hb; cases hb.1
    · simpa [Function.update_of_ne hkn] using h.present k b hk

omit [DecidableEq Name] in
theorem Undoing.step {e : Entry Name} {es : List (Entry Name)} (h : Undoing libs (e :: es) d)
    (hplaces : Places libs d')
    (hother : ∀ k, k ≠ e.name → d'.libs k = d.libs k ∧ d'.saved k = d.saved k)
    (hold : e.old = true → d'.saved e.name = none)
    (hsame : e.old = false → d'.saved e.name = d.saved e.name)
    (hnew : libs e.name = none → d'.libs e.name = if e.new then none else d.libs e.name) :
    Undoing libs es d' := by
  obtain ⟨hplaced, ⟨hwas, _, hsound⟩, hcovers⟩ := h
  refine ⟨hplaces, hsound, ?_, ?_, ?_⟩
  · intro n hn
    by_cases hne : n = e.name
    · subst hne
      have hkept : e.old = false := by
        cases ho : e.old with
        | true => exact absurd (hold ho) hn
        | false => rfl
      obtain ⟨a, ha, haname, haold⟩ := hcovers.left e.name (by rwa [← hsame hkept])
      cases ha with
      | head => rw [hkept] at haold; cases haold
      | tail _ ha => exact ⟨a, ha, haname, haold⟩
    · obtain ⟨a, ha, haname, haold⟩ := hcovers.left n (by rwa [← (hother n hne).2])
      cases ha with
      | head => exact absurd haname.symm hne
      | tail _ ha => exact ⟨a, ha, haname, haold⟩
  · intro a ha hanew hago
    obtain ⟨b, hb, hbname, hbold⟩ := hago
    have hback := hcovers.notBack a (List.mem_cons_of_mem e ha) hanew
      ⟨b, List.mem_cons_of_mem e hb, hbname, hbold⟩
    by_cases hne : a.name = e.name
    · cases ho : e.old with
      | true =>
          have hfalse := (hwas ho).2 a ha hne
          rw [hanew] at hfalse
          cases hfalse
      | false =>
          rw [hne] at hback ⊢
          rwa [hsame ho]
    · rwa [(hother a.name hne).2]
  · intro n hn hd
    by_cases hne : n = e.name
    · subst hne
      rw [hnew hn] at hd
      cases ho : e.new with
      | true => simp [ho] at hd
      | false =>
          rw [ho] at hd
          obtain ⟨a, ha, haname, hanew⟩ := hcovers.arrived e.name hn hd
          cases ha with
          | head => rw [ho] at hanew; cases hanew
          | tail _ ha => exact ⟨a, ha, haname, hanew⟩
    · obtain ⟨a, ha, haname, hanew⟩ := hcovers.arrived n hn (by rwa [← (hother n hne).1])
      cases ha with
      | head => exact absurd haname.symm hne
      | tail _ ha => exact ⟨a, ha, haname, hanew⟩

/-- The operations of `_undo`. -/
def FileOp.Undoes : FileOp Name Contents → Prop
  | .remove _ | .putBack _ => True
  | _ => False

section Undo

variable {C : Attempted (Machine Name Contents) (FileOp Name Contents) → Prop}
  {R K : Machine Name Contents → Prop} (journal : Option (Journal Name))
  (record : Name → Option Package)

/-- The journal and the record are as they were. -/
def Kept (m : Machine Name Contents) : Prop :=
  m.disk.journal = journal ∧ m.disk.record = record

/-- Where undoing may be stopped. -/
def StopsIn (libs : Name → Option Contents)
    (C : Attempted (Machine Name Contents) (FileOp Name Contents) → Prop)
    (R K : Machine Name Contents → Prop) : Prop :=
  ∀ (m : Machine Name Contents) (op : FileOp Name Contents) (fate : Fate), op.Undoes →
    Places libs m.disk → Kept journal record m → (exec op m).isSome → fate ≠ .done →
    C ⟨m, op, fate⟩ → R m ∧ K m

variable {journal record}

theorem undoing_ensures (hstop : StopsIn journal record libs C R K)
    (op : FileOp Name Contents) (hundoes : op.Undoes) {m t : Machine Name Contents}
    (hop : exec op m = some t) (hplaces : Places libs m.disk) (hkept : Kept journal record m)
    {Q : Unit → Machine Name Contents → Prop} (hQ : Q () t) :
    Script.Ensures exec C Q R K (Script.act op) m := by
  have hpossible : (exec op m).isSome := by rw [hop]; rfl
  rw [Script.ensures_act]
  refine ⟨fun u hu _ => ?_, fun hC => ?_, fun hC => ?_⟩
  · rw [hop] at hu
    cases hu
    exact hQ
  · exact (hstop m op _ hundoes hplaces hkept hpossible (by simp) hC).1
  · exact (hstop m op _ hundoes hplaces hkept hpossible (by simp) hC).2

/-- What `_undo` does about the old contents, after it has dealt with the new ones. -/
theorem undoOld_ensures (hstop : StopsIn journal record libs C R K) {e : Entry Name}
    {es : List (Entry Name)} {m t : Machine Name Contents} (h : Undoing libs (e :: es) m.disk)
    (hplaces : Places libs t.disk) (hkept : Kept journal record t)
    (hsaved : t.disk.saved = m.disk.saved)
    (hother : ∀ k, k ≠ e.name → t.disk.libs k = m.disk.libs k)
    (hnew : libs e.name = none →
      t.disk.libs e.name = if e.new then none else m.disk.libs e.name) :
    Script.Ensures exec C (fun _ u => Undoing libs es u.disk ∧ Kept journal record u) R K
      (if e.old = true then do
        let m ← Script.get
        if (m.disk.saved e.name).isSome = true then do
          Script.act (.remove e.name)
          Script.act (.putBack e.name)
        else pure ()
      else pure ()) t := by
  cases ho : e.old with
  | false =>
      exact ⟨h.step hplaces (fun k hk => ⟨hother k hk, by rw [hsaved]⟩) (by simp [ho])
        (fun _ => by rw [hsaved]) hnew, hkept⟩
  | true =>
      rw [if_pos rfl, Script.ensures_bind, Script.ensures_get]
      cases hs : t.disk.saved e.name with
      | none =>
          exact ⟨h.step hplaces (fun k hk => ⟨hother k hk, by rw [hsaved]⟩) (fun _ => hs)
            (fun _ => by rw [hsaved]) hnew, hkept⟩
      | some c =>
          have hwas := (h.sound.1 ho).1
          have hremoved := hplaces.remove (n := e.name) (by simp [hs])
          rw [if_pos (by rfl), Script.ensures_bind]
          refine undoing_ensures hstop (.remove e.name) trivial rfl hplaces hkept ?_
          refine undoing_ensures hstop (.putBack e.name) (m := { t with disk := { t.disk with
            libs := Function.update t.disk.libs e.name none } }) (t := { t with disk := { t.disk with
            saved := Function.update t.disk.saved e.name none
            libs := Function.update t.disk.libs e.name (some c) } }) trivial ?_ hremoved hkept ?_
          · simp [exec, Disk.exec, hs]
          · refine ⟨h.step (hplaces.putBack hs) (fun k hk => ?_) (by simp) (by simp [ho])
              (fun hnone => absurd hnone hwas), hkept⟩
            simp [Function.update_of_ne hk, hother k hk, hsaved]

theorem undoEntry_ensures (hstop : StopsIn journal record libs C R K) (e : Entry Name)
    (es : List (Entry Name)) (m : Machine Name Contents)
    (h : Undoing libs (e :: es) m.disk ∧ Kept journal record m) :
    Script.Ensures exec C (fun _ t => Undoing libs es t.disk ∧ Kept journal record t) R K
      (undoEntry e) m := by
  obtain ⟨h, hkept⟩ := h
  obtain ⟨hwas, hcame, _⟩ := h.sound
  have hsafe : e.new = true → libs e.name ≠ none → m.disk.saved e.name ≠ none := by
    intro hnew hlibs
    refine h.covers.notBack e List.mem_cons_self hnew ?_
    cases hcame hnew hlibs with
    | inl ho => exact ⟨e, List.mem_cons_self, rfl, ho⟩
    | inr ho =>
        obtain ⟨a, ha, hago⟩ := ho
        exact ⟨a, List.mem_cons_of_mem e ha, hago⟩
  rw [undoEntry]
  cases hn : e.new with
  | false =>
      exact undoOld_ensures hstop h h.places hkept rfl (fun _ _ => rfl) (by simp [hn])
  | true =>
      rw [if_pos rfl, Script.ensures_bind]
      refine undoing_ensures hstop (.remove e.name) trivial rfl h.places hkept ?_
      refine undoOld_ensures hstop h (h.places.remove (hsafe hn)) hkept rfl (fun k hk => ?_) ?_
      · exact Function.update_of_ne hk _ _
      · simp [hn]

/-- Undoing what covers the moves brings every package back. -/
theorem undo_ensures (hstop : StopsIn journal record libs C R K) (done : List (Entry Name))
    (m : Machine Name Contents) (hplaces : Places libs m.disk) (hsound : Sound libs done.reverse)
    (hcovers : Covers libs done m.disk) (hkept : Kept journal record m) :
    Script.Ensures exec C
      (fun _ t => t.disk.libs = libs ∧ t.disk.saved = (fun _ => none) ∧ Kept journal record t) R K
      (undo done) m := by
  have hundoing : Undoing libs done.reverse m.disk :=
    ⟨hplaces, hsound, (covers_reverse done).mpr hcovers⟩
  refine (Script.ensures_forM (fun es t => Undoing libs es t.disk ∧ Kept journal record t) _
    (fun e es t ht => undoEntry_ensures hstop e es t ht) _ m ⟨hundoing, hkept⟩).weaken ?_
    (fun _ h => h) fun _ h => h
  intro _ t ht
  obtain ⟨hlibs, hsaved⟩ := ht.1.finished
  exact ⟨hlibs, hsaved, ht.2⟩

end Undo

end Zuri.Cmds.Store
