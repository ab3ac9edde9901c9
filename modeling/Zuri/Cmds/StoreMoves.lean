import Zuri.Cmds.StoreRecovery

/-!
The moves of a transaction. While they are made, the disk is described by the packages
that have gone out and those that have come in, and the entries say the same; so they
cover the moves at every point between two operations.
-/

namespace Zuri.Cmds.Store

open Transition Transaction

variable {Name Contents : Type} [DecidableEq Name]

/-- The packages in `gone` have left `libs`, and those in `came` have come in. -/
structure Moves (libs fresh : Name → Option Contents) (gone came : List Name)
    (d : Disk Name Contents) : Prop where
  came_gone : ∀ n ∈ came, n ∈ gone
  here : ∀ n, n ∉ gone → d.libs n = libs n ∧ d.saved n = none
  out : ∀ n ∈ gone, d.saved n = libs n
  away : ∀ n ∈ gone, n ∉ came → d.libs n = none
  back : ∀ n ∈ came, d.libs n = fresh n

/-- The entries of a transaction that has moved `gone` out and `came` in. -/
structure Logged (libs : Name → Option Contents) (gone came : List Name)
    (done : List (Entry Name)) : Prop where
  sound : Sound libs done.reverse
  old : ∀ n ∈ gone, libs n ≠ none → ∃ e ∈ done, e.name = n ∧ e.old = true
  new : ∀ n ∈ came, ∃ e ∈ done, e.name = n ∧ e.new = true
  gone_of_old : ∀ e ∈ done, e.old = true → e.name ∈ gone ∧ libs e.name ≠ none
  came_of_new : ∀ e ∈ done, e.new = true → e.name ∈ came

variable {libs fresh : Name → Option Contents} {gone came : List Name}
  {done : List (Entry Name)} {d : Disk Name Contents}

section Moving

omit [DecidableEq Name]

theorem Moves.places (h : Moves libs fresh gone came d) : Places libs d := by
  constructor
  · intro n hn
    by_cases hg : n ∈ gone
    · rw [h.out n hg, hn]
    · exact (h.here n hg).2
  · intro n c hn
    by_cases hg : n ∈ gone
    · exact .inl (by rw [h.out n hg, hn])
    · exact .inr ⟨(h.here n hg).2, by rw [(h.here n hg).1, hn]⟩

theorem Logged.covers (h : Logged libs gone came done) (hmoves : Moves libs fresh gone came d) :
    Covers libs done d := by
  constructor
  · intro n hn
    have hg : n ∈ gone := by
      by_contra hg
      exact hn (hmoves.here n hg).2
    exact h.old n hg (by rwa [← hmoves.out n hg])
  · intro e he hnew hago
    obtain ⟨a, ha, haname, haold⟩ := hago
    have hgone := hmoves.came_gone e.name (h.came_of_new e he hnew)
    rw [hmoves.out e.name hgone, ← haname]
    exact (h.gone_of_old a ha haold).2
  · intro n hn hd
    have hg : n ∈ gone := by
      by_contra hg
      exact hd (by rw [(hmoves.here n hg).1, hn])
    have hc : n ∈ came := by
      by_contra hc
      exact hd (hmoves.away n hg hc)
    exact h.new n hc

theorem Logged.stay (h : Logged libs gone came done) {n : Name} (hn : libs n = none ∨ n ∈ gone) :
    Logged libs (n :: gone) came done := by
  refine ⟨h.sound, fun k hk hlibs => ?_, h.new, fun e he ho => ?_, h.came_of_new⟩
  · cases List.mem_cons.mp hk with
    | inl hk =>
        cases hn with
        | inl hn => exact absurd (hk ▸ hn) hlibs
        | inr hn => exact h.old k (hk ▸ hn) hlibs
    | inr hk => exact h.old k hk hlibs
  · exact ⟨List.mem_cons_of_mem n (h.gone_of_old e he ho).1, (h.gone_of_old e he ho).2⟩

theorem Logged.append (h : Logged libs gone came done) {n : Name} {had : Bool} (hn : n ∉ came)
    (hhad : had = true → libs n ≠ none) (hnot : had = false → libs n = none ∨ n ∈ gone) :
    Logged libs (n :: gone) came (done ++ [⟨n, had, false⟩]) := by
  constructor
  · rw [List.reverse_append]
    refine ⟨fun ho => ⟨hhad ho, fun a ha haname => ?_⟩, by simp, h.sound⟩
    cases hnew : a.new with
    | false => rfl
    | true =>
        have hcame := h.came_of_new a (List.mem_reverse.mp ha) hnew
        rw [show a.name = n from haname] at hcame
        exact absurd hcame hn
  · intro k hk hlibs
    by_cases hkg : k ∈ gone
    · obtain ⟨e, he, hgo⟩ := h.old k hkg hlibs
      exact ⟨e, List.mem_append_left _ he, hgo⟩
    · obtain rfl : k = n := by simpa [hkg] using hk
      refine ⟨_, List.mem_append_right _ (List.mem_singleton_self _), rfl, ?_⟩
      cases had with
      | true => rfl
      | false => simp [hlibs, hkg] at hnot
  · intro k hk
    obtain ⟨e, he, hgo⟩ := h.new k hk
    exact ⟨e, List.mem_append_left _ he, hgo⟩
  · intro e he ho
    cases List.mem_append.mp he with
    | inl he => exact ⟨List.mem_cons_of_mem n (h.gone_of_old e he ho).1, (h.gone_of_old e he ho).2⟩
    | inr he =>
        cases List.mem_singleton.mp he
        exact ⟨List.mem_cons_self, hhad ho⟩
  · intro e he hnew
    cases List.mem_append.mp he with
    | inl he => exact h.came_of_new e he hnew
    | inr he => cases List.mem_singleton.mp he; cases hnew

theorem Logged.arrive {n : Name} {had : Bool}
    (h : Logged libs gone came (done ++ [⟨n, had, false⟩])) (hg : n ∈ gone) :
    Logged libs gone (n :: came) (done ++ [⟨n, had, true⟩]) := by
  have hsound := h.sound
  rw [List.reverse_append] at hsound
  have hkept : ∀ k, (∃ e ∈ done ++ [⟨n, had, false⟩], e.name = k ∧ e.old = true) →
      ∃ e ∈ done ++ [⟨n, had, true⟩], e.name = k ∧ e.old = true := by
    intro k hk
    obtain ⟨e, he, hname, ho⟩ := hk
    cases List.mem_append.mp he with
    | inl he => exact ⟨e, List.mem_append_left _ he, hname, ho⟩
    | inr he =>
        cases List.mem_singleton.mp he
        exact ⟨_, List.mem_append_right _ (List.mem_singleton_self _), hname, ho⟩
  constructor
  · rw [List.reverse_append]
    refine ⟨hsound.1, fun _ hlibs => ?_, hsound.2.2⟩
    obtain ⟨e, he, hname, ho⟩ := h.old n hg hlibs
    cases List.mem_append.mp he with
    | inl he => exact .inr ⟨e, List.mem_reverse.mpr he, hname, ho⟩
    | inr he => cases List.mem_singleton.mp he; exact .inl ho
  · exact fun k hk hlibs => hkept k (h.old k hk hlibs)
  · intro k hk
    cases List.mem_cons.mp hk with
    | inl hk =>
        exact ⟨_, List.mem_append_right _ (List.mem_singleton_self _), hk.symm, rfl⟩
    | inr hk =>
        obtain ⟨e, he, hname, hnew⟩ := h.new k hk
        cases List.mem_append.mp he with
        | inl he => exact ⟨e, List.mem_append_left _ he, hname, hnew⟩
        | inr he => cases List.mem_singleton.mp he; cases hnew
  · intro e he ho
    cases List.mem_append.mp he with
    | inl he => exact h.gone_of_old e (List.mem_append_left _ he) ho
    | inr he =>
        cases List.mem_singleton.mp he
        exact h.gone_of_old ⟨n, had, false⟩
          (List.mem_append_right _ (List.mem_singleton_self _)) ho
  · intro e he hnew
    cases List.mem_append.mp he with
    | inl he =>
        exact List.mem_cons_of_mem n (h.came_of_new e (List.mem_append_left _ he) hnew)
    | inr he => cases List.mem_singleton.mp he; exact List.mem_cons_self

theorem Moves.nothing (h : Moves libs fresh gone came d) {n : Name}
    (hn : d.libs n = none) : libs n = none ∨ n ∈ gone := by
  by_cases hg : n ∈ gone
  · exact .inr hg
  · exact .inl (by rw [← (h.here n hg).1, hn])

theorem Moves.stay (h : Moves libs fresh gone came d) {n : Name} (hc : n ∉ came)
    (hn : d.libs n = none) : Moves libs fresh (n :: gone) came d := by
  refine ⟨fun k hk => List.mem_cons_of_mem n (h.came_gone k hk), ?_, ?_, ?_, h.back⟩
  · intro k hk
    exact h.here k fun hg => hk (List.mem_cons_of_mem n hg)
  · intro k hk
    by_cases hg : k ∈ gone
    · exact h.out k hg
    · obtain rfl : k = n := by simpa [hg] using hk
      rw [(h.here k hg).2, ← (h.here k hg).1, hn]
  · intro k hk hkc
    by_cases hg : k ∈ gone
    · exact h.away k hg hkc
    · obtain rfl : k = n := by simpa [hg] using hk
      exact hn

end Moving

theorem Moves.moveOut (h : Moves libs fresh gone came d) {n : Name} {c : Contents}
    (hc : n ∉ came) (hn : d.libs n = some c) :
    libs n ≠ none ∧ Moves libs fresh (n :: gone) came { d with
      libs := Function.update d.libs n none
      saved := Function.update d.saved n (some c) } := by
  have hg : n ∉ gone := by
    intro hg
    rw [h.away n hg hc] at hn
    cases hn
  have hlibs : libs n = some c := by rw [← (h.here n hg).1, hn]
  refine ⟨by simp [hlibs], fun k hk => List.mem_cons_of_mem n (h.came_gone k hk), ?_, ?_, ?_, ?_⟩
  · intro k hk
    obtain ⟨hkn, hkg⟩ := List.ne_and_not_mem_of_not_mem_cons hk
    simpa [Function.update_of_ne hkn] using h.here k hkg
  · intro k hk
    by_cases hkn : k = n
    · subst hkn
      simp [hlibs]
    · simpa [Function.update_of_ne hkn] using h.out k (by simpa [hkn] using hk)
  · intro k hk hkc
    by_cases hkn : k = n
    · subst hkn
      simp
    · simpa [Function.update_of_ne hkn] using h.away k (by simpa [hkn] using hk) hkc
  · intro k hk
    have hkn : k ≠ n := fun hkn => hc (hkn ▸ hk)
    simpa [Function.update_of_ne hkn] using h.back k hk

theorem Moves.moveIn (h : Moves libs fresh gone came d) {n : Name} {c : Contents}
    (hg : n ∈ gone) (hn : fresh n = some c) (rest : Name → Option Contents) :
    Moves libs fresh gone (n :: came) { d with
      fresh := rest
      libs := Function.update d.libs n (some c) } := by
  refine ⟨?_, ?_, h.out, ?_, ?_⟩
  · intro k hk
    cases List.mem_cons.mp hk with
    | inl hk => exact hk ▸ hg
    | inr hk => exact h.came_gone k hk
  · intro k hk
    have hkn : k ≠ n := fun hkn => hk (hkn ▸ hg)
    simpa [Function.update_of_ne hkn] using h.here k hk
  · intro k hk hkc
    obtain ⟨hkn, hkc⟩ := List.ne_and_not_mem_of_not_mem_cons hkc
    simpa [Function.update_of_ne hkn] using h.away k hk hkc
  · intro k hk
    by_cases hkn : k = n
    · subst hkn
      simp [hn]
    · simpa [Function.update_of_ne hkn] using h.back k (by simpa [hkn] using hk)

end Zuri.Cmds.Store
