import Mathlib.Order.BoundedOrder.Basic
import Mathlib.Order.Lattice
import Mathlib.Algebra.Order.BigOperators.Group.List
import Mathlib.Algebra.Order.Ring.Nat
import Mathlib.Logic.Function.Basic

/-!
Sweeps with widening. Values are bounded from above by elements of a semilattice that may have
chains of any length; what bounds a value is joined with what its site makes of the bounds of
the others, and a value whose bound has grown too often is given the top. Sweeps end, and where
they end every site is within its own value's bound.
-/

namespace Zuri.Widening

section State

variable {V R : Type}

/-- What bounds each value so far, and how often that has grown. -/
structure State (V R : Type) where
  known : V → Option R
  widened : V → Nat

/-- A value and what the bounds of others make of it; nothing as long as one of them is
missing. -/
structure Site (V R : Type) where
  value : V
  next : (V → Option R) → Option R

/-- How often the bound of a value can still change. -/
def left (limit : Nat) (s : State V R) (v : V) : Nat :=
  match s.known v with
  | none => limit + 2
  | some _ => limit + 1 - s.widened v

def total (limit : Nat) (vs : List V) (s : State V R) : Nat := (vs.map (left limit s)).sum

theorem left_le (limit : Nat) (s : State V R) (v : V) : left limit s v ≤ limit + 2 := by
  unfold left
  split <;> omega

theorem total_le (limit : Nat) (vs : List V) (s : State V R) :
    total limit vs s ≤ (limit + 2) * vs.length := by
  induction vs with
  | nil => exact Nat.zero_le _
  | cons v vs ih =>
      have hv := left_le limit s v
      rw [List.length_cons, Nat.mul_succ]
      unfold total at ih ⊢
      rw [List.map_cons, List.sum_cons]
      omega

end State

variable {V R : Type} [DecidableEq V] [SemilatticeSup R] [OrderTop R] [DecidableEq R]

/-- Whether anything changed comes with the state. -/
def update (limit : Nat) (s : State V R) (v : V) : Option R → State V R × Bool
  | none => (s, false)
  | some next =>
      match s.known v with
      | none => ({ s with known := Function.update s.known v (some next) }, true)
      | some old =>
          if old ⊔ next = old then (s, false)
          else
            let n := s.widened v + 1
            let wide := if limit < n then ⊤ else old ⊔ next
            (⟨Function.update s.known v (some wide), Function.update s.widened v n⟩, true)

def visit (limit : Nat) (p : State V R × Bool) (site : Site V R) : State V R × Bool :=
  let r := update limit p.1 site.value (site.next p.1.known)
  (r.1, p.2 || r.2)

def sweep (limit : Nat) (sites : List (Site V R)) (s : State V R) : State V R × Bool :=
  sites.foldl (visit limit) (s, false)

/-- Sweeps until one changes nothing. -/
def settle (limit : Nat) (sites : List (Site V R)) : Nat → State V R → Option (State V R)
  | 0, _ => none
  | fuel + 1, s =>
      let r := sweep limit sites s
      if r.2 then settle limit sites fuel r.1 else some r.1

/-- A value grows no more often than the limit and once more, to the top. -/
def Counted (limit : Nat) (s : State V R) : Prop :=
  ∀ v, s.widened v ≤ limit + 1 ∧ (limit < s.widened v → s.known v = some ⊤)

/-- A site whose value would not change. -/
def Settled (s : State V R) (site : Site V R) : Prop :=
  ∀ r, site.next s.known = some r → ∃ own, s.known site.value = some own ∧ r ≤ own

section Update

variable {limit : Nat} {s : State V R} {v : V} {next : Option R}

theorem update_counted (h : Counted limit s) : Counted limit (update limit s v next).1 := by
  cases next with
  | none => exact h
  | some r =>
      simp only [update]
      cases hold : s.known v with
      | none =>
          intro w
          refine ⟨(h w).1, fun hwide => ?_⟩
          have htop := (h w).2 hwide
          have hne : w ≠ v := by
            rintro rfl
            rw [hold] at htop
            exact nomatch htop
          exact (Function.update_of_ne hne _ _).trans htop
      | some old =>
          simp only
          split
          · exact h
          · next hgrows =>
              intro w
              by_cases hw : w = v
              · subst hw
                simp only [Function.update_self]
                have hnot : ¬limit < s.widened w := by
                  intro hwide
                  have htop := (h w).2 hwide
                  rw [hold] at htop
                  rw [Option.some.inj htop, top_sup_eq] at hgrows
                  exact hgrows rfl
                refine ⟨by omega, fun hwide => ?_⟩
                rw [if_pos hwide]
              · simp only [Function.update_of_ne hw]
                exact h w

theorem update_false (h : (update limit s v next).2 = false) :
    (update limit s v next).1 = s ∧ ∀ r, next = some r → ∃ own, s.known v = some own ∧ r ≤ own := by
  cases next with
  | none => exact ⟨rfl, fun r hr => nomatch hr⟩
  | some r =>
      simp only [update] at h ⊢
      cases hold : s.known v with
      | none =>
          rw [hold] at h
          exact nomatch h
      | some old =>
          rw [hold] at h
          simp only at h ⊢
          by_cases hstays : old ⊔ r = old
          · rw [if_pos hstays]
            refine ⟨rfl, ?_⟩
            rintro _ ⟨⟩
            exact ⟨old, rfl, sup_eq_left.mp hstays⟩
          · rw [if_neg hstays] at h
            exact nomatch h

theorem left_update_other {w : V} (hw : w ≠ v) :
    left limit (update limit s v next).1 w = left limit s w := by
  cases next with
  | none => rfl
  | some r =>
      simp only [update]
      cases hold : s.known v with
      | none => simp only [left, Function.update_of_ne hw]
      | some old =>
          simp only
          split
          · rfl
          · simp only [left, Function.update_of_ne hw]

theorem left_update (hs : Counted limit s) (h : (update limit s v next).2 = true) :
    left limit (update limit s v next).1 v < left limit s v := by
  cases next with
  | none => exact nomatch h
  | some r =>
      simp only [update] at h ⊢
      cases hold : s.known v with
      | none =>
          simp only [left, Function.update_self, hold]
          omega
      | some old =>
          rw [hold] at h
          simp only at h ⊢
          by_cases hstays : old ⊔ r = old
          · rw [if_pos hstays] at h
            exact nomatch h
          · rw [if_neg hstays]
            have hnot : ¬limit < s.widened v := by
              intro hwide
              have htop := (hs v).2 hwide
              rw [hold] at htop
              rw [Option.some.inj htop, top_sup_eq] at hstays
              exact hstays rfl
            simp only [left, Function.update_self, hold]
            omega

theorem total_update (hs : Counted limit s) {vs : List V} (hv : v ∈ vs)
    (h : (update limit s v next).2 = true) :
    total limit vs (update limit s v next).1 < total limit vs s := by
  have hless := left_update hs h
  refine List.sum_lt_sum _ _ (fun w _ => ?_) ⟨v, hv, hless⟩
  by_cases hw : w = v
  · rw [hw]
    exact Nat.le_of_lt hless
  · rw [left_update_other hw]

end Update

section Sweep

variable {limit : Nat} {s : State V R} {vs : List V}

/-- What a sweep has come to after some of its sites. -/
theorem visits (sites : List (Site V R)) (hvs : ∀ site ∈ sites, site.value ∈ vs)
    (hs : Counted limit s) (changed : Bool) :
    Counted limit (sites.foldl (visit limit) (s, changed)).1 ∧
    total limit vs (sites.foldl (visit limit) (s, changed)).1 ≤ total limit vs s ∧
    ((sites.foldl (visit limit) (s, changed)).2 = true →
      changed = true ∨
        total limit vs (sites.foldl (visit limit) (s, changed)).1 < total limit vs s) ∧
    ((sites.foldl (visit limit) (s, changed)).2 = false →
      changed = false ∧ (sites.foldl (visit limit) (s, changed)).1 = s ∧
        ∀ site ∈ sites, Settled s site) := by
  induction sites generalizing s changed with
  | nil => exact ⟨hs, Nat.le_refl _, .inl, fun h => ⟨h, rfl, fun _ h => nomatch h⟩⟩
  | cons site sites ih =>
      rw [List.foldl_cons, visit]
      have hcounted : Counted limit (update limit s site.value (site.next s.known)).1 :=
        update_counted hs
      have hmem := hvs site List.mem_cons_self
      have hrest := fun site h => hvs site (List.mem_cons_of_mem _ h)
      obtain ⟨hlast, hle, htrue, hfalse⟩ := ih hrest hcounted
        (changed || (update limit s site.value (site.next s.known)).2)
      cases hupdate : (update limit s site.value (site.next s.known)).2 with
      | false =>
          obtain ⟨hsame, hsettled⟩ := update_false hupdate
          rw [hupdate, hsame, Bool.or_false] at hlast hle htrue hfalse
          simp only [hsame, Bool.or_false]
          refine ⟨hlast, hle, htrue, fun h => ?_⟩
          obtain ⟨hchanged, hstate, hsites⟩ := hfalse h
          refine ⟨hchanged, hstate, ?_⟩
          rw [List.forall_mem_cons]
          exact ⟨hsettled, hsites⟩
      | true =>
          have hless := total_update hs hmem hupdate
          rw [hupdate, Bool.or_true] at hlast hle htrue hfalse
          simp only [Bool.or_true]
          refine ⟨hlast, by omega, fun _ => .inr (by omega), fun h => ?_⟩
          exact nomatch (hfalse h).1

/-- Sweeps end, with every site within the bound of its value. -/
theorem settle_ends (sites : List (Site V R)) (hs : Counted limit s) :
    ∃ final, (∀ fuel, total limit (sites.map Site.value) s < fuel →
        settle limit sites fuel s = some final) ∧
      Counted limit final ∧ ∀ site ∈ sites, Settled final site := by
  induction hn : total limit (sites.map Site.value) s using Nat.strong_induction_on
    generalizing s with
  | _ n ih =>
      obtain ⟨hnext, -, htrue, hfalse⟩ := visits sites
        (fun site h => List.mem_map_of_mem (f := Site.value) h) hs false
      cases hsweep : (sweep limit sites s).2 with
      | true =>
          have hless := (htrue hsweep).resolve_left Bool.false_ne_true
          obtain ⟨final, hends, hcounted, hsettled⟩ := ih _ (hn ▸ hless) hnext rfl
          refine ⟨final, fun fuel hfuel => ?_, hcounted, hsettled⟩
          cases fuel with
          | zero => exact absurd hfuel (Nat.not_lt_zero _)
          | succ fuel =>
              rw [settle]
              simp only [hsweep, if_true]
              exact hends fuel (by
                have hle := hn ▸ hless
                unfold sweep at *
                omega)
      | false =>
          obtain ⟨-, hstate, hsettled⟩ := hfalse hsweep
          refine ⟨s, fun fuel hfuel => ?_, hs, hsettled⟩
          cases fuel with
          | zero => exact absurd hfuel (Nat.not_lt_zero _)
          | succ fuel =>
              rw [settle]
              simp only [hsweep, Bool.false_eq_true, if_false]
              exact congrArg some hstate

end Sweep

end Zuri.Widening
