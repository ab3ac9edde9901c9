import Mathlib.Logic.Relation
import Mathlib.Data.List.Nodup

/-!
Walks over a graph that may stop early. Each node has a script of what to do when it is met:
mark nodes, and visit other ones. A node that has been marked is not met again, and a walk
stops at the first node that refuses. Which nodes a walk meets, and in which order, is a
function of the graph alone.
-/

namespace Graph

variable {α : Type}

inductive Step (α : Type) where
  | mark (a : α)
  | visit (a : α)

/-- The nodes met from a list of steps on, in order, and the nodes marked in the end, or
`none` when the last node met refuses. -/
inductive Meets (script : α → List (Step α)) (refuses : α → Prop) :
    List α → List (Step α) → List α → Option (List α) → Prop
  | done (marked : List α) : Meets script refuses marked [] [] (some marked)
  | mark {marked met : List α} {a : α} {steps : List (Step α)} {last : Option (List α)} :
      Meets script refuses (a :: marked) steps met last →
        Meets script refuses marked (.mark a :: steps) met last
  | again {marked met : List α} {a : α} {steps : List (Step α)} {last : Option (List α)} :
      a ∈ marked → Meets script refuses marked steps met last →
        Meets script refuses marked (.visit a :: steps) met last
  | refuse {marked : List α} {a : α} {steps : List (Step α)} : a ∉ marked → refuses a →
      Meets script refuses marked (.visit a :: steps) [a] none
  | meet {marked met : List α} {a : α} {steps : List (Step α)} {last : Option (List α)} :
      a ∉ marked → ¬refuses a → Meets script refuses marked (script a ++ steps) met last →
        Meets script refuses marked (.visit a :: steps) (a :: met) last

/-- One node leads to another when its script visits it. -/
def Leads (script : α → List (Step α)) (root a : α) : Prop :=
  Relation.ReflTransGen (fun a b => Step.visit b ∈ script a) root a

namespace Meets

variable {script : α → List (Step α)} {refuses : α → Prop} {marked met met' : List α}
  {steps more : List (Step α)} {last last' : Option (List α)} {a : α}

theorem append {between : List α} (h : Meets script refuses marked steps met (some between))
    (k : Meets script refuses between more met' last) :
    Meets script refuses marked (steps ++ more) (met ++ met') last := by
  generalize hend : some between = fin at h
  induction h with
  | done marked =>
      cases hend
      exact k
  | mark _ ih => exact .mark (ih hend)
  | again ha _ ih => exact .again ha (ih hend)
  | refuse => cases hend
  | meet ha hr _ ih =>
      have := ih hend
      rw [List.append_assoc] at this
      exact .meet ha hr this

theorem stop (h : Meets script refuses marked steps met none) (more : List (Step α)) :
    Meets script refuses marked (steps ++ more) met none := by
  generalize hend : none = fin at h
  induction h with
  | done => cases hend
  | mark _ ih => exact .mark (ih hend)
  | again ha _ ih => exact .again ha (ih hend)
  | refuse ha hr => exact .refuse ha hr
  | meet ha hr _ ih =>
      have := ih hend
      rw [List.append_assoc] at this
      exact .meet ha hr this

theorem unique (h : Meets script refuses marked steps met last)
    (k : Meets script refuses marked steps met' last') : met = met' ∧ last = last' := by
  induction h generalizing met' last' with
  | done =>
      cases k
      exact ⟨rfl, rfl⟩
  | mark _ ih =>
      cases k with
      | mark k => exact ih k
  | again ha _ ih =>
      cases k with
      | again _ k => exact ih k
      | refuse hn => exact absurd ha hn
      | meet hn => exact absurd ha hn
  | refuse ha hr =>
      cases k with
      | again hm => exact absurd hm ha
      | refuse => exact ⟨rfl, rfl⟩
      | meet _ hn => exact absurd hr hn
  | meet ha hr _ ih =>
      cases k with
      | again hm => exact absurd hm ha
      | refuse _ hn => exact absurd hn hr
      | meet _ _ k =>
          obtain ⟨rfl, rfl⟩ := ih k
          exact ⟨rfl, rfl⟩

/-- A node marked before is not met. -/
theorem not_mem (h : Meets script refuses marked steps met last) (ha : a ∈ marked) :
    a ∉ met := by
  induction h with
  | done => exact List.not_mem_nil
  | mark _ ih => exact ih (List.mem_cons_of_mem _ ha)
  | again _ _ ih => exact ih ha
  | refuse hn =>
      intro hmem
      exact hn (List.mem_singleton.mp hmem ▸ ha)
  | meet hn _ _ ih =>
      intro hmem
      rcases List.mem_cons.mp hmem with rfl | hmem
      · exact hn ha
      · exact ih ha hmem

/-- Nodes whose script marks them first are met once. -/
theorem nodup_filter (p : α → Bool) (hmarks : ∀ a, p a = true → ∃ rest, script a = .mark a :: rest)
    (h : Meets script refuses marked steps met last) : (met.filter p).Nodup := by
  induction h with
  | done => exact List.nodup_nil
  | mark _ ih => exact ih
  | again _ _ ih => exact ih
  | refuse => exact (List.nodup_singleton _).filter _
  | @meet marked met a steps last _ _ hrest ih =>
      by_cases hp : p a = true
      · rw [List.filter_cons_of_pos hp]
        refine List.nodup_cons.mpr ⟨fun hmem => ?_, ih⟩
        obtain ⟨rest, hscript⟩ := hmarks a hp
        rw [hscript] at hrest
        cases hrest with
        | mark hrest => exact hrest.not_mem List.mem_cons_self (List.mem_filter.mp hmem).1
      · rw [List.filter_cons_of_neg hp]
        exact ih

/-- What is met is led to by what the steps visit. -/
theorem leads (h : Meets script refuses marked steps met last) {root : α}
    (hsteps : ∀ b, Step.visit b ∈ steps → Leads script root b) : ∀ b ∈ met, Leads script root b := by
  induction h with
  | done => exact nofun
  | mark _ ih => exact ih fun b hb => hsteps b (List.mem_cons_of_mem _ hb)
  | again _ _ ih => exact ih fun b hb => hsteps b (List.mem_cons_of_mem _ hb)
  | refuse =>
      intro b hb
      rw [List.mem_singleton.mp hb]
      exact hsteps _ List.mem_cons_self
  | meet _ _ _ ih =>
      have ha := hsteps _ List.mem_cons_self
      intro b hb
      rcases List.mem_cons.mp hb with rfl | hb
      · exact ha
      · refine ih (fun c hc => ?_) b hb
        rcases List.mem_append.mp hc with hc | hc
        · exact ha.tail hc
        · exact hsteps c (List.mem_cons_of_mem _ hc)

/-- A walk that does not stop meets everything the nodes it meets visit, but for what was
marked before. -/
theorem closed (hmarks : ∀ a b, Step.mark b ∈ script a → b = a) {between : List α}
    (h : Meets script refuses marked steps met (some between)) :
    (∀ b, Step.visit b ∈ steps → b ∈ marked ∨ Step.mark b ∈ steps ∨ b ∈ met) ∧
      ∀ a ∈ met, ∀ b, Step.visit b ∈ script a → b ∈ marked ∨ Step.mark b ∈ steps ∨ b ∈ met := by
  generalize hend : some between = fin at h
  induction h with
  | done => exact ⟨nofun, nofun⟩
  | @mark marked met a steps last _ ih =>
      obtain ⟨hvisit, hmet⟩ := ih hend
      have hshift : ∀ b, b ∈ a :: marked ∨ Step.mark b ∈ steps ∨ b ∈ met →
          b ∈ marked ∨ Step.mark b ∈ Step.mark a :: steps ∨ b ∈ met := by
        intro b hb
        rcases hb with hb | hb | hb
        · rcases List.mem_cons.mp hb with rfl | hb
          · exact .inr (.inl List.mem_cons_self)
          · exact .inl hb
        · exact .inr (.inl (List.mem_cons_of_mem _ hb))
        · exact .inr (.inr hb)
      refine ⟨fun b hb => hshift b (hvisit b ?_), fun c hc b hb => hshift b (hmet c hc b hb)⟩
      simpa using hb
  | @again marked met a steps last ha _ ih =>
      obtain ⟨hvisit, hmet⟩ := ih hend
      have hshift : ∀ b, b ∈ marked ∨ Step.mark b ∈ steps ∨ b ∈ met →
          b ∈ marked ∨ Step.mark b ∈ Step.visit a :: steps ∨ b ∈ met :=
        fun b => Or.imp_right (Or.imp_left (List.mem_cons_of_mem _))
      refine ⟨fun b hb => ?_, fun c hc b hb => hshift b (hmet c hc b hb)⟩
      rcases List.mem_cons.mp hb with hb | hb
      · cases hb
        exact .inl ha
      · exact hshift b (hvisit b hb)
  | refuse => cases hend
  | @meet marked met a steps last _ _ _ ih =>
      obtain ⟨hvisit, hmet⟩ := ih hend
      have hshift : ∀ b, b ∈ marked ∨ Step.mark b ∈ script a ++ steps ∨ b ∈ met →
          b ∈ marked ∨ Step.mark b ∈ Step.visit a :: steps ∨ b ∈ a :: met := by
        intro b hb
        rcases hb with hb | hb | hb
        · exact .inl hb
        · rcases List.mem_append.mp hb with hb | hb
          · exact .inr (.inr (hmarks a b hb ▸ List.mem_cons_self))
          · exact .inr (.inl (List.mem_cons_of_mem _ hb))
        · exact .inr (.inr (List.mem_cons_of_mem _ hb))
      refine ⟨fun b hb => ?_, fun c hc b hb => ?_⟩
      · rcases List.mem_cons.mp hb with hb | hb
        · cases hb
          exact .inr (.inr List.mem_cons_self)
        · exact hshift b (hvisit b (List.mem_append_right _ hb))
      · rcases List.mem_cons.mp hc with rfl | hc
        · exact hshift b (hvisit b (List.mem_append_left _ hb))
        · exact hshift b (hmet c hc b hb)

/-- A walk from a node that does not stop meets all the node leads to. -/
theorem all (hmarks : ∀ a b, Step.mark b ∈ script a → b = a) {root : α} {between : List α}
    (h : Meets script refuses [] [.visit root] met (some between)) (ha : Leads script root a) :
    a ∈ met := by
  obtain ⟨hvisit, hmet⟩ := h.closed hmarks
  have hnone : ∀ b, b ∈ [] ∨ Step.mark b ∈ [Step.visit root] ∨ b ∈ met → b ∈ met := by
    intro b hb
    rcases hb with hb | hb | hb
    · cases hb
    · simp at hb
    · exact hb
  induction ha with
  | refl => exact hnone root (hvisit root List.mem_cons_self)
  | tail _ hstep ih => exact hnone _ (hmet _ ih _ hstep)

end Meets

end Graph
