import Zuri.Graph.Dominance
import Mathlib.Data.List.Nodup

/-!
The explicit-stack depth first search and the reverse postorder it gives.

The search keeps a stack of nodes with the position of the next successor to
look at, and puts a node in front of the finished ones when its successors are
through. What the stack and the finished nodes list together is invariant up to
insertion, and that is what the facts here are read from: the finished list
holds exactly what the root reaches, and every node of it but the first has one
of its predecessors before it.
-/

namespace Graph

variable {α : Type}

/-- One search: `seen` holds every node met, `stack` the path being explored
with its top first, `post` the finished nodes with the last one first. -/
def search [DecidableEq α] (succ : α → List α) :
    Nat → List α → List (α × Nat) → List α → Option (List α)
  | 0, _, _, _ => none
  | _ + 1, _, [], post => some post
  | fuel + 1, seen, (b, next) :: stack, post =>
      match (succ b)[next]? with
      | some s =>
          if s ∈ seen then search succ fuel seen ((b, next + 1) :: stack) post
          else search succ fuel (s :: seen) ((s, 0) :: (b, next + 1) :: stack) post
      | none => search succ fuel seen stack (b :: post)

/-- The stack from its bottom, then the finished nodes. -/
def visited (stack : List (α × Nat)) (post : List α) : List α :=
  (stack.map Prod.fst).reverse ++ post

/-- What holds of the search at every turn. -/
structure Searching (succ : α → List α) (r : α) (seen : List α)
    (stack : List (α × Nat)) (post : List α) : Prop where
  nodup : (visited stack post).Nodup
  seen_iff : ∀ v, v ∈ seen ↔ v ∈ visited stack post
  head : (visited stack post).head? = some r
  parent : ∀ v ∈ visited stack post, v ≠ r →
    ∃ p, v ∈ succ p ∧ [p, v].Sublist (visited stack post)
  reach : ∀ v ∈ visited stack post, Reach (fun u v => v ∈ succ u) r v
  closed : ∀ v ∈ post, ∀ s ∈ succ v, s ∈ visited stack post
  looked : ∀ b next, (b, next) ∈ stack → ∀ i, i < next → ∀ s,
    (succ b)[i]? = some s → s ∈ visited stack post

theorem searching_start (succ : α → List α) (r : α) :
    Searching succ r [r] [(r, 0)] [] where
  nodup := by simp [visited]
  seen_iff := by simp [visited]
  head := by simp [visited]
  parent := by
    intro v hv hne
    simp [visited] at hv
    exact absurd hv hne
  reach := by
    intro v hv
    simp [visited] at hv
    exact hv ▸ .root
  closed := by simp
  looked := by
    intro b next h i hi
    simp at h
    omega

theorem visited_push (b : α) (next : Nat) (s : α) (stack : List (α × Nat))
    (post : List α) :
    visited ((s, 0) :: (b, next) :: stack) post =
      (stack.map Prod.fst).reverse ++ [b] ++ s :: post := by
  simp [visited]

theorem visited_top (b : α) (next : Nat) (stack : List (α × Nat))
    (post : List α) :
    visited ((b, next) :: stack) post =
      (stack.map Prod.fst).reverse ++ [b] ++ post := by
  simp [visited]

theorem visited_pop (b : α) (next : Nat) (stack : List (α × Nat))
    (post : List α) :
    visited ((b, next) :: stack) post = visited stack (b :: post) := by
  simp [visited]

section Turns

variable {succ : α → List α} {r b : α} {next : Nat} {seen post : List α}
  {stack : List (α × Nat)}

/-- Looking at a successor already met only moves the position on. -/
theorem Searching.skip {s : α}
    (h : Searching succ r seen ((b, next) :: stack) post)
    (hs : (succ b)[next]? = some s) (hseen : s ∈ seen) :
    Searching succ r seen ((b, next + 1) :: stack) post := by
  have hv : visited ((b, next + 1) :: stack) post =
      visited ((b, next) :: stack) post := by simp [visited]
  refine ⟨hv ▸ h.nodup, hv ▸ h.seen_iff, hv ▸ h.head, hv ▸ h.parent,
    hv ▸ h.reach, hv ▸ h.closed, ?_⟩
  intro c n hc i hi t ht
  rw [hv]
  rcases List.mem_cons.mp hc with heq | hc
  · cases heq
    rcases Nat.lt_succ_iff_lt_or_eq.mp hi with hlt | rfl
    · exact h.looked b next (by simp) i hlt t ht
    · rw [hs] at ht
      cases ht
      exact (h.seen_iff s).mp hseen
  · exact h.looked c n (by simp [hc]) i hi t ht

/-- Meeting a new successor puts it on top of the stack, after its parent. -/
theorem Searching.push {s : α}
    (h : Searching succ r seen ((b, next) :: stack) post)
    (hs : (succ b)[next]? = some s) (hseen : s ∉ seen) :
    Searching succ r (s :: seen) ((s, 0) :: (b, next + 1) :: stack) post := by
  have hsub : ∀ v, v ∈ visited ((s, 0) :: (b, next + 1) :: stack) post ↔
      v = s ∨ v ∈ visited ((b, next) :: stack) post := by
    intro v
    rw [visited_push, visited_top]
    simp only [List.mem_append, List.mem_cons]
    tauto
  have hedge : s ∈ succ b := List.mem_of_getElem? hs
  have hnew : s ∉ visited ((b, next) :: stack) post :=
    fun hm => hseen ((h.seen_iff s).mpr hm)
  have hb : b ∈ visited ((b, next) :: stack) post := by simp [visited]
  have hins : (visited ((b, next) :: stack) post).Sublist
      (visited ((s, 0) :: (b, next + 1) :: stack) post) := by
    rw [visited_push, visited_top]
    exact (List.Sublist.refl _).append (List.sublist_cons_self s post)
  refine ⟨?_, ?_, ?_, ?_, ?_, ?_, ?_⟩
  · rw [visited_push]
    rw [visited_top] at hnew
    have hn := h.nodup
    rw [visited_top] at hn
    exact List.nodup_middle.mpr (List.nodup_cons.mpr ⟨hnew, hn⟩)
  · intro v
    rw [hsub, List.mem_cons, h.seen_iff]
  · have hh := h.head
    rw [visited_top] at hh
    rw [visited_push]
    simpa [List.head?_append] using hh
  · intro v hv hne
    rcases (hsub v).mp hv with rfl | hv
    · refine ⟨b, hedge, ?_⟩
      rw [visited_push, List.append_assoc]
      exact (List.Sublist.append (List.Sublist.refl [b])
        ((List.nil_sublist post).cons_cons v)).trans (List.sublist_append_right _ _)
    · obtain ⟨p, hp, hpv⟩ := h.parent v hv hne
      exact ⟨p, hp, hpv.trans hins⟩
  · intro v hv
    rcases (hsub v).mp hv with rfl | hv
    · exact .step (h.reach b hb) hedge
    · exact h.reach v hv
  · intro v hv t ht
    exact (hsub t).mpr (.inr (h.closed v hv t ht))
  · intro c n hc i hi t ht
    rw [hsub]
    rcases List.mem_cons.mp hc with heq | hc
    · cases heq
      omega
    · rcases List.mem_cons.mp hc with heq | hc
      · cases heq
        rcases Nat.lt_succ_iff_lt_or_eq.mp hi with hlt | rfl
        · exact .inr (h.looked b next (by simp) i hlt t ht)
        · rw [hs] at ht
          cases ht
          exact .inl rfl
      · exact .inr (h.looked c n (by simp [hc]) i hi t ht)

/-- A node whose successors are through moves from the stack to the front of
the finished ones, which leaves the whole where it was. -/
theorem Searching.finish
    (h : Searching succ r seen ((b, next) :: stack) post)
    (hs : (succ b)[next]? = none) : Searching succ r seen stack (b :: post) := by
  have hv := visited_pop b next stack post
  refine ⟨hv ▸ h.nodup, hv ▸ h.seen_iff, hv ▸ h.head, hv ▸ h.parent,
    hv ▸ h.reach, ?_, ?_⟩
  · intro v hmem s hsv
    rw [← hv]
    rcases List.mem_cons.mp hmem with rfl | hmem
    · obtain ⟨i, hi⟩ := List.mem_iff_getElem?.mp hsv
      have hlt : i < next := by
        have h1 := (List.getElem?_eq_some_iff.mp hi).1
        have h2 := List.getElem?_eq_none_iff.mp hs
        omega
      exact h.looked v next (by simp) i hlt s hi
    · exact h.closed v hmem s hsv
  · intro c n hc i hi s hs'
    rw [← hv]
    exact h.looked c n (by simp [hc]) i hi s hs'

end Turns

/-- A finished search is one with an empty stack. -/
theorem search_spec [DecidableEq α] (succ : α → List α) (r : α) (fuel : Nat) (seen : List α)
    (stack : List (α × Nat)) (post out : List α)
    (h : Searching succ r seen stack post)
    (hout : search succ fuel seen stack post = some out) :
    ∃ seen', Searching succ r seen' [] out := by
  induction fuel generalizing seen stack post with
  | zero => cases hout
  | succ fuel ih =>
      cases stack with
      | nil =>
          cases hout
          exact ⟨seen, h⟩
      | cons top stack =>
          obtain ⟨b, next⟩ := top
          simp only [search] at hout
          split at hout
          · rename_i s hs
            split at hout
            · rename_i hseen
              exact ih _ _ _ (h.skip hs hseen) hout
            · rename_i hseen
              exact ih _ _ _ (h.push hs hseen) hout
          · rename_i hs
            exact ih _ _ _ (h.finish hs) hout

/-- How many turns the nodes on the stack still take. -/
def slotsLeft (succ : α → List α) : List (α × Nat) → Nat
  | [] => 0
  | (b, next) :: stack => (succ b).length - next + 1 + slotsLeft succ stack

/-- How many turns a search can still take when `unmet` nodes are left, each
with at most `deg` successors. -/
def turnsLeft (succ : α → List α) (deg unmet : Nat) (stack : List (α × Nat)) : Nat :=
  unmet * (deg + 2) + slotsLeft succ stack

theorem search_ends [DecidableEq α] (succ : α → List α) (nodes : List α) (deg : Nat)
    (hdeg : ∀ v, (succ v).length ≤ deg) (hclosed : ∀ v, ∀ s ∈ succ v, s ∈ nodes)
    (fuel : Nat) (seen : List α) (stack : List (α × Nat)) (post : List α)
    (hfuel : turnsLeft succ deg (nodes.filter (· ∉ seen)).length stack < fuel) :
    ∃ out, search succ fuel seen stack post = some out := by
  induction fuel generalizing seen stack post with
  | zero => omega
  | succ fuel ih =>
      cases stack with
      | nil => exact ⟨post, rfl⟩
      | cons top stack =>
          obtain ⟨b, next⟩ := top
          simp only [search]
          simp only [turnsLeft, slotsLeft] at hfuel
          split
          · rename_i s hs
            have hlt := (List.getElem?_eq_some_iff.mp hs).1
            split
            · apply ih
              simp only [turnsLeft, slotsLeft]
              omega
            · rename_i hseen
              apply ih
              -- One node fewer is unmet, which pays for its own entry.
              have hmem : s ∈ nodes := hclosed b s (List.mem_of_getElem? hs)
              have hfewer : (nodes.filter (· ∉ s :: seen)).length + 1 ≤
                  (nodes.filter (· ∉ seen)).length := by
                have hsub : (nodes.filter (· ∉ s :: seen)) =
                    (nodes.filter (· ∉ seen)).filter (· ≠ s) := by
                  rw [List.filter_filter]
                  congr 1
                  funext v
                  simp [not_or]
                rw [hsub]
                have hlt' := List.length_filter_lt_length_iff_exists (p := fun v => decide (v ≠ s))
                  (l := nodes.filter (· ∉ seen))
                have := hlt'.mpr ⟨s, by simp [hmem, hseen], by simp⟩
                omega
              have hd := hdeg s
              simp only [turnsLeft, slotsLeft]
              have hmul : (nodes.filter (· ∉ s :: seen)).length * (deg + 2) + (deg + 2) ≤
                  (nodes.filter (· ∉ seen)).length * (deg + 2) := by
                calc _ = ((nodes.filter (· ∉ s :: seen)).length + 1) * (deg + 2) :=
                        (Nat.succ_mul _ _).symm
                  _ ≤ _ := Nat.mul_le_mul_right _ hfewer
              omega
          · apply ih
            simp only [turnsLeft] at hfuel ⊢
            omega

end Graph
