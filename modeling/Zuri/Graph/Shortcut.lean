import Mathlib.Algebra.Order.Ring.Nat
import Mathlib.Algebra.BigOperators.Group.Finset.Basic
import Mathlib.Algebra.Order.BigOperators.Group.Finset
import Zuri.Graph.Dominance

/-!
Why taking shortcuts ends.

Every node has a list of places to go, and a relation `E` says where one can
get to without stopping. Sending one of two ways on past the node it leads to
leaves less ahead of it, unless the new place leads back. Folding a node into
the only place it goes to leaves one less single way on. `potential` counts
both, so it goes down at each of these steps.
-/

namespace Graph

variable {α : Type} {E E' : α → α → Prop} {nodes : Finset α}

theorem Reach.trans {a b c : α} (h : Reach E a b) (k : Reach E b c) : Reach E a c := by
  induction k with
  | root => exact h
  | step _ he ih => exact .step ih he

/-- Some steps lead from one node to the other, at least one. -/
def Onward (E : α → α → Prop) (a b : α) : Prop := ∃ m, E a m ∧ Reach E m b

theorem Onward.reach {a b : α} (h : Onward E a b) : Reach E a b := by
  obtain ⟨m, hE, hm⟩ := h
  exact (Reach.step .root hE).trans hm

theorem Reach.lift (hE : ∀ u v, E' u v → Onward E u v) {a b : α} (h : Reach E' a b) :
    Reach E a b := by
  induction h with
  | root => exact .root
  | step _ he ih => exact ih.trans (hE _ _ he).reach

theorem Onward.lift (hE : ∀ u v, E' u v → Onward E u v) {a b : α} (h : Onward E' a b) :
    Onward E a b := by
  obtain ⟨m, ham, hmb⟩ := h
  obtain ⟨n, han, hnm⟩ := hE a m ham
  exact ⟨n, han, hnm.trans (hmb.lift hE)⟩

open Classical in
/-- How many of the nodes lie ahead of `s`, itself included. -/
noncomputable def ahead (E : α → α → Prop) (nodes : Finset α) (s : α) : Nat :=
  (nodes.filter (Reach E s)).card

theorem ahead_mono (hE : ∀ u v, E' u v → Onward E u v) (s : α) :
    ahead E' nodes s ≤ ahead E nodes s := by
  classical
  apply Finset.card_le_card
  intro v hv
  rw [Finset.mem_filter] at hv ⊢
  exact ⟨hv.1, hv.2.lift hE⟩

theorem ahead_lt {b s : α} (hb : b ∈ nodes) (hE : E b s) (hback : ¬Reach E s b) :
    ahead E nodes s < ahead E nodes b := by
  classical
  apply Finset.card_lt_card
  refine ⟨fun v hv => ?_, fun hsub => ?_⟩
  · rw [Finset.mem_filter] at hv ⊢
    exact ⟨hv.1, (Reach.step .root hE).trans hv.2⟩
  · have hmem := hsub (Finset.mem_filter.mpr ⟨hb, .root⟩)
    exact hback (Finset.mem_filter.mp hmem).2

/-- What the ways on from one node weigh. -/
def load (R : α → Nat) : List α → Nat
  | [] => 0
  | [_] => 1
  | ways => (ways.map R).sum

theorem load_mono {R R' : α → Nat} (h : ∀ a, R' a ≤ R a) (ways : List α) :
    load R' ways ≤ load R ways := by
  cases ways with
  | nil => exact Nat.le_refl 0
  | cons a ways =>
      cases ways with
      | nil => exact Nat.le_refl 1
      | cons b ways => exact List.sum_le_sum fun c _ => h c

/-- What all the ways on weigh. -/
noncomputable def potential (E : α → α → Prop) (nodes : Finset α) (ways : α → List α) : Nat :=
  ∑ u ∈ nodes, load (ahead E nodes) (ways u)

theorem potential_mono (hE : ∀ u v, E' u v → Onward E u v) (ways : α → List α) :
    potential E' nodes ways ≤ potential E nodes ways :=
  Finset.sum_le_sum fun u _ => load_mono (ahead_mono hE) (ways u)

variable [DecidableEq α]

/-- One of the two ways on from `p` is sent past `b` to where `b` leads. -/
theorem potential_redirect {ways ways' : α → List α} {p b s other : α} (hp : p ∈ nodes)
    (hb : b ∈ nodes) (hbs : E b s) (hback : ¬Reach E s b) (hE : ∀ u v, E' u v → Onward E u v)
    (hways : (ways p = [b, other] ∧ ways' p = [s, other]) ∨
      (ways p = [other, b] ∧ ways' p = [other, s]))
    (hsame : ∀ u, u ≠ p → ways' u = ways u) :
    potential E' nodes ways' < potential E nodes ways := by
  have hlt := ahead_lt hb hbs hback
  have hdown : load (ahead E nodes) (ways' p) < load (ahead E nodes) (ways p) := by
    obtain ⟨hold, hnew⟩ | ⟨hold, hnew⟩ := hways
    · rw [hold, hnew]
      simp only [load, List.map_cons, List.map_nil, List.sum_cons, List.sum_nil]
      omega
    · rw [hold, hnew]
      simp only [load, List.map_cons, List.map_nil, List.sum_cons, List.sum_nil]
      omega
  refine Nat.lt_of_le_of_lt (potential_mono hE ways') (Finset.sum_lt_sum (fun u _ => ?_)
    ⟨p, hp, hdown⟩)
  by_cases hu : u = p
  · subst hu
    exact Nat.le_of_lt hdown
  · rw [hsame u hu]

/-- `x` takes over the ways on from `y`, which is left with none. -/
theorem sum_fold {W : List α → Nat} {ways ways' : α → List α} {x y : α} (hnil : W [] = 0)
    (hx : x ∈ nodes) (hxy : y ≠ x) (hwx : ways' x = ways y) (hwy : ways' y = [])
    (hsame : ∀ u, u ≠ x → u ≠ y → ways' u = ways u) (hy : y ∉ nodes → ways y = []) :
    ∑ u ∈ nodes, W (ways' u) + W (ways x) = ∑ u ∈ nodes, W (ways u) := by
  by_cases hmem : y ∈ nodes
  · have hrest : y ∈ nodes.erase x := Finset.mem_erase.mpr ⟨hxy, hmem⟩
    have hsum : ∑ u ∈ (nodes.erase x).erase y, W (ways' u) =
        ∑ u ∈ (nodes.erase x).erase y, W (ways u) := by
      refine Finset.sum_congr rfl fun u hu => ?_
      simp only [Finset.mem_erase] at hu
      rw [hsame u hu.2.1 hu.1]
    rw [← Finset.add_sum_erase _ _ hx, ← Finset.add_sum_erase _ _ hrest,
      ← Finset.add_sum_erase nodes (fun u => W (ways u)) hx,
      ← Finset.add_sum_erase _ (fun u => W (ways u)) hrest, hsum, hwx, hwy, hnil]
    omega
  · have hsum : ∑ u ∈ nodes.erase x, W (ways' u) = ∑ u ∈ nodes.erase x, W (ways u) := by
      refine Finset.sum_congr rfl fun u hu => ?_
      obtain ⟨hux, hu⟩ := Finset.mem_erase.mp hu
      rw [hsame u hux fun he => hmem (he ▸ hu)]
    rw [← Finset.add_sum_erase _ _ hx, ← Finset.add_sum_erase nodes (fun u => W (ways u)) hx,
      hsum, hwx, hy hmem, hnil]
    omega

theorem potential_fold {ways ways' : α → List α} {x y : α} (hx : x ∈ nodes) (hxy : y ≠ x)
    (hold : ways x = [y]) (hwx : ways' x = ways y) (hwy : ways' y = [])
    (hsame : ∀ u, u ≠ x → u ≠ y → ways' u = ways u) (hy : y ∉ nodes → ways y = [])
    (hE : ∀ u v, E' u v → Onward E u v) :
    potential E' nodes ways' < potential E nodes ways := by
  have hsum := sum_fold (W := load (ahead E nodes)) rfl hx hxy hwx hwy hsame hy
  have hone : load (ahead E nodes) (ways x) = 1 := by rw [hold]; rfl
  have hle : potential E' nodes ways' ≤ potential E nodes ways' := potential_mono hE ways'
  unfold potential at hle ⊢
  omega

end Graph
