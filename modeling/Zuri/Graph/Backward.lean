import Mathlib.Algebra.BigOperators.Group.Finset.Basic
import Mathlib.Algebra.Order.BigOperators.Group.Finset
import Mathlib.Data.Finset.Max

/-!
Backward data flow over a finite graph by a worklist. Each node has a set, which is what the
node's own transfer makes of the union of its successors' sets. A round takes one node off the
list and works its set out again; when the set changes, the node's predecessors go back on the
list. The rounds end, and then every node's equation holds.
-/

namespace Backward

variable {α : Type} [DecidableEq α]

/-- Nodes are the numbers below `size`; edges out of the graph are not followed. -/
structure Flow (α : Type) [DecidableEq α] where
  size : Nat
  succ : Nat → List Nat
  transfer : Nat → Finset α → Finset α
  all : Finset α
  transfer_mono : ∀ n {s t : Finset α}, s ⊆ t → transfer n s ⊆ transfer n t
  transfer_all : ∀ n {s : Finset α}, s ⊆ all → transfer n s ⊆ all

structure Round (α : Type) where
  sets : Nat → Finset α
  work : Finset Nat

namespace Flow

variable (g : Flow α)

def preds (n : Nat) : Finset Nat :=
  (Finset.range g.size).filter (n ∈ g.succ ·)

def out (sets : Nat → Finset α) (n : Nat) : Finset α :=
  ((g.succ n).toFinset.filter (· < g.size)).biUnion sets

def start : Round α := ⟨fun _ => ∅, Finset.range g.size⟩

/-- The sets after that of `n` has been worked out again. -/
def worked (sets : Nat → Finset α) (n : Nat) : Nat → Finset α :=
  Function.update sets n (g.transfer n (g.out sets n))

/-- One round, on the node `n`. -/
def visit (r : Round α) (n : Nat) : Round α :=
  if g.transfer n (g.out r.sets n) = r.sets n then ⟨r.sets, r.work.erase n⟩
  else ⟨g.worked r.sets n, r.work.erase n ∪ g.preds n⟩

/-- Rounds until the list is empty, the last node of the list first. -/
def solve : Nat → Round α → Option (Nat → Finset α)
  | 0, _ => none
  | fuel + 1, r =>
      if h : r.work.Nonempty then solve fuel (g.visit r (r.work.max' h)) else some r.sets

variable {g}

theorem mem_out {sets : Nat → Finset α} {n : Nat} {a : α} :
    a ∈ g.out sets n ↔ ∃ m ∈ g.succ n, m < g.size ∧ a ∈ sets m := by
  simp [out, and_assoc]

theorem out_mono {s t : Nat → Finset α} (h : ∀ n, s n ⊆ t n) (n : Nat) :
    g.out s n ⊆ g.out t n := by
  intro a ha
  obtain ⟨m, hm, hlt, hs⟩ := mem_out.mp ha
  exact mem_out.mpr ⟨m, hm, hlt, h m hs⟩

theorem worked_self (sets : Nat → Finset α) (n : Nat) :
    g.worked sets n n = g.transfer n (g.out sets n) :=
  Function.update_self n _ sets

theorem worked_of_ne (sets : Nat → Finset α) {n m : Nat} (h : m ≠ n) :
    g.worked sets n m = sets m :=
  Function.update_of_ne h _ sets

/-- A set that no successor has does not count. -/
theorem out_worked {sets : Nat → Finset α} {n m : Nat} (hm : n ∉ g.succ m) :
    g.out (g.worked sets n) m = g.out sets m := by
  ext a
  simp only [mem_out]
  refine exists_congr fun k => and_congr_right fun hk => ?_
  have hne : k ≠ n := fun h => hm (h ▸ hk)
  rw [worked_of_ne sets hne]

/-- What holds between two rounds: the sets only have what they must, every node off the list
satisfies its equation, and the list has nodes of the graph. -/
structure Sound (g : Flow α) (r : Round α) : Prop where
  below : ∀ n, r.sets n ⊆ g.transfer n (g.out r.sets n)
  bounded : ∀ n, r.sets n ⊆ g.all
  settled : ∀ n < g.size, n ∉ r.work → r.sets n = g.transfer n (g.out r.sets n)
  nodes : ∀ n ∈ r.work, n < g.size

theorem sound_start : Sound g g.start where
  below := fun _ => Finset.empty_subset _
  bounded := fun _ => Finset.empty_subset _
  settled := fun n hn hwork => absurd (Finset.mem_range.mpr hn) hwork
  nodes := fun _ hn => Finset.mem_range.mp hn

theorem Sound.le_worked {r : Round α} (h : Sound g r) (n m : Nat) :
    r.sets m ⊆ g.worked r.sets n m := by
  by_cases hm : m = n
  · subst hm
    rw [worked_self]
    exact h.below m
  · rw [worked_of_ne r.sets hm]

theorem Sound.worked_below {r : Round α} (h : Sound g r) (n m : Nat) :
    g.worked r.sets n m ⊆ g.transfer m (g.out (g.worked r.sets n) m) := by
  have hgrow := g.transfer_mono m (out_mono (g := g) (h.le_worked n) m)
  by_cases hm : m = n
  · subst hm
    rw [worked_self]
    exact hgrow
  · rw [worked_of_ne r.sets hm]
    exact (h.below m).trans hgrow

theorem Sound.worked_bounded {r : Round α} (h : Sound g r) (n m : Nat) :
    g.worked r.sets n m ⊆ g.all := by
  by_cases hm : m = n
  · subst hm
    rw [worked_self]
    refine g.transfer_all m fun a ha => ?_
    obtain ⟨k, _, _, hk⟩ := mem_out.mp ha
    exact h.bounded k hk
  · rw [worked_of_ne r.sets hm]
    exact h.bounded m

theorem Sound.visit {r : Round α} {n : Nat} (h : Sound g r) (hn : n ∈ r.work) :
    Sound g (g.visit r n) := by
  by_cases hsame : g.transfer n (g.out r.sets n) = r.sets n
  · simp only [Flow.visit, if_pos hsame]
    refine ⟨h.below, h.bounded, fun m hm hwork => ?_, fun m hm =>
      h.nodes m (Finset.mem_of_mem_erase hm)⟩
    by_cases heq : m = n
    · subst heq
      exact hsame.symm
    · exact h.settled m hm fun hmem => hwork (Finset.mem_erase.mpr ⟨heq, hmem⟩)
  · simp only [Flow.visit, if_neg hsame]
    have hsettled : ∀ m < g.size, m ∉ r.work.erase n ∪ g.preds n →
        g.worked r.sets n m = g.transfer m (g.out (g.worked r.sets n) m) := by
      intro m hm hwork
      have hpred : n ∉ g.succ m := by
        intro hmem
        refine hwork (Finset.mem_union_right _ ?_)
        exact Finset.mem_filter.mpr ⟨Finset.mem_range.mpr hm, hmem⟩
      rw [out_worked hpred]
      by_cases heq : m = n
      · subst heq
        exact worked_self r.sets m
      · rw [worked_of_ne r.sets heq]
        refine h.settled m hm fun hmem => hwork (Finset.mem_union_left _ ?_)
        exact Finset.mem_erase.mpr ⟨heq, hmem⟩
    refine ⟨h.worked_below n, h.worked_bounded n, hsettled, fun m hm => ?_⟩
    cases Finset.mem_union.mp hm with
    | inl hold => exact h.nodes m (Finset.mem_of_mem_erase hold)
    | inr hpred => exact Finset.mem_range.mp (Finset.mem_filter.mp hpred).1

/-- What the sets may still grow by, a full list counted for each, and the list. -/
def left (g : Flow α) (r : Round α) : Nat :=
  (∑ n ∈ Finset.range g.size, (g.all.card - (r.sets n).card)) * (g.size + 1) + r.work.card

theorem visit_left {r : Round α} {n : Nat} (h : Sound g r) (hn : n ∈ r.work) :
    left g (g.visit r n) < left g r := by
  by_cases hsame : g.transfer n (g.out r.sets n) = r.sets n
  · simp only [visit, if_pos hsame, left]
    exact Nat.add_lt_add_left (Finset.card_erase_lt_of_mem hn) _
  · have hafter := h.visit hn
    have hwork : (g.visit r n).work.card ≤ g.size := by
      have hsub : (g.visit r n).work ⊆ Finset.range g.size :=
        fun m hm => Finset.mem_range.mpr (hafter.nodes m hm)
      simpa using Finset.card_le_card hsub
    have hless : ∑ m ∈ Finset.range g.size, (g.all.card - ((g.visit r n).sets m).card) <
        ∑ m ∈ Finset.range g.size, (g.all.card - (r.sets m).card) := by
      have hgrown : ∀ m, r.sets m ⊆ (g.visit r n).sets m := by
        intro m
        simp only [visit, if_neg hsame]
        exact h.le_worked n m
      refine Finset.sum_lt_sum (fun m _ => ?_)
        ⟨n, Finset.mem_range.mpr (h.nodes n hn), ?_⟩
      · exact Nat.sub_le_sub_left (Finset.card_le_card (hgrown m)) _
      · have hproper : r.sets n ⊂ (g.visit r n).sets n := by
          refine (hgrown n).ssubset_of_ne fun heq => hsame ?_
          simpa only [visit, if_neg hsame, worked_self] using heq.symm
        have hcard := Finset.card_lt_card hproper
        have hall := Finset.card_le_card (hafter.bounded n)
        omega
    have hstep := Nat.mul_le_mul_right (g.size + 1) (Nat.succ_le_of_lt hless)
    rw [Nat.succ_mul] at hstep
    simp only [left]
    omega

/-- With enough rounds the list runs empty, and every node's equation holds. -/
theorem solve_sound : ∀ (fuel : Nat) (r : Round α), Sound g r → left g r < fuel →
    ∃ sets, g.solve fuel r = some sets ∧
      ∀ n < g.size, sets n = g.transfer n (g.out sets n) := by
  intro fuel
  induction fuel with
  | zero => exact fun r _ hfuel => absurd hfuel (Nat.not_lt_zero _)
  | succ fuel ih =>
      intro r h hfuel
      by_cases hwork : r.work.Nonempty
      · have hmem := r.work.max'_mem hwork
        simp only [solve, dif_pos hwork]
        refine ih _ (h.visit hmem) ?_
        have hless := visit_left h hmem
        omega
      · refine ⟨r.sets, by simp only [solve, dif_neg hwork], fun n hn => h.settled n hn ?_⟩
        rw [Finset.not_nonempty_iff_eq_empty.mp hwork]
        exact Finset.notMem_empty n

/-- Rounds enough for any order of the nodes. -/
def rounds (g : Flow α) : Nat := g.size * g.all.card * (g.size + 1) + g.size + 1

theorem left_start : left g g.start < rounds g := by
  simp [left, start, rounds]

theorem solution : ∃ sets, g.solve (rounds g) g.start = some sets ∧
    ∀ n < g.size, sets n = g.transfer n (g.out sets n) :=
  solve_sound _ _ sound_start left_start

end Flow
end Backward
