import Zuri.Graph.Postorder
import Zuri.Graph.ImmediateDominator
import Zuri.Jit.Ir.Syntax

/-!
The control flow graph of a function: predecessors, the order passes visit the
blocks in, and immediate dominators.

Dominance is computed under a virtual block above the entry, whose id is one
past the last real block. The results here say that the order holds exactly the
blocks control can reach and that the computed dominators are the dominators.
-/

namespace Zuri.Jit.Ir

namespace Func

variable (f : Func)

def succs (b : BlockId) : List BlockId := (f.block b).term.successors

/-- Where each edge into a block comes from, in block order. -/
def preds (b : BlockId) : List BlockId :=
  (List.range f.blocks.length).flatMap fun p =>
    ((f.succs p).filter (· = b)).map fun _ => p

/-- Blocks reachable from the entry, in reverse postorder. -/
def reversePostorder : List BlockId :=
  (Graph.search f.succs (4 * f.blocks.length + 4) [f.entry] [(f.entry, 0)] []).getD []

/-- The graph dominators are computed on. -/
def rooted (order : List BlockId) : Graph.Rooted BlockId where
  top := f.blocks.length
  order := order
  preds b := f.preds b ++ if b = f.entry then [f.blocks.length] else []

/-- Immediate dominators of the blocks in `order`, each block with its own. -/
def dominators (order : List BlockId) : List (BlockId × BlockId) :=
  (f.rooted order).idoms.getD []

end Func

def dominatesIn (idom : List (BlockId × BlockId)) (a : BlockId) : Nat → BlockId → Bool
  | 0, _ => false
  | fuel + 1, b =>
      if a = b then true
      else
        match idom.lookup b with
        | some up => if up = b then false else dominatesIn idom a fuel up
        | none => false

/-- Whether `a` dominates `b`, given what `dominators` found. -/
def dominates (idom : List (BlockId × BlockId)) (a b : BlockId) : Bool :=
  dominatesIn idom a (idom.length + 1) b

namespace Func

variable (f : Func)

/-- Every block, instruction and value named is one the function has. -/
structure InBounds : Prop where
  entry : f.entry < f.blocks.length
  succs : ∀ b, ∀ s ∈ f.succs b, s < f.blocks.length
  insts : ∀ b, ∀ i ∈ (f.block b).insts, i < f.insts.length

def Edge (u v : BlockId) : Prop := v ∈ f.succs u

/-- Control can reach a block. -/
def Reachable (b : BlockId) : Prop := Graph.Reach f.Edge f.entry b

/-- Every path to `b` goes through `a`. -/
def Dom (a b : BlockId) : Prop := Graph.Dom f.Edge f.entry a b

variable {f}

theorem block_of_le {b : BlockId} (h : f.blocks.length ≤ b) : f.block b = noBlock := by
  simp [block, h]

theorem succs_of_le {b : BlockId} (h : f.blocks.length ≤ b) : f.succs b = [] := by
  simp [succs, block_of_le h, noBlock, Terminator.successors]

theorem mem_preds {p b : BlockId} : p ∈ f.preds b ↔ f.Edge p b := by
  simp only [preds, Edge, List.mem_flatMap, List.mem_map, List.mem_filter, List.mem_range,
    decide_eq_true_eq]
  constructor
  · rintro ⟨p, _, s, ⟨hs, rfl⟩, rfl⟩
    exact hs
  · intro h
    refine ⟨p, ?_, b, ⟨h, rfl⟩, rfl⟩
    by_contra hp
    rw [succs_of_le (Nat.le_of_not_lt hp)] at h
    cases h

theorem succs_length (b : BlockId) : (f.succs b).length ≤ 2 := by
  unfold succs
  cases (f.block b).term <;> simp [Terminator.successors]

theorem Reachable.lt (hb : f.InBounds) {b : BlockId} (h : f.Reachable b) :
    b < f.blocks.length := by
  cases h with
  | root => exact hb.entry
  | step _ e => exact hb.succs _ _ e

/-- The order is what a finished search leaves. -/
theorem reversePostorder_searched (hb : f.InBounds) :
    ∃ seen, Graph.Searching f.succs f.entry seen [] f.reversePostorder := by
  have hfuel : Graph.turnsLeft f.succs 2
      ((List.range f.blocks.length).filter (· ∉ [f.entry])).length [(f.entry, 0)] <
      4 * f.blocks.length + 4 := by
    have h1 := List.length_filter_le (fun b => decide (b ∉ [f.entry]))
      (List.range f.blocks.length)
    have h2 := succs_length (f := f) f.entry
    rw [List.length_range] at h1
    simp only [Graph.turnsLeft, Graph.slotsLeft]
    omega
  obtain ⟨out, hout⟩ := Graph.search_ends f.succs (List.range f.blocks.length) 2
    succs_length (fun v s hs => List.mem_range.mpr (hb.succs v s hs)) _ _ _ [] hfuel
  have heq : f.reversePostorder = out := by simp [reversePostorder, hout]
  rw [heq]
  exact Graph.search_spec _ _ _ _ _ _ _ (Graph.searching_start f.succs f.entry) hout

theorem mem_reversePostorder (hb : f.InBounds) {b : BlockId} :
    b ∈ f.reversePostorder ↔ f.Reachable b := by
  obtain ⟨seen, hs⟩ := reversePostorder_searched hb
  have hv : Graph.visited [] f.reversePostorder = f.reversePostorder := by
    simp [Graph.visited]
  constructor
  · intro h
    exact hs.reach b (hv ▸ h)
  · intro h
    induction h with
    | root =>
        have hh := hs.head
        rw [hv] at hh
        exact List.mem_of_mem_head? hh
    | step _ e ih => exact hv ▸ hs.closed _ ih _ e

theorem nodup_reversePostorder (hb : f.InBounds) : f.reversePostorder.Nodup := by
  obtain ⟨seen, hs⟩ := reversePostorder_searched hb
  simpa [Graph.visited] using hs.nodup

theorem idxOf_lt_of_sublist {p v : BlockId} {l : List BlockId} (hn : l.Nodup)
    (h : [p, v].Sublist l) : l.idxOf p < l.idxOf v := by
  induction l with
  | nil => cases h
  | cons x l ih =>
      have hnl := (List.nodup_cons.mp hn)
      cases h with
      | cons _ h =>
          have hp : p ∈ l := h.subset (by simp)
          have hv : v ∈ l := h.subset (by simp)
          have hpx : x ≠ p := fun he => hnl.1 (he ▸ hp)
          have hvx : x ≠ v := fun he => hnl.1 (he ▸ hv)
          rw [List.idxOf_cons_ne _ hpx, List.idxOf_cons_ne _ hvx]
          exact Nat.succ_lt_succ (ih hnl.2 h)
      | cons_cons _ h =>
          have hv : v ∈ l := h.subset (by simp)
          have hvx : p ≠ v := fun he => hnl.1 (he ▸ hv)
          rw [List.idxOf_cons_self, List.idxOf_cons_ne _ hvx]
          exact Nat.succ_pos _

/-- The order satisfies what the dominator iteration asks of it. -/
theorem rooted_ordered (hb : f.InBounds) : (f.rooted f.reversePostorder).Ordered where
  nodup := nodup_reversePostorder hb
  top_not_mem h := Nat.lt_irrefl _ (((mem_reversePostorder hb).mp h).lt hb)
  earlier b hmem := by
    obtain ⟨seen, hs⟩ := reversePostorder_searched hb
    have hbt : b ≠ f.blocks.length :=
      Nat.ne_of_lt (((mem_reversePostorder hb).mp hmem).lt hb)
    by_cases hbe : b = f.entry
    · refine ⟨f.blocks.length, ⟨?_, ?_, hmem⟩, ?_⟩
      · simp [rooted, hbe]
      · simp [Graph.Rooted.ranked, rooted]
      · simp [Graph.Rooted.rank, rooted, hbt]
    · have hv : Graph.visited [] f.reversePostorder = f.reversePostorder := by
        simp [Graph.visited]
      obtain ⟨p, hp, hsub⟩ := hs.parent b (hv ▸ hmem) hbe
      rw [hv] at hsub
      have hpm : p ∈ f.reversePostorder := hsub.subset (by simp)
      have hpt : p ≠ f.blocks.length :=
        Nat.ne_of_lt (((mem_reversePostorder hb).mp hpm).lt hb)
      refine ⟨p, ⟨?_, Graph.Rooted.ranked_of_mem hpm, hmem⟩, ?_⟩
      · exact List.mem_append_left _ (mem_preds.mpr hp)
      · have := idxOf_lt_of_sublist (nodup_reversePostorder hb) hsub
        simp only [Graph.Rooted.rank, rooted, hpt, hbt, if_false]
        omega

/-- The virtual block above the entry changes nothing about dominance. -/
theorem rooted_dom_iff (hb : f.InBounds) {a b : BlockId} (ha : a ≠ f.blocks.length)
    (hbn : b ≠ f.blocks.length) :
    Graph.Dom (f.rooted f.reversePostorder).edge f.blocks.length a b ↔ f.Dom a b := by
  have hto : ∀ x, Graph.Avoid (f.rooted f.reversePostorder).edge f.blocks.length a x →
      x = f.blocks.length ∨ Graph.Avoid f.Edge f.entry a x := by
    intro x hx
    induction hx with
    | root _ => exact .inl rfl
    | step _ e hne ih =>
        right
        rcases List.mem_append.mp e.1 with he | he
        · have hedge := mem_preds.mp he
          rcases ih with rfl | hu
          · rw [Edge, succs_of_le (Nat.le_refl _)] at hedge
            cases hedge
          · exact .step hu hedge hne
        · split at he
          · rename_i hv
            exact hv ▸ .root (hv ▸ hne)
          · cases he
  have hfrom : ∀ x, Graph.Avoid f.Edge f.entry a x →
      Graph.Avoid (f.rooted f.reversePostorder).edge f.blocks.length a x := by
    intro x hx
    induction hx with
    | root hne =>
        refine .step (.root (Ne.symm ha)) ⟨?_, ?_, ?_⟩ hne
        · simp [rooted]
        · simp [Graph.Rooted.ranked, rooted]
        · exact (mem_reversePostorder hb).mpr .root
    | step hu e hne ih =>
        refine .step ih ⟨List.mem_append_left _ (mem_preds.mpr e), ?_, ?_⟩ hne
        · exact Graph.Rooted.ranked_of_mem ((mem_reversePostorder hb).mpr hu.reach)
        · exact (mem_reversePostorder hb).mpr (.step hu.reach e)
  exact not_congr ⟨fun h => (hto b h).resolve_left hbn, hfrom b⟩

theorem dominators_exact (hb : f.InBounds) :
    (f.rooted f.reversePostorder).Exact (f.dominators f.reversePostorder) := by
  obtain ⟨idom, hidom, hex⟩ := Graph.Rooted.idoms_exact (rooted_ordered hb)
  have : f.dominators f.reversePostorder = idom := by simp [dominators, hidom]
  rw [this]
  exact hex

end Func

open Graph.Rooted in
/-- Walking up candidates finds exactly the candidates of candidates. -/
theorem dominatesIn_iff {g : Graph.Rooted BlockId} {idom : List (BlockId × BlockId)}
    (h : g.Tree idom) (a : BlockId) (fuel : Nat) (b : BlockId)
    (hfuel : g.rank b < fuel) :
    dominatesIn idom a fuel b = true ↔ Anc idom a b := by
  induction fuel generalizing b with
  | zero => omega
  | succ fuel ih =>
      simp only [dominatesIn]
      split
      · rename_i hab
        exact ⟨fun _ => hab ▸ .refl _, fun _ => rfl⟩
      · rename_i hab
        cases hl : idom.lookup b with
        | none =>
            refine ⟨Bool.noConfusion, fun hanc => ?_⟩
            cases hanc with
            | refl => exact absurd rfl hab
            | up hp _ =>
                rw [hl] at hp
                cases hp
        | some up =>
            by_cases hbt : b = g.top
            · subst hbt
              have hup := h.top
              rw [hl] at hup
              cases hup
              simp only [if_true]
              exact ⟨Bool.noConfusion, fun hanc => absurd (h.anc_top hanc) hab⟩
            · have hlow := (h.lower b up hbt hl).1
              have hne : up ≠ b := fun he => by
                rw [he] at hlow
                exact Nat.lt_irrefl _ hlow
              simp only [hne, if_false]
              rw [ih up (by omega)]
              refine ⟨fun hanc => .up hl hanc, fun hanc => ?_⟩
              cases hanc with
              | refl => exact absurd rfl hab
              | up hp hanc =>
                  rw [hl] at hp
                  cases hp
                  exact hanc

theorem mem_keys_of_lookup {α β : Type} [BEq α] [LawfulBEq α] {l : List (α × β)} {a : α}
    (h : (l.lookup a).isSome) : a ∈ l.map Prod.fst := by
  induction l with
  | nil => cases h
  | cons x l ih =>
      by_cases hx : a = x.1
      · simp [hx]
      · rw [List.lookup_cons] at h
        rw [beq_false_of_ne hx] at h
        exact List.mem_cons_of_mem _ (ih h)

namespace Func

variable {f : Func}

/-- `dominates` answers whether every path goes through. -/
theorem dominates_iff (hb : f.InBounds) {a b : BlockId} (ha : a ≠ f.blocks.length)
    (h : f.Reachable b) :
    dominates (f.dominators f.reversePostorder) a b = true ↔ f.Dom a b := by
  have hex := dominators_exact hb
  have hmem := (mem_reversePostorder hb).mpr h
  have hbt : b ≠ f.blocks.length := Nat.ne_of_lt (h.lt hb)
  have hlen : f.reversePostorder.length ≤ (f.dominators f.reversePostorder).length := by
    have hsub : f.reversePostorder ⊆ (f.dominators f.reversePostorder).map Prod.fst :=
      fun x hx => mem_keys_of_lookup (hex.all x hx)
    have := ((nodup_reversePostorder hb).subperm hsub).length_le
    simpa using this
  have hrank : (f.rooted f.reversePostorder).rank b <
      (f.dominators f.reversePostorder).length + 1 := by
    have := List.idxOf_lt_length_of_mem hmem
    simp only [Graph.Rooted.rank, rooted, hbt, if_false]
    omega
  rw [dominates, dominatesIn_iff hex.toTree a _ b hrank,
    hex.anc_iff (Graph.Rooted.ranked_of_mem hmem)]
  exact rooted_dom_iff hb ha hbt

theorem Dom.reachable_of_ne {a b : BlockId} (h : f.Dom a b) (hb : f.Reachable b) :
    f.Reachable a := by
  rcases hb.first a with hav | rfl | ⟨p, hav, e⟩
  · exact absurd hav h
  · exact .root
  · exact .step hav.reach e

/-- What an immediate dominator is: it dominates, and every other dominator
dominates it. The virtual block stands above the blocks without one. -/
theorem idom_spec (hb : f.InBounds) {b c : BlockId} (hc : f.Reachable c)
    (hl : (f.dominators f.reversePostorder).lookup c = some b) :
    (∀ a, a ≠ c → f.Dom a c → b ≠ f.blocks.length ∧ f.Dom a b) ∧
      (b ≠ f.blocks.length → b ≠ c ∧ f.Dom b c) := by
  have hex := dominators_exact hb
  have hct : c ≠ f.blocks.length := Nat.ne_of_lt (hc.lt hb)
  have hlow := (hex.lower c b hct hl).1
  have hne : b ≠ c := fun he => by
    rw [he] at hlow
    exact Nat.lt_irrefl _ hlow
  refine ⟨fun a hac hdom => ?_, fun hbt => ⟨hne, ?_⟩⟩
  · have hat : a ≠ f.blocks.length :=
      Nat.ne_of_lt ((hdom.reachable_of_ne hc).lt hb)
    have habove := hex.above c b a hct hl ((rooted_dom_iff hb hat hct).mpr hdom) hac
    by_cases hbt : b = f.blocks.length
    · rw [hbt] at habove
      exact absurd (Graph.Dom.eq_root habove) hat
    · exact ⟨hbt, (rooted_dom_iff hb hat hbt).mp habove⟩
  · exact (rooted_dom_iff hb hbt hct).mp (hex.dom c b hct hl)

end Func

end Zuri.Jit.Ir
