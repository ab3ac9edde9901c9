import Zuri.Graph.Dominance
import Mathlib.Data.Fintype.Card
import Mathlib.Data.List.Nodup
import Mathlib.Order.Monotone.Basic

/-!
Immediate dominators by iteration over an ordering of the nodes.

Every node keeps a candidate, recomputed from its predecessors' candidates in
order until a whole pass changes nothing. Three facts carry the argument. What
dominates a node dominates its candidate, at every moment, so no dominator is
ever skipped. A pass that changes nothing is a certificate that candidates do
dominate. And a path that shows a candidate wrong loses one retreating edge
with every pass, so there are no more passes than nodes.
-/

namespace Graph

/-- A graph to be numbered: the node above all others, the rest in the order
they are visited, and where each can be come from. -/
structure Rooted (α : Type) where
  top : α
  order : List α
  preds : α → List α

namespace Rooted

variable {α : Type} [DecidableEq α] (g : Rooted α)

/-- Position in the order, the top one first. -/
def rank (a : α) : Nat := if a = g.top then 0 else g.order.idxOf a + 1

/-- Whether the iteration visits a node at all. -/
def ranked (a : α) : Bool := a = g.top || a ∈ g.order

/-- The nearest common candidate of two nodes. -/
def intersect (idom : List (α × α)) : Nat → α → α → α
  | 0, a, _ => a
  | fuel + 1, a, b =>
      if a = b then a
      else if g.rank b < g.rank a then
        match idom.lookup a with
        | some up => intersect idom fuel up b
        | none => a
      else
        match idom.lookup b with
        | some up => intersect idom fuel a up
        | none => a

/-- The candidate a node's predecessors agree on so far. -/
def meet (idom : List (α × α)) (cur : Option α) (p : α) : Option α :=
  if g.ranked p && (idom.lookup p).isSome then
    match cur with
    | none => some p
    | some c => some (g.intersect idom (g.rank p + g.rank c + 1) p c)
  else cur

def newIdom (idom : List (α × α)) (b : α) : Option α :=
  (g.preds b).foldl (g.meet idom) none

/-- One node's turn; the flag says whether its candidate changed. -/
def visit (state : List (α × α) × Bool) (b : α) : List (α × α) × Bool :=
  match g.newIdom state.1 b with
  | some m => if state.1.lookup b = some m then state else ((b, m) :: state.1, true)
  | none => state

def pass (idom : List (α × α)) : List (α × α) × Bool :=
  g.order.foldl g.visit (idom, false)

def iterate : Nat → List (α × α) → Option (List (α × α))
  | 0, _ => none
  | fuel + 1, idom =>
      let (idom, changed) := g.pass idom
      if changed then iterate fuel idom else some idom

/-- Immediate dominators of the nodes in the order. -/
def idoms : Option (List (α × α)) :=
  g.iterate (g.order.length + 3) [(g.top, g.top)]

/-- An edge between nodes the iteration visits. -/
def edge (u v : α) : Prop := u ∈ g.preds v ∧ g.ranked u ∧ v ∈ g.order

/-- What the order has to satisfy: each node comes after one of the nodes that
lead to it. -/
structure Ordered : Prop where
  nodup : g.order.Nodup
  top_not_mem : g.top ∉ g.order
  earlier : ∀ b ∈ g.order, ∃ p, g.edge p b ∧ g.rank p < g.rank b

/-- Candidates of candidates. -/
inductive Anc (idom : List (α × α)) : α → α → Prop
  | refl (a : α) : Anc idom a a
  | up {a b p : α} : idom.lookup b = some p → Anc idom a p → Anc idom a b

theorem Anc.trans {idom : List (α × α)} {a b c : α} (hab : Anc idom a b)
    (hbc : Anc idom b c) : Anc idom a c := by
  induction hbc with
  | refl => exact hab
  | up h _ ih => exact .up h ih

theorem lookup_cons_ne {idom : List (α × α)} {b m x : α} (h : x ≠ b) :
    ((b, m) :: idom).lookup x = idom.lookup x := by
  rw [List.lookup_cons, beq_false_of_ne h]

/-- What holds of the candidates at every moment. -/
structure Tree (idom : List (α × α)) : Prop where
  top : idom.lookup g.top = some g.top
  mem : ∀ b p, idom.lookup b = some p → g.ranked b
  lower : ∀ b p, b ≠ g.top → idom.lookup b = some p →
    g.rank p < g.rank b ∧ (idom.lookup p).isSome
  above : ∀ b p d, b ≠ g.top → idom.lookup b = some p → Dom g.edge g.top d b →
    d ≠ b → Dom g.edge g.top d p

/-- A path from the top that stays clear of `a` and takes at most `k` edges
against the order. -/
inductive AvoidK (a : α) : Nat → α → Prop
  | root {k : Nat} : g.top ≠ a → AvoidK a k g.top
  | forth {k : Nat} {u v : α} : AvoidK a k u → g.edge u v →
      g.rank u < g.rank v → v ≠ a → AvoidK a k v
  | back {k : Nat} {u v : α} : AvoidK a k u → g.edge u v → v ≠ a →
      AvoidK a (k + 1) v

/-- No path with fewer than `k` retreating edges shows the candidate wrong. -/
def Level (idom : List (α × α)) (k : Nat) (b : α) : Prop :=
  b ≠ g.top → ∀ p, idom.lookup b = some p → ∀ i < k, ¬ g.AvoidK p i b

/-- Every candidate is a dominator, and every node has one. -/
structure Exact (idom : List (α × α)) : Prop extends g.Tree idom where
  all : ∀ b ∈ g.order, (idom.lookup b).isSome
  dom : ∀ b p, b ≠ g.top → idom.lookup b = some p → Dom g.edge g.top p b

variable {g}

theorem rank_top : g.rank g.top = 0 := by simp [rank]

theorem rank_inj {a b : α} (ha : g.ranked a) (h : g.rank a = g.rank b) :
    a = b := by
  simp only [ranked, Bool.or_eq_true, decide_eq_true_eq] at ha
  unfold rank at h
  split at h <;> split at h
  · simp_all
  · omega
  · omega
  · rcases ha with ha | ha
    · contradiction
    · exact (List.idxOf_inj ha).mp (by omega)

theorem ranked_of_mem {a : α} (h : a ∈ g.order) : g.ranked a := by
  simp [ranked, h]

theorem mem_of_ranked {a : α} (h : g.ranked a) (hne : a ≠ g.top) :
    a ∈ g.order := by
  simpa [ranked, hne] using h

/-- A node is reached before any node later in the order. -/
theorem avoid_of_rank_lt (ho : g.Ordered) {d x : α} (hx : g.ranked x)
    (h : g.rank x < g.rank d) : Avoid g.edge g.top d x := by
  induction hn : g.rank x using Nat.strong_induction_on generalizing x with
  | _ n ih =>
      by_cases hxt : x = g.top
      · subst hxt
        refine .root fun hd => ?_
        rw [← hd] at h
        exact Nat.lt_irrefl _ h
      · obtain ⟨p, he, hp⟩ := ho.earlier x (mem_of_ranked hx hxt)
        have hav := ih _ (hn ▸ hp) he.2.1 (by omega) rfl
        refine .step hav he fun hxd => ?_
        rw [hxd] at h
        exact Nat.lt_irrefl _ h

theorem Dom.rank_le (ho : g.Ordered) {d x : α} (hx : g.ranked x)
    (h : Dom g.edge g.top d x) : g.rank d ≤ g.rank x := by
  by_contra hlt
  exact h (avoid_of_rank_lt ho hx (Nat.lt_of_not_le hlt))

theorem reach_of_ranked (ho : g.Ordered) {x : α} (hx : g.ranked x) :
    Reach g.edge g.top x := by
  induction hn : g.rank x using Nat.strong_induction_on generalizing x with
  | _ n ih =>
      by_cases hxt : x = g.top
      · exact hxt ▸ .root
      · obtain ⟨p, he, hp⟩ := ho.earlier x (mem_of_ranked hx hxt)
        exact .step (ih _ (hn ▸ hp) he.2.1 rfl) he

section Candidates

variable {idom : List (α × α)}

theorem Tree.anc_top (h : g.Tree idom) {a : α} (ha : Anc idom a g.top) :
    a = g.top := by
  generalize ht : g.top = t at ha
  induction ha with
  | refl => rfl
  | up hp _ ih =>
      subst ht
      rw [h.top] at hp
      cases hp
      exact ih rfl

theorem Tree.anc_some (h : g.Tree idom) {a b : α} (hab : Anc idom a b)
    (hb : (idom.lookup b).isSome) : (idom.lookup a).isSome := by
  induction hab with
  | refl => exact hb
  | @up b p hp _ ih =>
      by_cases hbt : b = g.top
      · subst hbt
        rw [h.top] at hp
        cases hp
        exact ih hb
      · exact ih (h.lower b p hbt hp).2

theorem Tree.anc_rank (h : g.Tree idom) {a b : α} (hab : Anc idom a b)
    (hb : (idom.lookup b).isSome) : g.rank a ≤ g.rank b := by
  induction hab with
  | refl => exact Nat.le_refl _
  | @up b p hp _ ih =>
      by_cases hbt : b = g.top
      · subst hbt
        rw [h.top] at hp
        cases hp
        exact ih hb
      · have hl := h.lower b p hbt hp
        exact Nat.le_trans (ih hl.2) (Nat.le_of_lt hl.1)

theorem Tree.ranked_of_some (h : g.Tree idom) {a : α}
    (ha : (idom.lookup a).isSome) : g.ranked a := by
  obtain ⟨p, hp⟩ := Option.isSome_iff_exists.mp ha
  exact h.mem a p hp

/-- Every dominator of a node with a candidate is among its candidates. -/
theorem Tree.anc_of_dom (h : g.Tree idom) {d b : α}
    (hb : (idom.lookup b).isSome) (hd : Dom g.edge g.top d b) : Anc idom d b := by
  induction hn : g.rank b using Nat.strong_induction_on generalizing b with
  | _ n ih =>
      by_cases hdb : d = b
      · exact hdb ▸ .refl _
      · obtain ⟨p, hp⟩ := Option.isSome_iff_exists.mp hb
        by_cases hbt : b = g.top
        · subst hbt
          exact absurd (Dom.eq_root hd) hdb
        · have hl := h.lower b p hbt hp
          exact .up hp (ih _ (hn ▸ hl.1) hl.2 (h.above b p d hbt hp hd hdb) rfl)

/-- The meeting point is a candidate of both, and below no common dominator. -/
theorem Tree.intersect_spec (ho : g.Ordered) (h : g.Tree idom) (fuel : Nat) (a b : α)
    (ha : (idom.lookup a).isSome) (hb : (idom.lookup b).isSome)
    (hfuel : g.rank a + g.rank b < fuel) :
    Anc idom (g.intersect idom fuel a b) a ∧ Anc idom (g.intersect idom fuel a b) b ∧
      ∀ d, Dom g.edge g.top d a → Dom g.edge g.top d b →
        Dom g.edge g.top d (g.intersect idom fuel a b) := by
  induction fuel generalizing a b with
  | zero => omega
  | succ fuel ih =>
      simp only [intersect]
      have hra := h.ranked_of_some ha
      have hrb := h.ranked_of_some hb
      split
      · rename_i hab
        subst hab
        exact ⟨.refl _, .refl _, fun d hd _ => hd⟩
      · rename_i hab
        obtain ⟨ua, hua⟩ := Option.isSome_iff_exists.mp ha
        obtain ⟨ub, hub⟩ := Option.isSome_iff_exists.mp hb
        simp only [hua, hub]
        split
        · rename_i hlt
          have hat : a ≠ g.top := fun hat => by
            rw [hat, rank_top] at hlt
            omega
          have hl := h.lower a ua hat hua
          obtain ⟨h1, h2, h3⟩ := ih ua b hl.2 hb (by omega)
          refine ⟨.up hua h1, h2, fun d hda hdb => ?_⟩
          have hne : d ≠ a := fun hd => by
            subst hd
            have := Dom.rank_le ho hrb hdb
            omega
          exact h3 d (h.above a ua d hat hua hda hne) hdb
        · rename_i hge
          have hlt : g.rank a < g.rank b :=
            Nat.lt_of_le_of_ne (Nat.le_of_not_lt hge) fun heq => hab (rank_inj hra heq)
          have hbt : b ≠ g.top := fun hbt => by
            rw [hbt, rank_top] at hlt
            omega
          have hl := h.lower b ub hbt hub
          obtain ⟨h1, h2, h3⟩ := ih a ub ha hl.2 (by omega)
          refine ⟨h1, .up hub h2, fun d hda hdb => ?_⟩
          have hne : d ≠ b := fun hd => by
            subst hd
            have := Dom.rank_le ho hra hda
            omega
          exact h3 d hda (h.above b ub d hbt hub hdb hne)

/-- What a node's predecessors have agreed on after some of them. -/
def Agreed (g : Rooted α) (idom : List (α × α)) (ps : List α) : Option α → Prop
  | none => ∀ p ∈ ps, g.ranked p → idom.lookup p = none
  | some m => (idom.lookup m).isSome ∧
      (∀ p ∈ ps, g.ranked p → (idom.lookup p).isSome → Anc idom m p) ∧
      ∀ d, (∀ p ∈ ps, g.ranked p → (idom.lookup p).isSome → Dom g.edge g.top d p) →
        Dom g.edge g.top d m

theorem Tree.meet_agreed (ho : g.Ordered) (h : g.Tree idom) {ps : List α} {cur : Option α}
    (hcur : Agreed g idom ps cur) (p : α) :
    Agreed g idom (ps ++ [p]) (g.meet idom cur p) := by
  unfold meet
  split
  · rename_i hp
    obtain ⟨hpr, hps⟩ := Bool.and_eq_true_iff.mp hp
    cases cur with
    | none =>
        refine ⟨hps, fun q hq hqr hqs => ?_, fun d hd => hd p (by simp) hpr hps⟩
        rcases List.mem_append.mp hq with hq | hq
        · rw [hcur q hq hqr] at hqs
          cases hqs
        · rw [List.mem_singleton.mp hq]
          exact .refl _
    | some c =>
        obtain ⟨hc, hanc, hdom⟩ := hcur
        obtain ⟨h1, h2, h3⟩ := h.intersect_spec ho (g.rank p + g.rank c + 1) p c hps hc
          (Nat.lt_succ_self _)
        refine ⟨h.anc_some h1 hps, fun q hq hqr hqs => ?_, fun d hd => ?_⟩
        · rcases List.mem_append.mp hq with hq | hq
          · exact h2.trans (hanc q hq hqr hqs)
          · rw [List.mem_singleton.mp hq]
            exact h1
        · refine h3 d (hd p (by simp) hpr hps) (hdom d fun q hq hqr hqs => ?_)
          exact hd q (List.mem_append_left _ hq) hqr hqs
  · rename_i hp
    have hno : g.ranked p → (idom.lookup p).isSome → False :=
      fun hr hs => hp (Bool.and_eq_true_iff.mpr ⟨hr, hs⟩)
    cases cur with
    | none =>
        intro q hq hqr
        rcases List.mem_append.mp hq with hq | hq
        · exact hcur q hq hqr
        · rw [List.mem_singleton.mp hq] at hqr ⊢
          exact Option.not_isSome_iff_eq_none.mp (hno hqr)
    | some c =>
        obtain ⟨hc, hanc, hdom⟩ := hcur
        refine ⟨hc, fun q hq hqr hqs => ?_, fun d hd => hdom d fun q hq => ?_⟩
        · rcases List.mem_append.mp hq with hq | hq
          · exact hanc q hq hqr hqs
          · rw [List.mem_singleton.mp hq] at hqr hqs
            exact absurd hqs (hno hqr)
        · exact hd q (List.mem_append_left _ hq)

theorem Tree.newIdom_agreed (ho : g.Ordered) (h : g.Tree idom) (b : α) :
    Agreed g idom (g.preds b) (g.newIdom idom b) := by
  have key : ∀ (ps done : List α) (cur : Option α), Agreed g idom done cur →
      Agreed g idom (done ++ ps) (ps.foldl (g.meet idom) cur) := by
    intro ps
    induction ps with
    | nil =>
        intro done cur hcur
        rw [List.append_nil]
        exact hcur
    | cons p ps ih =>
        intro done cur hcur
        have := ih (done ++ [p]) _ (h.meet_agreed ho hcur p)
        rwa [List.append_assoc, List.singleton_append] at this
  exact key (g.preds b) [] none (fun p hp => absurd hp List.not_mem_nil)

/-- What holds in the middle of pass `k`: `done` has been visited in it. -/
structure Settling (g : Rooted α) (idom : List (α × α)) (k : Nat) (done : List α) :
    Prop extends g.Tree idom where
  met : ∀ b ∈ done, (idom.lookup b).isSome
  met_all : k = 0 ∨ ∀ b ∈ g.order, (idom.lookup b).isSome
  level : ∀ b, g.Level idom k b
  level_done : ∀ b ∈ done, g.Level idom (k + 1) b

/-- Along candidates every level is that of the weakest node on the way. -/
theorem Tree.not_avoidK (h : g.Tree idom) {k i : Nat} {a b : α} (hab : Anc idom a b)
    (hb : (idom.lookup b).isSome)
    (hl : ∀ x, g.rank x ≤ g.rank b → (idom.lookup x).isSome → g.Level idom k x)
    (hi : i < k) : ¬ g.AvoidK a i b := by
  -- A path to `b` clear of `a` either meets the candidate of `b` or does not.
  have split : ∀ (a c : α) (i : Nat) (x : α), g.AvoidK a i x →
      g.AvoidK c i x ∨ g.AvoidK a i c := by
    intro a c i x hx
    induction hx with
    | root hne =>
        by_cases hc : g.top = c
        · exact .inr (hc ▸ .root hne)
        · exact .inl (.root hc)
    | @forth k u v hu he hr hne ih =>
        by_cases hc : v = c
        · exact .inr (hc ▸ .forth hu he hr hne)
        · exact ih.imp (fun hu => .forth hu he hr hc) id
    | @back k u v hu he hne ih =>
        by_cases hc : v = c
        · exact .inr (hc ▸ .back hu he hne)
        · refine ih.imp (fun hu => .back hu he hc) fun hac => ?_
          clear * - hac
          induction hac with
          | root hne => exact .root hne
          | forth _ he hr hne ih => exact .forth ih he hr hne
          | back _ he hne ih => exact .back ih he hne
  induction hab with
  | refl =>
      intro hav
      cases hav with
      | root hne => exact hne rfl
      | forth _ _ _ hne => exact hne rfl
      | back _ _ hne => exact hne rfl
  | @up b p hp hap ih =>
      intro hav
      by_cases hbt : b = g.top
      · subst hbt
        rw [h.top] at hp
        cases hp
        exact ih hb hl hav
      · have hlow := h.lower b p hbt hp
        rcases split a p i b hav with hpb | hap'
        · exact hl b (Nat.le_refl _) hb hbt p hp i hi hpb
        · exact ih hlow.2 (fun x hx => hl x (by omega)) hap'

theorem before_mem {done rest : List α} {b p : α} (ho : g.Ordered)
    (hsplit : g.order = done ++ b :: rest)
    (hp : g.ranked p) (hlt : g.rank p < g.rank b) :
    p = g.top ∨ p ∈ done := by
  by_cases hpt : p = g.top
  · exact .inl hpt
  · right
    have hnd := ho.nodup
    have hbt : b ≠ g.top := fun hb => by
      rw [hb, rank_top] at hlt
      omega
    have hbd : b ∉ done := by
      rw [hsplit] at hnd
      exact fun hb => (List.nodup_append.mp hnd).2.2 b hb b (by simp) rfl
    have hmem := mem_of_ranked hp hpt
    have hb_idx : g.order.idxOf b = done.length := by
      rw [hsplit, List.idxOf_append_of_notMem hbd]
      simp
    have hp_idx : g.order.idxOf p < done.length := by
      simp only [rank, hpt, hbt, if_false] at hlt
      omega
    by_contra hpd
    rw [hsplit, List.idxOf_append_of_notMem hpd] at hp_idx
    omega

theorem Settling.lookup_pred {k : Nat} {done rest : List α} {b p : α} (ho : g.Ordered)
    (h : Settling g idom k done) (hsplit : g.order = done ++ b :: rest)
    (hp : g.ranked p) (hlt : g.rank p < g.rank b) : (idom.lookup p).isSome := by
  rcases before_mem ho hsplit hp hlt with rfl | hp
  · rw [h.top]
    rfl
  · exact h.met p hp

theorem Level.of_lookup_eq {idom' : List (α × α)} {k : Nat} {x : α} (h : g.Level idom k x)
    (heq : idom'.lookup x = idom.lookup x) : g.Level idom' k x :=
  fun hx p hp => h hx p (heq ▸ hp)

section Turn

variable {k : Nat} {done rest : List α} {b m : α}

/-- What the predecessors of a node agree on is not avoided on the way to it, wherever it is
written down. -/
theorem Settling.level_agreed (ho : g.Ordered) (h : Settling g idom k done)
    (hsplit : g.order = done ++ b :: rest) (hagreed : Agreed g idom (g.preds b) (some m)) :
    ∀ i < k + 1, ¬ g.AvoidK m i b := by
  have hmem : b ∈ g.order := by simp [hsplit]
  have hbt : b ≠ g.top := fun hb => ho.top_not_mem (hb ▸ hmem)
  obtain ⟨-, hanc, -⟩ := hagreed
  intro i hi hav
  cases hav with
  | root _ => exact hbt rfl
  | forth hu he hr _ =>
      have hus := h.lookup_pred ho hsplit he.2.1 hr
      refine h.not_avoidK (hanc _ he.1 he.2.1 hus) hus (fun x hx hxs => ?_) hi hu
      rcases before_mem ho hsplit (h.ranked_of_some hxs) (by omega) with rfl | hx
      · exact fun ht => absurd rfl ht
      · exact h.level_done x hx
  | @back i u _ hu he _ =>
      have hus : (idom.lookup u).isSome := by
        rcases h.met_all with rfl | hall
        · omega
        · by_cases hut : u = g.top
          · rw [hut, h.top]
            rfl
          · exact hall u (mem_of_ranked he.2.1 hut)
      exact h.not_avoidK (hanc _ he.1 he.2.1 hus) hus (fun x _ _ => h.level x)
        (by omega) hu

/-- A node that has its candidate already. -/
theorem Settling.visit_same (h : Settling g idom k done) (hlevel : ∀ i < k + 1, ¬ g.AvoidK m i b)
    (hsame : idom.lookup b = some m) : Settling g idom k (done ++ [b]) := by
  refine ⟨h.toTree, ?_, h.met_all, h.level, ?_⟩
  · intro x hx
    rcases List.mem_append.mp hx with hx | hx
    · exact h.met x hx
    · rw [List.mem_singleton.mp hx, hsame]
      rfl
  · intro x hx
    rcases List.mem_append.mp hx with hx | hx
    · exact h.level_done x hx
    · rw [List.mem_singleton.mp hx]
      intro _ p hp
      rw [hsame] at hp
      cases hp
      exact hlevel

/-- A node that is given a new candidate. -/
theorem Settling.visit_changed (ho : g.Ordered) (h : Settling g idom k done)
    (hsplit : g.order = done ++ b :: rest) (hagreed : Agreed g idom (g.preds b) (some m)) :
    Settling g ((b, m) :: idom) k (done ++ [b]) := by
  have hmem : b ∈ g.order := by simp [hsplit]
  have hbt : b ≠ g.top := fun hb => ho.top_not_mem (hb ▸ hmem)
  obtain ⟨q, hq, hqlt⟩ := ho.earlier b hmem
  have hqs := h.lookup_pred ho hsplit hq.2.1 hqlt
  have hlevel := h.level_agreed ho hsplit hagreed
  obtain ⟨hms, hanc, hdom⟩ := hagreed
  have hrank : g.rank m < g.rank b := by
    have := h.anc_rank (hanc q hq.1 hq.2.1 hqs) hqs
    omega
  have hself : ((b, m) :: idom).lookup b = some m := by simp
  have hother : ∀ x, x ≠ b → ((b, m) :: idom).lookup x = idom.lookup x := by
    intro x hx
    exact lookup_cons_ne hx
  have hkeep : ∀ x, (idom.lookup x).isSome → (((b, m) :: idom).lookup x).isSome := by
    intro x hx
    by_cases hxb : x = b
    · rw [hxb, hself]
      rfl
    · rw [hother x hxb]
      exact hx
  refine ⟨⟨?_, ?_, ?_, ?_⟩, ?_, ?_, ?_, ?_⟩
  · rw [hother _ (Ne.symm hbt)]
    exact h.top
  · intro x p hp
    by_cases hxb : x = b
    · exact hxb ▸ ranked_of_mem hmem
    · exact h.mem x p (hother x hxb ▸ hp)
  · intro x p hx hp
    by_cases hxb : x = b
    · subst hxb
      rw [hself] at hp
      cases hp
      exact ⟨hrank, hkeep m hms⟩
    · have hl := h.lower x p hx (hother x hxb ▸ hp)
      exact ⟨hl.1, hkeep p hl.2⟩
  · intro x p d hx hp hd hdx
    by_cases hxb : x = b
    · subst hxb
      rw [hself] at hp
      cases hp
      exact hdom d fun u hu hur _ => Dom.pred hd ⟨hu, hur, hmem⟩ hdx
    · exact h.above x p d hx (hother x hxb ▸ hp) hd hdx
  · intro x hx
    rcases List.mem_append.mp hx with hx | hx
    · exact hkeep x (h.met x hx)
    · rw [List.mem_singleton.mp hx, hself]
      rfl
  · exact h.met_all.imp id fun hall x hx => hkeep x (hall x hx)
  · intro x
    by_cases hxb : x = b
    · subst hxb
      intro _ p hp i hi
      rw [hself] at hp
      cases hp
      exact hlevel i (by omega)
    · exact (h.level x).of_lookup_eq (hother x hxb)
  · intro x hx
    by_cases hxb : x = b
    · subst hxb
      intro _ p hp
      rw [hself] at hp
      cases hp
      exact hlevel
    · refine (h.level_done x ?_).of_lookup_eq (hother x hxb)
      rcases List.mem_append.mp hx with hx | hx
      · exact hx
      · exact absurd (List.mem_singleton.mp hx) hxb

end Turn

/-- One node's turn keeps the invariant and adds the node to the visited. -/
theorem Settling.visit {k : Nat} {done rest : List α} {b : α} {changed : Bool}
    (ho : g.Ordered) (h : Settling g idom k done) (hsplit : g.order = done ++ b :: rest) :
    Settling g (g.visit (idom, changed) b).1 k (done ++ [b]) := by
  have hagreed := h.newIdom_agreed ho b
  simp only [Rooted.visit]
  split
  · rename_i m hm
    rw [hm] at hagreed
    split
    · rename_i hsame
      exact h.visit_same (h.level_agreed ho hsplit hagreed) hsame
    · exact h.visit_changed ho hsplit hagreed
  · rename_i hnone
    rw [hnone] at hagreed
    obtain ⟨q, hq, hqlt⟩ := ho.earlier b (by simp [hsplit])
    have hqs := h.lookup_pred ho hsplit hq.2.1 hqlt
    rw [hagreed q hq.1 hq.2.1] at hqs
    cases hqs

theorem Settling.pass {k : Nat} (ho : g.Ordered) (h : Settling g idom k []) :
    Settling g (g.pass idom).1 (k + 1) [] := by
  have key : ∀ (rest done : List α) (state : List (α × α) × Bool),
      g.order = done ++ rest → Settling g state.1 k done →
      Settling g (rest.foldl g.visit state).1 k g.order := by
    intro rest
    induction rest with
    | nil =>
        intro done state hsplit hs
        rw [List.append_nil] at hsplit
        exact hsplit ▸ hs
    | cons b rest ih =>
        intro done state hsplit hs
        refine ih (done ++ [b]) _ ?_ (hs.visit ho hsplit)
        rw [hsplit, List.append_assoc, List.singleton_append]
  have hall := key g.order [] (idom, false) rfl h
  refine ⟨hall.toTree, fun b hb => absurd hb List.not_mem_nil, .inr hall.met, ?_,
    fun b hb => absurd hb List.not_mem_nil⟩
  intro b hbt p hp
  exact hall.level_done b (mem_of_ranked (hall.mem b p hp) hbt) hbt p hp

theorem visit_flag (state : List (α × α) × Bool) (b : α)
    (h : (g.visit state b).2 = false) :
    state.2 = false ∧ g.visit state b = state ∧
      ∀ m, g.newIdom state.1 b = some m → state.1.lookup b = some m := by
  unfold Rooted.visit at h ⊢
  split at h
  · rename_i m hm
    split at h
    · rename_i hsame
      refine ⟨h, ?_, fun m' hm' => ?_⟩
      · simp only [hsame, if_true]
      · rw [hm] at hm'
        cases hm'
        exact hsame
    · cases h
  · rename_i hm
    refine ⟨h, rfl, fun m' hm' => ?_⟩
    rw [hm] at hm'
    cases hm'

/-- A pass that reports no change has left everything as it was. -/
theorem pass_unchanged (h : (g.pass idom).2 = false) :
    (g.pass idom).1 = idom ∧
      ∀ b ∈ g.order, ∀ m, g.newIdom idom b = some m → idom.lookup b = some m := by
  have key : ∀ (rest : List α) (state : List (α × α) × Bool),
      (rest.foldl g.visit state).2 = false →
      rest.foldl g.visit state = state ∧
        ∀ b ∈ rest, ∀ m, g.newIdom state.1 b = some m → state.1.lookup b = some m := by
    intro rest
    induction rest with
    | nil => exact fun state _ => ⟨rfl, fun b hb => absurd hb List.not_mem_nil⟩
    | cons b rest ih =>
        intro state hflag
        obtain ⟨hfix, hrest⟩ := ih (g.visit state b) hflag
        have hstep : (g.visit state b).2 = false := by
          rw [List.foldl_cons, hfix] at hflag
          exact hflag
        obtain ⟨_, hsame, hb⟩ := visit_flag state b hstep
        rw [hsame] at hfix hrest
        refine ⟨by rw [List.foldl_cons, hsame, hfix], fun c hc m hm => ?_⟩
        rcases List.mem_cons.mp hc with rfl | hc
        · exact hb m hm
        · exact hrest c hc m hm
  obtain ⟨h1, h2⟩ := key g.order (idom, false) h
  exact ⟨congrArg Prod.fst h1, h2⟩

/-- When a pass changes nothing, candidates are dominators. -/
theorem Settling.exact_of_unchanged {k : Nat} (ho : g.Ordered)
    (h : Settling g idom (k + 1) []) (hfix : (g.pass idom).2 = false) :
    g.Exact idom := by
  have hall : ∀ b ∈ g.order, (idom.lookup b).isSome := h.met_all.resolve_left (by omega)
  have hsome : ∀ u, g.ranked u → (idom.lookup u).isSome := by
    intro u hu
    by_cases hut : u = g.top
    · rw [hut, h.top]
      rfl
    · exact hall u (mem_of_ranked hu hut)
  have hpred : ∀ b p u, b ≠ g.top → idom.lookup b = some p → g.edge u b → Anc idom p u := by
    intro b p u hbt hp hu
    have hag := h.newIdom_agreed ho b
    cases hm : g.newIdom idom b with
    | none =>
        rw [hm] at hag
        have := hsome u hu.2.1
        rw [hag u hu.1 hu.2.1] at this
        cases this
    | some m =>
        rw [hm] at hag
        have := (pass_unchanged hfix).2 b hu.2.2 m hm
        rw [hp] at this
        cases this
        exact hag.2.1 u hu.1 hu.2.1 (hsome u hu.2.1)
  refine ⟨h.toTree, hall, fun b p hbt hp hav => ?_⟩
  -- No node on a path clear of `p` has `p` among its candidates.
  have hno : ∀ x, Avoid g.edge g.top p x → ¬ Anc idom p x := by
    intro x hx
    induction hx with
    | root hne => exact fun ha => hne (Eq.symm (h.anc_top ha))
    | @step u v hu he hne ih =>
        intro ha
        have hvt : v ≠ g.top := fun hv => ho.top_not_mem (hv ▸ he.2.2)
        cases ha with
        | refl => exact hne rfl
        | up hq ha => exact ih (ha.trans (hpred v _ u hvt hq he))
  exact hno b hav (.up hp (.refl _))

/-- Once candidates are dominators, a pass changes nothing. -/
theorem Exact.unchanged (ho : g.Ordered) (h : g.Exact idom) :
    g.pass idom = (idom, false) := by
  have hanc : ∀ a b, Anc idom a b → Dom g.edge g.top a b := by
    intro a b hab
    induction hab with
    | refl => exact Dom.refl _
    | @up b p hp _ ih =>
        by_cases hbt : b = g.top
        · subst hbt
          rw [h.top] at hp
          cases hp
          exact ih
        · exact Dom.trans ih (h.dom b p hbt hp)
  have hsame : ∀ b ∈ g.order, ∀ m, g.newIdom idom b = some m → idom.lookup b = some m := by
    intro b hb m hm
    have hbt : b ≠ g.top := fun ht => ho.top_not_mem (ht ▸ hb)
    obtain ⟨q, hq⟩ := Option.isSome_iff_exists.mp (h.all b hb)
    have hag := h.newIdom_agreed ho b
    rw [hm] at hag
    obtain ⟨hms, hpred, hdom⟩ := hag
    have hsome : ∀ u, g.ranked u → (idom.lookup u).isSome := by
      intro u hu
      by_cases hut : u = g.top
      · rw [hut, h.top]
        rfl
      · exact h.all u (mem_of_ranked hu hut)
    have hqb := h.dom b q hbt hq
    have hlow := h.lower b q hbt hq
    have hqm : Dom g.edge g.top q m := hdom q fun u hu hur _ =>
      Dom.pred hqb ⟨hu, hur, hb⟩ fun hqe => by
        rw [hqe] at hlow
        exact Nat.lt_irrefl _ hlow.1
    obtain ⟨p, hp, hplt⟩ := ho.earlier b hb
    have hmb : Dom g.edge g.top m b := Dom.of_preds hbt fun u hu _ =>
      hanc m u (hpred u hu.1 hu.2.1 (hsome u hu.2.1))
    have hmne : m ≠ b := fun he => by
      have := h.anc_rank (hpred p hp.1 hp.2.1 (hsome p hp.2.1)) (hsome p hp.2.1)
      rw [he] at this
      omega
    have hmq := h.above b q m hbt hq hmb hmne
    have := Dom.antisymm hmq hqm (reach_of_ranked ho (h.ranked_of_some hlow.2))
    rw [hq, this]
  have key : ∀ (rest : List α), (∀ b ∈ rest, b ∈ g.order) →
      rest.foldl g.visit (idom, false) = (idom, false) := by
    intro rest
    induction rest with
    | nil => exact fun _ => rfl
    | cons b rest ih =>
        intro hrest
        have hvisit : g.visit (idom, false) b = (idom, false) := by
          unfold Rooted.visit
          cases hm : g.newIdom (idom, false).1 b with
          | none => rfl
          | some m => simp only [hsame b (hrest b (by simp)) m hm, if_true]
        rw [List.foldl_cons, hvisit]
        exact ih fun c hc => hrest c (by simp [hc])
  exact key g.order fun b hb => hb

end Candidates

theorem AvoidK.mono {a x : α} {k : Nat} (h : g.AvoidK a k x) : g.AvoidK a (k + 1) x := by
  induction h with
  | root hne => exact .root hne
  | forth _ he hr hne ih => exact .forth ih he hr hne
  | back _ he hne ih => exact .back ih he hne

theorem AvoidK.mono_le {a x : α} {k l : Nat} (h : g.AvoidK a k x) (hkl : k ≤ l) :
    g.AvoidK a l x := by
  induction hkl with
  | refl => exact h
  | step _ ih => exact ih.mono

/-- A path needs no more retreating edges than there are nodes. -/
theorem Avoid.bounded {a x : α} (h : Avoid g.edge g.top a x) :
    g.AvoidK a g.order.length x := by
  classical
  let nodes := (g.top :: g.order).toFinset
  let found : Nat → Finset α := fun k => nodes.filter (g.AvoidK a k)
  have hmem : ∀ k y, g.AvoidK a k y → y ∈ nodes := by
    intro k y hy
    cases hy with
    | root _ => simp [nodes]
    | forth _ he _ _ => simp [nodes, he.2.2]
    | back _ he _ => simp [nodes, he.2.2]
  have hiff : ∀ k y, y ∈ found k ↔ g.AvoidK a k y := by
    intro k y
    simp only [found, Finset.mem_filter]
    exact ⟨fun hy => hy.2, fun hy => ⟨hmem k y hy, hy⟩⟩
  have hsub : ∀ k, found k ⊆ found (k + 1) := by
    intro k y hy
    exact (hiff _ y).mpr ((hiff k y).mp hy).mono
  have hclosed : ∀ k, found k = found (k + 1) → ∀ y, Avoid g.edge g.top a y → y ∈ found k := by
    intro k hk y hy
    induction hy with
    | root hne => exact (hiff k _).mpr (.root hne)
    | step _ he hne ih =>
        rw [hk]
        exact (hiff _ _).mpr (.back ((hiff k _).mp ih) he hne)
  have htop : g.top ∈ found 0 := by
    have hroot : g.top ≠ a := by
      clear * - h
      induction h with
      | root hne => exact hne
      | step _ _ _ ih => exact ih
    exact (hiff 0 _).mpr (.root hroot)
  -- Until it stops growing, every step finds at least one more node.
  have hgrow : ∀ k, (∃ i ≤ k, found i = found (i + 1)) ∨ k + 1 ≤ (found k).card := by
    intro k
    induction k with
    | zero => exact .inr (Finset.card_pos.mpr ⟨_, htop⟩)
    | succ k ih =>
        rcases ih with ⟨i, hi, heq⟩ | hcard
        · exact .inl ⟨i, by omega, heq⟩
        · by_cases heq : found k = found (k + 1)
          · exact .inl ⟨k, by omega, heq⟩
          · have := Finset.card_lt_card (Finset.ssubset_iff_subset_ne.mpr ⟨hsub k, heq⟩)
            exact .inr (by omega)
  have hle : (found (g.order.length + 1)).card ≤ g.order.length + 1 := by
    calc _ ≤ nodes.card := Finset.card_filter_le _ _
      _ ≤ (g.top :: g.order).length := List.toFinset_card_le _
  have hstop : ∃ i ≤ g.order.length, found i = found (i + 1) := by
    rcases hgrow (g.order.length + 1) with ⟨i, hi, heq⟩ | hcard
    · by_cases hi' : i ≤ g.order.length
      · exact ⟨i, hi', heq⟩
      · rcases hgrow g.order.length with hex | hcard
        · exact hex
        · have hi'' : i = g.order.length + 1 := by omega
          subst hi''
          by_cases heq' : found g.order.length = found (g.order.length + 1)
          · exact ⟨_, Nat.le_refl _, heq'⟩
          · have := Finset.card_lt_card
              (Finset.ssubset_iff_subset_ne.mpr ⟨hsub g.order.length, heq'⟩)
            omega
    · omega
  obtain ⟨i, hi, heq⟩ := hstop
  exact ((hiff i x).mp (hclosed i heq x h)).mono_le hi

theorem settling_start (g : Rooted α) : Settling g [(g.top, g.top)] 0 [] where
  top := by simp
  mem := by
    intro b p hp
    rw [List.lookup_cons] at hp
    split at hp
    · rename_i hb
      simp [ranked, eq_of_beq hb]
    · cases hp
  lower := by
    intro b p hbt hp
    rw [lookup_cons_ne hbt] at hp
    cases hp
  above := by
    intro b p d hbt hp
    rw [lookup_cons_ne hbt] at hp
    cases hp
  met := fun b hb => absurd hb List.not_mem_nil
  met_all := .inl rfl
  level := fun b _ p _ i hi => absurd hi (Nat.not_lt_zero i)
  level_done := fun b hb => absurd hb List.not_mem_nil

/-- The iteration ends, with every node's candidate its dominator. -/
theorem idoms_exact (ho : g.Ordered) : ∃ idom, g.idoms = some idom ∧ g.Exact idom := by
  have key : ∀ (fuel k : Nat) (idom : List (α × α)), Settling g idom k [] →
      g.order.length + 3 ≤ fuel + k → 0 < fuel →
      ∃ out, g.iterate fuel idom = some out ∧ g.Exact out := by
    intro fuel
    induction fuel with
    | zero => exact fun k idom _ _ h => absurd h (Nat.lt_irrefl 0)
    | succ fuel ih =>
        intro k idom hs hfuel _
        have hnext := hs.pass ho
        have hstep : g.iterate (fuel + 1) idom =
            if (g.pass idom).2 then g.iterate fuel (g.pass idom).1
            else some (g.pass idom).1 := rfl
        rw [hstep]
        cases hflag : (g.pass idom).2 with
        | false =>
            refine ⟨(g.pass idom).1, rfl, ?_⟩
            have hsame := (pass_unchanged hflag).1
            rw [hsame] at hnext ⊢
            exact hnext.exact_of_unchanged ho hflag
        | true =>
            rw [if_pos rfl]
            by_cases hk : k ≤ g.order.length + 1
            · exact ih (k + 1) _ hnext (by omega) (by omega)
            · -- No path is left that could show a candidate wrong.
              have hall := hs.met_all.resolve_left (by omega)
              have hex : g.Exact idom := ⟨hs.toTree, hall, fun b p hbt hp hav =>
                hs.level b hbt p hp g.order.length (by omega) (Avoid.bounded hav)⟩
              rw [hex.unchanged ho] at hflag
              cases hflag
  exact key _ 0 _ (settling_start g) (by omega) (by omega)

/-- Candidates of candidates are exactly the dominators. -/
theorem Exact.anc_iff {idom : List (α × α)} (h : g.Exact idom) {a b : α}
    (hb : g.ranked b) : Anc idom a b ↔ Dom g.edge g.top a b := by
  have hsome : (idom.lookup b).isSome := by
    by_cases hbt : b = g.top
    · rw [hbt, h.top]
      rfl
    · exact h.all b (mem_of_ranked hb hbt)
  refine ⟨fun hab => ?_, h.anc_of_dom hsome⟩
  clear hsome
  induction hab with
  | refl => exact Dom.refl _
  | @up b p hp _ ih =>
      by_cases hbt : b = g.top
      · subst hbt
        rw [h.top] at hp
        cases hp
        exact ih hb
      · have hps := h.ranked_of_some (h.lower b p hbt hp).2
        exact Dom.trans (ih hps) (h.dom b p hbt hp)

end Rooted

end Graph
