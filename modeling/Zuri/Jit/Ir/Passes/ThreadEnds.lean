import Zuri.Graph.Shortcut
import Zuri.Jit.Ir.Passes.Cut
import Zuri.Jit.Ir.Passes.ThreadMove
import Zuri.Jit.Ir.Typing

/-!
When the rounds of threading end.

A step either sends one side of a branch past a block without instructions or
folds a block into the one that jumps to it. `Bare` follows the blocks without
instructions. As long as the place an edge is sent to does not lead back that
way to the block it passes, less lies ahead of the edge than before, so such
steps cannot go on for ever.
-/

namespace Zuri.Jit.Ir

namespace Func

/-- From a block without instructions to where it can go. -/
def Bare (f : Func) (u v : BlockId) : Prop := (f.block u).insts = [] ∧ v ∈ f.succs u

/-- The same instructions in each block, and the same ways on. -/
structure Alike (f f' : Func) : Prop where
  length : f'.blocks.length = f.blocks.length
  insts : ∀ u, (f'.block u).insts = (f.block u).insts
  succs : ∀ u, f'.succs u = f.succs u

namespace Alike

variable {f f' f'' : Func}

theorem refl (f : Func) : Alike f f := ⟨rfl, fun _ => rfl, fun _ => rfl⟩

theorem trans (h : Alike f f') (k : Alike f' f'') : Alike f f'' :=
  ⟨k.length.trans h.length, fun u => (k.insts u).trans (h.insts u),
    fun u => (k.succs u).trans (h.succs u)⟩

theorem foldl {β : Type} {g : Func → β → Func} (hg : ∀ f x, Alike f (g f x)) (l : List β)
    (f : Func) : Alike f (l.foldl g f) := by
  induction l generalizing f with
  | nil => exact refl f
  | cons x l ih => exact (hg f x).trans (ih (g f x))

end Alike

variable {f : Func}

theorem setBlock_at (b : BlockId) (blk : Block) (c : BlockId) :
    (f.setBlock b blk).block c = if c = b ∧ b < f.blocks.length then blk else f.block c := by
  by_cases hlt : b < f.blocks.length
  · rw [setBlock_block b blk (.inl hlt) c]
    simp only [hlt, and_true]
  · have hsame : f.setBlock b blk = f := by
      simp only [setBlock, List.set_eq_of_length_le (Nat.le_of_not_lt hlt)]
    simp only [hlt, and_false, if_false, hsame]

theorem alike_setBlock (b : BlockId) (blk : Block) (hi : blk.insts = (f.block b).insts)
    (ht : blk.term.successors = f.succs b) : Alike f (f.setBlock b blk) := by
  refine ⟨setBlock_length b blk, fun u => ?_, fun u => ?_⟩
  · rw [setBlock_at]
    split
    · next h => rw [hi, h.1]
    · rfl
  · rw [succs, setBlock_at]
    split
    · next h => rw [ht, h.1]
    · rfl

theorem alike_replaceUses (f : Func) (old new : ValueId) : Alike f (f.replaceUses old new) := by
  unfold replaceUses
  split
  · exact .refl f
  · refine ⟨by simp [rewriteUses], fun u => ?_, fun u => ?_⟩
    · rw [rewriteUses_block]
      rfl
    · rw [succs, rewriteUses_block]
      exact Terminator.mapUses_successors _ _

end Func

namespace Thread

open Func (Alike)

variable {f f' : Func} {p x : BlockId} {side : Bool}

theorem alike_withParam (s : BlockId) (ty : Ty) (reg : Nat) (f : Func) :
    Alike f (withParam s ty reg f) := by
  have hadd : Alike f (f.addBlockParam s ty) :=
    have h := Func.alike_setBlock (f := f) s
      { f.block s with params := (f.block s).params ++ [f.values.length] } rfl rfl
    ⟨h.length, h.insts, h.succs⟩
  unfold withParam
  simp only
  split
  · exact hadd.trans (Func.alike_setBlock _ _ rfl rfl)
  · exact hadd

theorem alike_rename (f : Func) (b : BlockId) (old new : ValueId) :
    Alike f (renameInBlock f b old new) := by
  have h := Func.alike_setBlock (f := f) b ((f.block b).mapUses (swap old new)) rfl
    (Terminator.mapUses_successors _ _)
  exact ⟨h.length, h.insts, h.succs⟩

theorem alike_moveParam (s : BlockId) (ds : List BlockId) (v : ValueId) (reg : Nat) (f : Func) :
    Alike f (moveParam s ds v reg f) := by
  have hparam := alike_withParam s (f.ty v) reg f
  have hpush := Alike.foldl (fun f pred => Func.alike_setBlock (f := f) pred
    { f.block pred with term := (f.block pred).term.pushArg s v } rfl (pushArg_successors _ _ _))
    ((withParam s (f.ty v) reg f).preds s) (withParam s (f.ty v) reg f)
  exact (hparam.trans hpush).trans
    (Alike.foldl (fun f u => alike_rename f u v _) ds _)

/-- Only a block without instructions is passed, and only on to where it leads. -/
theorem plan_spec {pl : Plan} (h : plan f p side = some pl) :
    f.Bare pl.block pl.dest ∧ (f.block pl.block).term ≠ .unset ∧
      (pl.dest, pl.template) ∈ (f.block pl.block).term.edges ∧
      ∃ cond tb ta eb ea, (f.block p).term = .branch cond tb ta eb ea ∧
        pl.block = if side then tb else eb := by
  unfold plan at h
  split at h
  · next cond tb ta eb ea hterm =>
      generalize hway : (if side then (tb, ta, eb) else (eb, ea, tb)) = way at h
      obtain ⟨b, args, other⟩ := way
      have hb : b = if side then tb else eb := by
        cases side <;> exact (congrArg Prod.fst hway).symm
      simp only at h
      split at h
      · cases h
      · next hpass =>
          have hempty : (f.block b).insts = [] := Classical.not_not.mp fun hi => hpass (.inr hi)
          split at h
          · next q bt bta be bea hpassed =>
              split at h
              · split at h
                · next taken hknown =>
                    generalize hto : (if taken then (bt, bta) else (be, bea)) = dest at h
                    obtain ⟨s, template⟩ := dest
                    have hs : (s, template) ∈ (f.block b).term.edges := by
                      rw [hpassed]
                      cases taken <;> cases hto <;> simp [Terminator.edges]
                    simp only at h
                    split at h
                    · cases h
                    · split at h
                      · split at h
                        · cases h
                        · obtain rfl := Option.some.inj h
                          exact ⟨⟨hempty, Func.mem_edges_succs hs⟩, by simp [hpassed], hs,
                            cond, tb, ta, eb, ea, hterm, hb⟩
                      · cases h
                · cases h
              · cases h
          · cases h
  · cases h

theorem lt_of_term {b : BlockId} (h : (f.block b).term ≠ .unset) : b < f.blocks.length := by
  by_contra hge
  exact h (by rw [Func.block_of_le (Nat.le_of_not_lt hge)]; rfl)

/-- What threading an edge leaves: one side of one branch leads elsewhere. -/
theorem threadEdge_spec (h : threadEdge f p side = some f') :
    ∃ pl other, plan f p side = some pl ∧ p < f.blocks.length ∧
      f'.blocks.length = f.blocks.length ∧ (∀ u, (f'.block u).insts = (f.block u).insts) ∧
      (∀ u, u ≠ p → f'.succs u = f.succs u) ∧
      ((f.succs p = [pl.block, other] ∧ f'.succs p = [pl.dest, other]) ∨
        (f.succs p = [other, pl.block] ∧ f'.succs p = [other, pl.dest])) := by
  obtain ⟨pl, hplan, rfl⟩ := Option.map_eq_some_iff.mp h
  obtain ⟨-, -, -, cond, tb, ta, eb, ea, hterm, hblock⟩ := plan_spec hplan
  have hp : p < f.blocks.length := lt_of_term (by simp [hterm])
  simp only
  generalize hg : pl.moved.foldl _ f = g
  have hal : Alike f g := hg ▸ Alike.foldl (fun f j => alike_moveParam _ _ _ _ f) _ _
  generalize hr : retarget side pl.dest (pl.newArgs f) (g.block p).term = t
  have hat : ∀ u, (g.setTerm p t).block u =
      if u = p then { g.block p with term := t } else g.block u := by
    intro u
    rw [Func.setTerm, Func.setBlock_at]
    simp only [hal.length, hp, and_true]
  have hgp := hal.succs p
  refine ⟨pl, if side then eb else tb, hplan, hp,
    (Func.setBlock_length _ _).trans hal.length, fun u => ?_, fun u hu => ?_, ?_⟩
  · rw [hat]
    split
    · next hup => rw [hup]; exact hal.insts p
    · exact hal.insts u
  · rw [Func.succs, hat, if_neg hu]
    exact hal.succs u
  · have hsp : f.succs p = [tb, eb] := by rw [Func.succs, hterm]; rfl
    have hnew : (g.setTerm p t).succs p = t.successors := by rw [Func.succs, hat, if_pos rfl]
    rw [hnew, ← hr, hblock, hsp]
    rw [hsp] at hgp
    cases hgt : (g.block p).term with
    | branch c tb' ta' eb' ea' =>
        rw [Func.succs, hgt] at hgp
        simp only [Terminator.successors, List.cons.injEq, and_true] at hgp
        cases side
        · exact .inr ⟨rfl, by simp [retarget, Terminator.successors, hgp.1]⟩
        · exact .inl ⟨rfl, by simp [retarget, Terminator.successors, hgp.2]⟩
    | jump target args =>
        rw [Func.succs, hgt] at hgp
        simp [Terminator.successors] at hgp
    | ret v | deopt state | unset =>
        rw [Func.succs, hgt] at hgp
        simp [Terminator.successors] at hgp

/-- What a merge leaves: the block jumped to is part of the block that jumped. -/
theorem mergeOnce_spec (h : mergeOnce f x = some f') :
    ∃ y, y ≠ x ∧ x < f.blocks.length ∧ f.succs x = [y] ∧
      f'.blocks.length = f.blocks.length ∧
      f'.succs x = f.succs y ∧ f'.succs y = [] ∧ (∀ u, u ≠ x → u ≠ y → f'.succs u = f.succs u) ∧
      (f'.block x).insts = (f.block x).insts ++ (f.block y).insts ∧
      ∀ u, u ≠ x → u ≠ y → (f'.block u).insts = (f.block u).insts := by
  unfold mergeOnce at h
  split at h
  · next y args hterm =>
      split at h
      · cases h
      · next hskip =>
          obtain rfl := Option.some.inj h
          have hx : x < f.blocks.length := lt_of_term (by simp [hterm])
          have hyx : y ≠ x := fun he => hskip (.inl he)
          generalize hg : ((f.block y).params.zip args).foldl _ f = g
          have hal : Alike f g :=
            hg ▸ Alike.foldl (fun f (e : ValueId × ValueId) => Func.alike_replaceUses f e.1 e.2) _ _
          have hxg : x < g.blocks.length := hal.length ▸ hx
          generalize hinto : { g.block x with
            insts := (g.block x).insts ++ (g.block y).insts, term := (g.block y).term } = into
          have hblock : ∀ u, ((g.setBlock x into).setBlock y (emptied (g.block y))).block u =
              if u = y ∧ y < g.blocks.length then emptied (g.block y)
              else if u = x then into else g.block u := by
            intro u
            rw [Func.setBlock_at, Func.setBlock_length, Func.setBlock_at]
            simp only [hxg, and_true]
          refine ⟨y, hyx, hx, by rw [Func.succs, hterm]; rfl, ?_, ?_, ?_, fun u hux huy => ?_, ?_,
            fun u hux huy => ?_⟩
          · rw [Func.setBlock_length, Func.setBlock_length, hal.length]
          · rw [Func.succs, hblock, if_neg fun he => hyx he.1.symm, if_pos rfl, ← hinto]
            exact hal.succs y
          · rw [Func.succs, hblock]
            by_cases hy : y < g.blocks.length
            · rw [if_pos ⟨rfl, hy⟩]
              rfl
            · rw [if_neg fun he => hy he.2, if_neg hyx, Func.block_of_le (Nat.le_of_not_lt hy)]
              rfl
          · rw [Func.succs, hblock, if_neg fun he => huy he.1, if_neg hux]
            exact hal.succs u
          · rw [hblock, if_neg fun he => hyx he.1.symm, if_pos rfl, ← hinto]
            simp only [hal.insts]
          · rw [hblock, if_neg fun he => huy he.1, if_neg hux]
            exact hal.insts u
  · cases h

/-- An edge is not sent to where blocks without instructions lead back to the block it passes. -/
def Forward (f : Func) (p : BlockId) (side : Bool) : Prop :=
  ∀ pl, plan f p side = some pl → ¬Graph.Reach f.Bare pl.dest pl.block

/-- What lies ahead of the branches, and the jumps. -/
noncomputable def ahead (f : Func) : Nat :=
  Graph.potential f.Bare (Finset.range f.blocks.length) f.succs

theorem threadEdge_bare (h : threadEdge f p side = some f') (u v : BlockId) (huv : f'.Bare u v) :
    Graph.Onward f.Bare u v := by
  obtain ⟨pl, other, hplan, -, -, hinsts, hsucc, hways⟩ := threadEdge_spec h
  obtain ⟨hpass, -, -, -⟩ := plan_spec hplan
  obtain ⟨hempty, hv⟩ := huv
  rw [hinsts] at hempty
  by_cases hu : u = p
  · subst hu
    have hpart : v = pl.dest ∨ v ∈ f.succs u := by
      obtain ⟨hold, hnew⟩ | ⟨hold, hnew⟩ := hways
      · rw [hnew] at hv
        rw [hold]
        simp only [List.mem_cons, List.not_mem_nil, or_false] at hv ⊢
        exact hv.imp id .inr
      · rw [hnew] at hv
        rw [hold]
        simp only [List.mem_cons, List.not_mem_nil, or_false] at hv ⊢
        exact hv.symm.imp id .inl
    have hblock : pl.block ∈ f.succs u := by
      obtain ⟨hold, -⟩ | ⟨hold, -⟩ := hways <;> simp [hold]
    obtain rfl | hv := hpart
    · exact ⟨pl.block, ⟨hempty, hblock⟩, .step .root hpass⟩
    · exact ⟨v, ⟨hempty, hv⟩, .root⟩
  · rw [hsucc u hu] at hv
    exact ⟨v, ⟨hempty, hv⟩, .root⟩

theorem mergeOnce_bare (h : mergeOnce f x = some f') (u v : BlockId) (huv : f'.Bare u v) :
    Graph.Onward f.Bare u v := by
  obtain ⟨y, hyx, -, hold, -, hx, hy, hsucc, hinsts, hsame⟩ := mergeOnce_spec h
  obtain ⟨hempty, hv⟩ := huv
  by_cases hux : u = x
  · subst hux
    rw [hinsts] at hempty
    rw [hx] at hv
    obtain ⟨hu, hyi⟩ := List.append_eq_nil_iff.mp hempty
    exact ⟨y, ⟨hu, by simp [hold]⟩, .step .root ⟨hyi, hv⟩⟩
  · by_cases huy : u = y
    · subst huy
      rw [hy] at hv
      cases hv
    · rw [hsame u hux huy] at hempty
      rw [hsucc u hux huy] at hv
      exact ⟨v, ⟨hempty, hv⟩, .root⟩

theorem ahead_thread (h : threadEdge f p side = some f') (hf : Forward f p side) :
    ahead f' < ahead f := by
  obtain ⟨pl, other, hplan, hp, hlen, -, hsucc, hways⟩ := threadEdge_spec h
  obtain ⟨hpass, hterm, -⟩ := plan_spec hplan
  unfold ahead
  rw [hlen]
  exact Graph.potential_redirect (Finset.mem_range.mpr hp) (Finset.mem_range.mpr (lt_of_term hterm))
    hpass (hf pl hplan) (threadEdge_bare h) hways hsucc

theorem succs_of_not_mem {b : BlockId} (h : b ∉ Finset.range f.blocks.length) : f.succs b = [] := by
  rw [Func.succs, Func.block_of_le (Nat.le_of_not_lt fun hlt => h (Finset.mem_range.mpr hlt))]
  rfl

theorem ahead_merge (h : mergeOnce f x = some f') : ahead f' < ahead f := by
  obtain ⟨y, hyx, hx, hold, hlen, hwx, hwy, hsucc, -, -⟩ := mergeOnce_spec h
  unfold ahead
  rw [hlen]
  exact Graph.potential_fold (Finset.mem_range.mpr hx) hyx hold hwx hwy hsucc succs_of_not_mem
    (mergeOnce_bare h)

/-- How many blocks lead anywhere. -/
def leading (f : Func) : Nat :=
  ∑ b ∈ Finset.range f.blocks.length, if f.succs b = [] then 0 else 1

theorem leading_le (f : Func) : leading f ≤ f.blocks.length := by
  refine (Finset.sum_le_sum fun b _ => ?_ : _ ≤ ∑ _b ∈ Finset.range f.blocks.length, 1).trans ?_
  · split <;> omega
  · simp

theorem leading_merge (h : mergeOnce f x = some f') : leading f' + 1 = leading f := by
  obtain ⟨y, hyx, hx, hold, hlen, hwx, hwy, hsucc, -, -⟩ := mergeOnce_spec h
  have hsum := Graph.sum_fold (W := fun ways => if ways = [] then 0 else 1) (if_pos rfl)
    (Finset.mem_range.mpr hx) hyx hwx hwy hsucc succs_of_not_mem
  simp only [hold, List.cons_ne_nil, if_false] at hsum
  unfold leading
  rw [hlen]
  exact hsum

/-- How the folding after a round's edges leaves a function: as it was, or with less ahead. -/
def Folds (f : Func) (changed : Bool) (result : Func × Bool) : Prop :=
  result.1.blocks.length = f.blocks.length ∧
    (result = (f, changed) ∨ result.2 = true ∧ ahead result.1 < ahead f)

theorem Folds.trans {f g : Func} {changed again : Bool} {result : Func × Bool}
    (h : Folds f changed (g, again)) (k : Folds g again result) : Folds f changed result := by
  obtain ⟨hlen, hsame | ⟨hyes, hlt⟩⟩ := h
  · obtain ⟨rfl, rfl⟩ := Prod.mk.inj hsame
    exact k
  · refine ⟨k.1.trans hlen, .inr ?_⟩
    obtain hsame | ⟨hyes', hlt'⟩ := k.2
    · subst hsame
      exact ⟨hyes, hlt⟩
    · exact ⟨hyes', hlt'.trans hlt⟩

theorem mergeAt_folds (x : BlockId) (fuel : Nat) (f : Func) (changed : Bool)
    (hfuel : leading f < fuel) :
    ∃ result, mergeAt x fuel (f, changed) = some result ∧ Folds f changed result := by
  induction fuel generalizing f changed with
  | zero => omega
  | succ fuel ih =>
      unfold mergeAt
      cases h : mergeOnce f x with
      | none => exact ⟨(f, changed), rfl, rfl, .inl rfl⟩
      | some g =>
          have hlead := leading_merge h
          obtain ⟨result, hrun, hfold⟩ := ih g true (by omega)
          obtain ⟨-, -, -, -, hlen, -⟩ := mergeOnce_spec h
          exact ⟨result, hrun, Folds.trans ⟨hlen, .inr ⟨rfl, ahead_merge h⟩⟩ hfold⟩

theorem mergeSingleEntries_folds (f : Func) :
    ∃ result, mergeSingleEntries f = some result ∧ Folds f false result := by
  unfold mergeSingleEntries
  suffices key : ∀ (xs : List BlockId) (g : Func) (changed : Bool),
      g.blocks.length = f.blocks.length →
      ∃ result, xs.foldlM (fun state x => mergeAt x (f.blocks.length + 1) state) (g, changed) =
        some result ∧ Folds g changed result from key _ f false rfl
  intro xs
  induction xs with
  | nil => exact fun g changed _ => ⟨(g, changed), rfl, rfl, .inl rfl⟩
  | cons x xs ih =>
      intro g changed hlen
      have hlead := leading_le g
      obtain ⟨⟨g', again⟩, hrun, hfold⟩ :=
        mergeAt_folds x (f.blocks.length + 1) g changed (by omega)
      obtain ⟨result, hrest, hfold'⟩ := ih g' again (hfold.1.trans hlen)
      refine ⟨result, ?_, hfold.trans hfold'⟩
      rw [List.foldlM_cons, hrun]
      exact hrest

/-- The functions the edges of a round are tried on. -/
def tries (f : Func) : List (BlockId × Bool) → List (Func × BlockId × Bool)
  | [] => []
  | e :: es => (f, e) :: tries (tryEdge (f, false) e).1 es

def ForwardRound (f : Func) : Prop :=
  ∀ t ∈ tries f (edgesOf f), Forward t.1 t.2.1 t.2.2

/-- The functions the rounds of the loop begin with. -/
inductive Begins (f : Func) : Func → Prop
  | first : Begins f f
  | next {g g' : Func} : Begins f g → round g = some (g', true) → Begins f g'

/-- The loop stops, and then there is no edge left to thread. -/
def Ends (f : Func) : Prop :=
  ∃ fuel result, rounds fuel (f, false) = some result ∧
    ∀ p side, threadEdge result.1 p side = none

section Tries

variable {es : List (BlockId × Bool)} (changed : Bool)

/-- Edges none of which can be threaded leave the function as it is. -/
theorem tries_none (h : ∀ e ∈ es, threadEdge f e.1 e.2 = none) :
    es.foldl tryEdge (f, changed) = (f, changed) ∧ ∀ t ∈ tries f es, t.1 = f ∧ t.2 ∈ es := by
  induction es with
  | nil => exact ⟨rfl, fun t ht => by cases ht⟩
  | cons e es ih =>
      have hone : ∀ c, tryEdge (f, c) e = (f, c) := by
        intro c
        rw [tryEdge, h e List.mem_cons_self]
      obtain ⟨hrun, hall⟩ := ih fun e' he => h e' (List.mem_cons_of_mem _ he)
      refine ⟨by rw [List.foldl_cons, hone, hrun], fun t ht => ?_⟩
      rw [tries, hone] at ht
      obtain rfl | ht := List.mem_cons.mp ht
      · exact ⟨rfl, List.mem_cons_self⟩
      · exact ⟨(hall t ht).1, List.mem_cons_of_mem _ (hall t ht).2⟩

/-- Once an edge has been threaded the round has made progress. -/
theorem tries_true (es : List (BlockId × Bool)) (f : Func) :
    (es.foldl tryEdge (f, true)).2 = true := by
  induction es generalizing f with
  | nil => rfl
  | cons e es ih =>
      rw [List.foldl_cons, tryEdge]
      split
      · exact ih _
      · exact ih _

/-- A round that threads nothing has tried every edge in vain. -/
theorem tries_still (h : (es.foldl tryEdge (f, false)).2 = false) :
    ∀ e ∈ es, threadEdge f e.1 e.2 = none := by
  induction es with
  | nil => exact fun e he => by cases he
  | cons e es ih =>
      rw [List.foldl_cons, tryEdge] at h
      cases hthread : threadEdge f e.1 e.2 with
      | none =>
          simp only [hthread] at h
          intro e' he
          obtain rfl | he := List.mem_cons.mp he
          · exact hthread
          · exact ih h e' he
      | some g =>
          simp only [hthread] at h
          rw [tries_true] at h
          cases h

/-- Edges sent forward leave less ahead. -/
theorem tries_ahead (hf : ∀ t ∈ tries f es, Forward t.1 t.2.1 t.2.2) :
    ahead (es.foldl tryEdge (f, changed)).1 ≤ ahead f ∧
      ((es.foldl tryEdge (f, changed)).2 = changed ∨
        ahead (es.foldl tryEdge (f, changed)).1 < ahead f) := by
  induction es generalizing f changed with
  | nil => exact ⟨Nat.le_refl _, .inl rfl⟩
  | cons e es ih =>
      rw [List.foldl_cons]
      have hhead : Forward f e.1 e.2 := hf (f, e) List.mem_cons_self
      have htail : ∀ t ∈ tries (tryEdge (f, false) e).1 es, Forward t.1 t.2.1 t.2.2 :=
        fun t ht => hf t (List.mem_cons_of_mem _ ht)
      cases hthread : threadEdge f e.1 e.2 with
      | none =>
          simp only [tryEdge, hthread] at htail ⊢
          exact ih changed htail
      | some g =>
          simp only [tryEdge, hthread] at htail ⊢
          have hlt := ahead_thread hthread hhead
          obtain ⟨hle, -⟩ := ih true htail
          exact ⟨hle.trans hlt.le, .inr (hle.trans_lt hlt)⟩

end Tries

theorem mem_edgesOf (h : threadEdge f p side = some f') : (p, side) ∈ edgesOf f := by
  obtain ⟨-, -, -, hp, -⟩ := threadEdge_spec h
  refine List.mem_flatMap.mpr ⟨p, List.mem_range.mpr hp, ?_⟩
  cases side <;> simp

/-- A round always comes to its end. One that changes nothing has no edge to thread. -/
theorem round_spec (f : Func) : ∃ g progress, round f = some (g, progress) ∧
    (progress = false → g = f ∧ ∀ p side, threadEdge f p side = none) ∧
    (ForwardRound f → progress = true → ahead g < ahead f) := by
  generalize hr : (edgesOf f).foldl tryEdge (f, false) = r
  obtain ⟨f₁, threaded⟩ := r
  obtain ⟨⟨g, merged⟩, hmerge, hlen, hfold⟩ := mergeSingleEntries_folds f₁
  refine ⟨g, threaded || merged, ?_, fun hno => ?_, fun hf hyes => ?_⟩
  · rw [round, hr]
    simp only [hmerge, Option.bind_eq_bind, Option.bind_some]
    rfl
  · obtain ⟨rfl, rfl⟩ := Bool.or_eq_false_iff.mp hno
    have hnone : ∀ e ∈ edgesOf f, threadEdge f e.1 e.2 = none := tries_still (by rw [hr])
    have hsame := (tries_none false hnone).1
    rw [hr] at hsame
    obtain ⟨rfl, -⟩ := Prod.mk.inj hsame
    refine ⟨?_, fun p side => ?_⟩
    · obtain hsame | ⟨hyes, -⟩ := hfold
      · exact (Prod.mk.inj hsame).1
      · cases hyes
    · cases hthread : threadEdge f₁ p side with
      | none => rfl
      | some f' => exact hthread.symm.trans (hnone (p, side) (mem_edgesOf hthread))
  · obtain ⟨hle, hlt⟩ := tries_ahead false hf
    rw [hr] at hle hlt
    obtain hsame | ⟨-, hless⟩ := hfold
    · obtain ⟨rfl, rfl⟩ := Prod.mk.inj hsame
      obtain hsame | hlt := hlt
      · simp only at hsame hyes
        rw [hsame] at hyes
        cases hyes
      · exact hlt
    · exact Nat.lt_of_lt_of_le hless hle

/-- What the loop was told before changes only what it reports. -/
theorem rounds_changed (fuel : Nat) (f : Func) (a b : Bool) :
    (rounds fuel (f, a)).map Prod.fst = (rounds fuel (f, b)).map Prod.fst := by
  cases fuel with
  | zero => rfl
  | succ fuel =>
      obtain ⟨g, progress, hround, -⟩ := round_spec f
      cases progress <;> simp [rounds, hround]

/-- The function the loop stops with, when it has the fuel. -/
def settled (fuel : Nat) (f : Func) : Option Func := (rounds fuel (f, false)).map Prod.fst

theorem settled_next {g : Func} (h : round f = some (g, true)) (fuel : Nat) :
    settled (fuel + 1) f = settled fuel g := by
  rw [settled, settled, rounds_changed fuel g false true]
  simp [rounds, h]

theorem settled_still {g : Func} (h : round f = some (g, false)) (fuel : Nat) :
    settled (fuel + 1) f = some g := by
  simp [settled, rounds, h]

/-- Nothing can be threaded in the function the loop stops with. -/
theorem settled_none {fuel : Nat} {g : Func} (h : settled fuel f = some g) (p : BlockId)
    (side : Bool) : threadEdge g p side = none := by
  induction fuel generalizing f with
  | zero => cases h
  | succ fuel ih =>
      obtain ⟨f₁, progress, hround, hstill, -⟩ := round_spec f
      cases progress with
      | true => exact ih (settled_next hround fuel ▸ h)
      | false =>
          obtain rfl := Option.some.inj ((settled_still hround fuel).symm.trans h)
          obtain ⟨rfl, hnone⟩ := hstill rfl
          exact hnone p side

theorem ends_iff : Ends f ↔ ∃ fuel g, settled fuel f = some g := by
  constructor
  · rintro ⟨fuel, result, hrun, -⟩
    exact ⟨fuel, result.1, by rw [settled, hrun]; rfl⟩
  · rintro ⟨fuel, g, hg⟩
    obtain ⟨result, hrun, rfl⟩ := Option.map_eq_some_iff.mp hg
    exact ⟨fuel, result, hrun, settled_none hg⟩

theorem Begins.ends {g : Func} (h : Begins f g) (hg : Ends g) : Ends f := by
  induction h with
  | first => exact hg
  | next _ hround ih =>
      refine ih (ends_iff.mpr ?_)
      obtain ⟨fuel, r, hrun⟩ := ends_iff.mp hg
      exact ⟨fuel + 1, r, (settled_next hround fuel).trans hrun⟩

theorem Begins.head {g h : Func} (hround : round f = some (g, true)) (hbegins : Begins g h) :
    Begins f h := by
  induction hbegins with
  | first => exact .next .first hround
  | next _ hnext ih => exact .next ih hnext

/-- Rounds that send every edge forward come to an end. -/
theorem ends_of_forward (n : Nat) (f : Func) (hn : ahead f ≤ n)
    (hf : ∀ g, Begins f g → ForwardRound g) : Ends f := by
  induction n using Nat.strong_induction_on generalizing f with
  | _ n ih =>
      obtain ⟨g, progress, hround, -, hdown⟩ := round_spec f
      cases progress with
      | false => exact ends_iff.mpr ⟨1, g, settled_still hround 0⟩
      | true =>
          have hlt := hdown (hf f .first) rfl
          have hg := ih (ahead g) (Nat.lt_of_lt_of_le hlt hn) g (Nat.le_refl _)
            fun h hbegins => hf h (hbegins.head hround)
          exact (Begins.first.next hround).ends hg

section Keeps

variable {P : Func → Prop}
  (hthread : ∀ {f f' : Func} {p : BlockId} {side : Bool},
    threadEdge f p side = some f' → P f → P f')
  (hmerge : ∀ {f f' : Func} {x : BlockId}, mergeOnce f x = some f' → P f → P f')

include hthread in
theorem tries_keep (es : List (BlockId × Bool)) (hf : P f) (changed : Bool) :
    P (es.foldl tryEdge (f, changed)).1 ∧ ∀ t ∈ tries f es, P t.1 := by
  induction es generalizing f changed with
  | nil => exact ⟨hf, fun t ht => by cases ht⟩
  | cons e es ih =>
      have hone : ∀ c, P (tryEdge (f, c) e).1 := by
        intro c
        rw [tryEdge]
        split
        · next h => exact hthread h hf
        · exact hf
      refine ⟨(ih (hone changed) _).1, fun t ht => ?_⟩
      obtain rfl | ht := List.mem_cons.mp ht
      · exact hf
      · exact (ih (hone false) false).2 t ht

include hmerge in
theorem mergeAt_keep {fuel : Nat} {changed : Bool} {r : Func × Bool}
    (h : mergeAt x fuel (f, changed) = some r) (hf : P f) : P r.1 := by
  induction fuel generalizing f changed with
  | zero => cases h
  | succ fuel ih =>
      rw [mergeAt] at h
      split at h
      · next hone => exact ih h (hmerge hone hf)
      · cases h
        exact hf

include hthread hmerge in
theorem round_keep {r : Func × Bool} (h : round f = some r) (hf : P f) : P r.1 := by
  generalize hr : (edgesOf f).foldl tryEdge (f, false) = r₁
  have hstart : P r₁.1 := hr ▸ (tries_keep hthread (edgesOf f) hf false).1
  rw [round, hr] at h
  obtain ⟨r₂, hmerged, hpure⟩ := Option.bind_eq_some_iff.mp h
  cases hpure
  unfold mergeSingleEntries at hmerged
  generalize r₁.1.blocks.length + 1 = fuel at hmerged
  suffices key : ∀ (xs : List BlockId) (s : Func × Bool),
      xs.foldlM (fun state x => mergeAt x fuel state) s = some r₂ → P s.1 → P r₂.1 from
    key _ _ hmerged hstart
  intro xs
  induction xs with
  | nil =>
      intro s hs hP
      cases hs
      exact hP
  | cons x xs ih =>
      intro s hs hP
      rw [List.foldlM_cons] at hs
      obtain ⟨s', hone, hrest⟩ := Option.bind_eq_some_iff.mp hs
      exact ih s' hrest (mergeAt_keep hmerge hone hP)

include hthread hmerge in
theorem begins_keep {g : Func} (h : Begins f g) (hf : P f) : P g := by
  induction h with
  | first => exact hf
  | next _ hround ih => exact round_keep hthread hmerge hround ih

end Keeps

section Feeding

variable {s : BlockId} {n m : Nat} {f'' : Func}

/-- `s` has taken on `n` parameters at most, and every edge to it passes as many more values. -/
structure Pushed (s : BlockId) (n : Nat) (f f' : Func) : Prop where
  params : ∀ u, (f'.block u).params.length ≤ (f.block u).params.length + if u = s then n else 0
  edges : ∀ u, ∀ e' ∈ (f'.block u).term.edges, ∃ e ∈ (f.block u).term.edges,
    e'.1 = e.1 ∧ (e.2.length + if e.1 = s then n else 0) ≤ e'.2.length

theorem Pushed.fed (h : Pushed s n f f') (hf : f.Fed) : f'.Fed := by
  rw [Func.fed_iff] at hf ⊢
  intro u e' he'
  obtain ⟨e, he, hto, hlength⟩ := h.edges u e' he'
  have hold := hf u e he
  have hparams := h.params e'.1
  rw [hto] at hparams ⊢
  omega

theorem Pushed.trans (h : Pushed s n f f') (k : Pushed s m f' f'') : Pushed s (n + m) f f'' := by
  refine ⟨fun u => ?_, fun u e'' he'' => ?_⟩
  · have h1 := h.params u
    have h2 := k.params u
    split at h1 <;> simp_all <;> omega
  · obtain ⟨e', he', hto', hlength'⟩ := k.edges u e'' he''
    obtain ⟨e, he, hto, hlength⟩ := h.edges u e' he'
    refine ⟨e, he, hto'.trans hto, ?_⟩
    rw [hto] at hlength'
    split at hlength <;> simp_all <;> omega

/-- What keeps the parameters of every block, and what each edge passes but for names. -/
theorem pushed_of_same (hparams : ∀ u, (f'.block u).params = (f.block u).params)
    (g : ValueId → ValueId)
    (hterm : ∀ u, (f'.block u).term = (f.block u).term ∨
      (f'.block u).term = (f.block u).term.mapUses g) : Pushed s 0 f f' := by
  refine ⟨fun u => by rw [hparams]; exact Nat.le_add_right _ _, fun u e' he' => ?_⟩
  rcases hterm u with hsame | hmap
  · exact ⟨e', hsame ▸ he', rfl, by simp⟩
  · rw [hmap, Terminator.edges_mapUses, List.mem_map] at he'
    obtain ⟨e, he, rfl⟩ := he'
    exact ⟨e, he, rfl, by simp⟩

theorem Pushed.refl (f : Func) : Pushed s 0 f f := pushed_of_same (fun _ => rfl) id fun _ => .inl rfl

theorem Pushed.foldl {β : Type} {g : Func → β → Func} (hg : ∀ f x, Pushed s n f (g f x))
    (l : List β) (f : Func) : Pushed s (n * l.length) f (l.foldl g f) := by
  induction l generalizing f with
  | nil => exact .refl f
  | cons x l ih =>
      have h := (hg f x).trans (ih (g f x))
      rw [List.length_cons, Nat.mul_succ, Nat.add_comm]
      exact h

theorem pushed_rename (f : Func) (b : BlockId) (old new : ValueId) :
    Pushed s 0 f (renameInBlock f b old new) := by
  have hblock : ∀ u, (renameInBlock f b old new).block u =
      if u = b ∧ b < f.blocks.length then (f.block b).mapUses (swap old new) else f.block u :=
    fun u => by
      unfold renameInBlock
      exact Func.setBlock_at _ _ _
  refine pushed_of_same (fun u => ?_) (swap old new) fun u => ?_
  · rw [hblock]
    split
    · next h => rw [h.1]; rfl
    · rfl
  · rw [hblock]
    split
    · next h => rw [h.1]; exact .inr rfl
    · exact .inl rfl

theorem pushed_replaceUses (f : Func) (old new : ValueId) : Pushed s 0 f (f.replaceUses old new) := by
  unfold Func.replaceUses
  split
  · exact .refl f
  · exact pushed_of_same (fun u => by rw [Func.rewriteUses_block]; rfl) _
      fun u => .inr (by rw [Func.rewriteUses_block]; rfl)

theorem withParam_at (s : BlockId) (ty : Ty) (reg : Nat) (f : Func) (u : BlockId) :
    ((withParam s ty reg f).block u).params.length ≤
        (f.block u).params.length + (if u = s then 1 else 0) ∧
      ((withParam s ty reg f).block u).term = (f.block u).term := by
  by_cases hs : s < f.blocks.length
  · obtain ⟨hparams, -, hterm⟩ := withParam_block ty reg hs u
    refine ⟨?_, hterm⟩
    rw [hparams]
    split <;> simp
  · have hge := Nat.le_of_not_lt hs
    have hblock : (withParam s ty reg f).block u = f.block u := by
      unfold withParam Func.addBlockParam Func.setBlock Func.block
      simp only
      split <;> simp [List.set_eq_of_length_le hge]
    rw [hblock]
    exact ⟨Nat.le_add_right _ _, rfl⟩

/-- Passing one more value from some blocks. -/
theorem push_fed (x : ValueId) (ps : List BlockId) (f : Func) (u : BlockId) :
    let f' := ps.foldl (fun f p => f.setTerm p ((f.block p).term.pushArg s x)) f
    (f'.block u).params = (f.block u).params ∧
      ∀ e' ∈ (f'.block u).term.edges, ∃ e ∈ (f.block u).term.edges,
        e'.1 = e.1 ∧ (e.2.length + if u ∈ ps ∧ e.1 = s then 1 else 0) ≤ e'.2.length := by
  induction ps generalizing f with
  | nil => exact ⟨rfl, fun e' he' => ⟨e', he', rfl, by simp⟩⟩
  | cons p ps ih =>
      obtain ⟨hparams, hedges⟩ := ih (f.setTerm p ((f.block p).term.pushArg s x))
      have hblock : (f.setTerm p ((f.block p).term.pushArg s x)).block u =
          if u = p ∧ p < f.blocks.length then
            { f.block p with term := (f.block p).term.pushArg s x } else f.block u :=
        Func.setBlock_at _ _ _
      rw [hblock] at hparams hedges
      refine ⟨hparams.trans ?_, fun e' he' => ?_⟩
      · split
        · next h => rw [h.1]
        · rfl
      · obtain ⟨e, he, hto, hlength⟩ := hedges e' he'
        split at he
        · next hup =>
            obtain ⟨rfl, -⟩ := hup
            rw [pushArg_edges, List.mem_map] at he
            obtain ⟨e₀, he₀, rfl⟩ := he
            refine ⟨e₀, he₀, hto, ?_⟩
            simp only at hlength
            split at hlength <;> simp_all <;> omega
        · next hup =>
            have hu : u ≠ p := fun heq => hup ⟨heq, heq ▸ lt_of_term fun hunset => by
              rw [hunset] at he
              exact absurd he List.not_mem_nil⟩
            refine ⟨e, he, hto, ?_⟩
            simpa [hu] using hlength

theorem pushed_moveParam (ds : List BlockId) (x : ValueId) (reg : Nat) (f : Func) :
    Pushed s 1 f (moveParam s ds x reg f) := by
  have hparam := withParam_at s (f.ty x) reg f
  generalize hg : withParam s (f.ty x) reg f = g at hparam
  have hpush := push_fed (s := s) x (g.preds s) g
  have hpushed : Pushed s 1 f
      ((g.preds s).foldl (fun f p => f.setTerm p ((f.block p).term.pushArg s x)) g) := by
    refine ⟨fun u => by rw [(hpush u).1]; exact (hparam u).1, fun u e' he' => ?_⟩
    obtain ⟨e, he, hto, hle⟩ := (hpush u).2 e' he'
    refine ⟨e, (hparam u).2 ▸ he, hto, ?_⟩
    split
    · next heq =>
        have hmem : u ∈ g.preds s := mem_preds_iff.mpr
          ⟨lt_of_term fun hunset => by rw [hunset] at he; exact absurd he List.not_mem_nil,
            heq ▸ Func.mem_edges_succs he⟩
        rwa [if_pos ⟨hmem, heq⟩] at hle
    · exact Nat.le_trans (Nat.add_le_add_left (Nat.zero_le _) _) hle
  have h := hpushed.trans (Pushed.foldl (s := s) (n := 0)
    (fun g u => pushed_rename g u x f.values.length) ds _)
  rw [Nat.zero_mul] at h
  rw [moveParam, hg]
  exact h

theorem threadEdge_fed (h : threadEdge f p side = some f') (hf : f.Fed) : f'.Fed := by
  obtain ⟨pl, hplan, rfl⟩ := Option.map_eq_some_iff.mp h
  obtain ⟨-, -, htemplate, -⟩ := plan_spec hplan
  simp only
  generalize hg : pl.moved.foldl _ f = g
  have hpushed : Pushed pl.dest (1 * pl.moved.length) f g :=
    hg ▸ Pushed.foldl (fun f j => pushed_moveParam _ _ _ f) pl.moved f
  have hfed := Func.fed_iff.mp (hpushed.fed hf)
  have hnew : (g.block pl.dest).params.length ≤ (pl.newArgs f).length := by
    have hold : (f.block pl.dest).params.length ≤ pl.template.length :=
      Func.fed_iff.mp hf _ _ htemplate
    have hparams := hpushed.params pl.dest
    simp only [if_true, Nat.one_mul] at hparams
    simp only [Plan.newArgs, List.length_append, List.length_map]
    omega
  have hblock : ∀ u, (g.setTerm p (retarget side pl.dest (pl.newArgs f) (g.block p).term)).block u =
      if u = p ∧ p < g.blocks.length then
        { g.block p with term := retarget side pl.dest (pl.newArgs f) (g.block p).term }
      else g.block u := Func.setBlock_at _ _
  have hparams : ∀ u, ((g.setTerm p (retarget side pl.dest (pl.newArgs f)
      (g.block p).term)).block u).params = (g.block u).params := by
    intro u
    rw [hblock]
    split
    · next h => rw [h.1]
    · rfl
  rw [Func.fed_iff]
  intro u e he
  rw [hparams]
  rw [hblock] at he
  split at he
  · have hedge : e = (pl.dest, pl.newArgs f) ∨ e ∈ (g.block p).term.edges := by
      cases hterm : (g.block p).term with
      | branch cond tb ta eb ea =>
          rw [hterm] at he
          cases side <;> simp [retarget, Terminator.edges] at he ⊢ <;> tauto
      | _ =>
          rw [hterm] at he
          exact .inr he
    rcases hedge with rfl | he
    · exact hnew
    · exact hfed p e he
  · exact hfed u e he

theorem mergeOnce_fed (h : mergeOnce f x = some f') (hf : f.Fed) : f'.Fed := by
  unfold mergeOnce at h
  split at h
  · next y args hterm =>
      split at h
      · cases h
      · obtain rfl := Option.some.inj h
        generalize hg : ((f.block y).params.zip args).foldl _ f = g
        have hpushed : Pushed 0 (0 * _) f g :=
          hg ▸ Pushed.foldl (fun f (e : ValueId × ValueId) => pushed_replaceUses f e.1 e.2) _ _
        have hfed := Func.fed_iff.mp (hpushed.fed hf)
        generalize hinto : { g.block x with
          insts := (g.block x).insts ++ (g.block y).insts, term := (g.block y).term } = into
        have hparams : ∀ u, (((g.setBlock x into).setBlock y (emptied (g.block y))).block
            u).params.length ≤ (g.block u).params.length := by
          intro u
          rw [Func.setBlock_at, Func.setBlock_at]
          split
          · exact Nat.zero_le _
          · split
            · next h => rw [← hinto, h.1]
            · exact Nat.le_refl _
        rw [Func.fed_iff]
        intro u e he
        refine Nat.le_trans (hparams e.1) ?_
        rw [Func.setBlock_at, Func.setBlock_at] at he
        split at he
        · exact absurd he List.not_mem_nil
        · split at he
          · rw [← hinto] at he
            exact hfed y e he
          · exact hfed u e he
  · cases h

end Feeding

/-- Without a ring of blocks that have no instructions the loop comes to an end. -/
theorem ends_of_no_ring (h : ∀ b, ¬Graph.Onward f.Bare b b) : Ends f := by
  refine ends_of_forward _ f (Nat.le_refl _) fun g hbegins t ht pl hplan hback => ?_
  have hg := begins_keep (P := fun f => ∀ b, ¬Graph.Onward f.Bare b b)
    (fun hthread hf b hb => hf b (hb.lift (threadEdge_bare hthread)))
    (fun hmerge hf b hb => hf b (hb.lift (mergeOnce_bare hmerge))) hbegins h
  obtain ⟨hpass, -, -, -⟩ := plan_spec hplan
  have htry := tries_keep (P := fun f => ∀ b, ¬Graph.Onward f.Bare b b)
    (fun hthread hf b hb => hf b (hb.lift (threadEdge_bare hthread))) (edgesOf g) hg false
  exact htry.2 t ht pl.block ⟨pl.dest, hpass, hback⟩

/-- Two blocks without instructions that send control round and round, and a branch into them. -/
def ring : Func where
  blocks := [
    ⟨[], [], [], [0, 1], .branch 1 1 [1] 3 [], some 0, 0⟩,
    ⟨[2], [], [], [], .branch 2 2 [2] 3 [], none, 0⟩,
    ⟨[3], [], [], [], .branch 3 1 [3] 3 [], none, 0⟩,
    ⟨[], [], [], [], .ret 0, none, 0⟩]
  insts := [
    ⟨.constTagged 0, [], some 0, none⟩,
    ⟨.constBool true, [], some 1, none⟩]
  values := [⟨.tagged, .inst 0⟩, ⟨.bool, .inst 1⟩, ⟨.bool, .param 1 0⟩, ⟨.bool, .param 2 0⟩]
  entry := 0
  osrEntries := []
  frames := [⟨0, 0⟩]
  paramClasses _ _ := []

/-- The same ring, entered at its other block. -/
def ringTurned : Func :=
  { ring with blocks := ring.blocks.set 0 ⟨[], [], [], [0, 1], .branch 1 2 [1] 3 [], some 0, 0⟩ }

theorem ring_round : round ring = some (ringTurned, true) := by rfl

theorem ringTurned_round : round ringTurned = some (ring, true) := by rfl

end Thread

end Zuri.Jit.Ir
