import Mathlib.Algebra.Order.Ring.Nat
import Mathlib.Logic.Relation
import Zuri.Jit.Ir.Passes.Cut
import Zuri.Jit.Ir.Prune

/-!
Removing block parameters that can only hold one value.

A parameter that every edge passes the same value, or itself, is that value. Parameters are
removed one after the other, and what one stands for may be removed later; the uses are
rewritten once at the end. Wherever a removed parameter is in scope, so is what it resolves to,
and at every moment of every run they are equal.
-/

namespace Zuri.Jit.Ir

open Transition (Next)

/-- Every value resolves to one that stays, and what an edge passes for one that goes resolves
as that does. -/
structure Folds (f : Func) (R : ValueId → ValueId) (gone : ValueId → Prop) : Prop where
  fixed : ∀ v, ¬ gone v → R v = v
  kept : ∀ v, ¬ gone (R v)
  param : ∀ v, gone v → ∃ b, v ∈ (f.block b).params ∧ b ≠ f.entry
  edge : ∀ b, f.Reachable b → ∀ e ∈ (f.block b).term.edges,
    ∀ x ∈ e.2.zip (f.block e.1).params, gone x.2 → R x.1 = R x.2

namespace Func

variable {f : Func}

/-- A value is defined in a block that a path has come to. -/
def Seen (f : Func) (left : List BlockId) (b : BlockId) (v : ValueId) : Prop :=
  ∃ d, (d ∈ left ∨ d = b) ∧ ∃ i, f.Defines v d i

theorem exists_path {b : BlockId} (h : f.Reachable b) : ∃ left, f.Path left b := by
  induction h with
  | root => exact ⟨[], .entry⟩
  | step _ e ih =>
      obtain ⟨left, hpath⟩ := ih
      exact ⟨_, hpath.step e⟩

/-- There is a path to each block of a path that has not been there before. -/
theorem Path.first {left : List BlockId} {b : BlockId} (h : f.Path left b) :
    ∀ c, c ∈ left ∨ c = b → ∃ before, f.Path before c ∧ c ∉ before := by
  induction h with
  | entry =>
      rintro c (hc | rfl)
      · exact absurd hc List.not_mem_nil
      · exact ⟨[], .entry, List.not_mem_nil⟩
  | @step left b c hpath e ih =>
      rintro d (hd | rfl)
      · rcases List.mem_cons.mp hd with rfl | hd
        · exact ih d (.inr rfl)
        · exact ih d (.inl hd)
      · by_cases hmem : d ∈ b :: left
        · rcases List.mem_cons.mp hmem with rfl | hmem
          · exact ih d (.inr rfl)
          · exact ih d (.inl hmem)
        · exact ⟨b :: left, hpath.step e, hmem⟩

theorem path_of_avoid {d b : BlockId} (h : Graph.Avoid f.Edge f.entry d b) :
    ∃ left, f.Path left b ∧ d ∉ left ∧ b ≠ d := by
  induction h with
  | root hne => exact ⟨[], .entry, List.not_mem_nil, hne⟩
  | step _ e hne ih =>
      obtain ⟨left, hpath, hleft, hb⟩ := ih
      refine ⟨_, hpath.step e, ?_, hne⟩
      rw [List.mem_cons, not_or]
      exact ⟨Ne.symm hb, hleft⟩

theorem Path.seen_of_inScope {left : List BlockId} {b : BlockId} {j : Nat} {v : ValueId}
    (h : f.Path left b) (hv : f.InScope v b j) : f.Seen left b v := by
  obtain ⟨d, i, hdef, ⟨rfl, -⟩ | ⟨hne, hdom⟩⟩ := hv
  · exact ⟨d, .inr rfl, i, hdef⟩
  · exact ⟨d, .inl (h.mem_of_dom hdom hne), i, hdef⟩

theorem edge_args {b c : BlockId} (h : f.Edge b c) :
    ∃ args, (c, args) ∈ (f.block b).term.edges := by
  unfold Edge succs at h
  cases ht : (f.block b).term with
  | jump target args =>
      rw [ht] at h
      obtain rfl := List.mem_singleton.mp h
      exact ⟨args, List.mem_singleton.mpr rfl⟩
  | branch cond tb ta eb ea =>
      rw [ht] at h
      rcases List.mem_cons.mp h with rfl | h
      · exact ⟨ta, List.mem_cons_self⟩
      · obtain rfl := List.mem_singleton.mp h
        exact ⟨ea, List.mem_cons_of_mem _ (List.mem_singleton.mpr rfl)⟩
  | ret v => rw [ht] at h; exact absurd h List.not_mem_nil
  | deopt s => rw [ht] at h; exact absurd h List.not_mem_nil
  | unset => rw [ht] at h; exact absurd h List.not_mem_nil
end Func

namespace Folds

variable {f : Func} {R : ValueId → ValueId} {gone : ValueId → Prop}

/-- Along every path a value comes after what it resolves to, and a removed parameter in a later
block. -/
theorem seen (h : Folds f R gone) (hs : f.Ssa) (hv : f.Valid) {left : List BlockId} {b : BlockId}
    (hpath : f.Path left b) :
    (∀ v, f.Seen left b v → f.Seen left b (R v) ∧ f.ty (R v) = f.ty v) ∧
      ∀ p ∈ (f.block b).params, gone p → ∃ d ∈ left, ∃ i, f.Defines (R p) d i := by
  induction hpath with
  | entry =>
      have hstays : ∀ v, f.Seen [] f.entry v → ¬ gone v := by
        rintro v ⟨d, hd | rfl, i, hdef⟩ hgone
        · exact absurd hd List.not_mem_nil
        · obtain ⟨b, hb, hne⟩ := h.param v hgone
          exact hne (hs.unique (.param hb) hdef).1
      refine ⟨fun v hseen => ?_, fun p hp hgone => ?_⟩
      · rw [h.fixed v (hstays v hseen)]
        exact ⟨hseen, rfl⟩
      · exact absurd hgone (hstays p ⟨f.entry, .inr rfl, 0, .param hp⟩)
  | @step left b c hpath e ih =>
      have hreach := hpath.reachable
      have hparam : ∀ p ∈ (f.block c).params, gone p →
          (∃ d ∈ b :: left, ∃ i, f.Defines (R p) d i) ∧ f.ty (R p) = f.ty p := by
        intro p hp hgone
        obtain ⟨args, hargs⟩ := Func.edge_args e
        have hfits := hv.edges b hreach _ hargs
        obtain ⟨a, ha, hzip, -⟩ := hfits.arg hp
        have hscope := hv.termUses b hreach a (Terminator.edges_uses hargs ha)
        obtain ⟨⟨d, hd, i, hdef⟩, hty⟩ := ih.1 a (hpath.seen_of_inScope hscope)
        rw [h.edge b hreach _ hargs _ hzip hgone] at hdef hty
        refine ⟨⟨d, ?_, i, hdef⟩, hty.trans (hfits.2 _ hzip)⟩
        rcases hd with hd | rfl
        · exact List.mem_cons_of_mem _ hd
        · exact List.mem_cons_self
      refine ⟨fun v hseen => ?_, fun p hp hgone => (hparam p hp hgone).1⟩
      obtain ⟨d, hd | rfl, i, hdef⟩ := hseen
      · have hbefore : f.Seen left b v := by
          rcases List.mem_cons.mp hd with rfl | hd
          · exact ⟨d, .inr rfl, i, hdef⟩
          · exact ⟨d, .inl hd, i, hdef⟩
        obtain ⟨⟨d', hd', i', hdef'⟩, hty⟩ := ih.1 v hbefore
        refine ⟨⟨d', .inl ?_, i', hdef'⟩, hty⟩
        rcases hd' with hd' | rfl
        · exact List.mem_cons_of_mem _ hd'
        · exact List.mem_cons_self
      · by_cases hgone : gone v
        · obtain ⟨c, hc, -⟩ := h.param v hgone
          obtain ⟨rfl, rfl⟩ := hs.unique hdef (.param hc)
          obtain ⟨⟨d', hd', i', hdef'⟩, hty⟩ := hparam v hc hgone
          exact ⟨⟨d', .inl hd', i', hdef'⟩, hty⟩
        · rw [h.fixed v hgone]
          exact ⟨⟨d, .inr rfl, i, hdef⟩, rfl⟩

/-- What a removed parameter resolves to is defined in another block, which dominates its own. -/
theorem above (h : Folds f R gone) (hs : f.Ssa) (hv : f.Valid) {b : BlockId} (hr : f.Reachable b)
    {p : ValueId} (hp : p ∈ (f.block b).params) (hgone : gone p) :
    ∃ d i, f.Defines (R p) d i ∧ d ≠ b ∧ f.Dom d b := by
  obtain ⟨left, hpath⟩ := Func.exists_path hr
  obtain ⟨before, hfirst, hnot⟩ := hpath.first b (.inr rfl)
  obtain ⟨d, hd, i, hdef⟩ := (h.seen hs hv hfirst).2 p hp hgone
  refine ⟨d, i, hdef, fun hdb => hnot (hdb ▸ hd), fun havoid => ?_⟩
  obtain ⟨other, hother, hmissed, -⟩ := Func.path_of_avoid havoid
  obtain ⟨d', hd', i', hdef'⟩ := (h.seen hs hv hother).2 p hp hgone
  exact hmissed ((hs.unique hdef' hdef).1 ▸ hd')

theorem inScope (h : Folds f R gone) (hs : f.Ssa) (hv : f.Valid) {b : BlockId} {j : Nat}
    (hr : f.Reachable b) {v : ValueId} (hscope : f.InScope v b j) : f.InScope (R v) b j := by
  by_cases hgone : gone v
  · obtain ⟨d, i, hdef, hbefore⟩ := hscope
    obtain ⟨c, hc, -⟩ := h.param v hgone
    obtain ⟨rfl, rfl⟩ := hs.unique hdef (.param hc)
    obtain ⟨d', i', hdef', hne, hdom⟩ := h.above hs hv (hbefore.reachable hr) hc hgone
    exact Func.InScope.mono ⟨d', i', hdef', .inr ⟨hne, hdom⟩⟩ hbefore hr
  · rwa [h.fixed v hgone]

theorem ty (h : Folds f R gone) (hs : f.Ssa) (hv : f.Valid) {b : BlockId} {j : Nat}
    (hr : f.Reachable b) {v : ValueId} (hscope : f.InScope v b j) : f.ty (R v) = f.ty v := by
  obtain ⟨left, hpath⟩ := Func.exists_path hr
  exact ((h.seen hs hv hpath).1 v (hpath.seen_of_inScope hscope)).2

/-- At every moment of a run a value in scope is what it resolves to. -/
theorem equal (h : Folds f R gone) (hs : f.Ssa) (hv : f.Valid) {M : Machine} {w₀ : World M.Rest}
    {b : BlockId} {j : Nat} {env : Env} {w : World M.Rest} (hat : At f w₀ b j env w) :
    ∀ v, f.InScope v b j → env v = env (R v) := by
  induction hat with
  | start =>
      rintro v ⟨d, i, hdef, ⟨rfl, hi⟩ | ⟨hne, hdom⟩⟩
      · by_cases hgone : gone v
        · obtain ⟨c, hc, hentry⟩ := h.param v hgone
          exact absurd (hs.unique (.param hc) hdef).1 hentry
        · rw [h.fixed v hgone]
      · exact absurd (Graph.Dom.eq_root hdom) hne
  | @inst b j env env' w w' inst seen hat hj hrun ih =>
      intro v hscope
      have hr := hat.reachable
      by_cases hgone : gone v
      · obtain ⟨d, i, hdef, hbefore⟩ := hscope
        obtain ⟨c, hc, -⟩ := h.param v hgone
        obtain ⟨rfl, rfl⟩ := hs.unique hdef (.param hc)
        have hold : f.InScope v b j := by
          refine ⟨d, 0, hdef, ?_⟩
          rcases hbefore with ⟨rfl, -⟩ | hdom
          · exact .inl ⟨rfl, Nat.zero_le j⟩
          · exact .inr hdom
        obtain ⟨x, -, rfl, -⟩ := Inst.run_on hrun
        have hself : f.Before b j b j := .inl ⟨rfl, Nat.le_refl j⟩
        rw [Env.define_of_ne _ _ (hs.result_not_inScope hold hself hr hj),
          Env.define_of_ne _ _ (hs.result_not_inScope (h.inScope hs hv hr hold) hself hr hj)]
        exact ih v hold
      · rw [h.fixed v hgone]
  | @edge b c env env' w w' seen hat hrun ih =>
      intro v hscope
      have hr := hat.reachable
      obtain ⟨args, he, rfl, rfl⟩ := Terminator.run_on hrun
      have hedge := Func.mem_edges_succs he
      have hc : f.Reachable c := .step hr hedge
      by_cases hgone : gone v
      · obtain ⟨d, i, hdef, hbefore⟩ := hscope
        obtain ⟨d', hd', -⟩ := h.param v hgone
        obtain ⟨rfl, rfl⟩ := hs.unique hdef (.param hd')
        obtain ⟨t, k, ht, hne, hdom⟩ := h.above hs hv (hbefore.reachable hc) hd' hgone
        -- What the parameter resolves to is no parameter of the block entered.
        have hother : R v ∉ (f.block c).params := by
          intro hp
          obtain ⟨rfl, rfl⟩ := hs.unique ht (.param hp)
          rcases hbefore with ⟨rfl, -⟩ | ⟨hdc, hdomc⟩
          · exact hne rfl
          · exact hne (Graph.Dom.antisymm hdom hdomc (hdomc.reachable_of_ne hc))
        rw [Env.enter_of_not_mem _ _ _ hother]
        by_cases hin : v ∈ (f.block c).params
        · obtain ⟨a, ha, hzip, hpassed⟩ := (hv.edges b hr _ he).arg hin
          have hentered : (v, env a) ∈ (f.block c).params.zip (args.map env) := by
            rw [List.zip_map_right, List.mem_map]
            exact ⟨(v, a), hpassed, rfl⟩
          rw [Env.enter_mem _ (hs.params c) hentered, ← h.edge b hr _ he _ hzip hgone]
          exact ih a (hv.termUses b hr a (Terminator.edges_uses he ha))
        · rw [Env.enter_of_not_mem _ _ _ hin]
          refine ih v ⟨d, 0, hdef, ?_⟩
          rcases hbefore with ⟨rfl, -⟩ | ⟨hdc, hdomc⟩
          · exact absurd hd' hin
          · have hdomb : f.Dom d b := Graph.Dom.pred hdomc hedge hdc
            by_cases hdb : d = b
            · exact .inl ⟨hdb, Nat.zero_le _⟩
            · exact .inr ⟨hdb, hdomb⟩
      · rw [h.fixed v hgone]

end Folds

namespace Phi

/-- The one value parameter `k` of `b` receives, not counting the parameter passed back to
itself, if there is exactly one. Every edge of a `Fed` function passes something for it. -/
def soleIncoming (f : Func) (replaced : List (ValueId × ValueId)) (preds : List BlockId)
    (b : BlockId) (k : Nat) (p : ValueId) : Option ValueId :=
  let incoming := (preds.flatMap fun pred => edgeArgs f pred b).map fun args =>
    resolve replaced (args.getD k 0)
  match incoming.filter (· ≠ p) with
  | [] => none
  | only :: others => if others.all (· = only) then some only else none

/-- A block without parameter `k`, which held a register that is now known to be `only`. -/
def dropParam (block : Block) (k : Nat) (only : ValueId) : Block :=
  match block.paramRegs[k]? with
  | some reg =>
      { block with
        params := block.params.eraseIdx k
        paramRegs := block.paramRegs.eraseIdx k
        fixedRegs := block.fixedRegs ++ [(reg, only)] }
  | none => { block with params := block.params.eraseIdx k }

/-- Drops parameter `k` of `b`, remembering which register it held and the one value it always
had. -/
def removeParam (f : Func) (preds : List BlockId) (b : BlockId) (k : Nat) (only : ValueId) :
    Func :=
  cutParam (dropParam · k only) f preds b k

theorem dropParam_drops (k : Nat) (only : ValueId) : Drops (dropParam · k only) k := by
  refine ⟨fun block => ?_, fun block => ?_, fun block => ?_⟩
  all_goals
    unfold dropParam
    split <;> rfl

/-- The function so far, what each removed parameter stands for, and whether a round has
changed anything. -/
structure Progress where
  func : Func
  replaced : List (ValueId × ValueId)
  changed : Bool

/-- The parameters of a block below the index, from the last to the first. -/
def scan (preds : List BlockId) (b : BlockId) : Nat → Progress → Progress
  | 0, s => s
  | k + 1, s =>
      let p := (s.func.block b).params.getD k 0
      match soleIncoming s.func s.replaced preds b k p with
      | none => scan preds b k s
      | some only =>
          scan preds b k ⟨removeParam s.func preds b k only, (p, only) :: s.replaced, true⟩

/-- One block of a round. Control starts at the entry, and only there. -/
def visit (preds : BlockId → List BlockId) (s : Progress) (b : BlockId) : Progress :=
  if b = s.func.entry ∨ preds b = [] then s
  else scan (preds b) b (s.func.block b).params.length s

def round (s : Progress) : Progress :=
  let preds := s.func.preds
  (List.range s.func.blocks.length).foldl (visit preds) { s with changed := false }

def rounds : Nat → Progress → Option Progress
  | 0, _ => none
  | fuel + 1, s =>
      let s := round s
      if s.changed then rounds fuel s else some s

/-- How many parameters there are. -/
def paramCount (f : Func) : Nat := (f.blocks.map fun block => block.params.length).sum

/-- The function without the parameters that hold one value, and what each stood for. -/
def run (f : Func) : Option (Func × List (ValueId × ValueId)) :=
  (rounds (paramCount f + 1) ⟨f, [], false⟩).map fun s =>
    (s.func.replaceAll s.replaced, s.replaced)

/-- Each removed parameter was new, and what it stands for had not been removed. -/
inductive Tidy : List (ValueId × ValueId) → Prop
  | nil : Tidy []
  | cons {p only : ValueId} {map : List (ValueId × ValueId)} :
      Tidy map → p ∉ keys map → only ∉ keys map → only ≠ p → Tidy ((p, only) :: map)

theorem resolveIn_of_not_mem {map : List (ValueId × ValueId)} {v : ValueId} (h : v ∉ keys map)
    (n : Nat) : resolveIn map n v = v := by
  cases n with
  | zero => rfl
  | succ n =>
      have hnone : map.lookup v = none := by
        cases hl : map.lookup v with
        | none => rfl
        | some t => exact absurd (List.mem_map_of_mem (f := Prod.fst) (Func.mem_of_lookup hl)) h
      rw [resolveIn, hnone]

theorem resolveIn_cons {p only : ValueId} {map : List (ValueId × ValueId)} (hp : p ∉ keys map)
    (honly : only ∉ keys map) (hne : only ≠ p) (n : Nat) (v : ValueId)
    (hend : resolveIn map n v ∉ keys map) :
    resolveIn ((p, only) :: map) (n + 1) v =
      if resolveIn map n v = p then only else resolveIn map n v := by
  have hlast : ∀ n, resolveIn ((p, only) :: map) n only = only :=
    resolveIn_of_not_mem fun hmem => by
      rcases List.mem_cons.mp hmem with heq | hmem
      · exact hne heq
      · exact honly hmem
  have hfirst : ∀ n, resolveIn ((p, only) :: map) (n + 1) p = only := by
    intro n
    rw [resolveIn, List.lookup_cons, beq_self_eq_true]
    exact hlast n
  have hother : v ≠ p → ((p, only) :: map).lookup v = map.lookup v := by
    intro hv
    rw [List.lookup_cons, beq_false_of_ne hv]
  induction n generalizing v with
  | zero =>
      by_cases hv : v = p
      · rw [hv, hfirst, resolveIn_of_not_mem hp, if_pos rfl]
      · have hmem : v ∉ keys ((p, only) :: map) := fun h => by
          rcases List.mem_cons.mp h with heq | h
          · exact hv heq
          · exact hend h
        have hzero : resolveIn map 0 v = v := rfl
        rw [resolveIn_of_not_mem hmem, hzero, if_neg hv]
  | succ n ih =>
      by_cases hv : v = p
      · rw [hv, hfirst, resolveIn_of_not_mem hp, if_pos rfl]
      · cases hl : map.lookup v with
        | none =>
            have hold : resolveIn map (n + 1) v = v := by rw [resolveIn, hl]
            rw [hold, if_neg hv, resolveIn, hother hv, hl]
        | some next =>
            have hold : resolveIn map (n + 1) v = resolveIn map n next := by rw [resolveIn, hl]
            rw [hold] at hend ⊢
            rw [resolveIn, hother hv, hl]
            exact ih next hend fun hnext => by rw [List.lookup_cons, beq_false_of_ne hnext]

/-- Resolving ends at a value that has not been removed. -/
theorem Tidy.resolve_not_mem {map : List (ValueId × ValueId)} (h : Tidy map) :
    ∀ v, resolve map v ∉ keys map := by
  induction h with
  | nil => exact fun _ => List.not_mem_nil
  | @cons p only map h hp honly hne ih =>
      intro v
      have hend := ih v
      unfold resolve at hend ⊢
      rw [List.length_cons, resolveIn_cons hp honly hne _ v hend]
      intro hmem
      split at hmem
      · rcases List.mem_cons.mp hmem with heq | hmem
        · exact hne heq
        · exact honly hmem
      · next hother =>
          rcases List.mem_cons.mp hmem with heq | hmem
          · exact hother heq
          · exact hend hmem

theorem Tidy.resolve_cons {p only : ValueId} {map : List (ValueId × ValueId)} (h : Tidy map)
    (hp : p ∉ keys map) (honly : only ∉ keys map) (hne : only ≠ p) (v : ValueId) :
    resolve ((p, only) :: map) v = if resolve map v = p then only else resolve map v := by
  have hend := h.resolve_not_mem v
  unfold resolve at hend ⊢
  rw [List.length_cons, resolveIn_cons hp honly hne _ v hend]

/-- No chain of replacements comes back to where it began. -/
theorem Tidy.acyclic {map : List (ValueId × ValueId)} (h : Tidy map) (v : ValueId) :
    ¬ Relation.TransGen (fun a b => map.lookup a = some b) v v := by
  intro hcycle
  have hstays : ∀ n u, Relation.TransGen (fun a b => map.lookup a = some b) u u →
      resolveIn map n u ∈ keys map := by
    intro n
    induction n with
    | zero =>
        intro u hu
        obtain ⟨b, hb, -⟩ := Relation.TransGen.head'_iff.mp hu
        exact List.mem_map_of_mem (f := Prod.fst) (Func.mem_of_lookup hb)
    | succ n ih =>
        intro u hu
        obtain ⟨b, hb, hrest⟩ := Relation.TransGen.head'_iff.mp hu
        rw [resolveIn, hb]
        exact ih b (Relation.TransGen.tail' hrest hb)
  exact h.resolve_not_mem v (hstays _ v hcycle)
/-- What has been removed so far is consistent with the function the pass began with. -/
structure Sound (f : Func) (s : Progress) : Prop where
  cut : Cut f s.func (keys s.replaced)
  tidy : Tidy s.replaced
  folds : Folds f (resolve s.replaced) (· ∈ keys s.replaced)

section Rounds

variable {f : Func} {s : Progress} {b : BlockId} {k : Nat} {p only : ValueId}

theorem soleIncoming_spec {g : Func} {replaced : List (ValueId × ValueId)} {preds : List BlockId}
    (h : soleIncoming g replaced preds b k p = some only) :
    (∃ a, resolve replaced a = only) ∧ only ≠ p ∧
      ∀ pred ∈ preds, ∀ e ∈ (g.block pred).term.edges, e.1 = b →
        resolve replaced (e.2.getD k 0) = p ∨ resolve replaced (e.2.getD k 0) = only := by
  unfold soleIncoming at h
  simp only at h
  split at h
  · cases h
  · next first others hincoming =>
      split at h
      · next hall =>
          obtain rfl := Option.some.inj h
          have hmem : first ∈ first :: others := List.mem_cons_self
          rw [← hincoming, List.mem_filter, List.mem_map] at hmem
          obtain ⟨⟨args, -, hargs⟩, hne⟩ := hmem
          refine ⟨⟨_, hargs⟩, of_decide_eq_true hne, fun pred hpred e he heq => ?_⟩
          by_cases hself : resolve replaced (e.2.getD k 0) = p
          · exact .inl hself
          · right
            have hin : resolve replaced (e.2.getD k 0) ∈ first :: others := by
              rw [← hincoming, List.mem_filter]
              refine ⟨List.mem_map.mpr ⟨e.2, List.mem_flatMap.mpr ⟨pred, hpred, ?_⟩, rfl⟩,
                by simpa using hself⟩
              exact List.mem_map.mpr ⟨e, List.mem_filter.mpr ⟨he, decide_eq_true heq⟩, rfl⟩
            rcases List.mem_cons.mp hin with heq | hin
            · exact heq
            · exact of_decide_eq_true (List.all_eq_true.mp hall _ hin)
      · cases h

theorem sound_start (hv : f.Valid) : Sound f ⟨f, [], false⟩ where
  cut := Cut.refl hv.edges
  tidy := .nil
  folds := {
    fixed := fun _ _ => rfl
    kept := fun _ => List.not_mem_nil
    param := fun _ h => absurd h List.not_mem_nil
    edge := fun _ _ _ _ _ _ h => absurd h List.not_mem_nil }

theorem Sound.remove (h : Sound f s) (hs : f.Ssa) (hv : f.Valid) (hb : b ≠ f.entry)
    (hk : (s.func.block b).params[k]? = some p)
    (hsole : soleIncoming s.func s.replaced (f.preds b) b k p = some only) (changed : Bool) :
    Sound f ⟨removeParam s.func (f.preds b) b k only, (p, only) :: s.replaced, changed⟩ := by
  obtain ⟨⟨a, ha⟩, hne, hedges⟩ := soleIncoming_spec hsole
  have hkept := h.cut.params b ▸ hk
  obtain ⟨hp, hnew⟩ := List.mem_filter.mp (List.mem_of_getElem? hkept)
  have hnew : p ∉ keys s.replaced := by simpa using hnew
  have honly : only ∉ keys s.replaced := ha ▸ h.tidy.resolve_not_mem a
  have htidy : Tidy ((p, only) :: s.replaced) := .cons h.tidy hnew honly hne
  have hresolve := h.tidy.resolve_cons hnew honly hne
  have hcut := h.cut.remove (dropParam_drops k only) hs hv.edges hk
  rw [h.cut.preds_eq] at hcut
  refine ⟨hcut, htidy, ?_⟩
  exact {
    fixed := fun v hgone => resolve_of_not_mem hgone
    kept := htidy.resolve_not_mem
    param := fun v hgone => by
      rcases List.mem_cons.mp hgone with rfl | hgone
      · exact ⟨b, hp, hb⟩
      · exact h.folds.param v hgone
    edge := fun c hr e he x hx hgone => by
      rcases List.mem_cons.mp hgone with heq | hgone
      · -- The parameter removed now: what reaches it resolved to itself or to the one value.
        have hx2 : x.2 = p := heq
        have htarget : e.1 = b :=
          (hs.unique (.param (hx2 ▸ (List.of_mem_zip hx).2)) (.param hp)).1
        have hpred : c ∈ f.preds b := by
          have hsucc := Func.mem_edges_succs he
          refine mem_preds_iff.mpr ⟨?_, htarget ▸ hsucc⟩
          by_contra hge
          rw [Func.Edge, Func.succs, Func.block_of_le (Nat.le_of_not_lt hge)] at hsucc
          exact absurd hsucc List.not_mem_nil
        have hpassed : (p, x.1) ∈ (f.block b).params.zip e.2 := by
          have hpair : (x.1, x.2) ∈ e.2.zip (f.block e.1).params := hx
          have hswap := mem_zip_comm hpair
          rwa [htarget, hx2] at hswap
        have hlength : (f.block b).params.length = e.2.length :=
          htarget ▸ (hv.edges c hr e he).1.symm
        have hget := keepArgs_get (hs.params b) hlength hkept hpassed
        have hin : (b, keepArgs (keys s.replaced) (f.block b).params e.2) ∈
            (s.func.block c).term.edges := by
          rw [h.cut.term c hr, edges_mapEdges, List.mem_map]
          exact ⟨e, he, by rw [htarget]⟩
        have hcase := hedges c hpred _ hin rfl
        rw [List.getD_eq_getElem?_getD, hget, Option.getD_some] at hcase
        have hself : resolve s.replaced p = p := resolve_of_not_mem hnew
        rw [hx2, hresolve, hresolve, hself, if_pos rfl]
        rcases hcase with hcase | hcase
        · rw [hcase, if_pos rfl]
        · rw [hcase]
          split <;> rfl
      · have hold := h.folds.edge c hr e he x hx hgone
        rw [hresolve, hresolve, hold] }

theorem scan_sound (hs : f.Ssa) (hv : f.Valid) (hb : b ≠ f.entry) (k : Nat) (s : Progress)
    (h : Sound f s) (hk : k ≤ (s.func.block b).params.length) :
    Sound f (scan (f.preds b) b k s) ∧
      s.replaced.length ≤ (scan (f.preds b) b k s).replaced.length ∧
      ((scan (f.preds b) b k s).changed = true → s.changed = true ∨
        s.replaced.length < (scan (f.preds b) b k s).replaced.length) := by
  induction k generalizing s with
  | zero => exact ⟨h, Nat.le_refl _, .inl⟩
  | succ k ih =>
      rw [scan]
      have hget : (s.func.block b).params[k]? = some ((s.func.block b).params.getD k 0) := by
        rw [List.getD_eq_getElem?_getD, List.getElem?_eq_getElem hk]
        rfl
      cases hsole : soleIncoming s.func s.replaced (f.preds b) b k
          ((s.func.block b).params.getD k 0) with
      | none => exact ih s h (Nat.le_of_lt hk)
      | some only =>
          have hnext := h.remove hs hv hb hget hsole true
          have hlt : b < s.func.blocks.length := lt_of_param (List.mem_of_getElem? hget)
          have hleft : k ≤ ((removeParam s.func (f.preds b) b k only).block b).params.length := by
            rw [← h.cut.preds_eq, removeParam, cutParam_params (dropParam_drops k only) hlt,
              if_pos rfl, List.length_eraseIdx_of_lt hk]
            omega
          obtain ⟨hsound, hmore, -⟩ := ih _ hnext hleft
          rw [List.length_cons] at hmore
          refine ⟨hsound, ?_, fun _ => .inr ?_⟩
          · exact Nat.le_of_succ_le hmore
          · exact hmore

theorem visits_sound (hs : f.Ssa) (hv : f.Valid) (blocks : List BlockId) (s : Progress)
    (h : Sound f s) :
    Sound f (blocks.foldl (visit f.preds) s) ∧
      s.replaced.length ≤ (blocks.foldl (visit f.preds) s).replaced.length ∧
      ((blocks.foldl (visit f.preds) s).changed = true → s.changed = true ∨
        s.replaced.length < (blocks.foldl (visit f.preds) s).replaced.length) := by
  induction blocks generalizing s with
  | nil => exact ⟨h, Nat.le_refl _, .inl⟩
  | cons b blocks ih =>
      rw [List.foldl_cons, visit]
      split
      · exact ih s h
      · next hroot =>
          rw [not_or, h.cut.entry] at hroot
          obtain ⟨hsound, hmore, hgrew⟩ := scan_sound hs hv hroot.1 _ s h (Nat.le_refl _)
          obtain ⟨hlast, hrest, hchanged⟩ := ih _ hsound
          refine ⟨hlast, by omega, fun hc => ?_⟩
          rcases hchanged hc with hc | hlt
          · rcases hgrew hc with hc | hlt
            · exact .inl hc
            · exact .inr (by omega)
          · exact .inr (by omega)

theorem round_sound (hs : f.Ssa) (hv : f.Valid) (h : Sound f s) :
    Sound f (round s) ∧ ((round s).changed = true →
      s.replaced.length < (round s).replaced.length) := by
  have hpreds : s.func.preds = f.preds := funext h.cut.preds_eq
  have hstart : Sound f { s with changed := false } := ⟨h.cut, h.tidy, h.folds⟩
  obtain ⟨hsound, -, hgrew⟩ := visits_sound hs hv (List.range s.func.blocks.length) _ hstart
  unfold round
  rw [hpreds]
  exact ⟨hsound, fun hc => (hgrew hc).resolve_left Bool.false_ne_true⟩

theorem Tidy.nodup {map : List (ValueId × ValueId)} (h : Tidy map) : (keys map).Nodup := by
  induction h with
  | nil => exact List.nodup_nil
  | cons _ hp _ _ ih => exact List.nodup_cons.mpr ⟨hp, ih⟩

/-- No more is removed than there is. -/
theorem Sound.length_le (h : Sound f s) : s.replaced.length ≤ paramCount f := by
  have hsub : keys s.replaced ⊆ f.blocks.flatMap Block.params := by
    intro v hv
    obtain ⟨b, hb, -⟩ := h.folds.param v hv
    have hlt := lt_of_param hb
    refine List.mem_flatMap.mpr ⟨f.blocks[b], List.getElem_mem hlt, ?_⟩
    rwa [Func.block, List.getD_eq_getElem?_getD, List.getElem?_eq_getElem hlt] at hb
  have hle := (h.tidy.nodup.subperm hsub).length_le
  rw [List.length_flatMap] at hle
  rwa [keys, List.length_map] at hle

/-- Every round but the last removes something, so there are no more rounds than parameters. -/
theorem rounds_sound (hs : f.Ssa) (hv : f.Valid) (fuel : Nat) (s : Progress) (h : Sound f s)
    (hfuel : paramCount f < s.replaced.length + fuel) :
    ∃ t, rounds fuel s = some t ∧ Sound f t := by
  induction fuel generalizing s with
  | zero =>
      have hle := h.length_le
      omega
  | succ fuel ih =>
      obtain ⟨hsound, hgrew⟩ := round_sound hs hv h
      rw [rounds]
      split
      · next hc =>
          have hlt := hgrew hc
          exact ih _ hsound (by omega)
      · exact ⟨_, rfl, hsound⟩

end Rounds

section Result

variable {f g : Func} {map : List (ValueId × ValueId)}

/-- A function with its parameters cut and the uses of them rewritten. -/
structure Folded (f g : Func) (map : List (ValueId × ValueId)) : Prop where
  entry : g.entry = f.entry
  count : g.blocks.length = f.blocks.length
  insts : g.insts.length = f.insts.length
  inst : ∀ i, g.inst i = (f.inst i).mapUses (resolve map)
  values : g.values = f.values
  succs : ∀ b, g.succs b = f.succs b
  code : ∀ b, (g.block b).insts = (f.block b).insts
  params : ∀ b, (g.block b).params = (f.block b).params.filter (· ∉ keys map)
  term : ∀ b, f.Reachable b → (g.block b).term =
    (mapEdges (fun c args => keepArgs (keys map) (f.block c).params args)
      (f.block b).term).mapUses (resolve map)
  fed : f.Fed → g.Fed

theorem folded_of_cut (h : Cut f g (keys map)) : Folded f (g.replaceAll map) map := by
  rw [Func.replaceAll_eq]
  have hinst : ∀ i, g.inst i = f.inst i := fun i => by rw [Func.inst, Func.inst, h.insts]
  refine ⟨h.entry, ?_, ?_, fun i => ?_, h.values, fun b => ?_, fun b => ?_, fun b => ?_,
    fun b hr => ?_, fun hfed => (h.fed hfed).rewriteUses _⟩
  · exact (List.length_map _).trans h.count
  · exact (List.length_map _).trans (congrArg List.length h.insts)
  · rw [Func.rewriteUses_inst, hinst]
  · rw [← h.succs b, Func.succs, Func.rewriteUses_block, Func.succs]
    exact Terminator.mapUses_successors _ _
  · rw [Func.rewriteUses_block]
    exact h.code b
  · rw [Func.rewriteUses_block]
    exact h.params b
  · rw [Func.rewriteUses_block, ← h.term b hr]
    rfl

namespace Folded

theorem code_eq (h : Folded f g map) (b : BlockId) :
    g.code b = (f.code b).map (Inst.mapUses (resolve map)) := by
  rw [Func.code, h.code b, Func.code, List.map_map]
  exact List.map_congr_left fun i _ => h.inst i

theorem edge_eq (h : Folded f g map) : g.Edge = f.Edge := by
  funext u v
  rw [Func.Edge, Func.Edge, h.succs u]

theorem reachable_iff (h : Folded f g map) (b : BlockId) : g.Reachable b ↔ f.Reachable b := by
  rw [Func.Reachable, Func.Reachable, h.edge_eq, h.entry]

theorem defines_of (h : Folded f g map) {v : ValueId} {d : BlockId} {i : Nat}
    (hdef : g.Defines v d i) : f.Defines v d i := by
  obtain ⟨-, ⟨rfl, hp⟩ | ⟨j, inst, rfl, hj, hr⟩⟩ := Func.mem_blockDefs.mp hdef
  · rw [h.params d] at hp
    exact .param (List.mem_filter.mp hp).1
  · rw [h.code_eq d, List.getElem?_map, Option.map_eq_some_iff] at hj
    obtain ⟨before, hbefore, rfl⟩ := hj
    exact .inst hbefore hr

theorem defines (h : Folded f g map) {v : ValueId} {d : BlockId} {i : Nat}
    (hdef : f.Defines v d i) (hv : v ∉ keys map) : g.Defines v d i := by
  obtain ⟨-, ⟨rfl, hp⟩ | ⟨j, inst, rfl, hj, hr⟩⟩ := Func.mem_blockDefs.mp hdef
  · refine .param ?_
    rw [h.params d]
    exact List.mem_filter.mpr ⟨hp, by simpa using hv⟩
  · have hresult : (inst.mapUses (resolve map)).result = some v := hr
    refine Func.Defines.inst ?_ hresult
    rw [h.code_eq d, List.getElem?_map, hj]
    rfl

theorem ssa (h : Folded f g map) (hs : f.Ssa) : g.Ssa where
  unique hd hd' := hs.unique (h.defines_of hd) (h.defines_of hd')
  params b := by
    rw [h.params b]
    exact (hs.params b).filter _
  place hi hj := by
    rw [h.code] at hi hj
    exact hs.place hi hj
  param b p hp := by
    rw [h.params b] at hp
    rw [h.values]
    exact hs.param b p (List.mem_filter.mp hp).1
  inst b i hi r hr := by
    rw [h.code b] at hi
    rw [h.inst i] at hr
    rw [h.values]
    exact hs.inst b i hi r hr

theorem inScope (h : Folded f g map) (hf : Folds f (resolve map) (· ∈ keys map)) (hs : f.Ssa)
    (hv : f.Valid) {b : BlockId} {j : Nat} (hr : f.Reachable b) {v : ValueId}
    (hscope : f.InScope v b j) : g.InScope (resolve map v) b j := by
  obtain ⟨d, i, hdef, hbefore⟩ := hf.inScope hs hv hr hscope
  refine ⟨d, i, h.defines hdef (hf.kept v), ?_⟩
  unfold Func.Before Func.Dom at hbefore ⊢
  rwa [h.edge_eq, h.entry]

theorem valid (h : Folded f g map) (hf : Folds f (resolve map) (· ∈ keys map)) (hs : f.Ssa)
    (hv : f.Valid) : g.Valid where
  entry := by
    rw [h.entry, h.count]
    exact hv.entry
  succs b s hmem := by
    rw [h.succs b] at hmem
    rw [h.count]
    exact hv.succs b s hmem
  insts b i hmem := by
    rw [h.code b] at hmem
    rw [h.insts]
    exact hv.insts b i hmem
  term b hr hunset := by
    have hr := (h.reachable_iff b).mp hr
    have hterm := hv.term b hr
    rw [h.term b hr] at hunset
    cases ht : (f.block b).term with
    | unset => exact hterm ht
    | _ => rw [ht] at hunset; cases hunset
  uses b hr j inst hj v hmem := by
    have hr := (h.reachable_iff b).mp hr
    rw [h.code_eq b, List.getElem?_map, Option.map_eq_some_iff] at hj
    obtain ⟨before, hbefore, rfl⟩ := hj
    rw [Inst.mapUses_uses] at hmem
    obtain ⟨u, hu, rfl⟩ := List.mem_map.mp hmem
    exact h.inScope hf hs hv hr (hv.uses b hr j before hbefore u hu)
  termUses b hr v hmem := by
    have hr := (h.reachable_iff b).mp hr
    rw [h.term b hr, Terminator.mapUses_uses] at hmem
    obtain ⟨u, hu, rfl⟩ := List.mem_map.mp hmem
    have hold := uses_mapEdges (fun c args => keepArgs_subset _ _ args) _ hu
    have hscope := h.inScope hf hs hv hr (hv.termUses b hr u hold)
    rwa [h.code_eq b, List.length_map]
  edges b hr e hmem := by
    have hr := (h.reachable_iff b).mp hr
    rw [h.term b hr, Terminator.mapUses_edges, edges_mapEdges, List.map_map] at hmem
    obtain ⟨old, hold, rfl⟩ := List.mem_map.mp hmem
    have hfits := hv.edges b hr old hold
    refine ⟨?_, fun x hx => ?_⟩
    · have hkeys := congrArg List.length
        (map_fst_zip_filter (keys map) (Nat.le_of_eq hfits.1.symm))
      rw [List.length_map] at hkeys
      simp only [Function.comp_apply, keepArgs, List.length_map, h.params]
      exact hkeys
    · simp only [Function.comp_apply, h.params] at hx
      obtain ⟨a, ha, hpassed⟩ := keepArgs_zip (keys map) (resolve map) hfits.1.symm hx
      have hscope := hv.termUses b hr a
        (Terminator.edges_uses hold (List.of_mem_zip hpassed).2)
      have hty : ∀ v, g.ty v = f.ty v := fun v => by rw [Func.ty, h.values, Func.ty]
      rw [hty, hty, ha, hf.ty hs hv hr hscope]
      exact hfits.2 _ (mem_zip_comm hpassed)

end Folded

/-- The pass ends for every function the check accepts whose edges pass enough. What a parameter is replaced by is what
the parameter is at every moment of every run at which it is in scope. No chain of replacements
comes back, and each ends at a value that stays. The parameters that stay keep their order, each
edge passes what they were passed, and the function is accepted and its edges pass enough. -/
theorem run_removes (f : Func) (hs : f.Ssa) (hverify : f.verify = .ok ()) (hfed : f.Fed) :
    ∃ g map, run f = some (g, map) ∧
      (∀ p ∈ keys map, ∃ b, b ≠ f.entry ∧ p ∈ (f.block b).params) ∧
      (∀ (M : Machine) (w₀ : World M.Rest) (b : BlockId) (j : Nat) (env : Env)
        (w : World M.Rest), At f w₀ b j env w → ∀ p ∈ keys map, f.InScope p b j →
          env p = env (resolve map p)) ∧
      (∀ v, ¬ Relation.TransGen (fun a b => map.lookup a = some b) v v) ∧
      (∀ v, resolve map v ∉ keys map) ∧
      (∀ b, (g.block b).params = (f.block b).params.filter (· ∉ keys map)) ∧
      (∀ i, g.inst i = (f.inst i).mapUses (resolve map)) ∧
      (∀ b, g.Reachable b → (g.block b).term =
        (mapEdges (fun c args => keepArgs (keys map) (f.block c).params args)
          (f.block b).term).mapUses (resolve map)) ∧
      (∀ b, g.Reachable b → ∀ e ∈ (g.block b).term.edges,
        e.2.length = (g.block e.1).params.length) ∧
      g.Ssa ∧ g.verify = .ok () ∧ g.Fed := by
  have hv := hs.verify_iff.mp hverify
  obtain ⟨t, ht, hsound⟩ := rounds_sound hs hv (paramCount f + 1) _ (sound_start hv) (by
    simp only [List.length_nil]
    omega)
  have hfolded := folded_of_cut hsound.cut
  have hvalid := hfolded.valid hsound.folds hs hv
  have hssa := hfolded.ssa hs
  refine ⟨_, t.replaced, by rw [run, ht]; rfl, ?_, ?_, hsound.tidy.acyclic,
    hsound.tidy.resolve_not_mem, hfolded.params, hfolded.inst, ?_, ?_, hssa,
    hssa.verify_iff.mpr hvalid, hfolded.fed hfed⟩
  · intro p hp
    obtain ⟨b, hb, hne⟩ := hsound.folds.param p hp
    exact ⟨b, hne, hb⟩
  · exact fun M w₀ b j env w hat p _ hscope => hsound.folds.equal hs hv hat p hscope
  · exact fun b hr => hfolded.term b ((hfolded.reachable_iff b).mp hr)
  · exact fun b hr e he => (hvalid.edges b hr e he).1

/-- A loop that passes a value round and never changes it. -/
def idle : Func where
  blocks := [
    ⟨[], [], [], [0, 1], .jump 1 [0], some 0, 0⟩,
    ⟨[2], [3], [], [], .branch 1 1 [2] 2 [2], some 4, 0⟩,
    ⟨[3], [3], [], [], .ret 3, none, 0⟩]
  insts := [
    ⟨.constTagged 0, [], some 0, none⟩,
    ⟨.constBool true, [], some 1, none⟩]
  values := [⟨.tagged, .inst 0⟩, ⟨.bool, .inst 1⟩, ⟨.tagged, .param 1 0⟩, ⟨.tagged, .param 2 0⟩]
  entry := 0
  osrEntries := []
  frames := [⟨0, 0⟩]
  paramClasses _ _ := []

theorem idle_removes : ∃ g map, run idle = some (g, map) ∧ (∀ v, resolve map v ∉ keys map) ∧
    g.verify = .ok () := by
  obtain ⟨g, map, hrun, -, -, -, hends, -, -, -, -, -, hverify, -⟩ :=
    run_removes idle (Func.ssa_of_check rfl) rfl (by decide)
  exact ⟨g, map, hrun, hends, hverify⟩

end Result

end Phi

end Zuri.Jit.Ir
