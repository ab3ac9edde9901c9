import Zuri.Jit.Ir.Passes.Thread
import Zuri.Jit.Ir.Prune
import Zuri.Jit.Ir.Rename

/-!
Moving a parameter to a block its owner dominates.

`Moved` says what the move leaves of the function: the same blocks and edges,
one more parameter that every edge into the block passes, and the old value
renamed in the blocks it dominates. The new parameter holds what the old one
does wherever it is used, so the two functions run in lockstep, and the checks
that accepted one accept the other.
-/

namespace Zuri.Jit.Ir

open Transition (observe)

section Idempotent

variable {g : ValueId → ValueId} (hg : ∀ v, g (g v) = g v)

include hg

theorem FrameState.mapUses_twice (s : FrameState) : (s.mapUses g).mapUses g = s.mapUses g := by
  simp [FrameState.mapUses, Function.comp_def, hg]

theorem Inst.mapUses_twice (inst : Inst) : (inst.mapUses g).mapUses g = inst.mapUses g := by
  simp [Inst.mapUses, Function.comp_def, hg, FrameState.mapUses_twice hg]

theorem Block.mapUses_twice (b : Block) : (b.mapUses g).mapUses g = b.mapUses g := by
  have hterm : (b.term.mapUses g).mapUses g = b.term.mapUses g := by
    cases b.term <;> simp [Terminator.mapUses, Function.comp_def, hg, FrameState.mapUses_twice hg]
  simp [Block.mapUses, Function.comp_def, hg, hterm]

end Idempotent

theorem getD_foldl_modify {α : Type} (h : α → α) (hh : ∀ x, h (h x) = h x) (d : α) (hd : h d = d)
    (ids : List Nat) (l : List α) (i : Nat) :
    (ids.foldl (fun l i => l.modify i h) l).getD i d =
      if i ∈ ids then h (l.getD i d) else l.getD i d := by
  induction ids generalizing l with
  | nil => simp
  | cons j ids ih =>
      have hone : (l.modify j h).getD i d = if i = j then h (l.getD i d) else l.getD i d := by
        simp only [List.getD_eq_getElem?_getD, List.getElem?_modify]
        by_cases hij : i = j
        · subst hij
          cases hl : l[i]? <;> simp [hd]
        · simp [hij, Ne.symm hij]
      rw [List.foldl_cons, ih, hone]
      by_cases hij : i = j <;> by_cases hmem : i ∈ ids <;> simp [hij, hmem, hh]

namespace Func

variable {f : Func}

@[simp] theorem setBlock_length (b : BlockId) (blk : Block) :
    (f.setBlock b blk).blocks.length = f.blocks.length := by simp [setBlock]

/-- A block that is there is the one put there, any other is as before. -/
theorem setBlock_block (b : BlockId) (blk : Block) (h : b < f.blocks.length ∨ blk = f.block b)
    (c : BlockId) : (f.setBlock b blk).block c = if c = b then blk else f.block c := by
  by_cases hc : c = b
  · subst hc
    rw [if_pos rfl]
    rcases h with h | rfl
    · exact setBlock_self blk h
    · by_cases hlt : c < f.blocks.length
      · exact setBlock_self _ hlt
      · have hge : f.blocks.length ≤ c := Nat.le_of_not_lt hlt
        rw [block_of_le hge, block_of_le (by simpa using hge)]
  · rw [if_neg hc, setBlock_other blk hc]

end Func

theorem Env.enter_append (env : Env) {params : List ValueId} {args : List Val} (p : ValueId)
    (a : Val) (h : args.length = params.length) :
    env.enter (params ++ [p]) (args ++ [a]) = Function.update (env.enter params args) p a := by
  unfold Env.enter
  rw [List.zip_append h.symm, List.foldl_append]
  rfl

namespace Thread

theorem swap_of_ne {old new v : ValueId} (h : v ≠ old) : swap old new v = v := if_neg h

theorem swap_swap {old new : ValueId} (h : new ≠ old) (v : ValueId) :
    swap old new (swap old new v) = swap old new v := by
  by_cases hv : v = old
  · simp [swap, hv, h]
  · simp [swap, hv]

/-- What renaming `old` in the blocks of a list leaves. -/
theorem rename_fold {old new : ValueId} (hne : new ≠ old) (ds : List BlockId) (f : Func)
    (hds : ∀ u ∈ ds, u < f.blocks.length) :
    let f' := ds.foldl (fun f u => renameInBlock f u old new) f
    f'.values = f.values ∧ f'.entry = f.entry ∧ f'.frames = f.frames ∧
      f'.paramClasses = f.paramClasses ∧ f'.osrEntries = f.osrEntries ∧
      f'.blocks.length = f.blocks.length ∧
      (∀ u, f'.block u = if u ∈ ds then (f.block u).mapUses (swap old new) else f.block u) ∧
      ∀ i, f'.inst i = if ∃ u ∈ ds, i ∈ (f.block u).insts
        then (f.inst i).mapUses (swap old new) else f.inst i := by
  have hg := swap_swap hne
  induction ds generalizing f with
  | nil => simp
  | cons d ds ih =>
      have hd : d < f.blocks.length := hds d List.mem_cons_self
      have hblock : ∀ u, (renameInBlock f d old new).block u =
          if u = d then (f.block u).mapUses (swap old new) else f.block u := by
        intro u
        refine (Func.setBlock_block _ _ (.inl hd) u).trans ?_
        by_cases hu : u = d
        · subst hu
          rfl
        · simp only [hu, if_false]
      have hinst : ∀ i, (renameInBlock f d old new).inst i =
          if i ∈ (f.block d).insts then (f.inst i).mapUses (swap old new) else f.inst i := by
        intro i
        exact getD_foldl_modify (Inst.mapUses (swap old new)) (Inst.mapUses_twice hg) Func.noInst
          rfl _ f.insts i
      have hlen : (renameInBlock f d old new).blocks.length = f.blocks.length := by
        simp [renameInBlock]
      obtain ⟨h1, h2, h3, h4, h5, h6, h7, h8⟩ := ih (renameInBlock f d old new)
        fun u hu => hlen ▸ hds u (List.mem_cons_of_mem _ hu)
      have hids : ∀ u, ((renameInBlock f d old new).block u).insts = (f.block u).insts := by
        intro u
        rw [hblock]
        split <;> rfl
      refine ⟨h1, h2, h3, h4, h5, h6.trans hlen, fun u => ?_, fun i => ?_⟩
      · rw [List.foldl_cons, h7, hblock]
        by_cases hu : u = d <;> by_cases hmem : u ∈ ds <;> simp [hu, hmem, Block.mapUses_twice hg]
      · rw [List.foldl_cons, h8, hinst]
        simp only [hids, List.mem_cons, exists_eq_or_imp]
        by_cases hi : i ∈ (f.block d).insts <;> by_cases hex : ∃ u ∈ ds, i ∈ (f.block u).insts <;>
          simp [hi, hex, Inst.mapUses_twice hg]

theorem pushArg_of_not_mem {t : Terminator} {s : BlockId} (v : ValueId) (h : s ∉ t.successors) :
    t.pushArg s v = t := by
  cases t with
  | jump target args =>
      have : target ≠ s := fun he => h (by simp [Terminator.successors, he])
      simp [Terminator.pushArg, this]
  | branch cond tb ta eb ea =>
      have h1 : tb ≠ s := fun he => h (by simp [Terminator.successors, he])
      have h2 : eb ≠ s := fun he => h (by simp [Terminator.successors, he])
      simp [Terminator.pushArg, h1, h2]
  | _ => rfl

theorem pushArg_of_next {t : Terminator} {env : Env} (s : BlockId) (v : ValueId)
    (h : t.next env = none) : t.pushArg s v = t := by
  cases t with
  | jump target args => cases h
  | branch cond tb ta eb ea => cases h
  | _ => rfl

theorem pushArg_edges (t : Terminator) (s : BlockId) (v : ValueId) :
    (t.pushArg s v).edges = t.edges.map fun e => (e.1, if e.1 = s then e.2 ++ [v] else e.2) := by
  cases t with
  | jump target args =>
      by_cases h : target = s <;> simp [Terminator.pushArg, Terminator.edges, h]
  | branch cond tb ta eb ea => rfl
  | _ => rfl

theorem pushArg_successors (t : Terminator) (s : BlockId) (v : ValueId) :
    (t.pushArg s v).successors = t.successors := by
  cases t with
  | jump target args =>
      by_cases h : target = s <;> simp [Terminator.pushArg, Terminator.successors, h]
  | _ => rfl

theorem pushArg_next (t : Terminator) (s : BlockId) (v : ValueId) (env : Env) :
    (t.pushArg s v).next env = t.next env := by
  cases t with
  | jump target args =>
      by_cases h : target = s <;> simp [Terminator.pushArg, Terminator.next, h]
  | _ => rfl

theorem mem_pushArg_uses {t : Terminator} {s : BlockId} {v x : ValueId}
    (h : x ∈ (t.pushArg s v).uses) : x ∈ t.uses ∨ (x = v ∧ s ∈ t.successors) := by
  cases t with
  | jump target args =>
      by_cases ht : target = s
      · simp only [Terminator.pushArg, ht, if_true, Terminator.uses, List.mem_append,
          List.mem_singleton] at h
        exact h.imp id fun hx => ⟨hx, by simp [Terminator.successors, ht]⟩
      · simp only [Terminator.pushArg, ht, if_false] at h
        exact .inl h
  | branch cond tb ta eb ea =>
      simp only [Terminator.pushArg, Terminator.uses, Terminator.successors, List.mem_cons,
        List.mem_append, List.not_mem_nil, or_false] at h ⊢
      by_cases h1 : tb = s <;> by_cases h2 : eb = s <;>
        simp only [h1, h2, if_true, if_false, List.mem_append, List.mem_cons, List.not_mem_nil,
          or_false] at h <;> tauto
  | _ => exact .inl h

/-- What pushing a value along the edges from a list of blocks leaves. -/
theorem push_fold (s : BlockId) (x : ValueId) (ps : List BlockId) (hn : ps.Nodup) (f : Func)
    (hps : ∀ u ∈ ps, u < f.blocks.length) :
    let f' := ps.foldl (fun f p => f.setTerm p ((f.block p).term.pushArg s x)) f
    f'.values = f.values ∧ f'.entry = f.entry ∧ f'.frames = f.frames ∧
      f'.paramClasses = f.paramClasses ∧ f'.osrEntries = f.osrEntries ∧
      f'.blocks.length = f.blocks.length ∧ f'.insts = f.insts ∧
      ∀ u, f'.block u = if u ∈ ps
        then { f.block u with term := (f.block u).term.pushArg s x } else f.block u := by
  induction ps generalizing f with
  | nil => simp
  | cons p ps ih =>
      rw [List.nodup_cons] at hn
      have hblock : ∀ u, (f.setTerm p ((f.block p).term.pushArg s x)).block u =
          if u = p then { f.block u with term := (f.block u).term.pushArg s x } else f.block u := by
        intro u
        refine (Func.setBlock_block _ _ (.inl (hps p List.mem_cons_self)) u).trans ?_
        by_cases hu : u = p
        · subst hu
          rfl
        · simp only [hu, if_false]
      have hlen : (f.setTerm p ((f.block p).term.pushArg s x)).blocks.length = f.blocks.length := by
        simp [Func.setTerm]
      obtain ⟨h1, h2, h3, h4, h5, h6, h7, h8⟩ := ih hn.2
        (f.setTerm p ((f.block p).term.pushArg s x))
        fun u hu => hlen ▸ hps u (List.mem_cons_of_mem _ hu)
      refine ⟨h1, h2, h3, h4, h5, h6.trans hlen, h7, fun u => ?_⟩
      rw [List.foldl_cons, h8, hblock]
      by_cases hu : u = p
      · subst hu
        simp [hn.1]
      · simp [hu]

/-- The name a value goes by in a block: `fresh` for `x` where the new
parameter is to be used. -/
def nameIn (ds : List BlockId) (x fresh : ValueId) (u : BlockId) : ValueId → ValueId :=
  if u ∈ ds then swap x fresh else id

/-- What moving `x` to a parameter `fresh` of `s` leaves. -/
structure Moved (f f' : Func) (s : BlockId) (x fresh : ValueId) (ds : List BlockId) : Prop where
  entry : f'.entry = f.entry
  frames : f'.frames = f.frames
  paramClasses : f'.paramClasses = f.paramClasses
  osrEntries : f'.osrEntries = f.osrEntries
  length : f'.blocks.length = f.blocks.length
  instCount : f'.insts.length = f.insts.length
  values : ∃ k, f'.values = f.values ++ [⟨f.ty x, .param s k⟩]
  name : fresh = f.values.length
  params : ∀ u, (f'.block u).params =
    if u = s then (f.block u).params ++ [fresh] else (f.block u).params
  insts : ∀ u, (f'.block u).insts = (f.block u).insts
  inst : ∀ u, ∀ i ∈ (f.block u).insts, f'.inst i = (f.inst i).mapUses (nameIn ds x fresh u)
  term : ∀ u, (f'.block u).term = ((f.block u).term.pushArg s x).mapUses (nameIn ds x fresh u)

theorem length_foldl_modify {α : Type} (h : α → α) (ids : List Nat) (l : List α) :
    (ids.foldl (fun l i => l.modify i h) l).length = l.length := by
  induction ids generalizing l with
  | nil => rfl
  | cons i ids ih => rw [List.foldl_cons, ih, List.length_modify]

theorem length_rename_fold (old new : ValueId) (ds : List BlockId) (f : Func) :
    (ds.foldl (fun f u => renameInBlock f u old new) f).insts.length = f.insts.length := by
  induction ds generalizing f with
  | nil => rfl
  | cons d ds ih =>
      rw [List.foldl_cons, ih]
      exact length_foldl_modify _ _ _

theorem preds_congr {f f' : Func} (hlen : f'.blocks.length = f.blocks.length)
    (hsucc : ∀ u, f'.succs u = f.succs u) (s : BlockId) : f'.preds s = f.preds s := by
  simp only [Func.preds, hlen, hsucc]

theorem withParam_block {f : Func} {s : BlockId} (ty : Ty) (reg : Nat)
    (hsn : s < f.blocks.length) (u : BlockId) :
    ((withParam s ty reg f).block u).params =
        (if u = s then (f.block u).params ++ [f.values.length] else (f.block u).params) ∧
      ((withParam s ty reg f).block u).insts = (f.block u).insts ∧
      ((withParam s ty reg f).block u).term = (f.block u).term := by
  have hadd : ∀ u, (f.addBlockParam s ty).block u =
      if u = s then { f.block s with params := (f.block s).params ++ [f.values.length] }
      else f.block u := fun u => Func.setBlock_block _ _ (.inl hsn) u
  have hblock : (withParam s ty reg f).block u = (f.addBlockParam s ty).block u ∨
      ((withParam s ty reg f).block u = { (f.addBlockParam s ty).block s with
        paramRegs := ((f.addBlockParam s ty).block s).paramRegs ++ [reg] } ∧ u = s) := by
    unfold withParam
    simp only
    split
    · rw [Func.setBlock_block _ _ (.inl (by simpa [Func.addBlockParam] using hsn))]
      by_cases hu : u = s <;> simp [hu]
    · exact .inl rfl
  rcases hblock with h | ⟨h, rfl⟩
  · rw [h, hadd]
    by_cases hu : u = s
    · subst hu
      simp
    · simp [hu]
  · rw [h, hadd]
    simp

theorem withParam_fields (s : BlockId) (ty : Ty) (reg : Nat) (f : Func) :
    (withParam s ty reg f).values =
        f.values ++ [⟨ty, .param s (f.block s).params.length⟩] ∧
      (withParam s ty reg f).entry = f.entry ∧ (withParam s ty reg f).frames = f.frames ∧
      (withParam s ty reg f).paramClasses = f.paramClasses ∧
      (withParam s ty reg f).osrEntries = f.osrEntries ∧
      (withParam s ty reg f).blocks.length = f.blocks.length ∧
      (withParam s ty reg f).insts = f.insts := by
  unfold withParam
  simp only
  split <;> exact ⟨rfl, rfl, rfl, rfl, rfl, by simp [Func.addBlockParam], rfl⟩

/-- What the move leaves, where no block has two edges to `s`. -/
theorem moveParam_moved {f : Func} {s : BlockId} {ds : List BlockId} {x : ValueId} (reg : Nat)
    (hs : f.Ssa) (hsn : s < f.blocks.length) (hds : ∀ u ∈ ds, u < f.blocks.length)
    (hn : (f.preds s).Nodup) (hx : x < f.values.length) :
    Moved f (moveParam s ds x reg f) s x f.values.length ds := by
  have hne : f.values.length ≠ x := (Nat.ne_of_lt hx).symm
  obtain ⟨v1, e1, f1, c1, o1, l1, i1⟩ := withParam_fields s (f.ty x) reg f
  have hb1 := withParam_block (f := f) (f.ty x) reg hsn
  generalize hg : withParam s (f.ty x) reg f = g at *
  have hpreds : g.preds s = f.preds s :=
    preds_congr l1 (fun u => by rw [Func.succs, Func.succs, (hb1 u).2.2]) s
  obtain ⟨v2, e2, f2, c2, o2, l2, i2, b2⟩ := push_fold s x (g.preds s) (hpreds ▸ hn) g
    fun u hu => by
      rw [hpreds] at hu
      rw [l1]
      by_contra hge
      have hedge := Func.mem_preds.mp hu
      rw [Func.Edge, Func.succs_of_le (Nat.le_of_not_lt hge)] at hedge
      cases hedge
  generalize hp : (g.preds s).foldl (fun f p => f.setTerm p ((f.block p).term.pushArg s x)) g = p
    at *
  obtain ⟨v3, e3, f3, c3, o3, l3, b3, i3⟩ := rename_fold hne ds p fun u hu => by
    rw [l2, l1]
    exact hds u hu
  have hlen3 := length_rename_fold x f.values.length ds p
  have hterm : ∀ u, (p.block u).term = (f.block u).term.pushArg s x := by
    intro u
    rw [b2]
    split
    · rw [(hb1 u).2.2]
    · rename_i hu
      rw [(hb1 u).2.2, pushArg_of_not_mem]
      intro hsucc
      exact hu (hpreds ▸ Func.mem_preds.mpr hsucc)
  have hinsts : ∀ u, (p.block u).insts = (f.block u).insts := by
    intro u
    rw [b2]
    split <;> exact (hb1 u).2.1
  have hparams : ∀ u, (p.block u).params =
      if u = s then (f.block u).params ++ [f.values.length] else (f.block u).params := by
    intro u
    rw [b2]
    split <;> exact (hb1 u).1
  have hunfold : moveParam s ds x reg f =
      ds.foldl (fun g u => renameInBlock g u x f.values.length) p := by
    rw [← hp, ← hg]
    rfl
  rw [hunfold]
  refine ⟨e3.trans (e2.trans e1), f3.trans (f2.trans f1), c3.trans (c2.trans c1),
    o3.trans (o2.trans o1), l3.trans (l2.trans l1), ?_, ⟨_, v3.trans (v2.trans v1)⟩, rfl,
    fun u => ?_, fun u => ?_, fun u i hi => ?_, fun u => ?_⟩
  · rw [hlen3, i2, i1]
  · rw [b3, ← hparams]
    split <;> rfl
  · rw [b3, ← hinsts]
    split <;> rfl
  · have hiff : (∃ c ∈ ds, i ∈ (p.block c).insts) ↔ u ∈ ds := by
      constructor
      · rintro ⟨c, hc, hic⟩
        rw [hinsts] at hic
        obtain ⟨j, hj⟩ := List.mem_iff_getElem?.mp hi
        obtain ⟨k, hk⟩ := List.mem_iff_getElem?.mp hic
        exact (hs.place hj hk).1 ▸ hc
      · exact fun hu => ⟨u, hu, by rwa [hinsts]⟩
    have hpi : p.inst i = f.inst i := by rw [Func.inst, i2, i1, Func.inst]
    rw [i3, hpi, nameIn]
    by_cases hu : u ∈ ds
    · rw [if_pos (hiff.mpr hu), if_pos hu]
    · rw [if_neg (fun h => hu (hiff.mp h)), if_neg hu, Inst.mapUses_id]
      rfl
  · rw [b3, ← hterm, nameIn]
    by_cases hu : u ∈ ds
    · rw [if_pos hu, if_pos hu]
      rfl
    · rw [if_neg hu, if_neg hu, Terminator.mapUses_id]
      rfl

namespace Moved

variable {f f' : Func} {s b : BlockId} {x fresh : ValueId} {ds : List BlockId}

theorem code (h : Moved f f' s x fresh ds) (u : BlockId) :
    f'.code u = (f.code u).map (Inst.mapUses (nameIn ds x fresh u)) := by
  simp only [Func.code, h.insts, List.map_map]
  exact List.map_congr_left fun i hi => h.inst u i hi

theorem succs (h : Moved f f' s x fresh ds) (u : BlockId) : f'.succs u = f.succs u := by
  rw [Func.succs, h.term, Terminator.mapUses_successors, pushArg_successors, Func.succs]

theorem edge (h : Moved f f' s x fresh ds) : f'.Edge = f.Edge := by
  funext u v
  rw [Func.Edge, h.succs, Func.Edge]

theorem reachable (h : Moved f f' s x fresh ds) (u : BlockId) : f'.Reachable u ↔ f.Reachable u := by
  rw [Func.Reachable, h.edge, h.entry, Func.Reachable]

theorem dom (h : Moved f f' s x fresh ds) (a u : BlockId) : f'.Dom a u ↔ f.Dom a u := by
  rw [Func.Dom, h.edge, h.entry, Func.Dom]

theorem before (h : Moved f f' s x fresh ds) {d u : BlockId} {i j : Nat} :
    f'.Before d i u j ↔ f.Before d i u j := by
  rw [Func.Before, Func.Before, h.dom]

theorem defines (h : Moved f f' s x fresh ds) {v : ValueId} {d : BlockId} {i : Nat} :
    f'.Defines v d i ↔ f.Defines v d i ∨ (v = fresh ∧ d = s ∧ i = 0) := by
  rw [Func.Defines, Func.Defines, Func.mem_blockDefs, Func.mem_blockDefs, h.params, h.code]
  simp only [true_and, List.getElem?_map, Option.map_eq_some_iff]
  constructor
  · rintro (⟨rfl, hp⟩ | ⟨j, inst, rfl, ⟨inst', hj, rfl⟩, hr⟩)
    · by_cases hd : d = s
      · rw [if_pos hd, List.mem_append, List.mem_singleton] at hp
        exact hp.imp (fun hp => .inl ⟨rfl, hp⟩) fun hv => ⟨hv, hd, rfl⟩
      · rw [if_neg hd] at hp
        exact .inl (.inl ⟨rfl, hp⟩)
    · exact .inl (.inr ⟨j, inst', rfl, hj, hr⟩)
  · rintro ((⟨rfl, hp⟩ | ⟨j, inst, rfl, hj, hr⟩) | ⟨rfl, rfl, rfl⟩)
    · refine .inl ⟨rfl, ?_⟩
      split
      · exact List.mem_append_left _ hp
      · exact hp
    · exact .inr ⟨j, _, rfl, ⟨inst, hj, rfl⟩, hr⟩
    · exact .inl ⟨rfl, by simp⟩

theorem inScope (h : Moved f f' s x fresh ds) {v : ValueId} {u : BlockId} {j : Nat}
    (hv : f.InScope v u j) : f'.InScope v u j := by
  obtain ⟨d, i, hdef, hbef⟩ := hv
  exact ⟨d, i, h.defines.mpr (.inl hdef), h.before.mpr hbef⟩

theorem ty_old (h : Moved f f' s x fresh ds) {v : ValueId} (hv : v < f.values.length) :
    f'.ty v = f.ty v := by
  obtain ⟨k, hvals⟩ := h.values
  simp [Func.ty, hvals, List.getD_eq_getElem?_getD, List.getElem?_append_left hv]

theorem ty_fresh (h : Moved f f' s x fresh ds) : f'.ty fresh = f.ty x := by
  obtain ⟨k, hvals⟩ := h.values
  simp [Func.ty, hvals, h.name]

theorem ty_name (h : Moved f f' s x fresh ds) {u : BlockId} {v : ValueId}
    (hv : v < f.values.length) : f'.ty (nameIn ds x fresh u v) = f.ty v := by
  unfold nameIn
  split
  · by_cases hvx : v = x
    · rw [swap, if_pos hvx, h.ty_fresh, hvx]
    · rw [swap_of_ne hvx, h.ty_old hv]
  · exact h.ty_old hv

theorem ssa (h : Moved f f' s x fresh ds) (hs : f.Ssa) : f'.Ssa := by
  have hnew : ∀ {d i}, ¬ f.Defines fresh d i := fun hd => by
    have := hs.lt hd
    rw [h.name] at this
    exact Nat.lt_irrefl _ this
  obtain ⟨k, hvals⟩ := h.values
  have hold : ∀ {v : ValueId} {data}, f.values[v]? = some data → f'.values[v]? = some data := by
    intro v data hv
    rw [hvals, List.getElem?_append_left (List.getElem?_eq_some_iff.mp hv).1, hv]
  refine ⟨fun {v d d' i i'} hd hd' => ?_, fun u => ?_, fun {d u i j id} hd hu => ?_,
    fun u p hp => ?_, fun u i hi r hr => ?_⟩
  · rcases h.defines.mp hd with hd | ⟨hv, rfl, rfl⟩ <;>
      rcases h.defines.mp hd' with hd' | ⟨hv', rfl, rfl⟩
    · exact hs.unique hd hd'
    · exact absurd (hv' ▸ hd) hnew
    · exact absurd (hv ▸ hd') hnew
    · exact ⟨rfl, rfl⟩
  · rw [h.params]
    split
    · refine List.nodup_append.mpr ⟨hs.params u, List.nodup_singleton _, ?_⟩
      rintro p hp q hq rfl
      rw [List.mem_singleton] at hq
      exact hnew (hq ▸ Func.Defines.param hp)
    · exact hs.params u
  · rw [h.insts] at hd hu
    exact hs.place hd hu
  · rw [h.params] at hp
    split at hp
    · rename_i hu
      rcases List.mem_append.mp hp with hp | hp
      · obtain ⟨ty, k', hv⟩ := hs.param u p hp
        exact ⟨ty, k', hold hv⟩
      · rw [List.mem_singleton] at hp
        exact ⟨f.ty x, k, by simp [hvals, hp, h.name, hu]⟩
    · obtain ⟨ty, k', hv⟩ := hs.param u p hp
      exact ⟨ty, k', hold hv⟩
  · rw [h.insts] at hi
    rw [h.inst u i hi] at hr
    obtain ⟨ty, hv⟩ := hs.inst u i hi r hr
    exact ⟨ty, hold hv⟩

/-- What a move takes for granted: `x` is a parameter of a block that dominates
the new one, and is renamed where that one dominates. -/
structure Placed (f : Func) (b s : BlockId) (x : ValueId) (ds : List BlockId) : Prop where
  param : x ∈ (f.block b).params
  ne : b ≠ s
  dom : f.Dom b s
  reachable : f.Reachable s
  within : ∀ u, u ∈ ds ↔ f.Reachable u ∧ f.Dom s u

theorem use (h : Moved f f' s x fresh ds) (hp : Placed f b s x ds) {u : BlockId} {j : Nat}
    {v : ValueId} (hv : f.InScope v u j) : f'.InScope (nameIn ds x fresh u v) u j := by
  unfold nameIn
  split
  · rename_i hu
    by_cases hvx : v = x
    · rw [swap, if_pos hvx]
      refine ⟨s, 0, h.defines.mpr (.inr ⟨rfl, rfl, rfl⟩), h.before.mpr ?_⟩
      by_cases hsu : s = u
      · exact .inl ⟨hsu, Nat.zero_le j⟩
      · exact .inr ⟨hsu, ((hp.within u).mp hu).2⟩
    · rw [swap_of_ne hvx]
      exact h.inScope hv
  · exact h.inScope hv

/-- Every block with an edge to `s` has `x` in scope at its end. -/
theorem Placed.scope (hp : Placed f b s x ds) {u : BlockId} (he : f.Edge u s) :
    f.InScope x u (f.code u).length := by
  refine ⟨b, 0, .param hp.param, ?_⟩
  by_cases hbu : b = u
  · exact .inl ⟨hbu, Nat.zero_le _⟩
  · exact .inr ⟨hbu, Graph.Dom.pred hp.dom he hp.ne⟩

theorem InScope.lt (hs : f.Ssa) {v : ValueId} {u : BlockId} {j : Nat} (hv : f.InScope v u j) :
    v < f.values.length := by
  obtain ⟨d, i, hdef, _⟩ := hv
  exact hs.lt hdef

theorem valid (h : Moved f f' s x fresh ds) (hp : Placed f b s x ds) (hs : f.Ssa)
    (hv : f.Valid) : f'.Valid := by
  refine ⟨⟨?_, fun u t ht => ?_, fun u i hi => ?_⟩, fun u hr => ?_, fun u hr j inst hj v hu => ?_,
    fun u hr v hu => ?_, fun u hr e he => ?_⟩
  · rw [h.entry, h.length]
    exact hv.entry
  · rw [h.succs] at ht
    rw [h.length]
    exact hv.succs u t ht
  · rw [h.insts] at hi
    rw [h.instCount]
    exact hv.insts u i hi
  · rw [h.reachable] at hr
    have := hv.term u hr
    rw [h.term]
    cases ht : (f.block u).term with
    | jump target args => by_cases he : target = s <;> simp [Terminator.pushArg, Terminator.mapUses, he]
    | unset => exact absurd ht this
    | _ => simp [Terminator.pushArg, Terminator.mapUses]
  · rw [h.reachable] at hr
    rw [h.code, List.getElem?_map, Option.map_eq_some_iff] at hj
    obtain ⟨inst', hj, rfl⟩ := hj
    rw [Inst.mapUses_uses] at hu
    obtain ⟨v', hv', rfl⟩ := List.mem_map.mp hu
    exact h.use hp (hv.uses u hr j inst' hj v' hv')
  · rw [h.reachable] at hr
    rw [h.term, Terminator.mapUses_uses] at hu
    obtain ⟨v', hv', rfl⟩ := List.mem_map.mp hu
    have hlen : (f'.code u).length = (f.code u).length := by simp [h.code]
    rw [hlen]
    rcases mem_pushArg_uses hv' with hv' | ⟨rfl, he⟩
    · exact h.use hp (hv.termUses u hr v' hv')
    · exact h.use hp (hp.scope he)
  · rw [h.reachable] at hr
    rw [h.term, Terminator.mapUses_edges, pushArg_edges] at he
    simp only [List.map_map, List.mem_map, Function.comp_apply] at he
    obtain ⟨⟨c, args⟩, hmem, rfl⟩ := he
    obtain ⟨hlen, hty⟩ := hv.edges u hr (c, args) hmem
    have hargs : ∀ a ∈ args, a < f.values.length := fun a ha =>
      InScope.lt hs (hv.termUses u hr a (Terminator.edges_uses hmem ha))
    have hparams : ∀ p ∈ (f.block c).params, p < f.values.length := fun p hpp =>
      hs.lt (.param hpp)
    have hname : ∀ e ∈ (args.map (nameIn ds x fresh u)).zip (f.block c).params,
        f'.ty e.1 = f'.ty e.2 := by
      intro e he
      rw [List.zip_map_left] at he
      obtain ⟨e', he', rfl⟩ := List.mem_map.mp he
      have := hty e' he'
      simp only [Prod.map_fst, Prod.map_snd, id_eq]
      rw [h.ty_name (hargs _ (List.of_mem_zip he').1), h.ty_old (hparams _ (List.of_mem_zip he').2)]
      exact this
    simp only [Func.Fits, h.params] at hlen ⊢
    by_cases hc : c = s
    · subst hc
      have hxl : x < f.values.length := hs.lt (.param hp.param)
      simp only [if_true, List.map_append, List.map_cons, List.map_nil, List.length_append,
        List.length_map, List.length_singleton, hlen, true_and]
      intro e he
      rw [List.zip_append (by simp [hlen])] at he
      rcases List.mem_append.mp he with he | he
      · exact hname e he
      · simp only [List.zip_cons_cons, List.zip_nil_right, List.mem_singleton] at he
        subst he
        simp only [h.ty_name hxl, h.ty_fresh]
    · simp only [hc, if_false, List.length_map, hlen, true_and]
      exact hname

variable {M : Machine} {w₀ : World M.Rest}

/-- Both runs hold the same in every old value, and the new one holds what `x` does where it is
used. -/
def Agree (x fresh : ValueId) (ds : List BlockId) (u : BlockId) (env env' : Env) : Prop :=
  (∀ v, ¬ v = fresh → env' v = env v) ∧ (u ∈ ds → env' fresh = env x)

theorem ne_fresh (h : Moved f f' s x fresh ds) (hs : f.Ssa) {v : ValueId} {u : BlockId} {j : Nat}
    (hv : f.InScope v u j) : v ≠ fresh := by
  rw [h.name]
  exact Nat.ne_of_lt (InScope.lt hs hv)

theorem agree_use (h : Moved f f' s x fresh ds) (hs : f.Ssa) {u : BlockId} {j : Nat}
    {env env' : Env} (ha : Agree x fresh ds u env env') {v : ValueId} (hv : f.InScope v u j) :
    env' (nameIn ds x fresh u v) = env v := by
  have hold := ha.1 v (h.ne_fresh hs hv)
  unfold nameIn
  split
  · rename_i hu
    by_cases hvx : v = x
    · rw [swap, if_pos hvx, ha.2 hu, hvx]
    · rw [swap_of_ne hvx, hold]
  · exact hold

/-- The parameter that is moved belongs to its block alone. -/
theorem Placed.not_mem (hp : Placed f b s x ds) (hs : f.Ssa) {c : BlockId} (hne : b ≠ c) :
    x ∉ (f.block c).params :=
  fun hx => hne (hs.unique (.param hp.param) (.param hx)).1

theorem enter_agree (h : Moved f f' s x fresh ds) (hp : Placed f b s x ds) (hs : f.Ssa)
    (hv : f.Valid) {u : BlockId} (hr : f.Reachable u) {env env' : Env}
    (ha : Agree x fresh ds u env env') {e : BlockId × List ValueId}
    (he : e ∈ (f.block u).term.edges) :
    Agree x fresh ds e.1 (env.enter (f.block e.1).params (e.2.map env))
      (env'.enter (f'.block e.1).params
        (((if e.1 = s then e.2 ++ [x] else e.2).map (nameIn ds x fresh u)).map env')) := by
  have hedge : f.Edge u e.1 := Func.mem_edges_succs he
  have hargs : (e.2.map (nameIn ds x fresh u)).map env' = e.2.map env := by
    rw [List.map_map]
    exact List.map_congr_left fun a hmem =>
      h.agree_use hs ha (hv.termUses u hr a (Terminator.edges_uses he hmem))
  have hold := Env.enter_agree ha.1 (f.block e.1).params (e.2.map env)
  have hfresh : fresh ∉ (f.block e.1).params := fun hmem => by
    have := hs.lt (Func.Defines.param hmem)
    rw [h.name] at this
    exact Nat.lt_irrefl _ this
  rw [h.params]
  by_cases hes : e.1 = s
  · rw [if_pos hes, if_pos hes, List.map_append, List.map_append, hargs, List.map_singleton,
      List.map_singleton, h.agree_use hs ha (hp.scope (hes ▸ hedge)),
      Env.enter_append _ _ _ (by rw [List.length_map]; exact (hv.edges u hr e he).1)]
    refine ⟨fun v hne => ?_, fun _ => ?_⟩
    · rw [Function.update_of_ne hne]
      exact hold v hne
    · rw [Function.update_self,
        Env.enter_of_not_mem _ _ _ (hp.not_mem hs fun hb => hp.ne (hb.trans hes))]
  · rw [if_neg hes, if_neg hes, hargs]
    refine ⟨hold, fun hds => ?_⟩
    obtain ⟨-, hdom⟩ := (hp.within e.1).mp hds
    have hu : u ∈ ds := (hp.within u).mpr ⟨hr, Graph.Dom.pred hdom hedge (Ne.symm hes)⟩
    -- Control comes back to the owner only through a block it dominates.
    have hbe : b ≠ e.1 := fun hbe =>
      hp.ne (Graph.Dom.antisymm hp.dom (hbe ▸ hdom) hp.reachable)
    rw [Env.enter_of_not_mem _ _ _ hfresh, Env.enter_of_not_mem _ _ _ (hp.not_mem hs hbe),
      ha.2 hu]

theorem renames (h : Moved f f' s x fresh ds) (hp : Placed f b s x ds) (hs : f.Ssa)
    (hv : f.Valid) : Renames f f' w₀ (nameIn ds x fresh) (Agree x fresh ds) where
  frames := h.frames
  paramClasses := h.paramClasses
  code u _ := h.code u
  use u j inst env env' w hat ha hj v hmem :=
    h.agree_use hs ha (hv.uses u hat.reachable j inst hj v hmem)
  define u j inst env env' val _ hj ha := by
    refine ⟨Env.define_agree ha.1 inst.result val, fun hu => ?_⟩
    have hx : inst.result ≠ some x := fun hres =>
      absurd (hs.unique (.param hp.param) (.inst hj hres)).2 (by omega)
    have hf : inst.result ≠ some fresh := fun hres => by
      have := hs.lt (.inst hj hres)
      rw [h.name] at this
      exact Nat.lt_irrefl _ this
    rw [Env.define_of_ne _ _ hx, Env.define_of_ne _ _ hf, ha.2 hu]
  ends u env env' w hat ha hnext := by
    rw [h.term, pushArg_of_next s x hnext]
    exact ⟨rfl, fun v hmem => h.agree_use hs ha (hv.termUses u hat.reachable v hmem)⟩
  goes u env env' w seen k e hat ha hnext he := by
    have huse : ∀ v ∈ ((f.block u).term.pushArg s x).uses,
        env' (nameIn ds x fresh u v) = env v := by
      intro v hmem
      rcases mem_pushArg_uses hmem with hmem | ⟨rfl, hsucc⟩
      · exact h.agree_use hs ha (hv.termUses u hat.reachable v hmem)
      · exact h.agree_use hs ha (hp.scope hsucc)
    rw [h.term]
    refine ⟨_, (Terminator.next_mapUses huse).trans ((pushArg_next _ s x env).trans hnext), ?_,
      h.enter_agree hp hs hv hat.reachable ha (List.mem_of_getElem? he)⟩
    rw [Terminator.mapUses_edges, pushArg_edges, List.map_map, List.getElem?_map, he]
    rfl

theorem start (h : Moved f f' s x fresh ds) :
    Agree x fresh ds f.entry (f.start w₀).env (f'.start w₀).env := by
  refine ⟨fun v hne => congrArg initialOf ?_, fun _ => congrArg initialOf h.ty_fresh⟩
  by_cases hlt : v < f.values.length
  · exact h.ty_old hlt
  · obtain ⟨k, hvals⟩ := h.values
    have hle : f.values.length ≤ v := Nat.le_of_not_lt hlt
    have hgt : f.values.length < v :=
      Nat.lt_of_le_of_ne hle fun he => hne (he.symm.trans h.name.symm)
    simp only [Func.ty, hvals, List.getD_eq_getElem?_getD]
    rw [List.getElem?_eq_none (by simpa using Nat.succ_le_of_lt hgt), List.getElem?_eq_none hle]

theorem placed (h : Moved f f' s x fresh ds) {y : ValueId} (hp : Placed f b s y ds) :
    Placed f' b s y ds where
  param := by
    rw [h.params, if_neg hp.ne]
    exact hp.param
  ne := hp.ne
  dom := (h.dom b s).mpr hp.dom
  reachable := (h.reachable s).mpr hp.reachable
  within u := by rw [h.reachable, h.dom, hp.within]

end Moved

/-- One parameter after the other, as an edge is sent past their block. -/
theorem moves_keep {b s : BlockId} {ds : List BlockId} (params : List ValueId) (regs : List Nat)
    (js : List Nat) {f : Func} (hs : f.Ssa) (hv : f.Valid) (hn : (f.preds s).Nodup)
    (hp : ∀ j ∈ js, Moved.Placed f b s (params.getD j 0) ds) :
    let g := js.foldl (fun f j => moveParam s ds (params.getD j 0) (regs.getD j 0) f) f
    g.Ssa ∧ g.Valid ∧ ∀ (M : Machine) (w₀ : World M.Rest) (n : Nat),
      observe f.step n (f.start w₀) = observe g.step n (g.start w₀) := by
  induction js generalizing f with
  | nil => exact ⟨hs, hv, fun _ _ _ => rfl⟩
  | cons j js ih =>
      have hj := hp j List.mem_cons_self
      have h := moveParam_moved (regs.getD j 0) hs (hj.reachable.lt hv.toInBounds)
        (fun u hu => ((hj.within u).mp hu).1.lt hv.toInBounds) hn (hs.lt (.param hj.param))
      obtain ⟨hs', hv', hrest⟩ := ih (h.ssa hs) (h.valid hj hs hv)
        ((preds_congr h.length h.succs s).symm ▸ hn)
        fun k hk => h.placed (hp k (List.mem_cons_of_mem _ hk))
      exact ⟨hs', hv', fun M w₀ n =>
        ((h.renames hj hs hv).observe_eq h.entry h.start n).trans (hrest M w₀ n)⟩

/-- Making parameters of a block parameters of one it dominates keeps a function that the check
accepts and that shows the same. -/
theorem moveParams_keep {f : Func} {b s : BlockId} {moved : List Nat} (hs : f.Ssa)
    (hverify : f.verify = .ok ()) (hmoved : ∀ j ∈ moved, j < (f.block b).params.length)
    (hne : b ≠ s) (hr : f.Reachable s) (hn : (f.preds s).Nodup)
    (hdom : dominates (f.dominators f.reversePostorder) b s = true) :
    let dominated := f.reversePostorder.filter (dominates (f.dominators f.reversePostorder) s)
    let g := moved.foldl (fun g j => moveParam s dominated ((f.block b).params.getD j 0)
      ((f.block b).paramRegs.getD j 0) g) f
    g.Ssa ∧ g.verify = .ok () ∧ ∀ (M : Machine) (w₀ : World M.Rest) (n : Nat),
      observe f.step n (f.start w₀) = observe g.step n (g.start w₀) := by
  intro dominated g
  have hv := hs.verify_iff.mp hverify
  have hb := hv.toInBounds
  have hplaced : ∀ j ∈ moved, Moved.Placed f b s ((f.block b).params.getD j 0) dominated := by
    intro j hj
    have hx : (f.block b).params.getD j 0 ∈ (f.block b).params := by
      rw [List.getD_eq_getElem _ _ (hmoved j hj)]
      exact List.getElem_mem _
    have hbn : b ≠ f.blocks.length := by
      rintro rfl
      rw [Func.block_of_le (Nat.le_refl _)] at hx
      cases hx
    refine ⟨hx, hne, (Func.dominates_iff hb hbn hr).mp hdom, hr, fun u => ?_⟩
    rw [List.mem_filter, Func.mem_reversePostorder hb]
    exact and_congr_right fun hu => Func.dominates_iff hb (Nat.ne_of_lt (hr.lt hb)) hu
  obtain ⟨hssa, hvalid, hsame⟩ := moves_keep (f.block b).params (f.block b).paramRegs moved
    hs hv hn hplaced
  exact ⟨hssa, hssa.verify_iff.mpr hvalid, hsame⟩

/-- A block that uses the parameter of the block before it. -/
def passing : Func where
  blocks := [
    ⟨[], [], [], [0], .jump 1 [0], some 0, 0⟩,
    ⟨[1], [4], [], [], .jump 2 [], none, 0⟩,
    ⟨[], [], [], [], .ret 1, none, 0⟩]
  insts := [⟨.constTagged 0, [], some 0, none⟩]
  values := [⟨.tagged, .inst 0⟩, ⟨.tagged, .param 1 0⟩]
  entry := 0
  osrEntries := []
  frames := [⟨0, 0⟩]
  paramClasses _ _ := []

theorem passing_keep : (moveParam 2 [2] 1 4 passing).verify = .ok () ∧
    ∀ (M : Machine) (w₀ : World M.Rest) (n : Nat),
      observe passing.step n (passing.start w₀) =
        observe (moveParam 2 [2] 1 4 passing).step n ((moveParam 2 [2] 1 4 passing).start w₀) := by
  have hmoved : ∀ j ∈ [0], j < (passing.block 1).params.length := by decide
  have hr : passing.Reachable 2 := by
    refine .step (u := 1) (.step (u := 0) .root ?_) ?_ <;> exact List.mem_of_elem_eq_true rfl
  exact (moveParams_keep (Func.ssa_of_check rfl) rfl hmoved (by decide) hr (by decide) rfl).2

end Thread

end Zuri.Jit.Ir
