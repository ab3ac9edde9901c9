import Zuri.Jit.Ir.Cfg
import Mathlib.Data.List.Nodup
import Mathlib.Data.List.Pairwise

/-!
The structural rules every pass relies on, and the check of them.

`verify` looks each value up in a table of definitions it makes in block order,
so it takes for granted that a value is defined once; that is what `Ssa` says,
and what the operations functions are built with keep. For such functions the
check is exactly `Valid`: every use comes after its definition on every path,
and every edge passes what its target takes.
-/

namespace Zuri.Jit.Ir

/-- How a type is written in a message. -/
def nameOf : Ty → String
  | .tagged => "Tagged"
  | .f64 => "F64"
  | .i64 => "I64"
  | .bool => "Bool"
  | .ptr => "Ptr"

/-- The values an instruction uses: its operands, then those of its state. -/
def Inst.uses (inst : Inst) : List ValueId :=
  inst.args ++ ((inst.state.map fun s => s.regs.map Prod.snd).getD [])

namespace Func

variable (f : Func)

/-- A block's definitions with their positions: its parameters at 0, then the
result of each instruction one past it. -/
def blockDefs (b : BlockId) : List (ValueId × BlockId × Nat) :=
  ((f.block b).params.map fun p => (p, b, 0)) ++
    (f.code b).zipIdx.filterMap fun e => e.1.result.map fun r => (r, b, e.2 + 1)

/-- Every definition, in block order. -/
def defs : List (ValueId × BlockId × Nat) :=
  (List.range f.blocks.length).flatMap f.blockDefs

/-- The block `verify` takes a value to be defined in: the last that does. -/
def defBlock (v : ValueId) : Option BlockId :=
  (f.defs.map fun d => (d.1, d.2.1)).reverse.lookup v

def defPos (v : ValueId) : Nat :=
  (((f.defs.filter fun d => d.2.2 ≠ 0).map fun d => (d.1, d.2.2)).reverse.lookup v).getD 0

def inBounds : Bool :=
  f.entry < f.blocks.length &&
    f.blocks.all fun b =>
      b.term.successors.all (· < f.blocks.length) && b.insts.all (· < f.insts.length)

def checkUse (doms : List (BlockId × BlockId)) (user : BlockId) (pos : Nat) (v : ValueId) :
    Except String Unit :=
  match f.defBlock v with
  | none => .error s!"v{v} used in b{user} but never defined"
  | some db =>
      if db = user then
        if pos < f.defPos v then
          .error s!"v{v} used in b{user} before its definition"
        else .ok ()
      else if dominates doms db user then .ok ()
      else .error s!"v{v} defined in b{db} does not dominate its use in b{user}"

def checkEdge (order : List BlockId) (b : BlockId) (edge : BlockId × List ValueId) :
    Except String Unit := do
  let params := (f.block edge.1).params
  let target := edge.1
  let given := edge.2.length
  let taken := params.length
  if edge.1 ∉ order then .error s!"b{b} jumps to unreachable b{target}"
  else if taken ≠ given then
    .error s!"b{b} passes {given} values to b{target}, which takes {taken}"
  else
    (edge.2.zip params).forM fun e =>
      if f.ty e.1 = f.ty e.2 then .ok ()
      else
        let a := e.1
        let p := e.2
        let aTy := nameOf (f.ty e.1)
        let pTy := nameOf (f.ty e.2)
        .error s!"b{b} passes v{a} ({aTy}) to b{target}'s v{p} ({pTy})"

def checkBlock (order : List BlockId) (doms : List (BlockId × BlockId)) (b : BlockId) :
    Except String Unit := do
  if (f.block b).term = .unset then .error s!"b{b} has no terminator"
  (f.code b).zipIdx.forM fun e => e.1.uses.forM fun v => f.checkUse doms b e.2 v
  (f.block b).term.uses.forM fun v => f.checkUse doms b (f.code b).length v
  (f.block b).term.edges.forM fun e => f.checkEdge order b e

/-- Checks the structural rules and returns the first one broken. An index past
the end of a table stops the check as it stops the program. -/
def verify : Except String Unit :=
  if f.inBounds then
    let order := f.reversePostorder
    let doms := f.dominators order
    order.forM fun b => f.checkBlock order doms b
  else .error "index out of bounds"

/-- `v` is defined in block `d` at position `i`. -/
def Defines (v : ValueId) (d : BlockId) (i : Nat) : Prop := (v, d, i) ∈ f.blockDefs d

/-- Position `(d, i)` is passed on every path to position `(b, j)`. -/
def Before (d : BlockId) (i : Nat) (b : BlockId) (j : Nat) : Prop :=
  (d = b ∧ i ≤ j) ∨ (d ≠ b ∧ f.Dom d b)

/-- `v` has its definition behind it at position `(b, j)`. -/
def InScope (v : ValueId) (b : BlockId) (j : Nat) : Prop :=
  ∃ d i, f.Defines v d i ∧ f.Before d i b j

/-- Values are defined once, instructions are in one place, and each value's
data names its definition. -/
structure Ssa : Prop where
  unique : ∀ {v d d' i i'}, f.Defines v d i → f.Defines v d' i' → d = d' ∧ i = i'
  params : ∀ b, (f.block b).params.Nodup
  place : ∀ {d b : BlockId} {i j : Nat} {id : InstId}, (f.block d).insts[i]? = some id →
    (f.block b).insts[j]? = some id → d = b ∧ i = j
  param : ∀ b, ∀ p ∈ (f.block b).params, ∃ ty k, f.values[p]? = some ⟨ty, .param b k⟩
  inst : ∀ b, ∀ i ∈ (f.block b).insts, ∀ r ∈ (f.inst i).result,
    ∃ ty, f.values[r]? = some ⟨ty, .inst i⟩

/-- An edge passes as many values as its target takes, of the right types. -/
def Fits (edge : BlockId × List ValueId) : Prop :=
  edge.2.length = (f.block edge.1).params.length ∧
    ∀ e ∈ edge.2.zip (f.block edge.1).params, f.ty e.1 = f.ty e.2

structure Valid : Prop extends f.InBounds where
  term : ∀ b, f.Reachable b → (f.block b).term ≠ .unset
  uses : ∀ b, f.Reachable b → ∀ j inst, (f.code b)[j]? = some inst →
    ∀ v ∈ inst.uses, f.InScope v b j
  termUses : ∀ b, f.Reachable b → ∀ v ∈ (f.block b).term.uses, f.InScope v b (f.code b).length
  edges : ∀ b, f.Reachable b → ∀ e ∈ (f.block b).term.edges, f.Fits e

variable {f}

theorem inBounds_iff : f.inBounds = true ↔ f.InBounds := by
  simp only [inBounds, Bool.and_eq_true, decide_eq_true_eq, List.all_eq_true]
  constructor
  · rintro ⟨he, hall⟩
    have hblock : ∀ b, f.block b = noBlock ∨ f.block b ∈ f.blocks := by
      intro b
      by_cases hb : b < f.blocks.length
      · right
        simp [block, hb]
      · exact .inl (block_of_le (Nat.le_of_not_lt hb))
    refine ⟨he, fun b s hs => ?_, fun b i hi => ?_⟩
    · rcases hblock b with hb | hb
      · rw [succs, hb] at hs
        cases hs
      · exact (hall _ hb).1 s hs
    · rcases hblock b with hb | hb
      · rw [hb] at hi
        cases hi
      · exact (hall _ hb).2 i hi
  · rintro ⟨he, hs, hi⟩
    refine ⟨he, fun blk hblk => ?_⟩
    obtain ⟨b, hb, rfl⟩ := List.mem_iff_getElem.mp hblk
    have heq : f.block b = f.blocks[b] := by simp [block, hb]
    exact ⟨fun s h => hs b s (by rw [succs, heq]; exact h),
      fun i h => hi b i (by rw [heq]; exact h)⟩

theorem forM_ok {α : Type} {l : List α} {g : α → Except String Unit} :
    l.forM g = .ok () ↔ ∀ x ∈ l, g x = .ok () := by
  induction l with
  | nil => simp [pure, Except.pure]
  | cons x l ih =>
      change (do g x; l.forM g) = .ok () ↔ _
      cases hx : g x with
      | error e => simp [bind, Except.bind, hx]
      | ok u =>
          change l.forM g = .ok () ↔ _
          exact ih.trans (by simp [hx])

/-- What a block defines, read off its parameters and instructions. -/
theorem mem_blockDefs {v : ValueId} {b d : BlockId} {i : Nat} :
    (v, d, i) ∈ f.blockDefs b ↔ d = b ∧
      ((i = 0 ∧ v ∈ (f.block b).params) ∨
        ∃ j inst, i = j + 1 ∧ (f.code b)[j]? = some inst ∧ inst.result = some v) := by
  simp only [blockDefs, List.mem_append, List.mem_map, List.mem_filterMap, Prod.exists,
    Option.map_eq_some_iff, List.mk_mem_zipIdx_iff_getElem?, Prod.mk.injEq]
  constructor
  · rintro (⟨p, hp, rfl, rfl, rfl⟩ | ⟨inst, j, hj, r, hr, rfl, rfl, rfl⟩)
    · exact ⟨rfl, .inl ⟨rfl, hp⟩⟩
    · exact ⟨rfl, .inr ⟨j, inst, rfl, hj, hr⟩⟩
  · rintro ⟨rfl, ⟨rfl, hp⟩ | ⟨j, inst, rfl, hj, hr⟩⟩
    · exact .inl ⟨v, hp, rfl, rfl, rfl⟩
    · exact .inr ⟨inst, j, hj, v, hr, rfl, rfl, rfl⟩

theorem mem_defs {v : ValueId} {d : BlockId} {i : Nat} :
    (v, d, i) ∈ f.defs ↔ f.Defines v d i := by
  simp only [defs, List.mem_flatMap, List.mem_range, Defines]
  constructor
  · rintro ⟨b, _, hb⟩
    exact (mem_blockDefs.mp hb).1 ▸ hb
  · intro h
    refine ⟨d, ?_, h⟩
    by_contra hd
    have hnone := block_of_le (Nat.le_of_not_lt hd)
    rcases (mem_blockDefs.mp h).2 with ⟨_, hp⟩ | ⟨j, inst, _, hj, _⟩
    · rw [hnone] at hp
      cases hp
    · simp [code, hnone, noBlock] at hj

theorem Defines.param {v : ValueId} {b : BlockId} (h : v ∈ (f.block b).params) :
    f.Defines v b 0 := mem_blockDefs.mpr ⟨rfl, .inl ⟨rfl, h⟩⟩

theorem Defines.inst {v : ValueId} {b : BlockId} {j : Nat} {inst : Inst}
    (hj : (f.code b)[j]? = some inst) (hr : inst.result = some v) :
    f.Defines v b (j + 1) := mem_blockDefs.mpr ⟨rfl, .inr ⟨j, inst, rfl, hj, hr⟩⟩

/-- A defined value has its data. -/
theorem Ssa.lt (h : f.Ssa) {v : ValueId} {d : BlockId} {i : Nat} (hd : f.Defines v d i) :
    v < f.values.length := by
  have hsome : ∀ {data : ValueData}, f.values[v]? = some data → v < f.values.length :=
    fun hv => (List.getElem?_eq_some_iff.mp hv).1
  rcases (mem_blockDefs.mp hd).2 with ⟨_, hp⟩ | ⟨j, inst, _, hj, hr⟩
  · obtain ⟨ty, k, hv⟩ := h.param d v hp
    exact hsome hv
  · obtain ⟨id, hid, rfl⟩ := List.mem_map.mp (List.mem_of_getElem? hj)
    obtain ⟨ty, hv⟩ := h.inst d id hid v hr
    exact hsome hv

theorem mem_of_lookup {α β : Type} [BEq α] [LawfulBEq α] {l : List (α × β)} {a : α} {x : β}
    (h : l.lookup a = some x) : (a, x) ∈ l := by
  induction l with
  | nil => cases h
  | cons e l ih =>
      rw [List.lookup_cons] at h
      split at h
      · rename_i he
        cases h
        exact (eq_of_beq he) ▸ List.mem_cons_self
      · exact List.mem_cons_of_mem _ (ih h)

theorem lookup_of_mem {α β : Type} [BEq α] [LawfulBEq α] {l : List (α × β)} {a : α} {x : β}
    (h : (a, x) ∈ l) : ∃ y, l.lookup a = some y := by
  cases hl : l.lookup a with
  | some y => exact ⟨y, rfl⟩
  | none =>
      rw [List.lookup_eq_none_iff] at hl
      simpa using hl _ h

theorem defines_of_defBlock {v : ValueId} {d : BlockId} (h : f.defBlock v = some d) :
    ∃ i, f.Defines v d i := by
  have := mem_of_lookup h
  rw [List.mem_reverse, List.mem_map] at this
  obtain ⟨⟨v', d', i⟩, hmem, heq⟩ := this
  cases heq
  exact ⟨i, mem_defs.mp hmem⟩

theorem Ssa.defBlock_eq (h : f.Ssa) {v : ValueId} {d : BlockId} {i : Nat}
    (hd : f.Defines v d i) : f.defBlock v = some d := by
  obtain ⟨d', hl⟩ := lookup_of_mem (List.mem_reverse.mpr
    (List.mem_map_of_mem (f := fun d : ValueId × BlockId × Nat => (d.1, d.2.1)) (mem_defs.mpr hd)))
  obtain ⟨i', hd'⟩ := defines_of_defBlock hl
  rw [(h.unique hd hd').1]
  exact hl

theorem Ssa.defPos_eq (h : f.Ssa) {v : ValueId} {d : BlockId} {i : Nat}
    (hd : f.Defines v d i) : f.defPos v = i := by
  have hfound : ∀ k, (((f.defs.filter fun d => d.2.2 ≠ 0).map fun d => (d.1, d.2.2)).reverse.lookup
      v) = some k → k = i := by
    intro k hl
    have hk := mem_of_lookup hl
    rw [List.mem_reverse, List.mem_map] at hk
    obtain ⟨⟨v', d', i'⟩, hm, heq⟩ := hk
    cases heq
    exact (h.unique hd (mem_defs.mp (List.mem_filter.mp hm).1)).2.symm
  unfold defPos
  by_cases hi : i = 0
  · cases hl : (((f.defs.filter fun d => d.2.2 ≠ 0).map fun d => (d.1, d.2.2)).reverse.lookup v) with
    | none => exact hi.symm
    | some k => exact hfound k hl
  · have hmem : (v, d, i) ∈ f.defs.filter fun d => d.2.2 ≠ 0 :=
      List.mem_filter.mpr ⟨mem_defs.mpr hd, by simpa using hi⟩
    obtain ⟨k, hl⟩ := lookup_of_mem (List.mem_reverse.mpr
      (List.mem_map_of_mem (f := fun d : ValueId × BlockId × Nat => (d.1, d.2.2)) hmem))
    rw [hl]
    exact hfound k hl

theorem Defines.lt {v : ValueId} {d : BlockId} {i : Nat} (h : f.Defines v d i) :
    d < f.blocks.length := by
  have := mem_defs.mpr h
  simp only [defs, List.mem_flatMap, List.mem_range] at this
  obtain ⟨b, hb, hmem⟩ := this
  exact (mem_blockDefs.mp hmem).1 ▸ hb

theorem Ssa.checkUse_iff (h : f.Ssa) (hb : f.InBounds) {b : BlockId} (hr : f.Reachable b)
    {j : Nat} {v : ValueId} :
    f.checkUse (f.dominators f.reversePostorder) b j v = .ok () ↔ f.InScope v b j := by
  unfold checkUse
  cases hd : f.defBlock v with
  | none =>
      refine ⟨(nomatch ·), ?_⟩
      rintro ⟨d, i, hdef, _⟩
      rw [h.defBlock_eq hdef] at hd
      cases hd
  | some d =>
      obtain ⟨i, hdef⟩ := defines_of_defBlock hd
      have hpos := h.defPos_eq hdef
      have hiff : f.InScope v b j ↔ f.Before d i b j := by
        refine ⟨?_, fun hbef => ⟨d, i, hdef, hbef⟩⟩
        rintro ⟨d', i', hdef', hbef⟩
        obtain ⟨rfl, rfl⟩ := h.unique hdef hdef'
        exact hbef
      have hdom := dominates_iff hb (Nat.ne_of_lt hdef.lt) hr
      rw [hiff]
      simp only [hpos, Before]
      by_cases hdb : d = b
      · subst hdb
        by_cases hij : i ≤ j
        · simp [hij, Nat.not_lt.mpr hij]
        · simp [hij, Nat.lt_of_not_le hij]
      · by_cases hdm : f.Dom d b
        · simp [hdb, hdm, hdom.mpr hdm]
        · simp [hdb, hdm, mt hdom.mp hdm]

theorem checkEdge_iff {order : List BlockId} {b : BlockId} {e : BlockId × List ValueId}
    (ho : e.1 ∈ order) : f.checkEdge order b e = .ok () ↔ f.Fits e := by
  simp only [checkEdge, ho, not_true_eq_false, if_false, Fits]
  by_cases hlen : (f.block e.1).params.length = e.2.length
  · simp only [hlen, not_true_eq_false, ne_eq, if_false, true_and]
    rw [forM_ok]
    refine forall₂_congr fun x _ => ?_
    by_cases hx : f.ty x.1 = f.ty x.2 <;> simp [hx]
  · simp only [hlen, ne_eq, not_false_eq_true, if_true, Ne.symm hlen, false_and]
    exact ⟨(nomatch ·), (nomatch ·)⟩

theorem mem_edges_succs {b : BlockId} {e : BlockId × List ValueId}
    (h : e ∈ (f.block b).term.edges) : f.Edge b e.1 := by
  unfold Edge succs
  cases ht : (f.block b).term <;> rw [ht] at h <;>
    simp_all [Terminator.edges, Terminator.successors]
  rcases h with rfl | rfl <;> simp

theorem Ssa.checkBlock_iff (h : f.Ssa) (hb : f.InBounds) {b : BlockId} (hr : f.Reachable b) :
    f.checkBlock f.reversePostorder (f.dominators f.reversePostorder) b = .ok () ↔
      (f.block b).term ≠ .unset ∧
      (∀ j inst, (f.code b)[j]? = some inst → ∀ v ∈ inst.uses, f.InScope v b j) ∧
      (∀ v ∈ (f.block b).term.uses, f.InScope v b (f.code b).length) ∧
      ∀ e ∈ (f.block b).term.edges, f.Fits e := by
  have huses : ((f.code b).zipIdx.forM fun e => e.1.uses.forM fun v =>
      f.checkUse (f.dominators f.reversePostorder) b e.2 v) = .ok () ↔
      ∀ j inst, (f.code b)[j]? = some inst → ∀ v ∈ inst.uses, f.InScope v b j := by
    rw [forM_ok]
    simp only [forM_ok, h.checkUse_iff hb hr, Prod.forall, List.mk_mem_zipIdx_iff_getElem?]
    exact forall_comm
  have hterm : ((f.block b).term.uses.forM fun v =>
      f.checkUse (f.dominators f.reversePostorder) b (f.code b).length v) = .ok () ↔
      ∀ v ∈ (f.block b).term.uses, f.InScope v b (f.code b).length := by
    rw [forM_ok]
    simp only [h.checkUse_iff hb hr]
  have hedges : ((f.block b).term.edges.forM fun e =>
      f.checkEdge f.reversePostorder b e) = .ok () ↔
      ∀ e ∈ (f.block b).term.edges, f.Fits e := by
    rw [forM_ok]
    refine forall₂_congr fun e he => checkEdge_iff ?_
    exact (mem_reversePostorder hb).mpr (.step hr (mem_edges_succs he))
  unfold checkBlock
  rw [← huses, ← hterm, ← hedges]
  by_cases ht : (f.block b).term = .unset
  · simp [ht, bind, Except.bind]
  · simp only [ht, if_false, bind, Except.bind, ne_eq, not_false_eq_true,
      true_and]
    cases List.forM (f.code b).zipIdx fun e => e.1.uses.forM fun v =>
      f.checkUse (f.dominators f.reversePostorder) b e.2 v with
    | error e => simp
    | ok u =>
        cases List.forM (f.block b).term.uses fun v =>
          f.checkUse (f.dominators f.reversePostorder) b (f.code b).length v with
        | error e => simp
        | ok u => simp

/-- For functions that define each value once, the check is `Valid`. -/
theorem Ssa.verify_iff (h : f.Ssa) : f.verify = .ok () ↔ f.Valid := by
  unfold verify
  by_cases hb : f.inBounds = true
  · rw [if_pos hb, forM_ok]
    have hin := inBounds_iff.mp hb
    constructor
    · intro hall
      have hblock := fun b (hr : f.Reachable b) =>
        (h.checkBlock_iff hin hr).mp (hall b ((mem_reversePostorder hin).mpr hr))
      exact ⟨hin, fun b hr => (hblock b hr).1, fun b hr => (hblock b hr).2.1,
        fun b hr => (hblock b hr).2.2.1, fun b hr => (hblock b hr).2.2.2⟩
    · intro hv b hmem
      have hr := (mem_reversePostorder hin).mp hmem
      exact (h.checkBlock_iff hin hr).mpr
        ⟨hv.term b hr, hv.uses b hr, hv.termUses b hr, hv.edges b hr⟩
  · rw [if_neg hb]
    exact ⟨(nomatch ·), fun hv => absurd (inBounds_iff.mpr hv.toInBounds) hb⟩

/-- What holds of the blocks there are holds of all where it asks nothing of
the others. -/
theorem forall_block {P : BlockId → Block → Prop} (hnone : ∀ b, P b noBlock) :
    (∀ b, P b (f.block b)) ↔ ∀ b < f.blocks.length, P b (f.block b) := by
  refine ⟨fun h b _ => h b, fun h b => ?_⟩
  by_cases hb : b < f.blocks.length
  · exact h b hb
  · rw [block_of_le (Nat.le_of_not_lt hb)]
    exact hnone b

theorem eq_of_nodup_keys {α β : Type} {l : List (α × β)} (hn : (l.map Prod.fst).Nodup) {a : α}
    {x y : β} (hx : (a, x) ∈ l) (hy : (a, y) ∈ l) : x = y := by
  induction l with
  | nil => cases hx
  | cons e l ih =>
      rw [List.map_cons, List.nodup_cons] at hn
      have hkey : ∀ {z : β}, (a, z) ∈ l → a ≠ e.1 := fun hz he =>
        hn.1 (he ▸ List.mem_map_of_mem (f := Prod.fst) hz)
      rcases List.mem_cons.mp hx with hx | hx <;> rcases List.mem_cons.mp hy with hy | hy
      · rw [← hx] at hy
        exact (congrArg Prod.snd hy).symm
      · exact absurd (congrArg Prod.fst hx) (hkey hy)
      · exact absurd (congrArg Prod.fst hy) (hkey hx)
      · exact ih hn.2 hx hy

def ownsParam (b : BlockId) : Option ValueData → Bool
  | some ⟨_, .param c _⟩ => c = b
  | _ => false

def ownsResult (i : InstId) : Option ValueData → Bool
  | some ⟨_, .inst i'⟩ => i' = i
  | _ => false

/-- `Ssa` as lists that can be run through. -/
def checkSsa (f : Func) : Bool :=
  decide (f.defs.map Prod.fst).Nodup &&
    decide ((List.range f.blocks.length).flatMap fun b => (f.block b).insts).Nodup &&
    (List.range f.blocks.length).all fun b =>
      ((f.block b).params.all fun p => ownsParam b f.values[p]?) &&
        (f.block b).insts.all fun i => (f.inst i).result.all fun r => ownsResult i f.values[r]?

theorem ssa_of_check (h : f.checkSsa = true) : f.Ssa := by
  simp only [checkSsa, Bool.and_eq_true, decide_eq_true_eq, List.all_eq_true, List.mem_range] at h
  obtain ⟨⟨honce, hplaced⟩, hall⟩ := h
  have hsome : ∀ {b : BlockId}, f.block b ≠ noBlock → b < f.blocks.length := by
    intro b hb
    by_contra hge
    exact hb (block_of_le (Nat.le_of_not_lt hge))
  have hparams : ∀ b, (f.block b).params.Nodup := by
    intro b
    by_cases hb : b < f.blocks.length
    · rw [defs, List.map_flatMap] at honce
      have hdefs : ((f.blockDefs b).map Prod.fst).Nodup :=
        (List.nodup_flatMap.mp honce).1 b (List.mem_range.mpr hb)
      rw [blockDefs, List.map_append, List.map_map] at hdefs
      simpa [Function.comp_def] using hdefs.of_append_left
    · rw [block_of_le (Nat.le_of_not_lt hb)]
      exact List.nodup_nil
  refine ⟨fun hd hd' => ?_, hparams, fun {d b i j id} hd hb => ?_, fun b p hp => ?_,
    fun b i hi r hr => ?_⟩
  · have := eq_of_nodup_keys honce (mem_defs.mpr hd) (mem_defs.mpr hd')
    exact ⟨congrArg Prod.fst this, congrArg Prod.snd this⟩
  · have hlt : ∀ {c : BlockId} {k : Nat}, (f.block c).insts[k]? = some id → c < f.blocks.length :=
      fun hc => hsome fun he => by
        rw [he] at hc
        cases hc
    obtain ⟨hnd, hdisj⟩ := List.nodup_flatMap.mp hplaced
    have hdb : d = b := by
      by_contra hne
      have hsymm : Std.Symm (Function.onFun List.Disjoint fun b => (f.block b).insts) :=
        ⟨fun _ _ h => h.symm⟩
      exact hdisj.forall (List.mem_range.mpr (hlt hd)) (List.mem_range.mpr (hlt hb)) hne
        (List.mem_of_getElem? hd) (List.mem_of_getElem? hb)
    subst hdb
    have hn := hnd d (List.mem_range.mpr (hlt hd))
    exact ⟨rfl, (List.getElem?_inj (List.getElem?_eq_some_iff.mp hd).1 hn).mp (hd.trans hb.symm)⟩
  · have hown := (hall b (hsome fun he => by
      rw [he] at hp
      cases hp)).1 p hp
    unfold ownsParam at hown
    split at hown
    · rename_i ty c k hv
      exact ⟨ty, k, by rw [hv, of_decide_eq_true hown]⟩
    · cases hown
  · have hown := (hall b (hsome fun he => by
      rw [he] at hi
      cases hi)).2 i hi
    rw [show (f.inst i).result = some r from hr] at hown
    simp only [Option.all_some] at hown
    unfold ownsResult at hown
    split at hown
    · rename_i ty i' hv
      exact ⟨ty, by rw [hv, of_decide_eq_true hown]⟩
    · cases hown

/-- A path from the entry to a block, with the blocks control has left on it. -/
inductive Path (f : Func) : List BlockId → BlockId → Prop
  | entry : Path f [] f.entry
  | step {left : List BlockId} {b c : BlockId} : Path f left b → f.Edge b c → Path f (b :: left) c

/-- Having left some blocks and come to position `j` of block `b`, control has met a definition
of the value. -/
def Met (f : Func) (left : List BlockId) (b : BlockId) (j : Nat) (v : ValueId) : Prop :=
  (∃ d ∈ left, ∃ i, f.Defines v d i) ∨ ∃ i ≤ j, f.Defines v b i

/-- The immediate dominator of a block control can reach: of those above it the lowest, and for
the entry the virtual block. -/
def Immediate (f : Func) (d b : BlockId) : Prop :=
  if b = f.entry then d = f.blocks.length
  else d ≠ b ∧ f.Dom d b ∧ ∀ a, a ≠ b → f.Dom a b → f.Dom a d

section Paths

variable {f : Func}

theorem Path.reachable {left : List BlockId} {b : BlockId} (h : f.Path left b) :
    f.Reachable b := by
  induction h with
  | entry => exact .root
  | step _ e ih => exact .step ih e

/-- A path that has not been in a block avoids it. -/
theorem Path.avoid {left : List BlockId} {b d : BlockId} (h : f.Path left b) (hleft : d ∉ left)
    (hb : b ≠ d) : Graph.Avoid f.Edge f.entry d b := by
  induction h with
  | entry => exact .root hb
  | step _ e ih =>
      rw [List.mem_cons, not_or] at hleft
      exact .step (ih hleft.2 (Ne.symm hleft.1)) e hb

theorem Path.mem_of_dom {left : List BlockId} {b d : BlockId} (h : f.Path left b) (hdom : f.Dom d b)
    (hne : d ≠ b) : d ∈ left := by
  by_contra hleft
  exact hdom (h.avoid hleft (Ne.symm hne))

theorem lookup_map {α β γ : Type} [BEq α] [LawfulBEq α] (key : γ → α) (g : γ → β) (l : List γ) (a : α) :
    (l.map fun d => (key d, g d)).lookup a = (l.find? fun d => a == key d).map g := by
  induction l with
  | nil => rfl
  | cons d l ih =>
      rw [List.map_cons, List.lookup_cons, List.find?_cons]
      cases h : a == key d with
      | true => rfl
      | false => exact ih

theorem find?_filter_of {α : Type} {l : List α} {p q : α → Bool} {a : α}
    (h : l.find? q = some a) (hp : p a = true) : (l.filter p).find? q = some a := by
  obtain ⟨hq, before, rest, rfl, hnone⟩ := List.find?_eq_some_iff_append.mp h
  rw [List.find?_filter, List.find?_eq_some_iff_append]
  refine ⟨by simp [hp, hq], before, rest, rfl, fun x hx => ?_⟩
  have := hnone x hx
  simp only [Bool.not_eq_true'] at this
  simp [this]

/-- Where a value is looked up in a block, it has been defined by the position found. -/
theorem met_of_defBlock {v : ValueId} {b : BlockId} (h : f.defBlock v = some b) :
    ∃ i ≤ f.defPos v, f.Defines v b i := by
  unfold defBlock at h
  rw [← List.map_reverse, lookup_map (fun d : ValueId × BlockId × Nat => d.1)] at h
  obtain ⟨d, hfind, rfl⟩ := Option.map_eq_some_iff.mp h
  have hkey : v = d.1 := eq_of_beq (List.find?_some (p := fun d : ValueId × BlockId × Nat => v == d.1) hfind)
  have hdef : f.Defines v d.2.1 d.2.2 := by
    rw [hkey]
    exact mem_defs.mp (List.mem_reverse.mp (List.mem_of_find?_eq_some hfind))
  refine ⟨d.2.2, ?_, hdef⟩
  by_cases hzero : d.2.2 = 0
  · exact hzero ▸ Nat.zero_le _
  · unfold defPos
    rw [← List.map_reverse, lookup_map (fun d : ValueId × BlockId × Nat => d.1),
      ← List.filter_reverse, find?_filter_of hfind (decide_eq_true hzero)]
    exact Nat.le_refl _

theorem Path.met_of_checkUse (hb : f.InBounds) {left : List BlockId} {b : BlockId} {j : Nat}
    {v : ValueId} (h : f.Path left b)
    (huse : f.checkUse (f.dominators f.reversePostorder) b j v = .ok ()) : f.Met left b j v := by
  unfold checkUse at huse
  cases hd : f.defBlock v with
  | none => rw [hd] at huse; cases huse
  | some d =>
      obtain ⟨i, hi, hdef⟩ := met_of_defBlock hd
      rw [hd] at huse
      simp only at huse
      by_cases hdb : d = b
      · subst hdb
        rw [if_pos rfl] at huse
        by_cases hlt : j < f.defPos v
        · rw [if_pos hlt] at huse
          cases huse
        · exact .inr ⟨i, Nat.le_trans hi (Nat.le_of_not_lt hlt), hdef⟩
      · rw [if_neg hdb] at huse
        by_cases hdom : dominates (f.dominators f.reversePostorder) d b = true
        · have hdom := (dominates_iff hb (Nat.ne_of_lt hdef.lt) h.reachable).mp hdom
          exact .inl ⟨d, h.mem_of_dom hdom hdb, i, hdef⟩
        · rw [if_neg hdom] at huse
          cases huse

/-- The dominator found for a block is its immediate dominator, and there is one. -/
theorem dominators_immediate (hb : f.InBounds) {c : BlockId} (hc : f.Reachable c) :
    ∃ d, (f.dominators f.reversePostorder).lookup c = some d ∧ f.Immediate d c := by
  have hex := dominators_exact hb
  obtain ⟨d, hd⟩ := Option.isSome_iff_exists.mp (hex.all c ((mem_reversePostorder hb).mpr hc))
  obtain ⟨habove, hbelow⟩ := idom_spec hb hc hd
  refine ⟨d, hd, ?_⟩
  unfold Immediate
  by_cases hentry : c = f.entry
  · rw [if_pos hentry]
    by_contra hreal
    obtain ⟨hne, hdom⟩ := hbelow hreal
    rw [hentry] at hne hdom
    exact hne (Graph.Dom.eq_root hdom)
  · rw [if_neg hentry]
    have hroot := habove f.entry (Ne.symm hentry) (Graph.dom_root c)
    obtain ⟨hne, hdom⟩ := hbelow hroot.1
    exact ⟨hne, hdom, fun a ha hdom => (habove a ha hdom).2⟩

theorem checked_of_verify (h : f.verify = .ok ()) {b : BlockId} (hr : f.Reachable b) :
    f.InBounds ∧ f.checkBlock f.reversePostorder (f.dominators f.reversePostorder) b = .ok () := by
  unfold verify at h
  by_cases hb : f.inBounds = true
  · rw [if_pos hb, forM_ok] at h
    have hin := inBounds_iff.mp hb
    exact ⟨hin, h b ((mem_reversePostorder hin).mpr hr)⟩
  · rw [if_neg hb] at h
    cases h

theorem forM_then {α : Type} {l : List α} {g : α → Except String Unit} {k : Except String Unit}
    (h : (do l.forM g; k) = .ok ()) : (∀ x ∈ l, g x = .ok ()) ∧ k = .ok () := by
  cases hl : l.forM g with
  | error e => rw [hl] at h; cases h
  | ok u => rw [hl] at h; exact ⟨forM_ok.mp hl, h⟩

theorem parts_of_checkBlock {order : List BlockId} {doms : List (BlockId × BlockId)} {b : BlockId}
    (h : f.checkBlock order doms b = .ok ()) :
    (f.block b).term ≠ .unset ∧
    (∀ j inst, (f.code b)[j]? = some inst → ∀ v ∈ inst.uses, f.checkUse doms b j v = .ok ()) ∧
    (∀ v ∈ (f.block b).term.uses, f.checkUse doms b (f.code b).length v = .ok ()) ∧
    ∀ e ∈ (f.block b).term.edges, f.checkEdge order b e = .ok () := by
  unfold checkBlock at h
  by_cases ht : (f.block b).term = .unset
  · rw [if_pos ht] at h
    cases h
  · rw [if_neg ht] at h
    obtain ⟨huses, h⟩ := forM_then h
    obtain ⟨hterm, hedges⟩ := forM_then h
    refine ⟨ht, fun j inst hj => ?_, hterm, forM_ok.mp hedges⟩
    exact forM_ok.mp (huses (inst, j) (List.mk_mem_zipIdx_iff_getElem?.mpr hj))

/-- The dominators of every graph are right, and in a function that is accepted every path has
met a definition of a value where it is used, and every edge passes what its target takes. -/
theorem dominators_verify (f : Func) :
    (f.InBounds → ∀ c, f.Reachable c →
      ∃ d, (f.dominators f.reversePostorder).lookup c = some d ∧ f.Immediate d c) ∧
    (f.verify = .ok () → ∀ left b, f.Path left b →
      (∀ j inst, (f.code b)[j]? = some inst → ∀ v ∈ inst.uses, f.Met left b j v) ∧
      (∀ v ∈ (f.block b).term.uses, f.Met left b (f.code b).length v) ∧
      ∀ e ∈ (f.block b).term.edges, f.Fits e) := by
  refine ⟨fun hb c hc => dominators_immediate hb hc, fun hok left b hpath => ?_⟩
  have hr := hpath.reachable
  obtain ⟨hb, hblock⟩ := checked_of_verify hok hr
  obtain ⟨-, huses, hterm, hedges⟩ := parts_of_checkBlock hblock
  refine ⟨fun j inst hj v hv => hpath.met_of_checkUse hb (huses j inst hj v hv),
    fun v hv => hpath.met_of_checkUse hb (hterm v hv), fun e he => ?_⟩
  have horder : e.1 ∈ f.reversePostorder :=
    (mem_reversePostorder hb).mpr (.step hr (mem_edges_succs he))
  exact (checkEdge_iff horder).mp (hedges e he)

end Paths

section Order

variable {f : Func}

/-- A block comes after those that dominate it. -/
theorem idxOf_lt_of_dom (hb : f.InBounds) {d b : BlockId} (hr : f.Reachable b) (hdom : f.Dom d b)
    (hne : d ≠ b) : f.reversePostorder.idxOf d < f.reversePostorder.idxOf b := by
  have hd := hdom.reachable_of_ne hr
  have hdt : d ≠ f.blocks.length := Nat.ne_of_lt (hd.lt hb)
  have hbt : b ≠ f.blocks.length := Nat.ne_of_lt (hr.lt hb)
  have hrank := Graph.Rooted.Dom.rank_le (rooted_ordered hb)
    (Graph.Rooted.ranked_of_mem ((mem_reversePostorder hb).mpr hr))
    ((rooted_dom_iff hb hdt hbt).mpr hdom)
  simp only [Graph.Rooted.rank, rooted, hdt, hbt, if_false, Nat.add_le_add_iff_right] at hrank
  refine Nat.lt_of_le_of_ne hrank fun he => hne ?_
  have hmem := (mem_reversePostorder hb).mpr hd
  rw [← List.getElem_idxOf (List.idxOf_lt_length_of_mem hmem)]
  simp only [he, List.getElem_idxOf]

/-- A definition of `v` comes before position `j` of `b` in the order. -/
def Earlier (f : Func) (v : ValueId) (b : BlockId) (j : Nat) : Prop :=
  ∃ d i, f.Defines v d i ∧
    (d = b ∧ i ≤ j ∨ f.reversePostorder.idxOf d < f.reversePostorder.idxOf b)

theorem InScope.earlier (hb : f.InBounds) {v : ValueId} {b : BlockId} {j : Nat}
    (hr : f.Reachable b) (h : f.InScope v b j) : f.Earlier v b j := by
  obtain ⟨d, i, hdef, hbefore⟩ := h
  exact ⟨d, i, hdef, hbefore.imp id fun ⟨hne, hdom⟩ => idxOf_lt_of_dom hb hr hdom hne⟩

/-- The order meets each reachable block once, the entry before all others, and no use before what
defines the value. -/
theorem reversePostorder_defs_first (hs : f.Ssa) (hverify : f.verify = .ok ()) :
    f.reversePostorder.Nodup ∧ (∀ b, b ∈ f.reversePostorder ↔ f.Reachable b) ∧
    ∀ b, f.Reachable b →
      (b ≠ f.entry → f.reversePostorder.idxOf f.entry < f.reversePostorder.idxOf b) ∧
      (∀ (j : Nat) inst, (f.code b)[j]? = some inst → ∀ v ∈ inst.uses, f.Earlier v b j) ∧
      ∀ v ∈ (f.block b).term.uses, f.Earlier v b (f.code b).length := by
  have hv := hs.verify_iff.mp hverify
  have hb := hv.toInBounds
  refine ⟨nodup_reversePostorder hb, fun b => mem_reversePostorder hb, fun b hr => ⟨fun hne => ?_,
    fun j inst hj v hu => (hv.uses b hr j inst hj v hu).earlier hb hr,
    fun v hu => (hv.termUses b hr v hu).earlier hb hr⟩⟩
  exact idxOf_lt_of_dom hb hr (Graph.dom_root b) (Ne.symm hne)

end Order

/-- Two blocks that are entered from outside and from each other. -/
def tangle : Func where
  blocks := [
    ⟨[], [], [], [0, 1], .branch 1 1 [] 2 [], some 0, 0⟩,
    ⟨[], [], [], [], .branch 1 2 [] 3 [], none, 0⟩,
    ⟨[], [], [], [], .branch 1 1 [] 3 [], none, 0⟩,
    ⟨[], [], [], [], .ret 0, none, 0⟩]
  insts := [
    ⟨.constTagged 0, [], some 0, none⟩,
    ⟨.constBool true, [], some 1, none⟩]
  values := [⟨.tagged, .inst 0⟩, ⟨.bool, .inst 1⟩]
  entry := 0
  osrEntries := []
  frames := [⟨0, 0⟩]
  paramClasses _ _ := []

theorem tangle_verified :
    (∃ d, (tangle.dominators tangle.reversePostorder).lookup 3 = some d ∧ tangle.Immediate d 3) ∧
      tangle.Met [2, 1, 0] 3 0 0 := by
  have hpath : tangle.Path [2, 1, 0] 3 := by
    refine .step (.step (.step .entry ?_) ?_) ?_ <;> exact List.mem_of_elem_eq_true rfl
  obtain ⟨hdoms, hverify⟩ := dominators_verify tangle
  exact ⟨hdoms (inBounds_iff.mp rfl) 3 hpath.reachable,
    (hverify rfl [2, 1, 0] 3 hpath).2.1 0 (List.mem_singleton.mpr rfl)⟩

theorem tangle_defs_first : tangle.Earlier 0 3 0 := by
  obtain ⟨-, hmem, hdefs⟩ := reversePostorder_defs_first (f := tangle) (ssa_of_check rfl) rfl
  have hr : tangle.Reachable 3 := (hmem 3).mp (List.mem_of_elem_eq_true rfl)
  exact (hdefs 3 hr).2.2 0 (List.mem_singleton.mpr rfl)

end Func

end Zuri.Jit.Ir
