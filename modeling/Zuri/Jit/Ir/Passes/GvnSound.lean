import Zuri.Jit.Ir.Passes.GvnScan

/-!
The whole walk.

`Pending` follows the work list: each block still to be entered finds a table
it can trust, and taking a visit's keys out again gives back a table that says
no more than the one before the visit. With one block entered at a time the
walk ends, and what it dropped and replaced is what `Prunes` asks for.
-/

namespace Zuri.Jit.Ir.Gvn

open Transition (observe)

variable {M : Machine}

/-- A table that says no more than another. -/
def Table.Sub (t t' : Table) : Prop := ∀ key v, t.lookup key = some v → t'.lookup key = some v

theorem lookup_remove (table : Table) (key k : Lookup) :
    (table.remove key).lookup k = if k = key then none else table.lookup k := by
  induction table with
  | nil => simp [Table.remove]
  | cons e table ih =>
      unfold Table.remove at ih ⊢
      by_cases he : e.1 = key
      · rw [List.filter_cons_of_neg (by simp [he]), ih]
        by_cases hk : k = key
        · simp [hk]
        · rw [List.lookup_cons, beq_false_of_ne (he ▸ hk)]
      · rw [List.filter_cons_of_pos (by simp [he]), List.lookup_cons, List.lookup_cons, ih]
        by_cases hk : k = key
        · have : (k == e.1) = false := beq_false_of_ne (hk ▸ Ne.symm he)
          simp [hk, hk ▸ this]
        · simp [hk]

theorem lookup_removed (keys : List Lookup) (table : Table) (k : Lookup) :
    (keys.foldl Table.remove table).lookup k = if k ∈ keys then none else table.lookup k := by
  induction keys generalizing table with
  | nil => simp
  | cons key keys ih =>
      rw [List.foldl_cons, ih, lookup_remove]
      by_cases hk : k = key <;> by_cases hmem : k ∈ keys <;> simp [hk, hmem]

theorem Table.Sub.removed {t t' : Table} (h : t.Sub t') (keys : List Lookup) :
    Table.Sub (keys.foldl Table.remove t) (keys.foldl Table.remove t') := by
  intro key v hl
  rw [lookup_removed] at hl ⊢
  split at hl
  · cases hl
  · rename_i hmem
    rw [if_neg hmem]
    exact h key v hl

/-- The blocks still to be entered. -/
def enters (work : List Step) : List BlockId :=
  work.filterMap fun
    | .enter b _ => some b
    | .leave => none

section

variable (f : Func) (w₀ : World M.Rest)

/-- What the blocks still to be entered will find. -/
def Pending (replaced : List (ValueId × ValueId)) (next : Nat) :
    List Step → Table → List (List Lookup) → Prop
  | [], _, _ => True
  | .leave :: rest, table, undo =>
      Pending replaced next rest ((undo.headD []).foldl Table.remove table) undo.tail
  | .enter c versions :: rest, table, undo =>
      Facts f w₀ replaced next versions table c 0 ∧ Pending replaced next rest table undo

/-- What the walk keeps true. -/
structure Walking (entered : List BlockId) (drops : List InstId) (w : Walk) : Prop where
  func : w.func = f.without drops
  replacing : Replacing f w₀ (fun d _ => d ∈ entered) w.replaced
  dropping : Dropping f w₀ (fun d _ => d ∈ entered) w.replaced drops
  pending : Pending f w₀ w.replaced w.next w.work w.table w.undo
  nodup : (entered ++ enters w.work).Nodup
  idom : ∀ c ∈ entered ++ enters w.work, c ∈ f.reversePostorder ∧
    ∃ p, (f.dominators f.reversePostorder).lookup c = some p ∧
      (p = f.blocks.length ∨ p ∈ entered)
  doms : ∀ d ∈ entered ++ enters w.work, ∀ a, a ≠ d → f.Dom a d → a ∈ entered

end

section

variable {f : Func} {w₀ : World M.Rest} {replaced replaced' : List (ValueId × ValueId)}
  {next next' : Nat}

theorem Facts.mono {versions : Versions} {table table' : Table} {c : BlockId} {j : Nat}
    (h : Facts f w₀ replaced next versions table c j) (hn : next ≤ next')
    (ht : table'.Sub table)
    (hk : ∀ v, f.InScope v c j → v ∉ keys replaced → v ∉ keys replaced') :
    Facts f w₀ replaced' next' versions table' c j where
  below := h.below.mono hn
  entry key v hl := by
    have hentry := h.entry key v (ht key v hl)
    exact hentry.mono hn fun hr => hk v (hentry.scope v (.inr ⟨rfl, hr⟩))

theorem Pending.mono {work : List Step} {table table' : Table} {undo : List (List Lookup)}
    (h : Pending f w₀ replaced next work table undo) (hn : next ≤ next') (ht : table'.Sub table)
    (hk : ∀ c ∈ enters work, ∀ v, f.InScope v c 0 → v ∉ keys replaced → v ∉ keys replaced') :
    Pending f w₀ replaced' next' work table' undo := by
  induction work generalizing table table' undo with
  | nil => trivial
  | cons s rest ih =>
      cases s with
      | leave => exact ih h (ht.removed _) hk
      | enter c versions =>
          exact ⟨h.1.mono hn ht (hk c List.mem_cons_self),
            ih h.2 ht fun c' hc' => hk c' (List.mem_cons_of_mem _ hc')⟩

/-- Pushing children leaves the rest of the list what it was, and each child
with versions of its own. -/
theorem push_spec (inherit : BlockId → Option Versions) {table : Table}
    {undo : List (List Lookup)} (cs : List BlockId) {work : List Step} {next : Nat}
    (h : Pending f w₀ replaced next work table undo)
    (hinherit : ∀ c ∈ cs, ∀ versions, inherit c = some versions →
      Facts f w₀ replaced next versions table c 0)
    (hfresh : ∀ c ∈ cs, inherit c = none → ∀ n ≥ next,
      Facts f w₀ replaced (fresh n).2 (fresh n).1 table c 0) :
    Pending f w₀ replaced (push inherit cs (work, next)).2 (push inherit cs (work, next)).1
        table undo ∧
      next ≤ (push inherit cs (work, next)).2 ∧
      enters (push inherit cs (work, next)).1 = cs ++ enters work ∧
      (push inherit cs (work, next)).1.count .leave = work.count .leave := by
  induction cs with
  | nil => exact ⟨h, Nat.le_refl _, rfl, rfl⟩
  | cons c cs ih =>
      obtain ⟨hpend, hle, henters, hcount⟩ := ih
        (fun c' hc' => hinherit c' (List.mem_cons_of_mem _ hc'))
        fun c' hc' => hfresh c' (List.mem_cons_of_mem _ hc')
      simp only [push]
      cases hi : inherit c with
      | some versions =>
          refine ⟨⟨?_, hpend⟩, hle, ?_, ?_⟩
          · exact (hinherit c List.mem_cons_self versions hi).mono hle (fun _ _ hl => hl)
              fun _ _ hnot => hnot
          · simp only [enters, List.filterMap_cons, List.cons_append, List.cons.injEq, true_and]
            exact henters
          · simpa [List.count_cons] using hcount
      | none =>
          have hstep : (push inherit cs (work, next)).2 ≤
              (fresh (push inherit cs (work, next)).2).2 := by simp [fresh]
          refine ⟨⟨hfresh c List.mem_cons_self hi _ hle, ?_⟩, Nat.le_trans hle hstep, ?_, ?_⟩
          · exact hpend.mono hstep (fun _ _ hl => hl) fun _ _ _ _ hnot => hnot
          · simp only [enters, List.filterMap_cons, List.cons_append, List.cons.injEq, true_and]
            exact henters
          · simpa [List.count_cons] using hcount

/-- Under new versions only keys without one are current. -/
theorem Key.Below.fresh {k : Key} {n : Nat} (h : k.Below next) (hn : next ≤ n)
    (hc : k.Current (Gvn.fresh n).1) :
    (∃ name bits, k = .pure name bits) ∨ ∃ kind, k = .guard kind := by
  cases k with
  | pure name bits => exact .inl ⟨name, bits, rfl⟩
  | guard kind => exact .inr ⟨kind, rfl⟩
  | read name m =>
      cases name <;> simp only [Key.Below, Key.Current, Gvn.fresh] at h hc <;> omega
  | _ => simp only [Key.Below, Key.Current, Gvn.fresh] at h hc <;> omega

end

namespace Scan

variable {f : Func} {w₀ : World M.Rest} {entered : List BlockId} {b c : BlockId} {s₀ s : Visit}
  {drops : List InstId}

theorem end_eq : (f.block b).insts.length = (f.code b).length := by simp [Func.code]

/-- Past a block, its table is in scope in every block it dominates. -/
theorem entry_child (h : Scan f w₀ entered b s₀ s (f.block b).insts drops) (hne : b ≠ c) (hdom : f.Dom b c)
    (hr : f.Reachable c) {n : Nat} (hn : s.next ≤ n) {versions : Versions} {key : Lookup}
    {v : ValueId} (hl : s.table.lookup key = some v)
    (hknown : key.1.Current versions → Known f w₀ key v c 0) :
    Entry f w₀ s.replaced n versions c 0 key v := by
  have hentry := h.facts.entry key v hl
  exact ⟨hknown, hentry.below.mono hn, fun x hx => (hentry.scope x hx).mono (.inr ⟨hne, hdom⟩) hr,
    hentry.kept, hentry.flat⟩

/-- A child no other block leads to starts with the versions of its parent. -/
theorem facts_inherit (hc : Visiting f w₀ entered b)
    (h : Scan f w₀ entered b s₀ s (f.block b).insts drops) (hne : b ≠ c) (hdom : f.Dom b c)
    (hr : f.Reachable c) (honly : f.preds c = [b]) :
    Facts f w₀ s.replaced s.next s.versions s.table c 0 where
  below := h.facts.below
  entry key v hl := h.entry_child hne hdom hr (Nat.le_refl _) hl fun hcur => by
    have hentry := h.facts.entry key v hl
    refine Known.inherit hc.ssa ?_ ?_ hne hdom hr honly
    · rw [← end_eq]
      exact hentry.known hcur
    · rw [← end_eq]
      exact hentry.scope

/-- Any other child starts with versions nothing was read at. -/
theorem facts_fresh (hc : Visiting f w₀ entered b)
    (h : Scan f w₀ entered b s₀ s (f.block b).insts drops) (hne : b ≠ c) (hdom : f.Dom b c)
    (hr : f.Reachable c) {n : Nat} (hn : s.next ≤ n) :
    Facts f w₀ s.replaced (fresh n).2 (fresh n).1 s.table c 0 where
  below := fresh_below n
  entry key v hl := by
    have hn' : s.next ≤ (fresh n).2 := by
      simp only [fresh]
      omega
    refine h.entry_child hne hdom hr hn' hl fun hcur => ?_
    have hentry := h.facts.entry key v hl
    have hkind := hentry.below.fresh hn hcur
    have hcur' : key.1.Current s.versions := by
      rcases hkind with ⟨name, bits, hk⟩ | ⟨kind, hk⟩ <;> simp [hk, Key.Current]
    exact (hentry.known hcur').persist hc.ssa hc.steady (by rw [end_eq]) hentry.scope
      (fun w w' => Key.stable_or w w' hkind) (.inr ⟨hne, hdom⟩) hr

/-- Taking out what a visit entered gives back no more than was there. -/
theorem removed (h : Scan f w₀ entered b s₀ s (f.block b).insts drops) :
    Table.Sub (s.added.foldl Table.remove s.table) s₀.table := by
  intro key v hl
  rw [lookup_removed] at hl
  split at hl
  · cases hl
  · rename_i hnot
    rw [← (h.added key).resolve_right hnot]
    exact hl

end Scan

theorem mem_children {f : Func} {b c : BlockId} : c ∈ (Tree.of f).children b ↔
    c ∈ f.reversePostorder ∧ (f.dominators f.reversePostorder).lookup c = some b := by
  exact List.mem_filter.trans (and_congr Iff.rfl decide_eq_true_iff)

namespace Walking

variable {f : Func} {w₀ : World M.Rest} {entered : List BlockId} {drops : List InstId} {w : Walk}
  {b : BlockId} {versions : Versions} {rest : List Step}

theorem visiting (hs : f.Ssa) (hv : f.Valid) (ht : f.Typed) (hst : SteadyRun f w₀)
    (h : Walking f w₀ entered drops w) (hwork : w.work = .enter b versions :: rest) :
    Visiting f w₀ entered b where
  ssa := hs
  valid := hv
  typed := ht
  steady := hst
  reachable := by
    have hmem : b ∈ entered ++ enters w.work := by simp [hwork, enters]
    exact (Func.mem_reversePostorder hv.toInBounds).mp (h.idom b hmem).1
  fresh hmem := by
    have hn := h.nodup
    rw [hwork] at hn
    exact (List.nodup_append.mp hn).2.2 b hmem b (by simp [enters]) rfl
  doms d hd := h.doms d (List.mem_append_left _ hd)

/-- A block not entered yet has all its instructions. -/
theorem insts_eq (hc : Visiting f w₀ entered b) (h : Walking f w₀ entered drops w) :
    (w.func.block b).insts = (f.block b).insts := by
  rw [h.func, Func.without_block]
  refine List.filter_eq_self.mpr fun id hid => ?_
  simp only [decide_not, Bool.not_eq_true', decide_eq_false_iff_not]
  intro hd
  obtain ⟨d, i, hmem, hat⟩ := h.dropping.site id hd
  obtain ⟨j, hj⟩ := List.mem_iff_getElem?.mp hid
  exact hc.fresh ((hc.ssa.place hat hj).1 ▸ hmem)

/-- The blocks entered and those still to be entered, when a block is entered and its children are
added, are all different. -/
theorem enters_nodup (h : Walking f w₀ entered drops w) (hc : Visiting f w₀ entered b)
    (hwork : w.work = .enter b versions :: rest) :
    (b :: entered ++ ((Tree.of f).children b ++ enters rest)).Nodup := by
  have hb := hc.valid.toInBounds
  have hn := h.nodup
  rw [hwork] at hn
  have hn' : (b :: (entered ++ enters rest)).Nodup := List.perm_middle.nodup_iff.mp hn
  have hperm : (b :: entered ++ ((Tree.of f).children b ++ enters rest)).Perm
      ((Tree.of f).children b ++ (b :: (entered ++ enters rest))) := by
    simp only [List.cons_append]
    refine (List.Perm.cons b ?_).trans List.perm_middle.symm
    rw [← List.append_assoc, ← List.append_assoc]
    exact List.perm_append_comm.append_right _
  refine hperm.nodup_iff.mpr (List.nodup_append.mpr ⟨?_, hn', ?_⟩)
  · exact (Func.nodup_reversePostorder hb).filter _
  · rintro c hmem d hd rfl
    obtain ⟨hmem, hl⟩ := mem_children.mp hmem
    have hold : c ∈ entered ++ enters w.work := by
      rw [hwork]
      exact List.perm_middle.mem_iff.mpr hd
    obtain ⟨_, p, hp, hpe⟩ := h.idom c hold
    rw [hl] at hp
    cases hp
    rcases hpe with rfl | hpe
    · exact absurd (hc.reachable.lt hb) (Nat.lt_irrefl _)
    · exact hc.fresh hpe

/-- Each of them has its immediate dominator among those entered. -/
theorem enters_idom (h : Walking f w₀ entered drops w)
    (hwork : w.work = .enter b versions :: rest) :
    ∀ c ∈ b :: entered ++ ((Tree.of f).children b ++ enters rest), c ∈ f.reversePostorder ∧
      ∃ p, (f.dominators f.reversePostorder).lookup c = some p ∧
        (p = f.blocks.length ∨ p ∈ b :: entered) := by
  intro c hmem
  by_cases hch : c ∈ (Tree.of f).children b
  · obtain ⟨hmem, hl⟩ := mem_children.mp hch
    exact ⟨hmem, b, hl, .inr List.mem_cons_self⟩
  · have hold : c ∈ entered ++ enters w.work := by
      rw [hwork]
      simp only [enters, List.filterMap_cons, List.mem_append, List.mem_cons] at hmem hch ⊢
      tauto
    obtain ⟨hmem, p, hp, hpe⟩ := h.idom c hold
    exact ⟨hmem, p, hp, hpe.imp id (List.mem_cons_of_mem _)⟩

/-- And every block that dominates it. -/
theorem enters_doms (h : Walking f w₀ entered drops w) (hc : Visiting f w₀ entered b)
    (hwork : w.work = .enter b versions :: rest) :
    ∀ d ∈ b :: entered ++ ((Tree.of f).children b ++ enters rest), ∀ a, a ≠ d → f.Dom a d →
      a ∈ b :: entered := by
  have hb := hc.valid.toInBounds
  intro c hmem a hac hdom
  by_cases hch : c ∈ (Tree.of f).children b
  · obtain ⟨hmem, hl⟩ := mem_children.mp hch
    have hr := (Func.mem_reversePostorder hb).mp hmem
    have hab := ((Func.idom_spec hb hr hl).1 a hac hdom).2
    by_cases he : a = b
    · exact he ▸ List.mem_cons_self
    · refine List.mem_cons_of_mem _ (h.doms b ?_ a he hab)
      rw [hwork]
      simp [enters]
  · refine List.mem_cons_of_mem _ (h.doms c ?_ a hac hdom)
    rw [hwork]
    simp only [enters, List.filterMap_cons, List.mem_append, List.mem_cons] at hmem hch ⊢
    tauto

/-- Entering a block keeps the walk's promises. -/
theorem enter (hc : Visiting f w₀ entered b) (h : Walking f w₀ entered drops w)
    (hwork : w.work = .enter b versions :: rest) :
    ∃ drops', Walking f w₀ (b :: entered) drops'
        ({ w with work := rest }.step (Tree.of f) (.enter b versions)) ∧
      ({ w with work := rest }.step (Tree.of f) (.enter b versions)).work.count Step.leave =
        w.work.count Step.leave + 1 := by
  have hb := hc.valid.toInBounds
  have hpend := h.pending
  rw [hwork] at hpend
  have hstart : Scan f w₀ entered b ⟨versions, w.table, w.replaced, w.next, [], []⟩
      ⟨versions, w.table, w.replaced, w.next, [], []⟩ [] drops :=
    ⟨hpend.1, h.replacing.mono fun _ _ hd => .inl hd,
      h.dropping.mono (fun _ _ hd => .inl hd) fun _ hr => hr, rfl, Nat.le_refl _,
      fun _ => .inl rfl, fun _ hr => .inl hr⟩
  obtain ⟨more, hmore, hscan⟩ := hstart.block hc (f.block b).insts rfl
  have hsteps : Visit.step w.func = Visit.step f := by
    rw [h.func]
    rfl
  have hinsts := h.insts_eq hc
  simp only [Walk.step, hinsts, hsteps]
  generalize hs : (f.block b).insts.foldl (Visit.step f)
    ⟨versions, w.table, w.replaced, w.next, [], []⟩ = s at hscan
  have hchild : ∀ c ∈ (Tree.of f).children b, b ≠ c ∧ f.Dom b c ∧ f.Reachable c := by
    intro c hmem
    obtain ⟨hmem, hl⟩ := mem_children.mp hmem
    have hr := (Func.mem_reversePostorder hb).mp hmem
    have := (Func.idom_spec hb hr hl).2 (Nat.ne_of_lt (hc.reachable.lt hb))
    exact ⟨this.1, this.2, hr⟩
  -- A value replaced in this block is in scope only in blocks it dominates.
  have hkeys : ∀ c ∈ enters rest, ∀ v, f.InScope v c 0 → v ∉ keys w.replaced →
      v ∉ keys s.replaced := by
    intro c hmem v hv hnot hin
    rcases hscan.grown v hin with hold | ⟨i, hdef⟩
    · exact hnot hold
    · obtain ⟨d', i', hdef', hbef⟩ := hv
      obtain ⟨rfl, rfl⟩ := hc.ssa.unique hdef hdef'
      rcases hbef with ⟨_, hle⟩ | ⟨hne, hdom⟩
      · omega
      · refine hc.fresh (h.doms c ?_ b hne hdom)
        rw [hwork]
        simp only [enters, List.filterMap_cons, List.mem_append, List.mem_cons]
        exact .inr (.inr hmem)
  have hrest : Pending f w₀ s.replaced s.next (.leave :: rest) s.table (s.added :: w.undo) := by
    exact hpend.2.mono hscan.next hscan.removed hkeys
  obtain ⟨hpush, _, henters, hcount⟩ := push_spec
    (fun c => if (Tree.of f).preds c = [b] then some s.versions else none)
    ((Tree.of f).children b) hrest
    (fun c hmem vs hvs => by
      obtain ⟨hne, hdom, hr⟩ := hchild c hmem
      simp only [Option.ite_none_right_eq_some, Option.some.injEq] at hvs
      exact hvs.2 ▸ hscan.facts_inherit hc hne hdom hr hvs.1)
    (fun c hmem _ n hn => by
      obtain ⟨hne, hdom, hr⟩ := hchild c hmem
      exact hscan.facts_fresh hc hne hdom hr hn)
  have henters' : enters (push _ ((Tree.of f).children b) (Step.leave :: rest, s.next)).1 =
      (Tree.of f).children b ++ enters rest := henters
  have hpassed : ∀ d i, (d ∈ entered ∨ (d = b ∧ i < (f.block b).insts.length)) →
      d ∈ b :: entered := by
    rintro d i (hd | ⟨rfl, _⟩)
    · exact List.mem_cons_of_mem _ hd
    · exact List.mem_cons_self
  refine ⟨more ++ drops, ⟨?_, hscan.replacing.mono hpassed,
    hscan.dropping.mono hpassed fun _ hr => hr, hpush, ?_, ?_, ?_⟩, ?_⟩
  · rw [hscan.keep, h.func]
    exact Func.setInsts_without hc.ssa (hc.reachable.lt hb) hmore
  · rw [henters']
    exact h.enters_nodup hc hwork
  · rw [henters']
    exact h.enters_idom hwork
  · rw [henters']
    exact h.enters_doms hc hwork
  · have : (push _ ((Tree.of f).children b) (Step.leave :: rest, s.next)).1.count .leave =
        (Step.leave :: rest).count .leave := hcount
    rw [this, hwork]
    simp

/-- And so does leaving one. -/
theorem leave (h : Walking f w₀ entered drops w) (hwork : w.work = .leave :: rest) :
    Walking f w₀ entered drops ({ w with work := rest }.step (Tree.of f) .leave) := by
  obtain ⟨hfunc, hrep, hdrop, hpend, hnodup, hidom, hdoms⟩ := h
  rw [hwork] at hpend hnodup hidom hdoms
  exact ⟨hfunc, hrep, hdrop, hpend, hnodup, hidom, hdoms⟩

/-- With a turn for each block and each way back, the walk ends. -/
theorem ends (hs : f.Ssa) (hv : f.Valid) (ht : f.Typed) (hst : SteadyRun f w₀) (fuel : Nat)
    (h : Walking f w₀ entered drops w)
    (hfuel : w.work.count Step.leave + 2 * (f.blocks.length - entered.length) < fuel) :
    ∃ entered' drops' w', walk (Tree.of f) fuel w = some w' ∧
      Walking f w₀ entered' drops' w' := by
  induction fuel generalizing entered drops w with
  | zero => omega
  | succ fuel ih =>
      simp only [walk]
      cases hwork : w.work with
      | nil => exact ⟨entered, drops, w, rfl, h⟩
      | cons s rest =>
          rw [hwork] at hfuel
          cases s with
          | leave =>
              refine ih (h.leave hwork) ?_
              simp only [List.count_cons_self] at hfuel
              simp only [Walk.step]
              omega
          | enter b versions =>
              have hc := h.visiting hs hv ht hst hwork
              obtain ⟨drops', hw', hcount⟩ := h.enter hc hwork
              refine ih hw' ?_
              have hroom : (b :: entered).length ≤ f.blocks.length := by
                have hn : (b :: entered).Nodup := by
                  have := hw'.nodup
                  exact (List.nodup_append.mp this).1
                have hsub : b :: entered ⊆ List.range f.blocks.length := by
                  intro c hmem
                  have := (hw'.idom c (List.mem_append_left _ hmem)).1
                  have hr := (Func.mem_reversePostorder hv.toInBounds).mp this
                  exact List.mem_range.mpr (hr.lt hv.toInBounds)
                simpa using (hn.subperm hsub).length_le
              rw [hcount, hwork]
              simp only [List.length_cons] at hroom ⊢
              have hne : (Step.enter b versions :: rest).count Step.leave =
                  rest.count Step.leave := by simp
              omega

end Walking

/-- What the walk starts from. -/
theorem walking_start {f : Func} (w₀ : World M.Rest) (hv : f.Valid) :
    Walking f w₀ [] [] (start f) ∧ (start f).work.count Step.leave = 0 := by
  have hb := hv.toInBounds
  have hpend : Pending f w₀ [] 1 [] [] [] := trivial
  obtain ⟨hpush, _, henters, hcount⟩ := push_spec (fun _ => none)
    ((Tree.of f).children f.blocks.length) hpend (fun _ _ _ hvs => by cases hvs)
    fun _ _ _ n _ => ⟨fresh_below n, fun _ _ hl => by cases hl⟩
  have henters' : enters (start f).work = (Tree.of f).children f.blocks.length := by
    exact henters.trans (List.append_nil _)
  refine ⟨⟨f.without_nil.symm, ⟨nofun, nofun⟩, ⟨nofun, nofun, fun _ _ _ _ hm => nomatch hm⟩,
    hpush, ?_, ?_, ?_⟩, hcount⟩
  · rw [henters']
    exact (Func.nodup_reversePostorder hb).filter _
  · rw [henters']
    intro c hmem
    obtain ⟨hmem, hl⟩ := mem_children.mp hmem
    exact ⟨hmem, _, hl, .inl rfl⟩
  · rw [henters']
    intro c hmem a hac hdom
    obtain ⟨hmem, hl⟩ := mem_children.mp hmem
    have hr := (Func.mem_reversePostorder hb).mp hmem
    exact absurd rfl ((Func.idom_spec hb hr hl).1 a hac hdom).1

/-- What the walk drops and replaces could be left out of every run. -/
theorem run_prunes {f : Func} {w₀ : World M.Rest} (hs : f.Ssa) (hv : f.Valid) (ht : f.Typed)
    (hst : SteadyRun f w₀) : ∃ drops map, run f = some (Prunes.result f drops map) ∧
      Prunes f w₀ drops map := by
  obtain ⟨hstart, hcount⟩ := walking_start w₀ hv
  obtain ⟨entered, drops, w, hwalk, h⟩ := hstart.ends hs hv ht hst (2 * f.blocks.length + 1)
    (by simp only [hcount, List.length_nil]; omega)
  refine ⟨drops, w.replaced, ?_, ?_, h.dropping.quiet, ?_, ?_⟩
  · rw [run, hwalk, Option.map_some, Func.replaceAll_eq, h.func]
  · exact h.dropping.redundant
  · exact fun b j env w hat v hv => h.replacing.same hs hat hv
  · exact fun v => (resolve_of_flat h.replacing.flat v).1

/-- As long as no step of a run changes the answer of an unversioned check that
is made again further on, the numbered function shows what the original shows,
and every check taken out would have passed wherever the run comes to it. -/
theorem run_preserves {f : Func} (hs : f.Ssa) (ht : f.Typed) (hv : f.verify = .ok ())
    {w₀ : World M.Rest} (hst : SteadyRun f w₀) :
    ∃ f', run f = some f' ∧
      (∀ n, observe f.step n (f.start w₀) = observe f'.step n (f'.start w₀)) ∧
      ∀ b (j : Nat) id, (f.block b).insts[j]? = some id → id ∉ (f'.block b).insts →
        ∀ env (w : World M.Rest), At f w₀ b j env w →
          ∃ v, (f.inst id).op.eval f w ((f.inst id).regs env) ((f.inst id).args.map env) =
            .next v w := by
  have hvalid := hs.verify_iff.mp hv
  obtain ⟨drops, map, hrun, hprunes⟩ := run_prunes hs hvalid ht hst
  refine ⟨_, hrun, hprunes.observe_eq hvalid, fun b j id hid hnot env w hat => ?_⟩
  have hdrop : id ∈ drops := by
    by_contra hd
    refine hnot ?_
    rw [Prunes.result, Func.rewriteUses_block, Func.without_block]
    exact List.mem_filter.mpr ⟨List.mem_of_getElem? hid, by simpa using hd⟩
  exact (hprunes.redundant b j id hid hdrop env w hat).goes

/-- One argument, added to itself, checked to be a number both times. -/
def doubled : Func where
  blocks := [⟨[], [], [], [0, 1, 2, 3, 4], .ret 4, some 0, 0⟩]
  insts := [
    ⟨.param 0, [], some 0, none⟩,
    ⟨.guard .number, [0], some 1, some ⟨0, [(0, 0)], 0, none⟩⟩,
    ⟨.guard .number, [0], some 2, some ⟨0, [(0, 0)], 0, none⟩⟩,
    ⟨.fAdd, [1, 2], some 3, none⟩,
    ⟨.boxF64, [3], some 4, none⟩]
  values := [⟨.tagged, .inst 0⟩, ⟨.f64, .inst 1⟩, ⟨.f64, .inst 2⟩, ⟨.f64, .inst 3⟩,
    ⟨.tagged, .inst 4⟩]
  entry := 0
  osrEntries := []
  frames := [⟨0, 0⟩]
  paramClasses _ _ := []

theorem doubled_preserved : ∃ f', run doubled = some f' ∧
    (∀ n, observe doubled.step n (doubled.start World.bare) =
      observe f'.step n (f'.start World.bare)) ∧
    ∀ b (j : Nat) id, (doubled.block b).insts[j]? = some id → id ∉ (f'.block b).insts →
      ∀ env (w : World Machine.bare.Rest), At doubled World.bare b j env w →
        ∃ v, (doubled.inst id).op.eval doubled w ((doubled.inst id).regs env)
          ((doubled.inst id).args.map env) = .next v w := by
  refine run_preserves (Func.ssa_of_check (by decide)) (by decide)
    (by rfl) ?_
  intro b j env w inst seen env' w' _ _ _ d i check hcheck hu
  have hno : ∀ inst ∈ doubled.insts, unversioned inst.op = false := by decide
  obtain ⟨id, hid, rfl⟩ := List.mem_map.mp (List.mem_of_getElem? hcheck)
  have hin : doubled.inst id ∈ doubled.insts ∨ doubled.inst id = Func.noInst := by
    unfold Func.inst
    rw [List.getD_eq_getElem?_getD]
    cases hk : doubled.insts[id]? with
    | none => exact .inr rfl
    | some inst => exact .inl (List.mem_of_getElem? hk)
  rcases hin with hin | hin
  · rw [hno _ hin] at hu
    cases hu
  · rw [hin] at hu
    cases hu

/-- A list argument whose elements are checked, then one of them overwritten
with nil, then checked again. -/
def overwritten : Func where
  blocks := [⟨[], [], [], [0, 1, 2, 3, 4, 5, 6, 7], .ret 4, some 0, 0⟩]
  insts := [
    ⟨.param 0, [], some 0, none⟩,
    ⟨.guard .list, [0], some 1, some ⟨0, [(0, 0)], 0, none⟩⟩,
    ⟨.guard (.elems false), [1], none, some ⟨0, [(0, 0)], 0, none⟩⟩,
    ⟨.listData, [1], some 2, none⟩,
    ⟨.constI64 0, [], some 3, none⟩,
    ⟨.constTagged 0, [], some 4, none⟩,
    ⟨.storeElem, [1, 2, 3, 4], none, none⟩,
    ⟨.guard (.elems false), [1], none, some ⟨1, [(0, 0)], 0, none⟩⟩]
  values := [⟨.tagged, .inst 0⟩, ⟨.ptr, .inst 1⟩, ⟨.ptr, .inst 3⟩, ⟨.i64, .inst 4⟩,
    ⟨.tagged, .inst 5⟩]
  entry := 0
  osrEntries := []
  frames := [⟨0, 0⟩]
  paramClasses _ _ := []

/-- Memory with a list of one number, in the first register. -/
def oneNumber : World Machine.bare.Rest :=
  { World.bare with
    header := fun _ => ⟨1, 1, 0⟩
    elems := fun _ _ => .num .zero
    regs := fun _ => .obj ⟨.list, 0⟩ }

/-- The second check fails in the original and is gone after numbering. -/
theorem overwritten_differs : overwritten.Ssa ∧ overwritten.Typed ∧ overwritten.verify = .ok () ∧
    ∃ f', run overwritten = some f' ∧
      observe overwritten.step 1 (overwritten.start oneNumber) ≠
        observe f'.step 1 (f'.start oneNumber) := by
  refine ⟨Func.ssa_of_check (by decide), by decide, by decide, ?_⟩
  obtain ⟨f', hf'⟩ : ∃ f', run overwritten = some f' :=
    Option.isSome_iff_exists.mp (by rfl)
  refine ⟨f', hf', fun heq => ?_⟩
  have hbefore : (observe overwritten.step 1 (overwritten.start oneNumber)).2.bind
      Outcome.value = none := by rfl
  have hafter : ((run overwritten).bind fun f' =>
      (observe f'.step 1 (f'.start oneNumber)).2.bind Outcome.value) = some .nil := by
    rfl
  rw [heq] at hbefore
  rw [hf', Option.bind_some, hbefore] at hafter
  cases hafter

end Zuri.Jit.Ir.Gvn
