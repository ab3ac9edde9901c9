import Zuri.Jit.Ir.Passes.GvnFacts

/-!
One block of the walk.

`Facts` is what the table is trusted for at a position, `Replacing` what the
replacements found so far are trusted for, and `Scan` both of them part way
through a block together with what has been dropped. Each instruction keeps
`Scan`: what is looked up and found is redundant, what is looked up and not
found is known from there on, and everything else forgets the versions it
writes.
-/

namespace Zuri.Jit.Ir

namespace Gvn

variable {M : Machine}

section

variable (f : Func) (w₀ : World M.Rest)

/-- What an entry is trusted for where a run comes to `(b, j)`. -/
structure Entry (replaced : List (ValueId × ValueId)) (next : Nat) (versions : Versions)
    (b : BlockId) (j : Nat) (key : Lookup) (v : ValueId) : Prop where
  known : key.1.Current versions → Known f w₀ key v b j
  below : key.1.Below next
  scope : ∀ x, About key v x → f.InScope x b j
  kept : key.1.op.resultTy.isSome → v ∉ keys replaced
  flat : ∀ ref n, key.1 = .global ref n → key.2 = []

/-- What a table and its versions are trusted for at a position. -/
structure Facts (replaced : List (ValueId × ValueId)) (next : Nat) (versions : Versions)
    (table : Table) (b : BlockId) (j : Nat) : Prop where
  below : versions.Below next
  entry : ∀ key v, table.lookup key = some v → Entry f w₀ replaced next versions b j key v

/-- One replacement, of a value defined at `(d, i + 1)`. -/
structure Replaces (r t : ValueId) (d : BlockId) (i : Nat) : Prop where
  defines : f.Defines r d (i + 1)
  inBlock : i < (f.code d).length
  scope : f.InScope t d i
  same : ∀ env w, At f w₀ d (i + 1) env w → env r = env t

/-- What the replacements found so far are trusted for. -/
structure Replacing (visited : BlockId → Nat → Prop) (replaced : List (ValueId × ValueId)) :
    Prop where
  site : ∀ e ∈ replaced, ∃ d i, visited d i ∧ Replaces f w₀ e.1 e.2 d i
  flat : ∀ e ∈ replaced, e.2 ∉ keys replaced

/-- What is dropped is redundant. -/
structure Dropping (visited : BlockId → Nat → Prop) (replaced : List (ValueId × ValueId))
    (drops : List InstId) : Prop where
  site : ∀ id ∈ drops, ∃ d i, visited d i ∧ (f.block d).insts[i]? = some id
  quiet : ∀ id ∈ drops, (f.inst id).op ≠ .unreached
  redundant : ∀ b (j : Nat) id, (f.block b).insts[j]? = some id → id ∈ drops →
    ∀ env (w : World M.Rest), At f w₀ b j env w → Redundant f replaced (f.inst id) env w

end

section

variable {f : Func} {w₀ : World M.Rest} {visited : BlockId → Nat → Prop}
  {replaced : List (ValueId × ValueId)} {b : BlockId} {j : Nat}

theorem Replaces.holds (hs : f.Ssa) {r t : ValueId} {d : BlockId} {i : Nat}
    (h : Replaces f w₀ r t d i) (hd : f.Reachable d) {env : Env} {w : World M.Rest}
    (hat : At f w₀ b j env w) (hb : f.Before d (i + 1) b j) : env r = env t := by
  refine At.persist_env (φ := fun env => env r = env t) (D := fun x => x = r ∨ x = t) hs
    h.inBlock ?_ ?_ h.same hat hb
  · rintro x (rfl | rfl)
    · exact ⟨d, i + 1, h.defines, .inl ⟨rfl, Nat.le_refl _⟩⟩
    · exact h.scope.mono (.inl ⟨rfl, Nat.le_succ i⟩) hd
  · intro env env' he heq
    rw [he r (.inl rfl), he t (.inr rfl), heq]

/-- Where a replaced value is in scope, the replacement's site has been passed. -/
theorem Replaces.before (hs : f.Ssa) {r t : ValueId} {d : BlockId} {i : Nat}
    (h : Replaces f w₀ r t d i) (hr : f.InScope r b j) : f.Before d (i + 1) b j := by
  obtain ⟨d', i', hdef, hbef⟩ := hr
  obtain ⟨rfl, rfl⟩ := hs.unique h.defines hdef
  exact hbef

/-- A value and what replaces it are the same wherever the value is in scope. -/
theorem Replacing.same (h : Replacing f w₀ visited replaced) (hs : f.Ssa) {env : Env}
    {w : World M.Rest} (hat : At f w₀ b j env w) {v : ValueId} (hv : f.InScope v b j) :
    env (resolve replaced v) = env v := by
  rcases (resolve_of_flat h.flat v).2 with heq | hmem
  · rw [heq]
  · obtain ⟨d, i, _, hrep⟩ := h.site _ hmem
    have hbef := hrep.before hs hv
    exact (hrep.holds hs (hbef.reachable hat.reachable) hat hbef).symm

theorem Replacing.scope (h : Replacing f w₀ visited replaced) (hs : f.Ssa) (hr : f.Reachable b)
    {v : ValueId} (hv : f.InScope v b j) : f.InScope (resolve replaced v) b j := by
  rcases (resolve_of_flat h.flat v).2 with heq | hmem
  · rwa [heq]
  · obtain ⟨d, i, _, hrep⟩ := h.site _ hmem
    have hbef := hrep.before hs hv
    refine hrep.scope.mono ?_ hr
    exact Func.Before.trans (.inl ⟨rfl, Nat.le_succ i⟩) hbef hr

theorem Entry.mono {next next' : Nat} {versions : Versions} {replaced' : List (ValueId × ValueId)}
    {key : Lookup} {v : ValueId} (h : Entry f w₀ replaced next versions b j key v)
    (hn : next ≤ next') (hk : key.1.op.resultTy.isSome → v ∉ keys replaced → v ∉ keys replaced') :
    Entry f w₀ replaced' next' versions b j key v :=
  ⟨h.known, h.below.mono hn, h.scope, fun hr => hk hr (h.kept hr), h.flat⟩

end

/-- A walk part way through block `b`: `pre` are the instructions behind it. -/
structure Scan (f : Func) (w₀ : World M.Rest) (entered : List BlockId) (b : BlockId)
    (s₀ s : Visit) (pre : List InstId) (drops : List InstId) : Prop where
  facts : Facts f w₀ s.replaced s.next s.versions s.table b pre.length
  replacing : Replacing f w₀ (fun d i => d ∈ entered ∨ (d = b ∧ i < pre.length)) s.replaced
  dropping : Dropping f w₀ (fun d i => d ∈ entered ∨ (d = b ∧ i < pre.length)) s.replaced drops
  keep : s.keep = pre.filter (· ∉ drops)
  next : s₀.next ≤ s.next
  added : ∀ key, s.table.lookup key = s₀.table.lookup key ∨ key ∈ s.added
  grown : ∀ r ∈ keys s.replaced, r ∈ keys s₀.replaced ∨ ∃ i, f.Defines r b (i + 1)

section

variable {f : Func} {w₀ : World M.Rest} {entered : List BlockId} {b : BlockId} {s₀ s : Visit}
  {pre : List InstId} {drops : List InstId} {inst : Inst}

theorem Entry.step (hs : f.Ssa) (hst : SteadyRun f w₀) (hr : f.Reachable b)
    {replaced : List (ValueId × ValueId)} {next : Nat} {versions versions' : Versions} {j : Nat}
    {key : Lookup} {v : ValueId} (hj : (f.code b)[j]? = some inst)
    (h : Entry f w₀ replaced next versions b j key v)
    (hcur : key.1.Current versions' → key.1.Current versions)
    (hkeep : key.1.Current versions' → ∀ (w w' : World M.Rest) regs args r,
      inst.op.eval f w regs args = .next r w' →
      unversioned key.1.op = true ∨ key.1.Stable w w') :
    Entry f w₀ replaced next versions' b (j + 1) key v where
  known hc := (h.known (hcur hc)).step hs hst hj h.scope (hkeep hc)
  below := h.below
  scope x hx := (h.scope x hx).mono (.inl ⟨rfl, Nat.le_succ j⟩) hr
  kept := h.kept
  flat := h.flat

/-- What no replacement has been found for yet, nor given as one. -/
theorem Replacing.unseen (hs : f.Ssa) {j : Nat} {replaced : List (ValueId × ValueId)}
    (h : Replacing f w₀ (fun d i => d ∈ entered ∨ (d = b ∧ i < j)) replaced)
    (hb : b ∉ entered) (hdoms : ∀ d ∈ entered, ∀ a, a ≠ d → f.Dom a d → a ∈ entered)
    (hj : (f.code b)[j]? = some inst) {r : ValueId} (hres : inst.result = some r) :
    r ∉ keys replaced ∧ ∀ e ∈ replaced, e.2 ≠ r := by
  have hdef := Func.Defines.inst hj hres
  constructor
  · intro hmem
    obtain ⟨e, he, rfl⟩ := List.mem_map.mp hmem
    obtain ⟨d, i, hvis, hrep⟩ := h.site e he
    obtain ⟨rfl, hij⟩ := hs.unique hrep.defines hdef
    rcases hvis with hd | ⟨_, hlt⟩
    · exact hb hd
    · omega
  · rintro e he rfl
    obtain ⟨d, i, hvis, hrep⟩ := h.site e he
    obtain ⟨d', i', hdef', hbef⟩ := hrep.scope
    obtain ⟨rfl, rfl⟩ := hs.unique hdef hdef'
    rcases hbef with ⟨rfl, hle⟩ | ⟨hne, hdom⟩
    · rcases hvis with hd | ⟨_, hlt⟩
      · exact hb hd
      · omega
    · rcases hvis with hd | ⟨rfl, _⟩
      · exact hb (hdoms d hd _ hne hdom)
      · exact hne rfl

theorem Replacing.mono {visited visited' : BlockId → Nat → Prop}
    {replaced : List (ValueId × ValueId)} (h : Replacing f w₀ visited replaced)
    (hsub : ∀ d i, visited d i → visited' d i) : Replacing f w₀ visited' replaced where
  site e he := by
    obtain ⟨d, i, hvis, hrep⟩ := h.site e he
    exact ⟨d, i, hsub d i hvis, hrep⟩
  flat := h.flat

theorem Dropping.mono {visited visited' : BlockId → Nat → Prop}
    {replaced replaced' : List (ValueId × ValueId)} (h : Dropping f w₀ visited replaced drops)
    (hsub : ∀ d i, visited d i → visited' d i) (hkeys : ∀ r ∈ keys replaced, r ∈ keys replaced') :
    Dropping f w₀ visited' replaced' drops where
  site id hid := by
    obtain ⟨d, i, hvis, hat⟩ := h.site id hid
    exact ⟨d, i, hsub d i hvis, hat⟩
  quiet := h.quiet
  redundant b j id hid hd env w hat := (h.redundant b j id hid hd env w hat).mono hkeys

/-- What has been passed before one more instruction. -/
theorem passed_succ {j : Nat} (d : BlockId) (i : Nat)
    (h : d ∈ entered ∨ (d = b ∧ i < j)) : d ∈ entered ∨ (d = b ∧ i < j + 1) :=
  h.imp id fun ⟨hd, hi⟩ => ⟨hd, Nat.lt_succ_of_lt hi⟩

theorem Scan.args_same (h : Scan f w₀ entered b s₀ s pre drops) (hs : f.Ssa) (hv : f.Valid)
    (hj : (f.code b)[pre.length]? = some inst) {env : Env} {w : World M.Rest}
    (hat : At f w₀ b pre.length env w) :
    (inst.args.map (resolve s.replaced)).map env = inst.args.map env := by
  rw [List.map_map]
  exact List.map_congr_left fun a ha => h.replacing.same hs hat
    (hv.uses b hat.reachable _ inst hj a (List.mem_append_left _ ha))

theorem Scan.args_scope (h : Scan f w₀ entered b s₀ s pre drops) (hs : f.Ssa) (hv : f.Valid)
    (hr : f.Reachable b) (hj : (f.code b)[pre.length]? = some inst) {x : ValueId}
    (hx : x ∈ inst.args.map (resolve s.replaced)) : f.InScope x b pre.length := by
  obtain ⟨a, ha, rfl⟩ := List.mem_map.mp hx
  exact h.replacing.scope hs hr (hv.uses b hr _ inst hj a (List.mem_append_left _ ha))

/-- What is looked up does not change memory, so everything known stays so. -/
theorem Scan.facts_keyed (h : Scan f w₀ entered b s₀ s pre drops) (hs : f.Ssa)
    (hst : SteadyRun f w₀) (hr : f.Reachable b) (hj : (f.code b)[pre.length]? = some inst)
    {k : Key} (hk : keyOf s.versions inst.op = some k) :
    Facts f w₀ s.replaced s.next s.versions s.table b (pre.length + 1) where
  below := h.facts.below
  entry key v hl := (h.facts.entry key v hl).step hs hst hr hj id fun _ w w' regs args r he => by
    rw [eval_unchanged he (keyOf_quiet hk).2.2]
    exact key.1.stable_refl w

/-- Where an entry is found, it says what the instruction would give. -/
theorem Scan.found_holds (h : Scan f w₀ entered b s₀ s pre drops) (hs : f.Ssa) (hv : f.Valid)
    (hj : (f.code b)[pre.length]? = some inst) {k : Key} (hk : keyOf s.versions inst.op = some k)
    {earlier : ValueId}
    (hl : s.table.lookup (k, inst.args.map (resolve s.replaced)) = some earlier) {env : Env}
    {w : World M.Rest} (hat : At f w₀ b pre.length env w) :
    inst.op.eval f w (inst.regs env) (inst.args.map env) =
      .next (if inst.op.resultTy.isSome then some (env earlier) else none) w := by
  have hentry := h.facts.entry _ _ hl
  have hholds : Holds f (k, inst.args.map (resolve s.replaced)) earlier env w := by
    rcases hentry.known (keyOf_current hk) with ⟨_, hall⟩ | ⟨hu, d, i, origin, ho, hbef, hall⟩
    · exact hall env w hat
    · refine hall ⟨b, pre.length, inst, hj, ?_, hbef⟩ env w hat
      rw [ho.op]
      exact (unversioned_op hk hu).symm
  unfold Holds at hholds
  simp only at hholds
  rw [h.args_same hs hv hj hat, keyOf_eval hk, keyOf_resultTy hk] at hholds
  rw [keyOf_regs hk, hholds]

end

/-- What a visit of a block takes for granted. -/
structure Visiting (f : Func) (w₀ : World M.Rest) (entered : List BlockId) (b : BlockId) :
    Prop where
  ssa : f.Ssa
  valid : f.Valid
  typed : f.Typed
  steady : SteadyRun f w₀
  reachable : f.Reachable b
  fresh : b ∉ entered
  doms : ∀ d ∈ entered, ∀ a, a ≠ d → f.Dom a d → a ∈ entered

namespace Scan

variable {f : Func} {w₀ : World M.Rest} {entered : List BlockId} {b : BlockId} {s₀ s : Visit}
  {pre rest : List InstId} {drops : List InstId} {id : InstId}

theorem code_at (hsplit : (f.block b).insts = pre ++ id :: rest) :
    (f.code b)[pre.length]? = some (f.inst id) := by
  simp [Func.code, hsplit]

theorem not_behind (hc : Visiting f w₀ entered b) (hsplit : (f.block b).insts = pre ++ id :: rest) :
    id ∉ pre := by
  intro hmem
  obtain ⟨k, hk⟩ := List.mem_iff_getElem?.mp hmem
  have hlt := (List.getElem?_eq_some_iff.mp hk).1
  have hk' : (f.block b).insts[k]? = some id := by
    rw [hsplit, List.getElem?_append_left hlt, hk]
  have := (hc.ssa.place hk' (show (f.block b).insts[pre.length]? = some id by simp [hsplit])).2
  omega

theorem not_dropped (hc : Visiting f w₀ entered b) (h : Scan f w₀ entered b s₀ s pre drops)
    (hsplit : (f.block b).insts = pre ++ id :: rest) : id ∉ drops := by
  intro hmem
  obtain ⟨d, i, hvis, hat⟩ := h.dropping.site id hmem
  obtain ⟨rfl, rfl⟩ := hc.ssa.place hat
    (show (f.block b).insts[pre.length]? = some id by simp [hsplit])
  rcases hvis with hd | ⟨_, hlt⟩
  · exact hc.fresh hd
  · exact Nat.lt_irrefl _ hlt

theorem filter_kept (hd : id ∉ drops) :
    (pre ++ [id]).filter (· ∉ drops) = pre.filter (· ∉ drops) ++ [id] := by
  simp [List.filter_append, hd]

theorem filter_dropped (hp : id ∉ pre) :
    (pre ++ [id]).filter (· ∉ id :: drops) = pre.filter (· ∉ drops) := by
  rw [List.filter_append]
  simp only [List.mem_cons, true_or, not_true_eq_false, decide_false, Bool.false_eq_true,
    not_false_eq_true, List.filter_cons_of_neg, List.filter_nil, List.append_nil]
  refine List.filter_congr fun x hx => ?_
  have hne : x ≠ id := fun he => hp (he ▸ hx)
  simp [hne]

theorem result_none {inst : Inst} (ht : inst.Typed f) :
    inst.result = none ↔ inst.op.resultTy = none := by
  rw [← ht.result]
  cases inst.result <;> simp

/-- What is looked up and found is dropped for the earlier value. -/
theorem found (hc : Visiting f w₀ entered b) (h : Scan f w₀ entered b s₀ s pre drops)
    (hsplit : (f.block b).insts = pre ++ id :: rest) {k : Key}
    (hk : keyOf s.versions (f.inst id).op = some k) {earlier : ValueId}
    (hl : s.table.lookup (k, (f.inst id).args.map (resolve s.replaced)) = some earlier) :
    Scan f w₀ entered b s₀ (s.step f id) (pre ++ [id]) (id :: drops) := by
  have hj := code_at hsplit
  have htyped := hc.typed b _ (List.mem_of_getElem? hj)
  have hfacts := h.facts_keyed hc.ssa hc.steady hc.reachable hj hk
  have hholds : ∀ env (w : World M.Rest), At f w₀ b pre.length env w →
      (f.inst id).op.eval f w ((f.inst id).regs env) ((f.inst id).args.map env) =
        .next (if (f.inst id).op.resultTy.isSome then some (env earlier) else none) w :=
    fun _ _ hat => h.found_holds hc.ssa hc.valid hj hk hl hat
  have hentry := h.facts.entry _ _ hl
  have hlen : (pre ++ [id]).length = pre.length + 1 := by simp
  have hred : ∀ map, (∀ r ∈ (f.inst id).result, r ∈ keys map) → ∀ env (w : World M.Rest),
      At f w₀ b pre.length env w → Redundant f map (f.inst id) env w := fun map hkey env w hat =>
    ⟨(keyOf_quiet hk).1, ⟨_, hholds env w hat⟩, hkey⟩
  have hdrop : ∀ map, (∀ r ∈ keys s.replaced, r ∈ keys map) →
      (∀ r ∈ (f.inst id).result, r ∈ keys map) →
      Dropping f w₀ (fun d i => d ∈ entered ∨ (d = b ∧ i < (pre ++ [id]).length)) map
        (id :: drops) := by
    intro map hsub hkey
    have hold := h.dropping.mono (fun d i hd => passed_succ d i hd) hsub
    rw [hlen]
    refine ⟨fun i hi => ?_, fun i hi => ?_, fun c j i hi hmem env w hat => ?_⟩
    · rcases List.mem_cons.mp hi with rfl | hi
      · exact ⟨b, pre.length, .inr ⟨rfl, Nat.lt_succ_self _⟩, by simp [hsplit]⟩
      · exact hold.site i hi
    · rcases List.mem_cons.mp hi with rfl | hi
      · exact (keyOf_quiet hk).2.1
      · exact hold.quiet i hi
    · rcases List.mem_cons.mp hmem with rfl | hmem
      · obtain ⟨rfl, rfl⟩ := hc.ssa.place hi
          (show (f.block b).insts[pre.length]? = some i by simp [hsplit])
        exact hred map hkey env w hat
      · exact hold.redundant c j i hi hmem env w hat
  have hkeep : s.keep = (pre ++ [id]).filter (· ∉ id :: drops) := by
    rw [filter_dropped (not_behind hc hsplit), h.keep]
  unfold Visit.step
  simp only [keyOf_write hk, Visit.look, hk, hl]
  cases hres : (f.inst id).result with
  | none =>
      simp only
      refine ⟨hlen ▸ hfacts, ?_, hdrop _ (fun _ hr => hr) (by simp [hres]), hkeep, h.next, h.added,
        h.grown⟩
      rw [hlen]
      exact h.replacing.mono passed_succ
  | some r =>
      simp only
      have hisSome : (f.inst id).op.resultTy.isSome := by
        rw [Option.isSome_iff_ne_none]
        intro hn
        rw [(result_none htyped).mpr hn] at hres
        cases hres
      have hisKey : k.op.resultTy.isSome := by rwa [keyOf_resultTy hk]
      have hscope := hentry.scope earlier (.inr ⟨rfl, hisKey⟩)
      obtain ⟨hunseen, hgiven⟩ := h.replacing.unseen hc.ssa hc.fresh hc.doms hj hres
      have hdefine : ∀ x, f.InScope x b pre.length → x ≠ r := fun x hx he =>
        hc.ssa.result_not_inScope hx (.inl ⟨rfl, Nat.le_refl _⟩) hc.reachable hj (he ▸ hres)
      have hsub : ∀ x ∈ keys s.replaced, x ∈ keys ((r, earlier) :: s.replaced) :=
        fun x hx => List.mem_cons_of_mem _ hx
      refine ⟨⟨hfacts.below, fun key v hkv => ?_⟩, ⟨fun e he => ?_, fun e he => ?_⟩,
        hdrop _ hsub ?_, hkeep, h.next, h.added, ?_⟩
      · rw [hlen]
        refine (hfacts.entry key v hkv).mono (Nat.le_refl _) fun hsome hnot => ?_
        have hv := (h.facts.entry key v hkv).scope v (.inr ⟨rfl, hsome⟩)
        simp only [keys, List.map_cons, List.mem_cons, not_or]
        exact ⟨hdefine v hv, hnot⟩
      · rw [hlen]
        rcases List.mem_cons.mp he with rfl | he
        · refine ⟨b, pre.length, .inr ⟨rfl, Nat.lt_succ_self _⟩, .inst hj hres,
            (List.getElem?_eq_some_iff.mp hj).1, hscope, fun env' w' hat' => ?_⟩
          obtain ⟨env, w, seen, hat, hrun⟩ := at_succ hj hat'
          obtain ⟨v, he, rfl, _⟩ := Inst.run_on hrun
          rw [hholds env w hat, if_pos hisSome] at he
          cases he
          simp only [hres, Env.define, Function.update_self]
          exact (Function.update_of_ne (hdefine _ hscope) _ _).symm
        · obtain ⟨d, i, hvis, hrep⟩ := h.replacing.site e he
          exact ⟨d, i, passed_succ d i hvis, hrep⟩
      · simp only [keys, List.map_cons, List.mem_cons, not_or]
        rcases List.mem_cons.mp he with rfl | he
        · exact ⟨hdefine _ hscope, hentry.kept hisKey⟩
        · exact ⟨hgiven e he, h.replacing.flat e he⟩
      · simp [keys, hres]
      · intro x hx
        rcases List.mem_cons.mp hx with rfl | hx
        · exact .inr ⟨pre.length, .inst hj hres⟩
        · exact h.grown x hx

/-- An instruction that stays, whatever it leaves of the table. -/
theorem stays (hc : Visiting f w₀ entered b) (h : Scan f w₀ entered b s₀ s pre drops)
    (hsplit : (f.block b).insts = pre ++ id :: rest) {s' : Visit}
    (hfacts : Facts f w₀ s.replaced s'.next s'.versions s'.table b (pre.length + 1))
    (hrep : s'.replaced = s.replaced) (hkeep : s'.keep = s.keep ++ [id]) (hnext : s.next ≤ s'.next)
    (hadded : ∀ key ∈ s.added, key ∈ s'.added)
    (htable : ∀ key, s'.table.lookup key = s.table.lookup key ∨ key ∈ s'.added) :
    Scan f w₀ entered b s₀ s' (pre ++ [id]) drops := by
  have hlen : (pre ++ [id]).length = pre.length + 1 := by simp
  constructor
  · rwa [hlen, hrep]
  · rw [hlen, hrep]
    exact h.replacing.mono passed_succ
  · rw [hlen, hrep]
    exact h.dropping.mono passed_succ fun _ hr => hr
  · rw [hkeep, filter_kept (not_dropped hc h hsplit), h.keep]
  · exact Nat.le_trans h.next hnext
  · intro key
    rcases htable key with heq | hmem
    · rcases h.added key with heq' | hmem
      · exact .inl (heq.trans heq')
      · exact .inr (hadded key hmem)
    · exact .inr hmem
  · rw [hrep]
    exact h.grown

end Scan

theorem Facts.insert {f : Func} {w₀ : World M.Rest} {replaced : List (ValueId × ValueId)}
    {next : Nat} {versions : Versions} {table : Table} {b : BlockId} {j : Nat} {key : Lookup}
    {v : ValueId} (hbelow : versions.Below next)
    (hold : ∀ k u, k ≠ key → table.lookup k = some u →
      Entry f w₀ replaced next versions b j k u)
    (hnew : Entry f w₀ replaced next versions b j key v) :
    Facts f w₀ replaced next versions ((key, v) :: table) b j where
  below := hbelow
  entry k u hl := by
    rw [List.lookup_cons] at hl
    by_cases hk : k = key
    · subst hk
      simp only [beq_self_eq_true, Option.some.injEq] at hl
      exact hl ▸ hnew
    · rw [beq_false_of_ne hk] at hl
      exact hold k u hk hl

theorem lookup_insert (key : Lookup) (v : ValueId) (table : Table) (added : List Lookup)
    (k : Lookup) : ((key, v) :: table).lookup k = table.lookup k ∨ k ∈ key :: added := by
  by_cases hk : k = key
  · exact .inr (hk ▸ List.mem_cons_self)
  · rw [List.lookup_cons, beq_false_of_ne hk]
    exact .inl rfl

theorem keyOf_none {v : Versions} (v' : Versions) {op : Op} (h : keyOf v op = none) :
    keyOf v' op = none := by
  cases op <;> first | rfl | cases h

namespace Scan

variable {f : Func} {w₀ : World M.Rest} {entered : List BlockId} {b : BlockId} {s₀ s : Visit}
  {pre rest : List InstId} {drops : List InstId} {id : InstId}

/-- What an instruction gives is known of it once it has run. -/
theorem given (hc : Visiting f w₀ entered b) (h : Scan f w₀ entered b s₀ s pre drops)
    (hsplit : (f.block b).insts = pre ++ id :: rest) {k : Key}
    (hk : keyOf s.versions (f.inst id).op = some k) {v : ValueId}
    (hv : (f.inst id).op.resultTy.isSome → (f.inst id).result = some v) :
    Entry f w₀ s.replaced s.next s.versions b (pre.length + 1)
      (k, (f.inst id).args.map (resolve s.replaced)) v := by
  have hj := code_at hsplit
  have htyped := hc.typed b _ (List.mem_of_getElem? hj)
  have hargs : ∀ x ∈ (f.inst id).args.map (resolve s.replaced), f.InScope x b pre.length :=
    fun x hx => h.args_scope hc.ssa hc.valid hc.reachable hj hx
  have hnext : ∀ x, f.InScope x b pre.length → f.InScope x b (pre.length + 1) := fun x hx =>
    hx.mono (.inl ⟨rfl, Nat.le_succ _⟩) hc.reachable
  have hholds : ∀ env' w', At f w₀ b (pre.length + 1) env' w' →
      Holds f (k, (f.inst id).args.map (resolve s.replaced)) v env' w' := by
    intro env' w' hat'
    obtain ⟨env, w, seen, hat, hrun⟩ := at_succ hj hat'
    obtain ⟨x, he, rfl, _⟩ := Inst.run_on hrun
    have hw : w' = w := eval_unchanged he (keyOf_quiet hk).2.2
    subst hw
    have hsame : ((f.inst id).args.map (resolve s.replaced)).map
        (env.define (f.inst id).result x) = (f.inst id).args.map env := by
      rw [← h.args_same hc.ssa hc.valid hj hat]
      exact List.map_congr_left fun a ha => Env.define_of_ne env x
        (hc.ssa.result_not_inScope (hargs a ha) (.inl ⟨rfl, Nat.le_refl _⟩) hc.reachable hj)
    unfold Holds
    simp only [hsame, keyOf_eval hk, keyOf_resultTy hk]
    rw [← keyOf_regs hk, he]
    congr 1
    split
    · rename_i hsome
      cases x with
      | none =>
          rw [keyOf_gives hk he] at hsome
          cases hsome
      | some x => simp [hv hsome, Env.define]
    · rename_i hnone
      cases x with
      | none => rfl
      | some x =>
          rw [Op.eval_ty he] at hnone
          exact absurd rfl hnone
  constructor
  · intro _
    cases hu : unversioned k.op with
    | false => exact .inl ⟨hu, hholds⟩
    | true =>
        refine .inr ⟨hu, b, pre.length, f.inst id, ⟨hj, (unversioned_op hk hu).symm, ?_⟩,
          .inl ⟨rfl, Nat.le_refl _⟩, fun _ => hholds⟩
        intro c i env w hat hbef
        refine At.persist_env (D := fun x => x ∈ (f.inst id).args.map (resolve s.replaced) ∨
          x ∈ (f.inst id).args) hc.ssa (Nat.le_of_lt (List.getElem?_eq_some_iff.mp hj).1) ?_ ?_
          (fun env w hat => h.args_same hc.ssa hc.valid hj hat) hat hbef
        · rintro x (hx | hx)
          · exact hargs x hx
          · exact hc.valid.uses b hc.reachable _ _ hj x (List.mem_append_left _ hx)
        · intro env env' he heq
          rw [List.map_congr_left fun x hx => he x (.inl hx), heq]
          exact (List.map_congr_left fun x hx => he x (.inr hx)).symm
  · exact keyOf_below hk h.facts.below
  · rintro x (hx | ⟨rfl, hsome⟩)
    · exact hnext x (hargs x hx)
    · rw [keyOf_resultTy hk] at hsome
      exact ⟨b, pre.length + 1, .inst hj (hv hsome), .inl ⟨rfl, Nat.le_refl _⟩⟩
  · intro hsome
    rw [keyOf_resultTy hk] at hsome
    exact (h.replacing.unseen hc.ssa hc.fresh hc.doms hj (hv hsome)).1
  · intro ref n hkey
    have harity := htyped.arity
    simp only at hkey
    subst hkey
    cases hop : (f.inst id).op <;> rw [hop] at hk harity <;> cases hk
    have := harity (by simp)
    simp only [Op.argTys, List.length_nil, List.length_eq_zero_iff] at this
    simp [this]

/-- What is looked up and not found is entered. -/
theorem missed (hc : Visiting f w₀ entered b) (h : Scan f w₀ entered b s₀ s pre drops)
    (hsplit : (f.block b).insts = pre ++ id :: rest) {k : Key}
    (hk : keyOf s.versions (f.inst id).op = some k)
    (hl : s.table.lookup (k, (f.inst id).args.map (resolve s.replaced)) = none) :
    Scan f w₀ entered b s₀ (s.step f id) (pre ++ [id]) drops := by
  have hj := code_at hsplit
  have htyped := hc.typed b _ (List.mem_of_getElem? hj)
  have hfacts := h.facts_keyed hc.ssa hc.steady hc.reachable hj hk
  have henter : ∀ v, ((f.inst id).op.resultTy.isSome → (f.inst id).result = some v) →
      Scan f w₀ entered b s₀ ({ s with keep := s.keep ++ [id] }.insert
        (k, (f.inst id).args.map (resolve s.replaced)) v) (pre ++ [id]) drops := fun v hv =>
    h.stays hc hsplit
      (Facts.insert hfacts.below (fun key u _ hu => hfacts.entry key u hu) (h.given hc hsplit hk hv))
      rfl rfl (Nat.le_refl _) (fun _ hm => List.mem_cons_of_mem _ hm) (lookup_insert _ _ _ _)
  unfold Visit.step
  simp only [keyOf_write hk, Visit.look, hk, hl]
  cases hres : (f.inst id).result with
  | some r => exact henter r fun _ => hres
  | none =>
      obtain ⟨kind, hop⟩ := keyOf_guard hk ((result_none htyped).mp hres)
      simp only [hop]
      refine henter _ fun hsome => ?_
      rw [(result_none htyped).mp hres] at hsome
      cases hsome

/-- What was known before a write is known after it, but for the slot a store
to a global changes. -/
theorem facts_written (hc : Visiting f w₀ entered b) (h : Scan f w₀ entered b s₀ s pre drops)
    (hsplit : (f.block b).insts = pre ++ id :: rest) (ids : List ValueId) {key : Lookup}
    {v : ValueId} (hl : s.table.lookup key = some v)
    (hglobal : ∀ slot, (f.inst id).op = .storeGlobal slot →
      key ≠ (.global (.root slot) s.versions.globals, [])) :
    Entry f w₀ s.replaced (s.write ids (f.inst id).op).next
      (s.write ids (f.inst id).op).versions b (pre.length + 1) key v := by
  have hj := code_at hsplit
  have hentry := h.facts.entry key v hl
  have hstep := hentry.step hc.ssa hc.steady hc.reachable hj
    (fun h => ((write_versions s ids (f.inst id).op w₀).current_stable hentry.below h).1) ?_
  · exact hstep.mono (write_below ids _ h.facts.below).2 fun _ hnot => hnot
  · intro hcur w w' regs args r he
    by_cases hop : ∃ slot, (f.inst id).op = .storeGlobal slot
    · obtain ⟨slot, hop⟩ := hop
      rw [hop] at he hcur
      rcases storeGlobal_stable he hentry.below hcur with hu | hstable | hkey
      · exact .inl hu
      · exact .inr hstable
      · refine absurd ?_ (hglobal slot hop)
        exact Prod.ext hkey (hentry.flat _ _ hkey)
    · exact ((write_kept s ids he fun slot hs => hop ⟨slot, hs⟩).current_stable
        hentry.below hcur).2

/-- What a store puts into a field is what reading the field gives. -/
theorem stored_field (hc : Visiting f w₀ entered b) (h : Scan f w₀ entered b s₀ s pre drops)
    (hsplit : (f.block b).insts = pre ++ id :: rest) {slot : Nat}
    (hop : (f.inst id).op = .storeField slot) :
    Entry f w₀ s.replaced (s.next + 1) { s.versions with fields := s.next + 1 } b (pre.length + 1)
      (.field slot (s.next + 1), [((f.inst id).args.map (resolve s.replaced)).getD 0 0])
      (((f.inst id).args.map (resolve s.replaced)).getD 1 0) := by
  have hj := code_at hsplit
  have htyped := hc.typed b _ (List.mem_of_getElem? hj)
  have harity := htyped.arity (by simp [hop])
  rw [hop] at harity
  obtain ⟨x, y, hargs⟩ := List.length_eq_two.mp harity
  have hresult : (f.inst id).result = none := (result_none htyped).mpr (by rw [hop]; rfl)
  obtain ⟨_, hy, hty⟩ := htyped.args 1 .tagged (by rw [hop]; rfl)
  rw [hargs] at hy
  cases hy
  have hscope : ∀ z ∈ (f.inst id).args.map (resolve s.replaced), f.InScope z b pre.length :=
    fun z hz => h.args_scope hc.ssa hc.valid hc.reachable hj hz
  have hsame := fun env (w : World M.Rest) (hat : At f w₀ b pre.length env w) =>
    h.args_same hc.ssa hc.valid hj hat
  simp only [hargs, List.map_cons, List.map_nil, List.getD_cons_zero, List.getD_cons_succ,
    List.mem_cons, List.not_mem_nil, or_false, List.cons.injEq, and_true] at hscope hsame ⊢
  constructor
  · intro _
    refine .inl ⟨rfl, fun env' w' hat' => ?_⟩
    obtain ⟨env, w, seen, hat, hrun⟩ := at_succ hj hat'
    obtain ⟨v, he, rfl, _⟩ := Inst.run_on hrun
    obtain ⟨hx, hy⟩ := hsame env w hat
    rw [hop, hargs] at he
    cases he
    have hdef : env.define (f.inst id).result none = env := by rw [hresult]; rfl
    rw [hdef]
    have htag : (env y).ty = .tagged := (hat.typed hc.valid hc.typed y).trans hty
    unfold Holds
    simp only [List.map_cons, List.map_nil, Key.op, hx, hy]
    have hload : ∀ w : World M.Rest, (Op.loadField slot).eval f w [] [env x] =
        .next (some (.tagged (w.fields (env x).asRef slot))) w := fun _ => rfl
    rw [hload]
    cases hval : env y <;> rw [hval] at htag <;> cases htag
    simp [World.setField, Op.resultTy, Val.taggedOf]
  · exact Nat.le_refl _
  · rintro z (hz | ⟨rfl, _⟩)
    · rw [List.mem_singleton] at hz
      exact (hscope z (.inl hz)).mono (.inl ⟨rfl, Nat.le_succ _⟩) hc.reachable
    · exact (hscope _ (.inr rfl)).mono (.inl ⟨rfl, Nat.le_succ _⟩) hc.reachable
  · exact fun _ => (resolve_of_flat h.replacing.flat y).1
  · intro _ _ hkey
    cases hkey

/-- What a store puts into a global is what reading the global gives. -/
theorem stored_global (hc : Visiting f w₀ entered b) (h : Scan f w₀ entered b s₀ s pre drops)
    (hsplit : (f.block b).insts = pre ++ id :: rest) {slot : Nat}
    (hop : (f.inst id).op = .storeGlobal slot) :
    Entry f w₀ s.replaced s.next s.versions b (pre.length + 1)
      (.global (.root slot) s.versions.globals, [])
      (((f.inst id).args.map (resolve s.replaced)).getD 0 0) := by
  have hj := code_at hsplit
  have htyped := hc.typed b _ (List.mem_of_getElem? hj)
  have harity := htyped.arity (by simp [hop])
  rw [hop] at harity
  obtain ⟨y, hargs⟩ := List.length_eq_one_iff.mp harity
  have hresult : (f.inst id).result = none := (result_none htyped).mpr (by rw [hop]; rfl)
  obtain ⟨_, hy, hty⟩ := htyped.args 0 .tagged (by rw [hop]; rfl)
  rw [hargs] at hy
  cases hy
  have hscope : ∀ z ∈ (f.inst id).args.map (resolve s.replaced), f.InScope z b pre.length :=
    fun z hz => h.args_scope hc.ssa hc.valid hc.reachable hj hz
  have hsame := fun env (w : World M.Rest) (hat : At f w₀ b pre.length env w) =>
    h.args_same hc.ssa hc.valid hj hat
  simp only [hargs, List.map_cons, List.map_nil, List.getD_cons_zero,
    List.mem_cons, List.not_mem_nil, or_false, List.cons.injEq, and_true] at hscope hsame ⊢
  constructor
  · intro _
    refine .inl ⟨rfl, fun env' w' hat' => ?_⟩
    obtain ⟨env, w, seen, hat, hrun⟩ := at_succ hj hat'
    obtain ⟨v, he, rfl, _⟩ := Inst.run_on hrun
    have hy := hsame env w hat
    rw [hop, hargs] at he
    cases he
    have hdef : env.define (f.inst id).result none = env := by rw [hresult]; rfl
    rw [hdef]
    have htag : (env y).ty = .tagged := (hat.typed hc.valid hc.typed y).trans hty
    unfold Holds
    simp only [List.map_nil, Key.op, hy]
    have hload : ∀ w : World M.Rest, (Op.loadGlobal (.root slot)).eval f w [] [] =
        .next (some (.tagged (w.globals (.root slot)))) w := fun _ => rfl
    rw [hload]
    cases hval : env y <;> rw [hval] at htag <;> cases htag
    simp [World.setGlobal, Op.resultTy, Val.taggedOf, hval]
  · exact h.facts.below.globals
  · rintro z (hz | ⟨rfl, _⟩)
    · cases hz
    · exact (hscope _ rfl).mono (.inl ⟨rfl, Nat.le_succ _⟩) hc.reachable
  · exact fun _ => (resolve_of_flat h.replacing.flat y).1
  · exact fun _ _ _ => rfl

/-- What is not looked up stays, and may enter what it stores. -/
theorem written (hc : Visiting f w₀ entered b) (h : Scan f w₀ entered b s₀ s pre drops)
    (hsplit : (f.block b).insts = pre ++ id :: rest)
    (hk : keyOf s.versions (f.inst id).op = none) :
    Scan f w₀ entered b s₀ (s.step f id) (pre ++ [id]) drops := by
  have hbelow := write_below ((f.inst id).args.map (resolve s.replaced)) (f.inst id).op
    h.facts.below
  have hold := fun key v (hl : s.table.lookup key = some v) =>
    h.facts_written hc hsplit ((f.inst id).args.map (resolve s.replaced)) hl
  have hrest := write_rest s ((f.inst id).args.map (resolve s.replaced)) (f.inst id).op
  unfold Visit.step
  simp only [Visit.look, keyOf_none _ hk]
  by_cases hf : ∃ slot, (f.inst id).op = .storeField slot
  · obtain ⟨slot, hop⟩ := hf
    have hnew := h.stored_field hc hsplit hop
    simp only [hop] at hbelow hold hrest ⊢
    exact h.stays hc hsplit
      (Facts.insert hbelow.1 (fun key v _ hl => hold key v hl fun _ hs => by cases hs) hnew)
      hrest.1 (by simp [hrest.2]) hbelow.2 (fun _ hm => List.mem_cons_of_mem _ hm)
      (lookup_insert _ _ _ _)
  · by_cases hg : ∃ slot, (f.inst id).op = .storeGlobal slot
    · obtain ⟨slot, hop⟩ := hg
      have hnew := h.stored_global hc hsplit hop
      simp only [hop] at hbelow hold hrest ⊢
      refine h.stays hc hsplit
        (Facts.insert hbelow.1 (fun key v hne hl => hold key v hl fun slot' hs => ?_) hnew)
        hrest.1 (by simp [hrest.2]) hbelow.2 (fun _ hm => List.mem_cons_of_mem _ hm)
        (lookup_insert _ _ _ _)
      cases hs
      exact hne
    · have htable := write_table s ((f.inst id).args.map (resolve s.replaced))
        (fun slot hs => hf ⟨slot, hs⟩) fun slot hs => hg ⟨slot, hs⟩
      refine h.stays hc hsplit ⟨hbelow.1, fun key v hl => ?_⟩ hrest.1 (by simp [hrest.2]) hbelow.2
        (by simp [htable.2]) (by simp [htable.1])
      rw [htable.1] at hl
      exact hold key v hl fun slot hs => absurd ⟨slot, hs⟩ hg

/-- One instruction keeps what the walk is trusted for. -/
theorem step (hc : Visiting f w₀ entered b) (h : Scan f w₀ entered b s₀ s pre drops)
    (hsplit : (f.block b).insts = pre ++ id :: rest) :
    ∃ more, (∀ x ∈ more, x ∈ (f.block b).insts) ∧
      Scan f w₀ entered b s₀ (s.step f id) (pre ++ [id]) (more ++ drops) := by
  cases hk : keyOf s.versions (f.inst id).op with
  | none => exact ⟨[], by simp, h.written hc hsplit hk⟩
  | some k =>
      cases hl : s.table.lookup (k, (f.inst id).args.map (resolve s.replaced)) with
      | none => exact ⟨[], by simp, h.missed hc hsplit hk hl⟩
      | some earlier => exact ⟨[id], by simp [hsplit], h.found hc hsplit hk hl⟩

/-- And so does a whole block. -/
theorem block (hc : Visiting f w₀ entered b) (ids : List InstId)
    (h : Scan f w₀ entered b s₀ s pre drops) (hsplit : (f.block b).insts = pre ++ ids) :
    ∃ more, (∀ x ∈ more, x ∈ (f.block b).insts) ∧
      Scan f w₀ entered b s₀ (ids.foldl (Visit.step f) s) (f.block b).insts (more ++ drops) := by
  induction ids generalizing s pre drops with
  | nil =>
      rw [hsplit, List.append_nil]
      exact ⟨[], by simp, h⟩
  | cons id ids ih =>
      obtain ⟨more, hmore, h'⟩ := h.step hc hsplit
      obtain ⟨more', hmore', h''⟩ := ih h' (by simp [hsplit])
      refine ⟨more' ++ more, fun x hx => ?_, by rwa [List.append_assoc]⟩
      exact (List.mem_append.mp hx).elim (hmore' x) (hmore x)

end Scan

end Gvn

end Zuri.Jit.Ir
