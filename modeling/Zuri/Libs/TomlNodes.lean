import Zuri.Libs.TomlSlots
import Zuri.Libs.TomlValue

/-!
The tree of tables after each statement, and what decoding it finds. A table's children hide
the pairs of the table whose keys begin with the child's name.
-/

namespace Zuri.Toml

variable {σ : Type} {nodes : Nodes σ} {made : Addr → Prop} {entriesOf : Addr → List (Entry σ)}
  {counts : Addr → Nat} {a : Addr}

/-- The tree holds exactly the addresses that were made: arrays of tables with their elements,
and tables with their pairs and the names made below them. -/
structure Tree (nodes : Nodes σ) (made : Addr → Prop) (entriesOf : Addr → List (Entry σ))
    (counts : Addr → Nat) : Prop where
  root : made []
  node : ∀ a, nodes a ≠ none ↔ made a
  table : ∀ a entries children, nodes a = some (.table entries children) →
    counts a = 0 ∧ entries = entriesOf a ∧
      ∀ name, name ∈ children ↔ made (a ++ [.name name])
  array : ∀ a k, nodes a = some (.array k) → k = counts a ∧ 0 < k
  named : ∀ a name, made (a ++ [.name name]) → made a ∧ counts a = 0
  element : ∀ a i, made (a ++ [.element i]) → made a
  counted : ∀ a i, i < counts a ↔ made (a ++ [.element i])
  plain : ∀ a i, counts (a ++ [.element i]) = 0
  empty : ∀ a, ¬ made a → entriesOf a = []

theorem Nodes.set_self (nodes : Nodes σ) (a : Addr) (node : Node σ) :
    nodes.set a node a = some node := if_pos rfl

theorem Nodes.set_other (nodes : Nodes σ) (node : Node σ) {b : Addr} (h : b ≠ a) :
    nodes.set a node b = nodes b := if_neg h

namespace Tree

theorem congr {made' : Addr → Prop} (h : Tree nodes made entriesOf counts)
    (hmade : ∀ a, made a ↔ made' a) : Tree nodes made' entriesOf counts := by
  have heq : made = made' := funext fun a => propext (hmade a)
  rwa [heq] at h

theorem table_at (h : Tree nodes made entriesOf counts) (ha : made a) (hcount : counts a = 0) :
    ∃ entries children, nodes a = some (.table entries children) := by
  obtain ⟨node, hnode⟩ := Option.ne_none_iff_exists'.mp ((h.node a).mpr ha)
  cases node with
  | table entries children => exact ⟨entries, children, hnode⟩
  | array k =>
      obtain ⟨hk, hpos⟩ := h.array a k hnode
      omega

theorem array_at (h : Tree nodes made entriesOf counts) (ha : made a) (hcount : 0 < counts a) :
    nodes a = some (.array (counts a)) := by
  obtain ⟨node, hnode⟩ := Option.ne_none_iff_exists'.mp ((h.node a).mpr ha)
  cases node with
  | table entries children => exact absurd (h.table a _ _ hnode).1 (Nat.pos_iff_ne_zero.mp hcount)
  | array k => rw [hnode, (h.array a k hnode).1]

theorem absent_count (h : Tree nodes made entriesOf counts) (ha : ¬ made a) : counts a = 0 := by
  by_contra hne
  exact ha (h.element a 0 ((h.counted a 0).mp (Nat.pos_of_ne_zero hne)))

theorem up (h : Tree nodes made entriesOf counts) {step : Step} (hstep : made (a ++ [step])) :
    made a := by
  cases step with
  | name name => exact (h.named a name hstep).1
  | element i => exact h.element a i hstep

theorem made_leads (h : Tree nodes made entriesOf counts) {b : Addr} (hb : made b)
    (hab : a <+: b) : made a := by
  obtain ⟨rest, rfl⟩ := hab
  induction rest using List.reverseRecOn with
  | nil => rwa [List.append_nil] at hb
  | append_singleton rest step ih =>
      rw [← List.append_assoc] at hb
      exact ih (h.up hb)

/-- A table made below another one. -/
theorem addChild (h : Tree nodes made entriesOf counts) (ha : made a) (hcount : counts a = 0)
    {name : Text} (hnew : ¬ made (a ++ [.name name])) :
    Tree (nodes.addChild a name (.table [] [])) (fun b => made b ∨ b = a ++ [.name name])
      entriesOf counts := by
  obtain ⟨entries, children, hnode⟩ := h.table_at ha hcount
  have hne : a ≠ a ++ [.name name] := fun heq => by
    have hlength := congrArg List.length heq
    simp at hlength
  have hself : nodes.addChild a name (.table [] []) a =
      some (.table entries (children ++ [name])) := by
    simp only [Nodes.addChild, hnode]
    rw [Nodes.set_other _ _ hne, Nodes.set_self]
  have hchild : nodes.addChild a name (.table [] []) (a ++ [.name name]) =
      some (.table [] []) := by
    simp only [Nodes.addChild, hnode]
    exact Nodes.set_self _ _ _
  have hother : ∀ b, b ≠ a → b ≠ a ++ [.name name] →
      nodes.addChild a name (.table [] []) b = nodes b := by
    intro b hb hb'
    simp only [Nodes.addChild, hnode]
    rw [Nodes.set_other _ _ hb', Nodes.set_other _ _ hb]
  have hbelow : ∀ step, ¬ made (a ++ [.name name] ++ [step]) := fun step hmade =>
    hnew (h.up hmade)
  refine ⟨.inl h.root, fun b => ?_, fun b es cs hb => ?_, fun b k hb => ?_, fun b n hb => ?_,
    fun b i hb => ?_, fun b i => ?_, h.plain, fun b hb => h.empty b fun hmade => hb (.inl hmade)⟩
  · by_cases hba : b = a
    · subst hba
      rw [hself]
      exact iff_of_true (Option.some_ne_none _) (.inl ha)
    by_cases hbc : b = a ++ [.name name]
    · subst hbc
      rw [hchild]
      exact iff_of_true (Option.some_ne_none _) (.inr rfl)
    rw [hother b hba hbc, h.node]
    exact ⟨.inl, fun hor => hor.resolve_right hbc⟩
  · by_cases hba : b = a
    · subst hba
      rw [hself] at hb
      cases hb
      obtain ⟨hzero, hentries, hchildren⟩ := h.table _ _ _ hnode
      refine ⟨hzero, hentries, fun n => ?_⟩
      rw [List.mem_append, hchildren, List.mem_singleton]
      refine or_congr Iff.rfl ⟨fun hn => by rw [hn], fun heq => ?_⟩
      cases List.append_cancel_left heq
      rfl
    by_cases hbc : b = a ++ [.name name]
    · subst hbc
      rw [hchild] at hb
      cases hb
      refine ⟨h.absent_count hnew, (h.empty _ hnew).symm, fun n => ?_⟩
      refine iff_of_false List.not_mem_nil ?_
      rintro (hmade | heq)
      · exact hbelow _ hmade
      · have hlength := congrArg List.length heq
        simp at hlength
    rw [hother b hba hbc] at hb
    obtain ⟨hzero, hentries, hchildren⟩ := h.table _ _ _ hb
    refine ⟨hzero, hentries, fun n => ?_⟩
    rw [hchildren]
    refine ⟨.inl, fun hor => hor.resolve_right fun heq => hba ?_⟩
    exact (List.append_inj' heq rfl).1
  · have hba : b ≠ a := by
      rintro rfl
      rw [hself] at hb
      cases hb
    have hbc : b ≠ a ++ [.name name] := by
      rintro rfl
      rw [hchild] at hb
      cases hb
    rw [hother b hba hbc] at hb
    exact h.array b k hb
  · rcases hb with hb | hb
    · exact ⟨.inl (h.named b n hb).1, (h.named b n hb).2⟩
    · rw [(List.append_inj' hb rfl).1]
      exact ⟨.inl ha, hcount⟩
  · rcases hb with hb | hb
    · exact .inl (h.element b i hb)
    · cases (List.append_inj' hb rfl).2
  · rw [h.counted]
    refine ⟨.inl, fun hor => hor.resolve_right fun heq => ?_⟩
    cases (List.append_inj' heq rfl).2

end Tree

theorem leads_place (counts : Addr → Nat) (start : Addr) (path : List Text) :
    start <+: place counts start path := by
  induction path generalizing start with
  | nil => exact List.prefix_refl start
  | cons name path ih =>
      simp only [place]
      split
      · exact (List.prefix_append _ _).trans (ih _)
      · refine List.IsPrefix.trans ?_ (ih _)
        rw [List.append_assoc]
        exact List.prefix_append _ _

/-- Walking down a header's path makes what is missing on the way to its place. -/
theorem docWalk_spec {path : List Text} (h : Tree nodes made entriesOf counts) (ha : made a)
    (hcount : counts a = 0) :
    (docWalk nodes a path).2 = place counts a path ∧
      counts (place counts a path) = 0 ∧
      Tree (docWalk nodes a path).1 (fun b => made b ∨ b <+: place counts a path)
        entriesOf counts := by
  induction path generalizing nodes made a with
  | nil =>
      refine ⟨rfl, hcount, h.congr fun b => ⟨.inl, fun hb => ?_⟩⟩
      exact hb.elim id fun hb => h.made_leads ha hb
  | cons name path ih =>
      simp only [docWalk, place]
      by_cases hzero : counts (a ++ [.name name]) = 0
      · rw [if_pos hzero]
        by_cases hmade : made (a ++ [.name name])
        · obtain ⟨entries, children, hnode⟩ := h.table_at hmade hzero
          have hstep : docChild nodes a name = (nodes, a ++ [.name name]) := by
            simp only [docChild, hnode]
          rw [hstep]
          exact ih h hmade hzero
        · have hnone : nodes (a ++ [.name name]) = none := by
            by_contra hne
            exact hmade ((h.node _).mp hne)
          have hstep : docChild nodes a name =
              (nodes.addChild a name (.table [] []), a ++ [.name name]) := by
            simp only [docChild, hnone]
          rw [hstep]
          obtain ⟨hdest, hend, htree⟩ := ih (h.addChild ha hcount hmade) (.inr rfl) hzero
          refine ⟨hdest, hend, htree.congr fun b => ?_⟩
          rw [or_assoc]
          refine or_congr Iff.rfl (or_iff_right_of_imp ?_)
          rintro rfl
          exact leads_place counts _ path
      · rw [if_neg hzero]
        have hpos := Nat.pos_of_ne_zero hzero
        have hlast : counts (a ++ [.name name]) - 1 < counts (a ++ [.name name]) := by omega
        have hmade := (h.counted _ _).mp hlast
        have hstep : docChild nodes a name =
            (nodes, a ++ [.name name] ++ [.element (counts (a ++ [.name name]) - 1)]) := by
          simp only [docChild, h.array_at (h.element _ _ hmade) hpos]
        rw [hstep]
        exact ih h hmade (h.plain _ _)

theorem ne_snoc (a : Addr) (step : Step) : a ≠ a ++ [step] := fun heq => by
  have hlength := congrArg List.length heq
  simp at hlength

namespace Tree

/-- The tree after an array of tables has gained an element, whether it was there or not. -/
theorem grow {after : Nodes σ} {array last : Addr} {name : Text}
    (h : Tree nodes made entriesOf counts) (ha : made a) (hcount : counts a = 0)
    (hname : array = a ++ [.name name]) (hlast : last = array ++ [.element (counts array)])
    (harray : made array → 0 < counts array)
    (hself : after array = some (.array (counts array + 1)))
    (hnew : after last = some (.table [] []))
    (hparent : ∃ children, after a = some (.table (entriesOf a) children) ∧
      ∀ n, n ∈ children ↔ made (a ++ [.name n]) ∨ n = name)
    (hother : ∀ b, b ≠ a → b ≠ array → b ≠ last → after b = nodes b) :
    Tree after (fun b => made b ∨ b = array ∨ b = last) entriesOf (bump counts array) := by
  have hfresh : ¬ made last := fun hmade =>
    Nat.lt_irrefl _ ((h.counted array (counts array)).mpr (hlast ▸ hmade))
  have haArray : a ≠ array := hname ▸ ne_snoc a _
  have hnotArray : ∀ (b : Addr) i, b ++ [.element i] ≠ array := fun b i heq => by
    cases (List.append_inj' (heq.trans hname) rfl).2
  have hnotLast : ∀ (b : Addr) n, b ++ [.name n] ≠ last := fun b n heq => by
    cases (List.append_inj' (heq.trans hlast) rfl).2
  have hlastArray : last ≠ array := hlast ▸ (ne_snoc array _).symm
  have hlastA : last ≠ a := by
    rintro rfl
    exact hfresh ha
  obtain ⟨children, hparent, hchildren⟩ := hparent
  refine ⟨.inl h.root, fun b => ?_, fun b es cs hb => ?_, fun b k hb => ?_, fun b n hb => ?_,
    fun b i hb => ?_, fun b i => ?_, fun b i => ?_,
    fun b hb => h.empty b fun hmade => hb (.inl hmade)⟩
  · by_cases hbLast : b = last
    · rw [hbLast, hnew]
      exact iff_of_true (Option.some_ne_none _) (.inr (.inr rfl))
    by_cases hbArray : b = array
    · rw [hbArray, hself]
      exact iff_of_true (Option.some_ne_none _) (.inr (.inl rfl))
    by_cases hba : b = a
    · rw [hba, hparent]
      exact iff_of_true (Option.some_ne_none _) (.inl ha)
    rw [hother b hba hbArray hbLast, h.node]
    exact ⟨.inl, fun hor => hor.resolve_right fun hor => hor.elim hbArray hbLast⟩
  · by_cases hbLast : b = last
    · subst hbLast
      rw [hnew] at hb
      cases hb
      rw [bump_other counts hlastArray]
      refine ⟨hlast ▸ h.plain array _, (h.empty _ hfresh).symm, fun n => ?_⟩
      refine iff_of_false List.not_mem_nil ?_
      rintro (hmade | heq | heq)
      · exact hfresh (h.up hmade)
      · rw [hlast] at heq
        exact absurd (congrArg List.length heq) (by simp)
      · exact hnotLast _ n heq
    by_cases hbArray : b = array
    · rw [hbArray, hself] at hb
      cases hb
    rw [bump_other counts hbArray]
    by_cases hba : b = a
    · subst hba
      rw [hparent] at hb
      cases hb
      refine ⟨hcount, rfl, fun n => ?_⟩
      rw [hchildren]
      refine or_congr Iff.rfl ⟨fun hn => .inl (by rw [hn, hname]), fun hor => ?_⟩
      rcases hor with heq | heq
      · cases List.append_cancel_left (heq.trans hname)
        rfl
      · exact absurd heq (hnotLast _ n)
    rw [hother b hba hbArray hbLast] at hb
    obtain ⟨hzero, hentries, hnames⟩ := h.table _ _ _ hb
    refine ⟨hzero, hentries, fun n => ?_⟩
    rw [hnames]
    refine ⟨.inl, fun hor => hor.resolve_right ?_⟩
    rintro (heq | heq)
    · exact hba (List.append_inj' (heq.trans hname) rfl).1
    · exact hnotLast b n heq
  · by_cases hbLast : b = last
    · rw [hbLast, hnew] at hb
      cases hb
    by_cases hbArray : b = array
    · subst hbArray
      rw [hself] at hb
      cases hb
      exact ⟨(bump_self counts b).symm, Nat.succ_pos _⟩
    by_cases hba : b = a
    · rw [hba, hparent] at hb
      cases hb
    rw [hother b hba hbArray hbLast] at hb
    rw [bump_other counts hbArray]
    exact h.array b k hb
  · rcases hb with hb | hb | hb
    · obtain ⟨hmade, hzero⟩ := h.named b n hb
      have hbArray : b ≠ array := by
        rintro rfl
        exact Nat.pos_iff_ne_zero.mp (harray hmade) hzero
      rw [bump_other counts hbArray]
      exact ⟨.inl hmade, hzero⟩
    · rw [(List.append_inj' (hb.trans hname) rfl).1, bump_other counts haArray]
      exact ⟨.inl ha, hcount⟩
    · exact absurd hb (hnotLast b n)
  · rcases hb with hb | hb | hb
    · exact .inl (h.element b i hb)
    · exact absurd hb (hnotArray b i)
    · exact .inr (.inl (List.append_inj' (hb.trans hlast) rfl).1)
  · by_cases hbArray : b = array
    · subst hbArray
      rw [bump_self, Nat.lt_succ_iff_lt_or_eq, h.counted]
      refine or_congr Iff.rfl ⟨fun hi => .inr (by rw [hi, hlast]), fun hor => ?_⟩
      rcases hor with heq | heq
      · exact absurd heq (hnotArray b i)
      · cases List.append_cancel_left (heq.trans hlast)
        rfl
    · rw [bump_other counts hbArray, h.counted]
      refine ⟨.inl, fun hor => hor.resolve_right ?_⟩
      rintro (heq | heq)
      · exact hnotArray b i heq
      · exact hbArray (List.append_inj' (heq.trans hlast) rfl).1
  · rw [bump_other counts (hnotArray b i)]
    exact h.plain b i

end Tree

/-- Another element of the array of tables under a name. -/
theorem addElement_spec (h : Tree nodes made entriesOf counts) (ha : made a)
    (hcount : counts a = 0) {name : Text} {array last : Addr}
    (hname : array = a ++ [.name name]) (hlast : last = array ++ [.element (counts array)])
    (harray : made array → 0 < counts array) :
    (addElement nodes a name).2 = last ∧
      Tree (addElement nodes a name).1 (fun b => made b ∨ b <+: last) entriesOf
        (bump counts array) := by
  have hway : ∀ b, made b ∨ b = array ∨ b = last ↔ made b ∨ b <+: last := by
    intro b
    rw [hlast, List.prefix_concat_iff, hname, List.prefix_concat_iff]
    constructor
    · rintro (hb | rfl | rfl)
      · exact .inl hb
      · exact .inr (.inr (.inl rfl))
      · exact .inr (.inl rfl)
    · rintro (hb | rfl | rfl | hb)
      · exact .inl hb
      · exact .inr (.inr rfl)
      · exact .inr (.inl rfl)
      · exact .inl (h.made_leads ha hb)
  have hlastArray : last ≠ array := hlast ▸ (ne_snoc array _).symm
  have haArray : a ≠ array := hname ▸ ne_snoc a _
  have hfresh : ¬ made last := fun hmade =>
    Nat.lt_irrefl _ ((h.counted array (counts array)).mpr (hlast ▸ hmade))
  have haLast : a ≠ last := by
    rintro rfl
    exact hfresh ha
  obtain ⟨entries, children, hnode⟩ := h.table_at ha hcount
  obtain ⟨-, rfl, hchildren⟩ := h.table _ _ _ hnode
  by_cases hmade : made array
  · have hstep : addElement nodes a name =
        ((nodes.set array (.array (counts array + 1))).set last (.table [] []), last) := by
      simp only [addElement, ← hname, h.array_at hmade (harray hmade), ← hlast]
    rw [hstep]
    dsimp only
    refine ⟨rfl, (h.grow ha hcount hname hlast harray ?_ ?_ ⟨children, ?_, fun n => ?_⟩ ?_).congr
      hway⟩
    · rw [Nodes.set_other _ _ hlastArray.symm, Nodes.set_self]
    · exact Nodes.set_self _ _ _
    · rw [Nodes.set_other _ _ haLast, Nodes.set_other _ _ haArray, hnode]
    · rw [hchildren, or_iff_left_of_imp]
      rintro rfl
      exact hname ▸ hmade
    · intro b _ hbArray hbLast
      rw [Nodes.set_other _ _ hbLast, Nodes.set_other _ _ hbArray]
  · have hzero := h.absent_count hmade
    have hnone : nodes array = none := by
      by_contra hne
      exact hmade ((h.node _).mp hne)
    have hchild : nodes.addChild a name (.array 1) =
        (nodes.set a (.table (entriesOf a) (children ++ [name]))).set array (.array 1) := by
      simp only [Nodes.addChild, hnode, ← hname]
    have hstep : addElement nodes a name =
        ((nodes.addChild a name (.array 1)).set last (.table [] []), last) := by
      rw [hzero] at hlast
      simp only [addElement, ← hname, hnone, ← hlast]
    rw [hstep, hchild]
    dsimp only
    refine ⟨rfl, (h.grow ha hcount hname hlast harray ?_ ?_
      ⟨children ++ [name], ?_, fun n => ?_⟩ ?_).congr hway⟩
    · rw [Nodes.set_other _ _ hlastArray.symm, Nodes.set_self, hzero]
    · exact Nodes.set_self _ _ _
    · rw [Nodes.set_other _ _ haLast, Nodes.set_other _ _ haArray, Nodes.set_self]
    · rw [List.mem_append, hchildren, List.mem_singleton]
    · intro b hba hbArray hbLast
      rw [Nodes.set_other _ _ hbLast, Nodes.set_other _ _ hbArray, Nodes.set_other _ _ hba]

theorem Tree.addEntry (h : Tree nodes made entriesOf counts) (ha : made a) (hcount : counts a = 0)
    (entry : Entry σ) :
    Tree (nodes.addEntry a entry) made
      (fun b => if b = a then entriesOf b ++ [entry] else entriesOf b) counts := by
  obtain ⟨entries, children, hnode⟩ := h.table_at ha hcount
  obtain ⟨-, rfl, hchildren⟩ := h.table _ _ _ hnode
  have hset : nodes.addEntry a entry = nodes.set a (.table (entriesOf a ++ [entry]) children) := by
    simp only [Nodes.addEntry, hnode]
  rw [hset]
  refine ⟨h.root, fun b => ?_, fun b es cs hb => ?_, fun b k hb => ?_, h.named, h.element,
    h.counted, h.plain, fun b hb => ?_⟩
  · by_cases hba : b = a
    · rw [hba, Nodes.set_self]
      exact iff_of_true (Option.some_ne_none _) ha
    · rw [Nodes.set_other _ _ hba, h.node]
  · by_cases hba : b = a
    · subst hba
      rw [Nodes.set_self] at hb
      cases hb
      exact ⟨hcount, (if_pos rfl).symm, hchildren⟩
    · rw [Nodes.set_other _ _ hba] at hb
      rw [if_neg hba]
      exact h.table _ _ _ hb
  · by_cases hba : b = a
    · rw [hba, Nodes.set_self] at hb
      cases hb
    · rw [Nodes.set_other _ _ hba] at hb
      exact h.array b k hb
  · rw [if_neg fun hba : b = a => hb (hba ▸ ha)]
    exact h.empty b hb

theorem at_children (f : Text → Plain σ) (children : List Text) (base : Dict σ) (name : Text)
    (rest : Addr) :
    (Plain.dict (children.foldl (fun out n => put out n (f n)) base)).at (.name name :: rest) =
      if name ∈ children then (f name).at rest else (Plain.dict base).at (.name name :: rest) := by
  induction children generalizing base with
  | nil => rw [List.foldl_nil, if_neg List.not_mem_nil]
  | cons first children ih =>
      rw [List.foldl_cons, ih, at_put]
      by_cases hmem : name ∈ children
      · rw [if_pos hmem, if_pos (List.mem_cons_of_mem first hmem)]
      · rw [if_neg hmem]
        by_cases hfirst : first = name
        · rw [if_pos hfirst, hfirst, if_pos List.mem_cons_self]
        · rw [if_neg hfirst, if_neg]
          simpa [hmem] using Ne.symm hfirst

namespace Tree

/-- Below a table, what its children hold, and under other names its own pairs. -/
theorem at_name (h : Tree nodes made entriesOf counts) (ha : made a) (hcount : counts a = 0)
    (depth : Nat) (name : Text) (rest : Addr) :
    (made (a ++ [.name name]) →
      (toValue nodes (depth + 1) a).at (.name name :: rest) =
        (toValue nodes depth (a ++ [.name name])).at rest) ∧
    (¬ made (a ++ [.name name]) →
      (toValue nodes (depth + 1) a).at (.name name :: rest) =
        (Plain.dict (graftAll [] (entryValues (entriesOf a)))).at (.name name :: rest)) := by
  obtain ⟨entries, children, hnode⟩ := h.table_at ha hcount
  obtain ⟨-, rfl, hchildren⟩ := h.table _ _ _ hnode
  have hvalue : (toValue nodes (depth + 1) a).at (.name name :: rest) =
      if name ∈ children then (toValue nodes depth (a ++ [.name name])).at rest
      else (Plain.dict (graftAll [] (entryValues (entriesOf a)))).at (.name name :: rest) := by
    simp only [toValue, hnode]
    exact at_children (fun n => toValue nodes depth (a ++ [.name n])) children _ name rest
  constructor
  · intro hmade
    rw [hvalue, if_pos ((hchildren name).mpr hmade)]
  · intro hmade
    rw [hvalue, if_neg fun hmem => hmade ((hchildren name).mp hmem)]

theorem at_element (h : Tree nodes made entriesOf counts) (depth i : Nat) (rest : Addr)
    (hmade : made (a ++ [.element i])) :
    (toValue nodes (depth + 1) a).at (.element i :: rest) =
      (toValue nodes depth (a ++ [.element i])).at rest := by
  have hlt := (h.counted a i).mpr hmade
  have hnode := h.array_at (h.element a i hmade) (Nat.zero_lt_of_lt hlt)
  simp only [toValue, hnode, Plain.at, List.getElem?_map, List.getElem?_range hlt,
    Option.map_some, Option.bind_some]

/-- What was made is found at its address. -/
theorem at_made (h : Tree nodes made entriesOf counts) {rest : Addr} {depth : Nat}
    (hmade : made (a ++ rest)) (hdepth : rest.length ≤ depth) (more : Addr) :
    (toValue nodes depth a).at (rest ++ more) =
      (toValue nodes (depth - rest.length) (a ++ rest)).at more := by
  induction rest generalizing a depth with
  | nil => rw [List.append_nil, List.nil_append, List.length_nil, Nat.sub_zero]
  | cons step rest ih =>
      have hstep : a ++ step :: rest = a ++ [step] ++ rest := by
        rw [List.append_assoc, List.singleton_append]
      have hfirst : made (a ++ [step]) := h.made_leads hmade (hstep ▸ List.prefix_append _ _)
      rw [hstep] at hmade ⊢
      cases depth with
      | zero => exact absurd hdepth (Nat.not_succ_le_zero _)
      | succ depth =>
          rw [List.length_cons, Nat.add_sub_add_right, ← ih hmade (Nat.le_of_succ_le_succ hdepth)]
          cases step with
          | name name =>
              obtain ⟨ha, hcount⟩ := h.named a name hfirst
              exact (h.at_name ha hcount depth name (rest ++ more)).1 hfirst
          | element i => exact h.at_element depth i (rest ++ more) hfirst

/-- What is found was made, or lies on the way to a pair or below one. -/
theorem at_only (h : Tree nodes made entriesOf counts) {rest : Addr} (depth : Nat) (ha : made a)
    (hrest : rest ≠ []) (hfound : (toValue nodes depth a).at rest ≠ none) :
    made (a ++ rest) ∨ ∃ below, made (a ++ below) ∧ ∃ e ∈ entriesOf (a ++ below),
      rest <+: below ++ e.1.addr ∨ below ++ e.1.addr <+: rest := by
  induction depth generalizing a rest with
  | zero => exact absurd (at_empty hfound) hrest
  | succ depth ih =>
      cases rest with
      | nil => exact absurd rfl hrest
      | cons step rest =>
          have hstep : a ++ step :: rest = a ++ [step] ++ rest := by
            rw [List.append_assoc, List.singleton_append]
          have hdown : made (a ++ [step]) →
              (toValue nodes depth (a ++ [step])).at rest ≠ none →
              made (a ++ step :: rest) ∨ ∃ below, made (a ++ below) ∧
                ∃ e ∈ entriesOf (a ++ below), step :: rest <+: below ++ e.1.addr ∨
                  below ++ e.1.addr <+: step :: rest := by
            intro hmade hat
            by_cases hnil : rest = []
            · exact .inl (hnil ▸ hmade)
            rcases ih hmade hnil hat with hleft | ⟨below, hbelow, e, he, hway⟩
            · exact .inl (hstep ▸ hleft)
            · rw [List.append_assoc, List.singleton_append] at hbelow he
              refine .inr ⟨step :: below, hbelow, e, he, hway.imp ?_ ?_⟩
              · exact fun hp => List.cons_prefix_cons.mpr ⟨rfl, hp⟩
              · exact fun hp => List.cons_prefix_cons.mpr ⟨rfl, hp⟩
          cases step with
          | name name =>
              have hcount : counts a = 0 := by
                by_contra hne
                have hnode := h.array_at ha (Nat.pos_of_ne_zero hne)
                simp only [toValue, hnode] at hfound
                exact hfound rfl
              by_cases hmade : made (a ++ [.name name])
              · rw [(h.at_name ha hcount depth name rest).1 hmade] at hfound
                exact hdown hmade hfound
              · rw [(h.at_name ha hcount depth name rest).2 hmade] at hfound
                rcases at_graftAll_only hfound with hempty | ⟨x, hx, hway⟩
                · exact absurd (at_empty hempty) (List.cons_ne_nil _ _)
                · rw [entryValues_eq] at hx
                  obtain ⟨e, he, rfl⟩ := List.mem_map.mp hx
                  refine .inr ⟨[], ?_, e, ?_, hway⟩
                  · rwa [List.append_nil]
                  · rwa [List.append_nil]
          | element i =>
              have hmade : made (a ++ [.element i]) := by
                by_contra hnot
                have hle : counts a ≤ i := Nat.le_of_not_lt fun hlt => hnot ((h.counted a i).mp hlt)
                by_cases hcount : counts a = 0
                · obtain ⟨entries, children, hnode⟩ := h.table_at ha hcount
                  simp only [toValue, hnode] at hfound
                  exact hfound rfl
                · have hnode := h.array_at ha (Nat.pos_of_ne_zero hcount)
                  simp only [toValue, hnode, Plain.at, List.getElem?_map] at hfound
                  rw [List.getElem?_eq_none (by rwa [List.length_range])] at hfound
                  exact hfound rfl
              rw [h.at_element depth i rest hmade] at hfound
              exact hdown hmade hfound

end Tree

end Zuri.Toml
