import Mathlib.Data.List.Pairwise
import Zuri.Libs.TomlStands
import Zuri.Libs.TomlText

/-!
What the value of a document holds: every pair at its place, and nothing else, exactly where no
header lies at or below the first name of a dotted key. A table made on the way to a header
hides the pairs whose keys begin with its name.
-/

namespace Zuri.Toml

variable {σ : Type}

theorem Key.addr_first (key : Key) (first : Text) (rest : List Text)
    (h : key.parents = first :: rest) :
    key.addr = .name first :: names (rest ++ [key.name]) := by
  rw [Key.addr, Key.path, h]
  rfl

namespace Stands

variable {doc : Document σ} {l : Layout σ}

theorem takes_name (h : Stands doc l) {a : Addr} {name : Text} {b : Addr}
    (hb : doc.slots b ≠ none) (hab : a ++ [.name name] <+: b) :
    ∃ slot, doc.slots a = some slot ∧ slot.Open := by
  obtain ⟨rest, rfl⟩ := hab
  rw [List.append_assoc, List.singleton_append] at hb
  exact h.shaped.takes hb

theorem takes_element (h : Stands doc l) {a : Addr} {i : Nat} {b : Addr}
    (hb : doc.slots b ≠ none) (hab : a ++ [.element i] <+: b) :
    ∃ slot, doc.slots a = some slot ∧ slot.kind = .aot := by
  obtain ⟨rest, rfl⟩ := hab
  rw [List.append_assoc, List.singleton_append] at hb
  obtain ⟨slot, hslot, htakes⟩ := h.shaped.takes hb
  exact ⟨slot, hslot, htakes.1⟩

theorem not_both (h : Stands doc l) {a : Addr} {i : Nat} {name : Text} {b c : Addr}
    (hb : doc.slots b ≠ none) (hc : doc.slots c ≠ none) (hab : a ++ [.element i] <+: b)
    (hac : a ++ [.name name] <+: c) : False := by
  obtain ⟨slot, hslot, hkind⟩ := h.takes_element hb hab
  obtain ⟨slot', hslot', hopen⟩ := h.takes_name hc hac
  cases hslot.symm.trans hslot'
  exact absurd (hopen.1.symm.trans hkind) (by decide)

theorem pair_some (h : Stands doc l) {pair : Addr × Entry σ} (hpair : pair ∈ l.pairs) :
    doc.slots (pairAddr pair) ≠ none := by
  obtain ⟨slot, hslot, -⟩ := h.pairs pair hpair
  rw [hslot]
  exact Option.some_ne_none slot

theorem closed_header (h : Stands doc l) {pair : Addr × Entry σ} (hpair : pair ∈ l.pairs)
    {header : Addr} (hheader : header ∈ l.headers) : ¬ pairAddr pair <+: header := by
  intro hleads
  have heq := h.shaped.closed_leads (h.pairs pair hpair) (h.header_some hheader) hleads
  obtain ⟨slot, hslot, hclosed⟩ := h.pairs pair hpair
  obtain ⟨slot', hslot', hopen, -⟩ := h.headers header hheader
  rw [heq, hslot'] at hslot
  cases hslot
  exact hopen.not_closed hclosed

/-- What is accepted defines each name once, as long as dotted keys and headers stay apart. -/
theorem single (h : Stands doc l) (hapart : Apart l) : Single l := by
  refine ⟨h.apart, h.nodup, fun pair hpair header hheader => h.closed_header hpair hheader,
    fun header hheader header' hheader' i hleads => ?_,
    fun header hheader a i hleads name => ⟨fun header' hheader' hname => ?_,
      fun pair hpair hname => ?_⟩,
    fun pair hpair header hheader first rest hparents heq => ?_, h.sound⟩
  · obtain ⟨slot, hslot, hkind⟩ := h.takes_element (h.header_some hheader') hleads
    obtain ⟨slot', hslot', hopen, -⟩ := h.headers header hheader
    cases hslot.symm.trans hslot'
    exact absurd (hopen.1.symm.trans hkind) (by decide)
  · exact h.not_both (h.header_some hheader) (h.header_some hheader') hleads hname
  · exact h.not_both (h.header_some hheader) (h.pair_some hpair) hleads hname
  · obtain ⟨more, hmore⟩ := hparents
    refine hapart pair hpair first (rest ++ more) hmore.symm header hheader ?_
    rw [heq]
    exact ⟨names rest, by rw [List.append_assoc]; rfl⟩

theorem made_pair_table (h : Stands doc l) {pair : Addr × Entry σ} (hpair : pair ∈ l.pairs) :
    Made l pair.1 := Made.of_here (h.sections pair hpair)

theorem section_count (h : Stands doc l) {pair : Addr × Entry σ} (hpair : pair ∈ l.pairs) :
    l.counts pair.1 = 0 := by
  rcases h.sections pair hpair with hroot | hmem
  · rw [hroot]
    exact h.shaped.open_count h.shaped.root
  · obtain ⟨slot, hslot, hopen, -⟩ := h.headers _ hmem
    exact h.shaped.open_count ⟨slot, hslot, hopen⟩

theorem mem_entriesAt {a : Addr} {e : Entry σ} : e ∈ entriesAt l a ↔ (a, e) ∈ l.pairs := by
  simp only [entriesAt, List.mem_map, List.mem_filter, decide_eq_true_eq]
  constructor
  · rintro ⟨⟨b, e'⟩, ⟨hmem, rfl⟩, rfl⟩
    exact hmem
  · exact fun hmem => ⟨(a, e), ⟨hmem, rfl⟩, rfl⟩

theorem entries_apart (h : Stands doc l) (a : Addr) : KeysApart (entriesAt l a) := by
  refine List.pairwise_map.mpr ((h.apart.filter _).imp_of_mem fun {p q} hp hq hpq => ?_)
  have hp' : p.1 = a := of_decide_eq_true (List.mem_filter.mp hp).2
  have hq' : q.1 = a := of_decide_eq_true (List.mem_filter.mp hq).2
  rw [pairAddr, pairAddr, hp', hq', diverge_append] at hpq
  exact ⟨fun hleads => hpq.1 (names_leads.mpr hleads),
    fun hleads => hpq.2 (names_leads.mpr hleads)⟩

/-- A value decoded with room for every header. -/
def Deep (l : Layout σ) (depth : Nat) : Prop := ∀ h ∈ l.headers, h.length < depth

theorem Deep.section {depth : Nat} (hdeep : Deep l depth) (hpos : 0 < depth) {a : Addr}
    (ha : a = [] ∨ a ∈ l.headers) : a.length < depth := by
  rcases ha with rfl | hmem
  · exact hpos
  · exact hdeep a hmem

/-- At a pair's place: what the children of its table hold, or else its own value. -/
theorem at_pair (h : Stands doc l) {depth : Nat} (hdeep : Deep l depth) (hpos : 0 < depth)
    {pair : Addr × Entry σ} (hpair : pair ∈ l.pairs) {first : Text} {rest : Addr}
    (hfirst : pair.2.1.addr = .name first :: rest) (more : Addr) :
    (Made l (pair.1 ++ [.name first]) → ∃ depth',
      (toValue doc.nodes depth []).at (pairAddr pair ++ more) =
        (toValue doc.nodes depth' (pair.1 ++ [.name first])).at (rest ++ more)) ∧
    (¬ Made l (pair.1 ++ [.name first]) →
      (toValue doc.nodes depth []).at (pairAddr pair ++ more) = pair.2.2.toValue.at more) := by
  have hlength := hdeep.section hpos (h.sections pair hpair)
  obtain ⟨room, hroom⟩ : ∃ room, depth - pair.1.length = room + 1 :=
    ⟨depth - pair.1.length - 1, by omega⟩
  have hdown : (toValue doc.nodes depth []).at (pairAddr pair ++ more) =
      (toValue doc.nodes (room + 1) pair.1).at (.name first :: (rest ++ more)) := by
    have hmade : Made l ([] ++ pair.1) := h.made_pair_table hpair
    rw [pairAddr, List.append_assoc, h.tree.at_made hmade (Nat.le_of_lt hlength), hroom, hfirst,
      List.nil_append, List.cons_append]
  obtain ⟨hbelow, hown⟩ := h.tree.at_name (h.made_pair_table hpair) (h.section_count hpair) room
    first (rest ++ more)
  constructor
  · exact fun hmade => ⟨room, hdown.trans (hbelow hmade)⟩
  · intro hmade
    rw [hdown, hown hmade, ← List.cons_append, ← hfirst]
    have hmem : (pair.2.1, pair.2.2.toValue) ∈ entryValues (entriesAt l pair.1) := by
      rw [entryValues_eq]
      exact List.mem_map_of_mem (f := fun e : Entry σ => (e.1, e.2.toValue))
        (mem_entriesAt.mpr hpair)
    exact at_graftAll (keysApart_values (h.entries_apart pair.1)) hmem more

theorem at_pair_apart (h : Stands doc l) (hapart : Apart l) {depth : Nat} (hdeep : Deep l depth)
    (hpos : 0 < depth) {pair : Addr × Entry σ} (hpair : pair ∈ l.pairs) (more : Addr) :
    (toValue doc.nodes depth []).at (pairAddr pair ++ more) = pair.2.2.toValue.at more := by
  cases hparents : pair.2.1.parents with
  | nil =>
      have haddr : pair.2.1.addr = [.name pair.2.1.name] := by
        rw [Key.addr, Key.path, hparents]
        rfl
      refine (h.at_pair hdeep hpos hpair haddr more).2 ?_
      rintro (hnil | ⟨header, hheader, hleads⟩)
      · exact List.concat_ne_nil _ _ hnil
      · refine h.closed_header hpair hheader ?_
        rwa [pairAddr, haddr]
  | cons first rest =>
      refine (h.at_pair hdeep hpos hpair (pair.2.1.addr_first first rest hparents) more).2 ?_
      rintro (hnil | ⟨header, hheader, hleads⟩)
      · exact List.concat_ne_nil _ _ hnil
      · exact hapart pair hpair first rest hparents header hheader hleads

theorem kept (h : Stands doc l) (hapart : Apart l) {depth : Nat} (hdeep : Deep l depth)
    (hpos : 0 < depth) : Kept (toValue doc.nodes depth []) l := by
  refine ⟨fun header hheader => ?_, fun pair hpair part hpart => ?_, fun a ha => ?_⟩
  · have hmade : Made l ([] ++ header) := Made.of_here (.inr hheader)
    obtain ⟨slot, hslot, hopen, -⟩ := h.headers header hheader
    obtain ⟨entries, children, hnode⟩ :=
      h.tree.table_at hmade (h.shaped.open_count ⟨slot, hslot, hopen⟩)
    obtain ⟨room, hroom⟩ : ∃ room, depth - header.length = room + 1 :=
      ⟨depth - header.length - 1, by have := hdeep header hheader; omega⟩
    have hfound := h.tree.at_made hmade (Nat.le_of_lt (hdeep header hheader)) []
    rw [List.append_nil, hroom] at hfound
    rw [hfound]
    simp only [toValue, hnode]
    exact ⟨_, rfl⟩
  · rw [h.at_pair_apart hapart hdeep hpos hpair]
    exact (h.sound pair hpair).held part hpart
  · by_cases hnil : a = []
    · exact .inl hnil
    rcases h.tree.at_only depth (.inl rfl) hnil ha with hmade | ⟨below, -, e, he, hway⟩
    · rw [List.nil_append] at hmade
      exact hmade.imp_right .inl
    · rw [List.nil_append] at he
      have hpair := mem_entriesAt.mp he
      refine .inr (.inr ⟨_, hpair, ?_⟩)
      rcases hway with hway | ⟨more, rfl⟩
      · exact ⟨_, e.2.self_mem_parts, by simpa [pairAddr] using hway⟩
      · have hat := h.at_pair_apart hapart hdeep hpos hpair more
        rw [pairAddr] at hat
        rw [hat] at ha
        obtain ⟨part, hpart, hleads⟩ := (h.sound _ hpair).only more ha
        exact ⟨part, hpart, (List.prefix_append_right_inj _).mpr hleads⟩

/-- A dotted pair is lost where a header lies at or below its first name. -/
theorem lost (h : Stands doc l) {depth : Nat} (hdeep : Deep l depth) (hpos : 0 < depth)
    {pair : Addr × Entry σ} (hpair : pair ∈ l.pairs) {first : Text} {rest : List Text}
    (hparents : pair.2.1.parents = first :: rest) {header : Addr} (hheader : header ∈ l.headers)
    (hleads : pair.1 ++ [.name first] <+: header) :
    (toValue doc.nodes depth []).at (pairAddr pair) = none := by
  have haddr := pair.2.1.addr_first first rest hparents
  have hmade : Made l (pair.1 ++ [.name first]) := .inr ⟨header, hheader, hleads⟩
  obtain ⟨depth', hat⟩ := (h.at_pair hdeep hpos hpair haddr []).1 hmade
  rw [List.append_nil, List.append_nil] at hat
  rw [hat]
  by_contra hfound
  have hplace : pair.1 ++ [.name first] ++ names (rest ++ [pair.2.1.name]) = pairAddr pair := by
    rw [pairAddr, haddr, List.append_assoc, List.singleton_append]
  have hrest : names (rest ++ [pair.2.1.name]) ≠ [] := by
    rw [names_append]
    exact List.concat_ne_nil _ _
  rcases h.tree.at_only depth' hmade hrest hfound with hdown | ⟨below, -, e, he, hway⟩
  · rw [hplace] at hdown
    rcases hdown with hnil | ⟨header', hheader', hleads'⟩
    · rw [← hplace, List.append_assoc] at hnil
      exact absurd (List.append_eq_nil_iff.mp hnil).2 (List.cons_ne_nil _ _)
    · exact h.closed_header hpair hheader' hleads'
  · have hother := mem_entriesAt.mp he
    have hne : pair ≠ (pair.1 ++ [.name first] ++ below, e) := fun heq => by
      have hlength := congrArg (fun p : Addr × Entry σ => p.1.length) heq
      simp at hlength
    have hsymm : Std.Symm fun p q : Addr × Entry σ => Diverge (pairAddr p) (pairAddr q) :=
      ⟨fun _ _ hpq => hpq.symm⟩
    have hdiverge := List.Pairwise.forall h.apart hpair hother hne
    rw [← hplace, pairAddr] at hdiverge
    dsimp only at hdiverge
    rw [List.append_assoc _ below, diverge_append] at hdiverge
    exact hway.elim hdiverge.1 hdiverge.2

end Stands

/-- In an accepted document each name is defined once and the value holds every pair at its
place, and nothing else, exactly where no header lies at or below the first name of a dotted
key. -/
theorem kept_iff_apart {statements : List (Statement σ)} {doc : Document σ}
    (h : Document.declareAll .empty statements = .ok doc) :
    ∃ enough, ∀ depth, enough ≤ depth →
      (Kept (toValue doc.nodes depth []) (layout statements) ∧ Single (layout statements) ↔
        Apart (layout statements)) := by
  have hstands : Stands doc (layout statements) := empty_stands.declareAll h
  obtain ⟨enough, henough⟩ : ∃ enough, ∀ header ∈ (layout statements).headers,
      header.length < enough := by
    generalize (layout statements).headers = headers
    induction headers with
    | nil => exact ⟨0, fun header hheader => nomatch hheader⟩
    | cons first headers ih =>
        obtain ⟨enough, henough⟩ := ih
        refine ⟨max (first.length + 1) enough, fun header hheader => ?_⟩
        rcases List.mem_cons.mp hheader with rfl | hheader
        · exact Nat.lt_of_lt_of_le (Nat.lt_succ_self _) (Nat.le_max_left _ _)
        · exact Nat.lt_of_lt_of_le (henough header hheader) (Nat.le_max_right _ _)
  refine ⟨enough + 1, fun depth hdepth => ?_⟩
  have hdeep : Stands.Deep (layout statements) depth := fun header hheader =>
    Nat.lt_of_lt_of_le (henough header hheader) (Nat.le_of_succ_le hdepth)
  have hpos : 0 < depth := Nat.lt_of_lt_of_le (Nat.succ_pos enough) hdepth
  constructor
  · rintro ⟨hkept, -⟩ pair hpair first rest hparents header hheader hleads
    have hnone := hstands.lost hdeep hpos hpair hparents hheader hleads
    have hsome := hkept.pairs pair hpair _ pair.2.2.self_mem_parts
    rw [List.append_nil, hnone] at hsome
    cases hsome
  · exact fun hapart => ⟨hstands.kept hapart hdeep hpos, hstands.single hapart⟩

theorem parse_declared {ν : Type} {host : Host ν} {fuel : Nat} {text : Text}
    {doc : Document (Scalar ν)} (h : parse host fuel text = some (.ok doc)) :
    ∃ read', readAs host fuel text = some read' ∧
      Document.declareAll .empty read' = .ok doc := by
  unfold parse at h
  unfold readAs
  split at h
  · cases h
  · cases h
  case h_3 read' rest hread =>
    split at h
    · cases h
    case h_2 declared hdeclared =>
      cases h
      exact ⟨read', by rw [hread], hdeclared⟩

/-- In every text that is accepted each name is defined once and the value holds every pair at
its place, and nothing else, exactly where no header lies at or below the first name of a
dotted key. -/
theorem parse_keeps_iff {ν : Type} {host : Host ν} {fuel : Nat} {text : Text}
    {doc : Document (Scalar ν)} (h : parse host fuel text = some (.ok doc)) :
    ∃ read', readAs host fuel text = some read' ∧ ∃ enough, ∀ depth, enough ≤ depth →
      (Kept (doc.toValue depth) (layout read') ∧ Single (layout read') ↔
        Apart (layout read')) := by
  obtain ⟨read', hread, hdeclared⟩ := parse_declared h
  exact ⟨read', hread, kept_iff_apart hdeclared⟩

/-- Numbers that are not told apart. -/
def blindHost : Host Unit := ⟨fun _ => (), (), (), ()⟩

/-- A pair, a table with a dotted key in it, and two elements of an array of tables. -/
def tablesText : Text := "n = true\n[x]\na.b = true\n[[t]]\nc = true\n[[t]]\n".toList

theorem tablesText_accepted : ∃ doc, parse blindHost 2 tablesText = some (.ok doc) := ⟨_, rfl⟩

theorem parse_keeps_tables : ∃ doc, parse blindHost 2 tablesText = some (.ok doc) ∧
    ∃ read', readAs blindHost 2 tablesText = some read' ∧
      ∃ enough, ∀ depth, enough ≤ depth →
        (Kept (doc.toValue depth) (layout read') ∧ Single (layout read') ↔
          Apart (layout read')) := by
  obtain ⟨doc, hdoc⟩ := tablesText_accepted
  exact ⟨doc, hdoc, parse_keeps_iff hdoc⟩

def hidingText : Text := "[a]\nb.c = true\n[a.b.d]\nx = true\n".toList

def hidingStatements : List (Statement (Scalar Unit)) :=
  [.table ⟨[], ['a']⟩, .pair ⟨[['b']], ['c']⟩ (.scalar (.boolean true)),
    .table ⟨[['a'], ['b']], ['d']⟩, .pair ⟨[], ['x']⟩ (.scalar (.boolean true))]

theorem hidingText_reads : readAs blindHost 2 hidingText = some hidingStatements := rfl

theorem hidingText_accepted : ∃ doc, parse blindHost 2 hidingText = some (.ok doc) := ⟨_, rfl⟩

theorem hidingText_not_apart : ¬ Apart (layout hidingStatements) := by
  intro h
  refine h ([.name ['a']], ⟨[['b']], ['c']⟩, .scalar (.boolean true)) ?_ ['b'] [] rfl
    [.name ['a'], .name ['b'], .name ['d']] ?_ ⟨[.name ['d']], rfl⟩
  · exact List.mem_cons_self
  · exact List.mem_cons_of_mem _ List.mem_cons_self

/-- `b.c` is gone from the value: the table made on the way to `[a.b.d]` takes its place. -/
theorem dotted_pair_hidden :
    ¬ ∀ (ν : Type) (host : Host ν) (fuel : Nat) (text : Text) (doc : Document (Scalar ν)),
      parse host fuel text = some (.ok doc) →
        ∃ read', readAs host fuel text = some read' ∧ ∃ enough, ∀ depth, enough ≤ depth →
          Kept (doc.toValue depth) (layout read') ∧ Single (layout read') := by
  intro h
  obtain ⟨doc, hdoc⟩ := hidingText_accepted
  obtain ⟨read', hread, enough, hkept⟩ := h Unit blindHost 2 hidingText doc hdoc
  obtain ⟨declared, hdeclaredRead, hdeclared⟩ := parse_declared hdoc
  obtain ⟨enough', hiff⟩ := kept_iff_apart hdeclared
  rw [hidingText_reads] at hread hdeclaredRead
  cases hread
  cases hdeclaredRead
  exact hidingText_not_apart ((hiff (max enough enough') (Nat.le_max_right _ _)).mp
    (hkept (max enough enough') (Nat.le_max_left _ _)))

end Zuri.Toml
