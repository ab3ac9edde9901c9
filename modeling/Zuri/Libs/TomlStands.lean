import Zuri.Libs.TomlNodes

/-!
What a document declares. The statements alone say where each header and each pair lies;
after every statement the slots and the tree of tables agree with that, and no pair leads into
another one.
-/

namespace Zuri.Toml

variable {σ : Type} {slots after : Slots} {counts : Addr → Nat}

structure Layout (σ : Type) where
  counts : Addr → Nat
  here : Addr
  headers : List Addr
  pairs : List (Addr × Entry σ)

def Layout.empty : Layout σ := ⟨fun _ => 0, [], [], []⟩

def Layout.add (l : Layout σ) : Statement σ → Layout σ
  | .pair key value => { l with pairs := l.pairs ++ [(l.here, key, value)] }
  | .table key =>
      { l with here := headerAddr l.counts key, headers := l.headers ++ [headerAddr l.counts key] }
  | .element key =>
      let array := headerAddr l.counts key
      let last := array ++ [.element (l.counts array)]
      ⟨bump l.counts array, last, l.headers ++ [last], l.pairs⟩

def layout (statements : List (Statement σ)) : Layout σ := statements.foldl Layout.add .empty

/-- The full address of a pair, its table's and its key's. -/
def pairAddr (pair : Addr × Entry σ) : Addr := pair.1 ++ pair.2.1.addr

/-- The value holds every table of the layout and every value written in it, and nothing
else. -/
structure Kept (value : Plain σ) (l : Layout σ) : Prop where
  tables : ∀ h ∈ l.headers, ∃ entries, value.at h = some (.dict entries)
  pairs : ∀ pair ∈ l.pairs, ∀ part ∈ pair.2.2.parts,
    value.at (pairAddr pair ++ part.1) = some part.2.toValue
  only : ∀ a, value.at a ≠ none → a = [] ∨ (∃ h ∈ l.headers, a <+: h) ∨
    ∃ pair ∈ l.pairs, ∃ part ∈ pair.2.2.parts, a <+: pairAddr pair ++ part.1

/-- No two statements define one name, and none extends a value or an inline table. -/
structure Single (l : Layout σ) : Prop where
  pairs : l.pairs.Pairwise fun p q => Diverge (pairAddr p) (pairAddr q)
  headers : l.headers.Nodup
  closed : ∀ pair ∈ l.pairs, ∀ h ∈ l.headers, ¬ pairAddr pair <+: h
  arrays : ∀ h ∈ l.headers, ∀ h' ∈ l.headers, ∀ i, ¬ h ++ [.element i] <+: h'
  kinds : ∀ h ∈ l.headers, ∀ a i, a ++ [.element i] <+: h → ∀ name,
    (∀ h' ∈ l.headers, ¬ a ++ [.name name] <+: h') ∧
      ∀ pair ∈ l.pairs, ¬ a ++ [.name name] <+: pairAddr pair
  dotted : ∀ pair ∈ l.pairs, ∀ h ∈ l.headers, ∀ first rest,
    first :: rest <+: pair.2.1.parents → h ≠ pair.1 ++ names (first :: rest)
  inlined : ∀ pair ∈ l.pairs, pair.2.2.Sound

/-- No header lies at or below the first name of a dotted key in the key's own table. -/
def Apart (l : Layout σ) : Prop :=
  ∀ pair ∈ l.pairs, ∀ first rest, pair.2.1.parents = first :: rest →
    ∀ h ∈ l.headers, ¬ pair.1 ++ [.name first] <+: h

/-- A new closed slot leads into no other and no other leads into it. -/
theorem fresh_diverges (h : Shaped slots counts) {counts' : Addr → Nat}
    (h' : Shaped after counts') (hext : Extends slots after) {a b : Addr}
    (ha : ∃ slot, slots a = some slot ∧ slot.Closed) (hb : slots b = none)
    (hafter : ∃ slot, after b = some slot ∧ slot.Closed) : Diverge a b := by
  have hbSome : after b ≠ none := by
    obtain ⟨slot, hslot, -⟩ := hafter
    rw [hslot]
    exact Option.some_ne_none slot
  constructor
  · intro hab
    have heq := h'.closed_leads (hext.closed ha) hbSome hab
    obtain ⟨slot, hslot, -⟩ := ha
    rw [heq, hb] at hslot
    cases hslot
  · rintro ⟨rest, rfl⟩
    obtain ⟨slot, hslot, -⟩ := ha
    exact h.above (b := rest) (by rw [hslot]; exact Option.some_ne_none slot) hb

theorem only_shaped {slot : Slot} (hopen : slot.Open) (hkind : slot.kind = .table)
    (hnone : slot.elements = 0) : Shaped (.only slot) fun _ => 0 := by
  have honly : ∀ a, a ≠ [] → Slots.only slot a = none := fun a ha => if_neg ha
  refine ⟨⟨slot, rfl, hopen⟩, fun a step hstep => ?_, fun a found hfound => ?_,
    fun _ _ => rfl, fun a i hi => absurd hi (Nat.not_lt_zero i)⟩
  · exact absurd (honly _ (List.concat_ne_nil step a)) hstep
  · by_cases ha : a = []
    · subst ha
      obtain rfl := Option.some.inj hfound
      refine ⟨hnone, fun hpos => ?_, fun haot => ?_⟩
      · rw [hnone] at hpos
        exact absurd hpos (Nat.lt_irrefl 0)
      · rw [hkind] at haot
        cases haot
    · rw [honly a ha] at hfound
      cases hfound

theorem inlineScope_shaped : Shaped inlineScope fun _ => 0 := only_shaped ⟨rfl, rfl⟩ rfl rfl

theorem rootSlot_shaped : Shaped rootSlot fun _ => 0 := only_shaped ⟨rfl, rfl⟩ rfl rfl

theorem entryClaims_apart {entries : List (Entry σ)} {prior : List Key}
    (h : Shaped slots counts)
    (hprior : ∀ key ∈ prior, ∃ slot, slots key.addr = some slot ∧ slot.Closed)
    (hok : entryClaims slots entries = .ok ()) :
    KeysApart entries ∧ ∀ key ∈ prior, ∀ e ∈ entries, Diverge key.path e.1.path := by
  induction entries generalizing slots prior with
  | nil => exact ⟨.nil, fun key _ e he => nomatch he⟩
  | cons e entries ih =>
      obtain ⟨key, value⟩ := e
      simp only [entryClaims] at hok
      split at hok
      · cases hok
      split at hok
      · cases hok
      case h_2 after hclaim =>
        obtain ⟨hnone, hshaped, hext, hclosed⟩ := claim_spec h h.root hclaim
        rw [List.nil_append] at hnone hclosed
        have hprior' : ∀ k ∈ prior ++ [key], ∃ slot, after k.addr = some slot ∧ slot.Closed := by
          intro k hk
          rcases List.mem_append.mp hk with hk | hk
          · exact hext.closed (hprior k hk)
          · rw [List.mem_singleton.mp hk]
            exact hclosed
        obtain ⟨hapart, hrest⟩ := ih hshaped hprior' hok
        refine ⟨List.pairwise_cons.mpr ⟨fun e he => ?_, hapart⟩, fun k hk e he => ?_⟩
        · exact hrest key (List.mem_append_right _ (List.mem_singleton_self key)) e he
        · rcases List.mem_cons.mp he with rfl | he
          · have hdiverge := fresh_diverges h hshaped hext (hprior k hk) hnone hclosed
            exact ⟨fun hp => hdiverge.1 (names_leads.mpr hp),
              fun hp => hdiverge.2 (names_leads.mpr hp)⟩
          · exact hrest k (List.mem_append_left _ hk) e he

theorem keysApart_claimed {entries : List (Entry σ)}
    (h : entryClaims inlineScope entries = .ok ()) : KeysApart entries :=
  (@entryClaims_apart σ _ _ entries [] inlineScope_shaped (fun _ hkey => nomatch hkey) h).1

mutual

/-- A value whose inline tables were claimed has no key in them that leads into another. -/
theorem Value.claims_sound : ∀ value : Value σ, value.claims = .ok () → value.Sound
  | .scalar v, _ => .scalar v
  | .array items, h => .array items (itemClaims_sound items h)
  | .inlineTable entries, h =>
      .inlineTable entries (keysApart_claimed h)
        (entryClaims_sound inlineScope entries h)

theorem itemClaims_sound : ∀ items : List (Value σ), itemClaims items = .ok () →
    ∀ item ∈ items, item.Sound
  | [], _, item, hitem => nomatch hitem
  | first :: items, h, item, hitem => by
      simp only [itemClaims] at h
      split at h
      · cases h
      case h_2 hfirst =>
        have hsound := Value.claims_sound first hfirst
        have hrest := itemClaims_sound items h
        rcases List.mem_cons.mp hitem with rfl | hitem
        · exact hsound
        · exact hrest item hitem

theorem entryClaims_sound : ∀ (slots : Slots) (entries : List (Key × Value σ)),
    entryClaims slots entries = .ok () → ∀ e ∈ entries, e.2.Sound
  | _, [], _, e, he => nomatch he
  | slots, (key, value) :: entries, h, e, he => by
      simp only [entryClaims] at h
      split at h
      · cases h
      case h_2 hvalue =>
        split at h
        · cases h
        case h_2 after hclaim =>
          have hsound := Value.claims_sound value hvalue
          have hrest := entryClaims_sound after entries h
          rcases List.mem_cons.mp he with rfl | he
          · exact hsound
          · exact hrest e he

end

/-- The addresses headers make, with the ways to them. -/
def Made (l : Layout σ) (a : Addr) : Prop := a = [] ∨ ∃ h ∈ l.headers, a <+: h

def entriesAt (l : Layout σ) (a : Addr) : List (Entry σ) :=
  (l.pairs.filter fun pair => decide (pair.1 = a)).map Prod.snd

structure Stands (doc : Document σ) (l : Layout σ) : Prop where
  slot : doc.slot = l.here
  table : doc.table = l.here
  shaped : Shaped doc.slots l.counts
  opened : ∃ slot, doc.slots l.here = some slot ∧ slot.Open
  here : l.here = [] ∨ l.here ∈ l.headers
  pairs : ∀ pair ∈ l.pairs, ∃ slot, doc.slots (pairAddr pair) = some slot ∧ slot.Closed
  headers : ∀ h ∈ l.headers, ∃ slot, doc.slots h = some slot ∧ slot.Open ∧ slot.explicit = true
  apart : l.pairs.Pairwise fun p q => Diverge (pairAddr p) (pairAddr q)
  nodup : l.headers.Nodup
  sections : ∀ pair ∈ l.pairs, pair.1 = [] ∨ pair.1 ∈ l.headers
  sound : ∀ pair ∈ l.pairs, pair.2.2.Sound
  tree : Tree doc.nodes (Made l) (entriesAt l) l.counts

theorem Shaped.open_count {a : Addr} (h : Shaped slots counts)
    (hopen : ∃ slot, slots a = some slot ∧ slot.Open) : counts a = 0 := by
  obtain ⟨slot, hslot, hkind, -⟩ := hopen
  obtain ⟨hcount, haot, -⟩ := h.elements a slot hslot
  by_contra hne
  exact absurd (hkind.symm.trans (haot (hcount ▸ Nat.pos_of_ne_zero hne))) (by decide)

theorem Made.of_here {l : Layout σ} {a : Addr} (h : a = [] ∨ a ∈ l.headers) : Made l a :=
  h.imp_right fun hmem => ⟨a, hmem, List.prefix_refl a⟩

namespace Stands

variable {doc : Document σ} {l : Layout σ}

/-- What a header made that is no array of tables has a table's slot. -/
theorem made_table (h : Stands doc l) {a : Addr} (hmade : Made l a) (hcount : l.counts a = 0) :
    ∃ slot, doc.slots a = some slot ∧ slot.Open := by
  rcases hmade with rfl | ⟨header, hheader, rest, rfl⟩
  · exact h.shaped.root
  · obtain ⟨slot, hslot, hopen, -⟩ := h.headers _ hheader
    cases rest with
    | nil => exact ⟨slot, by rwa [List.append_nil] at hslot, hopen⟩
    | cons step rest =>
        obtain ⟨up, hup, htakes⟩ :=
          h.shaped.takes (by rw [hslot]; exact Option.some_ne_none slot)
        cases step with
        | name n => exact ⟨up, hup, htakes⟩
        | element i =>
            obtain ⟨hself, -⟩ := h.shaped.elements a up hup
            have hlt := htakes.2.2
            omega

theorem header_some (h : Stands doc l) {header : Addr} (hheader : header ∈ l.headers) :
    doc.slots header ≠ none := by
  obtain ⟨slot, hslot, -⟩ := h.headers header hheader
  rw [hslot]
  exact Option.some_ne_none slot

theorem headers_extend (h : Stands doc l) (hext : Extends doc.slots after) :
    ∀ header ∈ l.headers, ∃ slot, after header = some slot ∧ slot.Open ∧
      slot.explicit = true := by
  intro header hheader
  obtain ⟨slot, hslot, hopen, hexplicit⟩ := h.headers header hheader
  obtain ⟨slot', hslot', hkind, hinline, hkeep⟩ := hext header slot hslot
  exact ⟨slot', hslot', ⟨hkind.trans hopen.1, hinline.trans hopen.2⟩, hkeep hexplicit⟩

theorem pair (h : Stands doc l) {key : Key} {value : Value σ} (hvalue : value.claims = .ok ())
    (hclaim : claim doc.slots doc.slot key value.isInlineTable = .ok after) :
    Stands { doc with slots := after, nodes := doc.nodes.addEntry doc.table (key, value) }
      (l.add (.pair key value)) := by
  rw [h.slot] at hclaim
  obtain ⟨hnone, hshaped, hext, hclosed⟩ := claim_spec h.shaped h.opened hclaim
  have hentries : (fun b => if b = l.here then entriesAt l b ++ [(key, value)]
      else entriesAt l b) = entriesAt (l.add (.pair key value)) := by
    funext b
    simp only [entriesAt, Layout.add, List.filter_append, List.map_append]
    by_cases hb : b = l.here
    · subst hb
      rw [if_pos rfl, List.filter_cons_of_pos (by simp)]
      rfl
    · rw [if_neg hb, List.filter_cons_of_neg (by simpa using Ne.symm hb)]
      exact (List.append_nil _).symm
  have htree := h.tree.addEntry (Made.of_here h.here) (h.shaped.open_count h.opened) (key, value)
  rw [hentries] at htree
  refine ⟨h.slot, h.table, hshaped, hext.open h.opened, h.here, ?_, h.headers_extend hext, ?_,
    h.nodup, ?_, ?_, ?_⟩
  · intro p hp
    rcases List.mem_append.mp hp with hp | hp
    · exact hext.closed (h.pairs p hp)
    · rw [List.mem_singleton.mp hp]
      exact hclosed
  · refine List.pairwise_append.mpr ⟨h.apart, List.pairwise_singleton _ _, fun p hp q hq => ?_⟩
    rw [List.mem_singleton.mp hq]
    exact fresh_diverges h.shaped hshaped hext (h.pairs p hp) hnone hclosed
  · intro p hp
    rcases List.mem_append.mp hp with hp | hp
    · exact h.sections p hp
    · rw [List.mem_singleton.mp hp]
      exact h.here
  · intro p hp
    rcases List.mem_append.mp hp with hp | hp
    · exact h.sound p hp
    · rw [List.mem_singleton.mp hp]
      exact Value.claims_sound value hvalue
  · rw [h.table]
    exact htree

end Stands

theorem made_header (l : Layout σ) (header : Addr) (counts : Addr → Nat) (here : Addr) (a : Addr) :
    Made l a ∨ a <+: header ↔
      Made (⟨counts, here, l.headers ++ [header], l.pairs⟩ : Layout σ) a := by
  simp only [Made, List.mem_append, List.mem_singleton]
  constructor
  · rintro ((rfl | ⟨h, hh, hp⟩) | hp)
    · exact .inl rfl
    · exact .inr ⟨h, .inl hh, hp⟩
    · exact .inr ⟨header, .inr rfl, hp⟩
  · rintro (rfl | ⟨h, hh | rfl, hp⟩)
    · exact .inl (.inl rfl)
    · exact .inl (.inr ⟨h, hh, hp⟩)
    · exact .inr hp

theorem place_snoc (counts : Addr → Nat) (start : Addr) (path : List Text) (name : Text)
    (hzero : counts (place counts start path ++ [.name name]) = 0) :
    place counts start (path ++ [name]) = place counts start path ++ [.name name] := by
  induction path generalizing start with
  | nil =>
      simp only [List.nil_append, place] at hzero ⊢
      rw [if_pos hzero]
  | cons first path ih =>
      simp only [List.cons_append, place] at hzero ⊢
      split at hzero
      case isTrue h =>
        rw [if_pos h, if_pos h]
        exact ih _ hzero
      case isFalse h =>
        rw [if_neg h, if_neg h]
        exact ih _ hzero

namespace Stands

variable {doc : Document σ} {l : Layout σ}

/-- What a new header that opens a slot adds, whichever kind it is. -/
theorem header {slots' : Slots} {nodes' : Nodes σ} {counts' : Addr → Nat} {dest : Addr}
    (h : Stands doc l) (hshaped : Shaped slots' counts') (hext : Extends doc.slots slots')
    (hnew : dest ∉ l.headers)
    (hopen : ∃ slot, slots' dest = some slot ∧ slot.Open ∧ slot.explicit = true)
    (htree : Tree nodes' (fun a => Made l a ∨ a <+: dest) (entriesAt l) counts') :
    Stands ⟨slots', nodes', dest, dest⟩ ⟨counts', dest, l.headers ++ [dest], l.pairs⟩ := by
  refine ⟨rfl, rfl, hshaped, ?_, .inr (List.mem_append_right _ (List.mem_singleton_self dest)),
    fun p hp => hext.closed (h.pairs p hp), ?_, h.apart, ?_,
    fun p hp => (h.sections p hp).imp_right fun hmem => List.mem_append_left _ hmem, h.sound, ?_⟩
  · obtain ⟨slot, hslot, hslotOpen, -⟩ := hopen
    exact ⟨slot, hslot, hslotOpen⟩
  · intro header hheader
    rcases List.mem_append.mp hheader with hheader | hheader
    · exact h.headers_extend hext header hheader
    · rw [List.mem_singleton.mp hheader]
      exact hopen
  · rw [List.nodup_append]
    refine ⟨h.nodup, List.pairwise_singleton _ _, fun a ha b hb heq => ?_⟩
    rw [List.mem_singleton.mp hb] at heq
    exact hnew (heq ▸ ha)
  · exact htree.congr fun a => made_header l dest counts' dest a

theorem openTable (h : Stands doc l) {key : Key} {dest : Addr}
    (hok : openSlot doc.slots key = .ok (after, dest)) :
    Stands ⟨after, (docTable doc.nodes key.path).1, dest, (docTable doc.nodes key.path).2⟩
      (l.add (.table key)) := by
  obtain ⟨rfl, hshaped, hext, hzero, hfresh, hopen⟩ := openSlot_spec h.shaped hok
  obtain ⟨hdest, -, htree⟩ := @docWalk_spec σ _ _ _ _ _ key.path h.tree (.inl rfl)
    (h.shaped.open_count h.shaped.root)
  have hplace : place l.counts [] key.path = headerAddr l.counts key :=
    place_snoc l.counts [] key.parents key.name hzero
  rw [hplace] at hdest htree
  rw [docTable, hdest]
  refine h.header hshaped hext (fun hmem => ?_) hopen htree
  obtain ⟨slot, hslot, -, hexplicit⟩ := h.headers _ hmem
  rw [hfresh slot hslot] at hexplicit
  cases hexplicit

theorem openElement (h : Stands doc l) {key : Key} {dest : Addr}
    (hok : openElementSlot doc.slots key = .ok (after, dest)) :
    Stands ⟨after, (docElement doc.nodes key).1, dest, (docElement doc.nodes key).2⟩
      (l.add (.element key)) := by
  obtain ⟨hdest, hshaped, hext, hnone, hopen, haot⟩ := openElementSlot_spec h.shaped hok
  obtain ⟨hscope, hzero, htree⟩ := @docWalk_spec σ _ _ _ _ _ key.parents h.tree (.inl rfl)
    (h.shaped.open_count h.shaped.root)
  have harray : Made l (headerAddr l.counts key) ∨
      headerAddr l.counts key <+: place l.counts [] key.parents →
      0 < l.counts (headerAddr l.counts key) := by
    rintro (hmade | hleads)
    · refine Nat.pos_of_ne_zero fun hcount => ?_
      obtain ⟨slot, hslot, hslotOpen⟩ := h.made_table hmade hcount
      exact absurd (hslotOpen.1.symm.trans (haot slot hslot)) (by decide)
    · have hlength := hleads.length_le
      simp only [headerAddr, List.length_append, List.length_singleton] at hlength
      omega
  obtain ⟨hlast, hgrown⟩ :=
    addElement_spec htree (.inr (List.prefix_refl _)) hzero rfl hdest harray
  rw [docElement, hscope, hlast]
  have hbase := @header σ doc l after _ _ dest h hshaped hext
    (fun hmem => h.header_some hmem hnone) hopen (hgrown.congr fun a => ?_)
  · subst hdest
    exact hbase
  · rw [or_assoc]
    refine or_congr Iff.rfl (or_iff_right_of_imp fun hleads => hleads.trans ?_)
    rw [hdest, headerAddr, List.append_assoc]
    exact List.prefix_append _ _

theorem declare (h : Stands doc l) {statement : Statement σ} {doc' : Document σ}
    (hok : doc.declare statement = .ok doc') : Stands doc' (l.add statement) := by
  cases statement with
  | pair key value =>
      simp only [Document.declare] at hok
      split at hok
      · cases hok
      case h_2 hvalue =>
        split at hok
        · cases hok
        case h_2 hclaim =>
          cases hok
          exact h.pair hvalue hclaim
  | table key =>
      simp only [Document.declare] at hok
      split at hok
      · cases hok
      case h_2 hopen =>
        cases hok
        exact h.openTable hopen
  | element key =>
      simp only [Document.declare] at hok
      split at hok
      · cases hok
      case h_2 hopen =>
        cases hok
        exact h.openElement hopen

theorem declareAll (h : Stands doc l) {statements : List (Statement σ)} {doc' : Document σ}
    (hok : doc.declareAll statements = .ok doc') :
    Stands doc' (statements.foldl Layout.add l) := by
  induction statements generalizing doc l with
  | nil =>
      cases hok
      exact h
  | cons statement statements ih =>
      simp only [Document.declareAll] at hok
      split at hok
      · cases hok
      case h_2 hdeclare => exact ih (h.declare hdeclare) hok

end Stands

theorem empty_stands : Stands (.empty : Document σ) .empty := by
  have hroot : ∀ a : Addr, (rootTable : Nodes σ) a ≠ none ↔ Made (.empty : Layout σ) a := by
    intro a
    simp only [rootTable, Made, Layout.empty]
    by_cases ha : a = []
    · simp [ha]
    · simp [ha]
  have hnot : ∀ (a : Addr) step, ¬ Made (.empty : Layout σ) (a ++ [step]) := by
    rintro a step (hnil | ⟨h, hh, -⟩)
    · exact List.concat_ne_nil step a hnil
    · cases hh
  refine ⟨rfl, rfl, rootSlot_shaped, rootSlot_shaped.root, .inl rfl, fun p hp => (nomatch hp),
    fun h hh => (nomatch hh), .nil, .nil, fun p hp => (nomatch hp), fun p hp => (nomatch hp),
    ⟨.inl rfl, hroot, fun a es cs ha => ?_, fun a k ha => ?_, fun a n ha => absurd ha (hnot a _),
      fun a i ha => absurd ha (hnot a _),
      fun a i => iff_of_false (Nat.not_lt_zero i) (hnot a _), fun _ _ => rfl, fun _ _ => rfl⟩⟩
  · by_cases hnil : a = []
    · subst hnil
      cases ha
      exact ⟨rfl, rfl, fun n => iff_of_false List.not_mem_nil (hnot [] _)⟩
    · rw [show (Document.empty : Document σ).nodes a = none from if_neg hnil] at ha
      cases ha
  · by_cases hnil : a = []
    · subst hnil
      cases ha
    · rw [show (Document.empty : Document σ).nodes a = none from if_neg hnil] at ha
      cases ha

end Zuri.Toml
