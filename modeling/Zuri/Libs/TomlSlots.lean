import Mathlib.Data.List.Induction
import Zuri.Libs.TomlTables

/-!
What each way of declaring does to the slots. The slots keep a shape: what has slots below it
is a table, or an array of tables with that many elements, and an array's elements are tables.
-/

namespace Zuri.Toml

variable {slots after : Slots} {counts : Addr → Nat} {a b : Addr} {slot : Slot}

/-- A table that names can be added to. -/
def Slot.Open (slot : Slot) : Prop := slot.kind = .table ∧ slot.inline = false

/-- A value or an inline table. -/
def Slot.Closed (slot : Slot) : Prop := slot.kind = .value ∨ slot.inline = true

def Slot.Takes (slot : Slot) : Step → Prop
  | .name _ => slot.Open
  | .element i => slot.kind = .aot ∧ slot.inline = false ∧ i < slot.elements

theorem Slot.Takes.not_closed {step : Step} (h : slot.Takes step) : ¬ slot.Closed := by
  rintro (hclosed | hclosed)
  · cases step with
    | name n => exact absurd (h.1.symm.trans hclosed) (by decide)
    | element i => exact absurd (h.1.symm.trans hclosed) (by decide)
  · cases step with
    | name n => exact absurd (h.2.symm.trans hclosed) (by decide)
    | element i => exact absurd (h.2.1.symm.trans hclosed) (by decide)

theorem Slot.Open.not_closed (h : slot.Open) : ¬ slot.Closed :=
  @Slot.Takes.not_closed slot (.name []) h

structure Shaped (slots : Slots) (counts : Addr → Nat) : Prop where
  root : ∃ slot, slots [] = some slot ∧ slot.Open
  below : ∀ a step, slots (a ++ [step]) ≠ none → ∃ slot, slots a = some slot ∧ slot.Takes step
  elements : ∀ a slot, slots a = some slot →
    slot.elements = counts a ∧ (0 < slot.elements → slot.kind = .aot) ∧
      (slot.kind = .aot → slot.inline = false)
  absent : ∀ a, slots a = none → counts a = 0
  each : ∀ a i, i < counts a → ∃ slot, slots (a ++ [.element i]) = some slot ∧ slot.Open

/-- Whatever had a slot has one of the same kind, and as explicit. -/
def Extends (slots after : Slots) : Prop :=
  ∀ a slot, slots a = some slot → ∃ slot', after a = some slot' ∧ slot'.kind = slot.kind ∧
    slot'.inline = slot.inline ∧ (slot.explicit = true → slot'.explicit = true)

theorem Extends.refl (slots : Slots) : Extends slots slots :=
  fun _ slot h => ⟨slot, h, rfl, rfl, id⟩

theorem Extends.trans {last : Slots} (h : Extends slots after) (h' : Extends after last) :
    Extends slots last := by
  intro a slot hslot
  obtain ⟨mid, hmid, hkind, hinline, hexplicit⟩ := h a slot hslot
  obtain ⟨slot', hslot', hkind', hinline', hexplicit'⟩ := h' a mid hmid
  exact ⟨slot', hslot', hkind'.trans hkind, hinline'.trans hinline,
    fun he => hexplicit' (hexplicit he)⟩

theorem Extends.open (h : Extends slots after) (hopen : ∃ slot, slots a = some slot ∧ slot.Open) :
    ∃ slot, after a = some slot ∧ slot.Open := by
  obtain ⟨slot, hslot, hkind, hinline⟩ := hopen
  obtain ⟨slot', hslot', hkind', hinline', -⟩ := h a slot hslot
  exact ⟨slot', hslot', hkind'.trans hkind, hinline'.trans hinline⟩

theorem Extends.closed (h : Extends slots after)
    (hclosed : ∃ slot, slots a = some slot ∧ slot.Closed) :
    ∃ slot, after a = some slot ∧ slot.Closed := by
  obtain ⟨slot, hslot, hclosed⟩ := hclosed
  obtain ⟨slot', hslot', hkind', hinline', -⟩ := h a slot hslot
  exact ⟨slot', hslot', hclosed.imp hkind'.trans hinline'.trans⟩

theorem Extends.absent (h : Extends slots after) (ha : after a = none) : slots a = none := by
  cases hslot : slots a with
  | none => rfl
  | some slot =>
      obtain ⟨slot', hslot', -⟩ := h a slot hslot
      rw [ha] at hslot'
      cases hslot'

theorem Slots.set_self (slots : Slots) (a : Addr) (slot : Slot) :
    slots.set a slot a = some slot := if_pos rfl

theorem Slots.set_other (slots : Slots) (slot : Slot) (h : b ≠ a) :
    slots.set a slot b = slots b := if_neg h

theorem Slots.set_set (slots : Slots) (a : Addr) (slot slot' : Slot) :
    (slots.set a slot).set a slot' = slots.set a slot' := by
  funext b
  by_cases h : b = a
  · rw [h, Slots.set_self, Slots.set_self]
  · rw [Slots.set_other _ _ h, Slots.set_other _ _ h, Slots.set_other _ _ h]

theorem extends_set (slot : Slot) (h : slots a = none) : Extends slots (slots.set a slot) := by
  intro b found hfound
  have hne : b ≠ a := by
    rintro rfl
    rw [h] at hfound
    cases hfound
  exact ⟨found, (slots.set_other slot hne).trans hfound, rfl, rfl, id⟩

theorem extends_setExplicit (hslot : slots a = some slot) :
    Extends slots (slots.set a { slot with explicit := true }) := by
  intro b found hfound
  by_cases heq : b = a
  · subst heq
    rw [hslot] at hfound
    cases hfound
    exact ⟨_, Slots.set_self _ _ _, rfl, rfl, fun _ => rfl⟩
  · exact ⟨found, (Slots.set_other _ _ heq).trans hfound, rfl, rfl, id⟩

namespace Shaped

theorem above (h : Shaped slots counts) (hab : slots (a ++ b) ≠ none) : slots a ≠ none := by
  induction b using List.reverseRecOn with
  | nil => rwa [List.append_nil] at hab
  | append_singleton b step ih =>
      rw [← List.append_assoc] at hab
      obtain ⟨slot, hslot, -⟩ := h.below _ step hab
      exact ih (by rw [hslot]; exact Option.some_ne_none slot)

/-- What lies on the way to a slot takes the next step. -/
theorem takes (h : Shaped slots counts) {step : Step} {rest : Addr}
    (hslot : slots (a ++ step :: rest) ≠ none) :
    ∃ slot, slots a = some slot ∧ slot.Takes step := by
  refine h.below a step (h.above (b := rest) ?_)
  rwa [List.append_assoc, List.singleton_append]

/-- A value or an inline table has nothing below it. -/
theorem closed_leads (h : Shaped slots counts)
    (hclosed : ∃ slot, slots a = some slot ∧ slot.Closed) (hb : slots b ≠ none) (hab : a <+: b) :
    a = b := by
  obtain ⟨rest, rfl⟩ := hab
  cases rest with
  | nil => exact (List.append_nil a).symm
  | cons step rest =>
      obtain ⟨slot, hslot, hcl⟩ := hclosed
      obtain ⟨slot', hslot', htakes⟩ := h.takes hb
      rw [hslot] at hslot'
      cases hslot'
      exact absurd hcl htakes.not_closed

/-- A slot without elements below an open one keeps the shape. -/
theorem set (h : Shaped slots counts) (hopen : ∃ slot, slots a = some slot ∧ slot.Open)
    {name : Text} (hnone : slots (a ++ [.name name]) = none)
    (hplain : slot.kind = .aot → slot.inline = false) (helements : slot.elements = 0) :
    Shaped (slots.set (a ++ [.name name]) slot) counts := by
  have hext : Extends slots (slots.set (a ++ [.name name]) slot) := extends_set slot hnone
  refine ⟨hext.open h.root, fun b step hstep => ?_, fun b found hfound => ?_, fun b hb => ?_,
    fun b i hi => hext.open (h.each b i hi)⟩
  · have hkeep : ∀ found, slots b = some found →
        slots.set (a ++ [.name name]) slot b = some found := by
      intro found hfound
      rw [Slots.set_other, hfound]
      rintro rfl
      rw [hnone] at hfound
      cases hfound
    by_cases heq : b ++ [step] = a ++ [.name name]
    · obtain ⟨rfl, hlast⟩ := List.append_inj' heq rfl
      cases hlast
      obtain ⟨found, hfound, htable⟩ := hopen
      exact ⟨found, hkeep found hfound, htable⟩
    · rw [Slots.set_other _ _ heq] at hstep
      obtain ⟨found, hfound, htakes⟩ := h.below b step hstep
      exact ⟨found, hkeep found hfound, htakes⟩
  · by_cases heq : b = a ++ [.name name]
    · subst heq
      rw [Slots.set_self] at hfound
      cases hfound
      refine ⟨helements.trans (h.absent _ hnone).symm, fun hpos => ?_, hplain⟩
      rw [helements] at hpos
      exact absurd hpos (Nat.lt_irrefl 0)
    · rw [Slots.set_other _ _ heq] at hfound
      exact h.elements b found hfound
  · by_cases heq : b = a ++ [.name name]
    · rw [heq, Slots.set_self] at hb
      cases hb
    · rw [Slots.set_other _ _ heq] at hb
      exact h.absent b hb

/-- A slot that becomes explicit keeps the shape. -/
theorem setExplicit (h : Shaped slots counts) (hslot : slots a = some slot) :
    Shaped (slots.set a { slot with explicit := true }) counts := by
  have hext := extends_setExplicit hslot
  have hsome : ∀ b found, slots.set a { slot with explicit := true } b = some found →
      ∃ before, slots b = some before ∧ found.kind = before.kind ∧
        found.inline = before.inline ∧ found.elements = before.elements := by
    intro b found hfound
    by_cases heq : b = a
    · subst heq
      rw [Slots.set_self] at hfound
      cases hfound
      exact ⟨slot, hslot, rfl, rfl, rfl⟩
    · rw [Slots.set_other _ _ heq] at hfound
      exact ⟨found, hfound, rfl, rfl, rfl⟩
  refine ⟨hext.open h.root, fun b step hstep => ?_, fun b found hfound => ?_,
    fun b hb => h.absent b (hext.absent hb), fun b i hi => hext.open (h.each b i hi)⟩
  · obtain ⟨found, hfound⟩ := Option.ne_none_iff_exists'.mp hstep
    obtain ⟨before, hbefore, -⟩ := hsome _ found hfound
    obtain ⟨up, hup, htakes⟩ := h.below b step (by rw [hbefore]; exact Option.some_ne_none _)
    obtain ⟨up', hup', -⟩ := hext b up hup
    obtain ⟨before', hbefore', hkind, hinline, helements⟩ := hsome b up' hup'
    rw [hup] at hbefore'
    cases hbefore'
    refine ⟨up', hup', ?_⟩
    cases step with
    | name n => exact ⟨hkind.trans htakes.1, hinline.trans htakes.2⟩
    | element i =>
        exact ⟨hkind.trans htakes.1, hinline.trans htakes.2.1, helements ▸ htakes.2.2⟩
  · obtain ⟨before, hbefore, hkind, hinline, helements⟩ := hsome b found hfound
    rw [hkind, hinline, helements]
    exact h.elements b before hbefore

end Shaped

theorem keyScope_spec {parents : List Text} {owner : Addr} (h : Shaped slots counts)
    (hopen : ∃ slot, slots a = some slot ∧ slot.Open)
    (hscope : keyScope slots a parents = .ok (after, owner)) :
    owner = a ++ names parents ∧ Shaped after counts ∧ Extends slots after ∧
      ∃ slot, after owner = some slot ∧ slot.Open := by
  induction parents generalizing slots a with
  | nil =>
      cases hscope
      exact ⟨(List.append_nil _).symm, h, .refl _, hopen⟩
  | cons name parents ih =>
      have hnames : a ++ names (name :: parents) = a ++ [.name name] ++ names parents := by
        rw [List.append_assoc]
        rfl
      rw [hnames]
      simp only [keyScope] at hscope
      split at hscope
      case h_1 hnone =>
        obtain ⟨howner, hshaped, hext, hfound⟩ :=
          ih (h.set hopen hnone (by rintro ⟨⟩) rfl) ⟨_, Slots.set_self _ _ _, rfl, rfl⟩ hscope
        exact ⟨howner, hshaped, (extends_set _ hnone).trans hext, hfound⟩
      case h_2 slot hslot =>
        split at hscope
        · cases hscope
        split at hscope
        · cases hscope
        split at hscope
        · cases hscope
        case isFalse hinline hkind _ =>
          exact ih h ⟨slot, hslot, not_not.mp hkind, Bool.eq_false_iff.mpr hinline⟩ hscope

theorem Key.addr_eq (key : Key) : key.addr = names key.parents ++ [.name key.name] :=
  List.map_append

/-- A key is claimed where nothing was, and leaves a closed slot there. -/
theorem claim_spec {key : Key} {inline : Bool} (h : Shaped slots counts)
    (hopen : ∃ slot, slots a = some slot ∧ slot.Open)
    (hclaim : claim slots a key inline = .ok after) :
    slots (a ++ key.addr) = none ∧ Shaped after counts ∧ Extends slots after ∧
      ∃ slot, after (a ++ key.addr) = some slot ∧ slot.Closed := by
  rw [Key.addr_eq, ← List.append_assoc]
  simp only [claim] at hclaim
  split at hclaim
  case h_1 => cases hclaim
  case h_2 mid owner hscope =>
    obtain ⟨rfl, hshaped, hext, hfound⟩ := keyScope_spec h hopen hscope
    split at hclaim
    case isTrue => cases hclaim
    case isFalse hsome =>
      have hnone : mid (a ++ names key.parents ++ [.name key.name]) = none :=
        Option.not_isSome_iff_eq_none.mp hsome
      refine ⟨hext.absent hnone, ?_⟩
      split at hclaim
      · cases hclaim
        exact ⟨hshaped.set hfound hnone (by rintro ⟨⟩) rfl, hext.trans (extends_set _ hnone),
          _, Slots.set_self _ _ _, .inr rfl⟩
      · cases hclaim
        exact ⟨hshaped.set hfound hnone (by rintro ⟨⟩) rfl, hext.trans (extends_set _ hnone),
          _, Slots.set_self _ _ _, .inl rfl⟩

/-- Where a path leads, through the last element of each array of tables on it. -/
def place (counts : Addr → Nat) (start : Addr) : List Text → Addr
  | [] => start
  | name :: rest =>
      let child := start ++ [.name name]
      if counts child = 0 then place counts child rest
      else place counts (child ++ [.element (counts child - 1)]) rest

theorem headerScope_spec {parents : List Text} {dest : Addr} (h : Shaped slots counts)
    (hopen : ∃ slot, slots a = some slot ∧ slot.Open)
    (hscope : headerScope slots a parents = .ok (after, dest)) :
    dest = place counts a parents ∧ Shaped after counts ∧ Extends slots after ∧
      ∃ slot, after dest = some slot ∧ slot.Open := by
  induction parents generalizing slots a with
  | nil =>
      cases hscope
      exact ⟨rfl, h, .refl _, hopen⟩
  | cons name parents ih =>
      simp only [headerScope] at hscope
      simp only [place]
      split at hscope
      case h_1 hnone =>
        rw [if_pos (h.absent _ hnone)]
        obtain ⟨hdest, hshaped, hext, hfound⟩ :=
          ih (h.set hopen hnone (by rintro ⟨⟩) rfl) ⟨_, Slots.set_self _ _ _, rfl, rfl⟩ hscope
        exact ⟨hdest, hshaped, (extends_set _ hnone).trans hext, hfound⟩
      case h_2 slot hslot =>
        obtain ⟨hcount, haot, -⟩ := h.elements _ slot hslot
        split at hscope
        · cases hscope
        rename_i hinline
        split at hscope
        case isTrue hkind =>
          split at hscope
          · cases hscope
          rename_i hpos
          rw [hcount] at hpos hscope
          rw [if_neg hpos]
          exact ih h (h.each _ _ (Nat.sub_lt (Nat.pos_of_ne_zero hpos) Nat.one_pos)) hscope
        case isFalse hkind =>
          split at hscope
          · cases hscope
          rename_i htable
          have hzero : counts (a ++ [.name name]) = 0 := by
            rw [← hcount]
            exact Nat.eq_zero_of_not_pos fun hpos => hkind (haot hpos)
          rw [if_pos hzero]
          exact ih h ⟨slot, hslot, not_not.mp htable, Bool.eq_false_iff.mpr hinline⟩ hscope

def headerAddr (counts : Addr → Nat) (key : Key) : Addr :=
  place counts [] key.parents ++ [.name key.name]

theorem openSlot_spec {key : Key} {dest : Addr} (h : Shaped slots counts)
    (hok : openSlot slots key = .ok (after, dest)) :
    dest = headerAddr counts key ∧ Shaped after counts ∧ Extends slots after ∧
      counts dest = 0 ∧ (∀ slot, slots dest = some slot → slot.explicit = false) ∧
      ∃ slot, after dest = some slot ∧ slot.Open ∧ slot.explicit = true := by
  simp only [openSlot] at hok
  split at hok
  case h_1 => cases hok
  case h_2 mid scope hscope =>
    obtain ⟨rfl, hshaped, hext, hfound⟩ := headerScope_spec h h.root hscope
    split at hok
    case h_1 hnone =>
      cases hok
      refine ⟨rfl, hshaped.set hfound hnone (by rintro ⟨⟩) rfl, hext.trans (extends_set _ hnone),
        hshaped.absent _ hnone, fun slot hslot => ?_, _, Slots.set_self _ _ _, ⟨rfl, rfl⟩, rfl⟩
      rw [hext.absent hnone] at hslot
      cases hslot
    case h_2 slot hslot =>
      split at hok
      · cases hok
      split at hok
      · cases hok
      split at hok
      · cases hok
      split at hok
      · cases hok
      case isFalse hinline hkind hexplicit _ =>
        have htable : slot.kind = .table := not_not.mp hkind
        have hplain : slot.inline = false := Bool.eq_false_iff.mpr hinline
        obtain ⟨hcount, haot, -⟩ := hshaped.elements _ slot hslot
        cases hok
        refine ⟨rfl, hshaped.setExplicit hslot, hext.trans (extends_setExplicit hslot), ?_,
          fun before hbefore => ?_, _, Slots.set_self _ _ _, ⟨htable, hplain⟩, rfl⟩
        · rw [← hcount]
          refine Nat.eq_zero_of_not_pos fun hpos => ?_
          exact absurd (htable.symm.trans (haot hpos)) (by decide)
        · obtain ⟨found, hfound', -, -, hkeep⟩ := hext _ before hbefore
          rw [hslot] at hfound'
          cases hfound'
          exact Bool.eq_false_iff.mpr fun he => hexplicit (hkeep he)

/-- One more element of the array of tables at an address. -/
def bump (counts : Addr → Nat) (a : Addr) : Addr → Nat :=
  fun b => if b = a then counts b + 1 else counts b

theorem bump_self (counts : Addr → Nat) (a : Addr) : bump counts a a = counts a + 1 := if_pos rfl

theorem bump_other (counts : Addr → Nat) (h : b ≠ a) : bump counts a b = counts b := if_neg h

/-- An array of tables with one more element, which is a table with nothing in it. -/
def grow (slots : Slots) (a : Addr) (array : Slot) : Slots :=
  (slots.set a { array with elements := array.elements + 1 }).set
    (a ++ [.element array.elements]) ⟨.table, 0, true, false, false⟩

theorem grow_array (slots : Slots) (a : Addr) (array : Slot) :
    grow slots a array a = some { array with elements := array.elements + 1 } := by
  rw [grow, Slots.set_other, Slots.set_self]
  intro h
  exact absurd (congrArg List.length h) (by simp)

theorem grow_element (slots : Slots) (a : Addr) (array : Slot) :
    grow slots a array (a ++ [.element array.elements]) =
      some ⟨.table, 0, true, false, false⟩ := Slots.set_self _ _ _

theorem grow_other (slots : Slots) (array : Slot) (ha : b ≠ a)
    (he : b ≠ a ++ [.element array.elements]) : grow slots a array b = slots b := by
  rw [grow, Slots.set_other _ _ he, Slots.set_other _ _ ha]

namespace Shaped

variable {array : Slot}

theorem extends_grow (hslot : slots a = some array)
    (hnone : slots (a ++ [.element array.elements]) = none) :
    Extends slots (grow slots a array) := by
  intro b found hfound
  by_cases heq : b = a
  · subst heq
    rw [hslot] at hfound
    cases hfound
    exact ⟨_, grow_array slots b array, rfl, rfl, id⟩
  · have hne : b ≠ a ++ [.element array.elements] := by
      rintro rfl
      rw [hnone] at hfound
      cases hfound
    exact ⟨found, (grow_other slots array heq hne).trans hfound, rfl, rfl, id⟩

theorem no_element (h : Shaped slots counts) (hslot : slots a = some array) :
    slots (a ++ [.element array.elements]) = none := by
  by_contra hne
  obtain ⟨slot, hfound, htakes⟩ := h.below a _ hne
  rw [hslot] at hfound
  cases hfound
  exact Nat.lt_irrefl _ htakes.2.2

/-- An array of tables that gains an element keeps the shape. -/
theorem grow (h : Shaped slots counts) (hslot : slots a = some array) (hkind : array.kind = .aot) :
    Shaped (grow slots a array) (bump counts a) := by
  have hnone := h.no_element hslot
  have hext := extends_grow hslot hnone
  obtain ⟨hcount, haot, hplain⟩ := h.elements a array hslot
  refine ⟨hext.open h.root, fun b step hstep => ?_, fun b found hfound => ?_, fun b hb => ?_,
    fun b i hi => ?_⟩
  · by_cases heq : b ++ [step] = a ++ [.element array.elements]
    · obtain ⟨rfl, hlast⟩ := List.append_inj' heq rfl
      cases hlast
      exact ⟨_, grow_array slots b array, hkind, hplain hkind, Nat.lt_succ_self _⟩
    · have hsome : slots (b ++ [step]) ≠ none := by
        by_cases ha : b ++ [step] = a
        · rw [ha, hslot]
          exact Option.some_ne_none array
        · rwa [grow_other slots array ha heq] at hstep
      obtain ⟨up, hup, htakes⟩ := h.below b step hsome
      by_cases hb : b = a
      · subst hb
        rw [hslot] at hup
        cases hup
        refine ⟨_, grow_array slots b array, ?_⟩
        cases step with
        | name n => exact htakes
        | element i => exact ⟨htakes.1, htakes.2.1, Nat.lt_succ_of_lt htakes.2.2⟩
      · refine ⟨up, ?_, htakes⟩
        rw [grow_other slots array hb, hup]
        rintro rfl
        rw [hnone] at hup
        cases hup
  · by_cases ha : b = a
    · subst ha
      rw [grow_array] at hfound
      cases hfound
      refine ⟨?_, fun _ => hkind, hplain⟩
      rw [bump_self, ← hcount]
    · rw [bump_other counts ha]
      by_cases he : b = a ++ [.element array.elements]
      · subst he
        rw [grow_element] at hfound
        cases hfound
        exact ⟨(h.absent _ hnone).symm, fun hlt => absurd hlt (Nat.lt_irrefl 0), fun _ => rfl⟩
      · rw [grow_other slots array ha he] at hfound
        exact h.elements b found hfound
  · have hb' := hext.absent hb
    have hne : b ≠ a := by
      rintro rfl
      rw [hslot] at hb'
      cases hb'
    rw [bump_other counts hne]
    exact h.absent b hb'
  · by_cases hb : b = a
    · subst hb
      rw [bump_self] at hi
      by_cases hlast : i = array.elements
      · subst hlast
        exact ⟨_, grow_element slots b array, rfl, rfl⟩
      · exact hext.open (h.each b i (by omega))
    · rw [bump_other counts hb] at hi
      exact hext.open (h.each b i hi)

end Shaped

theorem openElementSlot_spec {key : Key} {dest : Addr} (h : Shaped slots counts)
    (hok : openElementSlot slots key = .ok (after, dest)) :
    dest = headerAddr counts key ++ [.element (counts (headerAddr counts key))] ∧
      Shaped after (bump counts (headerAddr counts key)) ∧ Extends slots after ∧
      slots dest = none ∧ (∃ slot, after dest = some slot ∧ slot.Open ∧ slot.explicit = true) ∧
      ∀ slot, slots (headerAddr counts key) = some slot → slot.kind = .aot := by
  simp only [openElementSlot] at hok
  split at hok
  case h_1 => cases hok
  case h_2 mid scope hscope =>
    obtain ⟨rfl, hshaped, hext, hfound⟩ := headerScope_spec h h.root hscope
    split at hok
    case h_1 hnone =>
      have hzero : counts (headerAddr counts key) = 0 := hshaped.absent _ hnone
      let array : Slot := ⟨.aot, 0, false, false, false⟩
      have harray : Shaped (mid.set (headerAddr counts key) array) counts :=
        hshaped.set hfound hnone (fun _ => rfl) rfl
      have hset := Slots.set_self mid (headerAddr counts key) array
      have hnone' := harray.no_element hset
      have hext' := (hext.trans (extends_set array hnone)).trans (Shaped.extends_grow hset hnone')
      have hgrown : grow (mid.set (headerAddr counts key) array) (headerAddr counts key) array =
          (mid.set (headerAddr counts key) ⟨.aot, 1, false, false, false⟩).set
            (headerAddr counts key ++ [.element 0]) ⟨.table, 0, true, false, false⟩ := by
        rw [grow, Slots.set_set]
      cases hok
      rw [headerAddr] at hgrown
      rw [← hgrown, hzero]
      refine ⟨rfl, harray.grow hset rfl, hext',
        (hext.trans (extends_set array hnone)).absent hnone',
        ⟨_, grow_element _ _ array, ⟨rfl, rfl⟩, rfl⟩, fun slot hslot => ?_⟩
      have hbefore : slots (headerAddr counts key) = none := hext.absent hnone
      rw [hbefore] at hslot
      cases hslot
    case h_2 slot hslot =>
      split at hok
      · cases hok
      rename_i hkind
      obtain ⟨hcount, -⟩ := hshaped.elements _ slot hslot
      cases hok
      have hnone := hshaped.no_element hslot
      have hdest : headerAddr counts key ++ [.element slot.elements] =
          headerAddr counts key ++ [.element (counts (headerAddr counts key))] := by
        rw [headerAddr, hcount]
      refine ⟨hdest, hshaped.grow hslot (not_not.mp hkind),
        hext.trans (Shaped.extends_grow hslot hnone), hext.absent hnone,
        ⟨_, grow_element _ _ slot, ⟨rfl, rfl⟩, rfl⟩, fun before hbefore => ?_⟩
      obtain ⟨found, hfound', hsame, -⟩ := hext _ before hbefore
      cases hslot.symm.trans hfound'
      exact hsame.symm.trans (not_not.mp hkind)

end Zuri.Toml
