import Zuri.Libs.TomlTables

/-!
What grafting makes of pairs: where no key leads into another one, each pair is found at its
key, and nothing is found elsewhere. Written values keep every value written in them.
-/

namespace Zuri.Toml

variable {σ : Type} {out : Dict σ} {value : Plain σ}

/-- Neither path leads into the other. -/
def Diverge {α : Type} (p q : List α) : Prop := ¬ p <+: q ∧ ¬ q <+: p

theorem Diverge.symm {α : Type} {p q : List α} (h : Diverge p q) : Diverge q p := ⟨h.2, h.1⟩

theorem diverge_append {α : Type} (s : List α) {p q : List α} :
    Diverge (s ++ p) (s ++ q) ↔ Diverge p q := by
  simp only [Diverge, List.prefix_append_right_inj]

theorem names_append (ps qs : List Text) : names (ps ++ qs) = names ps ++ names qs :=
  List.map_append

theorem names_leads {ps qs : List Text} : names ps <+: names qs ↔ ps <+: qs := by
  constructor
  · intro h
    induction ps generalizing qs with
    | nil => exact List.nil_prefix
    | cons p ps ih =>
        cases qs with
        | nil => exact absurd (List.prefix_nil.mp h) (by simp [names])
        | cons q qs =>
            obtain ⟨hpq, hrest⟩ := List.cons_prefix_cons.mp h
            cases hpq
            exact List.cons_prefix_cons.mpr ⟨rfl, ih hrest⟩
  · exact fun h => h.map Step.name

theorem find_put (name other : Text) :
    find (put out name value) other = if name = other then some value else find out other := by
  rw [find, put, OrderedMap.get_put]
  simp only [beq_iff_eq, find]

theorem at_put (name other : Text) (rest : Addr) :
    (Plain.dict (put out name value)).at (.name other :: rest) =
      if name = other then value.at rest else (Plain.dict out).at (.name other :: rest) := by
  simp only [Plain.at, find_put]
  split <;> rfl

theorem at_dictAt (name first : Text) (rest : Addr) :
    (Plain.dict (dictAt out name)).at (.name first :: rest) =
      (Plain.dict out).at (.name name :: .name first :: rest) := by
  simp only [Plain.at, dictAt]
  cases find out name with
  | none => rfl
  | some v => cases v <;> rfl

/-- The value grafted at a key is found there. -/
theorem at_graft_self (parents : List Text) (name : Text) (rest : Addr) :
    (Plain.dict (graft out parents name value)).at (names (parents ++ [name]) ++ rest) =
      value.at rest := by
  induction parents generalizing out with
  | nil =>
      change (Plain.dict (put out name value)).at (.name name :: rest) = _
      rw [at_put, if_pos rfl]
  | cons first parents ih =>
      change (Plain.dict (put out first _)).at
        (.name first :: (names (parents ++ [name]) ++ rest)) = _
      rw [at_put, if_pos rfl]
      exact ih

/-- Grafting leaves what is found at the keys that go another way. -/
theorem at_graft_other (parents : List Text) (name : Text) {path : List Text}
    (h : Diverge path (parents ++ [name])) (rest : Addr) :
    (Plain.dict (graft out parents name value)).at (names path ++ rest) =
      (Plain.dict out).at (names path ++ rest) := by
  induction parents generalizing out path with
  | nil =>
      cases path with
      | nil => exact absurd List.nil_prefix h.1
      | cons p path =>
          change (Plain.dict (put out name value)).at (.name p :: (names path ++ rest)) = _
          rw [at_put]
          split
          case isTrue heq =>
            exact absurd (List.cons_prefix_cons.mpr ⟨heq, List.nil_prefix⟩) h.2
          case isFalse => rfl
  | cons first parents ih =>
      cases path with
      | nil => exact absurd List.nil_prefix h.1
      | cons p path =>
          change (Plain.dict (put out first _)).at (.name p :: (names path ++ rest)) = _
          rw [at_put]
          split
          case isTrue heq =>
            subst heq
            have hpath : Diverge path (parents ++ [name]) :=
              ⟨fun hp => h.1 (List.cons_prefix_cons.mpr ⟨rfl, hp⟩),
                fun hp => h.2 (List.cons_prefix_cons.mpr ⟨rfl, hp⟩)⟩
            rw [ih hpath]
            cases path with
            | nil => exact absurd List.nil_prefix hpath.1
            | cons q path => exact at_dictAt first q (names path ++ rest)
          case isFalse => rfl

/-- What is found after grafting was there, or lies on the key's way or below it. -/
theorem at_graft_only (parents : List Text) (name : Text) {addr : Addr}
    (h : (Plain.dict (graft out parents name value)).at addr ≠ none) :
    (Plain.dict out).at addr ≠ none ∨ addr <+: names (parents ++ [name]) ∨
      names (parents ++ [name]) <+: addr := by
  induction parents generalizing out addr with
  | nil =>
      cases addr with
      | nil => exact .inr (.inl List.nil_prefix)
      | cons step rest =>
          cases step with
          | element i => exact absurd rfl h
          | name n =>
              change (Plain.dict (put out name value)).at (.name n :: rest) ≠ none at h
              rw [at_put] at h
              split at h
              case isTrue heq =>
                subst heq
                exact .inr (.inr (List.cons_prefix_cons.mpr ⟨rfl, List.nil_prefix⟩))
              case isFalse => exact .inl h
  | cons first parents ih =>
      cases addr with
      | nil => exact .inr (.inl List.nil_prefix)
      | cons step rest =>
          cases step with
          | element i => exact absurd rfl h
          | name n =>
              change (Plain.dict (put out first _)).at (.name n :: rest) ≠ none at h
              rw [at_put] at h
              split at h
              case isFalse => exact .inl h
              case isTrue heq =>
                subst heq
                rcases ih h with hout | hkey | hkey
                · cases rest with
                  | nil => exact .inr (.inl (List.cons_prefix_cons.mpr ⟨rfl, List.nil_prefix⟩))
                  | cons step rest =>
                      cases step with
                      | element i => exact absurd rfl hout
                      | name m =>
                          rw [at_dictAt] at hout
                          exact .inl hout
                · exact .inr (.inl (List.cons_prefix_cons.mpr ⟨rfl, hkey⟩))
                · exact .inr (.inr (List.cons_prefix_cons.mpr ⟨rfl, hkey⟩))

theorem at_graftAll_other {entries : List (Key × Plain σ)} {path : List Text}
    (h : ∀ e ∈ entries, Diverge path e.1.path) (rest : Addr) :
    (Plain.dict (graftAll out entries)).at (names path ++ rest) =
      (Plain.dict out).at (names path ++ rest) := by
  induction entries generalizing out with
  | nil => rfl
  | cons e entries ih =>
      change (Plain.dict (graftAll (graft out e.1.parents e.1.name e.2) entries)).at _ = _
      rw [ih fun x hx => h x (List.mem_cons_of_mem e hx),
        at_graft_other e.1.parents e.1.name (h e List.mem_cons_self)]

/-- No key of the entries leads into another one. -/
def KeysApart {β : Type} (entries : List (Key × β)) : Prop :=
  entries.Pairwise fun a b => Diverge a.1.path b.1.path

theorem at_graftAll {entries : List (Key × Plain σ)} (h : KeysApart entries)
    {e : Key × Plain σ} (he : e ∈ entries) (rest : Addr) :
    (Plain.dict (graftAll out entries)).at (e.1.addr ++ rest) = e.2.at rest := by
  induction entries generalizing out with
  | nil => cases he
  | cons first entries ih =>
      change (Plain.dict (graftAll (graft out first.1.parents first.1.name first.2)
        entries)).at _ = _
      obtain ⟨hfirst, hrest⟩ := List.pairwise_cons.mp h
      rcases List.mem_cons.mp he with rfl | he
      · rw [Key.addr, at_graftAll_other hfirst]
        exact at_graft_self _ _ _
      · exact ih hrest he

theorem at_graftAll_only {entries : List (Key × Plain σ)} {addr : Addr}
    (h : (Plain.dict (graftAll out entries)).at addr ≠ none) :
    (Plain.dict out).at addr ≠ none ∨
      ∃ e ∈ entries, addr <+: e.1.addr ∨ e.1.addr <+: addr := by
  induction entries generalizing out with
  | nil => exact .inl h
  | cons e entries ih =>
      have hrest : (Plain.dict (graftAll (graft out e.1.parents e.1.name e.2) entries)).at addr ≠
          none := h
      rcases ih hrest with hout | ⟨x, hx, hax⟩
      · rcases at_graft_only _ _ hout with hout | hkey
        · exact .inl hout
        · exact .inr ⟨e, List.mem_cons_self, hkey⟩
      · exact .inr ⟨x, List.mem_cons_of_mem e hx, hax⟩

theorem at_empty {addr : Addr} (h : (Plain.dict ([] : Dict σ)).at addr ≠ none) : addr = [] := by
  cases addr with
  | nil => rfl
  | cons step rest => cases step <;> exact absurd rfl h

mutual

/-- The values written in a value, itself the first, each with the way to it. -/
def Value.parts : Value σ → List (Addr × Value σ)
  | .scalar value => [([], .scalar value)]
  | .array items => ([], .array items) :: itemParts 0 items
  | .inlineTable entries => ([], .inlineTable entries) :: entryParts entries

def itemParts : Nat → List (Value σ) → List (Addr × Value σ)
  | _, [] => []
  | i, item :: items =>
      (item.parts.map fun part => (.element i :: part.1, part.2)) ++ itemParts (i + 1) items

def entryParts : List (Key × Value σ) → List (Addr × Value σ)
  | [] => []
  | (key, value) :: entries =>
      (value.parts.map fun part => (key.addr ++ part.1, part.2)) ++ entryParts entries

end

theorem itemValues_eq (items : List (Value σ)) : itemValues items = items.map Value.toValue := by
  induction items with
  | nil => rfl
  | cons item items ih => rw [itemValues, ih, List.map_cons]

theorem entryValues_eq (entries : List (Entry σ)) :
    entryValues entries = entries.map fun e => (e.1, e.2.toValue) := by
  induction entries with
  | nil => rfl
  | cons e entries ih => rw [entryValues, ih, List.map_cons]

theorem mem_itemParts {i : Nat} {items : List (Value σ)} {part : Addr × Value σ} :
    part ∈ itemParts i items ↔ ∃ j item, items[j]? = some item ∧
      ∃ inner ∈ item.parts, part = (.element (i + j) :: inner.1, inner.2) := by
  induction items generalizing i with
  | nil => simp [itemParts]
  | cons item items ih =>
      rw [itemParts, List.mem_append, List.mem_map, ih]
      constructor
      · rintro (⟨inner, hin, rfl⟩ | ⟨j, x, hx, inner, hin, rfl⟩)
        · exact ⟨0, item, rfl, inner, hin, rfl⟩
        · exact ⟨j + 1, x, hx, inner, hin, by rw [Nat.add_right_comm, Nat.add_assoc]⟩
      · rintro ⟨j, x, hx, inner, hin, rfl⟩
        cases j with
        | zero =>
            cases hx
            exact .inl ⟨inner, hin, rfl⟩
        | succ j =>
            exact .inr ⟨j, x, hx, inner, hin, by rw [Nat.add_right_comm, Nat.add_assoc]⟩

theorem mem_entryParts {entries : List (Entry σ)} {part : Addr × Value σ} :
    part ∈ entryParts entries ↔ ∃ e ∈ entries,
      ∃ inner ∈ e.2.parts, part = (e.1.addr ++ inner.1, inner.2) := by
  induction entries with
  | nil => simp [entryParts]
  | cons e entries ih =>
      rw [entryParts, List.mem_append, List.mem_map, ih]
      constructor
      · rintro (⟨inner, hin, rfl⟩ | ⟨x, hx, hpart⟩)
        · exact ⟨e, List.mem_cons_self, inner, hin, rfl⟩
        · exact ⟨x, List.mem_cons_of_mem e hx, hpart⟩
      · rintro ⟨x, hx, inner, hin, rfl⟩
        rcases List.mem_cons.mp hx with rfl | hx
        · exact .inl ⟨inner, hin, rfl⟩
        · exact .inr ⟨x, hx, inner, hin, rfl⟩

/-- No inline table in the value has a key that leads into another of its keys. -/
inductive Value.Sound : Value σ → Prop
  | scalar (value : σ) : Sound (.scalar value)
  | array (items : List (Value σ)) : (∀ item ∈ items, Sound item) → Sound (.array items)
  | inlineTable (entries : List (Key × Value σ)) : KeysApart entries →
      (∀ e ∈ entries, Sound e.2) → Sound (.inlineTable entries)

theorem Value.self_mem_parts (value : Value σ) : ([], value) ∈ value.parts := by
  cases value <;> exact List.mem_cons_self

theorem keysApart_values {entries : List (Entry σ)} (h : KeysApart entries) :
    KeysApart (entryValues entries) := by
  rw [entryValues_eq]
  exact List.pairwise_map.mpr h

/-- Each value written in a value is found where it is written. -/
theorem Value.Sound.held {value : Value σ} (h : value.Sound) :
    ∀ part ∈ value.parts, value.toValue.at part.1 = some part.2.toValue := by
  induction h with
  | scalar v =>
      intro part hpart
      rw [List.mem_singleton.mp hpart]
      rfl
  | array items _ ih =>
      intro part hpart
      rcases List.mem_cons.mp hpart with rfl | hpart
      · rfl
      obtain ⟨j, item, hitem, inner, hinner, rfl⟩ := mem_itemParts.mp hpart
      rw [Nat.zero_add, Value.toValue, itemValues_eq, Plain.at, List.getElem?_map, hitem]
      exact ih item (List.mem_of_getElem? hitem) inner hinner
  | inlineTable entries hkeys _ ih =>
      intro part hpart
      rcases List.mem_cons.mp hpart with rfl | hpart
      · rfl
      obtain ⟨e, he, inner, hinner, rfl⟩ := mem_entryParts.mp hpart
      have hmem : (e.1, e.2.toValue) ∈ entryValues entries := by
        rw [entryValues_eq]
        exact List.mem_map_of_mem he
      rw [Value.toValue]
      exact (at_graftAll (keysApart_values hkeys) hmem inner.1).trans (ih e he inner hinner)

/-- Nothing is found in a value but what is written in it and the tables on the way there. -/
theorem Value.Sound.only {value : Value σ} (h : value.Sound) :
    ∀ addr, value.toValue.at addr ≠ none → ∃ part ∈ value.parts, addr <+: part.1 := by
  induction h with
  | scalar v =>
      intro addr haddr
      cases addr with
      | nil => exact ⟨_, List.mem_singleton_self _, List.nil_prefix⟩
      | cons step rest => cases step <;> exact absurd rfl haddr
  | array items _ ih =>
      intro addr haddr
      cases addr with
      | nil => exact ⟨_, List.mem_cons_self, List.nil_prefix⟩
      | cons step rest =>
          cases step with
          | name n => exact absurd rfl haddr
          | element i =>
              rw [Value.toValue, itemValues_eq, Plain.at, List.getElem?_map] at haddr
              cases hitem : items[i]? with
              | none => rw [hitem] at haddr; exact absurd rfl haddr
              | some item =>
                  rw [hitem] at haddr
                  obtain ⟨inner, hinner, hrest⟩ :=
                    ih item (List.mem_of_getElem? hitem) rest haddr
                  refine ⟨(.element i :: inner.1, inner.2), List.mem_cons_of_mem _ ?_,
                    List.cons_prefix_cons.mpr ⟨rfl, hrest⟩⟩
                  exact mem_itemParts.mpr ⟨i, item, hitem, inner, hinner, by rw [Nat.zero_add]⟩
  | inlineTable entries hkeys _ ih =>
      intro addr haddr
      rw [Value.toValue] at haddr
      rcases at_graftAll_only haddr with hempty | ⟨x, hx, hway⟩
      · rw [at_empty hempty]
        exact ⟨_, List.mem_cons_self, List.nil_prefix⟩
      · rw [entryValues_eq] at hx
        obtain ⟨e, he, rfl⟩ := List.mem_map.mp hx
        have hpart : ∀ inner ∈ e.2.parts,
            (e.1.addr ++ inner.1, inner.2) ∈ (Value.inlineTable entries).parts :=
          fun inner hinner =>
            List.mem_cons_of_mem _ (mem_entryParts.mpr ⟨e, he, inner, hinner, rfl⟩)
        rcases hway with hway | ⟨rest, rfl⟩
        · exact ⟨_, hpart _ e.2.self_mem_parts, by simpa using hway⟩
        · have hmem : (e.1, e.2.toValue) ∈ entryValues entries := by
            rw [entryValues_eq]
            exact List.mem_map_of_mem he
          rw [at_graftAll (keysApart_values hkeys) hmem rest] at haddr
          obtain ⟨inner, hinner, hrest⟩ := ih e he rest haddr
          exact ⟨_, hpart inner hinner, (List.prefix_append_right_inj _).mpr hrest⟩

end Zuri.Toml
