import Zuri.Cmds.Lockfile

/-!
Lockfiles that are read back. A source is read as it was written as long as no separator stands
before its own place; a lockfile is read back exactly if that holds of each of its sources, and
its text does not depend on the order in which its entries were put.
-/

namespace Zuri.ProjectLock

open Zuri.Semver (Text cut cut_none cut_some)

/-- A source as the program makes them. -/
def Source.Made (s : Source) : Prop :=
  (s.kind = "git".toList ∧
    ∀ ref ∈ s.ref, ref.kind ∈ ["tag".toList, "rev".toList, "branch".toList]) ∨
  (s.kind ∈ ["registry".toList, "path".toList] ∧ s.ref = none ∧ s.commit = none)

/-- A source without a separator before its place, and with something to write. -/
def Source.Plain (s : Source) : Prop :=
  if s.kind = "git".toList then
    '#' ∉ s.location ∧ '?' ∉ s.location ∧ (∀ ref ∈ s.ref, '#' ∉ ref.value) ∧
      (s.location ≠ [] ∨ s.ref ≠ none ∨ s.commit ≠ none)
  else s.location ≠ []

theorem plain_git {s : Source} (h : s.kind = "git".toList) :
    s.Plain ↔ '#' ∉ s.location ∧ '?' ∉ s.location ∧ (∀ ref ∈ s.ref, '#' ∉ ref.value) ∧
      (s.location ≠ [] ∨ s.ref ≠ none ∨ s.commit ≠ none) := by
  rw [Source.Plain, if_pos h]

theorem ne_of_absent {sep : Char} {text : Text} (h : sep ∉ text) : ∀ c ∈ text, c ≠ sep := by
  rintro c hc rfl
  exact h hc

theorem cut_eq_none {sep : Char} {text before : Text} (h : cut sep text = (before, none)) :
    text = before ∧ sep ∉ before := by
  by_cases hmem : sep ∈ text
  · obtain ⟨front, back, rfl, hfront⟩ := List.eq_append_cons_of_mem hmem
    rw [cut_some (ne_of_absent hfront)] at h
    cases h
  · rw [cut_none (ne_of_absent hmem)] at h
    cases h
    exact ⟨rfl, hmem⟩

theorem cut_eq_some {sep : Char} {text before after : Text}
    (h : cut sep text = (before, some after)) :
    text = before ++ sep :: after ∧ sep ∉ before := by
  by_cases hmem : sep ∈ text
  · obtain ⟨front, back, rfl, hfront⟩ := List.eq_append_cons_of_mem hmem
    rw [cut_some (ne_of_absent hfront)] at h
    cases h
    exact ⟨rfl, hfront⟩
  · rw [cut_none (ne_of_absent hmem)] at h
    cases h

theorem parseRef_ok {text : Text} {query : Option Text} {ref : Option Ref}
    (h : parseRef text query = .ok ref) :
    (query = none ∧ ref = none) ∨ ∃ r : Ref, ref = some r ∧
      query = some (r.kind ++ '=' :: r.value) := by
  cases query with
  | none =>
      cases h
      exact .inl ⟨rfl, rfl⟩
  | some query =>
      rw [parseRef] at h
      rcases hcut : cut '=' query with ⟨kind, value⟩
      rw [hcut] at h
      cases value with
      | none => cases h
      | some value =>
          simp only at h
          split at h
          · cases h
          · cases h
            exact .inr ⟨_, rfl, by rw [(cut_eq_some hcut).1]⟩

/-- What is read as a source has no separator before its place. -/
theorem parseSource_plain {text : Text} {s : Source} (h : parseSource text = .ok s) :
    s.Plain := by
  unfold parseSource at h
  rcases hplus : cut '+' text with ⟨kind, rest⟩
  rw [hplus] at h
  cases rest with
  | none => cases h
  | some rest =>
      simp only at h
      split at h
      · cases h
      split at h
      · cases h
      rename_i hkinds
      split at h
      · rename_i hgit
        cases h
        rw [Source.Plain, if_neg hgit]
        exact fun hrest => hkinds (.inr hrest)
      · rcases hhash : cut '#' rest with ⟨front, commit⟩
        rcases hquery : cut '?' front with ⟨location, query⟩
        simp only [hhash, hquery] at h
        cases href : parseRef text query with
        | error e =>
            rw [href] at h
            cases h
        | ok ref =>
            rw [href] at h
            cases h
            rw [plain_git rfl]
            have hfront : '#' ∉ front ∧ (commit = none → rest = front) := by
              cases commit with
              | none => exact ⟨(cut_eq_none hhash).2, fun _ => (cut_eq_none hhash).1⟩
              | some commit => exact ⟨(cut_eq_some hhash).2, nofun⟩
            rcases parseRef_ok href with ⟨rfl, rfl⟩ | ⟨r, rfl, rfl⟩
            · obtain ⟨rfl, hlocation⟩ := cut_eq_none hquery
              refine ⟨hfront.1, hlocation, nofun, ?_⟩
              by_cases hcommit : commit = none
              · refine .inl fun hempty => hkinds (.inr ?_)
                rw [hfront.2 hcommit]
                exact hempty
              · exact .inr (.inr hcommit)
            · obtain ⟨rfl, hlocation⟩ := cut_eq_some hquery
              have hnot := hfront.1
              simp only [List.mem_append, List.mem_cons, not_or] at hnot
              refine ⟨hnot.1, hlocation, fun ref href => ?_, .inr (.inl nofun)⟩
              cases href
              exact hnot.2.2.2.2

theorem parseSource_toText {s : Source} (hmade : s.Made) (hplain : s.Plain) :
    parseSource s.toText = .ok s := by
  obtain ⟨kind, location, ref, commit⟩ := s
  rcases hmade with ⟨hkind, hrefs⟩ | ⟨hkind, href, hcommit⟩
  · simp only at hkind hrefs
    subst hkind
    rw [plain_git rfl] at hplain
    obtain ⟨hhash, hquery, hvalues, hsome⟩ := hplain
    simp only at hhash hquery hvalues hsome
    have hfront : '#' ∉ location ++ Ref.query ref := by
      cases ref with
      | none => simpa [Ref.query] using hhash
      | some r =>
          have hvalue := hvalues r rfl
          have hkinds : '#' ∉ r.kind := by
            have := hrefs r rfl
            simp only [List.mem_cons, List.not_mem_nil, or_false] at this
            rcases this with h | h | h <;> rw [h] <;> decide
          simp [Ref.query, hhash, hvalue, hkinds]
    have hrest : location ++ Ref.query ref ++ commitText commit ≠ [] := by
      cases ref with
      | some r => simp [Ref.query]
      | none =>
          cases commit with
          | some c => simp [commitText]
          | none => simpa [Ref.query, commitText] using hsome
    have hgit : ∀ c ∈ "git".toList, c ≠ '+' := List.forall_iff_forall_mem.mp (by decide)
    have hplus : cut '+' (Source.toText ⟨"git".toList, location, ref, commit⟩) =
        ("git".toList, some (location ++ Ref.query ref ++ commitText commit)) :=
      cut_some hgit _
    have hcut : cut '#' (location ++ Ref.query ref ++ commitText commit) =
        (location ++ Ref.query ref, commit) := by
      cases commit with
      | none => rw [commitText, List.append_nil, cut_none (ne_of_absent hfront)]
      | some c => rw [commitText, cut_some (ne_of_absent hfront)]
    rw [parseSource, hplus]
    simp only
    have hread : ¬(KINDS.contains "git".toList = false ∨
        location ++ Ref.query ref ++ commitText commit = []) :=
      not_or.mpr ⟨by decide, hrest⟩
    rw [if_neg (by decide), if_neg hread, if_neg (not_not.mpr rfl), hcut]
    simp only
    cases ref with
    | none =>
        rw [Ref.query, List.append_nil, cut_none (ne_of_absent hquery)]
        rfl
    | some r =>
        have hkind : '=' ∉ r.kind ∧ r.kind ≠ [] := by
          have := hrefs r rfl
          simp only [List.mem_cons, List.not_mem_nil, or_false] at this
          rcases this with h | h | h <;> rw [h] <;> decide
        rw [Ref.query, cut_some (ne_of_absent hquery)]
        simp only
        rw [parseRef, cut_some (ne_of_absent hkind.1)]
        simp only
        rw [if_neg hkind.2]
        rfl
  · simp only at hkind href hcommit
    subst href hcommit
    have hnot : kind ≠ "git".toList := by
      simp only [List.mem_cons, List.not_mem_nil, or_false] at hkind
      rcases hkind with h | h <;> rw [h] <;> decide
    have hchars : '+' ∉ kind ∧ kind ≠ [] ∧ KINDS.contains kind = true := by
      simp only [List.mem_cons, List.not_mem_nil, or_false] at hkind
      rcases hkind with h | h <;> rw [h] <;> decide
    rw [Source.Plain, if_neg hnot] at hplain
    rw [parseSource, Source.toText, if_neg hnot, cut_some (ne_of_absent hchars.1)]
    simp only
    rw [if_neg hchars.2.1, if_neg (not_or.mpr ⟨Bool.not_eq_false _ ▸ hchars.2.2, hplain⟩),
      if_pos hnot]

/-- The same entry, with its dependencies as a set. -/
structure Locked.Same (a b : Locked) : Prop where
  name : a.name = b.name
  version : a.version = b.version
  source : a.source = b.source
  checksum : a.checksum = b.checksum
  dependencies : ∀ d, d ∈ a.dependencies ↔ d ∈ b.dependencies
  dev : a.dev = b.dev

theorem asTexts_list (texts : List Text) :
    asTexts (some (.list (texts.map .string))) = texts := by
  induction texts with
  | nil => rfl
  | cons text texts ih =>
      rw [asTexts] at ih ⊢
      rw [List.map_cons, List.filterMap_cons, ih]
      rfl

theorem readEntry_toDict (file : Text) (e : Locked) :
    readEntry file (.dict e.toDict) = (parseSource e.source.toText).map fun source =>
      { e with source, dependencies := MergeSort.sort textLe e.dependencies } := by
  obtain ⟨name, version, source, checksum, dependencies, dev⟩ := e
  have hread : readEntry file
        (.dict (Locked.toDict ⟨name, version, source, checksum, dependencies, dev⟩)) =
      (parseSource source.toText).map fun source => ⟨name, version, source, checksum,
        asTexts (some (.list ((MergeSort.sort textLe dependencies).map .string))), dev⟩ := by
    cases checksum with
    | none =>
        cases dev with
        | false => rfl
        | true => rfl
    | some checksum =>
        cases dev with
        | false => rfl
        | true => rfl
  rw [hread, asTexts_list]

abbrev ReadAs (file : Text) (e e' : Locked) : Prop := readEntry file (.dict e.toDict) = .ok e'

theorem readEntry_same {file : Text} {e e' : Locked} (h : ReadAs file e e') :
    e'.Same { e with source := e'.source } ∧ parseSource e.source.toText = .ok e'.source := by
  rw [ReadAs, readEntry_toDict] at h
  cases hsource : parseSource e.source.toText with
  | error err =>
      rw [hsource] at h
      cases h
  | ok source =>
      rw [hsource] at h
      cases h
      exact ⟨⟨rfl, rfl, rfl, rfl, fun d => (MergeSort.sort_perm _).mem_iff, rfl⟩, rfl⟩

theorem textLe_iff {a b : Text} : textLe a b = true ↔ a ≤ b := by
  rw [textLe, decide_eq_true_eq, Lexical.order_nonpos]

theorem textLe_total (a b : Text) : textLe a b = true ∨ textLe b a = true := by
  simp only [textLe_iff]
  exact le_total a b

theorem textLe_trans (a b c : Text) (hab : textLe a b = true) (hbc : textLe b c = true) :
    textLe a c = true := by
  rw [textLe_iff] at *
  exact hab.trans hbc

theorem textLe_antisymm (a b : Text) (hab : textLe a b = true) (hba : textLe b a = true) :
    a = b := by
  rw [textLe_iff] at *
  exact hab.antisymm hba

namespace Lockfile

variable {lower : Text → Text}

theorem get_iff (lock : Lockfile lower) (key : Text) (e : Locked) :
    OrderedMap.get sameKey lock.packages key = some e ↔ (key, e) ∈ lock.packages := by
  constructor
  · intro h
    obtain ⟨⟨key', e'⟩, hmem, hkey, rfl⟩ := OrderedMap.mem_of_get h
    rw [← of_decide_eq_true hkey]
    exact hmem
  · intro h
    exact lock.distinct.get_mem h (decide_eq_true rfl)

/-- What the entries are depends on the packages, not on their order. -/
theorem entries_of_perm {lock lock' : Lockfile lower} (h : lock.packages.Perm lock'.packages) :
    lock.entries = lock'.entries := by
  have hget : OrderedMap.get sameKey lock.packages = OrderedMap.get sameKey lock'.packages := by
    funext key
    apply Option.ext
    intro e
    rw [get_iff, get_iff, h.mem_iff]
  rw [entries, entries, hget, MergeSort.sort_eq_of_perm textLe_total textLe_trans textLe_antisymm
    (h.map Prod.fst)]

/-- Entries by their keys. -/
def keyedBy (lower : Text → Text) (entries : List Locked) : List (Text × Locked) :=
  entries.map fun e => (normalized lower e.name, e)

theorem packages_foldl_put (entries : List Locked) (lock : Lockfile lower) :
    (entries.foldl put lock).packages =
      OrderedMap.putAll sameKey lock.packages (keyedBy lower entries) := by
  induction entries generalizing lock with
  | nil => rfl
  | cons e entries ih => exact ih (lock.put e)

theorem packages_ofPuts {puts : List Locked}
    (h : (puts.map fun e => normalized lower e.name).Nodup) :
    (ofPuts puts : Lockfile lower).packages = keyedBy lower puts := by
  rw [ofPuts, packages_foldl_put]
  apply OrderedMap.Distinct.putAll_nil
  rw [OrderedMap.distinct_iff_keys, keyedBy, List.map_map]
  exact h.imp fun hne => decide_eq_false hne

theorem map_fst_keyedBy (entries : List Locked) :
    (keyedBy lower entries).map Prod.fst = entries.map fun e => normalized lower e.name := by
  rw [keyedBy, List.map_map]
  rfl

/-- Entries that are put in the order of their keys stay as they are. -/
theorem entries_ofPuts {puts : List Locked}
    (hnodup : (puts.map fun e => normalized lower e.name).Nodup)
    (hsorted : (puts.map fun e => normalized lower e.name).Pairwise fun a b => textLe a b = true) :
    (ofPuts puts : Lockfile lower).entries = puts := by
  have hpackages := packages_ofPuts hnodup
  have hget : ∀ e ∈ puts, OrderedMap.get sameKey (ofPuts puts : Lockfile lower).packages
      (normalized lower e.name) = some e := fun e he =>
    (get_iff _ _ _).mpr (by rw [hpackages]; exact List.mem_map_of_mem he)
  rw [entries, hpackages, map_fst_keyedBy,
    MergeSort.sort_of_sorted textLe_total textLe_trans textLe_antisymm hsorted,
    List.filterMap_map, ← hpackages]
  exact (List.filterMap_congr hget).trans List.filterMap_some

theorem normalized_entries (lock : Lockfile lower) :
    lock.entries.map (fun e => normalized lower e.name) =
      MergeSort.sort textLe (lock.packages.map Prod.fst) := by
  have hall : ∀ keys : List Text, (∀ key ∈ keys, key ∈ lock.packages.map Prod.fst) →
      (keys.filterMap (OrderedMap.get sameKey lock.packages)).map
        (fun e => normalized lower e.name) = keys := by
    intro keys hkeys
    induction keys with
    | nil => rfl
    | cons key keys ih =>
        obtain ⟨p, hp, rfl⟩ := List.mem_map.mp (hkeys key List.mem_cons_self)
        rw [List.filterMap_cons_some ((get_iff _ _ _).mpr hp), List.map_cons,
          ih fun k hk => hkeys k (List.mem_cons_of_mem _ hk), ← lock.keyed p hp]
  exact hall _ fun key hkey => (MergeSort.sort_perm _).mem_iff.mp hkey

theorem entries_sorted (lock : Lockfile lower) :
    (lock.entries.map fun e => normalized lower e.name).Nodup ∧
      (lock.entries.map fun e => normalized lower e.name).Pairwise
        fun a b => textLe a b = true := by
  rw [normalized_entries]
  refine ⟨?_, MergeSort.sort_sorted textLe_total textLe_trans _⟩
  rw [(MergeSort.sort_perm _).nodup_iff]
  exact (OrderedMap.distinct_iff_keys.mp lock.distinct).imp fun hne => of_decide_eq_false hne

end Lockfile

section
variable {lower : Text → Text} {lib : TomlLibrary}

theorem readEntries {file : Text} (entries : List Locked) (lock lock' : Lockfile lower) :
    (entries.map fun e => Toml.dict e.toDict).foldlM
        (fun lock item => (readEntry file item).map lock.put) lock = .ok lock' ↔
      ∃ found, List.Forall₂ (ReadAs file) entries found ∧
        lock' = found.foldl Lockfile.put lock := by
  induction entries generalizing lock with
  | nil =>
      constructor
      · intro h
        cases h
        exact ⟨[], .nil, rfl⟩
      · rintro ⟨found, hfound, rfl⟩
        cases hfound
        rfl
  | cons e entries ih =>
      rw [List.map_cons, List.foldlM_cons]
      cases hread : readEntry file (.dict e.toDict) with
      | error err =>
          constructor
          · intro h
            cases h
          · rintro ⟨found, hfound, -⟩
            cases hfound with
            | cons he _ =>
                rw [ReadAs, hread] at he
                cases he
      | ok e' =>
          refine (ih (lock.put e')).trans ⟨?_, ?_⟩
          · rintro ⟨found, hfound, rfl⟩
            exact ⟨e' :: found, .cons hread hfound, rfl⟩
          · rintro ⟨found, hfound, rfl⟩
            cases hfound with
            | cons he hfound =>
                rw [ReadAs, hread] at he
                cases he
                exact ⟨_, hfound, rfl⟩

theorem format_data (lock : Lockfile lower) : isFormat (field lock.data "version") = true := by
  rw [Lockfile.data]
  split
  · rfl
  · rfl

theorem package_data (lock : Lockfile lower) :
    packageItems (field lock.data "package") = lock.entries.map fun e => Toml.dict e.toDict := by
  rw [Lockfile.data]
  split
  · rename_i hempty
    rw [hempty]
    rfl
  · rfl

theorem parse_toText {lock : Lockfile lower} (file : Option Text)
    (hround : lib.parse (lock.toText lib) = .ok lock.data) :
    parse lower lib (lock.toText lib) file =
      (lock.entries.map fun e => Toml.dict e.toDict).foldlM
        (fun lock item => (readEntry (file.getD "project.lock".toList) item).map lock.put)
        (Lockfile.empty lower) := by
  rw [parse, hround]
  simp only
  rw [if_pos (format_data lock), package_data]

theorem forall₂_names {file : Text} {entries found : List Locked}
    (h : List.Forall₂ (ReadAs file) entries found) :
    found.map (fun e => normalized lower e.name) =
      entries.map fun e => normalized lower e.name := by
  induction h with
  | nil => rfl
  | cons hread _ ih => rw [List.map_cons, List.map_cons, ih, (readEntry_same hread).1.name]

theorem parse_ok_iff {lock lock' : Lockfile lower} (file : Option Text)
    (hround : lib.parse (lock.toText lib) = .ok lock.data) :
    parse lower lib (lock.toText lib) file = .ok lock' ↔ ∃ found,
      List.Forall₂ (ReadAs (file.getD "project.lock".toList))
        lock.entries found ∧ lock' = Lockfile.ofPuts found := by
  rw [parse_toText file hround]
  exact readEntries _ _ _

/-- The entries of a lockfile that is read back are those that were read, in their order. -/
theorem entries_found {file : Text} {lock : Lockfile lower} {found : List Locked}
    (h : List.Forall₂ (ReadAs file) lock.entries found) :
    (Lockfile.ofPuts found : Lockfile lower).entries = found := by
  obtain ⟨hnodup, hsorted⟩ := lock.entries_sorted
  rw [← forall₂_names h] at hnodup hsorted
  exact Lockfile.entries_ofPuts hnodup hsorted

theorem found_plain {file : Text} {entries found : List Locked}
    (h : List.Forall₂ (ReadAs file) entries found)
    (hsame : List.Forall₂ Locked.Same entries found) : ∀ e ∈ entries, e.source.Plain := by
  induction h with
  | nil => exact fun _ he => absurd he List.not_mem_nil
  | cons hread _ ih =>
      cases hsame with
      | cons he hrest =>
          intro e hmem
          rcases List.mem_cons.mp hmem with rfl | hmem
          · have hsource := (readEntry_same hread).2
            rw [← he.source] at hsource
            exact parseSource_plain hsource
          · exact ih hrest e hmem

theorem found_of_plain (file : Text) {entries : List Locked}
    (hmade : ∀ e ∈ entries, e.source.Made) (hplain : ∀ e ∈ entries, e.source.Plain) :
    ∃ found, List.Forall₂ (ReadAs file) entries found ∧
      List.Forall₂ Locked.Same entries found := by
  induction entries with
  | nil => exact ⟨[], .nil, .nil⟩
  | cons e entries ih =>
      obtain ⟨found, hread, hsame⟩ := ih (fun e he => hmade e (List.mem_cons_of_mem _ he))
        fun e he => hplain e (List.mem_cons_of_mem _ he)
      have hsource := parseSource_toText (hmade e List.mem_cons_self) (hplain e List.mem_cons_self)
      refine ⟨{ e with dependencies := MergeSort.sort textLe e.dependencies } :: found,
        .cons ?_ hread, .cons ?_ hsame⟩
      · rw [ReadAs, readEntry_toDict, hsource]
        rfl
      · exact ⟨rfl, rfl, rfl, rfl, fun d => (MergeSort.sort_perm _).mem_iff.symm, rfl⟩

end

/-- A lockfile is read back as it was exactly if each of its sources is plain; and its text does
not depend on the order in which its entries were put. -/
theorem lockfile_round (lower : Text → Text) (lib : TomlLibrary) :
    (∀ (lock : Lockfile lower) (file : Option Text), (∀ e ∈ lock.entries, e.source.Made) →
      lib.parse (lock.toText lib) = .ok lock.data →
      ((∃ lock', parse lower lib (lock.toText lib) file = .ok lock' ∧
          List.Forall₂ Locked.Same lock.entries lock'.entries) ↔
        ∀ e ∈ lock.entries, e.source.Plain)) ∧
    ∀ puts puts' : List Locked, puts.Perm puts' →
      (puts.map fun e => normalized lower e.name).Nodup →
      (Lockfile.ofPuts puts : Lockfile lower).toText lib =
        (Lockfile.ofPuts puts' : Lockfile lower).toText lib := by
  refine ⟨fun lock file hmade hround => ⟨?_, fun hplain => ?_⟩, fun puts puts' hperm hnodup => ?_⟩
  · rintro ⟨lock', hparse, hsame⟩
    obtain ⟨found, hfound, rfl⟩ := (parse_ok_iff file hround).mp hparse
    rw [entries_found hfound] at hsame
    exact found_plain hfound hsame
  · obtain ⟨found, hfound, hsame⟩ := found_of_plain (file.getD "project.lock".toList) hmade hplain
    refine ⟨Lockfile.ofPuts found, (parse_ok_iff file hround).mpr ⟨found, hfound, rfl⟩, ?_⟩
    rw [entries_found hfound]
    exact hsame
  · have hentries : (Lockfile.ofPuts puts : Lockfile lower).entries =
        (Lockfile.ofPuts puts' : Lockfile lower).entries := by
      apply Lockfile.entries_of_perm
      rw [Lockfile.packages_ofPuts hnodup,
        Lockfile.packages_ofPuts ((hperm.map _).nodup_iff.mp hnodup)]
      exact hperm.map _
    rw [Lockfile.toText, Lockfile.toText, Lockfile.data, Lockfile.data, hentries]

def lowerAscii (text : Text) : Text := text.map Char.toLower

/-- A package at a branch of a repository. -/
def atBranch (branch : String) : Locked where
  name := "a".toList
  version := "1.0".toList
  source := ⟨"git".toList, "https://h/r".toList, some ⟨"branch".toList, branch.toList⟩, none⟩

def branchLock (branch : String) : Lockfile lowerAscii := Lockfile.ofPuts [atBranch branch]

def branchText (branch : String) : Text :=
  ("version = 1\n\n[[package]]\nname = \"a\"\nversion = \"1.0\"\n" ++
    "source = \"git+https://h/r?branch=" ++ branch ++ "\"\ndependencies = []\n").toList

/-- What TOML does for such a lockfile. -/
def branchLibrary (branch : String) : TomlLibrary where
  dump := fun _ => branchText branch
  parse := fun text =>
    if text = HEADER ++ branchText branch then .ok (branchLock branch).data else .error []

theorem branchLibrary_round (branch : String) :
    (branchLibrary branch).parse ((branchLock branch).toText (branchLibrary branch)) =
      .ok (branchLock branch).data := by
  simp only [branchLibrary, Lockfile.toText, if_true]

theorem entries_branchLock (branch : String) : (branchLock branch).entries = [atBranch branch] :=
  Lockfile.entries_ofPuts (List.nodup_singleton _) (List.pairwise_singleton _ _)

theorem made_branchLock (branch : String) : ∀ e ∈ (branchLock branch).entries, e.source.Made := by
  rw [entries_branchLock]
  intro e he
  rw [List.mem_singleton.mp he]
  refine .inl ⟨rfl, fun ref href => ?_⟩
  obtain rfl := Option.some.inj href
  exact .tail _ (.tail _ (.head _))

def named : Locked := { atBranch "main" with name := "b".toList }

theorem lockfile_round_main :
    (∃ lock', parse lowerAscii (branchLibrary "main")
        ((branchLock "main").toText (branchLibrary "main")) none = .ok lock' ∧
      List.Forall₂ Locked.Same (branchLock "main").entries lock'.entries) ∧
    (Lockfile.ofPuts [atBranch "main", named] : Lockfile lowerAscii).toText (branchLibrary "main") =
      (Lockfile.ofPuts [named, atBranch "main"] : Lockfile lowerAscii).toText
        (branchLibrary "main") := by
  obtain ⟨hreads, horder⟩ := lockfile_round lowerAscii (branchLibrary "main")
  refine ⟨(hreads (branchLock "main") none (made_branchLock _) (branchLibrary_round _)).mpr ?_,
    horder [atBranch "main", named] [named, atBranch "main"] (.swap _ _ _) (by decide)⟩
  rw [entries_branchLock]
  intro e he
  rw [List.mem_singleton.mp he, plain_git rfl]
  refine ⟨by decide, by decide, fun ref href => ?_, .inl (by decide)⟩
  cases href
  decide

/-- A branch whose name holds `#` is read as a shorter branch and a commit. -/
theorem lockfile_fails :
    (branchLibrary "fix#12").parse ((branchLock "fix#12").toText (branchLibrary "fix#12")) =
        .ok (branchLock "fix#12").data ∧
      (∀ e ∈ (branchLock "fix#12").entries, e.source.Made) ∧
      ¬∃ lock', parse lowerAscii (branchLibrary "fix#12")
          ((branchLock "fix#12").toText (branchLibrary "fix#12")) none = .ok lock' ∧
        List.Forall₂ Locked.Same (branchLock "fix#12").entries lock'.entries := by
  refine ⟨branchLibrary_round _, made_branchLock _, ?_⟩
  rintro ⟨lock', hparse, hsame⟩
  obtain ⟨found, hfound, rfl⟩ := (parse_ok_iff none (branchLibrary_round _)).mp hparse
  rw [entries_found hfound] at hsame
  have hplain := found_plain hfound hsame (atBranch "fix#12")
    (by rw [entries_branchLock]; exact List.mem_singleton_self _)
  exact ((plain_git rfl).mp hplain).2.2.1 _ rfl (by decide)

end Zuri.ProjectLock
