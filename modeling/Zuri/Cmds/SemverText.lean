import Mathlib.Data.List.TakeDrop
import Zuri.Cmds.Semver

/-!
Versions as they are written. A version that was read is written as a text that is read as the
same version, unless one of its numbers is past every double.
-/

namespace Zuri.Semver

/-- The text of a number: digits that are read as the number, as long as it is finite. -/
structure Display where
  text : F64 → Text
  finite : ∀ n : Nat, F64.nearest n ≠ ⊤ →
    isNumeral (text (F64.ofInt n)) = true ∧ toNumber (text (F64.ofInt n)) = F64.ofInt n
  infinite : ∀ n : Nat, F64.nearest n = ⊤ → text (F64.ofInt n) = "inf".toList

/-- What a pattern for a number does not stumble over: no separator and no blank. -/
def Plain (text : Text) : Prop :=
  text ≠ [] ∧ text.head? ≠ some 'v' ∧
    ∀ c ∈ text, c ≠ '.' ∧ c ≠ '-' ∧ c ≠ '+' ∧ isSpace c = false

theorem isDigit_cases {c : Char} (h : c.isDigit = true) :
    c ∈ ['0', '1', '2', '3', '4', '5', '6', '7', '8', '9'] := by
  simp only [Char.isDigit, Bool.and_eq_true, decide_eq_true_eq, ge_iff_le,
    UInt32.le_iff_toNat_le] at h
  have hlow : ('0' : Char).val.toNat = 48 := rfl
  have hhigh : ('9' : Char).val.toNat = 57 := rfl
  rw [hlow, hhigh] at h
  have hchars : ∀ n < 10, Char.ofNat (48 + n) ∈
      ['0', '1', '2', '3', '4', '5', '6', '7', '8', '9'] := by decide
  have hc := hchars (c.val.toNat - 48) (by omega)
  rwa [show 48 + (c.val.toNat - 48) = c.toNat by
    have hval : c.toNat = c.val.toNat := rfl
    omega, Char.ofNat_toNat] at hc

theorem plain_numeral {text : Text} (h : isNumeral text = true) : Plain text := by
  simp only [isNumeral, isNumeric, Bool.and_eq_true, List.all_eq_true, Bool.not_eq_true',
    List.isEmpty_eq_false_iff] at h
  obtain ⟨⟨hne, hall⟩, -⟩ := h
  refine ⟨hne, fun hv => ?_, fun c hc => ?_⟩
  · have hmem := isDigit_cases (hall 'v' (List.mem_of_mem_head? hv))
    revert hmem
    decide
  · have hdigits : ∀ c ∈ ['0', '1', '2', '3', '4', '5', '6', '7', '8', '9'],
        c ≠ '.' ∧ c ≠ '-' ∧ c ≠ '+' ∧ isSpace c = false :=
      List.forall_iff_forall_mem.mp (by decide)
    exact hdigits c (isDigit_cases (hall c hc))

theorem plain_inf : Plain "inf".toList :=
  ⟨by decide, by decide, List.forall_iff_forall_mem.mp (by decide)⟩

theorem identifierChar_plain {c : Char} (h : isIdentifierChar c = true) :
    c ≠ '.' ∧ c ≠ '+' ∧ isSpace c = false := by
  refine ⟨?_, ?_, ?_⟩
  · rintro rfl
    revert h
    decide
  · rintro rfl
    revert h
    decide
  · cases hspace : isSpace c with
    | false => rfl
    | true =>
        exfalso
        simp only [isSpace, Bool.or_eq_true, decide_eq_true_eq] at hspace
        revert h
        rcases hspace with ((((rfl | rfl) | rfl) | rfl) | rfl) | rfl <;> decide

theorem identifier_plain {text : Text} (h : isIdentifier text = true) :
    ∀ c ∈ text, c ≠ '.' ∧ c ≠ '+' ∧ isSpace c = false := by
  simp only [isIdentifier, Bool.and_eq_true, List.all_eq_true] at h
  exact fun c hc => identifierChar_plain (h.2 c hc)

theorem cut_none {sep : Char} {text : Text} (h : ∀ c ∈ text, c ≠ sep) :
    cut sep text = (text, none) := by
  have hall : ∀ c ∈ text, decide (c ≠ sep) = true := fun c hc => decide_eq_true (h c hc)
  have htake : (text ++ []).takeWhile (fun c => decide (c ≠ sep)) =
      text ++ ([] : Text).takeWhile fun c => decide (c ≠ sep) :=
    List.takeWhile_append_of_pos hall
  have hdrop : (text ++ []).dropWhile (fun c => decide (c ≠ sep)) =
      ([] : Text).dropWhile fun c => decide (c ≠ sep) := List.dropWhile_append_of_pos hall
  rw [List.append_nil] at htake hdrop
  rw [cut, List.span_eq_takeWhile_dropWhile, htake, hdrop, List.takeWhile_nil, List.append_nil,
    List.dropWhile_nil]

theorem cut_some {sep : Char} {before : Text} (h : ∀ c ∈ before, c ≠ sep) (after : Text) :
    cut sep (before ++ sep :: after) = (before, some after) := by
  have hall : ∀ c ∈ before, decide (c ≠ sep) = true := fun c hc => decide_eq_true (h c hc)
  rw [cut, List.span_eq_takeWhile_dropWhile, List.takeWhile_append_of_pos hall,
    List.dropWhile_append_of_pos hall, List.takeWhile_cons_of_neg (by simp),
    List.dropWhile_cons_of_neg (by simp), List.append_nil]

/-- Dotted identifiers behind a separator, if there are any. -/
def tail (sep : Char) (parts : List Text) : Text :=
  if parts.isEmpty then [] else sep :: ['.'].intercalate parts

theorem mem_intercalate {c : Char} {parts : List Text} (h : c ∈ ['.'].intercalate parts) :
    c = '.' ∨ ∃ part ∈ parts, c ∈ part := by
  induction parts with
  | nil => exact absurd h List.not_mem_nil
  | cons part parts ih =>
      cases parts with
      | nil =>
          rw [List.intercalate_singleton] at h
          exact .inr ⟨part, List.mem_cons_self, h⟩
      | cons part' parts =>
          rw [List.intercalate_cons_cons, List.mem_append, List.mem_append] at h
          rcases h with (h | h) | h
          · exact .inr ⟨part, List.mem_cons_self, h⟩
          · exact .inl (List.mem_singleton.mp h)
          · rcases ih h with heq | ⟨part'', hmem, hc⟩
            · exact .inl heq
            · exact .inr ⟨part'', List.mem_cons_of_mem _ hmem, hc⟩

theorem identifiers_tail {parts : List Text} (h : parts.all isIdentifier = true) :
    identifiers (if parts.isEmpty then none else some (['.'].intercalate parts)) = some parts := by
  cases hparts : parts with
  | nil => rfl
  | cons part rest =>
      have hdots : ∀ l ∈ parts, '.' ∉ l := by
        intro l hl hdot
        exact (identifier_plain (List.all_eq_true.mp h l hl) '.' hdot).1 rfl
      have hsplit := List.splitOn_intercalate '.' hdots (by rw [hparts]; simp)
      rw [← hparts]
      have hne : parts.isEmpty = false := by rw [hparts]; rfl
      rw [hne, if_neg (by decide), identifiers, hsplit, if_pos h]

theorem cut_tail {sep : Char} {before : Text} (h : ∀ c ∈ before, c ≠ sep) (parts : List Text) :
    cut sep (before ++ tail sep parts) =
      (before, if parts.isEmpty then none else some (['.'].intercalate parts)) := by
  unfold tail
  split
  · rw [List.append_nil]
    exact cut_none h
  · exact cut_some h _

/-- A version of three numbers, pre-release and build identifiers. -/
def joined (major minor patch : Text) (pre build : List Text) : Text :=
  (['.'].intercalate [major, minor, patch] ++ tail '-' pre) ++ tail '+' build

theorem matchCore_joined {major minor patch : Text} {pre build : List Text} (h₁ : Plain major)
    (h₂ : Plain minor) (h₃ : Plain patch) (hpre : pre.all isIdentifier = true)
    (hbuild : build.all isIdentifier = true) :
    matchCore (joined major minor patch pre build) =
      if isNumeral major && isNumeral minor && isNumeral patch then
        some ⟨major, minor, patch, pre, build⟩
      else none := by
  have hnumbers : ∀ c ∈ ['.'].intercalate [major, minor, patch], c ≠ '-' ∧ c ≠ '+' := by
    intro c hc
    rcases mem_intercalate hc with rfl | ⟨part, hpart, hc⟩
    · decide
    · have hplain : Plain part := by
        simp only [List.mem_cons, List.not_mem_nil, or_false] at hpart
        rcases hpart with rfl | rfl | rfl
        · exact h₁
        · exact h₂
        · exact h₃
      exact ⟨(hplain.2.2 c hc).2.1, (hplain.2.2 c hc).2.2.1⟩
  have hfront : ∀ c ∈ ['.'].intercalate [major, minor, patch] ++ tail '-' pre, c ≠ '+' := by
    intro c hc
    rcases List.mem_append.mp hc with hc | hc
    · exact (hnumbers c hc).2
    · unfold tail at hc
      split at hc
      · exact absurd hc List.not_mem_nil
      · rcases List.mem_cons.mp hc with rfl | hc
        · decide
        · rcases mem_intercalate hc with rfl | ⟨part, hpart, hc⟩
          · decide
          · exact (identifier_plain (List.all_eq_true.mp hpre part hpart) c hc).2.1
  have hv : dropV (joined major minor patch pre build) = joined major minor patch pre build := by
    rw [dropV, if_neg]
    obtain ⟨c, cs, hcons⟩ := List.exists_cons_of_ne_nil h₁.1
    have hhead := h₁.2.1
    rw [hcons] at hhead
    rw [joined, hcons]
    exact hhead
  have hdots : ∀ l ∈ [major, minor, patch], '.' ∉ l := by
    intro l hl hdot
    simp only [List.mem_cons, List.not_mem_nil, or_false] at hl
    rcases hl with rfl | rfl | rfl
    · exact (h₁.2.2 '.' hdot).1 rfl
    · exact (h₂.2.2 '.' hdot).1 rfl
    · exact (h₃.2.2 '.' hdot).1 rfl
  have hsplit := List.splitOn_intercalate '.' hdots (by simp)
  rw [matchCore, hv, joined, cut_tail hfront]
  simp only
  rw [cut_tail fun c hc => (hnumbers c hc).1]
  simp only [hsplit, identifiers_tail hpre, identifiers_tail hbuild]

/-- The groups of a text that is a version. -/
def groupsOf (text : Text) : Option Groups :=
  (matchCore (text.filter fun c => !isSpace c)).bind fun groups =>
    if (groups.pre.find? leadingZero).isNone then some groups else none

theorem parse_eq (text : Text) (v : Version) :
    parse text = .ok v ↔ ∃ g, groupsOf text = some g ∧ g.version = v := by
  unfold parse groupsOf
  cases matchCore (text.filter fun c => !isSpace c) with
  | none => simp
  | some groups =>
      simp only [Option.bind_some]
      cases groups.pre.find? leadingZero with
      | none => simp
      | some identifier => simp

theorem identifiers_all {text : Option Text} {parts : List Text}
    (h : identifiers text = some parts) : parts.all isIdentifier = true := by
  cases text with
  | none =>
      rw [← Option.some.inj h]
      rfl
  | some text =>
      rw [identifiers] at h
      split at h
      · next hall => rwa [← Option.some.inj h]
      · exact absurd h (by simp)

theorem groupsOf_wellFormed {text : Text} {g : Groups} (h : groupsOf text = some g) :
    g.pre.all isIdentifier = true ∧ g.build.all isIdentifier = true ∧
      g.pre.find? leadingZero = none := by
  obtain ⟨groups, hmatch, hsome⟩ := Option.bind_eq_some_iff.mp h
  split at hsome
  · next hzero =>
      obtain rfl := Option.some.inj hsome
      unfold matchCore at hmatch
      simp only at hmatch
      split at hmatch
      · next hpre hbuild =>
          split at hmatch
          · obtain rfl := Option.some.inj hmatch
            exact ⟨identifiers_all hpre, identifiers_all hbuild, Option.isNone_iff_eq_none.mp hzero⟩
          · exact absurd hmatch (by simp)
      · exact absurd hmatch (by simp)
  · exact absurd hsome (by simp)

/-- A text that is a version, with its groups. -/
structure VersionText where
  text : Text
  groups : Groups
  reads : groupsOf text = some groups

def VersionText.version (v : VersionText) : Version := v.groups.version

theorem VersionText.parse_text (v : VersionText) : parse v.text = .ok v.version :=
  (parse_eq _ _).mpr ⟨v.groups, v.reads, rfl⟩

/-- The three numbers are within the doubles. -/
def Groups.Finite (g : Groups) : Prop :=
  F64.nearest (value g.major) ≠ ⊤ ∧ F64.nearest (value g.minor) ≠ ⊤ ∧
    F64.nearest (value g.patch) ≠ ⊤

theorem joined_blank {major minor patch : Text} {pre build : List Text} (h₁ : Plain major)
    (h₂ : Plain minor) (h₃ : Plain patch) (hpre : pre.all isIdentifier = true)
    (hbuild : build.all isIdentifier = true) :
    ∀ c ∈ joined major minor patch pre build, isSpace c = false := by
  have htail : ∀ (sep : Char) (parts : List Text), isSpace sep = false →
      parts.all isIdentifier = true → ∀ c ∈ tail sep parts, isSpace c = false := by
    intro sep parts hsep hparts c hc
    unfold tail at hc
    split at hc
    · exact absurd hc List.not_mem_nil
    · rcases List.mem_cons.mp hc with rfl | hc
      · exact hsep
      · rcases mem_intercalate hc with rfl | ⟨part, hpart, hc⟩
        · decide
        · exact (identifier_plain (List.all_eq_true.mp hparts part hpart) c hc).2.2
  intro c hc
  rcases List.mem_append.mp hc with hc | hc
  · rcases List.mem_append.mp hc with hc | hc
    · rcases mem_intercalate hc with rfl | ⟨part, hpart, hmem⟩
      · decide
      · simp only [List.mem_cons, List.not_mem_nil, or_false] at hpart
        rcases hpart with rfl | rfl | rfl
        · exact (h₁.2.2 c hmem).2.2.2
        · exact (h₂.2.2 c hmem).2.2.2
        · exact (h₃.2.2 c hmem).2.2.2
    · exact htail '-' pre (by decide) hpre c hc
  · exact htail '+' build (by decide) hbuild c hc

theorem toText_joined (display : Display) (v : Version) : v.toText display.text =
    joined (display.text v.major) (display.text v.minor) (display.text v.patch) v.pre v.build := by
  unfold Version.toText joined tail
  simp [List.intercalate_cons_cons, List.intercalate_singleton]

theorem Display.plain (display : Display) (n : Nat) : Plain (display.text (F64.ofInt n)) := by
  by_cases hfinite : F64.nearest n = ⊤
  · rw [display.infinite n hfinite]
    exact plain_inf
  · exact plain_numeral (display.finite n hfinite).1

theorem Display.numeral (display : Display) (n : Nat) :
    isNumeral (display.text (F64.ofInt n)) = true ↔ F64.nearest n ≠ ⊤ := by
  constructor
  · intro h hinfinite
    rw [display.infinite n hinfinite] at h
    revert h
    decide
  · exact fun hfinite => (display.finite n hfinite).1

/-- A version is read back from its text exactly when its numbers are within the doubles. -/
theorem VersionText.parse_toText (display : Display) (v : VersionText) :
    parse (v.version.toText display.text) = .ok v.version ↔ v.groups.Finite := by
  obtain ⟨hpre, hbuild, hzero⟩ := groupsOf_wellFormed v.reads
  have h₁ : Plain (display.text v.version.major) := display.plain _
  have h₂ : Plain (display.text v.version.minor) := display.plain _
  have h₃ : Plain (display.text v.version.patch) := display.plain _
  have htext : groupsOf (v.version.toText display.text) =
      if isNumeral (display.text v.version.major) && isNumeral (display.text v.version.minor) &&
          isNumeral (display.text v.version.patch) then
        some ⟨display.text v.version.major, display.text v.version.minor,
          display.text v.version.patch, v.groups.pre, v.groups.build⟩
      else none := by
    have hblank := joined_blank h₁ h₂ h₃ hpre hbuild
    have hfilter : (v.version.toText display.text).filter (fun c => !isSpace c) =
        v.version.toText display.text := by
      rw [toText_joined, List.filter_eq_self]
      intro c hc
      rw [hblank c hc]
      rfl
    rw [groupsOf, hfilter, toText_joined]
    change (matchCore (joined _ _ _ v.groups.pre v.groups.build)).bind _ = _
    rw [matchCore_joined h₁ h₂ h₃ hpre hbuild]
    split
    · rw [Option.bind_some, hzero]
      rfl
    · rfl
  have hnumerals : (isNumeral (display.text v.version.major) &&
      isNumeral (display.text v.version.minor) && isNumeral (display.text v.version.patch)) = true ↔
        v.groups.Finite := by
    rw [Bool.and_eq_true, Bool.and_eq_true, and_assoc]
    exact and_congr (display.numeral _) (and_congr (display.numeral _) (display.numeral _))
  rw [parse_eq, htext]
  constructor
  · rintro ⟨g, hg, -⟩
    split at hg
    · next hall => exact hnumerals.mp hall
    · exact absurd hg (by simp)
  · intro hfinite
    rw [if_pos (hnumerals.mpr hfinite)]
    refine ⟨_, rfl, ?_⟩
    obtain ⟨hmajor, hminor, hpatch⟩ := hfinite
    have e₁ := (display.finite _ hmajor).2
    have e₂ := (display.finite _ hminor).2
    have e₃ := (display.finite _ hpatch).2
    simp only [VersionText.version, Groups.version, toNumber] at e₁ e₂ e₃ ⊢
    rw [e₁, e₂, e₃]

end Zuri.Semver
