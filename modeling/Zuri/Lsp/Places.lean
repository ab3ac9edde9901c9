import Mathlib.Data.List.GetD
import Zuri.Lsp.Starts

/-!
The place of an offset, said of the text: how many line breaks end at or before it, and the units
from the last of them on. The index finds this place for every offset of a text that has
characters and is not inside a `\r\n`, and the end of a line where the text has it.
-/

namespace Zuri.Lsp

/-- The line an offset is on: how many line breaks end at or before it. -/
def lineNumber (text : List Char) (o : Nat) : Nat :=
  ((Finset.Icc 1 o).filter (BreakEnds text)).card

/-- The start of the line an offset is on. -/
def lastStart (text : List Char) (o : Nat) : Nat := Nat.findGreatest (IsStart text) o

/-- The position the protocol gives an offset. -/
def place (text : List Char) (o : Nat) (encoding : Encoding) : Position :=
  ⟨lineNumber text o, units encoding (slice text (lastStart text o) o)⟩

/-- A line's characters are those from `start` up to `stop`: the text ends there, or a line
break begins. -/
structure LineSpan (text : List Char) (start stop : Nat) : Prop where
  starts : IsStart text start
  le : start ≤ stop
  within : stop ≤ text.length
  plain : ∀ i, start ≤ i → i < stop → text[i]? ≠ some '\n' ∧ text[i]? ≠ some '\r'
  ends : stop = text.length ∨ text[stop]? = some '\n' ∨ text[stop]? = some '\r'

section Lasts

variable {text : List Char} {o : Nat}

theorem lastStart_le (text : List Char) (o : Nat) : lastStart text o ≤ o :=
  Nat.findGreatest_le o

theorem lastStart_isStart (text : List Char) (o : Nat) : IsStart text (lastStart text o) :=
  Nat.findGreatest_spec (P := IsStart text) (Nat.zero_le o) (.inl rfl)

theorem le_lastStart {s : Nat} (hle : s ≤ o) (hstart : IsStart text s) :
    s ≤ lastStart text o :=
  Nat.le_findGreatest hle hstart

theorem lastStart_self (hstart : IsStart text o) : lastStart text o = o :=
  Nat.le_antisymm (lastStart_le text o) (le_lastStart (Nat.le_refl o) hstart)

theorem lineNumber_mono (text : List Char) {o₁ o₂ : Nat} (hle : o₁ ≤ o₂) :
    lineNumber text o₁ ≤ lineNumber text o₂ :=
  Finset.card_le_card (Finset.filter_subset_filter _ (Finset.Icc_subset_Icc (Nat.le_refl 1) hle))

/-- Two offsets on one line have one line start. -/
theorem lastStart_of_lineNumber {o₁ o₂ : Nat} (hle : o₁ ≤ o₂)
    (hline : lineNumber text o₁ = lineNumber text o₂) : lastStart text o₁ = lastStart text o₂ := by
  have hsub : (Finset.Icc 1 o₁).filter (BreakEnds text) ⊆
      (Finset.Icc 1 o₂).filter (BreakEnds text) :=
    Finset.filter_subset_filter _ (Finset.Icc_subset_Icc (Nat.le_refl 1) hle)
  have hsame := Finset.eq_of_subset_of_card_le hsub (Nat.le_of_eq hline.symm)
  refine Nat.le_antisymm
    (le_lastStart (Nat.le_trans (lastStart_le text o₁) hle) (lastStart_isStart text o₁)) ?_
  have hstart := lastStart_isStart text o₂
  refine le_lastStart ?_ hstart
  rcases hstart with hzero | hend
  · rw [hzero]
    exact Nat.zero_le _
  · have hpos : 1 ≤ lastStart text o₂ :=
      Nat.pos_of_ne_zero (by intro hzero; rw [hzero] at hend; exact hend)
    have hmem : lastStart text o₂ ∈ (Finset.Icc 1 o₂).filter (BreakEnds text) := by
      simp [hpos, lastStart_le, hend]
    rw [← hsame, Finset.mem_filter, Finset.mem_Icc] at hmem
    exact hmem.1.2

end Lasts

section Spans

variable {text : List Char} {start stop : Nat}

/-- What begins at the end of a line's characters ends at the next start, which is past every
offset of the line that is not inside the break. -/
theorem LineSpan.next_start (hspan : LineSpan text start stop) (hmore : stop < text.length) :
    ∃ next, BreakEnds text next ∧ stop < next ∧
      (next = stop + 1 ∨ (next = stop + 2 ∧ InsideBreak text (stop + 1))) := by
  have hlast : text[stop]? = some '\n' ∨ text[stop]? = some '\r' :=
    hspan.ends.resolve_left (Nat.ne_of_lt hmore)
  by_cases hpair : text[stop]? = some '\r' ∧ text[stop + 1]? = some '\n'
  · exact ⟨stop + 2, .inl hpair.2, by omega, .inr ⟨rfl, hpair⟩⟩
  · refine ⟨stop + 1, ?_, by omega, .inl rfl⟩
    rcases hlast with hnewline | hreturn
    · exact .inl hnewline
    · exact .inr ⟨hreturn, fun hnext => hpair ⟨hreturn, hnext⟩⟩

/-- An offset not past the next start, and not inside its break, is among the line's
characters. -/
theorem LineSpan.le_stop (hspan : LineSpan text start stop) {o : Nat}
    (hle : o ≤ text.length) (hout : ¬ InsideBreak text o)
    (hnone : ∀ s, IsStart text s → s ≤ o → s ≤ start) : o ≤ stop := by
  by_contra hpast
  obtain ⟨next, hend, hafter, hnext⟩ := hspan.next_start (by omega)
  have hlong : ¬ next ≤ o := fun hno => by
    have := hnone next (.inr hend) hno
    have := hspan.le
    omega
  rcases hnext with rfl | ⟨rfl, hinside⟩
  · omega
  · have ho : o = stop + 1 := by omega
    exact hout (ho ▸ hinside)

theorem LineSpan.unique {stop₂ : Nat} (hspan : LineSpan text start stop)
    (hspan₂ : LineSpan text start stop₂) : stop = stop₂ := by
  have hno : ∀ {a b : Nat}, LineSpan text start a → LineSpan text start b → ¬ a < b := by
    intro a b ha hb hlt
    have hplain := hb.plain a ha.le hlt
    have hwithin := hb.within
    rcases ha.ends with hlen | hnewline | hreturn
    · omega
    · exact hplain.1 hnewline
    · exact hplain.2 hreturn
  have := hno hspan hspan₂
  have := hno hspan₂ hspan
  omega

end Spans

namespace LineIndex

section Search

variable {starts : List Nat} {offset : Nat}

/-- The search keeps the last line that starts at or before the offset between its ends. -/
theorem lineBetween_spec (starts : List Nat) (offset low high : Nat)
    (hsorted : starts.Pairwise (· < ·)) (hhigh : high < starts.length) (hle : low ≤ high)
    (hlow : starts.getD low 0 ≤ offset)
    (hpast : ∀ i, high < i → (hi : i < starts.length) → offset < starts[i]) :
    ∃ h : lineBetween starts offset low high < starts.length,
      starts[lineBetween starts offset low high] ≤ offset ∧
      ∀ i, lineBetween starts offset low high < i → (hi : i < starts.length) →
        offset < starts[i] := by
  induction low, high using lineBetween.induct starts offset with
  | case1 low high hlt middle hfound ih =>
    rw [lineBetween, if_pos hlt, if_pos hfound]
    exact ih hhigh (by omega) hfound hpast
  | case2 low high hlt middle hfound ih =>
    rw [lineBetween, if_pos hlt, if_neg hfound]
    refine ih (by omega) (by omega) hlow fun i hi hlen => ?_
    have hmiddle : middle < starts.length := by omega
    rw [List.getD_eq_getElem _ _ hmiddle] at hfound
    by_cases heq : i = middle
    · subst heq
      omega
    · have := List.pairwise_iff_getElem.1 hsorted middle i hmiddle hlen (by omega)
      omega
  | case3 low high hlt =>
    rw [lineBetween, if_neg hlt]
    have hlen : low < starts.length := by omega
    rw [List.getD_eq_getElem _ _ hlen] at hlow
    exact ⟨hlen, hlow, fun i hi => hpast i (by omega)⟩

end Search

section Places

variable {text : List Char}

theorem new_starts (text : List Char) : (new text).starts = lineStarts text := rfl

theorem new_text (text : List Char) : (new text).text = text := rfl

/-- The line the search finds is the one the offset is on. -/
theorem lineOf_spec (hne : text ≠ []) (o : Nat) :
    ∃ h : (new text).lineOf o < (lineStarts text).length,
      (lineStarts text)[(new text).lineOf o] ≤ o ∧
      ∀ i, (new text).lineOf o < i → (hi : i < (lineStarts text).length) →
        o < (lineStarts text)[i] := by
  have hlen := lineStarts_length hne
  refine lineBetween_spec _ o 0 _ (lineStarts_sorted text) (by rw [new_starts]; omega)
    (Nat.zero_le _) ?_ ?_
  · simp only [new_starts, lineStarts_eq hne, List.getD_cons_zero, Nat.zero_le]
  · intro i hi hlong
    rw [new_starts] at hi hlong
    omega

/-- A line's number counts the starts before its own. -/
theorem lineNumber_getElem (hne : text ≠ []) {o line : Nat} (hline : line < (lineStarts text).length)
    (hle : (lineStarts text)[line] ≤ o)
    (hpast : ∀ i, line < i → (hi : i < (lineStarts text).length) → o < (lineStarts text)[i]) :
    lineNumber text o = line ∧ lastStart text o = (lineStarts text)[line] := by
  have hsorted := lineStarts_sorted text
  have hbefore : ∀ {s}, IsStart text s → s ≤ o →
      ∃ i, ∃ hi : i < (lineStarts text).length, i ≤ line ∧ (lineStarts text)[i] = s := by
    intro s hstart hso
    obtain ⟨i, hi, heq⟩ := List.getElem_of_mem ((lineStarts_mem hne s).2 hstart)
    refine ⟨i, hi, ?_, heq⟩
    by_contra hlt
    have := hpast i (by omega) hi
    omega
  have hnth : ∀ {i j : Nat} (hi : i < (lineStarts text).length) (hj : j < (lineStarts text).length),
      i < j → (lineStarts text)[i] < (lineStarts text)[j] :=
    fun hi hj hlt => List.pairwise_iff_getElem.1 hsorted _ _ hi hj hlt
  constructor
  · have hcard : ((Finset.Icc 1 o).filter (BreakEnds text)).card = (Finset.Icc 1 line).card := by
      refine (Finset.card_nbij (fun i => (lineStarts text).getD i 0) ?_ ?_ ?_).symm
      · intro i hmem
        rw [Finset.mem_coe, Finset.mem_Icc] at hmem
        have hi : i < (lineStarts text).length := by omega
        have hpos : 0 < (lineStarts text)[i] :=
          Nat.lt_of_le_of_lt (Nat.zero_le _) (hnth (Nat.lt_of_lt_of_le (by omega) hline) hi
            (show 0 < i by omega))
        have hupto : (lineStarts text)[i] ≤ o := by
          rcases Nat.lt_or_eq_of_le hmem.2 with hlt | rfl
          · exact Nat.le_trans (Nat.le_of_lt (hnth hi hline hlt)) hle
          · exact hle
        have hstart := (lineStarts_mem hne _).1 (List.getElem_mem hi)
        simp only [List.getD_eq_getElem _ _ hi, Finset.coe_filter, Finset.mem_Icc,
          Set.mem_ofPred_eq]
        exact ⟨⟨hpos, hupto⟩, hstart.resolve_left (Nat.ne_of_gt hpos)⟩
      · intro i hmem j hmem₂ heq
        rw [Finset.mem_coe, Finset.mem_Icc] at hmem hmem₂
        have hi : i < (lineStarts text).length := by omega
        have hj : j < (lineStarts text).length := by omega
        simp only [List.getD_eq_getElem _ _ hi, List.getD_eq_getElem _ _ hj] at heq
        rcases Nat.lt_trichotomy i j with hlt | rfl | hlt
        · have := hnth hi hj hlt
          omega
        · rfl
        · have := hnth hj hi hlt
          omega
      · intro s hmem
        simp only [Finset.coe_filter, Finset.mem_Icc, Set.mem_ofPred_eq] at hmem
        obtain ⟨i, hi, hline, heq⟩ := hbefore (.inr hmem.2) hmem.1.2
        refine ⟨i, ?_, by simp only [List.getD_eq_getElem _ _ hi, heq]⟩
        rw [Finset.mem_coe, Finset.mem_Icc]
        refine ⟨Nat.pos_of_ne_zero ?_, hline⟩
        rintro rfl
        simp only [lineStarts_eq hne, List.getElem_cons_zero] at heq
        omega
    rw [lineNumber, hcard, Nat.card_Icc]
    omega
  · obtain ⟨i, hi, hupto, heq⟩ := hbefore (lastStart_isStart text o) (lastStart_le text o)
    have hge := le_lastStart hle ((lineStarts_mem hne _).1 (List.getElem_mem hline))
    rcases Nat.lt_or_eq_of_le hupto with hlt | rfl
    · have := hnth hi hline hlt
      omega
    · exact heq.symm

theorem lineOf_eq (hne : text ≠ []) (o : Nat) :
    (new text).lineOf o = lineNumber text o ∧
      (lineStarts text)[lineNumber text o]? = some (lastStart text o) := by
  obtain ⟨hline, hle, hpast⟩ := lineOf_spec hne o
  obtain ⟨hnumber, hlast⟩ := lineNumber_getElem hne hline hle hpast
  rw [hnumber, hlast]
  exact ⟨rfl, List.getElem?_eq_getElem hline⟩

end Places

end LineIndex

end Zuri.Lsp
