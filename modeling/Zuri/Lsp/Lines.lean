import Mathlib.Data.List.GetD
import Zuri.Lsp.Starts

/-!
The lines of a text with their breaks still on. They are what cutting the text after each of its
breaks leaves, and any of them that follow each other are the lines of their own text.
-/

namespace Zuri.Lsp

/-- `_lines_with_breaks`. -/
def linesWithBreaks (text : List Char) : List (List Char) :=
  let index := LineIndex.new text
  let lines := (List.range index.lineCount).map fun i =>
    slice text (index.lineStart i)
      (if i + 1 < index.lineCount then index.lineStart (i + 1) else text.length)
  if lines.getLast? = some [] then lines.dropLast else lines

/-- A text cut after each of its breaks. What is left after the last of them is there, even when
it is empty. -/
def cutLines : List Char → List (List Char)
  | [] => [[]]
  | '\r' :: '\n' :: rest => ['\r', '\n'] :: cutLines rest
  | ch :: rest =>
      if ch = '\n' ∨ ch = '\r' then [ch] :: cutLines rest
      else (cutLines rest).modifyHead (ch :: ·)

/-- The lines of a text: what is left after its last break is one when it is not empty. -/
def textLines (text : List Char) : List (List Char) :=
  if (cutLines text).getLast? = some [] then (cutLines text).dropLast else cutLines text

section Cuts

theorem cutLines_ne_nil (text : List Char) : cutLines text ≠ [] := by
  induction text using cutLines.induct with
  | case1 => simp [cutLines]
  | case2 rest ih => simp [cutLines]
  | case3 ch rest hpair hbreak ih =>
    rw [cutLines.eq_3 _ _ hpair, if_pos hbreak]
    exact List.cons_ne_nil _ _
  | case4 ch rest hpair hbreak ih =>
    rw [cutLines.eq_3 _ _ hpair, if_neg hbreak]
    obtain ⟨head, tail, heq⟩ := List.exists_cons_of_ne_nil ih
    rw [heq, List.modifyHead_cons]
    exact List.cons_ne_nil _ _

theorem cutLines_plain {ch : Char} (rest : List Char) (hplain : ¬ (ch = '\n' ∨ ch = '\r')) :
    cutLines (ch :: rest) = (cutLines rest).modifyHead (ch :: ·) := by
  rw [cutLines.eq_3 _ _ (fun _ hch _ => hplain (.inr hch)), if_neg hplain]

theorem cutLines_flatten (text : List Char) : (cutLines text).flatten = text := by
  induction text using cutLines.induct with
  | case1 => rfl
  | case2 rest ih =>
    rw [cutLines, List.flatten_cons, ih]
    rfl
  | case3 ch rest hpair hbreak ih =>
    rw [cutLines.eq_3 _ _ hpair, if_pos hbreak, List.flatten_cons, ih]
    rfl
  | case4 ch rest hpair hbreak ih =>
    rw [cutLines_plain rest hbreak]
    obtain ⟨head, tail, heq⟩ := List.exists_cons_of_ne_nil (cutLines_ne_nil rest)
    rw [heq] at ih ⊢
    rw [List.modifyHead_cons, List.flatten_cons, List.cons_append, ← List.flatten_cons, ih]

/-- The lines that are left when the last of a list is dropped if it is empty. -/
def dropEmpty (lines : List (List Char)) : List (List Char) :=
  if lines.getLast? = some [] then lines.dropLast else lines

theorem dropEmpty_cons (line : List Char) {rest : List (List Char)} (hne : rest ≠ []) :
    dropEmpty (line :: rest) = line :: dropEmpty rest := by
  obtain ⟨head, tail, rfl⟩ := List.exists_cons_of_ne_nil hne
  rw [dropEmpty, dropEmpty, List.getLast?_cons_cons, List.dropLast_cons_cons]
  split <;> rfl

theorem dropEmpty_single {line : List Char} (hne : line ≠ []) : dropEmpty [line] = [line] :=
  if_neg (by simpa using hne)

theorem dropEmpty_flatten (lines : List (List Char)) :
    (dropEmpty lines).flatten = lines.flatten := by
  induction lines with
  | nil => rfl
  | cons line rest ih =>
    by_cases hne : rest = []
    · subst hne
      by_cases hline : line = []
      · subst hline
        rfl
      · rw [dropEmpty_single hline]
    · rw [dropEmpty_cons line hne, List.flatten_cons, List.flatten_cons, ih]

theorem textLines_flatten (text : List Char) : (textLines text).flatten = text :=
  (dropEmpty_flatten _).trans (cutLines_flatten text)

end Cuts

section Pieces

/-- The parts of a text between starts. -/
def pieces (text : List Char) (start : Nat) : List Nat → List (List Char)
  | [] => [text.drop start]
  | next :: starts => slice text start next :: pieces text next starts

theorem slice_length_right (text : List Char) (start : Nat) :
    slice text start text.length = text.drop start := by
  rw [slice, List.take_length]

theorem pieces_range (text : List Char) (start : Nat) (starts : List Nat) :
    (List.range (starts.length + 1)).map (fun i =>
      slice text ((start :: starts).getD i 0)
        (if i + 1 < starts.length + 1 then (start :: starts).getD (i + 1) 0 else text.length)) =
      pieces text start starts := by
  induction starts generalizing start with
  | nil => simp [pieces, slice_length_right]
  | cons next starts ih =>
    rw [List.range_succ_eq_map, List.map_cons, List.map_map, pieces, ← ih next]
    simp only [List.getD_cons_zero, List.length_cons, Nat.zero_add, List.getD_cons_succ]
    rw [if_pos (by omega)]
    congr 1
    refine List.map_congr_left fun i _ => ?_
    simp only [Function.comp, List.getD_cons_succ, Nat.succ_eq_add_one, Nat.add_lt_add_iff_right]

theorem slice_of_drop {text : List Char} {start : Nat} (front back : List Char)
    (hdrop : text.drop start = front ++ back) :
    slice text start (start + front.length) = front := by
  rw [slice, List.drop_take, Nat.add_sub_cancel_left, hdrop, List.take_left]

theorem pieces_scan (text : List Char) (i : Nat) (rest : List Char) (hdrop : text.drop i = rest) :
    pieces text i (scanStarts i rest) = cutLines rest := by
  have hafter : ∀ (front back : List Char) {i : Nat}, text.drop i = front ++ back →
      text.drop (i + front.length) = back := by
    intro front back i hfront
    rw [← List.drop_drop, hfront, List.drop_left]
  induction i, rest using scanStarts.induct with
  | case1 i => simp [scanStarts, pieces, cutLines, hdrop]
  | case2 i rest ih =>
    have hslice : slice text i (i + 2) = ['\r', '\n'] := slice_of_drop ['\r', '\n'] rest hdrop
    rw [scanStarts, pieces, cutLines, hslice, ih (hafter ['\r', '\n'] rest hdrop)]
  | case3 i ch rest hpair hbreak ih =>
    have hslice : slice text i (i + 1) = [ch] := slice_of_drop [ch] rest hdrop
    rw [scanStarts.eq_3 _ _ _ hpair, if_pos hbreak, cutLines.eq_3 _ _ hpair, if_pos hbreak, pieces,
      hslice, ih (hafter [ch] rest hdrop)]
  | case4 i ch rest hpair hbreak ih =>
    rw [scanStarts.eq_3 _ _ _ hpair, if_neg hbreak, cutLines_plain rest hbreak,
      ← ih (hafter [ch] rest hdrop)]
    have hdrop₁ : text.drop (i + 1) = rest := hafter [ch] rest hdrop
    have hpast : ∀ o ∈ scanStarts (i + 1) rest, i + 1 ≤ o := by
      intro o hmem
      obtain ⟨j, rfl, -⟩ := (scanStarts_mem (i + 1) rest o).1 hmem
      omega
    cases hscan : scanStarts (i + 1) rest with
    | nil => simp [pieces, hdrop, hdrop₁]
    | cons next starts =>
      have hnext := hpast next (by rw [hscan]; exact List.mem_cons_self)
      have hslice : slice text i next = ch :: slice text (i + 1) next := by
        rw [slice, slice, List.drop_take, List.drop_take, hdrop, hdrop₁,
          show next - i = next - (i + 1) + 1 by omega, List.take_succ_cons]
      simp only [pieces, List.modifyHead_cons, hslice]

/-- `_lines_with_breaks` has the lines of the text. -/
theorem linesWithBreaks_eq (text : List Char) : linesWithBreaks text = textLines text := by
  by_cases hne : text = []
  · subst hne
    rfl
  · have hstarts : (LineIndex.new text).starts = 0 :: scanStarts 0 text := lineStarts_eq hne
    have hlines : ((List.range (LineIndex.new text).lineCount).map fun i =>
        slice text ((LineIndex.new text).lineStart i)
          (if i + 1 < (LineIndex.new text).lineCount then (LineIndex.new text).lineStart (i + 1)
            else text.length)) = cutLines text := by
      rw [← pieces_scan text 0 text rfl, ← pieces_range]
      have hcount : (LineIndex.new text).lineCount = (scanStarts 0 text).length + 1 := by
        rw [LineIndex.lineCount, hstarts, List.length_cons]
      have hread : ∀ i, i < (scanStarts 0 text).length + 1 →
          (LineIndex.new text).lineStart i = (0 :: scanStarts 0 text).getD i 0 := by
        intro i hi
        have hlt : i < (LineIndex.new text).starts.length := by rw [hstarts]; exact hi
        rw [LineIndex.lineStart, dif_pos hlt, List.getD_eq_getElem _ _ (by simpa using hi)]
        simp only [hstarts]
      rw [hcount]
      refine List.map_congr_left fun i hi => ?_
      rw [List.mem_range] at hi
      rw [hread i hi]
      split
      · next hmore => rw [hread (i + 1) hmore]
      · rfl
    rw [linesWithBreaks, hlines, textLines]

end Pieces

end Zuri.Lsp
