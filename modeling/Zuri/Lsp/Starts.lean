import Mathlib.Data.Finset.Card
import Mathlib.Data.Nat.Find
import Mathlib.Order.Interval.Finset.Nat
import Zuri.Lsp.Text

/-!
Where lines start and end, said of the text itself. Both scans of a text find the same starts, the
offsets at which a line break has just ended, and the search among them finds the last one that is
not past an offset.
-/

namespace Zuri.Lsp

/-- A line break ends at an offset. -/
def BreakEnds (text : List Char) : Nat → Prop
  | 0 => False
  | i + 1 => text[i]? = some '\n' ∨ (text[i]? = some '\r' ∧ text[i + 1]? ≠ some '\n')

/-- An offset between the two characters of a `\r\n`. -/
def InsideBreak (text : List Char) : Nat → Prop
  | 0 => False
  | i + 1 => text[i]? = some '\r' ∧ text[i + 1]? = some '\n'

def IsStart (text : List Char) (o : Nat) : Prop := o = 0 ∨ BreakEnds text o

instance (text : List Char) : DecidablePred (BreakEnds text)
  | 0 => inferInstanceAs (Decidable False)
  | i + 1 => inferInstanceAs
      (Decidable (text[i]? = some '\n' ∨ (text[i]? = some '\r' ∧ text[i + 1]? ≠ some '\n')))

instance (text : List Char) : DecidablePred (IsStart text) :=
  fun o => inferInstanceAs (Decidable (o = 0 ∨ BreakEnds text o))

theorem breakEnds_le {text : List Char} {o : Nat} (hend : BreakEnds text o) :
    o ≤ text.length := by
  cases o with
  | zero => exact Nat.zero_le _
  | succ i =>
    rcases hend with hbreak | ⟨hbreak, -⟩
    · exact (List.getElem?_eq_some_iff.1 hbreak).1
    · exact (List.getElem?_eq_some_iff.1 hbreak).1

theorem isStart_le {text : List Char} {o : Nat} (hstart : IsStart text o) :
    o ≤ text.length := by
  rcases hstart with rfl | hend
  · exact Nat.zero_le _
  · exact breakEnds_le hend

theorem breakEnds_cons_succ (ch : Char) (rest : List Char) {j : Nat} (hj : 0 < j) :
    BreakEnds (ch :: rest) (j + 1) ↔ BreakEnds rest j := by
  obtain ⟨i, rfl⟩ : ∃ i, j = i + 1 := ⟨j - 1, by omega⟩
  simp only [BreakEnds, List.getElem?_cons_succ]

theorem breakEnds_cons_one (ch : Char) (rest : List Char) :
    BreakEnds (ch :: rest) 1 ↔ ch = '\n' ∨ (ch = '\r' ∧ rest.head? ≠ some '\n') := by
  simp [BreakEnds, List.head?_eq_getElem?]

section Slices

theorem slice_append (text : List Char) {a b c : Nat} (hab : a ≤ b) (hbc : b ≤ c) :
    slice text a c = slice text a b ++ slice text b c := by
  have htake : (text.take c).take b = text.take b := by
    rw [List.take_take, Nat.min_eq_left hbc]
  have hcut : text.take c = text.take b ++ (text.take c).drop b := by
    rw [← htake, List.take_append_drop]
  have hback : ((text.take c).drop b).drop (a - (text.take b).length) = (text.take c).drop b := by
    by_cases hlen : b ≤ text.length
    · rw [List.length_take, Nat.min_eq_left hlen, Nat.sub_eq_zero_of_le hab, List.drop_zero]
    · rw [List.drop_of_length_le (by rw [List.length_take]; omega : (text.take c).length ≤ b),
        List.drop_nil]
  calc slice text a c = (text.take b ++ (text.take c).drop b).drop a := by rw [← hcut, slice]
    _ = slice text a b ++ slice text b c := by rw [List.drop_append, hback, slice, slice]

theorem slice_length {text : List Char} {a b : Nat} (hb : b ≤ text.length) :
    (slice text a b).length = b - a := by
  rw [slice, List.length_drop, List.length_take]
  omega

end Slices

section Scans

theorem scanStarts_mem (i : Nat) (rest : List Char) (o : Nat) :
    o ∈ scanStarts i rest ↔ ∃ j, o = i + j ∧ BreakEnds rest j := by
  induction i, rest using scanStarts.induct with
  | case1 i =>
    simp only [scanStarts, List.not_mem_nil, false_iff, not_exists, not_and]
    intro j _ hend
    have hle := breakEnds_le hend
    simp only [List.length_nil, Nat.le_zero] at hle
    subst hle
    exact hend
  | case2 i rest ih =>
    simp only [scanStarts, List.mem_cons, ih]
    constructor
    · rintro (rfl | ⟨j, rfl, hend⟩)
      · exact ⟨2, rfl, by simp [BreakEnds]⟩
      · have hj : 0 < j := Nat.pos_of_ne_zero (by rintro rfl; exact hend)
        refine ⟨j + 2, by omega, ?_⟩
        rw [breakEnds_cons_succ _ _ (by omega), breakEnds_cons_succ _ _ hj]
        exact hend
    · rintro ⟨j, rfl, hend⟩
      match j with
      | 0 => exact hend.elim
      | 1 => simp [BreakEnds] at hend
      | 2 => exact .inl rfl
      | j + 3 =>
        rw [breakEnds_cons_succ _ _ (by omega), breakEnds_cons_succ _ _ (by omega)] at hend
        exact .inr ⟨j + 1, by omega, hend⟩
  | case3 i ch rest hpair hbreak ih =>
    have hone : BreakEnds (ch :: rest) 1 := by
      rw [breakEnds_cons_one]
      rcases hbreak with rfl | rfl
      · exact .inl rfl
      · refine .inr ⟨rfl, fun hhead => ?_⟩
        cases rest with
        | nil => cases hhead
        | cons next rest =>
          simp only [List.head?_cons, Option.some.injEq] at hhead
          exact hpair rest rfl (by rw [hhead])
    rw [scanStarts.eq_3 _ _ _ hpair, if_pos hbreak, List.mem_cons, ih]
    constructor
    · rintro (rfl | ⟨j, rfl, hend⟩)
      · exact ⟨1, rfl, hone⟩
      · have hj : 0 < j := Nat.pos_of_ne_zero (by rintro rfl; exact hend)
        exact ⟨j + 1, by omega, (breakEnds_cons_succ _ _ hj).2 hend⟩
    · rintro ⟨j, rfl, hend⟩
      match j with
      | 0 => exact hend.elim
      | 1 => exact .inl rfl
      | j + 2 => exact .inr ⟨j + 1, by omega, (breakEnds_cons_succ _ _ (by omega)).1 hend⟩
  | case4 i ch rest hpair hbreak ih =>
    rw [scanStarts.eq_3 _ _ _ hpair, if_neg hbreak, ih]
    constructor
    · rintro ⟨j, rfl, hend⟩
      have hj : 0 < j := Nat.pos_of_ne_zero (by rintro rfl; exact hend)
      exact ⟨j + 1, by omega, (breakEnds_cons_succ _ _ hj).2 hend⟩
    · rintro ⟨j, rfl, hend⟩
      match j with
      | 0 => exact hend.elim
      | 1 =>
        rw [breakEnds_cons_one] at hend
        exact absurd (hend.imp id And.left) hbreak
      | j + 2 => exact ⟨j + 1, by omega, (breakEnds_cons_succ _ _ (by omega)).1 hend⟩

theorem scanStarts_sorted (i : Nat) (rest : List Char) :
    (scanStarts i rest).Pairwise (· < ·) := by
  have hpast : ∀ i rest, ∀ o ∈ scanStarts i rest, i < o := by
    intro i rest o hmem
    obtain ⟨j, rfl, hend⟩ := (scanStarts_mem i rest o).1 hmem
    have hj : 0 < j := Nat.pos_of_ne_zero (by rintro rfl; exact hend)
    omega
  induction i, rest using scanStarts.induct with
  | case1 i => exact List.Pairwise.nil
  | case2 i rest ih =>
    rw [scanStarts]
    exact List.pairwise_cons.2 ⟨hpast _ _, ih⟩
  | case3 i ch rest hpair hbreak ih =>
    rw [scanStarts.eq_3 _ _ _ hpair, if_pos hbreak]
    exact List.pairwise_cons.2 ⟨hpast _ _, ih⟩
  | case4 i ch rest hpair hbreak ih =>
    rw [scanStarts.eq_3 _ _ _ hpair, if_neg hbreak]
    exact ih

theorem plainStarts_eq_nil {offset : Nat} {parts : List (List Char)} :
    plainStarts offset parts = [] ↔ parts = [] := by
  cases parts <;> simp [plainStarts]

theorem plainStarts_dropLast (i : Nat) (rest : List Char) (hplain : '\r' ∉ rest) :
    (plainStarts i (rest.splitOn '\n')).dropLast = scanStarts i rest := by
  induction rest generalizing i with
  | nil => simp [plainStarts, scanStarts]
  | cons ch rest ih =>
    have hch : ch ≠ '\r' := fun h => hplain (h ▸ List.mem_cons_self)
    have hrest : '\r' ∉ rest := fun h => hplain (List.mem_cons_of_mem _ h)
    have hpair : ∀ after, ch = '\r' → rest = '\n' :: after → False :=
      fun _ h _ => hch h
    obtain ⟨head, tail, hsplit⟩ := List.exists_cons_of_ne_nil (List.splitOn_ne_nil '\n' rest)
    rw [List.splitOn_cons_eq_if_modifyHead, scanStarts.eq_3 _ _ _ hpair]
    by_cases hbreak : ch = '\n'
    · have hne : plainStarts (i + 1) (rest.splitOn '\n') ≠ [] := by
        rw [Ne, plainStarts_eq_nil]
        exact List.splitOn_ne_nil _ _
      rw [if_pos (by simp [hbreak]), if_pos (.inl hbreak), plainStarts, List.length_nil,
        Nat.add_zero, List.dropLast_cons_of_ne_nil hne, ih _ hrest]
    · rw [if_neg (by simp [hbreak]), if_neg (by simp [hbreak, hch]), ← ih (i + 1) hrest, hsplit]
      simp only [List.modifyHead_cons, plainStarts, List.length_cons]
      rw [show i + (head.length + 1) + 1 = i + 1 + head.length + 1 by omega]

end Scans

/-- Both branches of `_line_starts` find the starts of a scan, except in an empty text. -/
theorem lineStarts_eq {text : List Char} (hne : text ≠ []) :
    lineStarts text = 0 :: scanStarts 0 text := by
  unfold lineStarts
  split
  · rfl
  · next hplain =>
    have hmem : '\r' ∉ text := by simpa using hplain
    have hsplit : split text '\n' = text.splitOn '\n' := by
      rw [split, if_neg (by simpa using hne)]
    have hparts : plainStarts 0 (text.splitOn '\n') ≠ [] := by
      rw [Ne, plainStarts_eq_nil]
      exact List.splitOn_ne_nil _ _
    rw [hsplit, List.dropLast_cons_of_ne_nil hparts, plainStarts_dropLast _ _ hmem]

theorem lineStarts_nil : lineStarts [] = [] := rfl

theorem lineStarts_mem {text : List Char} (hne : text ≠ []) (o : Nat) :
    o ∈ lineStarts text ↔ IsStart text o := by
  rw [lineStarts_eq hne, List.mem_cons, scanStarts_mem, IsStart]
  simp

theorem lineStarts_sorted (text : List Char) : (lineStarts text).Pairwise (· < ·) := by
  by_cases hne : text = []
  · rw [hne, lineStarts_nil]
    exact List.Pairwise.nil
  · rw [lineStarts_eq hne]
    refine List.pairwise_cons.2 ⟨fun o hmem => ?_, scanStarts_sorted 0 text⟩
    obtain ⟨j, rfl, hend⟩ := (scanStarts_mem 0 text o).1 hmem
    exact Nat.pos_of_ne_zero (by rintro h; rw [Nat.zero_add] at h; subst h; exact hend)

theorem lineStarts_length {text : List Char} (hne : text ≠ []) :
    0 < (lineStarts text).length := by
  rw [lineStarts_eq hne]
  exact Nat.succ_pos _

end Zuri.Lsp
