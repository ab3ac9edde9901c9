import Zuri.Lsp.Lines

/-!
Lines that follow each other. Any run of a text's lines is the lines of its own text, and a line
ends where the next starts or where the text ends.
-/

namespace Zuri.Lsp

/-- A line with its break, and nothing after it. -/
def BrokenLine (line : List Char) : Prop := cutLines line = [line, []]

/-- Two texts that meet within a `\r\n`. -/
def MeetInBreak (line rest : List Char) : Prop :=
  line.getLast? = some '\r' ∧ rest.head? = some '\n'

/-- Lines that follow each other in some text. -/
inductive Lined : List (List Char) → Prop where
  | nil : Lined []
  | last {line : List Char} : line ≠ [] → cutLines line = [line] → Lined [line]
  | cons {line : List Char} {rest : List (List Char)} : BrokenLine line →
      ¬ MeetInBreak line rest.flatten → Lined rest → Lined (line :: rest)

section Broken

theorem BrokenLine.ne_nil {line : List Char} (hline : BrokenLine line) : line ≠ [] := by
  rintro rfl
  cases hline

/-- What follows a broken line is cut on its own. -/
theorem BrokenLine.cut_append {line rest : List Char} (hline : BrokenLine line)
    (hmeet : ¬ MeetInBreak line rest) : cutLines (line ++ rest) = line :: cutLines rest := by
  induction line using cutLines.induct with
  | case1 => exact absurd rfl hline.ne_nil
  | case2 after ih =>
    rw [BrokenLine, cutLines] at hline
    obtain rfl : after = [] := by simpa using (List.cons.inj hline).1.symm
    exact cutLines.eq_2 rest
  | case3 ch after hpair hbreak ih =>
    rw [BrokenLine, cutLines.eq_3 _ _ hpair, if_pos hbreak] at hline
    obtain rfl : after = [] := by simpa using (List.cons.inj hline).1.symm
    have hpair : ∀ tail, ch = '\r' → rest = '\n' :: tail → False := by
      rintro tail rfl rfl
      exact hmeet ⟨rfl, rfl⟩
    rw [List.singleton_append, cutLines.eq_3 _ _ hpair, if_pos hbreak]
  | case4 ch after hpair hplain ih =>
    rw [BrokenLine, cutLines_plain after hplain] at hline
    obtain ⟨head, tail, heq⟩ := List.exists_cons_of_ne_nil (cutLines_ne_nil after)
    rw [heq, List.modifyHead_cons] at hline
    obtain ⟨hhead, rfl⟩ := List.cons.inj hline
    obtain rfl : head = after := (List.cons.inj hhead).2
    have hne : head ≠ [] := BrokenLine.ne_nil heq
    have hcut := ih heq fun hboth => hmeet ⟨by rw [List.getLast?_cons_of_ne_nil hne]; exact hboth.1,
      hboth.2⟩
    rw [List.cons_append, cutLines_plain _ hplain, hcut, List.modifyHead_cons]

theorem BrokenLine.ends {line : List Char} (hline : BrokenLine line) :
    line.getLast? = some '\n' ∨ line.getLast? = some '\r' := by
  induction line using cutLines.induct with
  | case1 => exact absurd rfl hline.ne_nil
  | case2 after ih =>
    rw [BrokenLine, cutLines] at hline
    obtain rfl : after = [] := by simpa using (List.cons.inj hline).1.symm
    exact .inl rfl
  | case3 ch after hpair hbreak ih =>
    rw [BrokenLine, cutLines.eq_3 _ _ hpair, if_pos hbreak] at hline
    obtain rfl : after = [] := by simpa using (List.cons.inj hline).1.symm
    exact hbreak.imp (congrArg some) (congrArg some)
  | case4 ch after hpair hplain ih =>
    rw [BrokenLine, cutLines_plain after hplain] at hline
    obtain ⟨head, tail, heq⟩ := List.exists_cons_of_ne_nil (cutLines_ne_nil after)
    rw [heq, List.modifyHead_cons] at hline
    obtain ⟨hhead, rfl⟩ := List.cons.inj hline
    obtain rfl : head = after := (List.cons.inj hhead).2
    rw [List.getLast?_cons_of_ne_nil (BrokenLine.ne_nil heq)]
    exact ih heq

/-- A broken line ends where the next starts. -/
theorem BrokenLine.start {line rest : List Char} (hline : BrokenLine line)
    (hmeet : ¬ MeetInBreak line rest) : BreakEnds (line ++ rest) line.length := by
  have hpos := List.length_pos_iff.2 hline.ne_nil
  obtain ⟨i, hi⟩ : ∃ i, line.length = i + 1 := ⟨line.length - 1, by omega⟩
  have hlast : (line ++ rest)[i]? = line.getLast? := by
    rw [List.getElem?_append_left (by omega), List.getLast?_eq_getElem?, hi, Nat.add_sub_cancel]
  have hnext : (line ++ rest)[i + 1]? = rest.head? := by
    rw [List.getElem?_append_right (by omega), hi, Nat.sub_self, List.head?_eq_getElem?]
  rw [hi]
  rcases hline.ends with hnewline | hreturn
  · exact .inl (hlast.trans hnewline)
  · exact .inr ⟨hlast.trans hreturn, fun h => hmeet ⟨hreturn, hnext ▸ h⟩⟩

theorem breakEnds_append {front rest : List Char} {o : Nat} (hends : BreakEnds rest o) :
    BreakEnds (front ++ rest) (front.length + o) := by
  cases o with
  | zero => exact hends.elim
  | succ i =>
    have hread : ∀ j, (front ++ rest)[front.length + j]? = rest[j]? := fun j => by
      rw [List.getElem?_append_right (Nat.le_add_right _ _), Nat.add_sub_cancel_left]
    rw [← Nat.add_assoc, BreakEnds, Nat.add_assoc, hread, hread]
    exact hends

end Broken

section Runs

theorem lined_textLines (text : List Char) : Lined (textLines text) := by
  change Lined (dropEmpty (cutLines text))
  have hflat : ∀ rest : List Char, (dropEmpty (cutLines rest)).flatten = rest := textLines_flatten
  induction text using cutLines.induct with
  | case1 => exact .nil
  | case2 rest ih =>
    rw [cutLines, dropEmpty_cons _ (cutLines_ne_nil rest)]
    exact .cons rfl (fun hmeet => absurd hmeet.1 (by decide)) ih
  | case3 ch rest hpair hbreak ih =>
    rw [cutLines.eq_3 _ _ hpair, if_pos hbreak, dropEmpty_cons _ (cutLines_ne_nil rest)]
    refine .cons ?_ ?_ ih
    · rw [BrokenLine, cutLines.eq_3 _ _ (by simp), if_pos hbreak, cutLines]
    · rw [hflat]
      rintro ⟨hlast, hhead⟩
      cases rest with
      | nil => cases hhead
      | cons next rest =>
        simp only [List.getLast?_singleton, Option.some.injEq] at hlast
        simp only [List.head?_cons, Option.some.injEq] at hhead
        exact hpair rest hlast (by rw [hhead])
  | case4 ch rest hpair hplain ih =>
    rw [cutLines_plain rest hplain]
    obtain ⟨head, tail, heq⟩ := List.exists_cons_of_ne_nil (cutLines_ne_nil rest)
    rw [heq] at ih ⊢
    rw [List.modifyHead_cons]
    by_cases htail : tail = []
    · subst htail
      have hrest : rest = head := by
        have hwhole := cutLines_flatten rest
        rw [heq] at hwhole
        simpa using hwhole.symm
      subst hrest
      rw [dropEmpty_single (List.cons_ne_nil _ _)]
      exact .last (List.cons_ne_nil _ _) (by rw [cutLines_plain rest hplain, heq]; rfl)
    · rw [dropEmpty_cons _ htail] at ih ⊢
      generalize hdropped : dropEmpty tail = dropped at ih
      cases ih with
      | last hne hcut =>
        have hwhole := cutLines_flatten rest
        rw [heq, List.flatten_cons, ← dropEmpty_flatten, hdropped, List.flatten_nil,
          List.append_nil] at hwhole
        rw [hwhole, heq] at hcut
        exact absurd (List.cons.inj hcut).2 htail
      | cons hline hmeet hrest =>
        refine .cons ?_ (fun hboth => hmeet ⟨?_, hboth.2⟩) hrest
        · rw [BrokenLine, cutLines_plain head hplain, hline]
          rfl
        · rw [← hboth.1, List.getLast?_cons_of_ne_nil hline.ne_nil]

theorem Lined.lines {lines : List (List Char)} (hlined : Lined lines) :
    textLines lines.flatten = lines := by
  change dropEmpty (cutLines lines.flatten) = lines
  induction hlined with
  | nil => rfl
  | last hne hcut => rw [List.flatten_singleton, hcut, dropEmpty_single hne]
  | cons hline hmeet _ ih =>
    rw [List.flatten_cons, hline.cut_append hmeet, dropEmpty_cons _ (cutLines_ne_nil _), ih]

theorem Lined.drop {lines : List (List Char)} (hlined : Lined lines) (n : Nat) :
    Lined (lines.drop n) := by
  induction hlined generalizing n with
  | nil =>
    rw [List.drop_nil]
    exact .nil
  | last hne hcut =>
    cases n with
    | zero => exact .last hne hcut
    | succ n =>
      rw [List.drop_succ_cons, List.drop_nil]
      exact .nil
  | cons hline hmeet hrest ih =>
    cases n with
    | zero => exact .cons hline hmeet hrest
    | succ n => exact ih n

theorem Lined.take {lines : List (List Char)} (hlined : Lined lines) (n : Nat) :
    Lined (lines.take n) := by
  induction hlined generalizing n with
  | nil =>
    rw [List.take_nil]
    exact .nil
  | last hne hcut =>
    cases n with
    | zero => exact .nil
    | succ n =>
      rw [List.take_succ_cons, List.take_nil]
      exact .last hne hcut
  | @cons line rest hline hmeet _ ih =>
    cases n with
    | zero => exact .nil
    | succ n =>
      rw [List.take_succ_cons]
      refine .cons hline (fun hboth => hmeet ⟨hboth.1, ?_⟩) (ih n)
      rw [← List.take_append_drop n rest, List.flatten_append, List.head?_append, hboth.2]
      rfl

/-- The offset after some of a text's lines is where a line starts or the text ends. -/
theorem Lined.boundary {lines : List (List Char)} (hlined : Lined lines) (n : Nat) :
    IsStart lines.flatten (lines.take n).flatten.length ∨
      (lines.take n).flatten.length = lines.flatten.length := by
  induction hlined generalizing n with
  | nil => exact .inl (.inl (by rw [List.take_nil]; rfl))
  | last hne hcut =>
    cases n with
    | zero => exact .inl (.inl rfl)
    | succ n => exact .inr (by rw [List.take_succ_cons, List.take_nil])
  | @cons line rest hline hmeet _ ih =>
    cases n with
    | zero => exact .inl (.inl rfl)
    | succ n =>
      have hlength : ((line :: rest).take (n + 1)).flatten.length =
          line.length + (rest.take n).flatten.length := by
        rw [List.take_succ_cons, List.flatten_cons, List.length_append]
      rw [hlength, List.flatten_cons]
      rcases ih n with (hzero | hends) | hlast
      · rw [hzero, Nat.add_zero]
        exact .inl (.inr (hline.start hmeet))
      · exact .inl (.inr (breakEnds_append hends))
      · exact .inr (by rw [hlast, List.length_append])

end Runs

end Zuri.Lsp
