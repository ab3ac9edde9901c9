import Zuri.Lsp.Places

/-!
Line ends are found by looking back from the next start for the characters of a break. They are
where the line's characters end.
-/

namespace Zuri.Lsp

theorem break_char {text : List Char} {i : Nat}
    (hbreak : text[i]? = some '\n' ∨ text[i]? = some '\r') :
    BreakEnds text (i + 1) ∨
      (text[i]? = some '\r' ∧ text[i + 1]? = some '\n' ∧ BreakEnds text (i + 2)) := by
  rcases hbreak with hnewline | hreturn
  · exact .inl (.inl hnewline)
  · by_cases hnext : text[i + 1]? = some '\n'
    · exact .inr ⟨hreturn, hnext, .inl hnext⟩
    · exact .inl (.inr ⟨hreturn, hnext⟩)

namespace LineIndex

/-- The end that looking back from the next start finds. -/
def beforeBreak (text : List Char) (stop : Nat) : Nat :=
  let stop := if 0 < stop ∧ text[stop - 1]? = some '\n' then stop - 1 else stop
  if 0 < stop ∧ text[stop - 1]? = some '\r' then stop - 1 else stop

section Ends

variable {text : List Char} {start next : Nat}

theorem beforeBreak_newline {i : Nat} (hnewline : text[i]? = some '\n') :
    beforeBreak text (i + 1) =
      if 0 < i ∧ text[i - 1]? = some '\r' then i - 1 else i := by
  simp [beforeBreak, hnewline]

theorem beforeBreak_return {i : Nat} (hreturn : text[i]? = some '\r') :
    beforeBreak text (i + 1) = i := by
  simp [beforeBreak, hreturn]

theorem beforeBreak_span (hstart : IsStart text start) (hend : BreakEnds text next)
    (hlt : start < next) (hnone : ∀ o, start < o → o < next → ¬ BreakEnds text o) :
    LineSpan text start (beforeBreak text next) := by
  obtain ⟨i, rfl⟩ : ∃ i, next = i + 1 := ⟨next - 1, by omega⟩
  have hlen := breakEnds_le hend
  have hbreaks : ∀ p, start ≤ p → p < i → text[p]? = some '\n' ∨ text[p]? = some '\r' →
      p + 1 = i ∧ text[p]? = some '\r' ∧ text[i]? = some '\n' := by
    intro p hp hpi hbreak
    rcases break_char hbreak with hone | ⟨hreturn, hnewline, htwo⟩
    · exact absurd hone (hnone _ (by omega) (by omega))
    · have hp : p + 1 = i := by
        by_contra hne
        exact hnone _ (by omega) (by omega) htwo
      exact ⟨hp, hreturn, hp ▸ hnewline⟩
  rcases hend with hnewline | ⟨hreturn, hnext⟩
  · rw [beforeBreak_newline hnewline]
    split
    · next hpair =>
      obtain ⟨j, rfl⟩ : ∃ j, i = j + 1 := ⟨i - 1, by omega⟩
      have hbefore : start ≤ j := by
        by_contra hgt
        obtain rfl : start = j + 1 := by omega
        rcases hstart with hzero | hnewline₂ | ⟨-, hother⟩
        · omega
        · rw [Nat.add_sub_cancel, hnewline₂] at hpair
          exact absurd hpair.2 (by decide)
        · exact hother hnewline
      refine ⟨hstart, hbefore, by omega, fun p hp hpj => ?_, .inr (.inr hpair.2)⟩
      rw [← not_or]
      intro hbreak
      have := (hbreaks p hp (by omega) hbreak).1
      omega
    · next hpair =>
      refine ⟨hstart, by omega, by omega, fun p hp hpi => ?_, .inr (.inl hnewline)⟩
      rw [← not_or]
      intro hbreak
      obtain ⟨rfl, hreturn, -⟩ := hbreaks p hp hpi hbreak
      exact hpair ⟨by omega, hreturn⟩
  · rw [beforeBreak_return hreturn]
    refine ⟨hstart, by omega, by omega, fun p hp hpi => ?_, .inr (.inr hreturn)⟩
    rw [← not_or]
    intro hbreak
    obtain ⟨-, -, hnewline⟩ := hbreaks p hp hpi hbreak
    rw [hreturn] at hnewline
    exact absurd hnewline (by decide)

theorem last_span (hstart : IsStart text start)
    (hnone : ∀ o, start < o → ¬ BreakEnds text o) : LineSpan text start text.length := by
  refine ⟨hstart, isStart_le hstart, Nat.le_refl _, fun p hp _ => ?_, .inl rfl⟩
  rw [← not_or]
  intro hbreak
  rcases break_char hbreak with hone | ⟨-, -, htwo⟩
  · exact hnone _ (by omega) hone
  · exact hnone _ (by omega) htwo

/-- A line ends where its characters do. -/
theorem lineEnd_span (hne : text ≠ []) {line : Nat} (hline : line < (lineStarts text).length) :
    LineSpan text (lineStarts text)[line] ((new text).lineEnd line) := by
  have hsorted := lineStarts_sorted text
  have hstart := (lineStarts_mem hne _).1 (List.getElem_mem hline)
  have hafter : ∀ {o}, (lineStarts text)[line] < o → BreakEnds text o →
      ∃ i, ∃ hi : i < (lineStarts text).length, line < i ∧ (lineStarts text)[i] = o := by
    intro o hlt hend
    obtain ⟨i, hi, heq⟩ := List.getElem_of_mem ((lineStarts_mem hne o).2 (.inr hend))
    refine ⟨i, hi, ?_, heq⟩
    by_contra hle
    rcases Nat.lt_or_eq_of_le (Nat.le_of_not_lt hle) with hlt₂ | rfl
    · have := List.pairwise_iff_getElem.1 hsorted i line hi hline hlt₂
      omega
    · omega
  by_cases hnext : line + 1 < (lineStarts text).length
  · have hlt := List.pairwise_iff_getElem.1 hsorted line (line + 1) hline hnext (by omega)
    have hend := ((lineStarts_mem hne _).1 (List.getElem_mem hnext)).resolve_left (by omega)
    have heq : (new text).lineEnd line = beforeBreak text (lineStarts text)[line + 1] :=
      dif_pos hnext
    rw [heq]
    refine beforeBreak_span hstart hend hlt fun o hpast hbefore hends => ?_
    obtain ⟨i, hi, hlinei, rfl⟩ := hafter hpast hends
    rcases Nat.lt_or_eq_of_le (show line + 1 ≤ i from hlinei) with hlt₂ | rfl
    · have := List.pairwise_iff_getElem.1 hsorted (line + 1) i hnext hi hlt₂
      omega
    · omega
  · have heq : (new text).lineEnd line = text.length :=
      dif_neg hnext
    rw [heq]
    refine last_span hstart fun o hpast hends => ?_
    obtain ⟨i, hi, hlinei, -⟩ := hafter hpast hends
    omega

end Ends

end LineIndex

section Units

theorem width_pos (ch : Char) (encoding : Encoding) : 0 < width ch encoding := by
  cases encoding <;> simp only [width] <;> (repeat' split) <;> omega

theorem units_append (encoding : Encoding) (front back : List Char) :
    units encoding (front ++ back) = units encoding front + units encoding back := by
  induction front with
  | nil => simp [units]
  | cons ch rest ih => simp only [List.cons_append, units, ih, Nat.add_assoc]

theorem length_le_units (encoding : Encoding) (text : List Char) :
    text.length ≤ units encoding text := by
  induction text with
  | nil => exact Nat.le_refl 0
  | cons ch rest ih =>
    have hwidth := width_pos ch encoding
    simp only [List.length_cons, units]
    omega

theorem units_utf32 (text : List Char) : units .utf32 text = text.length := by
  induction text with
  | nil => rfl
  | cons ch rest ih =>
    simp only [units, width, ih, List.length_cons]
    omega

theorem length_le_bytesLength (text : List Char) : text.length ≤ bytesLength text := by
  induction text with
  | nil => exact Nat.le_refl 0
  | cons ch rest ih =>
    have hsize := ch.utf8Size_pos
    simp only [List.length_cons, bytesLength]
    omega

theorem width_of_utf8Size {ch : Char} (hone : ch.utf8Size = 1) (encoding : Encoding) :
    width ch encoding = 1 := by
  have hle : ch.val ≤ 127 := Char.utf8Size_eq_one_iff.1 hone
  have hsmall : ch.toNat < 128 := Nat.lt_succ_of_le hle
  cases encoding with
  | utf32 => rfl
  | utf16 => exact if_neg (by omega)
  | utf8 => exact if_pos hsmall

/-- A text whose bytes are as many as its characters takes as many units in every encoding. -/
theorem units_of_isAscii {text : List Char} (hascii : isAscii text = true) (encoding : Encoding) :
    units encoding text = text.length := by
  have hbytes : bytesLength text = text.length := by simpa [isAscii] using hascii
  clear hascii
  induction text with
  | nil => rfl
  | cons ch rest ih =>
    have hsize := ch.utf8Size_pos
    have hrest := length_le_bytesLength rest
    simp only [bytesLength, List.length_cons] at hbytes
    simp only [units, List.length_cons, width_of_utf8Size (show ch.utf8Size = 1 by omega),
      ih (by omega)]
    omega

end Units

namespace LineIndex

/-- The loop of `offset` passes the characters whose units it was asked for. -/
theorem advance_units (encoding : Encoding) (front back : List Char) (counted : Nat) :
    advance encoding (counted + units encoding front) counted (front ++ back) = front.length := by
  induction front generalizing counted with
  | nil =>
    cases back with
    | nil => rfl
    | cons ch rest => simp [advance, units]
  | cons ch rest ih =>
    have hwidth := width_pos ch encoding
    simp only [List.cons_append, advance, units, List.length_cons]
    rw [if_pos (by omega), ← Nat.add_assoc, ih]

theorem advance_past (encoding : Encoding) (wanted counted : Nat) (text : List Char)
    (hpast : counted + units encoding text ≤ wanted) :
    advance encoding wanted counted text = text.length := by
  induction text generalizing counted with
  | nil => rfl
  | cons ch rest ih =>
    have hwidth := width_pos ch encoding
    simp only [units] at hpast
    simp only [advance, List.length_cons]
    rw [if_pos (by omega), ih _ (by omega)]

end LineIndex

end Zuri.Lsp
