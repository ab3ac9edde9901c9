import Zuri.Lsp.LineEnds

/-!
Positions and offsets are converted there and back without loss, and a client that tells the server
each edit by the positions of its ends keeps one text with it.
-/

namespace Zuri.Lsp

namespace LineIndex

section Conversion

variable {text : List Char} {o : Nat}

/-- The characters of the line an offset is on, and the offset among them. -/
theorem span_of_offset (hne : text ≠ []) (hle : o ≤ text.length) (hout : ¬ InsideBreak text o) :
    LineSpan text (lastStart text o) ((new text).lineEnd (lineNumber text o)) ∧
      o ≤ (new text).lineEnd (lineNumber text o) := by
  obtain ⟨hline, hlast⟩ := List.getElem?_eq_some_iff.1 (lineOf_eq hne o).2
  have hspan := lineEnd_span hne hline
  rw [hlast] at hspan
  exact ⟨hspan, hspan.le_stop hle hout fun s hstart hso => le_lastStart hso hstart⟩

/-- The index gives an offset the protocol's place for it. -/
theorem position_eq (hne : text ≠ []) (hle : o ≤ text.length) (hout : ¬ InsideBreak text o)
    (encoding : Encoding) : (new text).position o encoding = some (place text o encoding) := by
  obtain ⟨hline, hstart⟩ := lineOf_eq hne o
  obtain ⟨hspan, hstop⟩ := span_of_offset hne hle hout
  have hneg : ¬ (o : Int) < 0 := by omega
  have hlong : ¬ (o : Int) > text.length := by omega
  simp only [position, new_text, hneg, hlong, if_false, Int.toNat_natCast, hline, new_starts,
    hstart]
  rw [if_neg (by omega : ¬ o > (new text).lineEnd (lineNumber text o))]
  split
  · next hutf =>
    rw [hutf, place, units_utf32, slice_length hle]
  · split
    · next hascii => rw [place, units_of_isAscii hascii]
    · rfl

/-- The line that a number names, when it names one. -/
theorem offset_line (encoding : Encoding) {line start : Nat} (character : Nat)
    (hstart : (lineStarts text)[line]? = some start) :
    (new text).offset ⟨line, character⟩ encoding =
      start +
        (if encoding = .utf32 ∨ isAscii (slice text start ((new text).lineEnd line)) = true then
          (if character < (slice text start ((new text).lineEnd line)).length then character
            else (slice text start ((new text).lineEnd line)).length)
        else advance encoding character 0 (slice text start ((new text).lineEnd line))) := by
  obtain ⟨hlt, heq⟩ := List.getElem?_eq_some_iff.1 hstart
  have hlineStart : (new text).lineStart line = start := by
    rw [lineStart, dif_pos (show line < (new text).starts.length from hlt)]
    exact heq
  have hneg : ¬ (line : Int) < 0 := by omega
  have hlong : ¬ (line : Int) ≥ (lineStarts text).length := by omega
  simp only [offset, new_starts, new_text, hneg, hlong, if_false, Int.toNat_natCast, hlineStart]
  split <;> rfl

/-- Past the last line there is only the end of the text. -/
theorem offset_past_text (encoding : Encoding) {line : Int} (character : Nat)
    (hpast : lineNumber text text.length < line) :
    (new text).offset ⟨line, character⟩ encoding = text.length := by
  have hcount : ((lineStarts text).length : Int) ≤ line := by
    by_cases hne : text = []
    · rw [hne, lineStarts_nil]
      simp only [List.length_nil]
      omega
    · obtain ⟨hlt, -⟩ := List.getElem?_eq_some_iff.1 (lineOf_eq hne text.length).2
      by_contra hmore
      have hnext : lineNumber text text.length + 1 < (lineStarts text).length := by omega
      obtain ⟨hline, -, hpast₂⟩ := lineOf_spec hne text.length
      rw [(lineOf_eq hne text.length).1] at hpast₂
      have hlong := hpast₂ (lineNumber text text.length + 1) (Nat.lt_succ_self _) hnext
      have := isStart_le ((lineStarts_mem hne _).1 (List.getElem_mem hnext))
      omega
  have hneg : ¬ line < 0 := by omega
  simp only [offset, new_starts, new_text, hneg, if_false, ge_iff_le, hcount, if_true]

/-- A character past the end of a line means the end of the line. -/
theorem offset_past_line (encoding : Encoding) {start stop character : Nat}
    (hspan : LineSpan text start stop) (hpast : units encoding (slice text start stop) ≤ character) :
    (new text).offset ⟨lineNumber text start, character⟩ encoding = stop := by
  by_cases hne : text = []
  · subst hne
    have hwithin := hspan.within
    simp only [List.length_nil, Nat.le_zero] at hwithin
    rw [hwithin]
    rfl
  · have hstart : lastStart text start = start := lastStart_self hspan.starts
    have hnth := (lineOf_eq hne start).2
    rw [hstart] at hnth
    obtain ⟨hlt, heq⟩ := List.getElem?_eq_some_iff.1 hnth
    have hstop : (new text).lineEnd (lineNumber text start) = stop :=
      (heq ▸ lineEnd_span hne hlt).unique hspan
    have hlength := slice_length (a := start) hspan.within
    have hlong := length_le_units encoding (slice text start stop)
    have hle := hspan.le
    rw [offset_line encoding character hnth, hstop]
    split
    · rw [if_neg (by omega), hlength]
      omega
    · rw [advance_past encoding _ 0 _ (by omega), hlength]
      omega

/-- The place of an offset means that offset. -/
theorem offset_place (hle : o ≤ text.length) (hout : ¬ InsideBreak text o)
    (encoding : Encoding) : (new text).offset (place text o encoding) encoding = o := by
  by_cases hne : text = []
  · subst hne
    simp only [List.length_nil, Nat.le_zero] at hle
    subst hle
    rfl
  · obtain ⟨hspan, hstop⟩ := span_of_offset hne hle hout
    have hfrom := lastStart_le text o
    have hnth := (lineOf_eq hne o).2
    have hcut := slice_append text hfrom hstop
    have hfront := slice_length (a := lastStart text o) hle
    rw [place, offset_line encoding _ hnth, hcut]
    split
    · next hshort =>
      have hunits : units encoding (slice text (lastStart text o) o) =
          (slice text (lastStart text o) o).length := by
        rcases hshort with rfl | hascii
        · exact units_utf32 _
        · have hwhole := units_of_isAscii hascii encoding
          have hback := length_le_units encoding
            (slice text o ((new text).lineEnd (lineNumber text o)))
          have hfront := length_le_units encoding (slice text (lastStart text o) o)
          rw [units_append, List.length_append] at hwhole
          omega
      rw [hunits, List.length_append, hfront]
      split <;> omega
    · have hadvance := advance_units encoding (slice text (lastStart text o) o)
        (slice text o ((new text).lineEnd (lineNumber text o))) 0
      rw [Nat.zero_add] at hadvance
      rw [hadvance, hfront]
      omega

end Conversion

end LineIndex

/-- The order of positions in a text. -/
def Position.Before (p q : Position) : Prop :=
  p.line < q.line ∨ (p.line = q.line ∧ p.character < q.character)

theorem place_before {text : List Char} {o₁ o₂ : Nat} (encoding : Encoding) (hlt : o₁ < o₂)
    (hle : o₂ ≤ text.length) : (place text o₁ encoding).Before (place text o₂ encoding) := by
  have hmono := lineNumber_mono text (Nat.le_of_lt hlt)
  rcases Nat.lt_or_eq_of_le hmono with hless | hsame
  · exact .inl (Int.ofNat_lt.2 hless)
  · refine .inr ⟨congrArg Int.ofNat hsame, ?_⟩
    have hstart := lastStart_of_lineNumber (Nat.le_of_lt hlt) hsame
    have hcut := slice_append text (lastStart_le text o₁) (Nat.le_of_lt hlt)
    have hlong := length_le_units encoding (slice text o₁ o₂)
    rw [slice_length hle] at hlong
    simp only [place]
    rw [← hstart, hcut, units_append]
    omega

/-- An edit a client makes to its text: a new text, or new text for what is between two offsets. -/
inductive Edit where
  | whole (text : List Char)
  | replace (first last : Nat) (text : List Char)

namespace Edit

def apply (text : List Char) : Edit → List Char
  | .whole new => new
  | .replace first last new => text.take (min first last) ++ new ++ text.drop (max first last)

/-- The offsets of an edit are ones that positions name. -/
def Placed (text : List Char) : Edit → Prop
  | .whole _ => True
  | .replace first last _ =>
      (first ≤ text.length ∧ ¬ InsideBreak text first) ∧
        (last ≤ text.length ∧ ¬ InsideBreak text last)

/-- What the client sends for an edit of its text. -/
def change (text : List Char) (encoding : Encoding) : Edit → Change
  | .whole new => ⟨none, new⟩
  | .replace first last new =>
      ⟨some (place text first encoding, place text last encoding), new⟩

/-- Every edit of a run is placed in the text it is made to. -/
def AllPlaced : List Char → List Edit → Prop
  | _, [] => True
  | text, edit :: rest => edit.Placed text ∧ AllPlaced (edit.apply text) rest

/-- The changes a client sends for its edits, each in the text it is made to. -/
def changes (encoding : Encoding) : List Char → List Edit → List Change
  | _, [] => []
  | text, edit :: rest => edit.change text encoding :: changes encoding (edit.apply text) rest

theorem applyChange_change {text : List Char} {edit : Edit} (hplaced : edit.Placed text)
    (encoding : Encoding) :
    applyChange text (edit.change text encoding) encoding = edit.apply text := by
  cases edit with
  | whole new => rfl
  | replace first last new =>
    obtain ⟨⟨hfirst, hfirstOut⟩, hlast, hlastOut⟩ := hplaced
    simp only [applyChange, change, apply, LineIndex.offset_place hfirst hfirstOut,
      LineIndex.offset_place hlast hlastOut]
    have hback : ∀ o, slice text o text.length = text.drop o := fun o => by
      rw [slice, List.take_length]
    by_cases hswap : last < first
    · rw [if_pos hswap, Nat.min_eq_right (by omega), Nat.max_eq_left (by omega)]
      simp only [slice, List.drop_zero, List.take_length]
    · rw [if_neg hswap, Nat.min_eq_left (by omega), Nat.max_eq_right (by omega)]
      simp only [slice, List.drop_zero, List.take_length]

/-- The server's text is the client's after every run of changes. -/
theorem applyChanges_changes (encoding : Encoding) {text : List Char} {edits : List Edit}
    (hplaced : AllPlaced text edits) :
    applyChanges text (changes encoding text edits) encoding = edits.foldl apply text := by
  induction edits generalizing text with
  | nil => rfl
  | cons edit rest ih =>
    obtain ⟨hedit, hrest⟩ := hplaced
    rw [changes, applyChanges, List.foldl_cons, applyChange_change hedit, List.foldl_cons]
    exact ih hrest

end Edit

/-- What the protocol asks of the positions in a text, in every encoding. -/
structure PositionsHold (text : List Char) : Prop where
  /-- A position is that of the offset it was made from. -/
  back : ∀ (encoding : Encoding) (o : Nat), o ≤ text.length → ¬ InsideBreak text o →
    ∃ p, (LineIndex.new text).position o encoding = some p ∧
      (LineIndex.new text).offset p encoding = o
  /-- Later offsets have later positions. -/
  mono : ∀ (encoding : Encoding) (o₁ o₂ : Nat), o₁ < o₂ → o₂ ≤ text.length →
    ¬ InsideBreak text o₁ → ¬ InsideBreak text o₂ →
    ∃ p q, (LineIndex.new text).position o₁ encoding = some p ∧
      (LineIndex.new text).position o₂ encoding = some q ∧ p.Before q
  /-- Past the end of a line is the end of the line. -/
  pastLine : ∀ (encoding : Encoding) (start stop character : Nat), LineSpan text start stop →
    units encoding (slice text start stop) ≤ character →
    (LineIndex.new text).offset ⟨lineNumber text start, character⟩ encoding = stop
  /-- Past the last line is the end of the text. -/
  pastText : ∀ (encoding : Encoding) (line : Int) (character : Nat),
    lineNumber text text.length < line →
    (LineIndex.new text).offset ⟨line, character⟩ encoding = text.length

/-- Positions hold in exactly the texts that have a character, and whatever the text, changes keep
the server's text the client's. -/
theorem positions_hold_iff (text : List Char) :
    (PositionsHold text ↔ text ≠ []) ∧
      ∀ (encoding : Encoding) (edits : List Edit), Edit.AllPlaced text edits →
        applyChanges text (Edit.changes encoding text edits) encoding =
          edits.foldl Edit.apply text := by
  refine ⟨⟨fun hholds hempty => ?_, fun hne => ⟨?_, ?_, ?_, ?_⟩⟩, ?_⟩
  · subst hempty
    obtain ⟨p, hp, -⟩ := hholds.back .utf8 0 (Nat.le_refl 0) id
    exact absurd hp (by simp [LineIndex.position, LineIndex.new, lineStarts_nil])
  · intro encoding o hle hout
    exact ⟨_, LineIndex.position_eq hne hle hout encoding,
      LineIndex.offset_place hle hout encoding⟩
  · intro encoding o₁ o₂ hlt hle hout₁ hout₂
    exact ⟨_, _, LineIndex.position_eq hne (Nat.le_of_lt (Nat.lt_of_lt_of_le hlt hle)) hout₁ _,
      LineIndex.position_eq hne hle hout₂ _, place_before encoding hlt hle⟩
  · intro encoding start stop character hspan hpast
    exact LineIndex.offset_past_line encoding hspan hpast
  · intro encoding line character hpast
    exact LineIndex.offset_past_text encoding character hpast
  · intro encoding edits hplaced
    exact Edit.applyChanges_changes encoding hplaced

/-- A character put in before a `\r\n`. -/
theorem positions_hold_return :
    applyChanges ['a', '\r', '\n']
      (Edit.changes .utf16 ['a', '\r', '\n'] [.replace 1 1 ['b']]) .utf16 =
        ['a', 'b', '\r', '\n'] :=
  (positions_hold_iff ['a', '\r', '\n']).2 .utf16 [.replace 1 1 ['b']]
    ⟨⟨⟨by decide, by simp [InsideBreak]⟩, by decide, by simp [InsideBreak]⟩, trivial⟩

/-- An empty text has no position: its index has no line. -/
theorem empty_text_raises :
    ¬ ∀ (text : List Char) (encoding : Encoding) (o : Nat), o ≤ text.length →
      ¬ InsideBreak text o → ∃ p, (LineIndex.new text).position o encoding = some p ∧
        (LineIndex.new text).offset p encoding = o := by
  intro hclaim
  obtain ⟨p, hp, -⟩ := hclaim [] .utf16 0 (Nat.le_refl 0) id
  exact absurd hp (by simp [LineIndex.position, LineIndex.new, lineStarts_nil])

end Zuri.Lsp
