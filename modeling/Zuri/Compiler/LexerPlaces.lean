import Mathlib.Data.List.TakeWhile
import Zuri.Compiler.Lexer

/-!
Where tokens are. The lexer's line is one more than the line feeds it has passed, and it has kept
where each line began, so a token has its own line and its distance from the line feed before it.
Each scan takes up where the last token stopped, but past an interpolation's opening brace, which
belongs to no token. So the places are exact when no string is opened for an interpolation.
-/

namespace Zuri.Lexing

/-- One more than the line feeds before an offset. -/
def lineOf (source : List Char) (i : Nat) : Nat := (source.take i).count '\n' + 1

/-- The distance of an offset from the last line feed before it. -/
def columnOf (source : List Char) (i : Nat) : Nat :=
  ((source.take i).reverse.takeWhile (· ≠ '\n')).length + 1

section Offsets

variable {source : List Char} {i j : Nat} {c : Char}

theorem take_succ (h : source[i]? = some c) : source.take (i + 1) = source.take i ++ [c] := by
  rw [List.take_add_one, h]
  rfl

theorem lineOf_succ (h : source[i]? = some c) :
    lineOf source (i + 1) = if c = '\n' then lineOf source i + 1 else lineOf source i := by
  rw [lineOf, take_succ h, List.count_append, List.count_singleton, lineOf]
  by_cases hc : c = '\n' <;> simp [hc]

theorem columnOf_succ (h : source[i]? = some c) :
    columnOf source (i + 1) = if c = '\n' then 1 else columnOf source i + 1 := by
  rw [columnOf, take_succ h, List.reverse_append, List.reverse_singleton, List.singleton_append,
    List.takeWhile_cons, columnOf]
  by_cases hc : c = '\n' <;> simp [hc]

theorem lineOf_mono (h : i ≤ j) : lineOf source i ≤ lineOf source j := by
  have hsub : (source.take i).Sublist (source.take j) := by
    rw [← Nat.min_eq_left h, ← List.take_take]
    exact List.take_sublist _ _
  exact Nat.add_le_add_right (hsub.count_le _) 1

theorem columnOf_first (h : lineOf source i = 1) (hi : i ≤ source.length) :
    columnOf source i = i + 1 := by
  have hnone : '\n' ∉ source.take i := List.count_eq_zero.mp (Nat.succ.inj h)
  have hall : ∀ a ∈ (source.take i).reverse, decide (a ≠ '\n') = true := by
    intro a ha
    rw [decide_eq_true_eq]
    rintro rfl
    exact hnone (List.mem_reverse.mp ha)
  rw [columnOf, List.takeWhile_eq_self_iff.mpr hall, List.length_reverse, List.length_take,
    Nat.min_eq_left hi]

end Offsets

namespace Lexer

/-- The lexer has its own line right, and the beginnings of the lines it has been on. -/
structure Tracked (l : Lexer) : Prop where
  inside : l.current ≤ l.source.length
  line : l.line = lineOf l.source l.current
  lines : ∀ i, i ≤ l.current → lineOf l.source i ≠ 1 →
    ∃ first, l.lines.lookup (lineOf l.source i) = some first ∧
      first + columnOf l.source i = i + 1

/-- The cursor has moved on and lines have been counted, nothing else. -/
structure Ahead (l m : Lexer) : Prop where
  source : m.source = l.source
  start : m.start = l.start
  startLine : m.startLine = l.startLine
  current : l.current ≤ m.current
  tracked : l.Tracked → m.Tracked

variable {l m n : Lexer}

theorem Ahead.refl (l : Lexer) : Ahead l l := ⟨rfl, rfl, rfl, Nat.le_refl _, id⟩

theorem Ahead.trans (h : Ahead l m) (k : Ahead m n) : Ahead l n where
  source := k.source.trans h.source
  start := k.start.trans h.start
  startLine := k.startLine.trans h.startLine
  current := Nat.le_trans h.current k.current
  tracked := k.tracked ∘ h.tracked

theorem tracked_new (source : List Char) : (Lexer.new source).Tracked :=
  ⟨Nat.zero_le _, rfl, fun i hi hline => absurd (by rw [Nat.le_zero.mp hi]; rfl) hline⟩

/-- What passing one character does. -/
theorem advance_of {c : Char} (h : l.source[l.current]? = some c) :
    l.advance.current = l.current + 1 ∧ Ahead l l.advance := by
  have hin : l.current < l.source.length := (List.getElem?_eq_some_iff.mp h).1
  by_cases hc : c = '\n'
  · subst hc
    have hadv : l.advance = { l with
        current := l.current + 1
        line := l.line + 1
        lines := (l.line + 1, l.current + 1) :: l.lines } := by
      simp [advance, h]
    rw [hadv]
    refine ⟨rfl, rfl, rfl, rfl, Nat.le_succ _, fun ht => ⟨hin, ?_, fun i hi hline => ?_⟩⟩
    · have hnext := lineOf_succ h
      rw [if_pos rfl] at hnext
      exact (congrArg (· + 1) ht.line).trans hnext.symm
    · by_cases hlast : i = l.current + 1
      · have hnext := lineOf_succ h
        have hcol := columnOf_succ h
        rw [if_pos rfl] at hnext hcol
        subst hlast
        refine ⟨l.current + 1, ?_, ?_⟩
        · simp only [hnext, ← ht.line, List.lookup_cons, beq_self_eq_true]
        · simp only [hcol]
      · have hle : i ≤ l.current := Nat.lt_succ_iff.mp (Nat.lt_of_le_of_ne hi hlast)
        obtain ⟨first, hfirst, hcol⟩ := ht.lines i hle hline
        refine ⟨first, ?_, hcol⟩
        have hne : lineOf l.source i ≠ l.line + 1 := by
          have hmono : lineOf l.source i ≤ lineOf l.source l.current := lineOf_mono hle
          rw [ht.line]
          omega
        rw [List.lookup_cons, beq_false_of_ne hne]
        exact hfirst
  · have hadv : l.advance = { l with current := l.current + 1 } := by simp [advance, h, hc]
    rw [hadv]
    refine ⟨rfl, rfl, rfl, rfl, Nat.le_succ _, fun ht => ⟨hin, ?_, fun i hi hline => ?_⟩⟩
    · have hnext := lineOf_succ h
      rw [if_neg hc] at hnext
      exact ht.line.trans hnext.symm
    · by_cases hlast : i = l.current + 1
      · have hnext := lineOf_succ h
        have hcol := columnOf_succ h
        rw [if_neg hc] at hnext hcol
        subst hlast
        obtain ⟨first, hfirst, hcol'⟩ := ht.lines l.current (Nat.le_refl _) (hnext ▸ hline)
        refine ⟨first, ?_, ?_⟩
        · simp only [hnext]
          exact hfirst
        · simp only [hcol]
          omega
      · exact ht.lines i (Nat.lt_succ_iff.mp (Nat.lt_of_le_of_ne hi hlast)) hline

theorem advance_none (h : l.source[l.current]? = none) : l.advance = l := by
  simp [advance, h]

theorem ahead_advance (l : Lexer) : Ahead l l.advance := by
  cases h : l.source[l.current]? with
  | none => rw [advance_none h]; exact .refl l
  | some c => exact (advance_of h).2

theorem ahead_matchChar {c : Char} (h : l.matchChar c = some m) : Ahead l m := by
  rw [matchChar] at h
  split at h
  · cases h
    exact ahead_advance l
  · cases h

theorem ahead_advanceWhile (p : Char → Bool) (rest : List Char) (l : Lexer) :
    Ahead l (advanceWhile p rest l) := by
  induction rest generalizing l with
  | nil => exact .refl l
  | cons c rest ih =>
      rw [advanceWhile]
      split
      · exact (ahead_advance l).trans (ih _)
      · exact .refl l

theorem ahead_digits (rest : List Char) (l : Lexer) : Ahead l (digits rest l) := by
  induction rest generalizing l with
  | nil => exact .refl l
  | cons c rest ih =>
      rw [digits]
      split
      · exact (ahead_advance l).trans (ih _)
      · exact .refl l

theorem ahead_docLoop (nesting : Nat) (rest : List Char) (l : Lexer) :
    Ahead l (docLoop nesting rest l).2 := by
  fun_induction docLoop nesting rest l with
  | case1 => exact .refl _
  | case2 => exact .refl _
  | case3 l n rest ih => exact ((ahead_advance _).trans (ahead_advance _)).trans ih
  | case4 l n rest ih => exact ((ahead_advance _).trans (ahead_advance _)).trans ih
  | case5 l n c rest _ _ ih => exact (ahead_advance _).trans ih

theorem ahead_stringLoop (c : Char) (rest : List Char) (l : Lexer) :
    Ahead l (stringLoop c rest l).2 := by
  fun_induction stringLoop c rest l with
  | case1 => exact .refl _
  | case2 => exact .refl _
  | case3 l a h ih => exact (ahead_advance _).trans ih
  | case4 => exact .refl _
  | case5 l a h b rest _ _ ih => exact ((ahead_advance _).trans (ahead_advance _)).trans ih
  | case6 l a h b rest _ _ ih => exact (ahead_advance _).trans ih

theorem rest_cons {c : Char} {rest : List Char} (h : l.rest = c :: rest) :
    l.source[l.current]? = some c ∧ l.advance.rest = rest := by
  have hget : l.source[l.current]? = some c := by
    rw [← List.head?_drop]
    exact congrArg List.head? h
  obtain ⟨hcur, hahead⟩ := advance_of hget
  refine ⟨hget, ?_⟩
  rw [Lexer.rest, hahead.source, hcur, ← List.tail_drop]
  exact congrArg List.tail h

/-- Where the loop of a string ends for a quote or an interpolation. -/
theorem stringLoop_stops (c : Char) (rest : List Char) (l : Lexer) (h : l.rest = rest) :
    ((stringLoop c rest l).1 = .quote →
      (stringLoop c rest l).2.source[(stringLoop c rest l).2.current]? = some c) ∧
    ((stringLoop c rest l).1 = .interpolation →
      (stringLoop c rest l).2.source[(stringLoop c rest l).2.current]? = some '$' ∧
      (stringLoop c rest l).2.source[(stringLoop c rest l).2.current + 1]? = some '{') := by
  fun_induction stringLoop c rest l with
  | case1 => exact ⟨nofun, nofun⟩
  | case2 l rest => exact ⟨fun _ => (rest_cons h).1, nofun⟩
  | case3 l a hc ih => exact ih (rest_cons h).2
  | case4 l a hc b rest hopen =>
      obtain ⟨hget, hrest⟩ := rest_cons h
      obtain ⟨hcur, hahead⟩ := advance_of hget
      obtain ⟨hnext, -⟩ := rest_cons hrest
      rw [hahead.source, hcur] at hnext
      exact ⟨nofun, fun _ => ⟨hopen.1 ▸ hget, hopen.2 ▸ hnext⟩⟩
  | case5 l a hc b rest _ _ ih => exact ih (rest_cons (rest_cons h).2).2
  | case6 l a hc b rest _ _ ih => exact ih (rest_cons h).2

theorem ahead_push (l : Lexer) (quote : Char) : Ahead l (l.push quote) :=
  ⟨rfl, rfl, rfl, Nat.le_refl _, fun h => ⟨h.inside, h.line, h.lines⟩⟩

/-- Stepping over a character that ends no line. -/
theorem ahead_pass {c : Char} (h : l.source[l.current]? = some c) (hc : c ≠ '\n') :
    Ahead l l.pass := by
  have hadv : l.advance = l.pass := by simp [advance, pass, h, hc]
  exact hadv ▸ ahead_advance l

/-- Inside a token that begins on its line. -/
structure Begun (l : Lexer) : Prop where
  tracked : l.Tracked
  start : l.start ≤ l.current
  startLine : l.startLine = lineOf l.source l.start

theorem Begun.ahead (h : Begun l) (k : Ahead l m) : Begun m where
  tracked := k.tracked h.tracked
  start := by rw [k.start]; exact Nat.le_trans h.start k.current
  startLine := by rw [k.startLine, k.source, k.start]; exact h.startLine

/-- A token has the line and the column it begins at. -/
theorem makeToken_of (h : Begun l) (kind : TokenKind) : l.makeToken kind =
    (⟨kind, lineOf l.source l.start, columnOf l.source l.start, l.start, l.current⟩, l) := by
  have hinside := Nat.le_trans h.start h.tracked.inside
  have key : ∃ first, (if l.lines.isEmpty ∨ l.startLine = 1 then 0
      else (l.lines.lookup l.startLine).getD 0) = first ∧
      first + columnOf l.source l.start = l.start + 1 := by
    by_cases hline : lineOf l.source l.start = 1
    · rw [if_pos (.inr (h.startLine.trans hline))]
      exact ⟨0, rfl, by rw [columnOf_first hline hinside]; omega⟩
    · obtain ⟨first, hfirst, hcol⟩ := h.tracked.lines l.start h.start hline
      have hsome : l.lines.isEmpty = false := by
        cases hl : l.lines with
        | nil => rw [hl] at hfirst; cases hfirst
        | cons e lines => rfl
      rw [hsome, h.startLine, hfirst, if_neg (by simpa using hline)]
      exact ⟨first, rfl, hcol⟩
  obtain ⟨first, hfirst, hcol⟩ := key
  have hpos : 1 ≤ columnOf l.source l.start := Nat.le_add_left 1 _
  simp only [makeToken, hfirst]
  rw [if_neg (by omega), h.startLine]
  have hcolumn : l.start - first + 1 = columnOf l.source l.start := by omega
  rw [hcolumn]

/-- What a scan that has begun a token gives: the token at its place, and a lexer that goes on
where the token stops, or past an opening brace after it. -/
structure Made (l : Lexer) (opened : Prop) (r : Token × Lexer) : Prop where
  start : r.1.start = l.start
  line : r.1.line = lineOf l.source l.start
  column : r.1.column = columnOf l.source l.start
  stop : l.current ≤ r.1.stop
  kind : r.1.kind ≠ .eof
  source : r.2.source = l.source
  tracked : r.2.Tracked
  next : (¬opened ∧ r.2.current = r.1.stop) ∨
    (opened ∧ r.2.current = r.1.stop + 1 ∧ l.source[r.1.stop]? = some '{')

theorem Made.of_ahead {opened : Prop} {r : Token × Lexer} (k : Ahead l m) (h : Made m opened r) :
    Made l opened r where
  start := h.start.trans k.start
  line := by rw [h.line, k.source, k.start]
  column := by rw [h.column, k.source, k.start]
  stop := Nat.le_trans k.current h.stop
  kind := h.kind
  source := h.source.trans k.source
  tracked := h.tracked
  next := k.source ▸ h.next

theorem made_token (h : Begun l) {kind : TokenKind} (hkind : kind ≠ .eof) :
    Made l False (l.makeToken kind) := by
  rw [makeToken_of h]
  exact ⟨rfl, rfl, rfl, Nat.le_refl _, hkind, rfl, h.tracked, .inl ⟨not_false, rfl⟩⟩

theorem made_error (h : Begun l) (message : String) : Made l False (l.makeError message) :=
  made_token h nofun

theorem Made.congr {p q : Prop} {r : Token × Lexer} (h : Made l p r) (hpq : p ↔ q) :
    Made l q r := propext hpq ▸ h

/-- The text of a string is a token, or an error is. -/
theorem textToken_of (l : Lexer) (quote : Char) (kind : List Char → TokenKind)
    (hkind : ∀ text, kind text ≠ .eof) :
    ∃ kind', kind' ≠ .eof ∧ l.textToken quote kind = l.makeToken kind' := by
  rw [textToken]
  split
  · exact ⟨_, hkind _, rfl⟩
  · next message _ =>
      exact ⟨.error message l.line l.start, TokenKind.noConfusion, rfl⟩

/-- The string goes on to an interpolation. -/
def OpensString (c : Char) (l : Lexer) : Prop := (stringLoop c l.rest l).1 = .interpolation

theorem made_string (h : Begun l) (c : Char) : Made l (OpensString c l) (l.string c) := by
  have hloop := ahead_stringLoop c l.rest l
  obtain ⟨-, hopen⟩ := stringLoop_stops c l.rest l rfl
  unfold Lexer.string OpensString
  generalize stringLoop c l.rest l = s at hloop hopen
  obtain ⟨stop, m⟩ := s
  simp only at hloop hopen ⊢
  cases stop with
  | unterminated =>
      exact (Made.of_ahead hloop (made_error (h.ahead hloop) _)).congr (by simp)
  | quote =>
      have hadv := hloop.trans (ahead_advance m)
      obtain ⟨kind, hkind, htext⟩ := textToken_of m.advance c .literal (by intro _ h; cases h)
      simp only [htext]
      exact (Made.of_ahead hadv (made_token (h.ahead hadv) hkind)).congr (by simp)
  | interpolation =>
      obtain ⟨hdollar, hbrace⟩ := hopen rfl
      have hpush := ahead_push m c
      have hpass : Ahead (m.push c) (m.push c).pass := ahead_pass hdollar (by decide)
      have hinner := (hloop.trans hpush).trans hpass
      have hbegun := h.ahead hinner
      obtain ⟨kind, hkind, htext⟩ :=
        textToken_of (m.push c).pass c .interpolation (by intro _ h; cases h)
      have hskip : Ahead (m.push c).pass (m.push c).pass.pass := ahead_pass hbrace (by decide)
      simp only [htext, makeToken_of hbegun]
      have hplace := (made_token hbegun hkind).of_ahead hinner
      rw [makeToken_of hbegun] at hplace
      exact ⟨hplace.start, hplace.line, hplace.column, hplace.stop, hkind, hplace.source,
        hskip.tracked hbegun.tracked, .inr ⟨trivial, rfl, hinner.source ▸ hbrace⟩⟩

theorem made_radix (h : Begun l) (radix : Nat) (digit : Char → Bool) {kind : Nat → TokenKind}
    (hkind : ∀ n, kind n ≠ .eof) (message : String) :
    Made l False (l.radixNumber radix digit kind message) := by
  have hahead := ahead_advanceWhile digit l.rest l
  unfold radixNumber
  simp only
  split
  · exact .of_ahead hahead (made_token (h.ahead hahead) (hkind _))
  · exact .of_ahead hahead (made_error (h.ahead hahead) _)

theorem made_decimal (h : Begun l) (hasExponent : Bool) : Made l False (l.decimal hasExponent) := by
  unfold decimal
  simp only
  split
  · exact made_token h nofun
  · split
    · exact made_token h nofun
    · exact made_token h nofun

theorem ahead_exponent (l : Lexer) : Ahead l l.exponent := by
  unfold exponent
  simp only
  split
  · exact ((ahead_advance l).trans (ahead_advance _)).trans (ahead_advanceWhile _ _ _)
  · exact (ahead_advance l).trans (ahead_advanceWhile _ _ _)

theorem ahead_fraction (l : Lexer) : Ahead l l.fraction := by
  unfold fraction
  split
  · exact (ahead_advance l).trans (ahead_advance _)
  · exact .refl l

theorem made_decimalNumber (h : Begun l) : Made l False l.decimalNumber := by
  have hdigits := ahead_digits l.rest l
  unfold decimalNumber
  simp only
  split
  · next m hm =>
      have hahead := hdigits.trans (ahead_matchChar hm)
      exact .of_ahead hahead (made_token (h.ahead hahead) nofun)
  · have hmore := (hdigits.trans (ahead_fraction _)).trans
      (ahead_digits (digits l.rest l).fraction.rest _)
    split
    · have hexp := hmore.trans (ahead_exponent _)
      exact .of_ahead hexp (made_decimal (h.ahead hexp) _)
    · exact .of_ahead hmore (made_decimal (h.ahead hmore) _)

theorem made_number (h : Begun l) (first : Char) : Made l False (l.number first) := by
  unfold number
  split
  · split
    · next m hm =>
        have hahead := ahead_matchChar hm
        exact .of_ahead hahead (made_radix (h.ahead hahead) _ _ (by intro _ h; cases h) _)
    · split
      · next m hm =>
          have hahead := ahead_matchChar hm
          exact .of_ahead hahead (made_radix (h.ahead hahead) _ _ (by intro _ h; cases h) _)
      · split
        · next m hm =>
            have hahead := ahead_matchChar hm
            exact .of_ahead hahead (made_radix (h.ahead hahead) _ _ (by intro _ h; cases h) _)
        · exact made_decimalNumber h
  · exact made_decimalNumber h

theorem keywords_ne_eof : ∀ entry ∈ keywords, entry.2 ≠ .eof := by
  intro entry hmem heof
  simp only [keywords, List.mem_cons, List.not_mem_nil, or_false] at hmem
  repeat' obtain rfl | hmem := hmem
  all_goals cases heof

theorem made_identifier (h : Begun l) : Made l False l.identifier := by
  have hahead := ahead_advanceWhile isAlphanumeric l.rest l
  unfold identifier
  simp only
  split
  · next kind hkind =>
      obtain ⟨before, after, hmem, -⟩ := List.lookup_eq_some_iff.mp hkind
      exact .of_ahead hahead (made_token (h.ahead hahead)
        (keywords_ne_eof _ (hmem ▸ List.mem_append_right _ List.mem_cons_self)))
  · exact .of_ahead hahead (made_token (h.ahead hahead) TokenKind.noConfusion)

/-- An operator's tokens do not end the file. -/
def Operator.Plain : Operator → Prop
  | done kind => kind ≠ .eof
  | next _ found other => found.Plain ∧ other.Plain

theorem operators_plain {lexingType : Nat} {c : Char} {operator : Operator}
    (h : operators lexingType c = some operator) : operator.Plain := by
  unfold operators at h
  split at h
  all_goals first
    | (cases h; simp [Operator.Plain])
    | (cases h; split <;> simp [Operator.Plain])
    | cases h

theorem made_operator {operator : Operator} (hplain : operator.Plain) (h : Begun l) :
    Made l False (operator.scan l) := by
  induction operator generalizing l with
  | done kind => exact made_token h hplain
  | next c found other ihf iho =>
      rw [Operator.scan]
      split
      · next m hm =>
          have hahead := ahead_matchChar hm
          exact .of_ahead hahead (ihf hplain.1 (h.ahead hahead))
      · exact iho hplain.2 h

theorem made_docBlock (h : Begun l) : Made l False l.docBlock := by
  have hahead := ahead_docLoop 1 l.rest l
  unfold docBlock
  generalize docLoop 1 l.rest l = r at hahead
  obtain ⟨closed, m⟩ := r
  cases closed with
  | false => exact .of_ahead hahead (made_error (h.ahead hahead) _)
  | true => exact .of_ahead hahead (made_token (h.ahead hahead) TokenKind.noConfusion)

/-- The token that begins with `c` is the text before an interpolation. -/
def OpensFrom (l : Lexer) (c : Char) : Prop :=
  ∃ quote m, l.inString c = some (quote, m) ∧ OpensString quote m

theorem ahead_inString {c quote : Char} (h : l.inString c = some (quote, m)) : Ahead l m := by
  unfold inString at h
  split at h
  · split at h
    · cases h
      exact ⟨rfl, rfl, rfl, Nat.le_refl _, fun h => ⟨h.inside, h.line, h.lines⟩⟩
    · cases h
  · split at h
    · cases h
      exact .refl _
    · cases h

theorem made_scanFrom (h : Begun l) (c : Char) : Made l (OpensFrom l c) (l.scanFrom c) := by
  unfold scanFrom
  split
  · next quote m hin =>
      have hahead := ahead_inString hin
      refine ((made_string (h.ahead hahead) quote).of_ahead hahead).congr ⟨fun hopen => ?_, ?_⟩
      · exact ⟨quote, m, hin, hopen⟩
      · rintro ⟨quote', m', hin', hopen⟩
        cases hin.symm.trans hin'
        exact hopen
  · next hin =>
      have hno : False ↔ OpensFrom l c := by
        refine ⟨False.elim, ?_⟩
        rintro ⟨quote, m, hin', -⟩
        cases hin.symm.trans hin'
      refine Made.congr ?_ hno
      split
      · next operator hop => exact made_operator (operators_plain hop) h
      · split
        · exact made_token h TokenKind.noConfusion
        · split
          · have hahead := ahead_advanceWhile isAlphanumeric l.rest l
            split
            · exact .of_ahead hahead (made_token (h.ahead hahead) TokenKind.noConfusion)
            · exact made_token h TokenKind.noConfusion
          · split
            · split
              · next m hm =>
                  have hahead := ahead_matchChar hm
                  exact .of_ahead hahead (made_docBlock (h.ahead hahead))
              · exact made_operator (by simp [slash, Operator.Plain]) h
            · split
              · have hahead := ahead_advanceWhile (fun c => c != '\n') l.rest l
                exact .of_ahead hahead (made_token (h.ahead hahead) TokenKind.noConfusion)
              · split
                · exact made_number h c
                · split
                  · exact made_identifier h
                  · exact made_error h _

/-- The next scan gives the text before an interpolation. -/
def Opens (l : Lexer) : Prop :=
  ∃ c, l.source[l.begin_.current]? = some c ∧ OpensFrom l.begin_.advance c

theorem advanceWhile_passes {p : Char → Bool} (rest : List Char) (l : Lexer) (h : l.rest = rest)
    (i : Nat) (hi : l.current ≤ i) (hlt : i < (advanceWhile p rest l).current) :
    ∃ c, l.source[i]? = some c ∧ p c = true := by
  induction rest generalizing l with
  | nil => exact absurd hlt (Nat.not_lt.mpr hi)
  | cons c rest ih =>
      rw [advanceWhile] at hlt
      split at hlt
      · next hp =>
          obtain ⟨hget, hrest⟩ := rest_cons h
          obtain ⟨hcur, hahead⟩ := advance_of hget
          obtain rfl | hne := Nat.eq_or_lt_of_le hi
          · exact ⟨c, hget, hp⟩
          · obtain ⟨c', hc', hp'⟩ := ih _ hrest (by omega) hlt
            exact ⟨c', hahead.source ▸ hc', hp'⟩
      · exact absurd hlt (Nat.not_lt.mpr hi)

end Lexer

/-- The characters between two offsets are spaces, tabs and carriage returns. -/
def Blank (source : List Char) (i j : Nat) : Prop :=
  i ≤ j ∧ ∀ k, i ≤ k → k < j → ∃ c, source[k]? = some c ∧ (c = ' ' ∨ c = '\t' ∨ c = '\r')

namespace Lexer

variable {l m : Lexer}

theorem begin_spec (h : l.Tracked) : Begun l.begin_ ∧ l.begin_.source = l.source ∧
    l.begin_.start = l.begin_.current ∧ Blank l.source l.current l.begin_.current := by
  have hahead := ahead_advanceWhile (fun c => c == ' ' || c == '\t' || c == '\r') l.rest l
  have hpass := advanceWhile_passes (p := fun c => c == ' ' || c == '\t' || c == '\r') l.rest l rfl
  have ht := hahead.tracked h
  refine ⟨⟨⟨ht.inside, ht.line, ht.lines⟩, Nat.le_refl _, ht.line⟩, hahead.source, rfl,
    hahead.current, fun k hk hlt => ?_⟩
  obtain ⟨c, hc, hblank⟩ := hpass k hk hlt
  refine ⟨c, hc, ?_⟩
  simpa [or_assoc] using hblank

/-- What a scan gives: the end of the file, or a token that begins after the blanks. -/
theorem scan_spec (h : l.Tracked) :
    (l.begin_.current = l.source.length ∧ l.scan = l.begin_.makeToken .eof) ∨
    (l.begin_.current < l.source.length ∧
      Made l.begin_ l.Opens l.scan ∧ l.begin_.current < l.scan.1.stop) := by
  obtain ⟨hbegun, hsource, hstart, -⟩ := begin_spec h
  have hinside := hbegun.tracked.inside
  rw [hsource] at hinside
  unfold scan Opens
  cases hc : l.source[l.begin_.current]? with
  | none =>
      exact .inl ⟨Nat.le_antisymm hinside (List.getElem?_eq_none_iff.mp hc), rfl⟩
  | some c =>
      obtain ⟨hcur, hahead⟩ := advance_of (l := l.begin_) (c := c) (by rw [hsource]; exact hc)
      have hmade := made_scanFrom (hbegun.ahead hahead) c
      refine .inr ⟨(List.getElem?_eq_some_iff.mp hc).1, ?_, ?_⟩
      · refine (hmade.of_ahead hahead).congr ⟨fun hopen => ⟨c, rfl, hopen⟩, ?_⟩
        rintro ⟨c', hc', hopen⟩
        cases hc'
        exact hopen
      · have hstop := hmade.stop
        rw [hcur] at hstop
        exact hstop

end Lexer

/-- A token has the line and the column of where it begins. -/
def At (source : List Char) (token : Token) : Prop :=
  token.line = lineOf source token.start ∧ token.column = columnOf source token.start

/-- Tokens with only blanks before each, from an offset to the end of the file. `resumes` says
where it goes on after a token. -/
inductive Spread (source : List Char) (resumes : Token → Nat → Prop) : Nat → List Token → Prop
  | eof {i : Nat} {token : Token} : token.kind = .eof → Blank source i token.start →
      token.start = source.length → token.stop = source.length → At source token →
      Spread source resumes i [token]
  | token {i j : Nat} {token : Token} {rest : List Token} : token.kind ≠ .eof →
      Blank source i token.start → token.start < token.stop → At source token →
      resumes token j → Spread source resumes j rest → Spread source resumes i (token :: rest)

/-- Where a token stops. -/
def AtStop (token : Token) (j : Nat) : Prop := j = token.stop

/-- Where a token stops, or past a brace there. -/
def PastBrace (source : List Char) (token : Token) (j : Nat) : Prop :=
  j = token.stop ∨ (j = token.stop + 1 ∧ source[token.stop]? = some '{')

/-- The tokens of a source are at their places, with nothing but blanks between them, and there
is one for each character and one more at most. -/
def Exact (source : List Char) : Prop :=
  ∃ tokens, scanAll (source.length + 1) (.new source) = some tokens ∧
    tokens.length ≤ source.length + 1 ∧ Spread source AtStop 0 tokens

/-- The lexers a run of scans goes through before it meets the end of the file. -/
inductive Scans : Lexer → Lexer → Prop
  | here (l : Lexer) : Scans l l
  | next {l m : Lexer} : l.scan.1.kind ≠ .eof → Scans l.scan.2 m → Scans l m

section Runs

variable {l : Lexer}

theorem scanAll_eof {scans : Nat} (h : l.scan.1.kind = .eof) :
    scanAll (scans + 1) l = some [l.scan.1] := by
  simp only [scanAll, h]

theorem scanAll_token {scans : Nat} (h : l.scan.1.kind ≠ .eof) :
    scanAll (scans + 1) l = (l.scan.1 :: ·) <$> scanAll scans l.scan.2 := by
  simp only [scanAll]

/-- The token at the end of the file. -/
theorem scan_eof (h : l.Tracked) (hend : l.begin_.current = l.source.length)
    (hscan : l.scan = l.begin_.makeToken .eof) (resumes : Token → Nat → Prop) :
    l.scan.1.kind = .eof ∧ Spread l.source resumes l.current [l.scan.1] := by
  obtain ⟨hbegun, hsource, hstart, hblank⟩ := Lexer.begin_spec h
  rw [hscan, Lexer.makeToken_of hbegun]
  refine ⟨rfl, .eof rfl ?_ ?_ hend ⟨by rw [hsource], by rw [hsource]⟩⟩
  · rw [hstart]
    exact hblank
  · rw [hstart]
    exact hend

/-- A token after the blanks, and what follows it. -/
theorem scan_token (h : l.Tracked) {opened : Prop} (hmade : l.begin_.Made opened l.scan)
    (hstop : l.begin_.current < l.scan.1.stop) :
    l.scan.2.Tracked ∧ l.scan.2.source = l.source ∧ Blank l.source l.current l.scan.1.start ∧
      l.scan.1.start < l.scan.1.stop ∧ At l.source l.scan.1 ∧
      l.begin_.current < l.scan.2.current ∧ PastBrace l.source l.scan.1 l.scan.2.current := by
  obtain ⟨-, hsource, hstart, hblank⟩ := Lexer.begin_spec h
  have hbegins : l.scan.1.start = l.begin_.current := hmade.start.trans hstart
  refine ⟨hmade.tracked, hmade.source.trans hsource, hbegins ▸ hblank, hbegins ▸ hstop, ?_, ?_, ?_⟩
  · rw [At, hmade.line, hmade.column, hmade.start, hsource]
    exact ⟨rfl, rfl⟩
  · obtain ⟨-, hnext⟩ | ⟨-, hnext, -⟩ := hmade.next
    · exact hnext ▸ hstop
    · exact hnext ▸ Nat.lt_succ_of_lt hstop
  · exact hmade.next.imp And.right fun hnext => hsource ▸ hnext.2

/-- Scanning comes to the end of the file, and but for braces that open interpolations all is at
its place. -/
theorem scanAll_spread (scans : Nat) (l : Lexer) (h : l.Tracked)
    (hscans : l.source.length - l.current < scans) :
    ∃ tokens, scanAll scans l = some tokens ∧
      tokens.length ≤ l.source.length - l.current + 1 ∧
      Spread l.source (PastBrace l.source) l.current tokens := by
  induction scans generalizing l with
  | zero => exact absurd hscans (Nat.not_lt_zero _)
  | succ scans ih =>
      obtain ⟨hend, hscan⟩ | ⟨hlt, hmade, hstop⟩ := Lexer.scan_spec h
      · obtain ⟨hkind, hspread⟩ := scan_eof h hend hscan (PastBrace l.source)
        exact ⟨_, scanAll_eof hkind, Nat.le_add_left 1 _, hspread⟩
      · obtain ⟨ht, hsource, hblank, hsize, hat, hcur, hpast⟩ := scan_token h hmade hstop
        have hle := hblank.1
        have hstart := hmade.start
        have hinside := ht.inside
        rw [hsource] at hinside
        obtain ⟨-, -, hbegin, hskip⟩ := Lexer.begin_spec h
        have hskipped := hskip.1
        obtain ⟨rest, hrest, hlength, hspread⟩ := ih l.scan.2 ht (by rw [hsource]; omega)
        rw [hsource] at hlength hspread
        refine ⟨l.scan.1 :: rest, ?_, ?_, .token hmade.kind hblank hsize hat hpast hspread⟩
        · rw [scanAll_token hmade.kind, hrest]
          rfl
        · rw [List.length_cons]
          omega

/-- No blanks lie over a brace. -/
theorem not_blank_brace {source : List Char} {i j : Nat} (hbrace : source[i]? = some '{')
    (hlt : i < j) : ¬Blank source i j := by
  rintro ⟨-, hall⟩
  obtain ⟨c, hc, hblank⟩ := hall i (Nat.le_refl i) hlt
  cases hbrace.symm.trans hc
  obtain h | h | h := hblank <;> cases h

theorem Spread.starts {source : List Char} {resumes : Token → Nat → Prop} {i : Nat}
    {tokens : List Token} (h : Spread source resumes i tokens) :
    ∃ token ∈ tokens.head?, Blank source i token.start := by
  cases h with
  | eof _ hblank => exact ⟨_, rfl, hblank⟩
  | token _ hblank => exact ⟨_, rfl, hblank⟩

theorem scan_start (h : l.Tracked) : l.current ≤ l.scan.1.start := by
  obtain ⟨hbegun, -, hstart, hblank⟩ := Lexer.begin_spec h
  obtain ⟨-, hscan⟩ | ⟨-, hmade, -⟩ := Lexer.scan_spec h
  · rw [hscan, Lexer.makeToken_of hbegun]
    exact hstart ▸ hblank.1
  · rw [hmade.start, hstart]
    exact hblank.1

theorem scanAll_head {scans : Nat} {tokens : List Token} (h : scanAll scans l = some tokens) :
    tokens.head? = some l.scan.1 := by
  cases scans with
  | zero => cases h
  | succ scans =>
      by_cases hkind : l.scan.1.kind = .eof
      · rw [scanAll_eof hkind] at h
        cases h
        rfl
      · rw [scanAll_token hkind] at h
        obtain ⟨rest, -, rfl⟩ := Option.map_eq_some_iff.mp h
        rfl

theorem forall_scans (h : l.scan.1.kind ≠ .eof) :
    (∀ m, Scans l m → ¬m.Opens) ↔ ¬l.Opens ∧ ∀ m, Scans l.scan.2 m → ¬m.Opens := by
  constructor
  · exact fun hall => ⟨hall l (.here l), fun m hm => hall m (.next h hm)⟩
  · rintro ⟨hl, hall⟩ m hm
    cases hm with
    | here => exact hl
    | next _ hm => exact hall m hm

/-- The tokens of a run are at their places when none of its scans opens an interpolation. -/
theorem spread_exact_iff (scans : Nat) (l : Lexer) (h : l.Tracked) (tokens : List Token)
    (hrun : scanAll scans l = some tokens) :
    Spread l.source AtStop l.current tokens ↔ ∀ m, Scans l m → ¬m.Opens := by
  induction scans generalizing l tokens with
  | zero => cases hrun
  | succ scans ih =>
      obtain ⟨hend, hscan⟩ | ⟨-, hmade, hstop⟩ := Lexer.scan_spec h
      · obtain ⟨hkind, hspread⟩ := scan_eof h hend hscan AtStop
        rw [scanAll_eof hkind] at hrun
        cases hrun
        refine iff_of_true hspread fun m hm => ?_
        cases hm with
        | here =>
            rintro ⟨c, hc, -⟩
            rw [hend, List.getElem?_length] at hc
            cases hc
        | next hne => exact absurd hkind hne
      · obtain ⟨ht, hsource, hblank, hsize, hat, -, -⟩ := scan_token h hmade hstop
        rw [scanAll_token hmade.kind] at hrun
        obtain ⟨rest, hrest, rfl⟩ := Option.map_eq_some_iff.mp hrun
        rw [forall_scans hmade.kind]
        obtain ⟨hclosed, hnext⟩ | ⟨hopened, hnext, hbrace⟩ := hmade.next
        · have hrests := ih l.scan.2 ht rest hrest
          rw [hsource, hnext] at hrests
          constructor
          · intro hspread
            cases hspread with
            | eof heof => exact absurd heof hmade.kind
            | token _ _ _ _ hresume hspread =>
                subst hresume
                exact ⟨hclosed, hrests.mp hspread⟩
          · rintro ⟨-, hall⟩
            exact .token hmade.kind hblank hsize hat rfl (hrests.mpr hall)
        · refine iff_of_false (fun hspread => ?_) fun hall => hall.1 hopened
          cases hspread with
          | eof heof => exact absurd heof hmade.kind
          | token _ _ _ _ hresume hspread =>
              subst hresume
              obtain ⟨first, hfirst, hover⟩ := hspread.starts
              have hlate := scan_start ht
              rw [scanAll_head hrest] at hfirst
              cases hfirst
              obtain ⟨-, hsource', -, -⟩ := Lexer.begin_spec h
              rw [hsource'] at hbrace
              exact not_blank_brace hbrace (by omega) hover

end Runs

/-- The lexer comes to the end of every source, in one scan for each character and one more at
most, and but for braces that open interpolations all its tokens are at their places. -/
theorem tokens_spread (source : List Char) :
    ∃ tokens, scanAll (source.length + 1) (.new source) = some tokens ∧
      tokens.length ≤ source.length + 1 ∧ Spread source (PastBrace source) 0 tokens :=
  scanAll_spread _ _ (Lexer.tracked_new source) (Nat.lt_succ_self _)

/-- The tokens of a source are exactly at their places, with nothing but blanks between them,
when and only when no scan opens an interpolation. -/
theorem exact_iff_none_opens (source : List Char) :
    Exact source ↔ ∀ l, Scans (.new source) l → ¬l.Opens := by
  obtain ⟨tokens, hrun, hlength, -⟩ := tokens_spread source
  have hiff := spread_exact_iff _ _ (Lexer.tracked_new source) tokens hrun
  constructor
  · rintro ⟨tokens', hrun', -, hspread⟩
    cases hrun.symm.trans hrun'
    exact hiff.mp hspread
  · intro hall
    exact ⟨tokens, hrun, hlength, hiff.mpr hall⟩

/-- `"${a}"`: the first token stops before the brace and the second begins after it. -/
theorem brace_between : scanAll 7 (.new ['"', '$', '{', 'a', '}', '"']) = some [
      ⟨.interpolation [], 1, 1, 0, 2⟩, ⟨.identifier ['a'], 1, 4, 3, 4⟩,
      ⟨.literal [], 1, 5, 4, 6⟩, ⟨.eof, 1, 7, 6, 6⟩] ∧
    ¬Exact ['"', '$', '{', 'a', '}', '"'] := by
  have hrun : scanAll 7 (.new ['"', '$', '{', 'a', '}', '"']) = some [
      ⟨.interpolation [], 1, 1, 0, 2⟩, ⟨.identifier ['a'], 1, 4, 3, 4⟩,
      ⟨.literal [], 1, 5, 4, 6⟩, ⟨.eof, 1, 7, 6, 6⟩] := by rfl
  refine ⟨hrun, ?_⟩
  rintro ⟨tokens, hrun', -, hspread⟩
  cases hrun.symm.trans hrun'
  cases hspread with
  | token _ _ _ _ hresume hspread =>
      subst hresume
      obtain ⟨first, hfirst, hover⟩ := hspread.starts
      cases hfirst
      exact not_blank_brace rfl (by decide) hover

end Zuri.Lexing
