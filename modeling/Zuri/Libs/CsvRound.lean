import Zuri.Libs.Csv

/-!
Records that are read back. A field that is written is quoted or holds nothing that ends it; the
reader takes either back to its field, a record back to its fields, and a text back to its rows.
-/

namespace Zuri.Csv

/-- A text with a character doubled. -/
def doubled (q : Char) (s : Text) : Text := s.flatMap fun c => if c = q then [q, q] else [c]

/-- Nothing in a text ends a field. -/
def Simple (delim q : Char) (s : Text) : Prop :=
  ∀ c ∈ s, c ≠ delim ∧ c ≠ q ∧ c ≠ '\r' ∧ c ≠ '\n'

/-- A field and what is written for it. -/
inductive Encoded (delim q : Char) : Text → Text → Prop
  | quoted (s : Text) : Encoded delim q s (q :: (doubled q s ++ [q]))
  | plain {s : Text} : Simple delim q s → Encoded delim q s s

/-- A dialect whose delimiter and quote are these characters, which are not line breaks. -/
structure Usable (d : Dialect) (delim q : Char) : Prop where
  delimiter : d.delimiter = [delim]
  quote : d.quoteChar = [q]
  differ : delim ≠ q
  delimCr : delim ≠ '\r'
  delimLf : delim ≠ '\n'
  quoteCr : q ≠ '\r'
  quoteLf : q ≠ '\n'
  noTrim : d.trim = false

theorem doubled_cons {q c : Char} (h : c ≠ q) (s : Text) :
    doubled q (c :: s) = c :: doubled q s := by
  rw [doubled, List.flatMap_cons, if_neg h]
  rfl

theorem doubled_quote (q : Char) (s : Text) : doubled q (q :: s) = q :: q :: doubled q s := by
  rw [doubled, List.flatMap_cons, if_pos rfl]
  rfl

def TERMINATORS : List Text := [['\r', '\n'], ['\n'], ['\r']]

theorem skipLf_of_head {rest : Text} (h : rest.head? ≠ some '\n') : skipLf rest = rest := by
  unfold skipLf
  split
  · exact absurd rfl h
  · rfl

/-- A field of this length is not too long. -/
def Fits (d : Dialect) (length : Nat) : Prop := 0 < d.maxFieldSize → (length : Int) ≤ d.maxFieldSize

section
variable {isSpace : Char → Bool} {d : Dialect} {delim q : Char}

theorem Fits.mono {m n : Nat} (h : Fits d n) (hle : m ≤ n) : Fits d m := fun hpos =>
  Int.le_trans (Int.ofNat_le.mpr hle) (h hpos)

theorem sizeGuard_ok {s : Reading} (h : Fits d s.field.length) : sizeGuard d s = .ok () := by
  rw [sizeGuard, if_neg]
  rintro ⟨hpos, hlt⟩
  exact absurd (h hpos) (Int.not_le.mpr hlt)

variable (hd : Usable d delim q)
include hd

theorem Usable.trimmed (s : Reading) : s.trimmed d isSpace = s := by
  rw [Reading.trimmed, hd.noTrim]
  rfl

omit hd in
theorem bind_guard {s : Reading} (h : Fits d s.field.length)
    (next : Unit → Except Error (Option Record)) : sizeGuard d s >>= next = next () := by
  rw [sizeGuard_ok h]
  rfl

section
variable {s : Reading} {c : Char} {rest : Text} (hfit : Fits d s.field.length)
include hfit

omit hd in
theorem parseRecord_start (hs : s.state = .start) : parseRecord isSpace d (c :: rest) s =
    if [c] = d.quoteChar then
      parseRecord isSpace d rest { s.advance.opened s.pos.col with state := .quoted }
    else if [c] = d.delimiter then parseRecord isSpace d rest { s with field := [] }.next
    else if c = '\r' then { s with field := [] }.record (skipLf rest)
    else if c = '\n' then { s with field := [] }.record rest
    else parseRecord isSpace d rest { (s.push c).opened s.pos.col with state := .field } := by
  rw [parseRecord.eq_def]
  simp only
  rw [bind_guard hfit, hs]

omit hd in
theorem parseRecord_field (hs : s.state = .field) : parseRecord isSpace d (c :: rest) s =
    if [c] = d.delimiter then parseRecord isSpace d rest (s.trimmed d isSpace).next
    else if c = '\r' then (s.trimmed d isSpace).record (skipLf rest)
    else if c = '\n' then (s.trimmed d isSpace).record rest
    else if [c] = d.quoteChar then
      if d.lenient then parseRecord isSpace d rest (s.push c)
      else
        s.refuse ("unexpected quote character in unquoted field; " ++
          "use lenient mode to allow this")
    else parseRecord isSpace d rest (s.push c) := by
  rw [parseRecord.eq_def]
  simp only
  rw [bind_guard hfit, hs]

omit hd in
theorem parseRecord_quoted (hs : s.state = .quoted) (hc : c ≠ '\r') :
    parseRecord isSpace d (c :: rest) s =
      if [c] = d.quoteChar then parseRecord isSpace d rest { s.advance with state := .quoteEscape }
      else if c = '\n' then parseRecord isSpace d rest (s.newline ['\n'])
      else parseRecord isSpace d rest (s.push c) := by
  rw [parseRecord.eq_def]
  simp only
  rw [bind_guard hfit, hs]
  simp only [if_neg hc]

omit hd in
theorem parseRecord_escape (hs : s.state = .quoteEscape) : parseRecord isSpace d (c :: rest) s =
    if [c] = d.quoteChar then parseRecord isSpace d rest { s.push c with state := .quoted }
    else if [c] = d.delimiter then parseRecord isSpace d rest s.next
    else if c = '\r' then s.record (skipLf rest)
    else if c = '\n' then s.record rest
    else if d.lenient then parseRecord isSpace d rest { s.push c with state := .field }
    else s.refuse s!"unexpected character after closing quote: '{c}'" := by
  rw [parseRecord.eq_def]
  simp only
  rw [bind_guard hfit, hs]

end

variable {fields : List Text} {field : Text} {pos : Position} {c : Char} {rest : Text}
  (hfit : Fits d field.length)
include hfit

/-- The position a character further. -/
abbrev Position.right (pos : Position) : Position := { pos with col := pos.col + 1 }

theorem read_plain (hc : c ≠ delim ∧ c ≠ q ∧ c ≠ '\r' ∧ c ≠ '\n') :
    parseRecord isSpace d (c :: rest) ⟨fields, field, .field, pos⟩ =
      parseRecord isSpace d rest ⟨fields, field ++ [c], .field, pos.right⟩ := by
  rw [parseRecord_field hfit rfl]
  simp only [hd.delimiter, hd.quote, List.singleton_inj, if_neg hc.1, if_neg hc.2.1,
    if_neg hc.2.2.1, if_neg hc.2.2.2]
  rfl

theorem read_first (hc : c ≠ delim ∧ c ≠ q ∧ c ≠ '\r' ∧ c ≠ '\n') :
    parseRecord isSpace d (c :: rest) ⟨fields, field, .start, pos⟩ =
      parseRecord isSpace d rest
        ⟨fields, field ++ [c], .field, { pos.right with fieldCol := pos.col }⟩ := by
  rw [parseRecord_start hfit rfl]
  simp only [hd.delimiter, hd.quote, List.singleton_inj, if_neg hc.1, if_neg hc.2.1,
    if_neg hc.2.2.1, if_neg hc.2.2.2]
  rfl

theorem read_open : parseRecord isSpace d (q :: rest) ⟨fields, field, .start, pos⟩ =
    parseRecord isSpace d rest
      ⟨fields, field, .quoted, { pos.right with fieldCol := pos.col }⟩ := by
  rw [parseRecord_start hfit rfl]
  simp only [hd.quote, if_true]
  rfl

theorem read_quoted (hc : c ≠ q ∧ c ≠ '\r' ∧ c ≠ '\n') :
    parseRecord isSpace d (c :: rest) ⟨fields, field, .quoted, pos⟩ =
      parseRecord isSpace d rest ⟨fields, field ++ [c], .quoted, pos.right⟩ := by
  rw [parseRecord_quoted hfit rfl hc.2.1]
  simp only [hd.quote, List.singleton_inj, if_neg hc.1, if_neg hc.2.2]
  rfl

theorem read_close : parseRecord isSpace d (q :: rest) ⟨fields, field, .quoted, pos⟩ =
    parseRecord isSpace d rest ⟨fields, field, .quoteEscape, pos.right⟩ := by
  rw [parseRecord_quoted hfit rfl hd.quoteCr]
  simp only [hd.quote, if_true]
  rfl

theorem read_again : parseRecord isSpace d (q :: rest) ⟨fields, field, .quoteEscape, pos⟩ =
    parseRecord isSpace d rest ⟨fields, field ++ [q], .quoted, pos.right⟩ := by
  rw [parseRecord_escape hfit rfl]
  simp only [hd.quote, if_true]
  rfl

/-- The position past a line break in a quoted field. -/
abbrev Position.down (pos : Position) : Position := { pos with col := 1, line := pos.line + 1 }

theorem read_lf : parseRecord isSpace d ('\n' :: rest) ⟨fields, field, .quoted, pos⟩ =
    parseRecord isSpace d rest ⟨fields, field ++ ['\n'], .quoted, pos.down⟩ := by
  rw [parseRecord_quoted hfit rfl (by decide)]
  simp only [hd.quote, List.singleton_inj, if_neg hd.quoteLf.symm]
  rfl

theorem read_crlf : parseRecord isSpace d ('\r' :: '\n' :: rest) ⟨fields, field, .quoted, pos⟩ =
    parseRecord isSpace d rest ⟨fields, field ++ ['\r', '\n'], .quoted, pos.down⟩ := by
  rw [parseRecord.eq_def]
  simp only
  rw [bind_guard hfit]
  simp only [hd.quote, List.singleton_inj, if_neg hd.quoteCr.symm, if_true]
  rfl

theorem read_cr (hrest : rest.head? ≠ some '\n') :
    parseRecord isSpace d ('\r' :: rest) ⟨fields, field, .quoted, pos⟩ =
      parseRecord isSpace d rest ⟨fields, field ++ ['\r'], .quoted, pos.down⟩ := by
  rw [parseRecord.eq_def]
  simp only
  rw [bind_guard hfit]
  simp only [hd.quote, List.singleton_inj, if_neg hd.quoteCr.symm, if_true]
  split
  · exact absurd rfl hrest
  · rfl

/-- The states in which a field may end. -/
def Ending (state : State) (field : Text) : Prop :=
  state = .field ∨ state = .quoteEscape ∨ state = .start ∧ field = []

variable {state : State} (hstate : Ending state field)
include hstate

theorem read_delimiter : parseRecord isSpace d (delim :: rest) ⟨fields, field, state, pos⟩ =
    parseRecord isSpace d rest ⟨fields ++ [field], [], .start, pos.right⟩ := by
  rcases hstate with rfl | rfl | ⟨rfl, rfl⟩
  · rw [parseRecord_field hfit rfl]
    simp only [hd.delimiter, if_true, hd.trimmed]
    rfl
  · rw [parseRecord_escape hfit rfl]
    simp only [hd.delimiter, hd.quote, List.singleton_inj, if_neg hd.differ, if_true]
    rfl
  · rw [parseRecord_start hfit rfl]
    simp only [hd.delimiter, hd.quote, List.singleton_inj, if_neg hd.differ, if_true]
    rfl

theorem read_cr_end : parseRecord isSpace d ('\r' :: rest) ⟨fields, field, state, pos⟩ =
    .ok (some ⟨fields ++ [field], skipLf rest, pos.line⟩) := by
  rcases hstate with rfl | rfl | ⟨rfl, rfl⟩
  · rw [parseRecord_field hfit rfl]
    simp only [hd.delimiter, List.singleton_inj, if_neg hd.delimCr.symm, if_true, hd.trimmed]
    rfl
  · rw [parseRecord_escape hfit rfl]
    simp only [hd.delimiter, hd.quote, List.singleton_inj, if_neg hd.delimCr.symm,
      if_neg hd.quoteCr.symm, if_true]
    rfl
  · rw [parseRecord_start hfit rfl]
    simp only [hd.delimiter, hd.quote, List.singleton_inj, if_neg hd.delimCr.symm,
      if_neg hd.quoteCr.symm, if_true]
    rfl

theorem read_lf_end : parseRecord isSpace d ('\n' :: rest) ⟨fields, field, state, pos⟩ =
    .ok (some ⟨fields ++ [field], rest, pos.line⟩) := by
  have hbreak : ('\n' : Char) ≠ '\r' := by decide
  rcases hstate with rfl | rfl | ⟨rfl, rfl⟩
  · rw [parseRecord_field hfit rfl]
    simp only [hd.delimiter, List.singleton_inj, if_neg hd.delimLf.symm, if_neg hbreak, if_true,
      hd.trimmed]
    rfl
  · rw [parseRecord_escape hfit rfl]
    simp only [hd.delimiter, hd.quote, List.singleton_inj, if_neg hd.delimLf.symm,
      if_neg hd.quoteLf.symm, if_neg hbreak, if_true]
    rfl
  · rw [parseRecord_start hfit rfl]
    simp only [hd.delimiter, hd.quote, List.singleton_inj, if_neg hd.delimLf.symm,
      if_neg hd.quoteLf.symm, if_neg hbreak, if_true]
    rfl

theorem read_terminator {term : Text} (hterm : term ∈ TERMINATORS)
    (hrest : rest.head? ≠ some '\n') :
    parseRecord isSpace d (term ++ rest) ⟨fields, field, state, pos⟩ =
      .ok (some ⟨fields ++ [field], rest, pos.line⟩) := by
  simp only [TERMINATORS, List.mem_cons, List.not_mem_nil, or_false] at hterm
  rcases hterm with rfl | rfl | rfl
  · exact read_cr_end hd hfit hstate
  · exact read_lf_end hd hfit hstate
  · rw [List.singleton_append, read_cr_end hd hfit hstate, skipLf_of_head hrest]

end

section
variable {d : Dialect} {delim q : Char} (hd : Usable d delim q) (isSpace : Char → Bool)
  (fields : List Text)
include hd

theorem doubled_head {s : Text} (h : s.head? ≠ some '\n') (rest : Text) :
    (doubled q s ++ q :: rest).head? ≠ some '\n' := by
  cases s with
  | nil => exact fun heq => hd.quoteLf (Option.some.inj heq)
  | cons c s =>
      by_cases hc : c = q
      · rw [hc, doubled_quote]
        exact fun heq => hd.quoteLf (Option.some.inj heq)
      · rw [doubled_cons hc]
        exact h

/-- What was doubled is read as it was, up to the quote that closes it. -/
theorem quoted_run (n : Nat) (s : Text) (hn : s.length ≤ n) (field : Text) (pos : Position)
    (hfit : Fits d (field ++ s).length) : ∃ pos', ∀ rest,
      parseRecord isSpace d (doubled q s ++ q :: rest) ⟨fields, field, .quoted, pos⟩ =
        parseRecord isSpace d rest ⟨fields, field ++ s, .quoteEscape, pos'⟩ := by
  induction n generalizing s field pos with
  | zero =>
      rw [List.length_eq_zero_iff.mp (Nat.le_zero.mp hn)] at hfit ⊢
      rw [List.append_nil] at hfit ⊢
      exact ⟨_, fun rest => read_close hd hfit⟩
  | succ n ih =>
      have hfield : Fits d field.length := hfit.mono (by simp)
      cases s with
      | nil =>
          rw [List.append_nil]
          exact ⟨_, fun rest => read_close hd hfield⟩
      | cons c s =>
          have hlen : s.length ≤ n := Nat.le_of_succ_le_succ hn
          have hsnoc : field ++ c :: s = (field ++ [c]) ++ s := by simp
          rw [hsnoc] at hfit ⊢
          have hmore : Fits d (field ++ [c]).length := hfit.mono (by simp)
          by_cases hc : c = q
          · subst hc
            obtain ⟨pos', hrun⟩ := ih s hlen (field ++ [c]) pos.right.right hfit
            refine ⟨pos', fun rest => ?_⟩
            rw [doubled_quote, List.cons_append, List.cons_append, read_close hd hfield,
              read_again hd hfield, hrun]
          by_cases hcr : c = '\r'
          · subst hcr
            rw [doubled_cons hc]
            by_cases hlf : s.head? = some '\n'
            · obtain ⟨s, rfl⟩ : ∃ s', s = '\n' :: s' := by
                cases s with
                | nil => cases hlf
                | cons x s =>
                    obtain rfl := Option.some.inj hlf
                    exact ⟨s, rfl⟩
              have hboth : field ++ ['\r'] ++ '\n' :: s = (field ++ ['\r', '\n']) ++ s := by simp
              rw [hboth] at hfit ⊢
              obtain ⟨pos', hrun⟩ := ih s (by simp at hlen; omega) _ pos.down hfit
              refine ⟨pos', fun rest => ?_⟩
              rw [doubled_cons hd.quoteLf.symm, List.cons_append, List.cons_append,
                read_crlf hd hfield, hrun]
            · obtain ⟨pos', hrun⟩ := ih s hlen (field ++ ['\r']) pos.down hfit
              refine ⟨pos', fun rest => ?_⟩
              rw [List.cons_append, read_cr hd hfield (doubled_head hd hlf rest), hrun]
          by_cases hlf : c = '\n'
          · subst hlf
            obtain ⟨pos', hrun⟩ := ih s hlen (field ++ ['\n']) pos.down hfit
            refine ⟨pos', fun rest => ?_⟩
            rw [doubled_cons hc, List.cons_append, read_lf hd hfield, hrun]
          · obtain ⟨pos', hrun⟩ := ih s hlen (field ++ [c]) pos.right hfit
            refine ⟨pos', fun rest => ?_⟩
            rw [doubled_cons hc, List.cons_append, read_quoted hd hfield ⟨hc, hcr, hlf⟩, hrun]

theorem plain_run {s : Text} (hs : Simple delim q s) (field : Text) (pos : Position)
    (hfit : Fits d (field ++ s).length) : ∃ pos', ∀ rest,
      parseRecord isSpace d (s ++ rest) ⟨fields, field, .field, pos⟩ =
        parseRecord isSpace d rest ⟨fields, field ++ s, .field, pos'⟩ := by
  induction s generalizing field pos with
  | nil =>
      rw [List.append_nil]
      exact ⟨pos, fun rest => rfl⟩
  | cons c s ih =>
      have hsnoc : field ++ c :: s = (field ++ [c]) ++ s := by simp
      have hfield : Fits d field.length := hfit.mono (by simp)
      rw [hsnoc] at hfit ⊢
      obtain ⟨pos', hrun⟩ := ih (fun x hx => hs x (List.mem_cons_of_mem _ hx)) _ pos.right hfit
      refine ⟨pos', fun rest => ?_⟩
      rw [List.cons_append, read_plain hd hfield (hs c List.mem_cons_self), hrun]

/-- A field that is written is read up to where it may end. -/
theorem field_run {s e : Text} (he : Encoded delim q s e) (hfit : Fits d s.length)
    (pos : Position) : ∃ state pos', Ending state s ∧ ∀ rest,
      parseRecord isSpace d (e ++ rest) ⟨fields, [], .start, pos⟩ =
        parseRecord isSpace d rest ⟨fields, s, state, pos'⟩ := by
  have hnone : Fits d ([] : Text).length := hfit.mono (Nat.zero_le _)
  cases he with
  | quoted =>
      obtain ⟨pos', hrun⟩ := quoted_run hd isSpace fields s.length s (Nat.le_refl _) []
        { pos.right with fieldCol := pos.col } hfit
      refine ⟨.quoteEscape, pos', .inr (.inl rfl), fun rest => ?_⟩
      rw [List.cons_append, List.append_assoc, read_open hd hnone, List.singleton_append, hrun]
      rfl
  | plain hs =>
      cases s with
      | nil => exact ⟨.start, pos, .inr (.inr ⟨rfl, rfl⟩), fun rest => rfl⟩
      | cons c s =>
          obtain ⟨pos', hrun⟩ := plain_run hd isSpace fields
            (fun x hx => hs x (List.mem_cons_of_mem _ hx)) [c]
            { pos.right with fieldCol := pos.col } hfit
          refine ⟨.field, pos', .inl rfl, fun rest => ?_⟩
          rw [List.cons_append, read_first hd hnone (hs c List.mem_cons_self)]
          exact hrun rest

/-- The fields of a record are written so that they can be read. -/
abbrev EncodedAll (delim q : Char) : List Text → List Text → Prop :=
  List.Forall₂ (Encoded delim q)

theorem record_run {values parts : List Text} (hparts : EncodedAll delim q values parts)
    (hne : values ≠ []) (hfit : ∀ s ∈ values, Fits d s.length) {term : Text}
    (hterm : term ∈ TERMINATORS) (pos : Position) : ∃ line, ∀ rest : Text, rest.head? ≠ some '\n' →
      parseRecord isSpace d ([delim].intercalate parts ++ term ++ rest) ⟨fields, [], .start, pos⟩ =
        .ok (some ⟨fields ++ values, rest, line⟩) := by
  induction hparts generalizing fields pos with
  | nil => exact absurd rfl hne
  | @cons s e values parts he hparts ih =>
      have hs := hfit s List.mem_cons_self
      obtain ⟨state, pos', hstate, hrun⟩ := field_run hd isSpace fields he hs pos
      cases hparts with
      | nil =>
          refine ⟨pos'.line, fun rest hrest => ?_⟩
          rw [List.intercalate_singleton, List.append_assoc, hrun,
            read_terminator hd hs hstate hterm hrest]
      | @cons s' e' values parts he' hparts =>
          obtain ⟨line, hrest⟩ := ih (fields ++ [s]) (List.cons_ne_nil _ _)
            (fun x hx => hfit x (List.mem_cons_of_mem _ hx)) pos'.right
          refine ⟨line, fun rest hhead => ?_⟩
          have hmore := hrest rest hhead
          rw [List.intercalate_cons_cons, List.append_assoc, List.append_assoc, List.append_assoc,
            hrun, List.singleton_append, read_delimiter hd hs hstate, ← List.append_assoc, hmore,
            List.append_assoc, List.singleton_append]

theorem encoded_head {s e : Text} (he : Encoded delim q s e) (hne : e ≠ []) :
    e.head? ≠ some '\n' := by
  cases he with
  | quoted => exact fun heq => hd.quoteLf (Option.some.inj heq)
  | plain hs =>
      cases s with
      | nil => exact absurd rfl hne
      | cons c s => exact fun heq => (hs c List.mem_cons_self).2.2.2 (Option.some.inj heq)

/-- A record that is written does not start with a line feed. -/
theorem record_head {values parts : List Text} (hparts : EncodedAll delim q values parts)
    (hne : values ≠ []) (hblank : values ≠ [[]]) (rest : Text) :
    ([delim].intercalate parts ++ rest).head? ≠ some '\n' := by
  cases hparts with
  | nil => exact absurd rfl hne
  | @cons s e values parts he hparts =>
      by_cases hempty : e = []
      · subst hempty
        cases he
        cases hparts with
        | nil => exact absurd rfl hblank
        | cons _ _ =>
            rw [List.intercalate_cons_cons]
            exact fun heq => hd.delimLf (Option.some.inj heq)
      · have hhead := encoded_head hd he hempty
        obtain ⟨c, e, rfl⟩ := List.exists_cons_of_ne_nil hempty
        cases hparts with
        | nil =>
            rw [List.intercalate_singleton]
            exact hhead
        | cons _ _ =>
            rw [List.intercalate_cons_cons]
            exact hhead

end

/-- A text in which these rows are written. -/
inductive Written (d : Dialect) (delim q : Char) : List (List Text) → Text → Prop
  | nil : Written d delim q [] []
  | cons {values parts : List Text} {rows : List (List Text)} {text : Text} :
      EncodedAll delim q values parts → Written d delim q rows text →
      Written d delim q (values :: rows)
        ([delim].intercalate parts ++ d.lineTerminator ++ text)

theorem written_ne_nil {d : Dialect} (delim : Char) (parts : List Text) (rest : Text)
    (hterm : d.lineTerminator ∈ TERMINATORS) :
    [delim].intercalate parts ++ d.lineTerminator ++ rest ≠ [] := by
  intro hnil
  rw [List.append_eq_nil_iff, List.append_eq_nil_iff] at hnil
  rw [hnil.1.2] at hterm
  revert hterm
  decide

theorem takeRecord_fields {d : Dialect} (hheader : d.hasHeader = false) (s : Parsing) {r : Record}
    (hblank : r.fields ≠ [[]]) : takeRecord d s r =
      .ok { s with rows := s.rows ++ [.fields r.fields], line := r.line + 1, first := false } := by
  rw [takeRecord]
  simp only [if_neg hblank, hheader, Bool.and_false, Bool.false_eq_true, if_false]

section
variable {d : Dialect} {delim q : Char} {rows : List (List Text)} {text : Text}
  (hd : Usable d delim q) (hrows : ∀ values ∈ rows, values ≠ [] ∧ values ≠ [[]])

include hd hrows

theorem written_head (hw : Written d delim q rows text) : text.head? ≠ some '\n' := by
  cases hw with
  | nil => exact nofun
  | cons hparts _ =>
      obtain ⟨hne, hblank⟩ := hrows _ List.mem_cons_self
      rw [List.append_assoc]
      exact record_head hd hparts hne hblank _

theorem parseRows_written (isSpace : Char → Bool) (hheader : d.hasHeader = false)
    (hterm : d.lineTerminator ∈ TERMINATORS)
    (hfit : ∀ values ∈ rows, ∀ s ∈ values, Fits d s.length)
    (hw : Written d delim q rows text) (s : Parsing) :
    parseRows isSpace d (rows.length + 1) text s = some (.ok (s.rows ++ rows.map .fields)) := by
  induction hw generalizing s with
  | nil =>
      rw [parseRows, if_pos rfl, List.map_nil, List.append_nil]
  | @cons values parts rows text hparts hw ih =>
      have hrest := fun v hv => hrows v (List.mem_cons_of_mem _ hv)
      obtain ⟨hne, hblank⟩ := hrows values List.mem_cons_self
      obtain ⟨line, hrun⟩ := record_run hd isSpace [] hparts hne (hfit values List.mem_cons_self)
        hterm { line := s.line }
      have hread := hrun text (written_head hd hrest hw)
      rw [List.length_cons, parseRows, if_neg (written_ne_nil delim parts text hterm), hread]
      simp only [List.nil_append]
      rw [takeRecord_fields hheader s hblank]
      simp only
      rw [ih hrest fun v hv => hfit v (List.mem_cons_of_mem _ hv)]
      simp

end

/-- The characters that a pattern does not take literally. -/
def SPECIAL : List Char := ['\\', '^', '$', '.', '[', '|', '(', ')', '?', '*', '+']

/-- A pattern of one character that is not special matches that character, and the pattern for
numbers can be compiled. -/
structure PatternEngine.Sound (engine : PatternEngine) : Prop where
  literal : ∀ q s, q ∉ SPECIAL → engine.replaceAll [q] ['g'] [q, q] s = .ok (doubled q s)
  numbers : ∀ s, ∃ groups, engine.allMatches NUMBER s = .ok groups

/-- Nothing in a text needs a quote. -/
def Bare (d : Dialect) (s : Text) : Prop :=
  ∀ c ∈ s, [c] ≠ d.delimiter ∧ [c] ≠ d.quoteChar ∧ c ≠ '\r' ∧ c ≠ '\n'

/-- A field that is bare and need not be quoted, or that may be quoted by a plain character. -/
def Kept (d : Dialect) (s : Text) : Prop :=
  (d.quoting ≠ QUOTE_ALL ∧ Bare d s) ∨
    (d.quoting ≠ QUOTE_NONNUMERIC ∧ ∀ q ∈ d.quoteChar, q ∉ SPECIAL)

section
variable {engine : PatternEngine} {d : Dialect} {delim q : Char}

theorem contains_singleton (s : Text) (c : Char) : contains s [c] = true ↔ c ∈ s := by
  rw [contains, decide_eq_true_eq, List.singleton_infix_iff]

variable (hengine : engine.Sound) (hd : Usable d delim q)
include hd

theorem simple_of_bare {s : Text} (h : Bare d s) : Simple delim q s := fun c hc => by
  obtain ⟨hdelim, hquote, hbreak⟩ := h c hc
  rw [hd.delimiter] at hdelim
  rw [hd.quote] at hquote
  exact ⟨fun heq => hdelim (heq ▸ rfl), fun heq => hquote (heq ▸ rfl), hbreak⟩

theorem bare_iff (s : Text) :
    Bare d s ↔ (contains s d.delimiter || contains s d.quoteChar || contains s ['\r'] ||
      contains s ['\n']) = false := by
  rw [← Bool.not_eq_true]
  simp only [hd.delimiter, hd.quote, Bool.or_eq_true, contains_singleton, not_or, Bare,
    List.singleton_inj, ne_eq]
  constructor
  · intro h
    exact ⟨⟨⟨fun hc => (h _ hc).1 rfl, fun hc => (h _ hc).2.1 rfl⟩, fun hc => (h _ hc).2.2.1 rfl⟩,
      fun hc => (h _ hc).2.2.2 rfl⟩
  · rintro ⟨⟨⟨hdelim, hquote⟩, hcr⟩, hlf⟩ c hc
    exact ⟨fun heq => hdelim (heq ▸ hc), fun heq => hquote (heq ▸ hc), fun heq => hcr (heq ▸ hc),
      fun heq => hlf (heq ▸ hc)⟩

include hengine

theorem quote_encoded (hq : q ∉ SPECIAL) (s : Text) :
    ∃ e, quote engine d s = .ok e ∧ Encoded delim q s e := by
  refine ⟨_, ?_, .quoted s⟩
  rw [quote, hd.quote, List.singleton_append, hengine.literal q s hq]
  rfl

/-- Whether a field is quoted, by the strategy. -/
theorem needsQuoting_cases
    (hquoting : d.quoting ∈ [QUOTE_MINIMAL, QUOTE_ALL, QUOTE_NONNUMERIC]) (s : Text) :
    ∃ b, needsQuoting engine d s = .ok b ∧
      ((d.quoting = QUOTE_MINIMAL ∧ (b = false ↔ Bare d s)) ∨ (d.quoting = QUOTE_ALL ∧ b = true) ∨
        (d.quoting = QUOTE_NONNUMERIC ∧ b = false)) := by
  simp only [List.mem_cons, List.not_mem_nil, or_false] at hquoting
  unfold needsQuoting
  rcases hquoting with hq | hq | hq
  · rw [hq, if_neg (by decide), if_neg (by decide)]
    exact ⟨_, rfl, .inl ⟨rfl, (bare_iff hd s).symm⟩⟩
  · rw [hq, if_pos rfl]
    exact ⟨_, rfl, .inr (.inl ⟨rfl, rfl⟩)⟩
  · obtain ⟨groups, hgroups⟩ := hengine.numbers s
    rw [hq, if_neg (by decide), if_pos rfl, hgroups]
    exact ⟨_, rfl, .inr (.inr ⟨rfl, rfl⟩)⟩

theorem encodeField_encoded (hquoting : d.quoting ∈ [QUOTE_MINIMAL, QUOTE_ALL, QUOTE_NONNUMERIC])
    {s : Text} (hkept : Kept d s) :
    ∃ e, encodeField engine d s = .ok e ∧ Encoded delim q s e := by
  obtain ⟨b, hb, hcases⟩ := needsQuoting_cases hengine hd hquoting s
  have hnone : d.quoting ≠ QUOTE_NONE := by
    rintro hq
    rw [hq] at hquoting
    revert hquoting
    decide
  rw [encodeField, if_neg hnone, hb]
  cases b with
  | false =>
      have hbare : Bare d s := by
        rcases hcases with ⟨-, hiff⟩ | ⟨-, hb⟩ | ⟨hq, -⟩
        · exact hiff.mp rfl
        · cases hb
        · exact (hkept.resolve_right fun h => h.1 hq).2
      exact ⟨s, rfl, .plain (simple_of_bare hd hbare)⟩
  | true =>
      have hplain : ∀ q ∈ d.quoteChar, q ∉ SPECIAL := by
        rcases hcases with ⟨-, hiff⟩ | ⟨hq, -⟩ | ⟨-, hb⟩
        · exact (hkept.resolve_left fun h => nomatch hiff.mpr h.2).2
        · exact (hkept.resolve_left fun h => h.1 hq).2
        · cases hb
      rw [hd.quote] at hplain
      exact quote_encoded hengine hd (hplain q (List.mem_singleton_self q)) s

theorem encodeRecord_encoded
    (hquoting : d.quoting ∈ [QUOTE_MINIMAL, QUOTE_ALL, QUOTE_NONNUMERIC]) {values : List Text}
    (hkept : ∀ s ∈ values, Kept d s) : ∃ parts, EncodedAll delim q values parts ∧
      encodeRecord engine d values =
        .ok ([delim].intercalate parts ++ d.lineTerminator) := by
  have hmap : ∃ parts, EncodedAll delim q values parts ∧
      values.mapM (encodeField engine d) = .ok parts := by
    induction values with
    | nil => exact ⟨[], .nil, rfl⟩
    | cons s values ih =>
        obtain ⟨e, he, hencoded⟩ :=
          encodeField_encoded hengine hd hquoting (hkept s List.mem_cons_self)
        obtain ⟨parts, hparts, hmap⟩ := ih fun x hx => hkept x (List.mem_cons_of_mem _ hx)
        refine ⟨e :: parts, .cons hencoded hparts, ?_⟩
        rw [List.mapM_cons, he, hmap]
        rfl
  obtain ⟨parts, hparts, hmap⟩ := hmap
  refine ⟨parts, hparts, ?_⟩
  rw [encodeRecord, hmap, hd.delimiter]
  rfl

theorem stringifyRows_written
    (hquoting : d.quoting ∈ [QUOTE_MINIMAL, QUOTE_ALL, QUOTE_NONNUMERIC])
    {rows : List (List Text)} (hkept : ∀ values ∈ rows, ∀ s ∈ values, Kept d s) :
    ∃ text, stringifyRows engine d rows = .ok text ∧ Written d delim q rows text := by
  induction rows with
  | nil => exact ⟨[], rfl, .nil⟩
  | cons values rows ih =>
      obtain ⟨parts, hparts, hrecord⟩ :=
        encodeRecord_encoded hengine hd hquoting (hkept values List.mem_cons_self)
      obtain ⟨text, htext, hwritten⟩ := ih fun v hv => hkept v (List.mem_cons_of_mem _ hv)
      refine ⟨_, ?_, .cons hparts hwritten⟩
      rw [stringifyRows, hrecord, htext]
      rfl

end

/-- The delimiter and the quote are no line breaks. -/
structure Dialect.Unbroken (d : Dialect) : Prop where
  delimiter : d.delimiter ≠ ['\r'] ∧ d.delimiter ≠ ['\n']
  quote : d.quoteChar ≠ ['\r'] ∧ d.quoteChar ≠ ['\n']

theorem usable_of_valid {d : Dialect} (hvalid : d.validate = .ok ()) (hbreaks : d.Unbroken)
    (htrim : d.trim = false) : ∃ delim q, Usable d delim q := by
  unfold Dialect.validate at hvalid
  split at hvalid
  · cases hvalid
  rename_i hdelimiter
  split at hvalid
  · cases hvalid
  rename_i hquote
  split at hvalid
  · cases hvalid
  rename_i hdiffer
  obtain ⟨delim, hdelim⟩ := List.length_eq_one_iff.mp (not_not.mp hdelimiter)
  obtain ⟨q, hq⟩ := List.length_eq_one_iff.mp (not_not.mp hquote)
  obtain ⟨⟨hdcr, hdlf⟩, hqcr, hqlf⟩ := hbreaks
  rw [hdelim, hq] at hdiffer
  rw [hdelim] at hdcr hdlf
  rw [hq] at hqcr hqlf
  exact ⟨delim, q, hdelim, hq, fun h => hdiffer (h ▸ rfl), fun h => hdcr (h ▸ rfl),
    fun h => hdlf (h ▸ rfl), fun h => hqcr (h ▸ rfl), fun h => hqlf (h ▸ rfl), htrim⟩

theorem parse_stringify (isSpace : Char → Bool) {engine : PatternEngine} (hengine : engine.Sound)
    {d : Dialect} (hvalid : d.validate = .ok ()) (hbreaks : d.Unbroken) (htrim : d.trim = false)
    (hheader : d.hasHeader = false) (hterm : d.lineTerminator ∈ TERMINATORS)
    (hquoting : d.quoting ∈ [QUOTE_MINIMAL, QUOTE_ALL, QUOTE_NONNUMERIC])
    {rows : List (List Text)} (hrows : ∀ values ∈ rows, values ≠ [] ∧ values ≠ [[]])
    (hfits : ∀ values ∈ rows, ∀ s ∈ values, Fits d s.length)
    (hkept : ∀ values ∈ rows, ∀ s ∈ values, Kept d s) :
    ∃ text, stringify engine d rows = .ok text ∧ (hasBom text = false →
      ∃ turns, parse isSpace d turns text = some (.ok (rows.map .fields))) := by
  obtain ⟨delim, q, hd⟩ := usable_of_valid hvalid hbreaks htrim
  obtain ⟨text, htext, hwritten⟩ := stringifyRows_written hengine hd hquoting hkept
  refine ⟨text, ?_, fun hbom => ⟨rows.length + 1, ?_⟩⟩
  · rw [stringify, hvalid]
    exact htext
  · rw [parse, hvalid]
    simp only
    rw [hbom, if_neg (by decide), parseRows_written hd hrows isSpace hheader hterm hfits hwritten]
    rfl

def isBlank (c : Char) : Bool := c ∈ [' ', '\t', '\n', '\r', Char.ofNat 11, Char.ofNat 12]

/-- Patterns of one character, taken literally. -/
def literalEngine : PatternEngine where
  replaceAll := fun pattern _ replacement subject =>
    .ok (subject.flatMap fun c => if [c] = pattern then replacement else [c])
  allMatches := fun _ _ => .ok [(0, [])]

theorem literalEngine_sound : literalEngine.Sound where
  literal := fun q s _ => by simp only [literalEngine, doubled, List.singleton_inj]
  numbers := fun _ => ⟨_, rfl⟩

/-- A record with a delimiter and a quote in it, and one with spaces, a line break and nothing. -/
def sampleRows : List (List Text) :=
  [["a".toList, "b,\"c".toList], [" x\r\n".toList, []]]

theorem parse_stringify_sample :
    ∃ text, stringify literalEngine {} sampleRows = .ok text ∧ (hasBom text = false →
      ∃ turns, parse isBlank {} turns text = some (.ok (sampleRows.map .fields))) :=
  parse_stringify isBlank literalEngine_sound rfl ⟨by decide, by decide⟩ rfl rfl (by decide)
    (by decide) (by decide) (fun _ _ _ _ hpos => absurd hpos (by decide))
    fun _ _ _ _ => .inr ⟨by decide, List.forall_iff_forall_mem.mp (by decide)⟩

/-- With a header, the first record names the fields of the others. -/
theorem header_differs :
    Dialect.validate { hasHeader := true } = .ok () ∧
      stringify literalEngine { hasHeader := true } [[['a']], [['b']]] =
        .ok ['a', '\r', '\n', 'b', '\r', '\n'] ∧
      ∀ turns, parse isBlank { hasHeader := true } turns ['a', '\r', '\n', 'b', '\r', '\n'] ≠
        some (.ok [.fields [['a']], .fields [['b']]]) := by
  refine ⟨rfl, rfl, fun turns h => ?_⟩
  have hfew : ∀ n < 3,
      parse isBlank { hasHeader := true } n ['a', '\r', '\n', 'b', '\r', '\n'] = none
    | 0, _ => rfl
    | 1, _ => rfl
    | 2, _ => rfl
  by_cases hturns : turns < 3
  · rw [hfew turns hturns] at h
    cases h
  · obtain ⟨turns, rfl⟩ := Nat.exists_eq_add_of_le' (Nat.not_lt.mp hturns)
    have hrun : parse isBlank { hasHeader := true } (turns + 3) ['a', '\r', '\n', 'b', '\r', '\n'] =
        some (.ok [.dict [(['a'], some ['b'])]]) := rfl
    rw [hrun] at h
    cases h

end Zuri.Csv
