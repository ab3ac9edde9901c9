import Zuri.Libs.CsvScan

/-!
What each of the three readings makes of the records of a text.
-/

namespace Zuri.Csv

section
variable {isSpace : Char → Bool} {d : Dialect} {text : Text} {line : Int} {entries : List Entry}
  {stop : Option Error}

/-- Parsing has its header, or needs none. -/
def Parsing.Ready (d : Dialect) (s : Parsing) (headers : Option (List Text)) : Prop :=
  (d.hasHeader = false ∧ headers = none) ∨
    (d.hasHeader = true ∧ s.first = false ∧ s.headers = headers ∧ headers ≠ none)

theorem takeRecord_empty (s : Parsing) {r : Record} (hempty : r.fields = [[]]) :
    takeRecord d s r = .ok { s with line := r.line + 1 } := by
  rw [takeRecord, if_pos hempty]

theorem takeRecord_long {s : Parsing} {h : List Text} (hready : s.Ready d (some h)) {r : Record}
    (hne : r.fields ≠ [[]]) (hlong : TooLong d h ⟨false, r.fields, r.line⟩) :
    ∃ e, takeRecord d s r = .error e ∧ e.place = (r.line, -1) := by
  rcases hready with ⟨-, hnone⟩ | ⟨hheader, hfirst, hheaders, -⟩
  · cases hnone
  · have hlong : (h.length < r.fields.length && !d.lenient) = true := by
      simpa [TooLong] using hlong
    rw [takeRecord]
    simp only [if_neg hne, hfirst, hheader, hheaders, hlong, Bool.false_and, Bool.false_eq_true,
      if_false, if_true]
    exact ⟨_, rfl, by rw [Error.place, Int.add_sub_cancel]⟩

theorem takeRecord_fits {s : Parsing} {headers : Option (List Text)} (hready : s.Ready d headers)
    {r : Record} (blank : Bool) (hne : r.fields ≠ [[]])
    (hfits : ∀ h ∈ headers, ¬ TooLong d h ⟨blank, r.fields, r.line⟩) :
    ∃ s', takeRecord d s r = .ok s' ∧ s'.Ready d headers ∧ s'.line = r.line + 1 ∧
      s'.rows = s.rows ++ [rowOf headers ⟨blank, r.fields, r.line⟩] := by
  rcases hready with ⟨hheader, rfl⟩ | ⟨hheader, hfirst, hheaders, hsome⟩
  · rw [takeRecord_fields hheader s hne]
    exact ⟨_, rfl, .inl ⟨hheader, rfl⟩, rfl, rfl⟩
  · obtain ⟨h, rfl⟩ := Option.ne_none_iff_exists'.1 hsome
    have hnot : (h.length < r.fields.length && !d.lenient) = false := by
      simpa [TooLong] using hfits h rfl
    rw [takeRecord]
    simp only [if_neg hne, hfirst, hheader, hheaders, hnot, Bool.false_and, Bool.false_eq_true,
      if_false]
    exact ⟨_, rfl, .inr ⟨hheader, rfl, rfl, hsome⟩, rfl, rfl⟩

theorem parseRows_ok {turns : Nat} {s s' : Parsing} {r : Record} (hne : text ≠ [])
    (hread : parseRecord isSpace d text { pos := { line := s.line } } = .ok (some r))
    (htake : takeRecord d s r = .ok s') :
    parseRows isSpace d (turns + 1) text s = parseRows isSpace d turns r.rest s' := by
  rw [parseRows, if_neg hne]
  simp only [hread, htake]

theorem parseRows_error {turns : Nat} {s : Parsing} {r : Record} {e : Error} (hne : text ≠ [])
    (hread : parseRecord isSpace d text { pos := { line := s.line } } = .ok (some r))
    (htake : takeRecord d s r = .error e) :
    parseRows isSpace d (turns + 1) text s = some (.error e) := by
  rw [parseRows, if_neg hne]
  simp only [hread, htake]

/-- Parsing, once it has its header, makes rows of the records that are not empty. -/
theorem parseRows_ready {headers : Option (List Text)} {s : Parsing}
    (hready : s.Ready d headers) (hline : s.line = line)
    (hscans : Scans isSpace d text line entries stop) {turns : Nat} (hturns : text.length < turns) :
    ∃ x, parseRows isSpace d turns text s = some x ∧
      outcome x = (rowsOf d headers stop (entries.filter (!·.empty))).map (s.rows ++ ·) := by
  induction hscans generalizing turns s with
  | done line =>
    obtain ⟨turns, rfl⟩ : ∃ n, turns = n + 1 := ⟨turns - 1, by omega⟩
    exact ⟨.ok s.rows, by rw [parseRows, if_pos rfl], congrArg Except.ok (List.append_nil _).symm⟩
  | @fails text line e hne hread =>
    obtain ⟨turns, rfl⟩ : ∃ n, turns = n + 1 := ⟨turns - 1, by omega⟩
    refine ⟨.error e, ?_, rfl⟩
    rw [parseRows, if_neg hne, hline]
    simp only [hread]
  | @record text line r entries stop hne hread hrest ih =>
    obtain ⟨turns, rfl⟩ : ∃ n, turns = n + 1 := ⟨turns - 1, by omega⟩
    have hlen := (record_rest hread).1
    have hpos := List.length_pos_iff.2 hne
    have hturns : r.rest.length < turns := by omega
    subst hline
    by_cases hempty : r.fields = [[]]
    · obtain ⟨x, hx, hrows⟩ := ih (s := { s with line := r.line + 1 }) hready rfl hturns
      refine ⟨x, by rw [parseRows_ok hne hread (takeRecord_empty s hempty), hx], ?_⟩
      rw [hrows, List.filter_cons_of_neg (by simp [Entry.empty, hempty])]
    · rw [List.filter_cons_of_pos (by simp [Entry.empty, hempty])]
      by_cases hlong : ∃ h ∈ headers, TooLong d h ⟨startsBlank text, r.fields, r.line⟩
      · obtain ⟨h, hh, hlong⟩ := hlong
        rw [Option.mem_def] at hh
        subst hh
        obtain ⟨e, htake, hplace⟩ := takeRecord_long hready hempty hlong
        refine ⟨.error e, parseRows_error hne hread htake, ?_⟩
        rw [rowsOf_tooLong hlong]
        exact congrArg Except.error hplace
      · have hfits : ∀ h ∈ headers, ¬ TooLong d h ⟨startsBlank text, r.fields, r.line⟩ :=
          fun h hh hl => hlong ⟨h, hh, hl⟩
        obtain ⟨s', htake, hready', hline', hrows'⟩ := takeRecord_fits hready _ hempty hfits
        obtain ⟨x, hx, hrows⟩ := ih hready' hline' hturns
        refine ⟨x, by rw [parseRows_ok hne hread htake, hx], ?_⟩
        rw [hrows, rowsOf_cons hfits, hrows']
        cases rowsOf d headers stop (entries.filter (!·.empty)) with
        | error p => rfl
        | ok rows => simp [Except.map]

/-- The rows of records of which the first is the header. -/
def headedRows (d : Dialect) (stop : Option Error) : List Entry → Outcome (List Row)
  | [] => rowsOf d none stop []
  | h :: rest => rowsOf d (some h.fields) stop (rest.filter (!·.empty))

/-- Parsing takes the first record that is not empty for its header. -/
theorem parseRows_header {s : Parsing} (hheader : d.hasHeader = true) (hfirst : s.first = true)
    (hnone : s.rows = []) (hline : s.line = line)
    (hscans : Scans isSpace d text line entries stop) {turns : Nat} (hturns : text.length < turns) :
    ∃ x, parseRows isSpace d turns text s = some x ∧
      outcome x = headedRows d stop (entries.dropWhile Entry.empty) := by
  induction hscans generalizing turns s with
  | done line =>
    obtain ⟨turns, rfl⟩ : ∃ n, turns = n + 1 := ⟨turns - 1, by omega⟩
    exact ⟨.ok s.rows, by rw [parseRows, if_pos rfl], by rw [hnone]; rfl⟩
  | @fails text line e hne hread =>
    obtain ⟨turns, rfl⟩ : ∃ n, turns = n + 1 := ⟨turns - 1, by omega⟩
    refine ⟨.error e, ?_, rfl⟩
    rw [parseRows, if_neg hne, hline]
    simp only [hread]
  | @record text line r entries stop hne hread hrest ih =>
    obtain ⟨turns, rfl⟩ : ∃ n, turns = n + 1 := ⟨turns - 1, by omega⟩
    have hlen := (record_rest hread).1
    have hpos := List.length_pos_iff.2 hne
    have hturns : r.rest.length < turns := by omega
    subst hline
    by_cases hempty : r.fields = [[]]
    · obtain ⟨x, hx, hrows⟩ := ih (s := { s with line := r.line + 1 }) hfirst hnone rfl hturns
      refine ⟨x, by rw [parseRows_ok hne hread (takeRecord_empty s hempty), hx], ?_⟩
      rw [hrows, List.dropWhile_cons_of_pos (by simp [Entry.empty, hempty])]
    · have htake : takeRecord d s r =
          .ok { s with line := r.line + 1, headers := some r.fields, first := false } := by
        rw [takeRecord]
        simp only [if_neg hempty, hfirst, hheader, Bool.and_self, if_true]
      obtain ⟨x, hx, hrows⟩ := parseRows_ready
        (s := { s with line := r.line + 1, headers := some r.fields, first := false })
        (.inr ⟨hheader, rfl, rfl, Option.some_ne_none _⟩) rfl hrest hturns
      refine ⟨x, by rw [parseRows_ok hne hread htake, hx], ?_⟩
      rw [List.dropWhile_cons_of_neg (by simp [Entry.empty, hempty])]
      simp only [hrows, hnone, headedRows]
      cases rowsOf d (some r.fields) stop (entries.filter (!·.empty)) with
      | error p => rfl
      | ok rows => rfl

/-- The header a reader's records are under. -/
def Reader.under (d : Dialect) (reader : Reader) : Option (List Text) :=
  if d.hasHeader then reader.headers else none

theorem skipBlankLines_length (text : Text) (line : Int) :
    (skipBlankLines text line).1.length ≤ text.length := by
  induction text, line using skipBlankLines.induct with
  | case1 rest line ih =>
    rw [skipBlankLines]
    exact Nat.le_trans ih (by simp only [List.length_cons]; omega)
  | case2 rest line hnext ih =>
    rw [skipBlankLines.eq_2 _ _ hnext]
    exact Nat.le_succ_of_le ih
  | case3 rest line ih =>
    rw [skipBlankLines]
    exact Nat.le_succ_of_le ih
  | case4 text line hpair hcr hlf => rw [skipBlankLines.eq_4 _ _ hpair hcr hlf]

theorem skipBlankLines_twice (text : Text) (line : Int) :
    skipBlankLines (skipBlankLines text line).1 (skipBlankLines text line).2 =
      skipBlankLines text line := by
  induction text, line using skipBlankLines.induct with
  | case1 rest line ih =>
    rw [skipBlankLines]
    exact ih
  | case2 rest line hnext ih =>
    rw [skipBlankLines.eq_2 _ _ hnext]
    exact ih
  | case3 rest line ih =>
    rw [skipBlankLines]
    exact ih
  | case4 text line hpair hcr hlf =>
    have hskip := skipBlankLines.eq_4 _ line hpair hcr hlf
    rw [hskip, hskip]

section
variable (isSpace : Char → Bool) (d : Dialect)

/-- The records that a reader finds in what it has left, and the error that ends them. It steps
over line breaks before each. -/
inductive Finds : Text → Int → List Entry → Option Error → Prop where
  | done {text : Text} {line after : Int} : skipBlankLines text line = ([], after) →
      Finds text line [] none
  | fails {text left : Text} {line after : Int} {e : Error} :
      skipBlankLines text line = (left, after) → left ≠ [] →
      parseRecord isSpace d left { pos := { line := after } } = .error e →
      Finds text line [] (some e)
  | record {text left : Text} {line after : Int} {r : Record} {entries : List Entry}
      {stop : Option Error} : skipBlankLines text line = (left, after) → left ≠ [] →
      parseRecord isSpace d left { pos := { line := after } } = .ok (some r) →
      Finds r.rest (r.line + 1) entries stop →
      Finds text line (⟨false, r.fields, r.line⟩ :: entries) stop

/-- The records that a reader finds, for as many turns as there are. -/
def find : Nat → Text → Int → List Entry × Option Error
  | 0, _, _ => ([], none)
  | turns + 1, text, line =>
      let left := skipBlankLines text line
      if left.1 = [] then ([], none)
      else
        match parseRecord isSpace d left.1 { pos := { line := left.2 } } with
        | .error e => ([], some e)
        | .ok none => ([], none)
        | .ok (some r) =>
            let rest := find turns r.rest (r.line + 1)
            (⟨false, r.fields, r.line⟩ :: rest.1, rest.2)

end

theorem find_finds {turns : Nat} {text : Text} (line : Int) (hturns : text.length < turns) :
    Finds isSpace d text line (find isSpace d turns text line).1
      (find isSpace d turns text line).2 := by
  induction turns generalizing text line with
  | zero => exact absurd hturns (Nat.not_lt_zero _)
  | succ turns ih =>
    have hlen := skipBlankLines_length text line
    rw [find]
    generalize hleft : skipBlankLines text line = left at hlen
    obtain ⟨left, after⟩ := left
    simp only at hlen
    by_cases hne : left = []
    · subst hne
      exact .done hleft
    · simp only [if_neg hne]
      cases hread : parseRecord isSpace d left { pos := { line := after } } with
      | error e => exact .fails hleft hne hread
      | ok result =>
        cases result with
        | none => exact absurd hread (parseRecord_some hne)
        | some r =>
          have hrest := (record_rest hread).1
          have hpos := List.length_pos_iff.2 hne
          exact .record hleft hne hread (ih (r.line + 1) (by omega))

theorem Finds.skipped (hfinds : Finds isSpace d text line entries stop) :
    Finds isSpace d (skipBlankLines text line).1 (skipBlankLines text line).2 entries stop := by
  have htwice := skipBlankLines_twice text line
  cases hfinds with
  | done hleft => exact .done (htwice.trans hleft)
  | fails hleft hne hread => exact .fails (htwice.trans hleft) hne hread
  | record hleft hne hread hrest => exact .record (htwice.trans hleft) hne hread hrest

theorem filter_dropWhile (entries : List Entry) :
    (entries.dropWhile (·.blank)).filter (!·.blank) = entries.filter (!·.blank) := by
  induction entries with
  | nil => rfl
  | cons e rest ih =>
    cases hb : e.blank with
    | true => rw [List.dropWhile_cons_of_pos hb, ih, List.filter_cons_of_neg (by simp [hb])]
    | false => rw [List.dropWhile_cons_of_neg (by simp [hb])]

/-- Where line breaks are neither delimiters nor quotes, a reader finds the records that are not
blank. -/
theorem Scans.finds (hbreaks : d.Unbroken) (hscans : Scans isSpace d text line entries stop) :
    Finds isSpace d text line (entries.filter (!·.blank)) stop := by
  induction hlength : text.length using Nat.strong_induction_on generalizing text line entries with
  | _ n ih =>
    obtain ⟨hskip, hstarts, hlen⟩ := hscans.skip hbreaks
    rw [← filter_dropWhile]
    generalize hleft : skipBlankLines text line = left at hskip hstarts hlen
    obtain ⟨left, after⟩ := left
    generalize entries.dropWhile (·.blank) = kept at hskip
    cases hskip with
    | done => exact .done hleft
    | fails hne hread => exact .fails hleft hne hread
    | @record _ _ r kept _ hne hread hrest =>
      have hshort : r.rest.length ≤ left.length - 1 := (record_rest hread).1
      have hpos : 0 < left.length := List.length_pos_iff.2 hne
      simp only at hlen hstarts
      rw [List.filter_cons_of_pos (by simp [hstarts]), hstarts]
      have hless : r.rest.length < n := by omega
      exact .record hleft hne hread (ih r.rest.length hless hrest rfl)

/-- What reading a record comes to, given the records that are left. -/
def ReadsNext (isSpace : Char → Bool) (d : Dialect) (reader : Reader) :
    List Entry → Option Error → Prop
  | [], none => ∃ after, reader.readRecord isSpace d = .ok (none, after) ∧ after.done = true
  | [], some e => reader.readRecord isSpace d = .error e
  | e :: rest, stop =>
      ((∃ h ∈ reader.under d, TooLong d h e) →
        ∃ err, reader.readRecord isSpace d = .error err ∧ err.place = (e.line, -1)) ∧
      ((∀ h ∈ reader.under d, ¬ TooLong d h e) →
        ∃ after, reader.readRecord isSpace d = .ok (some (rowOf (reader.under d) e), after) ∧
          after.done = false ∧ after.under d = reader.under d ∧
          Finds isSpace d after.text after.line rest stop ∧
          after.text.length < reader.text.length)

variable {reader : Reader}

/-- Reading a record steps over the line breaks before it. -/
theorem readRecord_finds (hdone : reader.done = false)
    (hfinds : Finds isSpace d reader.text reader.line entries stop) :
    ReadsNext isSpace d reader entries stop := by
  have hlen := skipBlankLines_length reader.text reader.line
  cases hfinds with
  | @done _ _ line hafter =>
    refine ⟨{ reader with text := [], line := line, done := true }, ?_, rfl⟩
    simp only [Reader.readRecord, hdone, hafter, Bool.false_eq_true, if_false, if_true]
  | fails hafter hne hread =>
    simp only [ReadsNext, Reader.readRecord, hdone, hafter, Bool.false_eq_true, if_false,
      if_neg hne, hread]
  | @record _ text _ line r left _ hafter hne hread hrest =>
    have hshort : r.rest.length ≤ text.length - 1 := (record_rest hread).1
    have hpos : 0 < text.length := List.length_pos_iff.2 hne
    rw [hafter] at hlen
    simp only at hlen
    have hafterLen : r.rest.length < reader.text.length := by omega
    refine ⟨?_, ?_⟩
    · rintro ⟨h, hh, hlong⟩
      have hlong' : (h.length < r.fields.length && !d.lenient) = true := by
        simpa [TooLong] using hlong
      simp only [Reader.under] at hh
      split at hh
      · next hheader =>
        rw [Option.mem_def] at hh
        simp only [Reader.readRecord, hdone, hafter, Bool.false_eq_true, if_false, if_neg hne,
          hread, hheader, hh, Reader.toDict, hlong', if_true]
        exact ⟨_, rfl, by rw [Error.place, Int.add_sub_cancel]⟩
      · cases hh
    · intro hfits
      cases hheader : d.hasHeader with
      | false =>
        have hunder : reader.under d = none := by rw [Reader.under, hheader]; rfl
        simp only [Reader.readRecord, hdone, hafter, Bool.false_eq_true, if_false, if_neg hne,
          hread, hheader, hunder]
        exact ⟨_, rfl, rfl, by rw [Reader.under, hheader]; rfl, hrest, hafterLen⟩
      | true =>
        have hunder : reader.under d = reader.headers := by rw [Reader.under, hheader]; rfl
        rw [hunder] at hfits ⊢
        cases hheaders : reader.headers with
        | none =>
          simp only [Reader.readRecord, hdone, hafter, Bool.false_eq_true, if_false, if_neg hne,
            hread, hheader, hheaders]
          exact ⟨_, rfl, rfl, by rw [Reader.under, hheader]; rfl, hrest, hafterLen⟩
        | some h =>
          have hnot : (h.length < r.fields.length && !d.lenient) = false := by
            simpa [TooLong] using hfits h hheaders
          simp only [Reader.readRecord, hdone, hafter, Bool.false_eq_true, if_false, if_neg hne,
            hread, hheader, hheaders, Reader.toDict, hnot]
          exact ⟨_, rfl, rfl, by rw [Reader.under, hheader]; rfl, hrest, hafterLen⟩

/-- `read_all` makes rows of the records that the reader finds. -/
theorem readAll_rows {turns : Nat} (hdone : reader.done = false)
    (hfinds : Finds isSpace d reader.text reader.line entries stop)
    (hturns : reader.text.length < turns) :
    ∃ x, reader.readAll isSpace d turns = some x ∧
      outcome x = rowsOf d (reader.under d) stop entries := by
  induction turns generalizing reader entries with
  | zero => exact absurd hturns (Nat.not_lt_zero _)
  | succ turns ih =>
    have hread := readRecord_finds hdone hfinds
    rw [Reader.readAll]
    cases entries with
    | nil =>
      cases stop with
      | none =>
        obtain ⟨after, hread, -⟩ := hread
        exact ⟨.ok [], by rw [hread], rfl⟩
      | some e =>
        have hread : reader.readRecord isSpace d = .error e := hread
        exact ⟨.error e, by rw [hread], rfl⟩
    | cons e rest =>
      obtain ⟨hlong, hfits⟩ := hread
      by_cases hl : ∃ h ∈ reader.under d, TooLong d h e
      · obtain ⟨err, hread, hplace⟩ := hlong hl
        obtain ⟨h, hh, hl⟩ := hl
        rw [Option.mem_def] at hh
        refine ⟨.error err, by rw [hread], ?_⟩
        rw [hh, rowsOf_tooLong hl]
        exact congrArg Except.error hplace
      · have hno : ∀ h ∈ reader.under d, ¬ TooLong d h e := fun h hh h' => hl ⟨h, hh, h'⟩
        obtain ⟨after, hread, hdone', hunder, hrest, hlen⟩ := hfits hno
        obtain ⟨x, hx, hrows⟩ := ih hdone' hrest (by omega)
        refine ⟨x.map (rowOf (reader.under d) e :: ·), by rw [hread]; simp only [hx]; rfl, ?_⟩
        rw [rowsOf_cons hno, ← hunder, ← hrows]
        cases x <;> rfl

theorem forEach_done (turns : Nat) (hdone : reader.done = true) :
    reader.forEach isSpace d turns = none := by
  induction turns with
  | zero => rfl
  | succ turns ih =>
    have hread : reader.readRecord isSpace d = .ok (none, reader) := by
      rw [Reader.readRecord, hdone]
      rfl
    rw [Reader.forEach]
    simp only [Reader.key, hread, ih, Option.map_none]

/-- A `for` loop ends only by an error. -/
theorem forEach_endless {rows : List Row} (turns : Nat) (hdone : reader.done = false)
    (hfinds : Finds isSpace d reader.text reader.line entries stop)
    (hrows : rowsOf d (reader.under d) stop entries = .ok rows) :
    reader.forEach isSpace d turns = none := by
  induction turns generalizing reader entries rows with
  | zero => rfl
  | succ turns ih =>
    have hread := readRecord_finds hdone hfinds
    rw [Reader.forEach]
    cases entries with
    | nil =>
      cases stop with
      | none =>
        obtain ⟨after, hread, hafter⟩ := hread
        simp only [Reader.key, hread, forEach_done turns hafter, Option.map_none]
      | some e => cases hrows
    | cons e rest =>
      obtain ⟨-, hfits⟩ := hread
      by_cases hl : ∃ h ∈ reader.under d, TooLong d h e
      · obtain ⟨h, hh, hl⟩ := hl
        rw [Option.mem_def] at hh
        rw [hh, rowsOf_tooLong hl] at hrows
        cases hrows
      · have hno : ∀ h ∈ reader.under d, ¬ TooLong d h e := fun h hh h' => hl ⟨h, hh, h'⟩
        obtain ⟨after, hread, hdone', hunder, hrest, -⟩ := hfits hno
        rw [rowsOf_cons hno] at hrows
        cases htail : rowsOf d (reader.under d) stop rest with
        | error p => rw [htail] at hrows; cases hrows
        | ok rest =>
          simp only [Reader.key, hread, ih hdone' hrest (hunder ▸ htail), Option.map_none]

/-- A `for` loop raises what `read_all` does. -/
theorem forEach_raises {turns : Nat} {p : Int × Int} (hdone : reader.done = false)
    (hfinds : Finds isSpace d reader.text reader.line entries stop)
    (hturns : reader.text.length < turns)
    (herror : rowsOf d (reader.under d) stop entries = .error p) :
    ∃ e, reader.forEach isSpace d turns = some (.error e) ∧ e.place = p := by
  induction turns generalizing reader entries with
  | zero => exact absurd hturns (Nat.not_lt_zero _)
  | succ turns ih =>
    have hread := readRecord_finds hdone hfinds
    rw [Reader.forEach]
    cases entries with
    | nil =>
      cases stop with
      | none => cases herror
      | some e =>
        cases herror
        have hread : reader.readRecord isSpace d = .error e := hread
        exact ⟨e, by simp only [Reader.key, hread], rfl⟩
    | cons e rest =>
      obtain ⟨hlong, hfits⟩ := hread
      by_cases hl : ∃ h ∈ reader.under d, TooLong d h e
      · obtain ⟨err, hread, hplace⟩ := hlong hl
        obtain ⟨h, hh, hl⟩ := hl
        rw [Option.mem_def] at hh
        rw [hh, rowsOf_tooLong hl] at herror
        cases herror
        exact ⟨err, by simp only [Reader.key, hread], hplace⟩
      · have hno : ∀ h ∈ reader.under d, ¬ TooLong d h e := fun h hh h' => hl ⟨h, hh, h'⟩
        obtain ⟨after, hread, hdone', hunder, hrest, hlen⟩ := hfits hno
        rw [rowsOf_cons hno] at herror
        cases htail : rowsOf d (reader.under d) stop rest with
        | ok rows => rw [htail] at herror; cases herror
        | error q =>
          rw [htail] at herror
          cases herror
          obtain ⟨err, hloop, hplace⟩ := ih hdone' hrest (by omega) (hunder ▸ htail)
          exact ⟨err, by simp only [Reader.key, hread, hloop, Option.map_some]; rfl, hplace⟩

end

end Zuri.Csv
