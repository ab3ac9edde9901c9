import Zuri.Libs.CsvReader
import Zuri.Libs.CsvRound

/-!
The records of a text, one after the other. A record that is read leaves less of the text, is not
without fields, and is on a line that is not before its own.
-/

namespace Zuri.Csv

/-- The line and column that an error names. -/
def Error.place : Error → Int × Int
  | .csv _ line column => (line, column)
  | .native _ => (-1, -1)

/-- A record of a text, and whether a line break stands where it begins. -/
structure Entry where
  blank : Bool
  fields : List Text
  line : Int

def startsBlank (text : Text) : Bool := text.head? == some '\r' || text.head? == some '\n'

section
variable (isSpace : Char → Bool) (d : Dialect)

/-- The records of a text, and the error that ends them. -/
inductive Scans : Text → Int → List Entry → Option Error → Prop where
  | done (line : Int) : Scans [] line [] none
  | fails {text : Text} {line : Int} {e : Error} : text ≠ [] →
      parseRecord isSpace d text { pos := { line := line } } = .error e →
      Scans text line [] (some e)
  | record {text : Text} {line : Int} {r : Record} {entries : List Entry} {stop : Option Error} :
      text ≠ [] → parseRecord isSpace d text { pos := { line := line } } = .ok (some r) →
      Scans r.rest (r.line + 1) entries stop →
      Scans text line (⟨startsBlank text, r.fields, r.line⟩ :: entries) stop

/-- The records of a text, for as many turns as there are. -/
def scan : Nat → Text → Int → List Entry × Option Error
  | 0, _, _ => ([], none)
  | turns + 1, text, line =>
      if text = [] then ([], none)
      else
        match parseRecord isSpace d text { pos := { line := line } } with
        | .error e => ([], some e)
        | .ok none => ([], none)
        | .ok (some r) =>
            let rest := scan turns r.rest (r.line + 1)
            (⟨startsBlank text, r.fields, r.line⟩ :: rest.1, rest.2)

end

section
variable {isSpace : Char → Bool} {d : Dialect}

theorem skipLf_length (rest : Text) : (skipLf rest).length ≤ rest.length := by
  cases rest with
  | nil => exact Nat.le_refl _
  | cons c rest =>
    by_cases hc : c = '\n'
    · subst hc
      exact Nat.le_succ _
    · rw [skipLf_of_head (by simpa using hc)]

/-- What reading a record comes to. -/
def Reads (text : Text) (s : Reading) : Except Error (Option Record) → Prop
  | .error e => s.pos.line ≤ e.place.1
  | .ok none => text = [] ∧ s.state = .start ∧ s.fields = []
  | .ok (some r) => r.rest.length ≤ text.length - 1 ∧ r.fields ≠ [] ∧ s.pos.line ≤ r.line

theorem Reads.cons {c : Char} {rest text : Text} {s s' : Reading}
    {result : Except Error (Option Record)} (hreads : Reads rest s' result)
    (hlength : rest.length ≤ text.length) (hline : s.pos.line ≤ s'.pos.line)
    (hmoved : s'.state ≠ .start ∨ s'.fields ≠ []) : Reads (c :: text) s result := by
  match result with
  | .error e => exact Int.le_trans hline hreads
  | .ok none =>
    rcases hmoved with hstate | hfields
    · exact absurd hreads.2.1 hstate
    · exact absurd hreads.2.2 hfields
  | .ok (some r) =>
    obtain ⟨hrest, hne, hle⟩ := hreads
    refine ⟨?_, hne, Int.le_trans hline hle⟩
    rw [List.length_cons]
    omega

theorem reads_record {c : Char} {rest text : Text} {s s' : Reading}
    (hlength : rest.length ≤ text.length) (hline : s.pos.line ≤ s'.pos.line) :
    Reads (c :: text) s (s'.record rest) :=
  ⟨hlength, by simp, hline⟩

theorem trimmed_pos (s : Reading) :
    (s.trimmed d isSpace).pos = s.pos ∧ (s.trimmed d isSpace).state = s.state := by
  rw [Reading.trimmed]
  split <;> exact ⟨rfl, rfl⟩

theorem finish_reads (s : Reading) : Reads [] s (finish isSpace d s) := by
  have hend : ∀ s' : Reading, s.pos.line ≤ s'.pos.line → Reads [] s (s'.record []) :=
    fun s' hline => ⟨Nat.le_refl 0, by simp, hline⟩
  rw [finish]
  cases hs : s.state with
  | start =>
    by_cases hfields : s.fields.length = 0
    · simp only [hfields, if_true]
      exact ⟨rfl, hs, List.length_eq_zero_iff.1 hfields⟩
    · simp only [hfields, if_false]
      exact hend _ (Int.le_refl _)
  | field => exact hend _ (Int.le_of_eq (congrArg Position.line (trimmed_pos s).1.symm))
  | quoteEscape => exact hend _ (Int.le_refl _)
  | quoted =>
    by_cases hl : d.lenient = true
    · simp only [hl, if_true]
      exact hend _ (Int.le_refl _)
    · simp only [hl]
      exact Int.le_refl _

theorem parseRecord_reads (text : Text) (s : Reading) :
    Reads text s (parseRecord isSpace d text s) := by
  obtain ⟨n, hn⟩ : ∃ n, text.length ≤ n := ⟨_, Nat.le_refl _⟩
  induction n generalizing text s with
  | zero =>
    obtain rfl := List.length_eq_zero_iff.1 (Nat.le_zero.1 hn)
    rw [parseRecord]
    exact finish_reads s
  | succ n ih =>
    cases text with
    | nil =>
      rw [parseRecord]
      exact finish_reads s
    | cons c rest =>
      have hrest : rest.length ≤ n := Nat.le_of_succ_le_succ hn
      have hle := Nat.le_refl rest.length
      have hgo : ∀ s' : Reading, s.pos.line ≤ s'.pos.line → s'.state ≠ .start ∨ s'.fields ≠ [] →
          Reads (c :: rest) s (parseRecord isSpace d rest s') :=
        fun s' hline hmoved => (ih rest s' hrest).cons hle hline hmoved
      have hend : ∀ s' : Reading, s.pos.line ≤ s'.pos.line →
          Reads (c :: rest) s (s'.record rest) ∧ Reads (c :: rest) s (s'.record (skipLf rest)) :=
        fun s' hline => ⟨reads_record hle hline, reads_record (skipLf_length rest) hline⟩
      have htrim : s.pos.line ≤ (s.trimmed d isSpace).pos.line :=
        Int.le_of_eq (congrArg Position.line (trimmed_pos s).1.symm)
      have hself := Int.le_refl s.pos.line
      rw [parseRecord.eq_def]
      simp only
      cases hguard : sizeGuard d s with
      | error e =>
        rw [sizeGuard] at hguard
        split at hguard
        · cases hguard
          exact hself
        · cases hguard
      | ok u =>
        cases hstate : s.state with
        | start =>
          simp only [bind, Except.bind]
          split
          · exact hgo _ hself (.inl (by simp))
          · split
            · exact hgo _ hself (.inr (by simp [Reading.next]))
            · split
              · exact (hend ⟨s.fields, [], .start, s.pos⟩ hself).2
              · split
                · exact (hend ⟨s.fields, [], .start, s.pos⟩ hself).1
                · exact hgo _ hself (.inl (by simp))
        | field =>
          simp only [bind, Except.bind]
          split
          · exact hgo _ htrim (.inr (by simp [Reading.next]))
          · split
            · exact (hend _ htrim).2
            · split
              · exact (hend _ htrim).1
              · split
                · split
                  · exact hgo _ hself (.inl (by simp [Reading.push, Reading.advance, hstate]))
                  · exact hself
                · exact hgo _ hself (.inl (by simp [Reading.push, Reading.advance, hstate]))
        | quoted =>
          have hnew : ∀ part : Text, s.pos.line ≤ (s.newline part).pos.line ∧
              (s.newline part).state ≠ .start := fun part => by
            simp only [Reading.newline, hstate]
            exact ⟨by omega, by simp⟩
          simp only [bind, Except.bind]
          split
          · exact hgo _ hself (.inl (by simp))
          · split
            · split
              · next rest' =>
                exact (ih rest' _ (by simp only [List.length_cons] at hrest; omega)).cons
                  (Nat.le_succ _) (hnew _).1 (.inl (hnew _).2)
              · exact hgo _ (hnew _).1 (.inl (hnew _).2)
            · split
              · exact hgo _ (hnew _).1 (.inl (hnew _).2)
              · exact hgo _ hself (.inl (by simp [Reading.push, Reading.advance, hstate]))
        | quoteEscape =>
          simp only [bind, Except.bind]
          split
          · exact hgo _ hself (.inl (by simp))
          · split
            · exact hgo _ hself (.inr (by simp [Reading.next]))
            · split
              · exact (hend _ hself).2
              · split
                · exact (hend _ hself).1
                · split
                  · exact hgo _ hself (.inl (by simp))
                  · exact hself

/-- A record is read in every text that is left, or an error is met. -/
theorem parseRecord_some {text : Text} {line : Int} (hne : text ≠ []) :
    parseRecord isSpace d text { pos := { line := line } } ≠ .ok none := by
  intro hnone
  have hreads := @parseRecord_reads isSpace d text { pos := { line := line } }
  rw [hnone] at hreads
  exact hne hreads.1

theorem record_rest {text : Text} {line : Int} {r : Record}
    (hread : parseRecord isSpace d text { pos := { line := line } } = .ok (some r)) :
    r.rest.length ≤ text.length - 1 ∧ r.fields ≠ [] ∧ line ≤ r.line := by
  have hreads := @parseRecord_reads isSpace d text { pos := { line := line } }
  rw [hread] at hreads
  exact hreads

theorem scan_scans {turns : Nat} {text : Text} (line : Int) (hturns : text.length < turns) :
    Scans isSpace d text line (scan isSpace d turns text line).1
      (scan isSpace d turns text line).2 := by
  induction turns generalizing text line with
  | zero => exact absurd hturns (Nat.not_lt_zero _)
  | succ turns ih =>
    rw [scan]
    by_cases hne : text = []
    · subst hne
      exact .done line
    · rw [if_neg hne]
      cases hread : parseRecord isSpace d text { pos := { line := line } } with
      | error e => exact .fails hne hread
      | ok result =>
        cases result with
        | none => exact absurd hread (parseRecord_some hne)
        | some r =>
          have hrest := (record_rest hread).1
          have hlen := List.length_pos_iff.2 hne
          exact .record hne hread (ih (r.line + 1) (by omega))

section
variable {text : Text} {line : Int} {entries : List Entry} {stop : Option Error}

theorem Scans.entry (hscans : Scans isSpace d text line entries stop) :
    (∀ e ∈ entries, e.fields ≠ [] ∧ line ≤ e.line) ∧ ∀ e, stop = some e → line ≤ e.place.1 := by
  induction hscans with
  | done line => exact ⟨fun e hmem => absurd hmem List.not_mem_nil, fun e he => by cases he⟩
  | @fails text line e _ hread =>
    refine ⟨fun e hmem => absurd hmem List.not_mem_nil, fun e' he => ?_⟩
    obtain rfl := Option.some.inj he
    have hreads := @parseRecord_reads isSpace d text { pos := { line := line } }
    rw [hread] at hreads
    exact hreads
  | @record text line r entries stop _ hread _ ih =>
    obtain ⟨-, hfields, hline⟩ := record_rest hread
    refine ⟨fun e hmem => ?_, fun e he => ?_⟩
    · rcases List.mem_cons.1 hmem with rfl | hmem
      · exact ⟨hfields, hline⟩
      · have := (ih.1 e hmem).2
        exact ⟨(ih.1 e hmem).1, by omega⟩
    · have := ih.2 e he
      omega

/-- The records after one are on later lines. -/
theorem Scans.later {e : Entry} (hscans : Scans isSpace d text line (e :: entries) stop) :
    (∀ e' ∈ entries, e.line < e'.line) ∧ ∀ err, stop = some err → e.line < err.place.1 := by
  cases hscans with
  | record _ _ hrest =>
    obtain ⟨hentries, hstop⟩ := hrest.entry
    refine ⟨fun e' hmem => ?_, fun err herr => ?_⟩
    · exact Int.lt_of_add_one_le (hentries e' hmem).2
    · exact Int.lt_of_add_one_le (hstop err herr)

variable (hbreaks : d.Unbroken)
include hbreaks

theorem parseRecord_cr (rest : Text) (line : Int) :
    parseRecord isSpace d ('\r' :: rest) { pos := { line := line } } =
      .ok (some ⟨[[]], skipLf rest, line⟩) := by
  have hq : ['\r'] ≠ d.quoteChar := fun h => hbreaks.quote.1 h.symm
  have hd : ['\r'] ≠ d.delimiter := fun h => hbreaks.delimiter.1 h.symm
  rw [parseRecord_start (fun _ => by simp; omega) rfl]
  simp only [hq, hd, if_false, if_true, Reading.record, List.nil_append]

theorem parseRecord_lf (rest : Text) (line : Int) :
    parseRecord isSpace d ('\n' :: rest) { pos := { line := line } } =
      .ok (some ⟨[[]], rest, line⟩) := by
  have hq : ['\n'] ≠ d.quoteChar := fun h => hbreaks.quote.2 h.symm
  have hd : ['\n'] ≠ d.delimiter := fun h => hbreaks.delimiter.2 h.symm
  have hne : '\n' ≠ '\r' := by decide
  rw [parseRecord_start (fun _ => by simp; omega) rfl]
  simp only [hq, hd, hne, if_false, if_true, Reading.record, List.nil_append]

/-- Stepping over blank lines is reading the blank records there. -/
theorem Scans.skip (hscans : Scans isSpace d text line entries stop) :
    Scans isSpace d (skipBlankLines text line).1 (skipBlankLines text line).2
        (entries.dropWhile (·.blank)) stop ∧
      startsBlank (skipBlankLines text line).1 = false ∧
      (skipBlankLines text line).1.length ≤ text.length := by
  induction text, line using skipBlankLines.induct generalizing entries with
  | case1 rest line ih =>
    cases hscans with
    | fails _ hread => rw [parseRecord_cr hbreaks] at hread; cases hread
    | record _ hread hrest =>
      rw [parseRecord_cr hbreaks] at hread
      cases hread
      obtain ⟨hskip, hstarts, hlen⟩ := ih hrest
      rw [skipBlankLines]
      exact ⟨hskip, hstarts, Nat.le_trans hlen (by simp only [List.length_cons]; omega)⟩
  | case2 rest line hnext ih =>
    cases hscans with
    | fails _ hread => rw [parseRecord_cr hbreaks] at hread; cases hread
    | record _ hread hrest =>
      rw [parseRecord_cr hbreaks, skipLf_of_head (by
        intro hhead
        cases rest with
        | nil => cases hhead
        | cons c rest =>
          simp only [List.head?_cons, Option.some.injEq] at hhead
          exact hnext rest (by rw [hhead]))] at hread
      cases hread
      obtain ⟨hskip, hstarts, hlen⟩ := ih hrest
      rw [skipBlankLines.eq_2 _ _ hnext]
      exact ⟨hskip, hstarts, Nat.le_succ_of_le hlen⟩
  | case3 rest line ih =>
    cases hscans with
    | fails _ hread => rw [parseRecord_lf hbreaks] at hread; cases hread
    | record _ hread hrest =>
      rw [parseRecord_lf hbreaks] at hread
      cases hread
      obtain ⟨hskip, hstarts, hlen⟩ := ih hrest
      rw [skipBlankLines]
      exact ⟨hskip, hstarts, Nat.le_succ_of_le hlen⟩
  | case4 text line hpair hcr hlf =>
    have hskip : skipBlankLines text line = (text, line) := skipBlankLines.eq_4 _ _ hpair hcr hlf
    have hstarts : startsBlank text = false := by
      cases text with
      | nil => rfl
      | cons c rest =>
        simp only [startsBlank, List.head?_cons, Bool.or_eq_false_iff, beq_eq_false_iff_ne, ne_eq,
          Option.some.injEq]
        exact ⟨fun h => hcr rest (by rw [h]), fun h => hlf rest (by rw [h])⟩
    have hdrop : entries.dropWhile (·.blank) = entries := by
      cases hscans with
      | done => rfl
      | fails => rfl
      | record => exact List.dropWhile_cons_of_neg (by simpa using hstarts)
    rw [hskip, hdrop]
    exact ⟨hscans, hstarts, Nat.le_refl _⟩

/-- A blank record is one empty field. -/
theorem Scans.blank_empty (hscans : Scans isSpace d text line entries stop) :
    ∀ e ∈ entries, e.blank = true → e.fields = [[]] := by
  induction hscans with
  | done => exact fun e hmem => absurd hmem List.not_mem_nil
  | fails => exact fun e hmem => absurd hmem List.not_mem_nil
  | @record text line r entries stop hne hread _ ih =>
    intro e hmem hblank
    rcases List.mem_cons.1 hmem with rfl | hmem
    · obtain ⟨c, rest, rfl⟩ := List.exists_cons_of_ne_nil hne
      simp only [startsBlank, List.head?_cons, Bool.or_eq_true, beq_iff_eq, Option.some.injEq]
        at hblank
      rcases hblank with rfl | rfl
      · rw [parseRecord_cr hbreaks] at hread
        cases hread
        rfl
      · rw [parseRecord_lf hbreaks] at hread
        cases hread
        rfl
    · exact ih e hmem hblank

end

end

/-- What reading a text gives: its rows, or the place of the error that is raised. -/
abbrev Outcome (α : Type) := Except (Int × Int) α

def outcome {α : Type} (result : Except Error α) : Outcome α := result.mapError Error.place

namespace Entry

/-- One field, which is empty. -/
def empty (e : Entry) : Bool := e.fields == [[]]

/-- An empty record that does not begin with a line break. -/
def hollow (e : Entry) : Bool := e.empty && !e.blank

end Entry

section
variable (d : Dialect)

/-- A record has more fields than the header, and that is not let pass. -/
def TooLong (headers : List Text) (e : Entry) : Prop :=
  headers.length < e.fields.length ∧ d.lenient = false

/-- An error is raised among the records under a header, or at their end. -/
def Raises (headers : Option (List Text)) (entries : List Entry) (stop : Option Error) : Prop :=
  stop.isSome = true ∨ ∃ h ∈ headers, ∃ e ∈ entries, TooLong d h e

/-- The row of a record under a header. -/
def rowOf (headers : Option (List Text)) (e : Entry) : Row :=
  match headers with
  | some h => .dict (headed h e.fields)
  | none => .fields e.fields

/-- The rows of records under a header. -/
def rowsOf (headers : Option (List Text)) (stop : Option Error) :
    List Entry → Outcome (List Row)
  | [] =>
      match stop with
      | some e => .error e.place
      | none => .ok []
  | e :: rest =>
      match headers with
      | some h =>
          if h.length < e.fields.length && !d.lenient then .error (e.line, -1)
          else (rowsOf headers stop rest).map (.dict (headed h e.fields) :: ·)
      | none => (rowsOf headers stop rest).map (.fields e.fields :: ·)

end

section
variable {isSpace : Char → Bool} {d : Dialect} {headers : Option (List Text)}
  {entries : List Entry} {stop : Option Error}

theorem rowsOf_cons {e : Entry} {rest : List Entry} (hfits : ∀ h ∈ headers, ¬ TooLong d h e) :
    rowsOf d headers stop (e :: rest) =
      (rowsOf d headers stop rest).map (rowOf headers e :: ·) := by
  cases headers with
  | none => rfl
  | some h =>
    have hnot : ¬ (h.length < e.fields.length && !d.lenient) = true := by
      simpa [TooLong] using hfits h rfl
    rw [rowsOf, if_neg hnot]
    rfl

theorem rowsOf_tooLong {h : List Text} {e : Entry} {rest : List Entry} (hlong : TooLong d h e) :
    rowsOf d (some h) stop (e :: rest) = .error (e.line, -1) := by
  rw [rowsOf, if_pos (by simpa [TooLong] using hlong)]

/-- Without an error there is a row for every record. -/
theorem rowsOf_ok (hnot : ¬ Raises d headers entries stop) :
    ∃ rows, rowsOf d headers stop entries = .ok rows ∧ rows.length = entries.length := by
  have hstop : stop = none := by
    cases stop with
    | none => rfl
    | some e => exact absurd (.inl rfl) hnot
  have hfits : ∀ e ∈ entries, ∀ h ∈ headers, ¬ TooLong d h e :=
    fun e hmem h hh hlong => hnot (.inr ⟨h, hh, e, hmem, hlong⟩)
  clear hnot
  induction entries with
  | nil =>
    subst hstop
    exact ⟨[], rfl, rfl⟩
  | cons e rest ih =>
    obtain ⟨rows, hrows, hlength⟩ := ih fun e hmem => hfits e (List.mem_cons_of_mem _ hmem)
    refine ⟨rowOf headers e :: rows, ?_, by simp [hlength]⟩
    rw [rowsOf_cons (hfits e List.mem_cons_self), hrows]
    rfl

/-- An error is met where it is, whichever records that fit are left out before it, and whatever
the header of the same width. -/
theorem rowsOf_raises {headers₂ : Option (List Text)} (keep₁ keep₂ : Entry → Bool)
    (hraises : Raises d headers entries stop)
    (hwidth : ∀ e ∈ entries, (∃ h ∈ headers, TooLong d h e) ↔ ∃ h ∈ headers₂, TooLong d h e)
    (hkeep : ∀ e ∈ entries, (∃ h ∈ headers, TooLong d h e) → keep₁ e = true ∧ keep₂ e = true) :
    ∃ p, rowsOf d headers stop (entries.filter keep₁) = .error p ∧
      rowsOf d headers₂ stop (entries.filter keep₂) = .error p := by
  induction entries with
  | nil =>
    rcases hraises with hstop | ⟨h, -, e, hmem, -⟩
    · obtain ⟨e, rfl⟩ := Option.isSome_iff_exists.1 hstop
      exact ⟨e.place, rfl, rfl⟩
    · exact absurd hmem List.not_mem_nil
  | cons e rest ih =>
    by_cases hlong : ∃ h ∈ headers, TooLong d h e
    · obtain ⟨hkeep₁, hkeep₂⟩ := hkeep e List.mem_cons_self hlong
      obtain ⟨h₂, hh₂, hlong₂⟩ := (hwidth e List.mem_cons_self).1 hlong
      obtain ⟨h, hh, hlong⟩ := hlong
      rw [Option.mem_def] at hh hh₂
      subst hh hh₂
      rw [List.filter_cons_of_pos hkeep₁, List.filter_cons_of_pos hkeep₂]
      exact ⟨_, rowsOf_tooLong hlong, rowsOf_tooLong hlong₂⟩
    · have hrest : Raises d headers rest stop := by
        refine hraises.imp id ?_
        rintro ⟨h, hh, e', hmem, hlong'⟩
        rcases List.mem_cons.1 hmem with rfl | hmem
        · exact absurd ⟨h, hh, hlong'⟩ hlong
        · exact ⟨h, hh, e', hmem, hlong'⟩
      obtain ⟨p, hp₁, hp₂⟩ := ih hrest (fun e hmem => hwidth e (List.mem_cons_of_mem _ hmem))
        fun e hmem => hkeep e (List.mem_cons_of_mem _ hmem)
      have hlong₂ : ¬ ∃ h ∈ headers₂, TooLong d h e :=
        fun h => hlong ((hwidth e List.mem_cons_self).2 h)
      have hstep : ∀ {hs : Option (List Text)} {keep : Entry → Bool},
          (¬ ∃ h ∈ hs, TooLong d h e) → rowsOf d hs stop (rest.filter keep) = .error p →
          rowsOf d hs stop ((e :: rest).filter keep) = .error p := by
        intro hs keep hnot hp
        rw [List.filter_cons]
        split
        · rw [rowsOf_cons (fun h hh hlong => hnot ⟨h, hh, hlong⟩), hp]
          rfl
        · exact hp
      exact ⟨p, hstep hlong hp₁, hstep hlong₂ hp₂⟩

/-- Leaving out the empty records and leaving out the blank ones comes to the same when an error is
raised, or when no empty record is not blank. -/
theorem rowsOf_filters (hwide : ∀ h ∈ headers, h ≠ [])
    (hblank : ∀ e ∈ entries, e.blank = true → e.fields = [[]]) :
    rowsOf d headers stop (entries.filter (!·.empty)) =
        rowsOf d headers stop (entries.filter (!·.blank)) ↔
      Raises d headers entries stop ∨ ∀ e ∈ entries, e.hollow = false := by
  have hshort : ∀ e : Entry, e.fields = [[]] → ∀ h ∈ headers, ¬ TooLong d h e := by
    intro e he h hh hlong
    have hpos := List.length_pos_iff.2 (hwide h hh)
    have hlt := hlong.1
    rw [he, List.length_singleton] at hlt
    omega
  by_cases hraises : Raises d headers entries stop
  · refine ⟨fun _ => .inl hraises, fun _ => ?_⟩
    obtain ⟨p, hp₁, hp₂⟩ := rowsOf_raises (!·.empty) (!·.blank) hraises
      (fun _ _ => Iff.rfl) fun e hmem hlong => by
        obtain ⟨h, hh, hlong⟩ := hlong
        have hne : e.fields ≠ [[]] := fun he => hshort e he h hh hlong
        refine ⟨by simpa [Entry.empty] using hne, ?_⟩
        simpa using fun hb => hne (hblank e hmem hb)
    rw [hp₁, hp₂]
  · have hfewer : ∀ keep : Entry → Bool, ¬ Raises d headers (entries.filter keep) stop := by
      intro keep hless
      refine hraises (hless.imp id ?_)
      rintro ⟨h, hh, e, hmem, hlong⟩
      exact ⟨h, hh, e, List.mem_of_mem_filter hmem, hlong⟩
    have hsub : entries.filter (!·.empty) = (entries.filter (!·.blank)).filter (!·.empty) := by
      rw [List.filter_filter]
      refine List.filter_congr fun e hmem => ?_
      cases hb : e.blank with
      | false => simp
      | true => simp [Entry.empty, hblank e hmem hb]
    constructor
    · intro hsame
      obtain ⟨rows₁, hrows₁, hlength₁⟩ := rowsOf_ok (hfewer (!·.empty))
      obtain ⟨rows₂, hrows₂, hlength₂⟩ := rowsOf_ok (hfewer (!·.blank))
      rw [hrows₁, hrows₂] at hsame
      cases hsame
      rw [hlength₁, hsub] at hlength₂
      refine .inr fun e hmem => ?_
      have hall := List.length_filter_eq_length_iff.1 hlength₂
      cases hb : e.blank with
      | true => simp [Entry.hollow, hb]
      | false =>
        have he := hall e (List.mem_filter.2 ⟨hmem, by simp [hb]⟩)
        simp only [Bool.not_eq_true'] at he
        simp [Entry.hollow, he]
    · rintro (hno | hsolid)
      · exact absurd hno hraises
      · congr 1
        refine List.filter_congr fun e hmem => ?_
        have he := hsolid e hmem
        cases hb : e.blank with
        | true => simp [Entry.empty, hblank e hmem hb]
        | false =>
          simp only [Entry.hollow, hb, Bool.not_false, Bool.and_true] at he
          simp [he]

end

end Zuri.Csv
