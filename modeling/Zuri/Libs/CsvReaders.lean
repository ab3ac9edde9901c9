import Mathlib.Data.List.TakeWhile
import Zuri.Libs.CsvRuns

/-!
Whether `parse`, `read_all` and a `for` loop give the same for a text. They do when the text has
no record that one of them takes for a blank line and another does not.
-/

namespace Zuri.Csv

section
variable (isSpace : Char → Bool) (d : Dialect)

def withoutBom (text : Text) : Text := if hasBom text then text.drop 3 else text

/-- What `parse` gives for a text. -/
def parsed (text : Text) : Option (Outcome (List Row)) :=
  (parse isSpace d (text.length + 2) text).map outcome

/-- What `read_all` gives for a file of a text. -/
def allRead (text : Text) : Option (Outcome (List Row)) :=
  match Reader.new isSpace d text with
  | .error e => some (.error e.place)
  | .ok reader => (reader.readAll isSpace d (text.length + 2)).map outcome

/-- What a `for` loop gives for a file of a text, if it ends within as many turns. -/
def iterated (turns : Nat) (text : Text) : Option (Outcome (List (Option Row))) :=
  match Reader.new isSpace d text with
  | .error e => some (.error e.place)
  | .ok reader => (reader.forEach isSpace d turns).map outcome

/-- `parse` and `read_all` end, with the same rows, or with an error in the same place. -/
def SameRows (text : Text) : Prop :=
  ∃ o, parsed isSpace d text = some o ∧ allRead isSpace d text = some o

/-- The loop ends as well, with the same rows, or with an error in the same place. -/
def Agree (text : Text) : Prop :=
  ∃ o, parsed isSpace d text = some o ∧ allRead isSpace d text = some o ∧
    ∃ turns, iterated isSpace d turns text = some (o.map (·.map some))

/-- The records of a text, after its mark of byte order. -/
def records (text : Text) : List Entry × Option Error :=
  scan isSpace d (text.length + 1) (withoutBom text) 1

/-- The header that a reader takes from a text, the records it finds after it, and the error that
ends them. -/
def found (text : Text) : Option (List Text) × List Entry × Option Error :=
  let body := withoutBom text
  if d.hasHeader then
    if body = [] then (none, [], none)
    else
      match parseRecord isSpace d body { pos := { line := 1 } } with
      | .error e => (none, [], some e)
      | .ok none => (none, [], none)
      | .ok (some r) => (some r.fields, find isSpace d (text.length + 1) r.rest (r.line + 1))
  else (none, find isSpace d (text.length + 1) body 1)

end

/-- Where an error is raised first: at a record with more fields than the header, or at the end. -/
def raisedAt (d : Dialect) (headers : Option (List Text)) (stop : Option Error)
    (entries : List Entry) : Option (Int × Int) :=
  match entries.find? fun e => headers.any fun h => h.length < e.fields.length && !d.lenient with
  | some e => some (e.line, -1)
  | none => stop.map Error.place

/-- Where an error is raised first by `parse`, whose header is the first record that is not empty. -/
def parseRaisesAt (d : Dialect) : List Entry × Option Error → Option (Int × Int)
  | (entries, stop) =>
      if d.hasHeader then
        match entries.dropWhile Entry.empty with
        | [] => stop.map Error.place
        | h :: rest => raisedAt d (some h.fields) stop (rest.filter (!·.empty))
      else stop.map Error.place

/-- Where an error is raised first by a reader. -/
def readRaisesAt (d : Dialect) : Option (List Text) × List Entry × Option Error → Option (Int × Int)
  | (headers, entries, stop) => raisedAt d headers stop entries

/-- An error is raised alike where the header comes after an empty record. The reader has that
record for its header, so the header that `parse` finds has to fit it. -/
def LateRaises (d : Dialect) (stop : Option Error) : List Entry → Prop
  | [] => stop.isSome = true
  | h :: rest => (d.lenient = true ∨ h.fields.length = 1) ∧ Raises d (some h.fields) rest stop

/-- An error is raised for the same record. -/
def RaiseAlike (d : Dialect) : List Entry × Option Error → Prop
  | ([], stop) => stop.isSome = true
  | (e :: rest, stop) =>
      if d.hasHeader then
        if e.empty then LateRaises d stop (rest.dropWhile Entry.empty)
        else Raises d (some e.fields) rest stop
      else Raises d none (e :: rest) stop

/-- The empty records are blank lines, and none comes before a header. -/
def Solid (d : Dialect) : List Entry → Prop
  | [] => True
  | e :: rest =>
      if d.hasHeader then
        if e.empty then ∀ e' ∈ rest, e'.blank = true else ∀ e' ∈ rest, e'.hollow = false
      else ∀ e' ∈ e :: rest, e'.hollow = false

section
variable {isSpace : Char → Bool} {d : Dialect} {headers : Option (List Text)}
  {entries : List Entry} {stop : Option Error}

theorem raises_filter (keep : Entry → Bool)
    (hraises : Raises d headers (entries.filter keep) stop) : Raises d headers entries stop := by
  refine hraises.imp id ?_
  rintro ⟨h, hh, e, hmem, hlong⟩
  exact ⟨h, hh, e, List.mem_of_mem_filter hmem, hlong⟩

theorem empty_fits (hwide : ∀ h ∈ headers, h ≠ []) {e : Entry} (hempty : e.fields = [[]]) :
    ∀ h ∈ headers, ¬ TooLong d h e := by
  intro h hh hlong
  have hpos := List.length_pos_iff.2 (hwide h hh)
  have hlt := hlong.1
  rw [hempty, List.length_singleton] at hlt
  omega

theorem rowsOf_error_iff (hwide : ∀ h ∈ headers, h ≠ [])
    (hblank : ∀ e ∈ entries, e.blank = true → e.fields = [[]]) :
    (∃ p, rowsOf d headers stop (entries.filter (!·.blank)) = .error p) ↔
      Raises d headers entries stop := by
  constructor
  · rintro ⟨p, hp⟩
    by_contra hnot
    obtain ⟨rows, hrows, -⟩ := rowsOf_ok fun h => hnot (raises_filter (!·.blank) h)
    rw [hrows] at hp
    cases hp
  · intro hraises
    obtain ⟨p, hp, -⟩ := rowsOf_raises (!·.blank) (!·.blank) hraises (fun _ _ => Iff.rfl)
      fun e hmem hlong => by
        obtain ⟨h, hh, hlong⟩ := hlong
        have hno : e.blank ≠ true := fun hb => empty_fits hwide (hblank e hmem hb) h hh hlong
        exact ⟨by simpa using hno, by simpa using hno⟩
    exact ⟨p, hp⟩

/-- When two outcomes are the same, and when they are the same error. -/
structure Compared (p r : Outcome (List Row)) (raise solid : Prop) : Prop where
  same : p = r ↔ raise ∨ solid
  error : (∃ q, p = .error q ∧ r = .error q) ↔ raise

/-- Where both make rows of the same records under one header. -/
theorem rows_compared (hwide : ∀ h ∈ headers, h ≠ [])
    (hblank : ∀ e ∈ entries, e.blank = true → e.fields = [[]]) :
    Compared (rowsOf d headers stop (entries.filter (!·.empty)))
      (rowsOf d headers stop (entries.filter (!·.blank))) (Raises d headers entries stop)
      (∀ e ∈ entries, e.hollow = false) := by
  have hsame := @rowsOf_filters d headers entries stop hwide hblank
  refine ⟨hsame, ?_, fun hraises => ?_⟩
  · rintro ⟨q, -, hq⟩
    exact (rowsOf_error_iff hwide hblank).1 ⟨q, hq⟩
  · obtain ⟨q, hq⟩ := (rowsOf_error_iff hwide hblank).2 hraises
    exact ⟨q, (hsame.2 (.inl hraises)).trans hq, hq⟩

theorem rowsOf_append {front back : List Entry}
    (hfits : ∀ e ∈ front, ∀ h ∈ headers, ¬ TooLong d h e) {p : Int × Int}
    (hback : rowsOf d headers stop back = .error p) :
    rowsOf d headers stop (front ++ back) = .error p := by
  induction front with
  | nil => exact hback
  | cons e rest ih =>
    rw [List.cons_append, rowsOf_cons (hfits e List.mem_cons_self),
      ih fun e hmem => hfits e (List.mem_cons_of_mem _ hmem)]
    rfl

/-- An error is raised at a record, or at the end. -/
theorem rowsOf_place {p : Int × Int} (herror : rowsOf d headers stop entries = .error p) :
    (∃ e ∈ entries, p = (e.line, -1)) ∨ ∃ err, stop = some err ∧ p = err.place := by
  induction entries with
  | nil =>
    cases stop with
    | none => cases herror
    | some err =>
      cases herror
      exact .inr ⟨err, rfl, rfl⟩
  | cons e rest ih =>
    by_cases hlong : ∃ h ∈ headers, TooLong d h e
    · obtain ⟨h, hh, hlong⟩ := hlong
      rw [Option.mem_def] at hh
      subst hh
      rw [rowsOf_tooLong hlong] at herror
      cases herror
      exact .inl ⟨e, List.mem_cons_self, rfl⟩
    · rw [rowsOf_cons fun h hh h' => hlong ⟨h, hh, h'⟩] at herror
      cases hrest : rowsOf d headers stop rest with
      | ok rows => rw [hrest] at herror; cases herror
      | error q =>
        rw [hrest] at herror
        cases herror
        exact (ih hrest).imp (fun ⟨e, hmem, he⟩ => ⟨e, List.mem_cons_of_mem _ hmem, he⟩) id

variable {text : Text}

theorem withoutBom_length (text : Text) : (withoutBom text).length ≤ text.length := by
  rw [withoutBom]
  split
  · rw [List.length_drop]
    omega
  · exact Nat.le_refl _

theorem parsed_eq (hvalid : d.validate = .ok ()) : parsed isSpace d text =
    (parseRows isSpace d (text.length + 2) (withoutBom text) {}).map outcome := by
  rw [parsed, parse, hvalid, withoutBom]

theorem Scans.suffix {line : Int} {front back : List Entry}
    (hscans : Scans isSpace d text line (front ++ back) stop) :
    ∃ text line, Scans isSpace d text line back stop := by
  induction front generalizing text line with
  | nil => exact ⟨text, line, hscans⟩
  | cons e rest ih =>
    rw [List.cons_append] at hscans
    cases hscans with
    | record _ _ hrest => exact ih hrest

section Late
variable {h : Entry} {front rest : List Entry}

theorem late_width (hw : d.lenient = true ∨ h.fields.length = 1) (e : Entry) :
    (∃ g ∈ some h.fields, TooLong d g e) ↔ ∃ g ∈ some [([] : Text)], TooLong d g e := by
  simp only [Option.mem_def, Option.some.injEq, exists_eq_left', TooLong, List.length_singleton]
  rcases hw with hlenient | hone
  · simp [hlenient]
  · rw [hone]

theorem late_fits (hw : d.lenient = true ∨ h.fields.length = 1) :
    ∀ g ∈ some [([] : Text)], ¬ TooLong d g h := by
  rintro g hg ⟨hlt, hstrict⟩
  obtain rfl := Option.some.inj hg
  rcases hw with hlenient | hone
  · rw [hlenient] at hstrict
    cases hstrict
  · rw [hone] at hlt
    exact absurd hlt (Nat.lt_irrefl 1)

variable (hblank : ∀ e ∈ rest, e.blank = true → e.fields = [[]])
  (hfits : ∀ e ∈ front, ∀ g ∈ some [([] : Text)], ¬ TooLong d g e)
include hblank hfits

/-- A header found late that raises does so for `parse` and for the reader. -/
theorem late_raises (hfields : h.fields ≠ []) (hlate : LateRaises d stop (h :: rest)) :
    ∃ q, headedRows d stop (h :: rest) = .error q ∧
      rowsOf d (some [[]]) stop (front ++ h :: rest.filter (!·.blank)) = .error q := by
  obtain ⟨hw, hraises⟩ := hlate
  rw [headedRows]
  obtain ⟨p, hp₁, hp₂⟩ := rowsOf_raises (!·.empty) (!·.blank) hraises
    (fun e _ => late_width hw e) fun e he hlong => by
      have hne : e.fields ≠ [[]] := by
        intro hempty
        have hfull : ∀ g ∈ some h.fields, g ≠ [] := fun g hg => Option.some.inj hg ▸ hfields
        obtain ⟨g, hg, hl⟩ := hlong
        exact empty_fits hfull hempty g hg hl
      refine ⟨by simpa [Entry.empty] using hne, ?_⟩
      simpa using fun hb => hne (hblank e he hb)
  exact ⟨p, hp₁, rowsOf_append hfits (by rw [rowsOf_cons (late_fits hw), hp₂]; rfl)⟩

omit hfits in
/-- The reader has a row more than `parse`, which has its header in the place of one. -/
theorem late_longer {rows₁ rows₂ : List Row}
    (hrows₁ : rows₁.length = (rest.filter (!·.empty)).length)
    (hrows₂ : rows₂.length = (front ++ h :: rest.filter (!·.blank)).length) : rows₁ ≠ rows₂ := by
  have hless : (rest.filter (!·.empty)).length ≤ (rest.filter (!·.blank)).length := by
    rw [← List.countP_eq_length_filter, ← List.countP_eq_length_filter]
    refine List.countP_mono_left fun e he hne => ?_
    cases hb : e.blank with
    | false => rfl
    | true =>
      have := hblank e he hb
      simp [Entry.empty, this] at hne
  intro heq
  rw [heq, hrows₂, List.length_append, List.length_cons] at hrows₁
  omega

/-- Only with an error do they come to the same where a header is found late. -/
theorem late_same {line : Int} (hlater : Scans isSpace d text line (h :: rest) stop)
    (hsame : headedRows d stop (h :: rest) =
      rowsOf d (some [[]]) stop (front ++ h :: rest.filter (!·.blank))) :
    LateRaises d stop (h :: rest) := by
  rw [headedRows] at hsame
  rw [LateRaises]
  by_cases hw : d.lenient = true ∨ h.fields.length = 1
  · refine ⟨hw, ?_⟩
    by_contra hnot
    obtain ⟨rows₁, hrows₁, hlength₁⟩ := rowsOf_ok fun h => hnot (raises_filter (!·.empty) h)
    have hnot₂ : ¬ Raises d (some [[]]) (front ++ h :: rest.filter (!·.blank)) stop := by
      rintro (hstop | ⟨g, hg, e, he, hlong⟩)
      · exact hnot (.inl hstop)
      · rcases List.mem_append.1 he with he | he
        · exact hfits e he g hg hlong
        · rcases List.mem_cons.1 he with rfl | he
          · exact late_fits hw g hg hlong
          · obtain ⟨g', hg', hlong'⟩ := (late_width hw e).2 ⟨g, hg, hlong⟩
            exact hnot (.inr ⟨g', hg', e, List.mem_of_mem_filter he, hlong'⟩)
    obtain ⟨rows₂, hrows₂, hlength₂⟩ := rowsOf_ok hnot₂
    rw [hrows₁, hrows₂] at hsame
    exact late_longer hblank hlength₁ hlength₂ (Except.ok.inj hsame)
  · rw [not_or] at hw
    have hfields := List.length_pos_iff.2 (hlater.entry.1 h List.mem_cons_self).1
    have hlong : TooLong d [[]] h :=
      ⟨by rw [List.length_singleton]; omega, by simpa using hw.1⟩
    have herror := rowsOf_append hfits
      (@rowsOf_tooLong d stop [[]] h (rest.filter (!·.blank)) hlong)
    rw [herror] at hsame
    rcases rowsOf_place hsame with ⟨e, he, hplace⟩ | ⟨err, herr, hplace⟩
    · have hlater := hlater.later.1 e (List.mem_of_mem_filter he)
      rw [(Prod.mk.inj hplace).1] at hlater
      exact absurd hlater (Int.lt_irrefl _)
    · have hlater := hlater.later.2 err herr
      rw [← hplace] at hlater
      exact absurd hlater (Int.lt_irrefl _)

end Late

/-- Where the first record is empty, what comes of the header that is found later. -/
theorem late_compared {line : Int} (hscans : Scans isSpace d text line entries stop)
    (hblank : ∀ e ∈ entries, e.blank = true → e.fields = [[]]) :
    Compared (headedRows d stop (entries.dropWhile Entry.empty))
      (rowsOf d (some [[]]) stop (entries.filter (!·.blank)))
      (LateRaises d stop (entries.dropWhile Entry.empty)) (∀ e ∈ entries, e.blank = true) := by
  have hwide : ∀ h ∈ some [([] : Text)], h ≠ [] := by
    rintro h hh
    obtain rfl := Option.some.inj hh
    exact List.cons_ne_nil _ _
  have hempty : ∀ e : Entry, e.empty = true → e.fields = [[]] := fun e he => by
    simpa [Entry.empty] using he
  cases hleft : entries.dropWhile Entry.empty with
  | nil =>
    have hall := List.dropWhile_eq_nil_iff.1 hleft
    have hnone : entries.filter (!·.empty) = [] :=
      List.filter_eq_nil_iff.2 fun e hmem => by simp [hall e hmem]
    have hsame : headedRows d stop [] = rowsOf d (some [[]]) stop (entries.filter (!·.empty)) := by
      rw [hnone]
      rfl
    have hcompared := @rows_compared d (some [[]]) entries stop hwide hblank
    have hraises : Raises d (some [[]]) entries stop ↔ stop.isSome = true := by
      refine ⟨fun h => h.resolve_right ?_, .inl⟩
      rintro ⟨h, hh, e, hmem, hlong⟩
      exact empty_fits hwide (hempty e (hall e hmem)) h hh hlong
    have hsolid : (∀ e ∈ entries, e.hollow = false) ↔ ∀ e ∈ entries, e.blank = true :=
      forall₂_congr fun e hmem => by simp [Entry.hollow, hall e hmem]
    rw [hraises, hsolid] at hcompared
    rw [hsame]
    exact hcompared
  | cons h rest =>
    have hsplit := List.takeWhile_append_dropWhile (p := Entry.empty) (l := entries)
    rw [hleft] at hsplit
    have hfull : h.fields ≠ [[]] := by
      have hnot := List.head?_dropWhile_not Entry.empty entries
      rw [hleft] at hnot
      simpa [Entry.empty] using hnot
    have hmem : ∀ e ∈ h :: rest, e ∈ entries := fun e he => by
      rw [← hsplit]
      exact List.mem_append_right _ he
    have hsolid : h.blank = false := by
      by_contra hb
      exact hfull (hblank h (hmem h List.mem_cons_self) (by simpa using hb))
    have hfilter : entries.filter (!·.blank) =
        (entries.takeWhile Entry.empty).filter (!·.blank) ++ h :: rest.filter (!·.blank) := by
      rw [← hsplit, List.filter_append, List.filter_cons_of_pos (by simp [hsolid]), hsplit]
    have hfits : ∀ e ∈ (entries.takeWhile Entry.empty).filter (!·.blank),
        ∀ g ∈ some [([] : Text)], ¬ TooLong d g e := fun e he =>
      empty_fits hwide (hempty e (List.mem_takeWhile_imp (List.mem_of_mem_filter he)))
    have hblankRest : ∀ e ∈ rest, e.blank = true → e.fields = [[]] := fun e he =>
      hblank e (hmem e (List.mem_cons_of_mem _ he))
    obtain ⟨text', line', hlater⟩ := (hsplit ▸ hscans).suffix
    have hfields := (hlater.entry.1 h List.mem_cons_self).1
    have hnotBlank : ¬ ∀ e ∈ entries, e.blank = true := fun hall =>
      absurd (hall h (hmem h List.mem_cons_self)) (by simp [hsolid])
    rw [hfilter]
    refine ⟨⟨fun hsame => .inl (late_same hblankRest hfits hlater hsame), fun hor => ?_⟩, ?_,
      late_raises hblankRest hfits hfields⟩
    · obtain ⟨q, hp, hr⟩ := late_raises hblankRest hfits hfields (hor.resolve_right hnotBlank)
      exact hp.trans hr.symm
    · rintro ⟨q, hp, hr⟩
      exact late_same hblankRest hfits hlater (hp.trans hr.symm)

/-- What each of the three gives for a text, and how the first two compare. -/
structure Outcomes (isSpace : Char → Bool) (d : Dialect) (text : Text) (p r : Outcome (List Row)) :
    Prop where
  parsed : parsed isSpace d text = some p
  read : allRead isSpace d text = some r
  raises : ∀ q, r = .error q → ∃ turns, iterated isSpace d turns text = some (.error q)
  endless : ∀ rows, r = .ok rows → ∀ turns, iterated isSpace d turns text = none

/-- A reader gives the rows of the records that it finds in what it has left. -/
theorem outcomes_reader {p : Outcome (List Row)} {reader : Reader} {left : List Entry}
    (hparsed : parsed isSpace d text = some p) (hnew : Reader.new isSpace d text = .ok reader)
    (hdone : reader.done = false) (hlen : reader.text.length ≤ text.length)
    (hfinds : Finds isSpace d reader.text reader.line left stop) :
    Outcomes isSpace d text p (rowsOf d (reader.under d) stop left) := by
  have hturns : reader.text.length < text.length + 2 := by omega
  obtain ⟨y, hy, hall⟩ := readAll_rows hdone hfinds hturns
  refine ⟨hparsed, ?_, fun q hq => ?_, fun rows hrows turns => ?_⟩
  · rw [allRead, hnew]
    simp only [hy, Option.map_some, hall]
  · obtain ⟨e, hloop, hplace⟩ := forEach_raises hdone hfinds hturns hq
    refine ⟨text.length + 2, ?_⟩
    rw [iterated, hnew, ← hplace]
    simp only [hloop, Option.map_some]
    rfl
  · rw [iterated, hnew]
    simp only [forEach_endless turns hdone hfinds hrows, Option.map_none]

/-- The header that a reader takes from a text and the records it finds after it. -/
inductive Takes (isSpace : Char → Bool) (d : Dialect) (body : Text) :
    Option (List Text) → List Entry → Option Error → Prop where
  | plain {left : List Entry} {stop : Option Error} : d.hasHeader = false →
      Finds isSpace d body 1 left stop → Takes isSpace d body none left stop
  | bare : d.hasHeader = true → body = [] → Takes isSpace d body none [] none
  | fails {e : Error} : d.hasHeader = true → body ≠ [] →
      parseRecord isSpace d body { pos := { line := 1 } } = .error e →
      Takes isSpace d body none [] (some e)
  | headed {r : Record} {left : List Entry} {stop : Option Error} : d.hasHeader = true →
      body ≠ [] → parseRecord isSpace d body { pos := { line := 1 } } = .ok (some r) →
      Finds isSpace d r.rest (r.line + 1) left stop → Takes isSpace d body (some r.fields) left stop

theorem Takes.outcomes {p : Outcome (List Row)} {left : List Entry}
    (htakes : Takes isSpace d (withoutBom text) headers left stop) (hvalid : d.validate = .ok ())
    (hparsed : parsed isSpace d text = some p) :
    Outcomes isSpace d text p (rowsOf d headers stop left) := by
  have hlen := withoutBom_length text
  have hbody : (if hasBom text = true then text.drop 3 else text) = withoutBom text := rfl
  generalize withoutBom text = body at htakes hlen hbody
  cases htakes with
  | plain hheader hfinds =>
    have hnew : Reader.new isSpace d text = .ok { text := body } := by
      rw [Reader.new, hvalid]
      simp only [hheader, hbody, Bool.false_eq_true, if_false]
    have hout := outcomes_reader hparsed hnew rfl hlen hfinds
    rwa [Reader.under, hheader] at hout
  | bare hheader hempty =>
    have hnew : Reader.new isSpace d text = .ok { text := [] } := by
      rw [Reader.new, hvalid]
      simp only [hheader, hbody, hempty, if_true]
    have hskip : skipBlankLines [] 1 = ([], 1) := rfl
    exact outcomes_reader hparsed hnew rfl (Nat.zero_le _) (.done hskip)
  | @fails e hheader hne hread =>
    have hnew : Reader.new isSpace d text = .error e := by
      rw [Reader.new, hvalid]
      simp only [hheader, hbody, if_true, if_neg hne, hread]
    refine ⟨hparsed, by rw [allRead, hnew]; rfl, fun q hq => ?_, fun rows hrows => by cases hrows⟩
    cases hq
    exact ⟨0, by rw [iterated, hnew]⟩
  | @headed r _ _ hheader hne hread hfinds =>
    have hshort := (record_rest hread).1
    have hskip := skipBlankLines_length r.rest (r.line + 1)
    have hnew : Reader.new isSpace d text = .ok ⟨(skipBlankLines r.rest (r.line + 1)).1,
        (skipBlankLines r.rest (r.line + 1)).2, 0, some r.fields, false⟩ := by
      rw [Reader.new, hvalid]
      simp only [hheader, hbody, if_true, if_neg hne, hread]
    have hout := outcomes_reader hparsed hnew rfl (by simp only; omega) hfinds.skipped
    rwa [Reader.under, hheader, if_pos rfl] at hout

theorem found_takes (text : Text) : Takes isSpace d (withoutBom text) (found isSpace d text).1
    (found isSpace d text).2.1 (found isSpace d text).2.2 := by
  have hlen := withoutBom_length text
  cases hheader : d.hasHeader with
  | false =>
    simp only [found, hheader, Bool.false_eq_true, if_false]
    exact .plain hheader (find_finds 1 (by omega))
  | true =>
    simp only [found, hheader, if_true]
    by_cases hempty : withoutBom text = []
    · rw [if_pos hempty]
      exact .bare hheader hempty
    · rw [if_neg hempty]
      cases hread : parseRecord isSpace d (withoutBom text) { pos := { line := 1 } } with
      | error e => exact .fails hheader hempty hread
      | ok result =>
        cases result with
        | none => exact absurd hread (parseRecord_some hempty)
        | some r =>
          have hshort := (record_rest hread).1
          exact .headed hheader hempty hread (find_finds (r.line + 1) (by omega))

/-- What `parse` makes of the records of a text. -/
theorem parsed_scans (hvalid : d.validate = .ok ())
    (hscans : Scans isSpace d (withoutBom text) 1 entries stop) :
    parsed isSpace d text = some (if d.hasHeader then
      headedRows d stop (entries.dropWhile Entry.empty)
      else rowsOf d none stop (entries.filter (!·.empty))) := by
  have hlen := withoutBom_length text
  have hturns : (withoutBom text).length < text.length + 2 := by omega
  rw [parsed_eq hvalid]
  cases hheader : d.hasHeader with
  | false =>
    obtain ⟨x, hx, hrows⟩ := parseRows_ready (s := {}) (.inl ⟨hheader, rfl⟩) rfl hscans hturns
    rw [hx, Option.map_some, hrows]
    cases rowsOf d none stop (entries.filter (!·.empty)) <;> rfl
  | true =>
    obtain ⟨x, hx, hrows⟩ := parseRows_header (s := {}) hheader rfl rfl rfl hscans hturns
    rw [hx, Option.map_some, hrows, if_pos rfl]

/-- What a text's records make of the two readers. -/
theorem records_compared (hbreaks : d.Unbroken) (hvalid : d.validate = .ok ()) (text : Text) :
    ∃ p r, Outcomes isSpace d text p r ∧
      Compared p r (RaiseAlike d (records isSpace d text)) (Solid d (records isSpace d text).1) := by
  have hlen := withoutBom_length text
  have hscans : Scans isSpace d (withoutBom text) 1 (records isSpace d text).1
      (records isSpace d text).2 := scan_scans 1 (by omega)
  have hparsed := parsed_scans hvalid hscans
  generalize records isSpace d text = scanned at hscans hparsed
  obtain ⟨entries, stop⟩ := scanned
  simp only at hscans hparsed
  have hblank := hscans.blank_empty hbreaks
  cases hheader : d.hasHeader with
  | false =>
    rw [hheader, if_neg Bool.false_ne_true] at hparsed
    refine ⟨_, _, Takes.outcomes (.plain hheader (hscans.finds hbreaks)) hvalid hparsed, ?_⟩
    have hcompared := @rows_compared d none entries stop (fun _ hh => by cases hh) hblank
    cases entries with
    | nil =>
      have hraise : Raises d none [] stop ↔ stop.isSome = true := by
        refine ⟨fun h => h.resolve_right ?_, .inl⟩
        rintro ⟨_, hh, -⟩
        cases hh
      exact ⟨hcompared.same.trans (or_congr hraise (iff_of_true (by simp) trivial)),
        hcompared.error.trans hraise⟩
    | cons e rest =>
      simp only [RaiseAlike, Solid, hheader, Bool.false_eq_true, if_false]
      exact hcompared
  | true =>
    rw [hheader, if_pos rfl] at hparsed
    generalize hbody : withoutBom text = body at hscans
    cases hscans with
    | done =>
      refine ⟨_, _, Takes.outcomes (.bare hheader hbody) hvalid hparsed,
        iff_of_true rfl (.inr trivial), ?_⟩
      refine iff_of_false ?_ Bool.false_ne_true
      rintro ⟨_, hq, -⟩
      cases hq
    | @fails _ _ e hne hread =>
      exact ⟨_, _, Takes.outcomes (.fails hheader (hbody ▸ hne) (hbody ▸ hread)) hvalid hparsed,
        iff_of_true rfl (.inl rfl), iff_of_true ⟨_, rfl, rfl⟩ rfl⟩
    | @record _ _ r rest _ hne hread hrest =>
      have hfields := (record_rest hread).2.1
      have hblankRest : ∀ e ∈ rest, e.blank = true → e.fields = [[]] :=
        fun e hmem => hblank e (List.mem_cons_of_mem _ hmem)
      refine ⟨_, _, Takes.outcomes (.headed hheader (hbody ▸ hne) (hbody ▸ hread)
        (hrest.finds hbreaks)) hvalid hparsed, ?_⟩
      simp only [RaiseAlike, Solid, hheader, if_true]
      by_cases hempty : r.fields = [[]]
      · have hfirst : Entry.empty ⟨startsBlank body, r.fields, r.line⟩ = true := by
          simp [Entry.empty, hempty]
        rw [List.dropWhile_cons_of_pos hfirst, if_pos hfirst, if_pos hfirst, hempty]
        exact late_compared hrest hblankRest
      · have hfirst : ¬ Entry.empty ⟨startsBlank body, r.fields, r.line⟩ = true := by
          simp [Entry.empty, hempty]
        have hwide : ∀ h ∈ some r.fields, h ≠ [] :=
          fun h hh => Option.some.inj hh ▸ hfields
        rw [List.dropWhile_cons_of_neg hfirst, if_neg hfirst, if_neg hfirst, headedRows]
        exact rows_compared hwide hblankRest

/-- A loop that agrees has ended by an error. -/
theorem Outcomes.agree_iff {p r : Outcome (List Row)} (hout : Outcomes isSpace d text p r) :
    Agree isSpace d text ↔ ∃ q, p = .error q ∧ r = .error q := by
  constructor
  · rintro ⟨o, hp, hr, turns, hloop⟩
    rw [hout.parsed] at hp
    rw [hout.read] at hr
    obtain rfl := Option.some.inj hp
    obtain rfl := Option.some.inj hr
    cases hp : r with
    | error q => exact ⟨q, rfl, rfl⟩
    | ok rows =>
      rw [hout.endless rows hp turns] at hloop
      cases hloop
  · rintro ⟨q, rfl, rfl⟩
    obtain ⟨turns, hloop⟩ := hout.raises q rfl
    exact ⟨.error q, hout.parsed, hout.read, turns, hloop⟩

theorem agree_iff_raise (hbreaks : d.Unbroken) (hvalid : d.validate = .ok ()) (text : Text) :
    Agree isSpace d text ↔ RaiseAlike d (records isSpace d text) := by
  obtain ⟨p, r, hout, hcompared⟩ := @records_compared isSpace d hbreaks hvalid text
  rw [← hcompared.error, hout.agree_iff]

theorem rowsOf_error_place {p : Int × Int} :
    rowsOf d headers stop entries = .error p ↔ raisedAt d headers stop entries = some p := by
  induction entries with
  | nil => cases stop <;> simp [rowsOf, raisedAt]
  | cons e rest ih =>
    by_cases hlong : ∃ h ∈ headers, TooLong d h e
    · obtain ⟨h, hh, hlong⟩ := hlong
      rw [Option.mem_def] at hh
      subst hh
      rw [rowsOf_tooLong hlong, raisedAt, List.find?_cons_of_pos]
      · simp
      · simpa [TooLong] using hlong
    · have hfits : ∀ h ∈ headers, ¬ TooLong d h e := fun h hh hl => hlong ⟨h, hh, hl⟩
      have hnot : (headers.any fun h => h.length < e.fields.length && !d.lenient) = false := by
        cases headers with
        | none => rfl
        | some h => simpa [TooLong] using hfits h rfl
      have hnext : raisedAt d headers stop (e :: rest) = raisedAt d headers stop rest := by
        simp only [raisedAt, List.find?_cons, hnot]
      rw [rowsOf_cons hfits, hnext, ← ih]
      cases rowsOf d headers stop rest <;> simp [Except.map]

theorem raisedAt_unheaded : raisedAt d none stop entries = stop.map Error.place := by
  simp only [raisedAt, Option.any_none, List.find?_eq_none.2 fun _ _ => Bool.false_ne_true]

/-- In every dialect the three agree where errors are raised for records in the same place. -/
theorem agree_iff_places (hvalid : d.validate = .ok ()) (text : Text) : Agree isSpace d text ↔
    ∃ p, parseRaisesAt d (records isSpace d text) = some p ∧
      readRaisesAt d (found isSpace d text) = some p := by
  have hlen := withoutBom_length text
  have hscans : Scans isSpace d (withoutBom text) 1 (records isSpace d text).1
      (records isSpace d text).2 := scan_scans 1 (by omega)
  rw [((found_takes text).outcomes hvalid (parsed_scans hvalid hscans)).agree_iff]
  refine exists_congr fun p => and_congr ?_ rowsOf_error_place
  simp only [parseRaisesAt]
  cases hheader : d.hasHeader with
  | false =>
    rw [if_neg Bool.false_ne_true, if_neg Bool.false_ne_true, rowsOf_error_place,
      raisedAt_unheaded]
  | true =>
    rw [if_pos rfl, if_pos rfl]
    cases (records isSpace d text).1.dropWhile Entry.empty with
    | nil => exact rowsOf_error_place
    | cons h rest => exact rowsOf_error_place

theorem same_iff (hbreaks : d.Unbroken) (hvalid : d.validate = .ok ()) (text : Text) :
    SameRows isSpace d text ↔
      RaiseAlike d (records isSpace d text) ∨ Solid d (records isSpace d text).1 := by
  obtain ⟨p, r, hout, hcompared⟩ := @records_compared isSpace d hbreaks hvalid text
  rw [← hcompared.same]
  constructor
  · rintro ⟨o, hp, hr⟩
    rw [hout.parsed] at hp
    rw [hout.read] at hr
    cases hp
    cases hr
    rfl
  · rintro rfl
    exact ⟨p, hout.parsed, hout.read⟩

/-- An invalid dialect is refused alike. -/
theorem agree_invalid {e : Error} (hinvalid : d.validate = .error e) (text : Text) :
    Agree isSpace d text := by
  have hnew : Reader.new isSpace d text = .error e := by rw [Reader.new, hinvalid]
  refine ⟨.error e.place, ?_, by rw [allRead, hnew], 0, by rw [iterated, hnew]; rfl⟩
  rw [parsed, parse, hinvalid]
  rfl

end

/-- The three agree in refusing an invalid dialect. In every other they agree on exactly the texts
in which an error is raised for a record, since a loop ends by nothing else, and in the same place
whether or not line breaks are stepped over. Where neither the delimiter nor the quote is a line
break that is told from the records of the text alone; and `parse` and `read_all` agree on these
texts, and on those whose empty records are blank lines that follow the header. -/
theorem readers_agree_iff (isSpace : Char → Bool) (d : Dialect) (text : Text) :
    ((∃ e, d.validate = .error e) → Agree isSpace d text) ∧
      (d.validate = .ok () →
        (Agree isSpace d text ↔ ∃ p, parseRaisesAt d (records isSpace d text) = some p ∧
          readRaisesAt d (found isSpace d text) = some p) ∧
        (d.Unbroken →
          (Agree isSpace d text ↔ RaiseAlike d (records isSpace d text)) ∧
            (SameRows isSpace d text ↔
              RaiseAlike d (records isSpace d text) ∨ Solid d (records isSpace d text).1))) :=
  ⟨fun ⟨_, hinvalid⟩ => agree_invalid hinvalid text, fun hvalid =>
    ⟨agree_iff_places hvalid text, fun hbreaks =>
      ⟨agree_iff_raise hbreaks hvalid text, same_iff hbreaks hvalid text⟩⟩⟩

theorem unbroken_default : Dialect.Unbroken {} := ⟨by decide, by decide⟩

/-- A quote that is not closed, after a record and where the delimiter is a line break. -/
theorem readers_agree_unclosed :
    Agree (fun c => c == ' ') {} ['a', '\n', '"', 'b'] ∧
      Agree (fun c => c == ' ') { delimiter := ['\n'] } ['"', 'a'] :=
  ⟨(((readers_agree_iff (fun c => c == ' ') {} ['a', '\n', '"', 'b']).2 rfl).2
      unbroken_default).1.2 (.inl (by decide)),
    ((readers_agree_iff (fun c => c == ' ') { delimiter := ['\n'] } ['"', 'a']).2 rfl).1.2
      ⟨_, rfl, rfl⟩⟩

/-- A loop over one record does not end. -/
theorem loop_does_not_end :
    ¬ ∀ (isSpace : Char → Bool) (d : Dialect) (text : Text), Agree isSpace d text := by
  intro hclaim
  have hraise := (agree_iff_raise unbroken_default rfl ['a', '\n']).1
    (hclaim (fun c => c == ' ') {} ['a', '\n'])
  rcases hraise with hstop | ⟨h, hh, -⟩
  · exact absurd hstop (by decide)
  · cases hh

end Zuri.Csv
