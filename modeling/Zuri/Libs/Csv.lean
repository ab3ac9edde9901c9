import Mathlib.Data.List.Infix
import Zuri.Maps.Ordered

/-!
CSV. A writer joins the fields of a record, quoting those that need it; a reader takes records
apart with a machine of four states. What a pattern matches is given by an engine.
-/

namespace Zuri.Csv

abbrev Text := List Char

def QUOTE_MINIMAL : Int := 0

def QUOTE_ALL : Int := 1

def QUOTE_NONNUMERIC : Int := 2

def QUOTE_NONE : Int := 3

inductive Error where
  | csv (message : String) (line column : Int)
  | native (message : String)

structure Dialect where
  delimiter : Text := [',']
  quoteChar : Text := ['"']
  lineTerminator : Text := ['\r', '\n']
  quoting : Int := QUOTE_MINIMAL
  trim : Bool := false
  lenient : Bool := false
  hasHeader : Bool := false
  maxFieldSize : Int := 0

def Dialect.validate (d : Dialect) : Except Error Unit :=
  if d.delimiter.length ≠ 1 then
    .error (.csv "Dialect.delimiter must be exactly one character" (-1) (-1))
  else if d.quoteChar.length ≠ 1 then
    .error (.csv "Dialect.quote_char must be exactly one character" (-1) (-1))
  else if d.delimiter = d.quoteChar then
    .error (.csv "Dialect.delimiter and quote_char must differ" (-1) (-1))
  else if d.quoting < QUOTE_MINIMAL ∨ QUOTE_NONE < d.quoting then
    .error (.csv "Dialect.quoting must be one of the QUOTE_* constants" (-1) (-1))
  else .ok ()

/-- What each group of a pattern matched, under its number. -/
abbrev Groups := List (Nat × List Text)

structure PatternEngine where
  replaceAll : (pattern modifiers replacement subject : Text) → Except String Text
  allMatches : (pattern subject : Text) → Except String Groups

/-- No dict is falsy, an empty one included. -/
def Groups.isFalsey (_ : Groups) : Bool := false

def NUMBER : Text := "^-?(?:0|[1-9]\\d*)(?:\\.\\d+)?(?:[eE][+-]?\\d+)?$".toList

def contains (s part : Text) : Bool := decide (part <:+: s)

section
variable (engine : PatternEngine) (d : Dialect)

def needsQuoting (s : Text) : Except Error Bool :=
  if d.quoting = QUOTE_ALL then .ok true
  else if d.quoting = QUOTE_NONNUMERIC then
    match engine.allMatches NUMBER s with
    | .error message => .error (.native message)
    | .ok isNumeric => .ok isNumeric.isFalsey
  else
    .ok (contains s d.delimiter || contains s d.quoteChar || contains s ['\r'] ||
      contains s ['\n'])

def quote (s : Text) : Except Error Text :=
  match engine.replaceAll d.quoteChar ['g'] (d.quoteChar ++ d.quoteChar) s with
  | .error message => .error (.native message)
  | .ok escaped => .ok (d.quoteChar ++ escaped ++ d.quoteChar)

def encodeField (s : Text) : Except Error Text :=
  if d.quoting = QUOTE_NONE then
    if contains s d.delimiter || contains s ['\n'] || contains s ['\r'] then
      .error (.csv ("field contains delimiter or line break but quoting is QUOTE_NONE; " ++
        "change the quoting strategy or sanitise the data") (-1) (-1))
    else .ok s
  else do
    if ← needsQuoting engine d s then quote engine d s else .ok s

/-- A record: its fields, or their values by the names of a header. -/
inductive Row where
  | fields (values : List Text)
  | dict (entries : List (Text × Option Text))

def encodeRecord (values : List Text) : Except Error Text := do
  let parts ← values.mapM (encodeField engine d)
  .ok (d.delimiter.intercalate parts ++ d.lineTerminator)

def stringifyRows : List (List Text) → Except Error Text
  | [] => .ok []
  | values :: rows => do
      let record ← encodeRecord engine d values
      let rest ← stringifyRows rows
      .ok (record ++ rest)

def stringify (rows : List (List Text)) : Except Error Text := do
  d.validate
  stringifyRows engine d rows

end

inductive State where
  | start
  | field
  | quoted
  | quoteEscape

/-- Where the reader is: the column a field began at, its own column, and the line. -/
structure Position where
  fieldCol : Int := 1
  col : Int := 1
  line : Int

structure Reading where
  fields : List Text := []
  field : Text := []
  state : State := .start
  pos : Position

structure Record where
  fields : List Text
  rest : Text
  line : Int

namespace Reading

def advance (s : Reading) : Reading := { s with pos := { s.pos with col := s.pos.col + 1 } }

/-- The reader with a character more in its field. -/
def push (ch : Char) (s : Reading) : Reading := { s.advance with field := s.field ++ [ch] }

/-- The reader in a field that began at this column. -/
def opened (fieldCol : Int) (s : Reading) : Reading :=
  { s with pos := { s.pos with fieldCol := fieldCol } }

/-- The reader past a delimiter. -/
def next (s : Reading) : Reading :=
  { s.advance with fields := s.fields ++ [s.field], field := [], state := .start }

/-- The reader past a line break in a quoted field. -/
def newline (text : Text) (s : Reading) : Reading :=
  { s with field := s.field ++ text, pos := { s.pos with col := 1, line := s.pos.line + 1 } }

def trimmed (d : Dialect) (isSpace : Char → Bool) (s : Reading) : Reading :=
  if d.trim then
    { s with field := ((s.field.dropWhile isSpace).reverse.dropWhile isSpace).reverse }
  else s

def record (s : Reading) (rest : Text) : Except Error (Option Record) :=
  .ok (some ⟨s.fields ++ [s.field], rest, s.pos.line⟩)

def refuse (message : String) (s : Reading) : Except Error (Option Record) :=
  .error (.csv message s.pos.line s.pos.col)

end Reading

def skipLf : Text → Text
  | '\n' :: rest => rest
  | rest => rest

section
variable (isSpace : Char → Bool) (d : Dialect)

def sizeGuard (s : Reading) : Except Error Unit :=
  if 0 < d.maxFieldSize ∧ d.maxFieldSize < s.field.length then
    .error (.csv s!"field exceeds maximum size of {d.maxFieldSize} characters" s.pos.line
      s.pos.fieldCol)
  else .ok ()

/-- What the end of the input makes of the record being read. -/
def finish (s : Reading) : Except Error (Option Record) :=
  match s.state with
  | .quoted =>
      if d.lenient then s.record []
      else .error (.csv "unterminated quoted field at end of input" s.pos.line s.pos.fieldCol)
  | .quoteEscape => s.record []
  | .field => (s.trimmed d isSpace).record []
  | .start => if s.fields.length = 0 then .ok none else { s with field := [] }.record []

def parseRecord : Text → Reading → Except Error (Option Record)
  | [], s => finish isSpace d s
  | ch :: rest, s =>
      sizeGuard d s >>= fun _ =>
      match s.state with
      | .start =>
          if [ch] = d.quoteChar then
            parseRecord rest { s.advance.opened s.pos.col with state := .quoted }
          else if [ch] = d.delimiter then parseRecord rest { s with field := [] }.next
          else if ch = '\r' then { s with field := [] }.record (skipLf rest)
          else if ch = '\n' then { s with field := [] }.record rest
          else
            parseRecord rest { (s.push ch).opened s.pos.col with state := .field }
      | .field =>
          if [ch] = d.delimiter then parseRecord rest (s.trimmed d isSpace).next
          else if ch = '\r' then (s.trimmed d isSpace).record (skipLf rest)
          else if ch = '\n' then (s.trimmed d isSpace).record rest
          else if [ch] = d.quoteChar then
            if d.lenient then parseRecord rest (s.push ch)
            else
              s.refuse ("unexpected quote character in unquoted field; " ++
                "use lenient mode to allow this")
          else parseRecord rest (s.push ch)
      | .quoted =>
          if [ch] = d.quoteChar then parseRecord rest { s.advance with state := .quoteEscape }
          else if ch = '\r' then
            match rest with
            | '\n' :: rest => parseRecord rest (s.newline ['\r', '\n'])
            | rest => parseRecord rest (s.newline ['\r'])
          else if ch = '\n' then parseRecord rest (s.newline ['\n'])
          else parseRecord rest (s.push ch)
      | .quoteEscape =>
          if [ch] = d.quoteChar then parseRecord rest { s.push ch with state := .quoted }
          else if [ch] = d.delimiter then parseRecord rest s.next
          else if ch = '\r' then s.record (skipLf rest)
          else if ch = '\n' then s.record rest
          else if d.lenient then parseRecord rest { s.push ch with state := .field }
          else s.refuse s!"unexpected character after closing quote: '{ch}'"

def BOM : Text := [Char.ofNat 0xef, Char.ofNat 0xbb, Char.ofNat 0xbf]

def hasBom (text : Text) : Bool := BOM.isPrefixOf text

/-- A record under a header: a name that comes twice keeps its place and takes the later value. -/
def headed (headers fields : List Text) : List (Text × Option Text) :=
  OrderedMap.putAll (fun a b => decide (a = b)) []
    (headers.zipIdx.map fun h => (h.1, fields[h.2]?))

structure Parsing where
  rows : List Row := []
  line : Int := 1
  headers : Option (List Text) := none
  first : Bool := true

/-- What a record adds: nothing if it is blank, the header if one is due, or else a row. -/
def takeRecord (s : Parsing) (r : Record) : Except Error Parsing :=
  let s := { s with line := r.line + 1 }
  if r.fields = [[]] then .ok s
  else if s.first && d.hasHeader then .ok { s with headers := some r.fields, first := false }
  else
    match d.hasHeader, s.headers with
    | true, some headers =>
        if headers.length < r.fields.length && !d.lenient then
          .error (.csv s!"record has {r.fields.length} fields but header defines {headers.length}"
            (s.line - 1) (-1))
        else .ok { s with rows := s.rows ++ [.dict (headed headers r.fields)], first := false }
    | _, _ => .ok { s with rows := s.rows ++ [.fields r.fields], first := false }

/-- The rows of a text, record by record, for as many turns as there are. -/
def parseRows : Nat → Text → Parsing → Option (Except Error (List Row))
  | 0, _, _ => none
  | turns + 1, text, s =>
      if text = [] then some (.ok s.rows)
      else
        match parseRecord isSpace d text { pos := { line := s.line } } with
        | .error e => some (.error e)
        | .ok none => some (.ok s.rows)
        | .ok (some r) =>
            match takeRecord d s r with
            | .error e => some (.error e)
            | .ok s => parseRows turns r.rest s

def parse (turns : Nat) (text : Text) : Option (Except Error (List Row)) :=
  match d.validate with
  | .error e => some (.error e)
  | .ok () => parseRows isSpace d turns (if hasBom text then text.drop 3 else text) {}

end

end Zuri.Csv
