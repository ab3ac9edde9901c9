import Zuri.Libs.Csv

/-!
The reader of a CSV file: records one at a time, all that remain at once, or in a `for` loop. It
steps over blank lines by looking at the characters where a record would begin.
-/

namespace Zuri.Csv

structure Reader where
  text : Text
  line : Int := 1
  recordNum : Nat := 0
  headers : Option (List Text) := none
  done : Bool := false

/-- `_skip_blank_lines`: what is left of a text, and the line it is on. -/
def skipBlankLines : Text → Int → Text × Int
  | '\r' :: '\n' :: rest, line => skipBlankLines rest (line + 1)
  | '\r' :: rest, line => skipBlankLines rest (line + 1)
  | '\n' :: rest, line => skipBlankLines rest (line + 1)
  | rest, line => (rest, line)

section
variable (isSpace : Char → Bool) (d : Dialect)

/-- `@new`, over a file that holds a text. -/
def Reader.new (text : Text) : Except Error Reader :=
  match d.validate with
  | .error e => .error e
  | .ok () =>
      let text := if hasBom text then text.drop 3 else text
      if d.hasHeader then
        if text = [] then .ok { text := text }
        else
          match parseRecord isSpace d text { pos := { line := 1 } } with
          | .error e => .error e
          | .ok none => .ok { text := text }
          | .ok (some r) =>
              let after := skipBlankLines r.rest (r.line + 1)
              .ok { text := after.1, line := after.2, headers := some r.fields }
      else .ok { text := text }

/-- `_to_dict`. -/
def Reader.toDict (reader : Reader) (headers fields : List Text) : Except Error Row :=
  if headers.length < fields.length && !d.lenient then
    .error (.csv (s!"record {reader.recordNum} has {fields.length} fields but " ++
      s!"header defines {headers.length}") (reader.line - 1) (-1))
  else .ok (.dict (headed headers fields))

/-- `read_record`: the record, or none when there is no more, and the reader after it. -/
def Reader.readRecord (reader : Reader) : Except Error (Option Row × Reader) :=
  if reader.done then .ok (none, reader)
  else
    let after := skipBlankLines reader.text reader.line
    let reader := { reader with text := after.1, line := after.2 }
    if reader.text = [] then .ok (none, { reader with done := true })
    else
      match parseRecord isSpace d reader.text { pos := { line := reader.line } } with
      | .error e => .error e
      | .ok none => .ok (none, { reader with done := true })
      | .ok (some r) =>
          let reader := { reader with
            text := r.rest, line := r.line + 1, recordNum := reader.recordNum + 1 }
          match d.hasHeader, reader.headers with
          | true, some headers =>
              match reader.toDict d headers r.fields with
              | .error e => .error e
              | .ok row => .ok (some row, reader)
          | _, _ => .ok (some (.fields r.fields), reader)

/-- `read_all`, for as many turns as there are. -/
def Reader.readAll : Nat → Reader → Option (Except Error (List Row))
  | 0, _ => none
  | turns + 1, reader =>
      match reader.readRecord isSpace d with
      | .error e => some (.error e)
      | .ok (none, _) => some (.ok [])
      | .ok (some row, reader) =>
          (Reader.readAll turns reader).map fun rest => rest.map (row :: ·)

/-- `@key`: a truth value, and so never `nil`. -/
def Reader.key (reader : Reader) : Option Bool := some (!reader.done && !reader.text.isEmpty)

/-- The values of a `for` loop over the reader, if it ends within as many turns. It asks for the
`@key`, ends where that is `nil`, and reads the `@value`. -/
def Reader.forEach : Nat → Reader → Option (Except Error (List (Option Row)))
  | 0, _ => none
  | turns + 1, reader =>
      match reader.key with
      | none => some (.ok [])
      | some _ =>
          match reader.readRecord isSpace d with
          | .error e => some (.error e)
          | .ok (row, reader) =>
              (Reader.forEach turns reader).map fun rest => rest.map (row :: ·)

end

end Zuri.Csv
