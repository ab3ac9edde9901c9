import Zuri.Fuel.Exec
import Zuri.Libs.TomlTables

/-!
Reading the text of a TOML document. A text is read into its statements, which are then
declared one after another; the source declares each as it has read it, so a text that is wrong
in two places may be refused for the other one. Values nest to the depth of the fuel; every other
loop has as many turns as there are characters left, and one more.
-/

namespace Zuri.Toml

open Fuelled

/-- Numbers and how the language reads them. -/
structure Host (ν : Type) where
  toNumber : Text → ν
  infinity : ν
  negInfinity : ν
  nan : ν

structure Clock where
  hour : Nat
  minute : Nat
  second : Nat
  nanosecond : Nat
deriving DecidableEq

structure Day where
  year : Nat
  month : Nat
  day : Nat
deriving DecidableEq

inductive Scalar (ν : Type) where
  | string (text : Text)
  | number (value : Int)
  | bigint (value : Int)
  | float (value : ν)
  | boolean (value : Bool)
  | datetime (day : Day) (clock : Clock) (offset : Int)
  | localDatetime (day : Day) (clock : Clock)
  | localDate (day : Day)
  | localTime (clock : Clock)

inductive Fault where
  | parse (message : Text)
  | toml (message : Text)
  | refused (refusal : Refusal)

abbrev Reader (α : Type) := Exec Fault Text α

variable {ν : Type}

def fail {α : Type} (message : String) : Reader α := raise (.parse message.toList)

def peek : Reader (Option Char) := read List.head?

def peekAt (i : Nat) : Reader (Option Char) := read fun s => s[i]?

def advance : Reader Unit := update List.tail

def skip (count : Nat) : Reader Unit := update (List.drop count)

def atEnd : Reader Bool := read List.isEmpty

def expect (c : Char) (what : String) : Reader Unit := do
  if (← peek) ≠ some c then fail ("expected " ++ what)
  advance

/-- A loop with as many turns as there are characters left, and one more. -/
def repeating {β γ : Type} (turn : β → Reader (Turn β γ)) (b : β) : Reader γ :=
  turns List.length turn b

/-- The characters at the front that meet a condition, read. -/
def run (p : Char → Bool) : Reader Text := fun s => some (.ok (s.takeWhile p, s.dropWhile p))

def isBlank (c : Char) : Bool := c == ' ' || c == '\t'

def spaces : Reader Text := run isBlank

def isControl (c : Char) : Bool := decide (c.toNat < 32) && c.toNat != 9 || c.toNat == 127

/-- A control character that is no line break either. -/
def isControlInLines (c : Char) : Bool :=
  decide (c.toNat < 32) && c.toNat != 9 && c.toNat != 10 && c.toNat != 13 || c.toNat == 127

def comment : Reader Unit := do
  advance
  repeating (fun _ => do
    match ← peek with
    | none => pure (.done ())
    | some c =>
        let next ← peekAt 1
        if c == '\n' || c == '\r' && next == some '\n' then pure (.done ())
        else if isControl c then fail "a comment cannot hold a control character"
        else do
          advance
          pure (.next ())) ()

/-- Whether a line break was read. -/
def newline : Reader Bool := do
  let first ← peek
  let second ← peekAt 1
  if first == some '\r' && second == some '\n' then do
    skip 2
    pure true
  else if first == some '\n' then do
    advance
    pure true
  else pure false

def trivia : Reader Unit :=
  repeating (fun _ => do
    match ← peek with
    | none => pure (.done ())
    | some c =>
        if isBlank c then do
          advance
          pure (.next ())
        else if c == '\r' || c == '\n' then do
          if !(← newline) then fail "a bare carriage return is not a line break"
          pure (.next ())
        else if c == '#' then do
          comment
          pure (.next ())
        else pure (.done ())) ()

def lineTail : Reader Unit := do
  let _ ← spaces
  if (← peek) = some '#' then comment

def endOfLine (what : String) : Reader Unit := do
  if !(← atEnd) then
    if !(← newline) then fail ("unexpected text after " ++ what)

def isBareKey (c : Char) : Bool :=
  decide ('A' ≤ c) && decide (c ≤ 'Z') || decide ('a' ≤ c) && decide (c ≤ 'z') ||
    decide ('0' ≤ c) && decide (c ≤ '9') || c == '_' || c == '-'

def isDigit (c : Char) : Bool := decide ('0' ≤ c) && decide (c ≤ '9')

def hexValue (c : Char) : Option Nat :=
  if isDigit c then some (c.toNat - 48)
  else if decide ('a' ≤ c) && decide (c ≤ 'f') then some (c.toNat - 87)
  else if decide ('A' ≤ c) && decide (c ≤ 'F') then some (c.toNat - 55)
  else none

def isHexDigit (c : Char) : Bool := (hexValue c).isSome

def escapeChars : List (Char × Char) :=
  [('b', Char.ofNat 8), ('t', '\t'), ('n', '\n'), ('f', Char.ofNat 12), ('r', '\r'),
    ('"', '"'), ('\\', '\\')]

/-- The value of so many hexadecimal digits, of the number an escape needs. -/
def hexDigits (what : String) : Nat → Nat → Reader Nat
  | 0, code => pure code
  | count + 1, code => do
      match (← peek).bind hexValue with
      | none => fail what
      | some digit => do
          advance
          hexDigits what count (code * 16 + digit)

def codepoint (c : Char) (width : Nat) : Reader Char := do
  let code ← hexDigits ("\\" ++ c.toString ++ " needs " ++ toString width ++
    " hexadecimal digits") width 0
  if 55296 ≤ code ∧ code ≤ 57343 ∨ 1114111 < code then
    fail (toString code ++ " is not a unicode scalar value")
  else pure (Char.ofNat code)

def escape : Reader Char := do
  advance
  match ← peek with
  | none => fail "'\\' is not an escape TOML defines"
  | some c =>
      match escapeChars.find? fun e => e.1 == c with
      | some e => do
          advance
          pure e.2
      | none =>
          if c == 'u' then do
            advance
            codepoint c 4
          else if c == 'U' then do
            advance
            codepoint c 8
          else fail ("'\\" ++ c.toString ++ "' is not an escape TOML defines")

def basicString : Reader Text := do
  advance
  repeating (fun out => do
    match ← peek with
    | none => fail "unterminated string"
    | some c =>
        if c == '"' then do
          advance
          pure (.done out)
        else if c == '\n' || c == '\r' then
          fail "a single-quoted line cannot hold a line break"
        else if c == '\\' then do
          let e ← escape
          pure (.next (out ++ [e]))
        else if isControl c then fail "a string cannot hold a raw control character"
        else do
          advance
          pure (.next (out ++ [c]))) []

def literalString : Reader Text := do
  advance
  repeating (fun out => do
    match ← peek with
    | none => fail "unterminated string"
    | some c =>
        if c == '\'' then do
          advance
          pure (.done out)
        else if c == '\n' || c == '\r' then
          fail "a single-quoted line cannot hold a line break"
        else if isControl c then fail "a string cannot hold a raw control character"
        else do
          advance
          pure (.next (out ++ [c]))) []

/-- Whether only blanks stand between an offset and the end of the line. -/
def onlySpacesToEol (offset : Nat) : Reader Bool :=
  read fun s =>
    match (s.drop offset).dropWhile isBlank with
    | '\n' :: _ => true
    | '\r' :: '\n' :: _ => true
    | _ => false

/-- Whether three of a quote come next. -/
def tripled (quote : Char) : Reader Bool := read fun s => s.take 3 == [quote, quote, quote]

/-- Up to two quotes that belong to the content of a string that has ended. -/
def extraQuotes (quote : Char) (out : Text) : Reader Text := do
  skip 3
  let extra ← read fun s => (s.takeWhile (· == quote)).length
  skip (min extra 2)
  pure (out ++ List.replicate (min extra 2) quote)

def multilineBasic : Reader Text := do
  skip 3
  let _ ← newline
  repeating (fun out => do
    if ← tripled '"' then do
      let text ← extraQuotes '"' out
      pure (.done text)
    else
      match ← peek with
      | none => fail "unterminated multi-line string"
      | some c =>
          let next ← peekAt 1
          if c == '\\' then do
            let folds ← onlySpacesToEol 1
            if next == some '\n' || next == some '\r' ||
                (next == some ' ' || next == some '\t') && folds then do
              advance
              let _ ← spaces
              if !(← newline) then fail "a trailing backslash must end its line"
              trivia
              pure (.next out)
            else do
              let e ← escape
              pure (.next (out ++ [e]))
          else if c == '\r' && next != some '\n' then
            fail "a bare carriage return is not a line break"
          else if isControlInLines c then fail "a string cannot hold a raw control character"
          else do
            advance
            pure (.next (out ++ [c]))) []

def multilineLiteral : Reader Text := do
  skip 3
  let _ ← newline
  repeating (fun out => do
    if ← tripled '\'' then do
      let text ← extraQuotes '\'' out
      pure (.done text)
    else
      match ← peek with
      | none => fail "unterminated multi-line string"
      | some c =>
          let next ← peekAt 1
          if c == '\r' && next != some '\n' then
            fail "a bare carriage return is not a line break"
          else if isControlInLines c then fail "a string cannot hold a raw control character"
          else do
            advance
            pure (.next (out ++ [c]))) []

def keyPart : Reader Text := do
  match ← peek with
  | some '"' => basicString
  | some '\'' => literalString
  | some c => if isBareKey c then run isBareKey else fail "expected a key"
  | none => fail "expected a key"

/-- A key with the parts before its last one, in order. -/
def key : Reader Key := do
  let first ← keyPart
  repeating (fun k : Key => do
    let ahead ← read fun s => (s.takeWhile isBlank).length
    if (← peekAt ahead) = some '.' then do
      skip (ahead + 1)
      let _ ← spaces
      let part ← keyPart
      pure (.next ⟨k.parents ++ [k.name], part⟩)
    else pure (.done k)) ⟨[], first⟩

def digitRun (isIn : Char → Bool) : Reader Text := do
  if !((← peek).any isIn) then fail "expected a digit"
  repeating (fun out => do
    match ← peek with
    | none => pure (.done out)
    | some c =>
        if isIn c then do
          advance
          pure (.next (out ++ [c]))
        else if c != '_' then pure (.done out)
        else do
          advance
          if !((← peek).any isIn) then fail "an underscore has to sit between two digits"
          pure (.next out)) []

/-- The number digits write in a base. -/
def digitsValue (base : Nat) (digits : Text) : Nat :=
  digits.foldl (fun n c => n * base + (hexValue c).getD 0) 0

def fixedDigits (count : Nat) (what : String) : Reader Nat := do
  let digits ← read fun s => s.take count
  if digits.length = count ∧ digits.all isDigit then do
    skip count
    pure (digitsValue 10 digits)
  else fail ("expected " ++ toString count ++ " digits for " ++ what)

def startsDate : Reader Bool :=
  read fun s => (s.take 4).length == 4 && (s.take 4).all isDigit && s[4]? == some '-'

def startsTime : Reader Bool :=
  read fun s => (s.take 2).length == 2 && (s.take 2).all isDigit && s[2]? == some ':'

def clock : Reader Clock := do
  let hour ← fixedDigits 2 "an hour"
  expect ':' "':' after the hour"
  let minute ← fixedDigits 2 "a minute"
  expect ':' "':' after the minute"
  let second ← fixedDigits 2 "a second"
  if (← peek) = some '.' then do
    advance
    let digits ← run isDigit
    if digits.isEmpty then fail "expected digits after the decimal point"
    else pure ⟨hour, minute, second,
      digitsValue 10 ((digits ++ List.replicate (9 - digits.length) '0').take 9)⟩
  else pure ⟨hour, minute, second, 0⟩

def offset : Reader (Option Int) := do
  match ← peek with
  | none => pure none
  | some c =>
      if c == 'Z' || c == 'z' then do
        advance
        pure (some 0)
      else if c == '+' || c == '-' then do
        advance
        let hours ← fixedDigits 2 "the offset hours"
        expect ':' "':' in the offset"
        let minutes ← fixedDigits 2 "the offset minutes"
        if hours > 23 then fail "an offset cannot be more than 23 hours"
        else if minutes > 59 then fail "an offset cannot be more than 59 minutes"
        else
          let total : Int := hours * 60 + minutes
          pure (some (if c == '-' then -total else total))
      else pure none

def isLeap (year : Nat) : Bool :=
  if year % 4 ≠ 0 then false else if year % 100 ≠ 0 then true else year % 400 == 0

def daysIn (year month : Nat) : Nat :=
  if month = 2 ∧ isLeap year then 29
  else [0, 31, 28, 31, 30, 31, 30, 31, 31, 30, 31, 30, 31].getD month 0

def outside (what : String) (value : Nat) : Reader Unit :=
  raise (.toml (what ++ ", got " ++ toString value).toList)

def checkDate (d : Day) : Reader Unit :=
  if d.year > 9999 then outside "year must be from 0 to 9999" d.year
  else if d.month < 1 ∨ d.month > 12 then outside "month must be from 1 to 12" d.month
  else if d.day < 1 ∨ d.day > daysIn d.year d.month then
    outside ("day must be from 1 to " ++ toString (daysIn d.year d.month) ++ " for month " ++
      toString d.month) d.day
  else pure ()

def checkTime (c : Clock) : Reader Unit :=
  if c.hour > 23 then outside "hour must be from 0 to 23" c.hour
  else if c.minute > 59 then outside "minute must be from 0 to 59" c.minute
  else if c.second > 60 then outside "second must be from 0 to 60" c.second
  else if c.nanosecond > 999999999 then
    outside "nanosecond must be from 0 to 999999999" c.nanosecond
  else pure ()

/-- Whether a `T`, or a space that a clock follows, joins a clock to a date; it is read. -/
def joined : Reader Bool := do
  let first ← peek
  if first == some 'T' || first == some 't' then do
    advance
    pure true
  else do
    let spaced ← read fun s =>
      s.head? == some ' ' && ((s.drop 1).take 2).length == 2 &&
        ((s.drop 1).take 2).all isDigit && s[3]? == some ':'
    if spaced then advance
    pure spaced

def timestamp : Reader (Scalar ν) := do
  if ← startsTime then do
    let c ← clock
    checkTime c
    pure (.localTime c)
  else do
    let year ← fixedDigits 4 "a year"
    expect '-' "'-' after the year"
    let month ← fixedDigits 2 "a month"
    expect '-' "'-' after the month"
    let day ← fixedDigits 2 "a day"
    if ← joined then do
      let c ← clock
      match ← offset with
      | none => do
          checkDate ⟨year, month, day⟩
          checkTime c
          pure (.localDatetime ⟨year, month, day⟩ c)
      | some minutes => do
          checkDate ⟨year, month, day⟩
          checkTime c
          pure (.datetime ⟨year, month, day⟩ c minutes)
    else do
      checkDate ⟨year, month, day⟩
      pure (.localDate ⟨year, month, day⟩)

def word (text : String) : Reader Unit := do
  if ← read fun s => text.toList.isPrefixOf s then skip text.length
  else fail ("expected '" ++ text ++ "'")

/-- The narrowest type that holds an integer of 64 bits, read from what began at `start`. -/
def integer (start : Text) (value : Int) : Reader (Scalar ν) := do
  let raw ← read fun s => start.take (start.length - s.length)
  if value > 9223372036854775807 ∨ value < -9223372036854775808 then
    raise (.parse (raw ++ " is outside the range TOML gives an integer".toList))
  else if value > 9007199254740991 ∨ value < -9007199254740991 then pure (.bigint value)
  else pure (.number value)

def isOctal (c : Char) : Bool := decide ('0' ≤ c) && decide (c ≤ '7')

def isBinary (c : Char) : Bool := c == '0' || c == '1'

/-- The base a prefix names, with its digits. -/
def baseOf (marker : Option Char) : Option (Nat × (Char → Bool)) :=
  if marker = some 'x' then some (16, isHexDigit)
  else if marker = some 'o' then some (8, isOctal)
  else if marker = some 'b' then some (2, isBinary)
  else none

/-- The sign at the front, read. -/
def sign : Reader Text := do
  let first ← peek
  if first == some '+' || first == some '-' then do
    advance
    pure first.toList
  else pure []

def fraction : Reader Text := do
  if (← peek) = some '.' then do
    advance
    digitRun isDigit
  else pure []

def exponent : Reader Text := do
  let first ← peek
  if first == some 'e' || first == some 'E' then do
    advance
    let s ← sign
    let digits ← digitRun isDigit
    pure (s ++ digits)
  else pure []

def decimal (host : Host ν) (start s : Text) : Reader (Scalar ν) := do
  let whole ← digitRun isDigit
  if whole.length > 1 ∧ whole.head? = some '0' then fail "a number cannot have a leading zero"
  let part ← fraction
  let power ← exponent
  if part.isEmpty && power.isEmpty then
    let value : Int := digitsValue 10 whole
    integer start (if s = ['-'] then -value else value)
  else
    pure (.float (host.toNumber (s ++ whole ++ (if part.isEmpty then [] else '.' :: part) ++
      (if power.isEmpty then [] else 'e' :: power))))

def number (host : Host ν) : Reader (Scalar ν) := do
  let start ← read id
  let s ← sign
  let first ← peek
  let marker ← peekAt 1
  if first == some 'i' then do
    word "inf"
    pure (.float (if s = ['-'] then host.negInfinity else host.infinity))
  else if first == some 'n' then do
    word "nan"
    pure (.float host.nan)
  else
    match if first == some '0' && s.isEmpty then baseOf marker else none with
    | some (base, isIn) => do
        skip 2
        let digits ← digitRun isIn
        integer start (digitsValue base digits)
    | none => decimal host start s

def array (value : Reader (Value (Scalar ν))) : Reader (Value (Scalar ν)) := do
  advance
  repeating (fun (items, expecting) => do
    trivia
    if ← atEnd then fail "unterminated array"
    else if (← peek) = some ']' then do
      advance
      pure (.done (.array items))
    else if !expecting then fail "expected ',' between array values"
    else do
      let item ← value
      trivia
      if (← peek) = some ',' then do
        advance
        pure (.next (items ++ [item], true))
      else pure (.next (items ++ [item], false))) ([], true)

def inlineTable (value : Reader (Value (Scalar ν))) : Reader (Value (Scalar ν)) := do
  advance
  repeating (fun (entries, expecting, afterComma) => do
    let _ ← spaces
    let first ← peek
    if first == none then fail "unterminated inline table"
    else if first == some '\n' || first == some '\r' then
      fail "an inline table has to stay on one line"
    else if first == some '\x7d' then
      if afterComma then fail "an inline table cannot end with a comma"
      else do
        advance
        pure (.done (.inlineTable entries))
    else if !expecting then fail "expected ',' between inline table values"
    else do
      let k ← key
      let _ ← spaces
      expect '=' "'=' after a key"
      let _ ← spaces
      let v ← value
      let _ ← spaces
      if (← peek) = some ',' then do
        advance
        pure (.next (entries ++ [(k, v)], true, true))
      else pure (.next (entries ++ [(k, v)], false, false))) ([], true, false)

def string : Reader (Scalar ν) := do
  if (← peek) = some '"' then
    if ← tripled '"' then .string <$> multilineBasic else .string <$> basicString
  else
    if ← tripled '\'' then .string <$> multilineLiteral else .string <$> literalString

def value (host : Host ν) : Nat → Reader (Value (Scalar ν))
  | 0 => spent
  | fuel + 1 => do
      match ← peek with
      | none => fail "expected a value after '='"
      | some c =>
          if c == '\n' || c == '\r' || c == '#' then fail "expected a value after '='"
          else if c == '"' || c == '\'' then .scalar <$> string
          else if c == '[' then array (value host fuel)
          else if c == '\x7b' then inlineTable (value host fuel)
          else if c == 't' then do
            word "true"
            pure (.scalar (.boolean true))
          else if c == 'f' then do
            word "false"
            pure (.scalar (.boolean false))
          else if (← startsDate) || (← startsTime) then .scalar <$> timestamp
          else if isDigit c || c == '+' || c == '-' || c == 'i' || c == 'n' then
            .scalar <$> number host
          else fail ("'" ++ c.toString ++ "' does not start a value")

def pair (host : Host ν) (fuel : Nat) : Reader (Statement (Scalar ν)) := do
  let k ← key
  let _ ← spaces
  expect '=' "'=' after a key"
  let _ ← spaces
  let v ← value host fuel
  lineTail
  endOfLine "a value"
  pure (.pair k v)

def header : Reader (Statement (Scalar ν)) := do
  advance
  let isArray := (← peek) == some '['
  if isArray then advance
  let _ ← spaces
  let k ← key
  let _ ← spaces
  expect ']' (if isArray then "']]' to close the header" else "']' to close the header")
  if isArray then expect ']' "']]' to close the header"
  lineTail
  endOfLine "a table header"
  pure (if isArray then .element k else .table k)

def bom : Char := Char.ofNat 65279

def statements (host : Host ν) (fuel : Nat) : Reader (List (Statement (Scalar ν))) := do
  if (← peek) = some bom then advance
  repeating (fun read' => do
    trivia
    match ← peek with
    | none => pure (.done read')
    | some c => do
        let statement ← if c == '[' then header else pair host fuel
        pure (.next (read' ++ [statement]))) []

/-- The statements a text reads as, where it is read to its end. -/
def readAs (host : Host ν) (fuel : Nat) (text : Text) : Option (List (Statement (Scalar ν))) :=
  match statements host fuel text with
  | some (.ok (read', _)) => some read'
  | _ => none

def parse (host : Host ν) (fuel : Nat) (text : Text) :
    Option (Except Fault (Document (Scalar ν))) :=
  match statements host fuel text with
  | none => none
  | some (.error e) => some (.error e)
  | some (.ok (read', _)) =>
      match Document.declareAll .empty read' with
      | .error refusal => some (.error (.refused refusal))
      | .ok doc => some (.ok doc)

def Document.toValue {σ : Type} (doc : Document σ) (depth : Nat) : Plain σ :=
  Toml.toValue doc.nodes depth []

end Zuri.Toml
