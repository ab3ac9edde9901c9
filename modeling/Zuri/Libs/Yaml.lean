import Zuri.Fuel.Exec
import Zuri.Maps.Ordered

/-!
A parser of YAML, reading its characters on demand. Patterns, numbers and the texts of values
are the language's. Loops over flow collections need the fuel the parser is given; every other
loop has as many turns as there are characters left, and one more.
-/

namespace Zuri.Yaml

open Fuelled

abbrev Text := List Char

structure YamlError where
  message : Text
  line : Int
  column : Int

inductive Fault where
  | yaml (e : YamlError)
  | native (message : Text)

/-- What ends a run early: a fault, or a bracket that closes another collection, where the
parser is asked to stop there. -/
inductive Stop where
  | fault (e : Fault)
  | misplaced

inductive Value (ν : Type) where
  | nil
  | bool (b : Bool)
  | number (n : ν)
  | string (s : Text)
  | list (items : List (Value ν))
  | dict (entries : List (Text × Value ν))

abbrev Entries (ν : Type) := List (Text × Value ν)

structure Host (ν : Type) where
  isMatch : (pattern subject : Text) → Except Text Bool
  replace : (pattern replacement subject : Text) → Except Text Text
  toNumber : (base : Nat) → Text → ν
  equalsWhole : ν → Nat → Bool
  infinity : ν
  negInfinity : ν
  nan : ν
  toText : Value ν → Text

def NULL_VALUES : List Text := ["null", "Null", "NULL", "~", ""].map String.toList

def TRUE_VALUES : List Text := ["true", "True", "TRUE"].map String.toList

def FALSE_VALUES : List Text := ["false", "False", "FALSE"].map String.toList

def INFINITIES : List Text :=
  [".inf", ".Inf", ".INF", "+.inf", "+.Inf", "+.INF"].map String.toList

def NEG_INFINITIES : List Text := ["-.inf", "-.Inf", "-.INF"].map String.toList

def NANS : List Text := [".nan", ".NaN", ".NAN"].map String.toList

def DECIMAL : Text := "/^[-+]?[0-9]+$/".toList

def OCTAL : Text := "/^0o[0-7]+$/".toList

def HEXADECIMAL : Text := "/^0x[0-9A-Fa-f]+$/".toList

def FLOAT : Text := "/^[-+]?(\\.[0-9]+|[0-9]+(\\.[0-9]*)?)([eE][-+]?[0-9]+)?$/".toList

def VERSION : Text := "/^[0-9]+\\.[0-9]+$/".toList

def isWs (c : Char) : Bool := c == ' ' || c == '\t'

def isLb (c : Char) : Bool := c == '\n' || c == '\r'

def isFlowIndicator (c : Char) : Bool := ['{', '}', '[', ']', ','].contains c

/-- What ends an item inside a flow collection. -/
def isFlowEnd (c : Char) : Bool := c == ',' || c == ']' || c == '}'

/-- An error without a place. -/
def unplaced (message : Text) : Fault := .yaml ⟨message, -1, -1⟩

def hexToInt : Nat → Text → Except Fault Nat
  | result, [] => .ok result
  | result, ch :: s =>
      let c := ch.toNat
      if 48 ≤ c ∧ c ≤ 57 then hexToInt (result * 16 + (c - 48)) s
      else if 65 ≤ c ∧ c ≤ 70 then hexToInt (result * 16 + (c - 55)) s
      else if 97 ≤ c ∧ c ≤ 102 then hexToInt (result * 16 + (c - 87)) s
      else .error (unplaced ("invalid hex digit: ".toList ++ [ch]))

/-- Each byte of the encoding is made a character of its own. -/
def codepointToStr (cp : Nat) : Text :=
  if cp < 0x80 then [Char.ofNat cp]
  else if cp < 0x800 then [0xc0 ||| cp >>> 6, 0x80 ||| cp &&& 0x3f].map Char.ofNat
  else if cp < 0x10000 then
    [0xe0 ||| cp >>> 12, 0x80 ||| (cp >>> 6) &&& 0x3f, 0x80 ||| cp &&& 0x3f].map Char.ofNat
  else
    [0xf0 ||| cp >>> 18, 0x80 ||| (cp >>> 12) &&& 0x3f, 0x80 ||| (cp >>> 6) &&& 0x3f,
      0x80 ||| cp &&& 0x3f].map Char.ofNat

def DQUOTE_ESCAPES : List (Char × Char) :=
  [('0', Char.ofNat 0), ('a', Char.ofNat 7), ('b', Char.ofNat 8), ('t', '\t'), ('\t', '\t'),
    ('n', '\n'), ('v', Char.ofNat 11), ('f', Char.ofNat 12), ('r', '\r'), ('e', Char.ofNat 27),
    (' ', ' '), ('"', '"'), ('/', '/'), ('\\', '\\'), ('N', Char.ofNat 133),
    ('_', Char.ofNat 160), ('L', Char.ofNat 8232), ('P', Char.ofNat 8233)]

section
variable {ν : Type} (host : Host ν)

def matching (pattern s : Text) : Except Fault Bool :=
  match host.isMatch pattern s with
  | .ok b => .ok b
  | .error message => .error (.native message)

def replacing (pattern replacement s : Text) : Except Fault Text :=
  match host.replace pattern replacement s with
  | .ok s => .ok s
  | .error message => .error (.native message)

def resolveScalar (s : Text) : Except Fault (Value ν) :=
  if NULL_VALUES.contains s then .ok .nil
  else if TRUE_VALUES.contains s then .ok (.bool true)
  else if FALSE_VALUES.contains s then .ok (.bool false)
  else do
    if ← matching host DECIMAL s then .ok (.number (host.toNumber 10 s))
    else if ← matching host OCTAL s then .ok (.number (host.toNumber 8 (s.drop 2)))
    else if ← matching host HEXADECIMAL s then .ok (.number (host.toNumber 16 (s.drop 2)))
    else if ← matching host FLOAT s then .ok (.number (host.toNumber 10 s))
    else if INFINITIES.contains s then .ok (.number host.infinity)
    else if NEG_INFINITIES.contains s then .ok (.number host.negInfinity)
    else if NANS.contains s then .ok (.number host.nan)
    else .ok (.string s)

def isTag (tag : Text) (name : String) : Bool :=
  tag == "!!".toList ++ name.toList || tag == "tag:yaml.org,2002:".toList ++ name.toList

def applyTag (tag raw : Text) : Except Fault (Value ν) :=
  if isTag tag "str" then .ok (.string raw)
  else if isTag tag "int" then do
    if ← matching host DECIMAL raw then .ok (.number (host.toNumber 10 raw))
    else if ← matching host OCTAL raw then .ok (.number (host.toNumber 8 (raw.drop 2)))
    else if ← matching host HEXADECIMAL raw then .ok (.number (host.toNumber 16 (raw.drop 2)))
    else .error (unplaced ("invalid !!int value: ".toList ++ raw))
  else if isTag tag "float" then do
    if ← matching host FLOAT raw then .ok (.number (host.toNumber 10 raw))
    else if INFINITIES.contains raw then .ok (.number host.infinity)
    else if NEG_INFINITIES.contains raw then .ok (.number host.negInfinity)
    else if NANS.contains raw then .ok (.number host.nan)
    else .error (unplaced ("invalid !!float value: ".toList ++ raw))
  else if isTag tag "bool" then
    if TRUE_VALUES.contains raw then .ok (.bool true)
    else if FALSE_VALUES.contains raw then .ok (.bool false)
    else .error (unplaced ("cannot coerce to bool: ".toList ++ raw))
  else if isTag tag "null" then .ok .nil
  else .ok (.string raw)

def scalarValue (s : Text) (tag : Option Text) (quoted : Bool) : Except Fault (Value ν) :=
  match tag with
  | some tag => applyTag host tag s
  | none => if quoted then .ok (.string s) else resolveScalar host s

/-- The name a value goes by as a key. -/
def keyText : Value ν → Text
  | .string s => s
  | key => host.toText key

end

structure Scanner where
  rest : Text
  line : Nat
  col : Nat

def Scanner.advance (sc : Scanner) : Scanner :=
  match sc.rest with
  | [] => sc
  | ch :: rest => if ch = '\n' then ⟨rest, sc.line + 1, 1⟩ else ⟨rest, sc.line, sc.col + 1⟩

def Scanner.skip : Nat → Scanner → Scanner
  | 0, sc => sc
  | n + 1, sc => Scanner.skip n sc.advance

structure Parser (ν : Type) where
  sc : Scanner
  anchors : Entries ν
  flowDepth : Nat

def Parser.size {ν : Type} (p : Parser ν) : Nat := p.sc.rest.length

abbrev Parse (ν α : Type) := Exec Stop (Parser ν) α

section
variable {ν : Type}

def lift {α : Type} : Except Fault α → Parse ν α
  | .error e => raise (.fault e)
  | .ok a => pure a

def peek (n : Nat) : Parse ν (Option Char) := read fun p => p.sc.rest[n]?

def atEnd : Parse ν Bool := read fun p => p.sc.rest.isEmpty

def column : Parse ν Nat := read fun p => p.sc.col

def skip (n : Nat) : Parse ν Unit := update fun p => { p with sc := p.sc.skip n }

def advance : Parse ν Unit := skip 1

def takeCount (n : Nat) : Parse ν Text := do
  let text ← read fun p => p.sc.rest.take n
  skip n
  pure text

def takeWhile (ok : Char → Bool) : Parse ν Text := do
  let text ← read fun p => p.sc.rest.takeWhile ok
  skip text.length
  pure text

def skipWhile (ok : Char → Bool) : Parse ν Unit := do
  let _ ← takeWhile ok
  pure ()

def skipSpaces : Parse ν Unit := skipWhile isWs

def skipComment : Parse ν Unit := skipWhile fun c => c != '\n'

def skipInlineWs : Parse ν Unit := do
  skipSpaces
  if (← peek 0) = some '#' then skipComment else pure ()

def consumeNewline : Parse ν Unit := do
  if (← peek 0) = some '\n' then advance else pure ()

/-- The length of the blanks, line breaks and comments a text begins with. -/
def blanksLength (comment : Bool) : Text → Nat
  | [] => 0
  | ch :: rest =>
      if comment && ch != '\n' then blanksLength true rest + 1
      else if isWs ch || ch == '\n' then blanksLength false rest + 1
      else if ch == '#' then blanksLength true rest + 1
      else 0

def skipWsAndComments : Parse ν Unit := do
  let n ← read fun p => blanksLength false p.sc.rest
  skip n

def atMarker (ch : Char) : Parse ν Bool := read fun p => p.sc.rest.take 3 == [ch, ch, ch]

def error {α : Type} (message : Text) : Parse ν α := do
  let sc ← read fun p => p.sc
  raise (.fault (.yaml ⟨message, sc.line, sc.col⟩))

/-- What may stand after the colon of a key. -/
def endsKey : Option Char → Bool
  | none => true
  | some ch => isWs ch || ch == '\n'

def readPlainToWs : Parse ν Text := takeWhile fun ch => !(isWs ch || isLb ch)

end

section
variable {ν : Type}

def isNameEnd (ch : Char) : Bool := isWs ch || isLb ch || isFlowIndicator ch || ch == ':'

def parseAnchor : Parse ν Text := do
  advance
  let name ← takeWhile fun ch => !isNameEnd ch
  if name = [] then error "empty anchor name".toList else pure name

def parseAlias : Parse ν (Value ν) := do
  advance
  let name ← takeWhile fun ch => !isNameEnd ch
  if name = [] then error "empty alias name".toList
  else
    match ← read fun p => OrderedMap.get (· == ·) p.anchors name with
    | some val => pure val
    | none => error ("undefined alias: *".toList ++ name)

def parseTag : Parse ν Text := do
  advance
  let ch ← peek 0
  if ch = some '<' then do
    advance
    let uri ← takeWhile fun ch => ch != '>'
    if ← atEnd then error "unterminated verbatim tag".toList
    else do
      advance
      pure ("tag:".toList ++ uri)
  else if ch = some '!' then do
    advance
    let name ← readPlainToWs
    pure ("!!".toList ++ name)
  else do
    let name ← readPlainToWs
    pure ('!' :: name)

end

section
variable {ν : Type} (host : Host ν)

/-- A line break inside quotes is a blank, or the empty lines after it. -/
def foldBreak : Parse ν Text := do
  advance
  let blank ← takeWhile fun ch => ch == '\n'
  skipWhile isWs
  pure (if 0 < blank.length then List.replicate blank.length '\n' else [' '])

def hexEscape (digits : Nat) : Parse ν Text := do
  advance
  let hex ← takeCount digits
  let cp ← lift (hexToInt 0 hex)
  pure (codepointToStr cp)

def escape (esc : Char) : Parse ν Text :=
  match DQUOTE_ESCAPES.lookup esc with
  | some ch => do
      advance
      pure [ch]
  | none =>
      if esc = 'x' then hexEscape 2
      else if esc = 'u' then hexEscape 4
      else if esc = 'U' then hexEscape 8
      else if esc = '\n' then do
        advance
        skipWhile isWs
        pure []
      else error ("unknown escape sequence: \\".toList ++ [esc])

def doubleQuotedTurn (tag : Option Text) (result : Text) :
    Parse ν (Turn Text (Value ν)) := do
  match ← peek 0 with
  | none => error "unterminated double-quoted scalar".toList
  | some ch =>
      if ch = '"' then do
        advance
        .done <$> lift (scalarValue host result tag true)
      else if ch = '\\' then do
        advance
        match ← peek 0 with
        | none => error "unexpected end after backslash in double-quoted scalar".toList
        | some esc => do
            let text ← escape esc
            pure (.next (result ++ text))
      else if ch = '\n' then do
        let text ← foldBreak
        pure (.next (result ++ text))
      else do
        advance
        pure (.next (result ++ [ch]))

def parseDoubleQuoted (tag : Option Text) : Parse ν (Value ν) := do
  advance
  turns Parser.size (doubleQuotedTurn host tag) []

def singleQuotedTurn (tag : Option Text) (result : Text) :
    Parse ν (Turn Text (Value ν)) := do
  match ← peek 0 with
  | none => error "unterminated single-quoted scalar".toList
  | some ch =>
      if ch = '\'' then do
        advance
        if (← peek 0) = some '\'' then do
          advance
          pure (.next (result ++ ['\'']))
        else .done <$> lift (scalarValue host result tag true)
      else if ch = '\n' then do
        let text ← foldBreak
        pure (.next (result ++ text))
      else do
        advance
        pure (.next (result ++ [ch]))

def parseSingleQuoted (tag : Option Text) : Parse ν (Value ν) := do
  advance
  turns Parser.size (singleQuotedTurn host tag) []

structure Plain where
  result : Text
  spaceBuf : Text
  first : Bool

/-- The length of the blank lines a text begins with, and how many they are. -/
def blankLines : (spaces : Nat) → Text → Nat × Nat
  | _, [] => (0, 0)
  | spaces, ch :: rest =>
      if ch = ' ' then blankLines (spaces + 1) rest
      else if ch = '\n' then
        let more := blankLines 0 rest
        (spaces + 1 + more.1, more.2 + 1)
      else (0, 0)

def indentOf (s : Text) : Nat := (s.takeWhile (· == ' ')).length

def plainBreak (indent : Nat) (p : Plain) : Parse ν (Option Plain) := do
  advance
  let blank ← read fun st => blankLines 0 st.sc.rest
  skip blank.1
  let contIndent ← read fun st => indentOf st.sc.rest
  if contIndent ≤ indent ∧ p.first = false then pure none
  else if (← atMarker '-') || (← atMarker '.') || (← atEnd) then pure none
  else if 0 < blank.2 then
    pure (some { p with result := p.result ++ List.replicate blank.2 '\n', spaceBuf := [] })
  else do
    skipWhile isWs
    pure (some { p with spaceBuf := [' '] })

def plainEnd (tag : Option Text) (p : Plain) : Parse ν (Turn Plain (Value ν)) :=
  .done <$> lift (scalarValue host p.result tag false)

def plainTurn (indent : Nat) (inFlow : Bool) (tag : Option Text) (p : Plain) :
    Parse ν (Turn Plain (Value ν)) := do
  match ← peek 0 with
  | none => plainEnd host tag p
  | some ch =>
      let depth ← read fun st => st.flowDepth
      if (inFlow = true ∨ 0 < depth) ∧ isFlowEnd ch then plainEnd host tag p
      else if ch = '\n' then do
        match ← plainBreak indent p with
        | none => plainEnd host tag p
        | some p => pure (.next p)
      else if ch = '#' ∧ (p.result = [] ∨ p.result.getLast? = some ' ') then plainEnd host tag p
      else if ch = ':' ∧ inFlow = false ∧ endsKey (← peek 1) then plainEnd host tag p
      else if isWs ch then do
        advance
        let nx ← peek 0
        if nx = some '#' then plainEnd host tag p
        else if nx = some ':' ∧ endsKey (← peek 1) then plainEnd host tag p
        else pure (.next { p with spaceBuf := p.spaceBuf ++ [ch] })
      else do
        advance
        pure (.next ⟨p.result ++ p.spaceBuf ++ [ch], [], false⟩)

def parsePlainScalar (indent : Nat) (inFlow : Bool) (tag : Option Text) : Parse ν (Value ν) :=
  turns Parser.size (plainTurn host indent inFlow tag) ⟨[], [], true⟩

end

inductive Chomp where
  | clip
  | strip
  | keep
deriving DecidableEq

section
variable {ν : Type} (host : Host ν)

def blockHeader : Nat → Chomp → Option Nat → Parse ν (Chomp × Option Nat)
  | 0, chomp, explicit => pure (chomp, explicit)
  | n + 1, chomp, explicit => do
      match ← peek 0 with
      | none => raise (.fault (.native "ord() must be called on a single character, got ".toList))
      | some ch =>
          if ch = '-' then do
            advance
            blockHeader n .strip explicit
          else if ch = '+' then do
            advance
            blockHeader n .keep explicit
          else if 49 ≤ ch.toNat ∧ ch.toNat ≤ 57 then do
            advance
            blockHeader n chomp (some (ch.toNat - 48))
          else pure (chomp, explicit)

/-- The indentation of the first line of a text that has content. -/
def contentIndent : (spaces : Nat) → Text → Option Nat
  | _, [] => none
  | spaces, ch :: rest =>
      if ch = ' ' then contentIndent (spaces + 1) rest
      else if ch = '\n' then contentIndent 0 rest
      else some spaces

def blockIndentOf (indent : Nat) (explicit : Option Nat) (s : Text) : Nat :=
  match explicit with
  | some n => n
  | none =>
      match contentIndent 0 s with
      | some n => if indent ≤ n then n else indent
      | none => indent

structure Line where
  text : Text
  blank : Bool

def skipBlankLine (lineIndent : Nat) : Parse ν Unit := do
  skip lineIndent
  consumeNewline

def takeLine (blockIndent : Nat) : Parse ν Text := do
  skip blockIndent
  let text ← takeWhile fun ch => ch != '\n'
  consumeNewline
  pure text

def blockLineTurn (blockIndent : Nat) (lines : List Line) :
    Parse ν (Turn (List Line) (List Line)) := do
  if ← atEnd then pure (.done lines)
  else do
    let lineIndent ← read fun st => indentOf st.sc.rest
    if (← peek lineIndent) = some '\n' then do
      skipBlankLine lineIndent
      pure (.next (lines ++ [⟨[], true⟩]))
    else if lineIndent < blockIndent then pure (.done lines)
    else do
      let text ← takeLine blockIndent
      pure (.next (lines ++ [⟨text, false⟩]))

def foldLines (keepBlanks : Bool) : List Line → Text
  | [] => []
  | ln :: rest =>
      if ln.blank then '\n' :: foldLines keepBlanks rest
      else
        ln.text ++
          match rest with
          | [] => ['\n']
          | next :: rest' =>
              if next.blank then
                '\n' :: (if keepBlanks then foldLines keepBlanks rest'
                  else foldLines keepBlanks (next :: rest'))
              else ' ' :: foldLines keepBlanks (next :: rest')

def TRAILING_BREAKS : Text := "/\n+$/".toList

def chomped (chomp : Chomp) (result : Text) : Except Fault Text :=
  match chomp with
  | .strip => replacing host TRAILING_BREAKS [] result
  | .clip => do
      let result ← replacing host TRAILING_BREAKS [] result
      .ok (result ++ ['\n'])
  | .keep => .ok result

def parseBlockScalar (indent : Nat) (literal : Bool) (tag : Option Text) :
    Parse ν (Value ν) := do
  advance
  let (chomp, explicit) ← blockHeader 2 .clip none
  skipInlineWs
  consumeNewline
  let blockIndent ← read fun st => blockIndentOf indent explicit st.sc.rest
  let lines ← turns Parser.size (blockLineTurn blockIndent) []
  let result := if literal then lines.flatMap fun ln => ln.text ++ ['\n']
    else foldLines (chomp ≠ .keep) lines
  let result ← lift (chomped host chomp result)
  match tag with
  | some tag => lift (applyTag host tag result)
  | none => pure (.string result)

end

section
variable {ν : Type} (host : Host ν) (node : Nat → Bool → Parse ν (Value ν)) (strict : Bool)
  (fuel : Nat)

def put (map : Entries ν) (key : Text) (val : Value ν) : Entries ν :=
  OrderedMap.put (· == ·) map key val

def mergeEntries (map entries : Entries ν) : Entries ν :=
  entries.foldl (fun map e => if (OrderedMap.get (· == ·) map e.1).isSome then map
    else put map e.1 e.2) map

def applyMerge (map : Entries ν) : Value ν → Entries ν
  | .dict entries => mergeEntries map entries
  | .list items => items.foldl (fun map item =>
      match item with
      | .dict entries => mergeEntries map entries
      | _ => map) map
  | _ => map

def MERGE_KEY : Text := ['<', '<']

def insert (map : Entries ν) (key val : Value ν) : Entries ν :=
  if keyText host key = MERGE_KEY then applyMerge map val else put map (keyText host key) val

def sequenceItem (seqIndent : Nat) : Parse ν (Value ν) := do
  if (← peek 0) = some '\n' ∨ (← peek 0) = none then do
    consumeNewline
    skipWsAndComments
    if ← atEnd then pure .nil
    else do
      let col ← column
      if seqIndent < col - 1 then node (seqIndent + 1) false else pure .nil
  else do
    skipSpaces
    if (← peek 0) = some '\n' ∨ (← peek 0) = none then pure .nil
    else node (seqIndent + 1) false

def sequenceEntry (seqIndent : Nat) (items : List (Value ν)) :
    Parse ν (Turn (List (Value ν)) (Value ν)) := do
  advance
  let item ← sequenceItem node seqIndent
  skipInlineWs
  consumeNewline
  pure (.next (items ++ [item]))

def blockSequenceTurn (seqIndent : Nat) (items : List (Value ν)) :
    Parse ν (Turn (List (Value ν)) (Value ν)) := do
  skipWsAndComments
  if ← atEnd then pure (.done (.list items))
  else if (← column) - 1 ≠ seqIndent then pure (.done (.list items))
  else if (← peek 0) ≠ some '-' then pure (.done (.list items))
  else if !endsKey (← peek 1) then pure (.done (.list items))
  else sequenceEntry node seqIndent items

def parseBlockSequence : Parse ν (Value ν) := do
  let col ← column
  turns Parser.size (blockSequenceTurn node (col - 1)) []

/-- How much of a text is a plain key. -/
def keyLength : Text → Nat
  | [] => 0
  | ch :: rest =>
      if ch = ':' ∧ endsKey rest.head? then 0 else if ch = '\n' then 0 else keyLength rest + 1

/-- The characters a trim takes off. -/
def isTrimmed (ch : Char) : Bool :=
  [' ', '\t', '\n', '\r', Char.ofNat 11, Char.ofNat 12].contains ch

def trim (s : Text) : Text := (((s.dropWhile isTrimmed).reverse).dropWhile isTrimmed).reverse

def parseBlockMappingKey : Parse ν (Value ν) := do
  skipSpaces
  let ch ← peek 0
  if ch = some '"' then parseDoubleQuoted host none
  else if ch = some '\'' then parseSingleQuoted host none
  else if ch = some '*' then parseAlias
  else do
    let n ← read fun p => keyLength p.sc.rest
    let key ← takeCount n
    pure (.string (trim key))

def atComplexKey : Parse ν Bool := read fun p =>
  p.sc.rest[0]? = some '?' ∧ p.sc.rest[1]? ≠ none ∧ endsKey p.sc.rest[1]?

def skipColon : Parse ν Unit := do
  if (← peek 0) = some ':' then advance else pure ()

def skipBreak : Parse ν Unit := do
  if (← peek 0) = some '\n' then do
    consumeNewline
    skipWsAndComments
  else pure ()

def skipKeyColon : Parse ν Unit := do
  if (← peek 0) = some ':' then do
    advance
    skipSpaces
  else pure ()

def mappingKey (mapIndent : Nat) : Parse ν (Value ν) := do
  if ← atComplexKey then do
    advance
    skipSpaces
    skipBreak
    let key ← node (mapIndent + 1) false
    skipWsAndComments
    skipKeyColon
    pure key
  else parseBlockMappingKey host

def keyAndColon (mapIndent : Nat) : Parse ν (Value ν) := do
  let key ← mappingKey host node mapIndent
  skipSpaces
  skipColon
  pure key

def mappingValue (mapIndent : Nat) : Parse ν (Value ν) := do
  if (← peek 0) = some '\n' ∨ (← peek 0) = none then do
    consumeNewline
    skipWsAndComments
    let col ← column
    if mapIndent < col - 1 then node (mapIndent + 1) false else pure .nil
  else do
    let val ← node (mapIndent + 1) false
    skipInlineWs
    consumeNewline
    pure val

def mappingEntry (mapIndent : Nat) (map : Entries ν) :
    Parse ν (Turn (Entries ν) (Value ν)) := do
  let key ← keyAndColon host node mapIndent
  skipSpaces
  let val ← mappingValue node mapIndent
  pure (.next (insert host map key val))

def blockMappingTurn (mapIndent : Nat) (map : Entries ν) :
    Parse ν (Turn (Entries ν) (Value ν)) := do
  skipWsAndComments
  if ← atEnd then pure (.done (.dict map))
  else if (← column) - 1 ≠ mapIndent then pure (.done (.dict map))
  else if (← atMarker '-') || (← atMarker '.') then pure (.done (.dict map))
  else mappingEntry host node mapIndent map

def parseBlockMapping : Parse ν (Value ν) := do
  let col ← column
  turns Parser.size (blockMappingTurn host node (col - 1)) []

def skipComma : Parse ν Unit := do
  if (← peek 0) = some ',' then do
    advance
    skipWsAndComments
  else pure ()

def closeFlow : Parse ν Unit := do
  advance
  update fun p => { p with flowDepth := p.flowDepth - 1 }

def openFlow : Parse ν Unit := do
  advance
  update fun p => { p with flowDepth := p.flowDepth + 1 }
  skipWsAndComments

def flowItem : Parse ν (Value ν) := do
  let item ← node 0 true
  skipWsAndComments
  skipComma
  pure item

/-- A turn of the loop over a flow sequence; a strict one stops before a brace that closes. -/
def flowSequenceTurn (items : List (Value ν)) :
    Parse ν (Turn (List (Value ν)) (Value ν)) := do
  match ← peek 0 with
  | none => error "unterminated flow sequence".toList
  | some ch =>
      if ch = ']' then do
        closeFlow
        pure (.done (.list items))
      else if ch = ',' then do
        skipComma
        pure (.next items)
      else if strict ∧ ch = '}' then raise .misplaced
      else do
        let item ← flowItem node
        pure (.next (items ++ [item]))

def parseFlowSequence : Parse ν (Value ν) := do
  openFlow
  loop (flowSequenceTurn node strict) fuel []

def isFlowKeyEnd (ch : Char) : Bool := isFlowEnd ch || ch == ':' || ch == '\n'

def parseFlowKey : Parse ν (Value ν) := do
  let ch ← peek 0
  if ch = some '"' then parseDoubleQuoted host none
  else if ch = some '\'' then parseSingleQuoted host none
  else do
    let key ← takeWhile fun ch => !isFlowKeyEnd ch
    lift (resolveScalar host (trim key))

def flowValue : Parse ν (Value ν) := do
  if (← peek 0) = some ':' then do
    advance
    skipWsAndComments
    node 0 true
  else pure .nil

def flowEntry : Parse ν (Value ν × Value ν) := do
  let key ← parseFlowKey host
  skipWsAndComments
  let val ← flowValue node
  skipWsAndComments
  skipComma
  pure (key, val)

/-- A turn of the loop over a flow mapping; a strict one stops before a bracket that closes. -/
def flowMappingTurn (map : Entries ν) : Parse ν (Turn (Entries ν) (Value ν)) := do
  match ← peek 0 with
  | none => error "unterminated flow mapping".toList
  | some ch =>
      if ch = '}' then do
        closeFlow
        pure (.done (.dict map))
      else if ch = ',' then do
        skipComma
        pure (.next map)
      else if strict ∧ ch = ']' then raise .misplaced
      else do
        let entry ← flowEntry host node
        pure (.next (insert host map entry.1 entry.2))

def parseFlowMapping : Parse ν (Value ν) := do
  openFlow
  loop (flowMappingTurn host node strict) fuel []

/-- Whether a colon that ends a key stands on the line, outside quotes and brackets. -/
def hasKey (first : Bool) (depth : Nat) (single double afterBlank : Bool) : Text → Bool
  | [] => false
  | ch :: rest =>
      let double' := if ch == '"' && !single then !double else double
      let single' := if ch == '\'' && !double then !single else single
      if !single' && !double' then
        if ch = '[' ∨ ch = '{' then hasKey false (depth + 1) single' double' (isWs ch) rest
        else if ch = ']' ∨ ch = '}' then
          if depth = 0 then false else hasKey false (depth - 1) single' double' (isWs ch) rest
        else if ch = ':' ∧ depth = 0 then
          if endsKey rest.head? then true else hasKey false depth single' double' (isWs ch) rest
        else if ch = '\n' then false
        else if ch = '#' ∧ (first ∨ afterBlank) then false
        else hasKey false depth single' double' (isWs ch) rest
      else hasKey false depth single' double' (isWs ch) rest

def couldBeBlockMapping : Parse ν Bool :=
  read fun p => p.flowDepth == 0 && hasKey true 0 false false false p.sc.rest

def dispatch (indent : Nat) (inFlow : Bool) (tag : Option Text) : Parse ν (Value ν) := do
  let ch ← peek 0
  let nx ← peek 1
  if ch = some '[' then parseFlowSequence node strict fuel
  else if ch = some '{' then parseFlowMapping host node strict fuel
  else if ch = some '|' then parseBlockScalar host indent true tag
  else if ch = some '>' then parseBlockScalar host indent false tag
  else if ch = some '-' ∧ nx ≠ none ∧ endsKey nx then parseBlockSequence node
  else if ch = some '?' ∧ nx ≠ none ∧ endsKey nx then parseBlockMapping host node
  else if ← couldBeBlockMapping then parseBlockMapping host node
  else if ch = some '"' then parseDoubleQuoted host tag
  else if ch = some '\'' then parseSingleQuoted host tag
  else parsePlainScalar host indent inFlow tag

def parseValue (indent : Nat) (inFlow : Bool) (tag : Option Text) : Parse ν (Value ν) := do
  skipSpaces
  if (← peek 0) = some '\n' ∨ (← peek 0) = none then do
    consumeNewline
    skipWsAndComments
    if ← atEnd then pure .nil
    else do
      skipSpaces
      dispatch host node strict fuel indent inFlow tag
  else dispatch host node strict fuel indent inFlow tag

structure Props where
  tag : Option Text := none
  anchor : Option Text := none

def propsTurn (props : Props) : Parse ν (Turn Props Props) := do
  skipSpaces
  let ch ← peek 0
  if ch = some '&' then do
    let anchor ← parseAnchor
    skipSpaces
    pure (.next { props with anchor := some anchor })
  else if ch = some '!' then do
    let tag ← parseTag
    skipSpaces
    pure (.next { props with tag := some tag })
  else pure (.done props)

def setAnchor (anchor : Option Text) (val : Value ν) : Parse ν Unit :=
  match anchor with
  | some name => update fun p => { p with anchors := put p.anchors name val }
  | none => pure ()

def nodeValue (indent : Nat) (inFlow : Bool) (tag : Option Text) : Parse ν (Value ν) := do
  if (← peek 0) = some '*' then parseAlias
  else parseValue host node strict fuel indent inFlow tag

def nodeBody (indent : Nat) (inFlow : Bool) : Parse ν (Value ν) := do
  skipWsAndComments
  if ← atEnd then pure .nil
  else do
    let props ← turns Parser.size propsTurn {}
    let val ← nodeValue host node strict fuel indent inFlow props.tag
    setAnchor props.anchor val
    pure val

end

/-- A node, by the nodes inside it. -/
def parseNode {ν : Type} (host : Host ν) (strict : Bool) :
    (fuel indent : Nat) → (inFlow : Bool) → Parse ν (Value ν)
  | 0, _, _ => spent
  | fuel + 1, indent, inFlow =>
      nodeBody host (parseNode host strict fuel) strict fuel indent inFlow

section
variable {ν : Type} (host : Host ν) (strict : Bool) (fuel : Nat)

def checkVersion (version : Text) : Parse ν Unit := do
  if ← lift (matching host VERSION version) then do
    let major := host.toNumber 10 (version.takeWhile (· != '.'))
    if host.equalsWhole major 1 then pure ()
    else error ("unsupported YAML version ".toList ++ version ++
      " (this parser implements 1.2.2)".toList)
  else error ("malformed %YAML directive version: ".toList ++ version)

def directiveVersion (name : Text) : Parse ν Unit := do
  if name = "YAML".toList then do
    let version ← takeWhile fun ch => !isWs ch && ch != '\n'
    checkVersion host version
  else pure ()

def parseDirective : Parse ν Unit := do
  advance
  let name ← readPlainToWs
  skipSpaces
  directiveVersion host name
  skipWhile fun ch => ch != '\n'
  consumeNewline

/-- The rest of a line that a marker of a document begins. -/
def endMarker : Parse ν Unit := do
  skip 3
  skipInlineWs
  consumeNewline

def prefixTurn (_ : Unit) : Parse ν (Turn Unit Unit) := do
  if ← atEnd then pure (.done ())
  else do
    skipSpaces
    let ch ← peek 0
    if ch = some '%' then do
      parseDirective host
      pure (.next ())
    else if ← atMarker '-' then do
      endMarker
      pure (.done ())
    else if ch = some '\n' then do
      advance
      pure (.next ())
    else pure (.done ())

def skipDocumentPrefix : Parse ν Unit := turns Parser.size (prefixTurn host) ()

def suffixTurn (_ : Unit) : Parse ν (Turn Unit Bool) := do
  if ← atEnd then pure (.done true)
  else do
    skipSpaces
    if (← peek 0) = some '\n' then do
      advance
      pure (.next ())
    else if ← atMarker '.' then do
      endMarker
      pure (.next ())
    else if ← atMarker '-' then pure (.done true)
    else pure (.done false)

def skipDocumentSuffix : Parse ν Bool := turns Parser.size suffixTurn ()

def parseDocument : Parse ν (Value ν) := do
  skipWsAndComments
  if ← atEnd then pure .nil
  else if (← atMarker '.') || (← atMarker '-') then pure .nil
  else parseNode host strict fuel 0 false

def checkSuffix : Parse ν Unit := do
  if ← skipDocumentSuffix then pure ()
  else do
    let ch ← peek 0
    error ("unexpected content after end of document: ".toList ++ ch.toList)

def parseOne : Parse ν (Value ν) := do
  skipDocumentPrefix host
  let val ← parseDocument host strict fuel
  checkSuffix
  pure val

def streamTurn (docs : List (Value ν)) : Parse ν (Turn (List (Value ν)) (List (Value ν))) := do
  if ← atEnd then pure (.done docs)
  else do
    skipDocumentPrefix host
    if ← atEnd then pure (.done docs)
    else do
      skipWsAndComments
      if ← atEnd then pure (.done docs)
      else if ← atMarker '.' then do
        let _ ← skipDocumentSuffix
        pure (.next docs)
      else do
        let doc ← parseDocument host strict fuel
        checkSuffix
        pure (.next (docs ++ [doc]))

def parseStream : Parse ν (List (Value ν)) :=
  turns Parser.size (streamTurn host strict fuel) []

def stripBom (text : Text) : Text :=
  if text.take 3 = [Char.ofNat 0xef, Char.ofNat 0xbb, Char.ofNat 0xbf] then text.drop 3 else text

def CRLF : Text := "/\\r\\n/".toList

def CR : Text := "/\r/".toList

def newParser (text : Text) : Except Fault (Parser ν) := do
  let src ← replacing host CRLF ['\n'] (stripBom text)
  let src ← replacing host CR ['\n'] src
  .ok ⟨⟨src, 1, 1⟩, [], 0⟩

/-- A result without the state it leaves. -/
def settle {α : Type} (r : Option (Except Stop (α × Parser ν))) : Option (Except Stop α) :=
  match r with
  | none => none
  | some (.error e) => some (.error e)
  | some (.ok (a, _)) => some (.ok a)

/-- What a run gives: nothing while it has not ended. -/
def outcome {α : Type} (run : Parse ν α) (text : Text) : Option (Except Stop α) :=
  match newParser host text with
  | .error e => some (.error (.fault e))
  | .ok p => settle (run p)

def parse (text : Text) : Option (Except Stop (Value ν)) :=
  outcome host (parseOne host strict fuel) text

def parseAll (text : Text) : Option (Except Stop (List (Value ν))) :=
  outcome host (parseStream host strict fuel) text

end

end Zuri.Yaml
