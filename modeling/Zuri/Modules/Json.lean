import Mathlib.Data.Nat.Log
import Zuri.Float.Binary64

/-!
The encoder and the decoder of the json module, on texts as lists of characters. The numbers of
both are the standard library's: a text is read as the double nearest to the decimal it spells,
and a double is written with the fewest digits that are read as it again.
-/

namespace Zuri.Json

abbrev Text := List Char

inductive Value where
  | nil
  | bool (value : Bool)
  | number (value : F64)
  | string (text : Text)
  | list (items : List Value)
  | dict (entries : List (Text × Value))

/-- A decimal numeral as it is written, without its sign. -/
structure Numeral where
  whole : Text
  fraction : Option Text
  exponent : Option (Char × Text × Text)
  deriving DecidableEq

namespace Numeral

def fractionText : Option Text → Text
  | none => []
  | some digits => '.' :: digits

def exponentText : Option (Char × Text × Text) → Text
  | none => []
  | some (letter, sign, digits) => letter :: sign ++ digits

def text (u : Numeral) : Text := u.whole ++ fractionText u.fraction ++ exponentText u.exponent

def natOf (digits : Text) : Nat := digits.foldl (fun n c => n * 10 + (c.toNat - '0'.toNat)) 0

def exponentOf : Option (Char × Text × Text) → Int
  | none => 0
  | some (_, sign, digits) => if sign = ['-'] then -(natOf digits : Int) else natOf digits

/-- The double nearest to a decimal. -/
def decimal (neg : Bool) (digits : Nat) (exponent : Int) : F64 :=
  F64.ofNum (F64.round neg (digits * 10 ^ exponent.toNat * F64.one) (10 ^ (-exponent).toNat))

def value (u : Numeral) (neg : Bool) : F64 :=
  decimal neg (natOf (u.whole ++ u.fraction.getD []))
    (exponentOf u.exponent - (u.fraction.getD []).length)

end Numeral

def scanFraction : Text → Option Text × Text
  | '.' :: s => (some (s.takeWhile Char.isDigit), s.dropWhile Char.isDigit)
  | s => (none, s)

def scanSign : Text → Text × Text
  | '+' :: s => (['+'], s)
  | '-' :: s => (['-'], s)
  | s => ([], s)

def scanExponent : Text → Option (Char × Text × Text) × Text
  | [] => (none, [])
  | c :: s =>
      if c = 'e' ∨ c = 'E' then
        (some (c, (scanSign s).1, (scanSign s).2.takeWhile Char.isDigit),
          (scanSign s).2.dropWhile Char.isDigit)
      else (none, c :: s)

def scanNumeral (s : Text) : Numeral × Text :=
  let whole := s.takeWhile Char.isDigit
  let (fraction, s) := scanFraction (s.dropWhile Char.isDigit)
  let (exponent, s) := scanExponent s
  (⟨whole, fraction, exponent⟩, s)

/-- A digit on some side of the point, and in the exponent when there is one. -/
def Numeral.isDecimal (u : Numeral) : Bool :=
  !(u.whole ++ u.fraction.getD []).isEmpty &&
    match u.exponent with
    | none => true
    | some (_, _, digits) => !digits.isEmpty

/-- The standard library's reading of a double. -/
def parseF64 (text : Text) : Option F64 :=
  let neg := text.head? = some '-'
  let (u, rest) := scanNumeral (scanSign text).2
  if rest = [] ∧ u.isDecimal then some (u.value neg)
  else
    let word := (scanSign text).2.map Char.toLower
    if word = "inf".toList ∨ word = "infinity".toList then some (F64.ofNum (.inf neg))
    else if word = "nan".toList then some (F64.ofNum .nan)
    else none

def digitChar (n : Nat) : Char := Char.ofNat ('0'.toNat + n % 10)

/-- The last `width` digits of a number. -/
def lastDigits : Nat → Nat → Text
  | 0, _ => []
  | width + 1, n => lastDigits width (n / 10) ++ [digitChar n]

def digitsOf (n : Nat) : Text := lastDigits (Nat.log 10 n + 1) n

/-- A decimal written out, without an exponent. -/
def formatDecimal (digits : Nat) (exponent : Int) : Numeral :=
  if 0 ≤ exponent then ⟨digitsOf (digits * 10 ^ exponent.toNat), none, none⟩
  else
    let places := (-exponent).toNat
    ⟨digitsOf (digits / 10 ^ places), some (lastDigits places (digits % 10 ^ places)), none⟩

/-- A decimal without the zeros at the end of its fraction. -/
def trimZeros : Nat → Nat → Int → Numeral
  | 0, digits, exponent => formatDecimal digits exponent
  | fuel + 1, digits, exponent =>
      if exponent < 0 ∧ digits % 10 = 0 then trimZeros fuel (digits / 10) (exponent + 1)
      else formatDecimal digits exponent

/-- The decimals of `count` digits next to a magnitude, the nearer one first. -/
def candidates (mag count : Nat) : List Numeral :=
  let exponent : Int := (Nat.log 10 (mag * 10 ^ 400 / F64.one) : Int) - 400 - count + 1
  let unit := F64.one * 10 ^ exponent.toNat
  let scaled := mag * 10 ^ (-exponent).toNat
  let below := trimZeros count (scaled / unit) exponent
  let above := trimZeros (count + 1) (scaled / unit + 1) exponent
  if unit ≤ 2 * (scaled % unit) then [above, below] else [below, above]

def exactDecimal (mag : Nat) : Numeral := formatDecimal (mag * 5 ^ 1074) (-1074)

/-- The shortest decimal that is read as a magnitude. Seventeen digits are always enough; the
exact decimal stands after them only so that there always is one. -/
def shortest (mag : Nat) : Numeral :=
  if mag = 0 then formatDecimal 0 0
  else
    let found := (List.range 17).findSome? fun count =>
      (candidates mag (count + 1)).find? fun u =>
        decide (u.value false = F64.ofNum (.fin false mag))
    found.getD (exactDecimal mag)

def minusText (neg : Bool) : Text := if neg then ['-'] else []

/-- The standard library's text of a double. -/
def displayF64 (x : F64) : Text :=
  match x.num with
  | .nan => "NaN".toList
  | .inf neg => minusText neg ++ "inf".toList
  | .fin neg mag => minusText neg ++ (shortest mag).text

def DEFAULT_MAX_DEPTH : Nat := 1024

structure EncodeOpts where
  compact : Bool
  maxDepth : Nat

def pushIndent (depth : Nat) : Text := (List.replicate depth "  ".toList).flatten

def hexDigit (n : Nat) : Char := "0123456789abcdef".toList.getD (n % 16) '0'

def encodeChar (c : Char) : Text :=
  if c = '"' then ['\\', '"']
  else if c = '\\' then ['\\', '\\']
  else if c = '\n' then ['\\', 'n']
  else if c = '\r' then ['\\', 'r']
  else if c = '\t' then ['\\', 't']
  else if c = '\x08' then ['\\', 'b']
  else if c = '\x0c' then ['\\', 'f']
  else if c.toNat < 0x20 then
    ['\\', 'u', hexDigit (c.toNat / 4096), hexDigit (c.toNat / 256), hexDigit (c.toNat / 16),
      hexDigit c.toNat]
  else [c]

def encodeJsonString (s : Text) : Text := '"' :: s.flatMap encodeChar ++ ['"']

namespace EncodeOpts

def opening (o : EncodeOpts) : Text := if o.compact then [] else ['\n']
def before (o : EncodeOpts) (depth : Nat) : Text := if o.compact then [] else pushIndent depth
def colon (o : EncodeOpts) : Text := if o.compact then [':'] else [':', ' ']
def after (o : EncodeOpts) (last : Bool) : Text :=
  (if last then [] else [',']) ++ if o.compact then [] else ['\n']

end EncodeOpts

mutual

def encodeValue (o : EncodeOpts) (depth : Nat) (v : Value) : Except String Text :=
  if o.maxDepth < depth then
    .error s!"json.encode(): maximum encoding depth of {o.maxDepth} exceeded"
  else
    match v with
    | .nil => .ok "null".toList
    | .bool value => .ok (if value then "true".toList else "false".toList)
    | .number n =>
        match n.num with
        | .fin _ _ => .ok (displayF64 n)
        | _ => .error "json.encode(): cannot encode NaN or Infinity as JSON"
    | .string s => .ok (encodeJsonString s)
    | .list items =>
        if items.isEmpty then .ok "[]".toList
        else do
          let inner ← encodeItems o (depth + 1) items
          return '[' :: o.opening ++ inner ++ o.before depth ++ [']']
    | .dict entries =>
        if entries.isEmpty then .ok "\x7b\x7d".toList
        else do
          let inner ← encodeEntries o (depth + 1) entries
          return '\x7b' :: o.opening ++ inner ++ o.before depth ++ ['\x7d']

def encodeItems (o : EncodeOpts) (depth : Nat) : List Value → Except String Text
  | [] => .ok []
  | v :: items => do
      let text ← encodeValue o depth v
      let rest ← encodeItems o depth items
      return o.before depth ++ text ++ o.after items.isEmpty ++ rest

def encodeEntries (o : EncodeOpts) (depth : Nat) : List (Text × Value) → Except String Text
  | [] => .ok []
  | (key, v) :: entries => do
      let text ← encodeValue o depth v
      let rest ← encodeEntries o depth entries
      return o.before depth ++ encodeJsonString key ++ o.colon ++ text ++
        o.after entries.isEmpty ++ rest

end

def encode (o : EncodeOpts) (v : Value) : Except String Text := encodeValue o 0 v

/-- Unicode's white space. -/
def isWhitespace (c : Char) : Bool :=
  let n := c.toNat
  (9 ≤ n && n ≤ 13) || n == 0x20 || n == 0x85 || n == 0xa0 || n == 0x1680 ||
    (0x2000 ≤ n && n ≤ 0x200a) || n == 0x2028 || n == 0x2029 || n == 0x202f || n == 0x205f ||
    n == 0x3000

/-- What is being skipped: blanks, a line comment, the star that opens a block comment, the block
comment, or the slash that closes it. -/
inductive Skipping where
  | blanks
  | line
  | opening
  | block
  | closing

def skip (comments : Bool) : Text → Skipping → Text
  | [], _ => []
  | c :: s, m =>
      match m with
      | .blanks =>
          if isWhitespace c then skip comments s .blanks
          else if comments ∧ c = '/' ∧ s.head? = some '/' then skip comments s .line
          else if comments ∧ c = '/' ∧ s.head? = some '*' then skip comments s .opening
          else c :: s
      | .line => if c = '\n' then skip comments s .blanks else skip comments s .line
      | .opening => skip comments s .block
      | .block =>
          if c = '*' ∧ s.head? = some '/' then skip comments s .closing
          else skip comments s .block
      | .closing => skip comments s .blanks

def skipWs (comments : Bool) (s : Text) : Text := skip comments s .blanks

def parseLiteral (literal : Text) (value : Value) (s : Text) : Except String (Value × Text) :=
  if literal.isPrefixOf s then .ok (value, s.drop literal.length)
  else .error s!"json.decode(): invalid literal, expected '{String.ofList literal}'"

def scanMinus : Text → Bool × Text
  | '-' :: s => (true, s)
  | s => (false, s)

def parseNumber (s : Text) : Except String (Value × Text) :=
  let (neg, s) := scanMinus s
  let (u, rest) := scanNumeral s
  match parseF64 (minusText neg ++ u.text) with
  | some n => .ok (.number n, rest)
  | none => .error s!"json.decode(): invalid number '{String.ofList (minusText neg ++ u.text)}'"

def hexValue (c : Char) : Option Nat :=
  if '0' ≤ c ∧ c ≤ '9' then some (c.toNat - '0'.toNat)
  else if 'a' ≤ c ∧ c ≤ 'f' then some (c.toNat - 'a'.toNat + 10)
  else if 'A' ≤ c ∧ c ≤ 'F' then some (c.toNat - 'A'.toNat + 10)
  else none

def readHex : Nat → Nat → Text → Except String (Nat × Text)
  | 0, n, s => .ok (n, s)
  | _ + 1, _, [] => .error "json.decode(): unterminated unicode escape"
  | count + 1, n, c :: s =>
      match hexValue c with
      | some d => readHex count (n * 16 + d) s
      | none => .error "json.decode(): invalid hex digit in unicode escape"

def readHex4 (s : Text) : Except String (Nat × Text) := readHex 4 0 s

def charFromU32 (n : Nat) : Option Char := if n.isValidChar then some (Char.ofNat n) else none

def shortEscape (c : Char) : Option Char :=
  if c = '"' then some '"'
  else if c = '\\' then some '\\'
  else if c = '/' then some '/'
  else if c = 'b' then some '\x08'
  else if c = 'f' then some '\x0c'
  else if c = 'n' then some '\n'
  else if c = 'r' then some '\r'
  else if c = 't' then some '\t'
  else none

def isHigh (n : Nat) : Bool := 0xd800 ≤ n && n ≤ 0xdbff

def isLow (n : Nat) : Bool := 0xdc00 ≤ n && n ≤ 0xdfff

/-- The code point of a surrogate pair. -/
def combined (high low : Nat) : Nat := 0x10000 + (high - 0xd800) * 1024 + (low - 0xdc00)

/-- The second of a surrogate pair, after the first. -/
def lowSurrogate (high : Nat) (s : Text) : Except String (Char × Text) :=
  if s.take 2 = ['\\', 'u'] then
    match readHex4 (s.drop 2) with
    | .error e => .error e
    | .ok (low, s) =>
        if isLow low then
          match charFromU32 (combined high low) with
          | some c => .ok (c, s)
          | none => .error "json.decode(): invalid unicode surrogate pair"
        else .error "json.decode(): invalid low surrogate"
  else .error "json.decode(): expected low surrogate after high surrogate"

/-- A unicode escape after its `u`. -/
def unicodeEscape (s : Text) : Except String (Char × Text) :=
  match readHex4 s with
  | .error e => .error e
  | .ok (cp, s) =>
      if isHigh cp then lowSurrogate cp s
      else
        match charFromU32 cp with
        | some c => .ok (c, s)
        | none => .error "json.decode(): invalid unicode escape"

def escape : Text → Except String (Char × Text)
  | [] => .error "json.decode(): invalid escape sequence"
  | c :: s =>
      match shortEscape c with
      | some d => .ok (d, s)
      | none =>
          if c = 'u' then unicodeEscape s else .error "json.decode(): invalid escape sequence"

/-- The characters of a string to its closing quote; every round takes one at least. -/
def parseChars : Nat → Text → Except String (Text × Text)
  | 0, _ => .error "json.decode(): unterminated string"
  | _ + 1, [] => .error "json.decode(): unterminated string"
  | fuel + 1, c :: s =>
      if c = '"' then .ok ([], s)
      else if c = '\\' then do
        let (d, s) ← escape s
        let (text, s) ← parseChars fuel s
        return (d :: text, s)
      else do
        let (text, s) ← parseChars fuel s
        return (c :: text, s)

/-- A string after its opening quote. -/
def parseJsonString (s : Text) : Except String (Text × Text) := parseChars (s.length + 1) s

def setEntry (entries : List (Text × Value)) (key : Text) (v : Value) : List (Text × Value) :=
  match entries with
  | [] => [(key, v)]
  | e :: entries => if e.1 = key then (key, v) :: entries else e :: setEntry entries key v

/-- A dictionary of pairs: a key keeps its first place and its last value. -/
def fromPairs (pairs : List (Text × Value)) : List (Text × Value) :=
  pairs.foldl (fun entries p => setEntry entries p.1 p.2) []

mutual

def parseValue (comments : Bool) : Nat → Text → Except String (Value × Text)
  | 0, _ => .error "json.decode(): unexpected end of input"
  | fuel + 1, s =>
      match skipWs comments s with
      | [] => .error "json.decode(): unexpected end of input"
      | c :: s =>
          if c = '\x7b' then
            match skipWs comments s with
            | '\x7d' :: s => .ok (.dict [], s)
            | s => do
                let (pairs, s) ← parsePairs comments fuel s
                return (.dict (fromPairs pairs), s)
          else if c = '[' then
            match skipWs comments s with
            | ']' :: s => .ok (.list [], s)
            | s => do
                let (items, s) ← parseItems comments fuel s
                return (.list items, s)
          else if c = '"' then do
            let (text, s) ← parseJsonString s
            return (.string text, s)
          else if c = 't' then parseLiteral "true".toList (.bool true) (c :: s)
          else if c = 'f' then parseLiteral "false".toList (.bool false) (c :: s)
          else if c = 'n' then parseLiteral "null".toList .nil (c :: s)
          else if c = '-' ∨ c.isDigit then parseNumber (c :: s)
          else .error s!"json.decode(): unexpected character '{c}'"

/-- The items of an array to its closing bracket. -/
def parseItems (comments : Bool) : Nat → Text → Except String (List Value × Text)
  | 0, _ => .error "json.decode(): unexpected end of input"
  | fuel + 1, s => do
      let (item, s) ← parseValue comments fuel s
      match skipWs comments s with
      | ',' :: s =>
          let (items, s) ← parseItems comments fuel (skipWs comments s)
          return (item :: items, s)
      | ']' :: s => .ok ([item], s)
      | _ => .error "json.decode(): expected ',' or ']' in array"

/-- The pairs of an object to its closing brace. -/
def parsePairs (comments : Bool) : Nat → Text → Except String (List (Text × Value) × Text)
  | 0, _ => .error "json.decode(): unexpected end of input"
  | fuel + 1, s =>
      match skipWs comments s with
      | '"' :: s => do
          let (key, s) ← parseJsonString s
          match skipWs comments s with
          | ':' :: s =>
              let (v, s) ← parseValue comments fuel s
              match skipWs comments s with
              | ',' :: s =>
                  let (pairs, s) ← parsePairs comments fuel s
                  return ((key, v) :: pairs, s)
              | '\x7d' :: s => .ok ([(key, v)], s)
              | _ => .error "json.decode(): expected ',' or '\x7d' in object"
          | _ => .error "json.decode(): expected ':' after object key"
      | _ => .error "json.decode(): expected a string key in object"

end

/-- Decoding, with fuel that is always enough. -/
def decode (comments : Bool) (source : Text) : Except String Value := do
  let (v, s) ← parseValue comments (2 * source.length + 1) source
  if skipWs comments s = [] then .ok v
  else .error "json.decode(): unexpected trailing data after JSON value"

end Zuri.Json
