import Mathlib.Algebra.Order.Ring.Nat
import Mathlib.Data.List.Basic

/-!
The lexer. It walks over the characters of a source with a cursor, counts lines as it passes
their ends and keeps where each began. Inside the string literals it has left for an
interpolation it remembers their quotes, the innermost first.
-/

namespace Zuri.Lexing

/-- The kinds of tokens a scan gives. A double keeps the text its value is read from. -/
inductive TokenKind where
  | newline | lparen | rparen | lbracket | rbracket | lbrace | rbrace | semicolon | comma
  | backslash | bang | bangEq | colon | at_ | dot | range | triDot
  | plus | plusEq | increment | minus | minusEq | decrement
  | multiply | multiplyEq | pow | powEq | divide | divideEq | floor | floorEq
  | equal | equalEq | less | lessEq | lshift | lshiftEq
  | greater | greaterEq | rshift | rshiftEq | urshift | urshiftEq
  | percent | percentEq | amp | ampEq | bar | barEq | tilde | tildeEq | xor | xorEq
  | question | arrow
  | and_ | as_ | assert_ | break_ | catch_ | class_ | const_ | continue_ | def_ | default_ | do_
  | echo_ | else_ | false_ | for_ | if_ | import_ | in_ | iter_ | nil_ | or_ | parent_ | raise_
  | return_ | self_ | static_ | true_ | using_ | var_ | when_ | while_
  | literal (text : List Char)
  | bigNumber (n : Nat)
  | integer (n : Nat)
  | double (text : List Char)
  | binNumber (n : Nat)
  | octNumber (n : Nat)
  | hexNumber (n : Nat)
  | identifier (name : List Char)
  | decorator (text : List Char)
  | interpolation (text : List Char)
  | comment (text : List Char)
  | docBlock (text : List Char)
  | eof
  | error (message : String) (line start : Nat)

structure Token where
  kind : TokenKind
  line : Nat
  column : Nat
  start : Nat
  stop : Nat

/-- `lines` has the offset each line past the first begins at, the last one met first. -/
structure Lexer where
  source : List Char
  line : Nat
  current : Nat
  lexingType : Nat
  start : Nat
  startLine : Nat
  interpolating : List Char
  lines : List (Nat × Nat)

def unterminatedString : String := "unterminated string"

def unbalancedComment : String := "unbalanced block comment"

def isDigit (c : Char) : Bool := '0' ≤ c && c ≤ '9'

def isAlpha (c : Char) : Bool := ('a' ≤ c && c ≤ 'z') || ('A' ≤ c && c ≤ 'Z') || c == '_'

def isAlphanumeric (c : Char) : Bool := isAlpha c || isDigit c

def isBinary (c : Char) : Bool := c == '0' || c == '1'

def isOctal (c : Char) : Bool := '0' ≤ c && c ≤ '7'

def isHex (c : Char) : Bool := isDigit c || ('a' ≤ c && c ≤ 'f') || ('A' ≤ c && c ≤ 'F')

def digitValue (c : Char) : Nat :=
  if isDigit c then c.toNat - '0'.toNat
  else if 'a' ≤ c && c ≤ 'f' then c.toNat - 'a'.toNat + 10
  else c.toNat - 'A'.toNat + 10

/-- The number that digits make, the first the highest. -/
def numeral (radix : Nat) (digits : List Char) : Nat :=
  digits.foldl (fun n c => n * radix + digitValue c) 0

/-- `i64::from_str_radix` of digits that have been checked. -/
def parseI64 (radix : Nat) (digits : List Char) : Option Nat :=
  if digits ≠ [] ∧ numeral radix digits < 2 ^ 63 then some (numeral radix digits) else none

/-- `u32::from_str_radix` in base 16, which takes a sign, and `char::from_u32`. -/
def hexChar (text : List Char) : Option Char :=
  let digits := if text.head? = some '+' then text.tail else text
  let n := numeral 16 digits
  if digits ≠ [] ∧ digits.all isHex ∧ n.isValidChar then some (Char.ofNat n) else none

/-- What the escape of one character stands for in a string closed by `quote`. `more` is what
follows. -/
def escaped (quote next : Char) (more : List Char) : List Char :=
  if next = '0' then [Char.ofNat 0]
  else if next = 'a' then [Char.ofNat 7]
  else if next = 'b' then [Char.ofNat 8]
  else if next = 'f' then [Char.ofNat 12]
  else if next = 'n' then ['\n']
  else if next = 't' then ['\t']
  else if next = 'r' then ['\r']
  else if next = 'v' then [Char.ofNat 11]
  else if next = '\'' then if quote ≠ '\'' ∧ quote ≠ 'ĥ' then ['\\', next] else [next]
  else if next = '"' then if quote ≠ '"' ∧ quote ≠ 'ĥ' then ['\\', next] else [next]
  else if next = '\\' then ['\\']
  else if next = '$' then if more.head? = some '{' then [next] else ['\\', next]
  else ['\\', next]

/-- The text that characters between quotes stand for, or what is wrong with them. -/
def unescapeString (quote : Char) : List Char → Except String (List Char)
  | '\\' :: 'U' :: a :: b :: c :: d :: e :: f :: g :: h :: rest =>
      match hexChar [a, b, c, d, e, f, g, h] with
      | some char => (char :: ·) <$> unescapeString quote rest
      | none => .error "invalid unicode escape sequence"
  | '\\' :: 'u' :: a :: b :: c :: d :: rest =>
      match hexChar [a, b, c, d] with
      | some char => (char :: ·) <$> unescapeString quote rest
      | none => .error "invalid unicode escape sequence"
  | '\\' :: 'x' :: a :: b :: rest =>
      match hexChar [a, b] with
      | some char => (char :: ·) <$> unescapeString quote rest
      | none => .error "invalid hex escape sequence"
  | '\\' :: next :: rest => (escaped quote next rest ++ ·) <$> unescapeString quote rest
  | c :: rest => (c :: ·) <$> unescapeString quote rest
  | [] => .ok []

namespace Lexer

def new (source : List Char) : Lexer := ⟨source, 1, 0, 0, 0, 1, [], []⟩

variable (l : Lexer)

/-- What is left from the cursor on. -/
def rest : List Char := l.source.drop l.current

def advance : Lexer :=
  match l.source[l.current]? with
  | none => l
  | some c =>
      if c = '\n' then
        { l with
          current := l.current + 1
          line := l.line + 1
          lines := (l.line + 1, l.current + 1) :: l.lines }
      else { l with current := l.current + 1 }

/-- The cursor moved over a character that is not looked at. -/
def pass : Lexer := { l with current := l.current + 1 }

def push (quote : Char) : Lexer := { l with interpolating := quote :: l.interpolating }

def matchChar (c : Char) : Option Lexer :=
  if l.source[l.current]? = some c then some l.advance else none

def peek : Char := (l.source[l.current]?).getD (Char.ofNat 0)

def getString (start stop : Nat) : List Char := (l.source.take stop).drop start

/-- The token from `start` to the cursor. The lines of a hash map come in any order; here they
come as they were met. -/
def makeToken (kind : TokenKind) : Token × Lexer :=
  let lineStart :=
    if l.lines.isEmpty ∨ l.startLine = 1 then 0 else (l.lines.lookup l.startLine).getD 0
  if l.start < lineStart then
    let upTo := l.source.take (l.start + 1)
    let lineStart :=
      if '\n' ∈ upTo then upTo.length - 1 - upTo.reverse.idxOf '\n' else 0
    let before := (l.lines.reverse.map Prod.fst).filter fun n =>
      (l.lines.lookup n).getD 0 ≤ lineStart
    (⟨kind, l.startLine, l.start - lineStart + 1, l.start, l.current⟩,
      { l with line := before.getLast?.getD 1 })
  else (⟨kind, l.startLine, l.start - lineStart + 1, l.start, l.current⟩, l)

def makeError (message : String) : Token × Lexer :=
  l.makeToken (.error message l.line l.start)

/-- Advances while the character at the cursor is one of some kind. -/
def advanceWhile (p : Char → Bool) : List Char → Lexer → Lexer
  | [], l => l
  | c :: rest, l => if p c then advanceWhile p rest l.advance else l

def skipWhitespace : Lexer :=
  advanceWhile (fun c => c == ' ' || c == '\t' || c == '\r') l.rest l

/-- The loop of a block comment, and whether it has come to its end. -/
def docLoop : Nat → List Char → Lexer → Bool × Lexer
  | 0, _, l => (true, l)
  | _ + 1, [], l => (false, l)
  | nesting + 1, '/' :: '*' :: rest, l => docLoop (nesting + 2) rest l.advance.advance
  | nesting + 1, '*' :: '/' :: rest, l => docLoop nesting rest l.advance.advance
  | nesting + 1, _ :: rest, l => docLoop (nesting + 1) rest l.advance

def docBlock : Token × Lexer :=
  match docLoop 1 l.rest l with
  | (false, l) => l.makeError unbalancedComment
  | (true, l) => l.makeToken (.docBlock (l.getString (l.start + 2) (l.current - 2)))

def comment : Token × Lexer :=
  let l := advanceWhile (fun c => c != '\n') l.rest l
  l.makeToken (.comment (l.getString (l.start + 1) l.current))

def decorator : Token × Lexer :=
  let l := advanceWhile isAlphanumeric l.rest l
  l.makeToken (.decorator (l.getString l.start l.current))

/-- How the loop of a string ends. -/
inductive Stop where
  | quote | interpolation | unterminated
  deriving DecidableEq

/-- An escape is passed over whole, so the character after its backslash never ends the string
or opens an interpolation. -/
def stringLoop (c : Char) : List Char → Lexer → Stop × Lexer
  | [], l => (.unterminated, l)
  | a :: rest, l =>
      if a = c then (.quote, l)
      else
        match rest with
        | [] => stringLoop c [] l.advance
        | b :: rest =>
            if a = '$' ∧ b = '{' then (.interpolation, l)
            else if a = '\\' ∧ (b = c ∨ b = '\\' ∨ b = '$') then
              stringLoop c rest l.advance.advance
            else stringLoop c (b :: rest) l.advance

/-- The text from past `start` to before the cursor as a token, or what is wrong with it. -/
def textToken (quote : Char) (kind : List Char → TokenKind) : Token × Lexer :=
  match unescapeString quote (l.getString (l.start + 1) (l.current - 1)) with
  | .ok text => l.makeToken (kind text)
  | .error message => l.makeError message

def string (c : Char) : Token × Lexer :=
  match stringLoop c l.rest l with
  | (.interpolation, l) =>
      let (token, l) := (l.push c).pass.textToken c .interpolation
      (token, l.pass)
  | (.unterminated, l) => l.makeError unterminatedString
  | (.quote, l) => l.advance.textToken c .literal

/-- The digits of a number in another base, past its prefix. -/
def radixNumber (radix : Nat) (digit : Char → Bool) (kind : Nat → TokenKind) (message : String) :
    Token × Lexer :=
  let l := advanceWhile digit l.rest l
  match parseI64 radix (l.getString (l.start + 2) l.current) with
  | some n => l.makeToken (kind n)
  | none => l.makeError message

/-- Digits, and underscores that a digit follows. -/
def digits : List Char → Lexer → Lexer
  | [], l => l
  | c :: rest, l =>
      if isDigit c || (c == '_' && rest.head?.any isDigit) then digits rest l.advance else l

/-- Whether an exponent with digits begins here. -/
def hasExponent : Bool :=
  match l.rest with
  | c :: rest => (c == 'e' || c == 'E') &&
      (rest.head?.any isDigit ||
        ((rest.head? == some '+' || rest.head? == some '-') && rest.tail.head?.any isDigit))
  | [] => false

/-- The exponent, its sign and its digits. -/
def exponent : Lexer :=
  let l := l.advance
  let l := if l.peek = '+' ∨ l.peek = '-' then l.advance else l
  advanceWhile isDigit l.rest l

/-- The value of a number in base 10 that has no suffix. -/
def decimal (hasExponent : Bool) : Token × Lexer :=
  let number := (l.getString l.start l.current).filter (· ≠ '_')
  if '.' ∈ number ∨ hasExponent then l.makeToken (.double number)
  else
    match parseI64 10 number with
    | some n => l.makeToken (.integer n)
    | none => l.makeToken (.bigNumber (numeral 10 number))

/-- A point and the digit after it. -/
def fraction : Lexer :=
  if l.peek = '.' ∧ l.rest.tail.head?.any isDigit then l.advance.advance else l

/-- Base 10: digits, then a suffix, a fraction or an exponent. -/
def decimalNumber : Token × Lexer :=
  let l := digits l.rest l
  match l.matchChar 'n' with
  | some l =>
      l.makeToken (.bigNumber (numeral 10 ((l.getString l.start (l.current - 1)).filter (· ≠ '_'))))
  | none =>
      let l := l.fraction
      let l := digits l.rest l
      if l.hasExponent then l.exponent.decimal true else l.decimal false

/-- `first` is the digit before the cursor. -/
def number (first : Char) : Token × Lexer :=
  if first = '0' then
    match l.matchChar 'b' with
    | some l => l.radixNumber 2 isBinary .binNumber "invalid binary literal"
    | none =>
        match l.matchChar 'c' with
        | some l => l.radixNumber 8 isOctal .octNumber "invalid octal literal"
        | none =>
            match l.matchChar 'x' with
            | some l => l.radixNumber 16 isHex .hexNumber "invalid hex literal"
            | none => l.decimalNumber
  else l.decimalNumber

def keywords : List (String × TokenKind) := [
  ("and", .and_), ("as", .as_), ("assert", .assert_), ("break", .break_), ("catch", .catch_),
  ("class", .class_), ("const", .const_), ("continue", .continue_), ("def", .def_),
  ("default", .default_), ("do", .do_), ("echo", .echo_), ("else", .else_), ("false", .false_),
  ("for", .for_), ("if", .if_), ("import", .import_), ("in", .in_), ("iter", .iter_),
  ("nil", .nil_), ("or", .or_), ("parent", .parent_), ("raise", .raise_), ("return", .return_),
  ("self", .self_), ("static", .static_), ("true", .true_), ("using", .using_), ("var", .var_),
  ("when", .when_), ("while", .while_)]

def identifier : Token × Lexer :=
  let l := advanceWhile isAlphanumeric l.rest l
  let name := l.getString l.start l.current
  match keywords.lookup (String.ofList name) with
  | some kind => l.makeToken kind
  | none => l.makeToken (.identifier name)

/-- What to look for after the characters of an operator so far. -/
inductive Operator where
  | done (kind : TokenKind)
  | next (c : Char) (found other : Operator)

def Operator.scan : Operator → Lexer → Token × Lexer
  | done kind, l => l.makeToken kind
  | next c found other, l =>
      match l.matchChar c with
      | some l => found.scan l
      | none => other.scan l

open Operator in
/-- The operators that begin with a character, and how they go on. -/
def operators (lexingType : Nat) (c : Char) : Option Operator :=
  match c with
  | '(' => some (done .lparen)
  | ')' => some (done .rparen)
  | '[' => some (done .lbracket)
  | ']' => some (done .rbracket)
  | '{' => some (done .lbrace)
  | ',' => some (done .comma)
  | ';' => some (done .semicolon)
  | '.' => some (next '.' (next '.' (done .triDot) (done .range)) (done .dot))
  | '-' => some (next '-' (done .decrement) (next '=' (done .minusEq) (done .minus)))
  | '+' => some (next '+' (done .increment) (next '=' (done .plusEq) (done .plus)))
  | '*' => some (next '*' (next '=' (done .powEq) (done .pow))
      (next '=' (done .multiplyEq) (done .multiply)))
  | '\\' => some (done .backslash)
  | ':' => some (done .colon)
  | '<' => some (next '<' (next '=' (done .lshiftEq) (done .lshift))
      (next '=' (done .lessEq) (done .less)))
  | '>' =>
      let plain := next '=' (done .greaterEq) (done .greater)
      some (if lexingType = 0 then
        next '>' (next '>' (next '=' (done .urshiftEq) (done .urshift))
          (next '=' (done .rshiftEq) (done .rshift))) plain
      else plain)
  | '!' => some (next '=' (done .bangEq) (done .bang))
  | '=' => some (next '=' (done .equalEq) (next '>' (done .arrow) (done .equal)))
  | '%' => some (next '=' (done .percentEq) (done .percent))
  | '&' => some (next '=' (done .ampEq) (done .amp))
  | '|' => some (next '=' (done .barEq) (done .bar))
  | '^' => some (next '=' (done .xorEq) (done .xor))
  | '~' => some (next '=' (done .tildeEq) (done .tilde))
  | '?' => some (done .question)
  | '\n' => some (done .newline)
  | _ => none

open Operator in
/-- What a slash begins that is not a block comment. -/
def slash : Operator :=
  next '/' (next '=' (done .floorEq) (done .floor)) (next '=' (done .divideEq) (done .divide))

/-- The quote of the string that goes on at `c`, and the lexer in it: past its opening quote, or
past the end of an interpolation. -/
def inString (c : Char) : Option (Char × Lexer) :=
  if c = '}' then
    match l.interpolating with
    | quote :: outer => some (quote, { l with interpolating := outer })
    | [] => none
  else if c = '\'' ∨ c = '"' then some (c, l) else none

/-- The token that begins with `c`, which has been passed. -/
def scanFrom (c : Char) : Token × Lexer :=
  match l.inString c with
  | some (quote, l) => l.string quote
  | none =>
      match operators l.lexingType c with
      | some operator => operator.scan l
      | none =>
          if c = '}' then l.makeToken .rbrace
          else if c = '@' then if isAlpha l.peek then l.decorator else l.makeToken .at_
          else if c = '/' then
            match l.matchChar '*' with
            | some l => l.docBlock
            | none => slash.scan l
          else if c = '#' then l.comment
          else if isDigit c then l.number c
          else if isAlpha c then l.identifier
          else l.makeError ("Unexpected character " ++ String.singleton c)

/-- The lexer where its next token begins. -/
def begin_ : Lexer :=
  let l := l.skipWhitespace
  { l with start := l.current, startLine := l.line }

def scan : Token × Lexer :=
  match l.source[l.begin_.current]? with
  | none => l.begin_.makeToken .eof
  | some c => l.begin_.advance.scanFrom c

end Lexer

/-- The tokens to the end of the file, by as many scans as given at most. -/
def scanAll : Nat → Lexer → Option (List Token)
  | 0, _ => none
  | scans + 1, l =>
      let (token, l) := l.scan
      match token.kind with
      | .eof => some [token]
      | _ => (token :: ·) <$> scanAll scans l

end Zuri.Lexing
