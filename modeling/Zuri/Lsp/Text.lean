import Mathlib.Data.List.Basic

/-!
A document's text as the protocol sees it: where its lines start, the conversion between offsets
and positions in each encoding, and the changes a client sends. A text is its list of code
points.
-/

namespace Zuri.Lsp

/-- The encodings `UTF16`, `UTF8` and `UTF32`. -/
inductive Encoding where
  | utf16
  | utf8
  | utf32
  deriving DecidableEq, Repr

/-- `_width`. -/
def width (ch : Char) : Encoding → Nat
  | .utf32 => 1
  | .utf16 => if ch.toNat > 65535 then 2 else 1
  | .utf8 =>
      if ch.toNat < 128 then 1
      else if ch.toNat < 2048 then 2
      else if ch.toNat < 65536 then 3 else 4

/-- How many units of an encoding a text takes: the loop of `position`. -/
def units (encoding : Encoding) : List Char → Nat
  | [] => 0
  | ch :: rest => width ch encoding + units encoding rest

/-- `text.to_bytes().length()`. -/
def bytesLength : List Char → Nat
  | [] => 0
  | ch :: rest => ch.utf8Size + bytesLength rest

/-- `_is_ascii`. -/
def isAscii (line : List Char) : Bool := bytesLength line == line.length

/-- The part of a text from `start` up to `stop`: `text[start, stop]`. -/
def slice (text : List Char) (start stop : Nat) : List Char := (text.take stop).drop start

/-- The builtin `split`, which finds no parts in an empty text. -/
def split (text : List Char) (delim : Char) : List (List Char) :=
  if text.isEmpty then [] else text.splitOn delim

/-- The starts appended for each part of a text that has no `\r`. -/
def plainStarts : Nat → List (List Char) → List Nat
  | _, [] => []
  | offset, line :: rest =>
      (offset + line.length + 1) :: plainStarts (offset + line.length + 1) rest

/-- The starts appended by the scan of the characters from offset `i` on. -/
def scanStarts : Nat → List Char → List Nat
  | _, [] => []
  | i, '\r' :: '\n' :: rest => (i + 2) :: scanStarts (i + 2) rest
  | i, ch :: rest =>
      if ch = '\n' ∨ ch = '\r' then (i + 1) :: scanStarts (i + 1) rest
      else scanStarts (i + 1) rest

/-- `_line_starts`. -/
def lineStarts (text : List Char) : List Nat :=
  if text.contains '\r' then 0 :: scanStarts 0 text
  else (0 :: plainStarts 0 (split text '\n')).dropLast

structure LineIndex where
  text : List Char
  starts : List Nat

/-- A protocol position `{ line, character }`. -/
structure Position where
  line : Int
  character : Nat
  deriving DecidableEq, Repr

namespace LineIndex

/-- `@new`. -/
def new (text : List Char) : LineIndex := ⟨text, lineStarts text⟩

def lineCount (index : LineIndex) : Nat := index.starts.length

def lineStart (index : LineIndex) (line : Nat) : Nat :=
  if h : line < index.starts.length then index.starts[line] else index.text.length

def lineEnd (index : LineIndex) (line : Nat) : Nat :=
  if h : line + 1 < index.starts.length then
    let stop := index.starts[line + 1]
    let stop := if 0 < stop ∧ index.text[stop - 1]? = some '\n' then stop - 1 else stop
    if 0 < stop ∧ index.text[stop - 1]? = some '\r' then stop - 1 else stop
  else index.text.length

/-- The search of `line_of` between two lines. -/
def lineBetween (starts : List Nat) (offset low high : Nat) : Nat :=
  if low < high then
    let middle := (low + high + 1) / 2
    if starts.getD middle 0 ≤ offset then lineBetween starts offset middle high
    else lineBetween starts offset low (middle - 1)
  else low
termination_by high - low

def lineOf (index : LineIndex) (offset : Nat) : Nat :=
  lineBetween index.starts offset 0 (index.starts.length - 1)

/-- The loop of `offset`: how many characters it passes before `wanted` units are counted. -/
def advance (encoding : Encoding) (wanted : Nat) : Nat → List Char → Nat
  | _, [] => 0
  | counted, ch :: rest =>
      if counted < wanted then advance encoding wanted (counted + width ch encoding) rest + 1
      else 0

def offset (index : LineIndex) (position : Position) (encoding : Encoding) : Nat :=
  if position.line < 0 then 0
  else if position.line ≥ index.starts.length then index.text.length
  else
    let line := position.line.toNat
    let start := index.lineStart line
    let text := slice index.text start (index.lineEnd line)
    let wanted := position.character
    if encoding = .utf32 ∨ isAscii text = true then
      start + (if wanted < text.length then wanted else text.length)
    else start + advance encoding wanted 0 text

/-- `position`. Reading the start of a line the index does not have raises. -/
def position (index : LineIndex) (offset : Int) (encoding : Encoding) : Option Position :=
  let length := index.text.length
  let here := if offset < 0 then 0 else if offset > length then length else offset.toNat
  let line := index.lineOf here
  match index.starts[line]? with
  | none => none
  | some start =>
      let stop := index.lineEnd line
      let here := if here > stop then stop else here
      if encoding = .utf32 then some ⟨line, here - start⟩
      else
        let before := slice index.text start here
        if isAscii before then some ⟨line, before.length⟩
        else some ⟨line, units encoding before⟩

end LineIndex

/-- A `TextDocumentContentChangeEvent`. -/
structure Change where
  range : Option (Position × Position)
  text : List Char

/-- `apply_change`. -/
def applyChange (text : List Char) (change : Change) (encoding : Encoding) : List Char :=
  match change.range with
  | none => change.text
  | some (first, last) =>
      let index := LineIndex.new text
      let start := index.offset first encoding
      let stop := index.offset last encoding
      let (start, stop) := if stop < start then (stop, start) else (start, stop)
      slice text 0 start ++ change.text ++ slice text stop text.length

/-- `Document.change`: the changes of one notification, in order. -/
def applyChanges (text : List Char) (changes : List Change) (encoding : Encoding) : List Char :=
  changes.foldl (fun current change => applyChange current change encoding) text

end Zuri.Lsp
