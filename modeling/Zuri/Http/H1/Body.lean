import Zuri.Http.H1.Head

/-!
Message bodies, and the requests that a connection yields. Everything here reads through
the three reads of a connection, whatever the connection is.
-/

namespace Zuri.Http.H1

open Transition

/-- The reads that messages are made of. -/
structure Source (σ : Type) where
  readRequestHead : ExceptT Failure (StateM σ) (Option Fields)
  readLine : Nat → ExceptT Failure (StateM σ) (Option (List UInt8))
  readExactly : Nat → ExceptT Failure (StateM σ) (List UInt8)

def maxChunkSize : Nat := 1073741824

def streamChunk : Nat := 65536

def isTrimWhitespace (c : Char) : Bool :=
  [' ', '\t', '\n', '\x0B', '\x0C', '\r'].contains c

def trimChars (strip : Char → Bool) (text : List Char) : List Char :=
  ((text.dropWhile strip).reverse.dropWhile strip).reverse

def trim (text : String) : String := String.ofList (trimChars isTrimWhitespace text.toList)

def parseContentLength (value : String) : Except Failure Nat := do
  let text := trim value
  if text.isEmpty then throw (.protocol "empty Content-Length")
  else
    let parts := (text.splitOn ",").map trim
    let first := parts.headD ""
    if text.contains ',' ∧ parts.any (fun one => one != first) then
      throw (.protocol s!"conflicting Content-Length values: {text}")
    else
      let digits := if text.contains ',' then first else text
      if digits.toList.all Char.isDigit then
        pure (digits.toList.foldl (fun n c => n * 10 + (c.toNat - 48)) 0)
      else throw (.protocol s!"malformed Content-Length: {value}")

def hexDigit (c : Char) : Option Nat :=
  if '0' ≤ c ∧ c ≤ '9' then some (c.toNat - 48)
  else if 'a' ≤ c ∧ c ≤ 'f' then some (c.toNat - 87)
  else if 'A' ≤ c ∧ c ≤ 'F' then some (c.toNat - 55)
  else none

def chunkDigits (line : String) (size : Nat) : List Char → Except Failure Nat
  | [] => pure size
  | c :: rest =>
      match hexDigit c with
      | none => throw (.protocol s!"malformed chunk size: {line}")
      | some digit =>
          if maxChunkSize < size * 16 + digit then
            throw (.tooLarge s!"chunk size exceeds the {maxChunkSize} byte limit")
          else chunkDigits line (size * 16 + digit) rest

/-- Chunk extensions, after the first semicolon, are ignored. -/
def parseChunkSize (line : String) : Except Failure Nat :=
  let text := trimChars isTrimWhitespace (line.toList.takeWhile fun c => c != ';')
  if text.isEmpty then throw (.protocol "empty chunk size") else chunkDigits line 0 text

inductive Mode where
  | empty
  | length
  | chunked
  deriving DecidableEq

structure BodyReader where
  mode : Mode
  length : Nat := 0
  trailers : List (String × String) := []
  remaining : Nat := 0
  finished : Bool := false
  chunkRemaining : Nat := 0

def Fields.values (fields : Fields) (name : String) : List String :=
  match fields.entries.find? fun e => e.orig.toLower = name with
  | some e => e.values
  | none => []

def Fields.contains (fields : Fields) (name : String) : Bool :=
  fields.entries.any fun e => e.orig.toLower = name

def tokens (p : Platform) (values : List String) : List String :=
  (values.flatMap fun value => (value.splitOn ",").map fun part => p.lower (trim part)).filter
    fun token => !token.isEmpty

def readerFor (p : Platform) (fields : Fields) : Except Failure BodyReader := do
  if !fields.contains "transfer-encoding" && !fields.contains "content-length" then
    pure { mode := .empty, finished := true }
  else
    let encodings := tokens p (fields.values "transfer-encoding")
    let named := ", ".intercalate encodings
    if !encodings.isEmpty && encodings.getLast? != some "chunked" then
      throw (.protocol s!"Transfer-Encoding must end with chunked, got: {named}")
    else if 1 < encodings.length then
      throw (.protocol s!"unsupported Transfer-Encoding: {named}")
    else if !encodings.isEmpty && fields.contains "content-length" then
      throw (.protocol "both Transfer-Encoding and Content-Length are present")
    else if !encodings.isEmpty then pure { mode := .chunked }
    else if fields.contains "content-length" then
      let length ← parseContentLength ((fields.values "content-length").headD "0")
      pure { mode := .length, length, remaining := length }
    else pure { mode := .empty, finished := true }

def isTokenChar (c : Char) : Bool :=
  c.isAlphanum || "!#$%&'*+-.^_|~".toList.contains c || c.toNat = 96

/-- A field of the trailer section. -/
def trailerField (line : String) : Except Failure (String × String) := do
  let name := line.toList.takeWhile fun c => c != ':'
  if name.isEmpty || name.length = line.toList.length then
    throw (.protocol s!"malformed trailer field: {line}")
  else
    let value := trimChars isTrimWhitespace (line.toList.drop (name.length + 1))
    let text := trimChars (fun c => c = ' ' || c = '\t') value
    let spelled := String.ofList name
    if text.any fun c => c = '\r' || c = '\n' || c.toNat = 0 then
      throw (.protocol (s!"header {spelled} contains a line break or NUL, " ++
        "which would split the response"))
    else if name.all isTokenChar then pure (spelled, String.ofList text)
    else throw (.protocol s!"invalid header field name: {spelled}")

section

variable {σ : Type} (source : Source σ) (p : Platform)

def lift {α : Type} : Except Failure α → ExceptT Failure (StateM σ) α
  | .ok a => pure a
  | .error e => throw e

/-- At most `turns` lines; more of them than there are bytes is enough. -/
def readTrailers (r : BodyReader) : Nat → ExceptT Failure (StateM σ) BodyReader
  | 0 => throw .unfinished
  | turns + 1 => do
      match ← source.readLine 8192 with
      | none => throw (.protocol "connection closed inside the trailer section")
      | some bytes =>
          let line := p.lossy bytes
          if line.isEmpty then pure r
          else
            let field ← lift (trailerField line)
            readTrailers { r with trailers := r.trailers ++ [field] } turns

/-- What is left of the current chunk, or the size of the next one. -/
def chunkSize (r : BodyReader) : ExceptT Failure (StateM σ) Nat := do
  if r.chunkRemaining = 0 then
    match ← source.readLine 4096 with
    | none => throw (.protocol "connection closed before the final chunk")
    | some sizeLine => lift (parseChunkSize (p.lossy sizeLine))
  else pure r.chunkRemaining

/-- Every chunk is followed by a line break of its own. -/
def endOfChunk : ExceptT Failure (StateM σ) Unit := do
  match ← source.readLine 2 with
  | some [] => pure ()
  | _ => throw (.protocol "chunk data is not followed by CRLF")

def readChunked (turns : Nat) (r : BodyReader) (length : Nat) :
    ExceptT Failure (StateM σ) (List UInt8 × BodyReader) := do
  let size ← chunkSize source p r
  if size = 0 then
    let r ← readTrailers source p r turns
    pure ([], { r with finished := true })
  else
    let want := if length < size then length else size
    let chunk ← source.readExactly want
    if size - chunk.length = 0 then
      endOfChunk source
      pure (chunk, { r with chunkRemaining := 0 })
    else pure (chunk, { r with chunkRemaining := size - chunk.length })

def read (turns : Nat) (r : BodyReader) (length : Nat) :
    ExceptT Failure (StateM σ) (List UInt8 × BodyReader) := do
  if r.finished then pure ([], r)
  else
    match r.mode with
    | .length =>
        let want := if length < r.remaining then length else r.remaining
        let chunk ← source.readExactly want
        let remaining := r.remaining - chunk.length
        pure (chunk, { r with remaining, finished := decide (remaining = 0) })
    | .chunked => readChunked source p turns r length
    | .empty => pure ([], { r with finished := true })

def readOn (limit turns : Nat) (r : BodyReader) (result : List UInt8) :
    Nat → ExceptT Failure (StateM σ) (List UInt8 × BodyReader)
  | 0 => throw .unfinished
  | more + 1 => do
      let chunk ← read source p turns r streamChunk
      if chunk.1.length = 0 then pure (result, chunk.2)
      else if limit < (result ++ chunk.1).length then
        throw (.tooLarge s!"body exceeds the {limit} byte limit")
      else readOn limit turns chunk.2 (result ++ chunk.1) more

def readAll (limit turns : Nat) (r : BodyReader) :
    ExceptT Failure (StateM σ) (List UInt8 × BodyReader) :=
  if r.mode = .length ∧ limit < r.length then
    throw (.tooLarge s!"body of {r.length} bytes exceeds the {limit} byte limit")
  else readOn source p limit turns r [] turns

structure Request where
  head : Fields
  body : List UInt8
  trailers : List (String × String)

/-- One request with its body, or nothing if the peer is done. -/
def nextRequest (limits : Limits) (turns : Nat) :
    ExceptT Failure (StateM σ) (Option Request) := do
  match ← source.readRequestHead with
  | none => pure none
  | some head =>
      let reader ← lift (readerFor p head)
      let body ← readAll source p limits.maxBodySize turns reader
      pure (some ⟨head, body.1, body.2.trailers⟩)

/-- The requests of a connection and the first error, for at most `turns` of them. -/
def requests (limits : Limits) (turns : Nat) : Nat → σ → (List Request × Option Failure) × σ
  | 0, s => (([], some .unfinished), s)
  | more + 1, s =>
      match runFrom (nextRequest source p limits turns) s with
      | (.error e, s) => (([], some e), s)
      | (.ok none, s) => (([], none), s)
      | (.ok (some request), s) =>
          let rest := requests limits turns more s
          ((request :: rest.1.1, rest.1.2), rest.2)

end

end Zuri.Http.H1
