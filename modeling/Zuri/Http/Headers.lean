import Mathlib
import Zuri.Coding.Utf8
import Zuri.Http.H1.Head
import Zuri.Maps.Grouped

/-!
Header collections: names without regard to case, each with its values in order. A running size
stands beside the fields and is adjusted by every operation. The case of characters outside ASCII
is the platform's.
-/

namespace Zuri.Http

abbrev Text := List Char

def Ascii (text : Text) : Prop := ∀ c ∈ text, c.toNat < 128

/-- Upper and lower case of strings. -/
structure Casing where
  lower : Text → Text
  upper : Text → Text
  lower_ascii : ∀ text, Ascii text → lower text = text.map Char.toLower
  upper_ascii : ∀ text, Ascii text → upper text = text.map Char.toUpper

def trimMatches (strip : Char → Bool) (text : Text) : Text :=
  (((text.dropWhile strip).reverse).dropWhile strip).reverse

def isTrimWhitespace (c : Char) : Bool :=
  c = ' ' || c = '\t' || c = '\n' || c = Char.ofNat 11 || c = Char.ofNat 12 || c = '\r'

def trim (text : Text) : Text := trimMatches isTrimWhitespace text

/-- The parts of a string between commas; an empty string has none. -/
def splitComma (text : Text) : List Text := if text = [] then [] else text.splitOn ','

def isTokenChar (c : Char) : Bool := c.isAlphanum || "!#$%&'*+-.^_`|~".toList.contains c

def isValidName (name : Text) : Bool := !name.isEmpty && name.all isTokenChar

def isValidValue (value : Text) : Bool :=
  value.all fun c => !(c = '\r' || c = '\n' || c = Char.ofNat 0)

/-- A value as a string; what is given is the text of a string, a number or a boolean. -/
def coerce (name : Text) : Option Text → Except String Text
  | none => .error s!"header {String.ofList name} cannot be nil"
  | some text =>
      let text := trimMatches (fun c => c = ' ' || c = '\t') text
      if isValidValue text then .ok text
      else .error (s!"header {String.ofList name} contains a line break or NUL, " ++
        "which would split the response")

def canonicalNames : List (Text × Text) := [
  ("etag".toList, "ETag".toList), ("te".toList, "TE".toList), ("dnt".toList, "DNT".toList),
  ("www-authenticate".toList, "WWW-Authenticate".toList),
  ("content-md5".toList, "Content-MD5".toList),
  ("x-xss-protection".toList, "X-XSS-Protection".toList),
  ("sec-websocket-key".toList, "Sec-WebSocket-Key".toList),
  ("sec-websocket-accept".toList, "Sec-WebSocket-Accept".toList),
  ("sec-websocket-version".toList, "Sec-WebSocket-Version".toList),
  ("sec-websocket-protocol".toList, "Sec-WebSocket-Protocol".toList),
  ("sec-websocket-extensions".toList, "Sec-WebSocket-Extensions".toList),
  ("x-ua-compatible".toList, "X-UA-Compatible".toList)]

structure HeaderEntry where
  name : Text
  values : List Text
  deriving DecidableEq

structure Headers where
  fields : List (Text × HeaderEntry)
  size : Int
  deriving DecidableEq

/-- What a method leaves: the collection, and what it raised if it did. -/
structure Outcome (σ : Type) where
  state : σ
  error : Option String

/-- One call after the other, up to the first that raises. -/
def Outcome.run {σ : Type} : List (σ → Outcome σ) → σ → Outcome σ
  | [], state => ⟨state, none⟩
  | call :: calls, state =>
      match (call state).error with
      | some error => ⟨(call state).state, some error⟩
      | none => Outcome.run calls (call state).state

/-- A value of a dictionary that a collection is extended from. -/
inductive Given where
  | one (value : Option Text)
  | many (values : List (Option Text))

namespace Headers

variable (x : Casing)

def empty : Headers := ⟨[], 0⟩

def entry (h : Headers) (name : Text) : Option HeaderEntry := h.fields.lookup (x.lower name)

def get (h : Headers) (name : Text) : Option Text := (h.entry x name).bind fun e => e.values.head?

def getAll (h : Headers) (name : Text) : List Text :=
  ((h.entry x name).map HeaderEntry.values).getD []

def getJoined (h : Headers) (name : Text) : Option Text :=
  (h.entry x name).map fun e => [',', ' '].intercalate e.values

def contains (h : Headers) (name : Text) : Bool := (h.entry x name).isSome

def containsToken (h : Headers) (name token : Text) : Bool :=
  match h.entry x name with
  | none => false
  | some e => e.values.any fun value =>
      (splitComma value).any fun part => decide (x.lower (trim part) = x.lower token)

def tokens (h : Headers) (name : Text) : List Text :=
  (h.getAll x name).flatMap fun value =>
    ((splitComma value).map fun part => x.lower (trim part)).filter fun token => !token.isEmpty

/-- The names and values one by one. -/
def each (h : Headers) : List (Text × Text) :=
  h.fields.flatMap fun e => e.2.values.map fun value => (e.2.name, value)

def names (h : Headers) : List Text := h.fields.map fun e => e.2.name

def toWire (h : Headers) : Text :=
  h.fields.flatMap fun e => e.2.values.flatMap fun value =>
    e.2.name ++ [':', ' '] ++ value ++ ['\r', '\n']

/-- What the values of an entry count for, by their characters. -/
def counted (e : HeaderEntry) : Int :=
  (e.values.map fun value => ((e.name.length + value.length + 4 : Nat) : Int)).sum

def remove (name : Text) (h : Headers) : Headers :=
  match h.entry x name with
  | none => h
  | some e => ⟨h.fields.filter fun f => decide (f.1 ≠ x.lower name), h.size - counted e⟩

def set (name : Text) (value : Option Text) (h : Headers) : Outcome Headers :=
  match coerce name value with
  | .error e => ⟨h, some e⟩
  | .ok text =>
      if isValidName name then
        let h := h.remove x name
        ⟨⟨h.fields ++ [(x.lower name, ⟨name, [text]⟩)],
          h.size + (name.length + text.length + 4 : Nat)⟩, none⟩
      else ⟨h, some s!"invalid header field name: {String.ofList name}"⟩

def add (name : Text) (value : Option Text) (h : Headers) : Outcome Headers :=
  match coerce name value with
  | .error e => ⟨h, some e⟩
  | .ok text =>
      if isValidName name then
        let key := x.lower name
        let fields :=
          if (h.fields.lookup key).isSome then
            h.fields.map fun f =>
              if f.1 = key then (f.1, ⟨f.2.name, f.2.values ++ [text]⟩) else f
          else h.fields ++ [(key, ⟨name, [text]⟩)]
        ⟨⟨fields, h.size + (name.length + text.length + 4 : Nat)⟩, none⟩
      else ⟨h, some s!"invalid header field name: {String.ofList name}"⟩

def setDefault (name : Text) (value : Option Text) (h : Headers) : Outcome Headers :=
  if h.contains x name then ⟨h, none⟩ else h.set x name value

/-- Extending from another collection. -/
def extend (other : Headers) (h : Headers) : Outcome Headers :=
  Outcome.run (other.each.map fun p => add x p.1 (some p.2)) h

def assign (p : Text × Given) (h : Headers) : Outcome Headers :=
  match p.2 with
  | .one value => h.set x p.1 value
  | .many values => Outcome.run (values.map (add x p.1)) (h.remove x p.1)

def extendDict (pairs : List (Text × Given)) (h : Headers) : Outcome Headers :=
  Outcome.run (pairs.map (assign x)) h

def clone (h : Headers) : Outcome Headers := extend x h empty

def capitalize : Text → Text
  | [] => []
  | c :: part => x.upper [c] ++ part

def canonicalName (name : Text) : Text :=
  match canonicalNames.lookup (x.lower name) with
  | some special => special
  | none => ['-'].intercalate (((x.lower name).splitOn '-').map (capitalize x))

def canonicalize (h : Headers) : Headers :=
  { h with fields := h.fields.map fun f => (f.1, { f.2 with name := canonicalName x f.1 }) }

def hopByHop : List Text := [
  "connection".toList, "keep-alive".toList, "proxy-connection".toList,
  "proxy-authenticate".toList, "proxy-authorization".toList, "te".toList, "trailer".toList,
  "transfer-encoding".toList, "upgrade".toList]

/-- The names to remove: the fixed ones, and those the collection declares itself. -/
def doomed (tokens : List Text) : List Text :=
  tokens.foldl (fun doomed token => if token ∈ doomed then doomed else doomed ++ [token]) hopByHop

def stripHopByHop (h : Headers) : Headers :=
  (doomed (h.tokens x "connection".toList)).foldl (fun h name => h.remove x name) h

/-- The collection of a request head, as the parser fills it. -/
def fromRaw (fields : H1.Fields) : Headers :=
  ⟨fields.entries.map fun e =>
      (e.orig.toLower.toList, ⟨e.orig.toList, e.values.map String.toList⟩), fields.size⟩

end Headers

/-- A request head the parser has taken. The crate gives names that are tokens, and values
without line breaks and without blanks around them. -/
structure ParsedHead where
  platform : H1.Platform
  head : H1.Head
  fields : H1.Fields
  parsed : H1.fieldsOf platform head = .ok fields
  names : ∀ header ∈ head.headers, isValidName header.1.toList
  values : ∀ header ∈ head.headers, ∀ value, platform.utf8 header.2 = some value →
    coerce header.1.toList (some value.toList) = .ok value.toList

/-- The operations, on any of the collections there are. -/
inductive HeadersOp where
  | new
  | parsed (head : ParsedHead)
  | set (i : Nat) (name : Text) (value : Option Text)
  | add (i : Nat) (name : Text) (value : Option Text)
  | setDefault (i : Nat) (name : Text) (value : Option Text)
  | remove (i : Nat) (name : Text)
  | extend (i other : Nat)
  | extendDict (i : Nat) (pairs : List (Text × Given))
  | canonicalize (i : Nat)
  | clone (i : Nat)
  | stripHopByHop (i : Nat)
  | clear (i : Nat)

/-- An operation on the collections; extending a collection by itself does not end, unless it is
empty, and a collection that cannot be copied raises. -/
def HeadersOp.step (x : Casing) (store : List Headers) : HeadersOp → Option (List Headers)
  | .new => some (store ++ [.empty])
  | .parsed head => some (store ++ [.fromRaw head.fields])
  | .set i name value => some (store.modify i fun h => (h.set x name value).state)
  | .add i name value => some (store.modify i fun h => (h.add x name value).state)
  | .setDefault i name value => some (store.modify i fun h => (h.setDefault x name value).state)
  | .remove i name => some (store.modify i (Headers.remove x name))
  | .extend i other =>
      match store[other]? with
      | none => some store
      | some o =>
          if i = other ∧ o.fields ≠ [] then none
          else some (store.modify i fun h => (Headers.extend x o h).state)
  | .extendDict i pairs => some (store.modify i fun h => (h.extendDict x pairs).state)
  | .canonicalize i => some (store.modify i (Headers.canonicalize x))
  | .clone i =>
      match store[i]? with
      | none => some store
      | some h =>
          match (h.clone x).error with
          | none => some (store ++ [(h.clone x).state])
          | some _ => some store
  | .stripHopByHop i => some (store.modify i (Headers.stripHopByHop x))
  | .clear i => some (store.modify i fun _ => .empty)

end Zuri.Http
