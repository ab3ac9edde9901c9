import Zuri.Http.H1.Stream

/-!
Request heads. The parser itself is a crate of its own, and so are decoding and lower case;
around it stand the limits, which are checked one way while a head is incomplete and
another way once it is complete.
-/

namespace Zuri.Http.H1

structure Head where
  method : String
  path : String
  version : Nat
  headers : List (String × List UInt8)

/-- What the crate says of the bytes: a complete head comes with its length. -/
inductive Status where
  | incomplete
  | tooManyHeaders
  | malformed (why : String)
  | complete (head : Head) (amount : Nat)

structure Platform where
  parse : Nat → List UInt8 → Status
  utf8 : List UInt8 → Option String
  lossy : List UInt8 → String
  lower : String → String

structure Limits where
  maxLine : Nat
  maxHeaderSize : Nat
  maxHeaderCount : Nat
  maxBodySize : Nat

def Limits.line (limits : Limits) : String := s!"line exceeds the {limits.maxLine} byte limit"

def Limits.section (limits : Limits) : String :=
  s!"header section exceeds {limits.maxHeaderSize} bytes"

structure Entry where
  orig : String
  values : List String

structure Fields where
  method : String
  target : String
  version : String
  entries : List Entry
  size : Nat
  authority : Option String
  cookie : Option String

def isSingleton (name : String) : Bool :=
  ["content-length", "content-type", "host", "authorization", "proxy-authorization", "from",
    "location", "max-forwards", "referer", "user-agent", "if-modified-since",
    "if-unmodified-since", "age", "expires", "date", "retry-after", "last-modified",
    "server"].contains name.toLower

/-- What the headers seen so far have come to. -/
structure Collected where
  hosts : Nat := 0
  authority : Option String := none
  cookie : Option String := none
  size : Nat := 0
  entries : List Entry := []

def Collected.find (c : Collected) (name : String) : Option Entry :=
  c.entries.find? fun e => e.orig.toLower = name.toLower

def Collected.push (c : Collected) (name value : String) : Collected :=
  { c with
    size := c.size + (name.utf8ByteSize + value.utf8ByteSize + 4)
    entries :=
      match c.find name with
      | some _ => c.entries.map fun e =>
          if e.orig.toLower = name.toLower then { e with values := e.values ++ [value] } else e
      | none => c.entries ++ [⟨name, [value]⟩] }

/-- Hosts are counted, and cookies joined. -/
def Collected.note (c : Collected) (name value : String) : Except String Collected :=
  if name.toLower = "host" then
    if 0 < c.hosts then .error "request has more than one Host header"
    else .ok { c with hosts := c.hosts + 1, authority := c.authority.or (some value) }
  else if name.toLower = "cookie" then
    match c.cookie with
    | none => .ok { c with cookie := some value }
    | some existing => .ok { c with cookie := some (existing ++ "; " ++ value) }
  else .ok c

/-- A header that may be there only once may be repeated with the same value. -/
def Collected.keep (c : Collected) (name value : String) : Except String Collected :=
  match isSingleton name, (c.find name).bind fun e => e.values.head? with
  | true, some first =>
      if first = value then .ok c else .error s!"conflicting duplicate {name} header"
  | _, _ => .ok (c.push name value)

def Collected.add (p : Platform) (c : Collected) (header : String × List UInt8) :
    Except String Collected :=
  match p.utf8 header.2 with
  | none => .error "invalid header field value"
  | some value => (c.note header.1 value).bind fun c => c.keep header.1 value

def versionOf : Nat → Except String String
  | 1 => .ok "1.1"
  | 0 => .ok "1.0"
  | _ => .error "unsupported HTTP version"

def fieldsOf (p : Platform) (head : Head) : Except String Fields :=
  (versionOf head.version).bind fun version =>
    (head.headers.foldlM (Collected.add p) {}).bind fun c =>
      if version = "1.1" ∧ c.hosts = 0 then .error "HTTP/1.1 request has no Host header"
      else
        .ok
          { method := head.method
            target := head.path
            version
            entries := c.entries
            size := c.size
            authority := c.authority
            cookie := c.cookie }

/-- The length of the line that ends with the LF at `lf`. -/
def lineLength (raw : List UInt8) (lf : Nat) : Nat :=
  if 0 < lf ∧ raw[lf - 1]? = some 13 then lf - 1 else lf

/-- Why an incomplete head is refused already. -/
def overLimit (limits : Limits) (raw : List UInt8) : Option String :=
  let lineSoFar := match raw.idxOf? 10 with
    | some lf => lineLength raw lf
    | none => raw.length
  if limits.maxLine < lineSoFar then some limits.line
  else if limits.maxLine + limits.maxHeaderSize < raw.length then some limits.section
  else none

def parseData (p : Platform) (limits : Limits) (raw : List UInt8) :
    Option (Except String (Fields × Nat)) :=
  match p.parse limits.maxHeaderCount raw with
  | .tooManyHeaders => some (.error s!"more than {limits.maxHeaderCount} header fields")
  | .malformed why => some (.error s!"malformed HTTP request: {why}")
  | .incomplete => (overLimit limits raw).map .error
  | .complete head amount =>
      let lf := (raw.take amount).idxOf 10
      if limits.maxLine < lineLength raw lf then some (.error limits.line)
      else if limits.maxHeaderSize < amount - (lf + 1) then some (.error limits.section)
      else some ((fieldsOf p head).map fun fields => (fields, amount))

/-- What the crate promises: it asks for more exactly as long as a complete head could still
come of it, and what it says stands however the bytes go on. -/
structure Httparse (p : Platform) : Prop where
  stable : ∀ count part rest, p.parse count part ≠ .incomplete →
    p.parse count (part ++ rest) = p.parse count part
  complete : ∀ count raw head amount, p.parse count raw = .complete head amount →
    amount ≤ raw.length ∧ 10 ∈ raw.take amount ∧
      p.parse count (raw.take amount) = .complete head amount

/-- How long the shortest part of the bytes is that is over a limit. -/
def firstOver (limits : Limits) (bytes : List UInt8) : Nat :=
  if 10 ∈ bytes.take (limits.maxLine + 1) then limits.maxLine + limits.maxHeaderSize + 1
  else limits.maxLine + 1

/-- Whether a request line is exactly as long as it may be, and ends with CR LF. -/
def exactLine (limits : Limits) (bytes : List UInt8) : Bool :=
  decide (10 ∉ bytes.take (limits.maxLine + 1)) && bytes[limits.maxLine]? = some 13 &&
    bytes[limits.maxLine + 1]? = some 10

def Status.refused : Status → Bool
  | .tooManyHeaders | .malformed _ => true
  | _ => false

def Status.isIncomplete : Status → Bool
  | .incomplete => true
  | _ => false

/-- Where a part of the head could be over a limit before it is decided, the whole head is
over the same limit. -/
def headFits (p : Platform) (limits : Limits) (bytes : List UInt8) : Bool :=
  decide (bytes.length < firstOver limits bytes) ||
    !(p.parse limits.maxHeaderCount (bytes.take (firstOver limits bytes))).isIncomplete ||
    (!exactLine limits bytes && !(p.parse limits.maxHeaderCount bytes).refused)

end Zuri.Http.H1
