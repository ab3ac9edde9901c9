import Zuri.Http.H2.Hpack

/-!
The request a header block spells: its pseudo-headers, its ordinary fields in the
collection that handlers read, and the reasons to refuse it.
-/

namespace Zuri.Http.H2

def lower (text : Text) : Text := text.map Char.toLower

def trimBy (strip : Char → Bool) (text : Text) : Text :=
  ((text.dropWhile strip).reverse.dropWhile strip).reverse

def isTokenOctet (octet : UInt8) : Bool :=
  (48 ≤ octet && octet ≤ 57) || (65 ≤ octet && octet ≤ 90) || (97 ≤ octet && octet ≤ 122) ||
    (utf8 ['!', '#', '$', '%', '&', Char.ofNat 39, '*', '+', '-', '.', '^', '_', Char.ofNat 96,
      '|', '~']).contains octet

def isValidName (name : Text) : Bool := !name.isEmpty && (utf8 name).all isTokenOctet

def isValidValue (value : Text) : Bool :=
  !(utf8 value).any fun octet => octet == 13 || octet == 10 || octet == 0

/-- Lowercased names with their spelling and values, in the order they came. -/
abbrev Headers := List (Text × (Text × List Text))

namespace Headers

def coerce (name value : Text) : Except String Text :=
  let text := trimBy (fun c => c == ' ' || c == '\t') value
  let shown := String.ofList name
  if isValidValue text then .ok text
  else .error s!"header {shown} contains a line break or NUL, which would split the response"

def checked (name value : Text) : Except String Text :=
  match coerce name value with
  | .error e => .error e
  | .ok text =>
      let shown := String.ofList name
      if isValidName name then .ok text else .error s!"invalid header field name: {shown}"

def put : Headers → Text → Text → Text → Headers
  | [], key, name, text => [(key, (name, [text]))]
  | entry :: rest, key, name, text =>
      if entry.1 = key then (key, (entry.2.1, entry.2.2 ++ [text])) :: rest
      else entry :: put rest key name text

def add (headers : Headers) (name value : Text) : Except String Headers :=
  match checked name value with
  | .error e => .error e
  | .ok text => .ok (headers.put (lower name) name text)

def set (headers : Headers) (name value : Text) : Except String Headers :=
  match checked name value with
  | .error e => .error e
  | .ok text =>
      .ok (headers.filter (fun entry => entry.1 != lower name) ++ [(lower name, (name, [text]))])

def setDefault (headers : Headers) (name value : Text) : Except String Headers :=
  if headers.any (fun entry => entry.1 == lower name) then .ok headers else headers.set name value

end Headers

structure HttpRequest where
  method : Text
  target : Text
  headers : Headers
  scheme : Text
  secure : Bool
  authority : Option Text
  body : List UInt8
  deriving DecidableEq

/-- What has been read of a block. -/
structure RequestParts where
  method : Option Text := none
  scheme : Option Text := none
  path : Option Text := none
  authority : Option Text := none
  fields : Headers := []
  cookieParts : List Text := []
  seenRegular : Bool := false

def forbidden : List Text :=
  ["connection".toList, "keep-alive".toList, "proxy-connection".toList,
    "transfer-encoding".toList, "upgrade".toList]

/-- White space that trimming takes off. -/
def isTrimWhitespace (c : Char) : Bool :=
  [32, 9, 10, 11, 12, 13].contains c.toNat

def readPseudo (parts : RequestParts) (name value : Text) : Except String RequestParts :=
  let shown := String.ofList name
  if parts.seenRegular then .error "a pseudo-header followed an ordinary header field"
  else if name = ":method".toList then
    if parts.method.isSome then .error "duplicate :method"
    else .ok { parts with method := some value }
  else if name = ":scheme".toList then
    if parts.scheme.isSome then .error "duplicate :scheme"
    else .ok { parts with scheme := some value }
  else if name = ":path".toList then
    if parts.path.isSome then .error "duplicate :path"
    else .ok { parts with path := some value }
  else if name = ":authority".toList then
    if parts.authority.isSome then .error "duplicate :authority"
    else .ok { parts with authority := some value }
  else .error s!"unknown pseudo-header {shown}"

def readRegular (parts : RequestParts) (name value : Text) : Except String RequestParts :=
  let shown := String.ofList name
  let parts := { parts with seenRegular := true }
  if forbidden.contains name then .error s!"{shown} has no meaning in HTTP/2"
  else if name = "te".toList ∧ lower (trimBy isTrimWhitespace value) ≠ "trailers".toList then
    .error "TE may only be \"trailers\" in HTTP/2"
  else if name = "cookie".toList then
    .ok { parts with cookieParts := parts.cookieParts ++ [value] }
  else
    match parts.fields.add name value with
    | .error e => .error e
    | .ok fields => .ok { parts with fields := fields }

def readFields : RequestParts → List Field → Except String RequestParts
  | parts, [] => .ok parts
  | parts, (name, value) :: rest =>
      match if name.head? = some ':' then readPseudo parts name value
          else readRegular parts name value with
      | .error e => .error e
      | .ok next => readFields next rest

def withCookies (parts : RequestParts) : Except String Headers :=
  if parts.cookieParts.isEmpty then .ok parts.fields
  else parts.fields.set "Cookie".toList ("; ".toList.intercalate parts.cookieParts)

def withHost (headers : Headers) (authority : Option Text) : Except String Headers :=
  match authority with
  | none => .ok headers
  | some authority => headers.setDefault "Host".toList authority

/-- The request of a block of fields and a body. -/
def toRequest (fields : List Field) (data : List UInt8) : Except String HttpRequest :=
  match readFields {} fields with
  | .error e => .error e
  | .ok parts =>
      match parts.method, parts.scheme, parts.path with
      | some method, some scheme, some path =>
          if path.isEmpty then .error "an empty :path"
          else
            match withCookies parts with
            | .error e => .error e
            | .ok headers =>
                match withHost headers parts.authority with
                | .error e => .error e
                | .ok headers =>
                    .ok
                      { method := method, target := path, headers := headers, scheme := scheme
                        secure := scheme == "https".toList, authority := parts.authority
                        body := data }
      | _, _, _ => .error "a request is missing a required pseudo-header"

end Zuri.Http.H2
