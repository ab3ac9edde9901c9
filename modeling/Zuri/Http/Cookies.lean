import Mathlib
import Zuri.Maps.Ordered

/-!
Cookies and the jar that keeps the cookies of servers and picks those for a request. Times are in
seconds.
-/

namespace Zuri.Cookies

abbrev Text := List Char

/-- `_is_token`. -/
def isToken (name : Text) : Bool :=
  !name.isEmpty && name.all fun c =>
    (48 ≤ c.toNat && c.toNat ≤ 57) || (65 ≤ c.toNat && c.toNat ≤ 90) ||
      (97 ≤ c.toNat && c.toNat ≤ 122) || "!#$%&'*+-.^_`|~".toList.contains c

/-- `_is_cookie_octet`. -/
def isCookieOctet (code : Nat) : Bool :=
  if code < 33 || 126 < code then false
  else code ≠ 34 && code ≠ 44 && code ≠ 59 && code ≠ 92

def isValidValue (value : Text) : Bool := value.all fun c => isCookieOctet c.toNat

/-- A cookie that the constructor makes, whatever its attributes. -/
structure Cookie where
  name : Text
  value : Text
  token : isToken name = true
  octets : isValidValue value = true
  domain : Option Text := none
  path : Option Text := some ['/']
  expires : Option ℚ := none
  maxAge : Option ℚ := none
  secure : Bool := false
  httpOnly : Bool := false
  sameSite : Option Text := none
  partitioned : Bool := false

def Cookie.isExpired (cookie : Cookie) (now : ℚ) : Bool :=
  match cookie.maxAge with
  | some age => decide (age ≤ 0)
  | none =>
      match cookie.expires with
      | some time => decide (time ≤ now)
      | none => false

structure Entry where
  cookie : Cookie
  domain : Text
  wildcard : Bool

abbrev Jar := List (Text × Entry)

/-- Whether a text ends with a dot and another. -/
def endsWithDot (host domain : Text) : Bool := ('.' :: domain).isSuffixOf host

/-- The domain a cookie is kept for, if it may be set by a host. -/
def acceptedDomain (lower : Text → Text) (cookie : Cookie) (host : Text) : Option Text :=
  match cookie.domain with
  | none => some (lower host)
  | some domain =>
      if domain.isEmpty then some (lower host)
      else if lower domain ≠ lower host && !endsWithDot (lower host) (lower domain) then none
      else some (lower domain)

/-- `_default_path`. -/
def defaultPath (requestPath : Option Text) : Text :=
  match requestPath with
  | none => ['/']
  | some path =>
      if path.head? ≠ some '/' then ['/']
      else
        let last := path.length - 1 - path.reverse.findIdx (· == '/')
        if last = 0 then ['/'] else path.take last

def acceptedPath (cookie : Cookie) (requestPath : Option Text) : Text :=
  match cookie.path with
  | none => defaultPath requestPath
  | some path => if path.head? = some '/' then path else defaultPath requestPath

def keyText (domain path name : Text) : Text := domain ++ '\t' :: (path ++ '\t' :: name)

def store (lower : Text → Text) (jar : Jar) (cookie : Cookie) (host : Text)
    (requestPath : Option Text) (now : ℚ) : Jar × Bool :=
  match acceptedDomain lower cookie host with
  | none => (jar, false)
  | some domain =>
      let path := acceptedPath cookie requestPath
      let key := keyText domain path cookie.name
      if cookie.isExpired now then (OrderedMap.remove (· == ·) jar key, true)
      else
        (OrderedMap.put (· == ·) jar key
          ⟨{ cookie with path := some path }, domain, cookie.domain.isSome⟩, true)

/-- `_domain_matches`. -/
def domainMatches (host domain : Text) (wildcard : Bool) : Bool :=
  if host = domain then true else if !wildcard then false else endsWithDot host domain

/-- `_path_matches`. -/
def pathMatches (requestPath path : Text) : Bool :=
  if path = ['/'] || requestPath = path then true
  else if !path.isPrefixOf requestPath then false
  else if path.getLast? = some '/' then true
  else requestPath[path.length]? = some '/'

def Cookie.pathText (cookie : Cookie) : Text := cookie.path.getD []

/-- Puts a cookie before the first whose path is longer. -/
def place (cookie : Cookie) : List Cookie → List Cookie
  | [] => [cookie]
  | other :: rest =>
      if cookie.pathText.length < other.pathText.length then cookie :: other :: rest
      else other :: place cookie rest

def matched (lower : Text → Text) (jar : Jar) (host path : Text) (secure : Bool) (now : ℚ) :
    List Cookie :=
  (jar.filter fun entry => !entry.2.cookie.isExpired now &&
    domainMatches (lower host) entry.2.domain entry.2.wildcard &&
    pathMatches path entry.2.cookie.pathText && !(entry.2.cookie.secure && !secure)).map
      fun entry => entry.2.cookie

/-- The jar without the entries that have expired. -/
def unexpired (jar : Jar) (now : ℚ) : Jar :=
  ((jar.filter fun entry => entry.2.cookie.isExpired now).map Prod.fst).foldl
    (OrderedMap.remove (· == ·)) jar

/-- The cookies in order, each name put with its value. -/
def named (cookies : List Cookie) : List (Text × Text) :=
  cookies.foldl (fun result cookie => OrderedMap.put (· == ·) result cookie.name cookie.value) []

/-- `cookies_for`, and the jar after it. -/
def cookiesFor (lower : Text → Text) (jar : Jar) (host path : Text) (secure : Bool) (now : ℚ) :
    List (Text × Text) × Jar :=
  (named ((matched lower jar host path secure now).foldl (fun ordered c => place c ordered) []),
    unexpired jar now)

end Zuri.Cookies
