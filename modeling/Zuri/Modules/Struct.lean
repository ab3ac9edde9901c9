import Zuri.Float.Binary32
import Zuri.Http.H1.Cuts

/-!
Packing values into bytes and unpacking them again, by a format: groups of a code and how often it
repeats. Three engines read a format: one packs, one unpacks, one computes the size.
-/

namespace Zuri.Struct

inductive Value where
  | nil
  | bool (b : Bool)
  | number (x : F64)
  | bigint (n : Int)
  | string (text : String)
  | bytes (data : List UInt8)
  | list (items : List Value)
  | object (typeName : String)

namespace Value

def typeName : Value → String
  | nil => "nil"
  | bool _ => "bool"
  | number _ => "number"
  | bigint _ => "bigint"
  | string _ => "string"
  | bytes _ => "bytes"
  | list _ => "list"
  | object typeName => typeName

def isFalsey : Value → Bool
  | nil => true
  | bool b => !b
  | number x => x.eq F64.zero || x.isNan
  | bigint n => n = 0
  | string text => text.isEmpty
  | bytes data => data.isEmpty
  | list _ | object _ => false

end Value

/-- The machine: whether its own byte order is little-endian, and how it writes a number. -/
structure Machine where
  little : Bool
  display : F64 → String

def VALID_CODES : List Char := "aAhHcCsSnviIlLNVqQJPfgGdeExXZ@?wWuU".toList

def isValidCode (c : Char) : Bool := VALID_CODES.contains c

inductive Repeat where
  | one
  | count (n : Nat)
  | star
  deriving DecidableEq

/-- How often, where `*` is as often as `star`. -/
def Repeat.times (star : Nat) : Repeat → Nat
  | .one => 1
  | .count n => n
  | .star => star

structure Group where
  code : Char
  «repeat» : Repeat
  name : Option String := none
  deriving DecidableEq

def digitsValue (digits : List Char) : Nat := digits.foldl (fun n c => n * 10 + (c.toNat - 48)) 0

def invalidCount (digits : List Char) (code : Char) : String :=
  s!"struct: invalid repeat count '{String.ofList digits}' for format code '{code}'"

/-- The groups of a segment, in as many turns as it has characters. -/
def parseCodes : Nat → List Char → Except String (List Group)
  | 0, _ => .ok []
  | _ + 1, [] => .ok []
  | turns + 1, code :: chars =>
      if !isValidCode code then .error s!"struct: unknown format code '{code}'"
      else if chars.head? = some '*' then do
        let groups ← parseCodes turns chars.tail
        pure (⟨code, .star, none⟩ :: groups)
      else
        let digits := chars.takeWhile Char.isDigit
        let chars := chars.dropWhile Char.isDigit
        if digits.isEmpty then do
          let groups ← parseCodes turns chars
          pure (⟨code, .one, none⟩ :: groups)
        else if digitsValue digits < 2 ^ 64 then do
          let groups ← parseCodes turns chars
          pure (⟨code, .count (digitsValue digits), none⟩ :: groups)
        else .error (invalidCount digits code)

def parseSegment (segment : List Char) : Except String (List Group) :=
  if segment.isEmpty then .ok []
  else
    let codePart := segment.takeWhile fun c => c ≠ ':'
    let namePart := (segment.dropWhile fun c => c ≠ ':').tail?
    if codePart.isEmpty then
      .error s!"struct: empty format code in segment '{String.ofList segment}'"
    else do
      let groups ← parseCodes codePart.length codePart
      match namePart with
      | none => pure groups
      | some name =>
          if groups.length ≠ 1 then
            throw (s!"struct: a named field (':{String.ofList name}') must contain exactly one " ++
              s!"format code, found {groups.length} in segment '{String.ofList segment}'")
          else pure (groups.map fun g => { g with name := some (String.ofList name) })

def parseFormat (fmt : List Char) : Except String (List Group) :=
  ((fmt.splitOn '/').mapM parseSegment).map List.flatten

def noStar : String := "struct: '*' repeat is not supported for this format code"

def repeatCountOf : Repeat → Except String Nat
  | .one => .ok 1
  | .count n => .ok n
  | .star => .error noStar

inductive Endian where
  | native
  | big
  | little
  deriving DecidableEq

/-- The size in bytes, the byte order and whether it is signed, of every integer code. -/
def codeIntSpec (code : Char) : Option (Nat × Endian × Bool) :=
  match code with
  | '?' => some (1, .native, false)
  | 'c' => some (1, .native, true)
  | 'C' => some (1, .native, false)
  | 's' => some (2, .native, true)
  | 'S' => some (2, .native, false)
  | 'n' => some (2, .big, false)
  | 'v' => some (2, .little, false)
  | 'i' => some (4, .native, true)
  | 'I' => some (4, .native, false)
  | 'l' => some (4, .native, true)
  | 'L' => some (4, .native, false)
  | 'N' => some (4, .big, false)
  | 'V' => some (4, .little, false)
  | 'q' => some (8, .native, true)
  | 'Q' => some (8, .native, false)
  | 'J' => some (8, .big, false)
  | 'P' => some (8, .little, false)
  | 'u' => some (16, .little, true)
  | 'U' => some (16, .little, false)
  | _ => none

/-- The size in bytes and the byte order of every float code. -/
def codeFloatSpec (code : Char) : Option (Nat × Endian) :=
  match code with
  | 'f' => some (4, .native)
  | 'g' => some (4, .little)
  | 'G' => some (4, .big)
  | 'd' => some (8, .native)
  | 'e' => some (8, .little)
  | 'E' => some (8, .big)
  | 'w' => some (2, .little)
  | 'W' => some (2, .big)
  | _ => none

def codeSize (code : Char) : Except String Nat :=
  match codeIntSpec code with
  | some (size, _, _) => .ok size
  | none =>
      match codeFloatSpec code with
      | some (size, _) => .ok size
      | none => .error s!"struct: format code '{code}' has no fixed element size"

/-- What the engines do with a code. -/
inductive Kind where
  | text
  | hex
  | pad
  | back
  | seek
  | value
  deriving DecidableEq

def kind (code : Char) : Kind :=
  match code with
  | 'a' | 'A' | 'Z' => .text
  | 'h' | 'H' => .hex
  | 'x' => .pad
  | 'X' => .back
  | '@' => .seek
  | _ => .value

/-- The low bytes of a number, the lowest first. -/
def leBytes : Nat → Nat → List UInt8
  | 0, _ => []
  | size + 1, n => UInt8.ofNat n :: leBytes size (n / 256)

def ofLeBytes (bytes : List UInt8) : Nat := bytes.foldr (fun b n => b.toNat + 256 * n) 0

section
variable (m : Machine)

/-- Bytes in a byte order, from or to the lowest first. -/
def ordered (endian : Endian) (bytes : List UInt8) : List UInt8 :=
  match endian with
  | .little => bytes
  | .big => bytes.reverse
  | .native => if m.little then bytes else bytes.reverse

def readUint (bytes : List UInt8) (endian : Endian) : Nat := ofLeBytes (ordered m endian bytes)

/-- The two's complement of a number in 128 bits. -/
def asU128 (v : Int) : Nat := (v % 2 ^ 128).toNat

def writeInt (size : Nat) (endian : Endian) (v : Int) : List UInt8 :=
  ordered m endian (leBytes size (asU128 v))

def F64_SAFE_INT : Int := 9007199254740992

def intToValue (v : Int) : Value :=
  if -F64_SAFE_INT ≤ v ∧ v ≤ F64_SAFE_INT then .number (F64.ofInt v) else .bigint v

def uintToValue (v : Nat) : Value :=
  if (v : Int) ≤ F64_SAFE_INT then .number (F64.ofInt v) else .bigint v

/-- Whether a finite double has a fraction. -/
def hasFract : F64.Num → Bool
  | .fin _ mag => mag % F64.one ≠ 0
  | _ => false

/-- Toward zero and saturating. -/
def toI128 : F64.Num → Int
  | .nan => 0
  | .inf s => if s then -2 ^ 127 else 2 ^ 127 - 1
  | .fin s mag => max (-2 ^ 127) (min (2 ^ 127 - 1) (F64.signed s (mag / F64.one)))

def valueToI128 : Value → Except String Int
  | .number x =>
      match x.num with
      | .fin _ _ =>
          if hasFract x.num then
            .error (s!"struct.pack(): expected an integer value for this format code, " ++
              s!"got {m.display x}")
          else .ok (toI128 x.num)
      | _ => .error s!"struct.pack(): cannot pack non-finite number {m.display x} as an integer"
  | .bigint n =>
      if -2 ^ 127 ≤ n ∧ n < 2 ^ 127 then .ok n
      else .error "struct.pack(): bigint value is out of range for a 128-bit integer"
  | v => .error s!"struct.pack(): expected a number or bigint for this format code, got {v.typeName}"

def valueToF64 : Value → Except String F64
  | .number x => .ok x
  | .bigint n => .ok (F64.ofInt n)
  | v => .error s!"struct.pack(): expected a number for this format code, got {v.typeName}"

def valueAsStringBytes (v : Value) (code : Char) : Except String (List UInt8) :=
  match v with
  | .string text => .ok text.toUTF8.data.toList
  | .bytes data => .ok data
  | v => .error (s!"struct.pack(): format code '{code}' expects a string or bytes value, " ++
      s!"got {v.typeName}")

def hexValue (c : Char) : Option Nat :=
  if '0' ≤ c ∧ c ≤ '9' then some (c.toNat - 48)
  else if 'a' ≤ c ∧ c ≤ 'f' then some (c.toNat - 87)
  else if 'A' ≤ c ∧ c ≤ 'F' then some (c.toNat - 55)
  else none

def valueAsHexStr (v : Value) (code : Char) : Except String (List Char) :=
  match v with
  | .string text =>
      match text.toList.find? fun c => (hexValue c).isNone with
      | none => .ok text.toList
      | some c => .error
          s!"struct.pack(): format code '{code}' expects a hex-digit string, found '{c}'"
  | v => .error
      s!"struct.pack(): format code '{code}' expects a hex-digit string, got {v.typeName}"

def writeFloat (size : Nat) (endian : Endian) (x : F64) : List UInt8 :=
  ordered m endian (leBytes size
    (if size = 8 then x.bits.toNat
    else if size = 4 then F32.ofF64 x
    else F32.toHalf (F32.ofF64 x)))

def readFloat (size : Nat) (endian : Endian) (bytes : List UInt8) : F64 :=
  let bits := readUint m bytes endian
  if size = 8 then ⟨BitVec.ofNat 64 bits⟩
  else if size = 4 then F32.toF64 bits
  else F32.toF64 (F32.ofHalf bits)

/-- Two digits to a byte. -/
def hexBytes (code : Char) : List Nat → List UInt8
  | [] => []
  | [d] => [UInt8.ofNat (if code = 'h' then d else d * 16)]
  | d :: d' :: digits =>
      UInt8.ofNat (if code = 'h' then d' * 16 + d else d * 16 + d') :: hexBytes code digits

def writeHex (text : List Char) (wantDigits : Nat) (code : Char) : List UInt8 :=
  let digits := (text.take wantDigits).map fun c => (hexValue c).getD 0
  hexBytes code (digits ++ List.replicate (wantDigits - digits.length) 0)

def fromDigit (d : Nat) : Char := if d < 10 then Char.ofNat (48 + d) else Char.ofNat (87 + d)

def hexDigits (code : Char) (b : UInt8) : List Char :=
  let hi := b.toNat / 16
  let lo := b.toNat % 16
  if code = 'h' then [fromDigit lo, fromDigit hi] else [fromDigit hi, fromDigit lo]

def readHex (bytes : List UInt8) (wantDigits : Nat) (code : Char) : String :=
  String.ofList ((bytes.flatMap (hexDigits code)).take wantDigits)

def writePaddedString (s : List UInt8) (wantLen : Nat) (code : Char) : List UInt8 :=
  if code = 'Z' then
    let taken := s.take (max wantLen 1 - 1)
    taken ++ List.replicate (max wantLen 1 - taken.length) 0
  else
    let taken := s.take wantLen
    taken ++ List.replicate (wantLen - taken.length) (if code = 'A' then 32 else 0)

/-- What is trimmed of a string that was padded. -/
def trimPadding (code : Char) (chunk : List UInt8) : List UInt8 :=
  if code = 'A' then (chunk.reverse.dropWhile fun b => b = 0 ∨ b = 32).reverse
  else if code = 'Z' then chunk.takeWhile fun b => b ≠ 0
  else chunk

def writeGroupValue (code : Char) (v : Value) : Except String (List UInt8) :=
  if code = '?' then .ok [if !v.isFalsey then 1 else 0]
  else
    match codeFloatSpec code with
    | some (size, endian) => (valueToF64 v).map (writeFloat m size endian)
    | none =>
        (valueToI128 m v).map fun n =>
          match codeIntSpec code with
          | some (size, endian, _) => writeInt m size endian n
          | none => []

def readGroupValue (code : Char) (bytes : List UInt8) : Value :=
  if code = '?' then .bool (bytes.headD 0 ≠ 0)
  else
    match codeFloatSpec code with
    | some (size, endian) => .number (readFloat m size endian bytes)
    | none =>
        match codeIntSpec code with
        | some (size, endian, signed) =>
            let raw := readUint m bytes endian
            if signed then
              intToValue (if 2 ^ (size * 8 - 1) ≤ raw then (raw : Int) - 2 ^ (size * 8) else raw)
            else uintToValue raw
        | none => .nil

def nextArg (items : List Value) (idx : Nat) (code : Char) : Except String Value :=
  match items[idx]? with
  | some v => .ok v
  | none => .error (s!"struct.pack(): not enough arguments supplied for format code '{code}' " ++
      s!"(expected a value at position {idx + 1})")

def checkBounds (data : List UInt8) (pos need : Nat) : Except String Unit :=
  if pos + need ≤ data.length then .ok ()
  else .error (s!"struct.unpack(): not enough data: need {need} more byte(s) at offset {pos}, " ++
    s!"but only {data.length - pos} byte(s) remain")

def flattenPackArgs (args : List Value) : List Value :=
  args.flatMap fun arg =>
    match arg with
    | .list items => items
    | arg => [arg]

/-- The argument that comes next, and what is written so far. -/
structure Packing where
  idx : Nat := 0
  out : List UInt8 := []

def packMany (code : Char) (items : List Value) : Nat → Packing → Except String Packing
  | 0, s => .ok s
  | count + 1, s => do
      let v ← nextArg items s.idx code
      let bytes ← writeGroupValue m code v
      packMany code items count ⟨s.idx + 1, s.out ++ bytes⟩

def packGroup (items : List Value) (s : Packing) (g : Group) : Except String Packing :=
  match kind g.code with
  | .text => do
      let v ← nextArg items s.idx g.code
      let bytes ← valueAsStringBytes v g.code
      let want := g.repeat.times (if g.code = 'Z' then bytes.length + 1 else bytes.length)
      pure ⟨s.idx + 1, s.out ++ writePaddedString bytes want g.code⟩
  | .hex => do
      let v ← nextArg items s.idx g.code
      let hex ← valueAsHexStr v g.code
      let wantDigits := g.repeat.times hex.length
      pure ⟨s.idx + 1, s.out ++ writeHex hex wantDigits g.code⟩
  | .pad => do
      let n ← repeatCountOf g.repeat
      pure { s with out := s.out ++ List.replicate n 0 }
  | .back => do
      let n ← repeatCountOf g.repeat
      pure { s with out := s.out.take (s.out.length - n) }
  | .seek =>
      match g.repeat with
      | .count n => .ok { s with out := s.out ++ List.replicate (n - s.out.length) 0 }
      | .one => .ok s
      | .star => .error "struct.pack(): '@' cannot use a '*' repeat"
  | .value =>
      let count := g.repeat.times (items.length - s.idx)
      packMany m g.code items count s

def packValues (groups : List Group) (items : List Value) : Except String (List UInt8) :=
  (groups.foldlM (packGroup m items) {}).map Packing.out

abbrev Pairs := List (String × Value)

/-- Where the next byte is, the number of the next field without a name, and the fields. -/
structure Unpacking where
  pos : Nat
  unnamed : Nat := 1
  result : Pairs := []

def pushNamed (s : Unpacking) (name : Option String) (val : Value) (count k : Nat) : Unpacking :=
  match name with
  | some name =>
      { s with result := s.result ++ [(if 1 < count then s!"{name}{k + 1}" else name, val)] }
  | none => { s with unnamed := s.unnamed + 1, result := s.result ++ [(toString s.unnamed, val)] }

def unpackMany (g : Group) (data : List UInt8) (size count : Nat) :
    Nat → Unpacking → Except String Unpacking
  | 0, s => .ok s
  | left + 1, s => do
      checkBounds data s.pos size
      let val := readGroupValue m g.code ((data.drop s.pos).take size)
      unpackMany g data size count left
        { pushNamed s g.name val count (count - (left + 1)) with pos := s.pos + size }

def unpackGroup (data : List UInt8) (s : Unpacking) (g : Group) : Except String Unpacking :=
  match kind g.code with
  | .text => do
      let want := g.repeat.times (data.length - s.pos)
      checkBounds data s.pos want
      let chunk := trimPadding g.code ((data.drop s.pos).take want)
      let val := Value.string (Http.H1.fromUtf8Lossy chunk)
      pure { pushNamed s g.name val 1 0 with pos := s.pos + want }
  | .hex => do
      let wantDigits := g.repeat.times ((data.length - s.pos) * 2)
      let wantBytes := (wantDigits + 1) / 2
      checkBounds data s.pos wantBytes
      let val := Value.string (readHex ((data.drop s.pos).take wantBytes) wantDigits g.code)
      pure { pushNamed s g.name val 1 0 with pos := s.pos + wantBytes }
  | .pad => do
      let n ← repeatCountOf g.repeat
      checkBounds data s.pos n
      pure { s with pos := s.pos + n }
  | .back => do
      let n ← repeatCountOf g.repeat
      pure { s with pos := s.pos - n }
  | .seek =>
      let target : Except String Nat :=
        match g.repeat with
        | .count n => .ok n
        | .one => .ok 0
        | .star => .error "struct.unpack(): '@' cannot use a '*' repeat"
      target >>= fun target =>
        if data.length < target then
          .error s!"struct.unpack(): '@' position {target} is beyond the data length {data.length}"
        else .ok { s with pos := target }
  | .value => do
      let size ← codeSize g.code
      let count := g.repeat.times ((data.length - s.pos) / size)
      unpackMany m g data size count count s

/-- The fields from an offset on, and the offset past the last of them. -/
def unpackValues (groups : List Group) (data : List UInt8) (start : Nat) :
    Except String (Pairs × Nat) :=
  (groups.foldlM (unpackGroup m data) { pos := start }).map fun s => (s.result, s.pos)

/-- A later field replaces an earlier one that has its key. -/
def setKey (entries : Pairs) (pair : String × Value) : Pairs :=
  if entries.any fun e => e.1 = pair.1 then
    entries.map fun e => if e.1 = pair.1 then pair else e
  else entries ++ [pair]

def allocDict (pairs : Pairs) : Pairs := pairs.foldl setKey []

def noFixedSize : String :=
  "struct.calcsize(): format contains a '*' repeat, which has no fixed size"

/-- A sum or product of sizes, which wraps. -/
def usize (n : Nat) : Nat := n % 2 ^ 64

def sizeGroup (size : Nat) (g : Group) : Except String Nat :=
  match kind g.code with
  | .text =>
      ((repeatCountOf g.repeat).mapError fun _ => noFixedSize).map fun n => usize (size + n)
  | .hex =>
      ((repeatCountOf g.repeat).mapError fun _ => noFixedSize).map fun n =>
        usize (size + (n + 1) / 2)
  | .pad => (repeatCountOf g.repeat).map fun n => usize (size + n)
  | .back => (repeatCountOf g.repeat).map fun n => size - n
  | .seek =>
      match g.repeat with
      | .count n => .ok (max size n)
      | .one => .ok (max size 0)
      | .star => .error "struct.calcsize(): '@' cannot use a '*' repeat"
  | .value => do
      let elem ← codeSize g.code
      let count ← (repeatCountOf g.repeat).mapError fun _ => noFixedSize
      pure (usize (size + usize (elem * count)))

def formatSize (groups : List Group) : Except String Nat := groups.foldlM sizeGroup 0

def unpack (format : List Char) (data : List UInt8) (offset : Nat) : Except String Pairs :=
  if data.length < offset then
    .error s!"struct.unpack(): offset {offset} is beyond the data length {data.length}"
  else do
    let groups ← parseFormat format
    let pairs ← unpackValues m groups data offset
    pure (allocDict pairs.1)

def pack (format : List Char) (args : List Value) : Except String (List UInt8) := do
  let groups ← parseFormat format
  packValues m groups (flattenPackArgs args)

def calcsize (format : List Char) : Except String Nat := parseFormat format >>= formatSize

/-- The records from a position on; nothing if they take more than so many turns. -/
def iterRecords (groups : List Group) (data : List UInt8) :
    Nat → Nat → List Pairs → Option (Except String (List Pairs))
  | 0, _, _ => none
  | turns + 1, pos, records =>
      if pos < data.length then
        match unpackValues m groups data pos with
        | .error e => some (.error e)
        | .ok (pairs, next) => iterRecords groups data turns next (records ++ [allocDict pairs])
      else some (.ok records)

def iterUnpack (turns : Nat) (format : List Char) (data : List UInt8) :
    Option (Except String (List Pairs)) :=
  match parseFormat format >>= fun groups => (formatSize groups).map fun size => (groups, size) with
  | .error e => some (.error e)
  | .ok (groups, size) =>
      if size = 0 then some (.error "struct.iter_unpack(): format has zero size")
      else if data.length % size ≠ 0 then
        some (.error (s!"struct.iter_unpack(): data length {data.length} is not a multiple of the " ++
          s!"format size {size}"))
      else iterRecords m groups data turns 0 []

end

end Zuri.Struct
