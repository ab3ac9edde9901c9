import Zuri.Cache.Eviction
import Zuri.Http.H2.Huffman
import Mathlib.Data.List.Basic

/-!
Header compression as the endpoint runs it. The native routines decode a block over a
copy of the dynamic table and give back the fields, the last capacity and the entries
they added; the table of the connection, which counts the characters of its texts,
then replays these. The encoder names static entries and spells everything else out.
-/

namespace Zuri.Http.H2

open Eviction

/-- A string, by its characters. -/
abbrev Text := List Char

abbrev Field := Text × Text

def utf8 (text : Text) : List UInt8 := text.flatMap String.utf8EncodeChar

def fromUtf8Loop : Nat → List UInt8 → Option Text
  | 0, bytes => if bytes.isEmpty then some [] else none
  | n + 1, bytes =>
      if bytes.isEmpty then some []
      else
        match bytes.toByteArray.utf8DecodeChar? 0 with
        | some c => (fromUtf8Loop n (bytes.drop c.utf8Size)).map (c :: ·)
        | none => none

def fromUtf8 (bytes : List UInt8) : Option Text := fromUtf8Loop bytes.length bytes

/-- Whether an octet may stand second after the first of a longer sequence. -/
def secondOctetFits (first second : UInt8) : Bool :=
  if first == 0xE0 then 0xA0 ≤ second && second ≤ 0xBF
  else if first == 0xED then 0x80 ≤ second && second ≤ 0x9F
  else if first == 0xF0 then 0x90 ≤ second && second ≤ 0xBF
  else if first == 0xF4 then 0x80 ≤ second && second ≤ 0x8F
  else 0x80 ≤ second && second ≤ 0xBF

/-- How many octets one replacement character stands for. -/
def illFormedLength (bytes : List UInt8) : Nat :=
  match bytes with
  | first :: second :: rest =>
      if 0xE0 ≤ first && first ≤ 0xF4 && secondOctetFits first second then
        match rest with
        | third :: _ =>
            if 0xF0 ≤ first && 0x80 ≤ third && third ≤ 0xBF then 3 else 2
        | [] => 2
      else 1
  | _ => 1

def fromUtf8LossyLoop : Nat → List UInt8 → Text
  | 0, _ => []
  | n + 1, bytes =>
      if bytes.isEmpty then []
      else
        match bytes.toByteArray.utf8DecodeChar? 0 with
        | some c => c :: fromUtf8LossyLoop n (bytes.drop c.utf8Size)
        | none => Char.ofNat 0xFFFD :: fromUtf8LossyLoop n (bytes.drop (illFormedLength bytes))

def fromUtf8Lossy (bytes : List UInt8) : Text := fromUtf8LossyLoop bytes.length bytes

def encodeTail (rem : Nat) : List UInt8 :=
  if 128 ≤ rem then UInt8.ofNat (rem % 128 + 128) :: encodeTail (rem / 128)
  else [UInt8.ofNat rem]
termination_by rem

def encodeInteger (value prefixBits first : Nat) : List UInt8 :=
  let limit := 2 ^ prefixBits - 1
  if value < limit then [UInt8.ofNat (first ||| value)]
  else UInt8.ofNat (first ||| limit) :: encodeTail (value - limit)

def decodeTail : List UInt8 → Nat → Nat → Except String (Nat × List UInt8)
  | [], _, _ => .error "truncated HPACK integer"
  | byte :: rest, value, shift =>
      let value := value + (byte.toNat % 128) <<< shift
      let shift := shift + 7
      if byte < 128 then .ok (value, rest)
      else if 28 < shift then .error "HPACK integer is too large"
      else decodeTail rest value shift

/-- The integer at the start of the data, and the data after it. -/
def decodeInteger (data : List UInt8) (prefixBits : Nat) : Except String (Nat × List UInt8) :=
  match data with
  | [] => .error "truncated HPACK integer"
  | byte :: rest =>
      let limit := 2 ^ prefixBits - 1
      let value := byte.toNat % 2 ^ prefixBits
      if value < limit then .ok (value, rest) else decodeTail rest value 0

def encodeString (text : List UInt8) : List UInt8 :=
  if huffmanEncodedLen text < text.length then
    let encoded := huffmanEncode text
    encodeInteger encoded.length 7 128 ++ encoded
  else encodeInteger text.length 7 0 ++ text

/-- The text of octets, ill-formed ones replaced. -/
def textOf (octets : List UInt8) : Text :=
  match fromUtf8 octets with
  | some text => text
  | none => fromUtf8Lossy octets

def decodeString (data : List UInt8) (maxLength : Nat) : Except String (Text × List UInt8) :=
  match data with
  | [] => .error "truncated HPACK string"
  | byte :: _ =>
      let isHuffman := decide (128 ≤ byte.toNat)
      match decodeInteger data 7 with
      | .error e => .error e
      | .ok (length, rest) =>
          if maxLength < length then
            .error s!"HPACK string of {length} bytes exceeds the limit"
          else if rest.length < length then .error "truncated HPACK string"
          else
            let octets := rest.take length
            if isHuffman then
              match huffmanDecode octets with
              | .ok decoded => .ok (textOf decoded, rest.drop length)
              | .error code =>
                  if code = 1 then .error "invalid Huffman code in a header block"
                  else if code = 2 then .error "EOS appears in a Huffman-encoded header"
                  else .error "invalid Huffman padding in a header block"
            else .ok (textOf octets, rest.drop length)

def staticTable : List Field := [
  ("".toList, "".toList),
  (":authority".toList, "".toList),
  (":method".toList, "GET".toList),
  (":method".toList, "POST".toList),
  (":path".toList, "/".toList),
  (":path".toList, "/index.html".toList),
  (":scheme".toList, "http".toList),
  (":scheme".toList, "https".toList),
  (":status".toList, "200".toList),
  (":status".toList, "204".toList),
  (":status".toList, "206".toList),
  (":status".toList, "304".toList),
  (":status".toList, "400".toList),
  (":status".toList, "404".toList),
  (":status".toList, "500".toList),
  ("accept-charset".toList, "".toList),
  ("accept-encoding".toList, "gzip, deflate".toList),
  ("accept-language".toList, "".toList),
  ("accept-ranges".toList, "".toList),
  ("accept".toList, "".toList),
  ("access-control-allow-origin".toList, "".toList),
  ("age".toList, "".toList),
  ("allow".toList, "".toList),
  ("authorization".toList, "".toList),
  ("cache-control".toList, "".toList),
  ("content-disposition".toList, "".toList),
  ("content-encoding".toList, "".toList),
  ("content-language".toList, "".toList),
  ("content-length".toList, "".toList),
  ("content-location".toList, "".toList),
  ("content-range".toList, "".toList),
  ("content-type".toList, "".toList),
  ("cookie".toList, "".toList),
  ("date".toList, "".toList),
  ("etag".toList, "".toList),
  ("expect".toList, "".toList),
  ("expires".toList, "".toList),
  ("from".toList, "".toList),
  ("host".toList, "".toList),
  ("if-match".toList, "".toList),
  ("if-modified-since".toList, "".toList),
  ("if-none-match".toList, "".toList),
  ("if-range".toList, "".toList),
  ("if-unmodified-since".toList, "".toList),
  ("last-modified".toList, "".toList),
  ("link".toList, "".toList),
  ("location".toList, "".toList),
  ("max-forwards".toList, "".toList),
  ("proxy-authenticate".toList, "".toList),
  ("proxy-authorization".toList, "".toList),
  ("range".toList, "".toList),
  ("referer".toList, "".toList),
  ("refresh".toList, "".toList),
  ("retry-after".toList, "".toList),
  ("server".toList, "".toList),
  ("set-cookie".toList, "".toList),
  ("strict-transport-security".toList, "".toList),
  ("transfer-encoding".toList, "".toList),
  ("user-agent".toList, "".toList),
  ("vary".toList, "".toList),
  ("via".toList, "".toList),
  ("www-authenticate".toList, "".toList)]

/-- What an entry costs a table of octets. -/
def entrySize (field : Field) : Nat := (utf8 field.1).length + (utf8 field.2).length + 32

/-- What an entry costs the table of the connection. -/
def entryLength (field : Field) : Nat := field.1.length + field.2.length + 32

/-- Subtraction of machine words. -/
def wrappingSub (a b : Nat) : Nat := (a + 2 ^ 64 - b) % 2 ^ 64

def wrappingAdd (a b : Nat) : Nat := (a + b) % 2 ^ 64

def checkNameOctets (name : Text) : Bool → List UInt8 → Except String Unit
  | _, [] => .ok ()
  | isFirst, byte :: rest =>
      let shown := String.ofList name
      if 65 ≤ byte && byte ≤ 90 then .error s!"header field name {shown} is not lowercase"
      else if byte ≤ 32 || (byte == 58 && !isFirst) || byte == 127 then
        .error s!"invalid character in header field name: {shown}"
      else checkNameOctets name false rest

def checkName (name : Text) : Except String Unit :=
  if name.isEmpty then .error "empty header field name" else checkNameOctets name true (utf8 name)

/-- Where the native decoder is in a block. -/
structure HeaderScan where
  data : List UInt8
  entries : List Field
  capacity : Nat
  size : Nat
  total : Nat
  fields : List Field
  added : List Field

/-- The entry an index names, static entries first. -/
def lookupIndex (entries : List Field) (index : Nat) : Option Field :=
  if index ≤ 61 then staticTable[index]? else entries[index - 62]?

def dropNative (exceeds : Nat → Bool) (scan : HeaderScan) : HeaderScan :=
  let (entries, size) :=
    evict exceeds (fun size field => wrappingSub size (entrySize field)) scan.entries scan.size
  { scan with entries := entries, size := size }

def scanIndexed (scan : HeaderScan) : Except String HeaderScan :=
  match decodeInteger scan.data 7 with
  | .error e => .error e
  | .ok (index, rest) =>
      if index < 1 then .error "HPACK index 0 is not valid"
      else
        match lookupIndex scan.entries index with
        | none => .error s!"HPACK index {index} is past the end of the table"
        | some field =>
            .ok { scan with
              data := rest, total := scan.total + entrySize field,
              fields := scan.fields ++ [field] }

def scanSizeUpdate (scan : HeaderScan) : Except String HeaderScan :=
  match decodeInteger scan.data 5 with
  | .error e => .error e
  | .ok (capacity, rest) =>
      if scan.capacity < capacity && 4096 < capacity then
        .error "HPACK table size update exceeds the agreed maximum"
      else
        .ok (dropNative (fun size => decide (capacity < size))
          { scan with data := rest, capacity := capacity })

/-- The name of a literal: an entry's, or spelled out. -/
def scanName (scan : HeaderScan) (prefixBits maxStringLength : Nat) :
    Except String (Text × List UInt8) :=
  match decodeInteger scan.data prefixBits with
  | .error e => .error e
  | .ok (index, rest) =>
      if index = 0 then decodeString rest maxStringLength
      else
        match lookupIndex scan.entries index with
        | none => .error s!"HPACK index {index} is past the end of the table"
        | some field => .ok (field.1, rest)

/-- Enters a literal into the copy of the table. -/
def addNative (scan : HeaderScan) (field : Field) : HeaderScan :=
  let cost := entrySize field
  let scan := dropNative (fun size => decide (scan.capacity < wrappingAdd size cost)) scan
  if cost ≤ scan.capacity then
    { scan with
      entries := field :: scan.entries, size := wrappingAdd scan.size cost,
      added := scan.added ++ [field] }
  else scan

def scanLiteral (scan : HeaderScan) (indexed : Bool) (maxStringLength maxHeaderListSize : Nat) :
    Except String HeaderScan :=
  match scanName scan (if indexed then 6 else 4) maxStringLength with
  | .error e => .error e
  | .ok (name, rest) =>
      match decodeString rest maxStringLength with
      | .error e => .error e
      | .ok (value, rest) =>
          match checkName name with
          | .error e => .error e
          | .ok () =>
              let scan := { scan with
                data := rest, total := scan.total + entrySize (name, value),
                fields := scan.fields ++ [(name, value)] }
              let scan := if indexed then addNative scan (name, value) else scan
              if maxHeaderListSize < scan.total then
                .error s!"decoded header list exceeds {maxHeaderListSize} bytes"
              else .ok scan

/-- One representation. -/
def scanStep (scan : HeaderScan) (maxStringLength maxHeaderListSize : Nat) :
    Except String HeaderScan :=
  match scan.data with
  | [] => .ok scan
  | byte :: _ =>
      if byte &&& 128 ≠ 0 then scanIndexed scan
      else if byte &&& 32 ≠ 0 ∧ byte &&& 64 = 0 then scanSizeUpdate scan
      else scanLiteral scan (decide (byte &&& 64 ≠ 0)) maxStringLength maxHeaderListSize

def scanBlock (maxStringLength maxHeaderListSize : Nat) :
    Nat → HeaderScan → Except String HeaderScan
  | 0, scan => .ok scan
  | n + 1, scan =>
      if scan.data.isEmpty then .ok scan
      else
        match scanStep scan maxStringLength maxHeaderListSize with
        | .error e => .error e
        | .ok next => scanBlock maxStringLength maxHeaderListSize n next

/-- The fields of a block, the last capacity and the entries added. Every representation
takes an octet at least, so there are no more of them than octets. -/
def decodeBlock (block : List UInt8) (entries : List Field) (capacity size : Nat)
    (maxStringLength maxHeaderListSize : Nat) :
    Except String (List Field × Nat × List Field) :=
  match scanBlock maxStringLength maxHeaderListSize block.length
      ⟨block, entries, capacity, size, 0, [], []⟩ with
  | .error e => .error e
  | .ok scan => .ok (scan.fields, scan.capacity, scan.added)

structure DynamicTable where
  entries : List Field
  size : Nat
  capacity : Nat

namespace DynamicTable

def empty (capacity : Nat) : DynamicTable := ⟨[], 0, capacity⟩

def drop (table : DynamicTable) (exceeds : Nat → Bool) : DynamicTable :=
  let (entries, size) :=
    evict exceeds (fun size field => size - entryLength field) table.entries table.size
  { table with entries := entries, size := size }

def add (table : DynamicTable) (field : Field) : DynamicTable :=
  let cost := entryLength field
  let table := table.drop (fun size => decide (table.capacity < size + cost))
  if table.capacity < cost then table
  else { table with entries := field :: table.entries, size := table.size + cost }

def setCapacity (table : DynamicTable) (capacity : Nat) : DynamicTable :=
  { table with capacity := capacity }.drop (fun size => decide (capacity < size))

end DynamicTable

structure Decoder where
  table : DynamicTable
  maxStringLength : Nat := 32768
  maxHeaderListSize : Nat := 262144

def Decoder.new : Decoder := { table := .empty 4096 }

def Decoder.decode (decoder : Decoder) (block : List UInt8) :
    Except String (List Field × Decoder) :=
  match decodeBlock block decoder.table.entries decoder.table.capacity decoder.table.size
      decoder.maxStringLength decoder.maxHeaderListSize with
  | .error e => .error e
  | .ok (fields, newCapacity, added) =>
      let table :=
        if newCapacity ≠ decoder.table.capacity then decoder.table.setCapacity newCapacity
        else decoder.table
      .ok (fields, { decoder with table := added.foldl DynamicTable.add table })

def staticPairLookup (field : Field) : Option Nat :=
  if field.1 = ":method".toList then
    if field.2 = "GET".toList then some 2
    else if field.2 = "POST".toList then some 3
    else none
  else if field.1 = ":path".toList then
    if field.2 = "/".toList then some 4
    else if field.2 = "/index.html".toList then some 5
    else none
  else if field.1 = ":scheme".toList then
    if field.2 = "http".toList then some 6
    else if field.2 = "https".toList then some 7
    else none
  else if field.1 = ":status".toList then
    if field.2 = "200".toList then some 8
    else if field.2 = "204".toList then some 9
    else if field.2 = "206".toList then some 10
    else if field.2 = "304".toList then some 11
    else if field.2 = "400".toList then some 12
    else if field.2 = "404".toList then some 13
    else if field.2 = "500".toList then some 14
    else none
  else if field.1 = "accept-encoding".toList then
    if field.2 = "gzip, deflate".toList then some 16 else none
  else none

/-- The static names with the lowest index of each. -/
def staticNames : List (Text × Nat) := [
  (":authority".toList, 1), (":method".toList, 2), (":path".toList, 4), (":scheme".toList, 6),
  (":status".toList, 8), ("accept-charset".toList, 15), ("accept-encoding".toList, 16),
  ("accept-language".toList, 17), ("accept-ranges".toList, 18), ("accept".toList, 19),
  ("access-control-allow-origin".toList, 20), ("age".toList, 21), ("allow".toList, 22),
  ("authorization".toList, 23), ("cache-control".toList, 24), ("content-disposition".toList, 25),
  ("content-encoding".toList, 26), ("content-language".toList, 27), ("content-length".toList, 28),
  ("content-location".toList, 29), ("content-range".toList, 30), ("content-type".toList, 31),
  ("cookie".toList, 32), ("date".toList, 33), ("etag".toList, 34), ("expect".toList, 35),
  ("expires".toList, 36), ("from".toList, 37), ("host".toList, 38), ("if-match".toList, 39),
  ("if-modified-since".toList, 40), ("if-none-match".toList, 41), ("if-range".toList, 42),
  ("if-unmodified-since".toList, 43), ("last-modified".toList, 44), ("link".toList, 45),
  ("location".toList, 46), ("max-forwards".toList, 47), ("proxy-authenticate".toList, 48),
  ("proxy-authorization".toList, 49), ("range".toList, 50), ("referer".toList, 51),
  ("refresh".toList, 52), ("retry-after".toList, 53), ("server".toList, 54),
  ("set-cookie".toList, 55), ("strict-transport-security".toList, 56),
  ("transfer-encoding".toList, 57), ("user-agent".toList, 58), ("vary".toList, 59),
  ("via".toList, 60), ("www-authenticate".toList, 61)]

def staticNameLookup (name : Text) : Nat :=
  ((staticNames.find? fun entry => entry.1 == name).map (·.2)).getD 0

def isNeverIndexed (name : Text) : Bool :=
  name == "authorization".toList || name == "proxy-authorization".toList ||
    name == "cookie".toList || name == "set-cookie".toList

def encodeField (field : Field) : List UInt8 :=
  match staticPairLookup field with
  | some index => encodeInteger index 7 128
  | none =>
      let flag := if isNeverIndexed field.1 then 16 else 0
      let nameIndex := staticNameLookup field.1
      encodeInteger nameIndex 4 flag ++
        (if nameIndex = 0 then encodeString (utf8 field.1) else []) ++
        encodeString (utf8 field.2)

def encodeBlock (fields : List Field) : List UInt8 := fields.flatMap encodeField

end Zuri.Http.H2
