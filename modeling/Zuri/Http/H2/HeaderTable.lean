import Zuri.Http.H2.Hpack

/-!
Header compression as the protocol prescribes it: a table of octet strings, newest
first, which holds the newest entries that fit its capacity; the representations an
encoder may use; and the octets of each.
-/

namespace Zuri.Http.H2

open Eviction

abbrev OctetField := List UInt8 × List UInt8

def octetField (field : Field) : OctetField := (utf8 field.1, utf8 field.2)

/-- The size of an entry by the protocol's account. -/
def fieldSize (field : OctetField) : Nat := field.1.length + field.2.length + 32

structure HeaderTable where
  entries : List OctetField
  capacity : Nat
  deriving DecidableEq

/-- The largest table the endpoint lets its peer keep, as its settings say. -/
def maxTableCapacity : Nat := 4096

namespace HeaderTable

def initial : HeaderTable := ⟨[], maxTableCapacity⟩

def lookup (table : HeaderTable) (index : Nat) : Option OctetField :=
  if index = 0 then none
  else if index ≤ 61 then (staticTable[index]?).map octetField
  else table.entries[index - 62]?

def insert (table : HeaderTable) (field : OctetField) : HeaderTable :=
  { table with entries := keep fieldSize table.capacity (field :: table.entries) }

def resize (table : HeaderTable) (capacity : Nat) : HeaderTable :=
  ⟨keep fieldSize capacity table.entries, capacity⟩

end HeaderTable

/-- A string on the wire, Huffman-coded or not. -/
structure Literal where
  huffman : Bool
  octets : List UInt8
  deriving DecidableEq

inductive Indexing where
  | incremental
  | without
  | never
  deriving DecidableEq

inductive LiteralName where
  | entry (index : Nat)
  | text (literal : Literal)
  deriving DecidableEq

inductive Representation where
  | indexed (index : Nat)
  | literal (indexing : Indexing) (name : LiteralName) (value : Literal)
  | sizeUpdate (capacity : Nat)
  deriving DecidableEq

def LiteralName.resolve (table : HeaderTable) : LiteralName → Option (List UInt8)
  | .entry index => (table.lookup index).map (·.1)
  | .text literal => some literal.octets

/-- The table after a representation and the field it stands for, if it is valid. -/
def Representation.apply (table : HeaderTable) :
    Representation → Option (HeaderTable × List OctetField)
  | .indexed index => (table.lookup index).map fun field => (table, [field])
  | .literal indexing name value =>
      (name.resolve table).map fun name =>
        (if indexing = .incremental then table.insert (name, value.octets) else table,
          [(name, value.octets)])
  | .sizeUpdate capacity =>
      if capacity ≤ maxTableCapacity then some (table.resize capacity, []) else none

def applyAll (table : HeaderTable) :
    List Representation → Option (HeaderTable × List OctetField)
  | [] => some (table, [])
  | rep :: reps =>
      match rep.apply table with
      | none => none
      | some (next, fields) => (applyAll next reps).map fun (last, more) => (last, fields ++ more)

def Literal.encoded (literal : Literal) : List UInt8 :=
  if literal.huffman then huffmanEncode literal.octets else literal.octets

def Literal.wire (literal : Literal) : List UInt8 :=
  encodeInteger literal.encoded.length 7 (if literal.huffman then 128 else 0) ++ literal.encoded

def Indexing.prefixBits : Indexing → Nat
  | .incremental => 6
  | .without | .never => 4

def Indexing.flag : Indexing → Nat
  | .incremental => 64
  | .without => 0
  | .never => 16

/-- The name of a literal, whose first octet says how it is indexed. -/
def LiteralName.wire (indexing : Indexing) : LiteralName → List UInt8
  | .entry index => encodeInteger index indexing.prefixBits indexing.flag
  | .text literal => encodeInteger 0 indexing.prefixBits indexing.flag ++ literal.wire

def Representation.wire : Representation → List UInt8
  | .indexed index => encodeInteger index 7 128
  | .literal indexing name value => name.wire indexing ++ value.wire
  | .sizeUpdate capacity => encodeInteger capacity 5 32

def wireBlock (reps : List Representation) : List UInt8 := reps.flatMap Representation.wire

end Zuri.Http.H2
