import Zuri.Maps.Ordered

/-!
The tables of a TOML document and the slots that say what has been declared. Slots and tables
are objects that refer to each other; each is found under its address, the names and element
numbers that lead to it from the root. Scalars are whatever the reader decodes them to.
-/

namespace Zuri.Toml

abbrev Text := List Char

inductive Step where
  | name (part : Text)
  | element (i : Nat)
deriving DecidableEq

abbrev Addr := List Step

/-- A key's path: the parts before its last one, and the last one. -/
structure Key where
  parents : List Text
  name : Text
deriving DecidableEq

def Key.path (key : Key) : List Text := key.parents ++ [key.name]

def names (parts : List Text) : Addr := parts.map Step.name

def Key.addr (key : Key) : Addr := names key.path

inductive Value (σ : Type) where
  | scalar (value : σ)
  | array (items : List (Value σ))
  | inlineTable (entries : List (Key × Value σ))

abbrev Entry (σ : Type) := Key × Value σ

def Value.isInlineTable {σ : Type} : Value σ → Bool
  | .inlineTable _ => true
  | _ => false

inductive Plain (σ : Type) where
  | scalar (value : σ)
  | list (items : List (Plain σ))
  | dict (entries : List (Text × Plain σ))

abbrev Dict (σ : Type) := List (Text × Plain σ)

variable {σ : Type}

def find (out : Dict σ) (name : Text) : Option (Plain σ) := OrderedMap.get (· == ·) out name

def put (out : Dict σ) (name : Text) (value : Plain σ) : Dict σ :=
  OrderedMap.put (· == ·) out name value

/-- The dictionary under a name, empty where there is none. -/
def dictAt (out : Dict σ) (name : Text) : Dict σ :=
  match find out name with
  | some (.dict entries) => entries
  | _ => []

def graft (target : Dict σ) (parents : List Text) (name : Text) (value : Plain σ) : Dict σ :=
  match parents with
  | [] => put target name value
  | first :: rest => put target first (.dict (graft (dictAt target first) rest name value))

def graftAll (out : Dict σ) (entries : List (Key × Plain σ)) : Dict σ :=
  entries.foldl (fun out e => graft out e.1.parents e.1.name e.2) out

mutual

def Value.toValue : Value σ → Plain σ
  | .scalar value => .scalar value
  | .array items => .list (itemValues items)
  | .inlineTable entries => .dict (graftAll [] (entryValues entries))

def itemValues : List (Value σ) → List (Plain σ)
  | [] => []
  | item :: items => item.toValue :: itemValues items

def entryValues : List (Key × Value σ) → List (Key × Plain σ)
  | [] => []
  | (key, value) :: entries => (key, value.toValue) :: entryValues entries

end

/-- What a plain value holds at an address. -/
def Plain.at (value : Plain σ) : Addr → Option (Plain σ)
  | [] => some value
  | .name name :: rest =>
      match value with
      | .dict entries => (find entries name).bind fun v => v.at rest
      | _ => none
  | .element i :: rest =>
      match value with
      | .list items => items[i]?.bind fun v => v.at rest
      | _ => none

inductive Kind where
  | table
  | value
  | aot
deriving DecidableEq

structure Slot where
  kind : Kind
  elements : Nat := 0
  explicit : Bool := false
  dotted : Bool := false
  inline : Bool := false
deriving DecidableEq

abbrev Slots := Addr → Option Slot

def Slots.set (slots : Slots) (addr : Addr) (slot : Slot) : Slots :=
  fun a => if a = addr then some slot else slots a

/-- A slot with nothing below it. -/
def Slots.only (slot : Slot) : Slots := fun a => if a = [] then some slot else none

def rootSlot : Slots := .only ⟨.table, 0, true, false, false⟩

def inlineScope : Slots := .only ⟨.table, 0, false, false, false⟩

inductive Refusal where
  | sealedTable (name : Text)
  | notTable (name : Text)
  | alreadyTable (name : Text)
  | definedTwice (name : Text)
  | noElement (name : Text)
  | sealedReopened (name : Text)
  | tableTwice (path : List Text)
  | dottedReopened (path : List Text)
  | notArrayOfTables (name : Text)

/-- The slot that holds the last part of a dotted key, and the tables its parents bring. -/
def keyScope (slots : Slots) (start : Addr) : List Text → Except Refusal (Slots × Addr)
  | [] => .ok (slots, start)
  | name :: rest =>
      let child := start ++ [.name name]
      match slots child with
      | none => keyScope (slots.set child ⟨.table, 0, false, true, false⟩) child rest
      | some slot =>
          if slot.inline then .error (.sealedTable name)
          else if slot.kind ≠ .table then .error (.notTable name)
          else if slot.explicit then .error (.alreadyTable name)
          else keyScope slots child rest

def claim (slots : Slots) (scope : Addr) (key : Key) (inline : Bool) : Except Refusal Slots :=
  match keyScope slots scope key.parents with
  | .error refusal => .error refusal
  | .ok (slots, owner) =>
      let child := owner ++ [.name key.name]
      if (slots child).isSome then .error (.definedTwice key.name)
      else if inline then .ok (slots.set child ⟨.table, 0, true, false, true⟩)
      else .ok (slots.set child ⟨.value, 0, false, false, false⟩)

def headerScope (slots : Slots) (start : Addr) : List Text → Except Refusal (Slots × Addr)
  | [] => .ok (slots, start)
  | name :: rest =>
      let child := start ++ [.name name]
      match slots child with
      | none => headerScope (slots.set child ⟨.table, 0, false, false, false⟩) child rest
      | some slot =>
          if slot.inline then .error (.sealedTable name)
          else if slot.kind = .aot then
            if slot.elements = 0 then .error (.noElement name)
            else headerScope slots (child ++ [.element (slot.elements - 1)]) rest
          else if slot.kind ≠ .table then .error (.notTable name)
          else headerScope slots child rest

/-- The slot a `[header]` makes explicit. -/
def openSlot (slots : Slots) (key : Key) : Except Refusal (Slots × Addr) :=
  match headerScope slots [] key.parents with
  | .error refusal => .error refusal
  | .ok (slots, scope) =>
      let child := scope ++ [.name key.name]
      match slots child with
      | none => .ok (slots.set child ⟨.table, 0, true, false, false⟩, child)
      | some slot =>
          if slot.inline then .error (.sealedReopened key.name)
          else if slot.kind ≠ .table then .error (.notTable key.name)
          else if slot.explicit then .error (.tableTwice key.path)
          else if slot.dotted then .error (.dottedReopened key.path)
          else .ok (slots.set child { slot with explicit := true }, child)

/-- The slot of the element a `[[header]]` adds. -/
def openElementSlot (slots : Slots) (key : Key) : Except Refusal (Slots × Addr) :=
  match headerScope slots [] key.parents with
  | .error refusal => .error refusal
  | .ok (slots, scope) =>
      let child := scope ++ [.name key.name]
      match slots child with
      | none =>
          .ok ((slots.set child ⟨.aot, 1, false, false, false⟩).set (child ++ [.element 0])
            ⟨.table, 0, true, false, false⟩, child ++ [.element 0])
      | some slot =>
          if slot.kind ≠ .aot then .error (.notArrayOfTables key.name)
          else
            .ok ((slots.set child { slot with elements := slot.elements + 1 }).set
              (child ++ [.element slot.elements]) ⟨.table, 0, true, false, false⟩,
              child ++ [.element slot.elements])

/-- A table with its pairs and the names of its children, or an array of tables with the
number of its elements. -/
inductive Node (σ : Type) where
  | table (entries : List (Entry σ)) (children : List Text)
  | array (elements : Nat)

abbrev Nodes (σ : Type) := Addr → Option (Node σ)

def Nodes.set (nodes : Nodes σ) (addr : Addr) (node : Node σ) : Nodes σ :=
  fun a => if a = addr then some node else nodes a

def rootTable : Nodes σ := fun a => if a = [] then some (.table [] []) else none

def Nodes.addChild (nodes : Nodes σ) (addr : Addr) (name : Text) (node : Node σ) : Nodes σ :=
  match nodes addr with
  | some (.table entries children) =>
      (nodes.set addr (.table entries (children ++ [name]))).set (addr ++ [.name name]) node
  | _ => nodes

def Nodes.addEntry (nodes : Nodes σ) (addr : Addr) (entry : Entry σ) : Nodes σ :=
  match nodes addr with
  | some (.table entries children) => nodes.set addr (.table (entries ++ [entry]) children)
  | _ => nodes

/-- The table below another one on a header's path, made where there is none. -/
def docChild (nodes : Nodes σ) (addr : Addr) (name : Text) : Nodes σ × Addr :=
  let child := addr ++ [.name name]
  match nodes child with
  | none => (nodes.addChild addr name (.table [] []), child)
  | some (.array elements) => (nodes, child ++ [.element (elements - 1)])
  | some (.table _ _) => (nodes, child)

def docWalk (nodes : Nodes σ) (addr : Addr) : List Text → Nodes σ × Addr
  | [] => (nodes, addr)
  | name :: rest => docWalk (docChild nodes addr name).1 (docChild nodes addr name).2 rest

def docTable (nodes : Nodes σ) (path : List Text) : Nodes σ × Addr := docWalk nodes [] path

/-- The array of tables under a name with one more element, made where there is none. -/
def addElement (nodes : Nodes σ) (addr : Addr) (name : Text) : Nodes σ × Addr :=
  let child := addr ++ [.name name]
  match nodes child with
  | some (.array elements) =>
      ((nodes.set child (.array (elements + 1))).set (child ++ [.element elements])
        (.table [] []), child ++ [.element elements])
  | _ =>
      ((nodes.addChild addr name (.array 1)).set (child ++ [.element 0]) (.table [] []),
        child ++ [.element 0])

def docElement (nodes : Nodes σ) (key : Key) : Nodes σ × Addr :=
  addElement (docWalk nodes [] key.parents).1 (docWalk nodes [] key.parents).2 key.name

def toValue (nodes : Nodes σ) : Nat → Addr → Plain σ
  | 0, _ => .dict []
  | depth + 1, addr =>
      match nodes addr with
      | some (.table entries children) =>
          .dict (children.foldl
            (fun out name => put out name (toValue nodes depth (addr ++ [.name name])))
            (graftAll [] (entryValues entries)))
      | some (.array elements) =>
          .list ((List.range elements).map fun i => toValue nodes depth (addr ++ [.element i]))
      | none => .dict []

mutual

/-- The pairs of the inline tables in a value, claimed as they are read. -/
def Value.claims : Value σ → Except Refusal Unit
  | .scalar _ => .ok ()
  | .array items => itemClaims items
  | .inlineTable entries => entryClaims inlineScope entries

def itemClaims : List (Value σ) → Except Refusal Unit
  | [] => .ok ()
  | item :: items =>
      match item.claims with
      | .error refusal => .error refusal
      | .ok () => itemClaims items

def entryClaims (slots : Slots) : List (Key × Value σ) → Except Refusal Unit
  | [] => .ok ()
  | (key, value) :: entries =>
      match value.claims with
      | .error refusal => .error refusal
      | .ok () =>
          match claim slots [] key value.isInlineTable with
          | .error refusal => .error refusal
          | .ok slots => entryClaims slots entries

end

inductive Statement (σ : Type) where
  | pair (key : Key) (value : Value σ)
  | table (key : Key)
  | element (key : Key)

structure Document (σ : Type) where
  slots : Slots
  nodes : Nodes σ
  slot : Addr
  table : Addr

def Document.empty : Document σ := ⟨rootSlot, rootTable, [], []⟩

def Document.declare (doc : Document σ) : Statement σ → Except Refusal (Document σ)
  | .pair key value =>
      match value.claims with
      | .error refusal => .error refusal
      | .ok () =>
          match claim doc.slots doc.slot key value.isInlineTable with
          | .error refusal => .error refusal
          | .ok slots =>
              .ok { doc with slots := slots, nodes := doc.nodes.addEntry doc.table (key, value) }
  | .table key =>
      match openSlot doc.slots key with
      | .error refusal => .error refusal
      | .ok (slots, slot) =>
          .ok ⟨slots, (docTable doc.nodes key.path).1, slot, (docTable doc.nodes key.path).2⟩
  | .element key =>
      match openElementSlot doc.slots key with
      | .error refusal => .error refusal
      | .ok (slots, slot) =>
          .ok ⟨slots, (docElement doc.nodes key).1, slot, (docElement doc.nodes key).2⟩

def Document.declareAll (doc : Document σ) : List (Statement σ) → Except Refusal (Document σ)
  | [] => .ok doc
  | statement :: statements =>
      match doc.declare statement with
      | .error refusal => .error refusal
      | .ok doc => doc.declareAll statements

end Zuri.Toml
