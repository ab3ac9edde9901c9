import Mathlib.Data.List.Basic
import Mathlib.Logic.Function.Basic
import Zuri.Float.Binary64

/-!
Field defaults. The literal defaults a class's declarations open with go into tables when the
class is declared; from the first that has to be computed on, the declarations are code that runs
for every instance.
-/

namespace Zuri.Vm.Fields

inductive Literal where
  | nil
  | bool (value : Bool)
  | number (value : F64)
  | text (value : String)
  deriving DecidableEq

inductive Value where
  | lit (literal : Literal)
  | obj (address : Nat)
  deriving DecidableEq

def Value.nil : Value := .lit .nil

/-- The fields of the instance by their slots, and everything else. -/
structure State (W : Type) where
  fields : Nat → Value
  world : W

/-- Expressions: literals, and code that may do anything. -/
inductive Expr (W : Type) where
  | nil
  | bool (value : Bool)
  | integer (value : Int)
  | float (value : F64)
  | literal (text : String)
  | grouping (inner : Expr W)
  | minus (inner : Expr W)
  | code (run : State W → Except String (Value × State W))

structure FieldDecl (W : Type) where
  name : String
  value : Expr W

/-- A class declaration: its fields in order, and the names its constructor sets on `self`. -/
structure ClassDecl (W : Type) where
  fields : List (FieldDecl W)
  implicitNames : List String

structure ObjClass (W : Type) where
  fieldSlots : List (String × Nat)
  fieldCount : Nat
  ownFieldInitializer : Option (List (FieldDecl W))
  ownDefaults : List (Nat × Literal)
  defaults : List (Nat × Literal)
  runsInitializers : Bool

variable {W : Type}

def literalDefault : Expr W → Option Literal
  | .nil => some .nil
  | .bool value => some (.bool value)
  | .integer value => some (.number (F64.ofInt value))
  | .float value => some (.number value)
  | .literal text => some (.text text)
  | .grouping inner => literalDefault inner
  | .minus inner =>
      match literalDefault inner with
      | some (.number value) => some (.number value.neg)
      | _ => none
  | .code _ => none

def makeClass : Option (ObjClass W) → ObjClass W
  | none => ⟨[], 0, none, [], [], false⟩
  | some s => ⟨s.fieldSlots, s.fieldCount, none, [], s.defaults, s.runsInitializers⟩

namespace ObjClass

def slot (c : ObjClass W) (name : String) : Option Nat := c.fieldSlots.lookup name

/-- Slots are counted in 16 bits, and the count wraps. -/
def declareField (c : ObjClass W) (name : String) : ObjClass W :=
  if (c.slot name).isSome then c
  else
    { c with
      fieldSlots := c.fieldSlots ++ [(name, c.fieldCount)]
      fieldCount := (c.fieldCount + 1) % 2 ^ 16 }

/-- A nil is left out when nothing before it can have set the field. -/
def setFieldDefault (c : ObjClass W) (slot : Nat) (value : Literal) : ObjClass W :=
  let earlier := c.defaults.findIdx? fun d => d.1 = slot
  if value = .nil ∧ earlier = none ∧ c.runsInitializers = false then c
  else
    { c with
      ownDefaults := c.ownDefaults ++ [(slot, value)]
      defaults :=
        match earlier with
        | some i => c.defaults.set i (slot, value)
        | none => c.defaults ++ [(slot, value)] }

/-- The instruction that gives a field its literal default. -/
def giveDefault (c : ObjClass W) (name : String) (value : Literal) : ObjClass W :=
  match c.slot name with
  | some slot => c.setFieldDefault slot value
  | none => c

def setFieldInit (c : ObjClass W) (computed : List (FieldDecl W)) : ObjClass W :=
  { c with ownFieldInitializer := some computed, runsInitializers := true }

end ObjClass

/-- The literal defaults that the declarations open with, and the declarations after them. -/
def tabled : List (FieldDecl W) → List (String × Literal) × List (FieldDecl W)
  | [] => ([], [])
  | d :: fields =>
      match literalDefault d.value with
      | some literal => ((d.name, literal) :: (tabled fields).1, (tabled fields).2)
      | none => ([], d :: fields)

def ClassDecl.names (d : ClassDecl W) : List String :=
  d.fields.map FieldDecl.name ++ d.implicitNames

def declareClass (superclass : Option (ObjClass W)) (d : ClassDecl W) : ObjClass W :=
  let c := d.names.foldl ObjClass.declareField (makeClass superclass)
  let c := (tabled d.fields).1.foldl (fun c p => c.giveDefault p.1 p.2) c
  if (tabled d.fields).2.isEmpty then c else c.setFieldInit (tabled d.fields).2

/-- A class with the line of its superclasses, from its declaration on to the root's. -/
def declareLine (decls : List (ClassDecl W)) : List (ObjClass W) :=
  decls.foldl (fun line d => declareClass line.head? d :: line) []

/-- What negating does to values that are not numbers. -/
abbrev Negate (W : Type) := Value → State W → Except String (Value × State W)

def eval (negate : Negate W) : Expr W → State W → Except String (Value × State W)
  | .nil, s => .ok (.nil, s)
  | .bool value, s => .ok (.lit (.bool value), s)
  | .integer value, s => .ok (.lit (.number (F64.ofInt value)), s)
  | .float value, s => .ok (.lit (.number value), s)
  | .literal text, s => .ok (.lit (.text text), s)
  | .grouping inner, s => eval negate inner s
  | .minus inner, s =>
      match eval negate inner s with
      | .error e => .error e
      | .ok (.lit (.number value), s) => .ok (.lit (.number value.neg), s)
      | .ok (value, s) => negate value s
  | .code run, s => run s

def setField (slots : List (String × Nat)) (name : String) (value : Value) (s : State W) :
    Except String (State W) :=
  match slots.lookup name with
  | some slot => .ok { s with fields := Function.update s.fields slot value }
  | none => .error s!"undefined field '{name}' on instance"

/-- One declaration: its default is evaluated and stored. -/
def runDecl (negate : Negate W) (slots : List (String × Nat)) (s : State W) (d : FieldDecl W) :
    Except String (State W) :=
  match eval negate d.value s with
  | .error e => .error e
  | .ok (value, s) => setField slots d.name value s

/-- Declarations in source order, on an instance whose class has these slots. -/
def runDecls (negate : Negate W) (slots : List (String × Nat)) (decls : List (FieldDecl W))
    (s : State W) : Except String (State W) := decls.foldlM (runDecl negate slots) s

def apply (defaults : List (Nat × Literal)) (fields : Nat → Value) : Nat → Value :=
  defaults.foldl (fun fields d => Function.update fields d.1 (.lit d.2)) fields

/-- A class's own defaults, and then its initializer. -/
def initStep (negate : Negate W) (slots : List (String × Nat)) (s : State W) (c : ObjClass W) :
    Except String (State W) :=
  let s := { s with fields := apply c.ownDefaults s.fields }
  match c.ownFieldInitializer with
  | none => .ok s
  | some decls => runDecls negate slots decls s

/-- The storage of a new instance: all nil, or with the defaults of the line. -/
def allocInstance (c : ObjClass W) : Nat → Value :=
  if c.runsInitializers then fun _ => .nil else apply c.defaults fun _ => .nil

/-- A new instance just before its constructor runs. -/
def instantiate (negate : Negate W) (line : List (ObjClass W)) (world : W) :
    Except String (State W) :=
  match line with
  | [] => .error "no class"
  | c :: ancestors =>
      let steps := if c.runsInitializers then (c :: ancestors).reverse else []
      steps.foldlM (initStep negate c.fieldSlots) ⟨allocInstance c, world⟩

end Zuri.Vm.Fields
