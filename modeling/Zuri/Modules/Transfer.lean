import Zuri.Vm.Dict

/-!
What crosses from one isolate to another: a walk over the graph of a value that copies it
into a graph of its own. A native resource is taken out of its object when the walk meets that.
A function or class that a module binds is named and not walked into. Of the code of a function
there are here the globals it names.
-/

namespace Zuri.Transfer

open Zuri.Vm (Value)

/-- What is copied as it stands. -/
inductive Leaf where
  | str (text : String)
  | bytes (content : List UInt8)
  | bigint (n : Int)
  | range (lower upper step : F64)
  | native (name : String)

inductive HandleKind where
  | channel
  | isolate

structure ObjFunction where
  name : String
  isMethod : Bool
  owningClass : Option String
  /-- The path of the module whose globals the function reads. -/
  home : Option String
  constants : List Value
  /-- The constants the code names globals by, in order. -/
  globals : List Nat

structure ObjClass where
  name : String
  home : Option String
  superclass : Option Value
  methods : List (String × Value)
  ownFieldInitializer : Option Value
  statics : List Value
  ownDefaults : List (Nat × Value)
  defaults : List (Nat × Value)

inductive Obj where
  | leaf (leaf : Leaf)
  | func (proto : ObjFunction)
  | closure (function : Nat) (upvalues : List Nat)
  | upvalue (current : Value)
  | cls (c : ObjClass)
  | boundMethod (receiver method : Value)
  /-- A channel or an isolate; none when what it should hold is not there. -/
  | handle (kind : HandleKind) (state : Option Nat)
  /-- A native payload that is a shared description. -/
  | shared (tag : String) (payload : Nat)
  /-- A native resource; none once the payload has been taken. -/
  | ptr (tag : String) (payload : Option Nat)
  | list (items : List Value)
  | dict (pairs : List (Value × Value))
  | inst (cls : Value) (fields : List Value)
  | module (name : String)
  | moduleBinding (module : Nat) (name : String)
  | file

/-- A native resource that has been moved away. -/
def Obj.taken : Obj → Obj
  | .ptr _ _ => .ptr "<moved>" none
  | o => o

abbrev Memory := Nat → Obj

/-- A module that has been loaded, with the key it is cached under and what it binds. -/
structure Module where
  key : String
  value : Nat
  names : List (String × Value)

structure VM where
  modules : List Module
  builtinErrors : List (String × Value)
  globals : List (String × Value)

inductive NamedKind where
  | function
  | cls
  | method (className : String)

inductive TransferValue where
  | nil
  | bool (b : Bool)
  | number (n : F64)
  | leaf (leaf : Leaf)
  | named (home name : String) (kind : NamedKind)
  | prelude (name : String)
  | handle (kind : HandleKind) (state : Nat)
  | module (key : String) (binding : Option String)
  | ref (idx : Nat)

structure CapturedClass where
  name : String
  superclass : Option TransferValue
  methods : List (String × TransferValue)
  ownFieldInitializer : Option TransferValue
  statics : List TransferValue
  ownDefaults : List (Nat × TransferValue)
  defaults : List (Nat × TransferValue)

inductive TransferNode where
  | list (items : List TransferValue)
  | dict (pairs : List (TransferValue × TransferValue))
  | inst (cls : TransferValue) (fields : List TransferValue)
  | boundMethod (receiver method : TransferValue)
  | cls (c : CapturedClass)
  /-- The slot a resource is moved into, with the type it had. -/
  | ptr (tag : String) (payload : Option Nat)
  | sharedPtr (tag : String) (payload : Nat)
  | proto (proto : ObjFunction) (constants : List TransferValue)
      (rootGlobals : List (String × TransferValue))
  | closure (proto : TransferValue) (upvalues : List TransferValue)

section Lookups

variable (vm : VM) (m : Memory)

def asString : Value → Option String
  | .obj a =>
      match m a with
      | .leaf (.str text) => some text
      | _ => none
  | _ => none

def asFunc (a : Nat) : Option ObjFunction :=
  match m a with
  | .func p => some p
  | _ => none

def readUpvalue (a : Nat) : Option Value :=
  match m a with
  | .upvalue current => some current
  | _ => none

/-- The method of a class by this name. -/
def methodOf (name : String) : Value → Option Value
  | .obj a =>
      match m a with
      | .cls c => c.methods.lookup name
      | _ => none
  | _ => none

def lookupNamedSource (home name : String) : Option Value :=
  (vm.modules.find? fun loaded => loaded.key == home).bind fun loaded => loaded.names.lookup name

/-- The name a module binds a value under. -/
def findBindingName (home : String) (v : Value) : Option String :=
  (vm.modules.find? fun loaded => loaded.key == home).bind fun loaded =>
    (loaded.names.find? fun binding => binding.2 == v).map Prod.fst

def cacheKeyOf (module : Nat) : Option String :=
  (vm.modules.find? fun loaded => loaded.value == module).map Module.key

/-- How the other side finds a function without its code, when a module binds it or the class
that has it as a method. -/
def namedFunction (a : Nat) (p : ObjFunction) : Option TransferValue :=
  p.home.bind fun home =>
    if p.isMethod then
      p.owningClass.bind fun className =>
        if (lookupNamedSource vm home className).bind (methodOf m p.name) = some (.obj a) then
          some (.named home p.name (.method className))
        else none
    else (findBindingName vm home (.obj a)).map fun name => .named home name .function

def namedClass (a : Nat) (c : ObjClass) : Option TransferValue :=
  match c.home with
  | none => if vm.builtinErrors.lookup c.name = some (.obj a) then some (.prelude c.name) else none
  | some home =>
      if lookupNamedSource vm home c.name = some (.obj a) then some (.named home c.name .cls)
      else none

end Lookups

structure Captured where
  memory : Memory
  arena : List TransferNode
  memo : List (Nat × Nat)

/-- A part of the walk; none when it does not return. -/
def Capture (α : Type) : Type := Captured → Option (Except String α × Captured)

namespace Capture

variable {α β : Type}

def pure (x : α) : Capture α := fun s => some (.ok x, s)

def refuse (message : String) : Capture α := fun s => some (.error message, s)

def bind (c : Capture α) (k : α → Capture β) : Capture β := fun s =>
  (c s).bind fun r =>
    match r.1 with
    | .ok x => k x r.2
    | .error message => some (.error message, r.2)

def map (f : α → β) (c : Capture α) : Capture β := c.bind fun x => pure (f x)

def mapErr (f : String → String) (c : Capture α) : Capture α := fun s =>
  (c s).map fun r => (r.1.mapError f, r.2)

/-- Puts a node in the graph before what it holds is walked, so that what leads back to it
finds it, and fills it in afterwards. -/
def withNode (a : Nat) (placeholder : TransferNode) (body : Capture α) (fill : α → TransferNode) :
    Capture TransferValue := fun s =>
  let idx := s.arena.length
  (body ⟨s.memory, s.arena ++ [placeholder], (a, idx) :: s.memo⟩).map fun r =>
    match r.1 with
    | .ok x => (.ok (.ref idx), { r.2 with arena := r.2.arena.set idx (fill x) })
    | .error message => (.error message, r.2)

end Capture

section Walk

variable (vm : VM) (captureValue : Value → Capture TransferValue)

def captureEach : List Value → Capture (List TransferValue)
  | [] => .pure []
  | v :: vs => (captureValue v).bind fun x => (captureEach vs).map (x :: ·)

def capturePairs : List (Value × Value) → Capture (List (TransferValue × TransferValue))
  | [] => .pure []
  | e :: es =>
      (captureValue e.1).bind fun k => (captureValue e.2).bind fun v =>
        (capturePairs es).map ((k, v) :: ·)

/-- Values under names or at places, with these. -/
def captureKeyed {κ : Type} : List (κ × Value) → Capture (List (κ × TransferValue))
  | [] => .pure []
  | e :: es => (captureValue e.2).bind fun v => (captureKeyed es).map ((e.1, v) :: ·)

def captureOption : Option Value → Capture (Option TransferValue)
  | none => .pure none
  | some v => (captureValue v).map some

/-- The globals the code names, each once and only those that are defined. -/
def captureRootGlobals (p : ObjFunction) :
    List Nat → List String → Capture (List (String × TransferValue))
  | [], _ => .pure []
  | c :: cs, seen => fun s =>
      match p.constants[c]?.bind (asString s.memory) with
      | none => captureRootGlobals p cs seen s
      | some name =>
          if name ∈ seen then captureRootGlobals p cs seen s
          else
            match vm.globals.lookup name with
            | none => captureRootGlobals p cs (name :: seen) s
            | some current =>
                (((captureValue current).mapErr fun e =>
                    "cannot send this function across isolates: global '" ++ name ++
                      "' it depends on can't cross: " ++ e).bind fun x =>
                  (captureRootGlobals p cs (name :: seen)).map ((name, x) :: ·)) s

def capturePrototype (a : Nat) : Capture TransferValue := fun s =>
  match s.memo.lookup a with
  | some idx => some (.ok (.ref idx), s)
  | none =>
      (asFunc s.memory a).bind fun p =>
        Capture.withNode a (.proto p [] [])
          ((captureEach captureValue p.constants).bind fun constants =>
            (if p.home.isNone then captureRootGlobals vm captureValue p p.globals []
              else .pure []).map fun rootGlobals => (constants, rootGlobals))
          (fun parts => .proto p parts.1 parts.2) s

def captureClosure (a function : Nat) (upvalues : List Nat) : Capture TransferValue := fun s =>
  (asFunc s.memory function).bind fun p =>
    match namedFunction vm s.memory a p with
    | some named => some (.ok named, s)
    | none =>
        (upvalues.mapM (readUpvalue s.memory)).bind fun values =>
          (capturePrototype vm captureValue function).bind
            (fun proto => .withNode a (.closure proto []) (captureEach captureValue values)
              (.closure proto)) s

def captureClass (a : Nat) (c : ObjClass) : Capture TransferValue :=
  match namedClass vm a c with
  | some named => .pure named
  | none =>
      .withNode a (.cls ⟨c.name, none, [], none, [], [], []⟩)
        ((captureOption captureValue c.superclass).bind fun superclass =>
          (captureKeyed captureValue c.methods).bind fun methods =>
          (captureOption captureValue c.ownFieldInitializer).bind fun initializer =>
          (captureEach captureValue c.statics).bind fun statics =>
          (captureKeyed captureValue c.ownDefaults).bind fun ownDefaults =>
          (captureKeyed captureValue c.defaults).map fun defaults =>
            (⟨c.name, superclass, methods, initializer, statics, ownDefaults, defaults⟩ :
              CapturedClass))
        .cls

/-- Takes the payload out of its object and into a slot. -/
def takePtr (a : Nat) (tag : String) (payload : Option Nat) : Capture TransferValue := fun s =>
  some (.ok (.ref s.arena.length),
    ⟨fun x => if x = a then .ptr "<moved>" none else s.memory x, s.arena ++ [.ptr tag payload],
      (a, s.arena.length) :: s.memo⟩)

def captureModule (module : Nat) (name : String) (binding : Option String) :
    Capture TransferValue :=
  match cacheKeyOf vm module with
  | some key => .pure (.module key binding)
  | none =>
      .refuse ("cannot send module '" ++ name ++
        "' across isolates; it was never loaded from a file or a builtin")

def cannotSend (typeName : String) : Capture TransferValue :=
  .refuse ("cannot send a " ++ typeName ++ " across isolates; only nil, bool, number, string, " ++
    "bytes, bigint, range, list, dict, instance, class, bound method, function, module, and " ++
    "native-pointer values can cross")

def captureHandle (kind : HandleKind) : Option Nat → Capture TransferValue
  | some state => .pure (.handle kind state)
  | none =>
      match kind with
      | .channel => .refuse "internal error: malformed channel handle"
      | .isolate => .refuse "internal error: malformed isolate handle"

/-- The name of a module for a message. -/
def moduleName (m : Memory) (a : Nat) : String :=
  match m a with
  | .module name => name
  | _ => ""

def captureObj (a : Nat) : Obj → Capture TransferValue
  | .leaf leaf => .pure (.leaf leaf)
  | .func _ => capturePrototype vm captureValue a
  | .closure function upvalues => captureClosure vm captureValue a function upvalues
  | .cls c => captureClass vm captureValue a c
  | .boundMethod receiver method =>
      .withNode a (.boundMethod .nil .nil)
        ((captureValue receiver).bind fun r => (captureValue method).map fun x => (r, x))
        fun parts => .boundMethod parts.1 parts.2
  | .handle kind state => captureHandle kind state
  | .shared tag payload => .withNode a (.sharedPtr tag payload) (.pure ()) fun _ => .sharedPtr tag payload
  | .ptr tag payload => takePtr a tag payload
  | .list items => .withNode a (.list []) (captureEach captureValue items) .list
  | .dict pairs => .withNode a (.dict []) (capturePairs captureValue pairs) .dict
  | .inst c fields =>
      .withNode a (.inst .nil [])
        ((captureValue c).bind fun x => (captureEach captureValue fields).map fun xs => (x, xs))
        fun parts => .inst parts.1 parts.2
  | .module name => captureModule vm a name none
  | .moduleBinding module name => fun s =>
      captureModule vm module (moduleName s.memory module) (some name) s
  | .upvalue _ => cannotSend "upvalue"
  | .file => cannotSend "file"

end Walk

/-- Fuel bounds how deep the walk goes. -/
def captureValue (vm : VM) : Nat → Value → Capture TransferValue
  | 0, _ => fun _ => none
  | _ + 1, .nil => .pure .nil
  | _ + 1, .bool b => .pure (.bool b)
  | _ + 1, .number n => .pure (.number n)
  | fuel + 1, .obj a => fun s =>
      match s.memo.lookup a with
      | some idx => some (.ok (.ref idx), s)
      | none => captureObj vm (captureValue vm fuel) a (s.memory a) s

structure TransferGraph where
  root : TransferValue
  arena : List TransferNode

/-- A graph for a value, and what is left of the memory it came from. A value that is copied
as it stands has no walk. -/
def capture (vm : VM) (fuel : Nat) (m : Memory) (root : Value) :
    Option (Except String TransferGraph × Memory) :=
  let walk := (captureValue vm fuel root ⟨m, [], []⟩).map fun r =>
    (r.1.map fun x => (⟨x, r.2.arena⟩ : TransferGraph), r.2.memory)
  match root with
  | .nil => some (.ok ⟨.nil, []⟩, m)
  | .bool b => some (.ok ⟨.bool b, []⟩, m)
  | .number n => some (.ok ⟨.number n, []⟩, m)
  | .obj a =>
      match m a with
      | .leaf leaf => some (.ok ⟨.leaf leaf, []⟩, m)
      | .handle kind (some state) => some (.ok ⟨.handle kind state, []⟩, m)
      | .handle .channel none => some (.error "internal error: malformed channel handle", m)
      | .handle .isolate none => some (.error "internal error: malformed isolate handle", m)
      | _ => walk

end Zuri.Transfer
