import Zuri.Cmds.SemverText
import Zuri.Maps.Ordered
import Zuri.Order.Lexical
import Zuri.Order.MergeSort

/-!
Lockfiles: the packages a project was resolved to, each with the source it came from. A source is
written as one text, and read by the first of each of its separators. How TOML is written and read
is given by a library.
-/

namespace Zuri.ProjectLock

open Zuri.Semver (Text cut cut_none cut_some)

/-- What TOML holds, as far as a lockfile uses it. -/
inductive Toml where
  | string (text : Text)
  | bool (b : Bool)
  | number (n : Int)
  | list (items : List Toml)
  | dict (pairs : List (Text × Toml))

inductive LockfileError where
  | source (text : Text)
  | toml (file message : Text)
  | format (file : Text) (found : Option Toml)
  | entry (file : Text)

structure Ref where
  kind : Text
  value : Text
  deriving DecidableEq

structure Source where
  kind : Text
  location : Text
  ref : Option Ref := none
  commit : Option Text := none
  deriving DecidableEq

def Ref.query : Option Ref → Text
  | none => []
  | some ref => '?' :: (ref.kind ++ '=' :: ref.value)

def commitText : Option Text → Text
  | none => []
  | some commit => '#' :: commit

def Source.toText (s : Source) : Text :=
  if s.kind = "git".toList then
    "git+".toList ++ (s.location ++ Ref.query s.ref ++ commitText s.commit)
  else s.kind ++ '+' :: s.location

def KINDS : List Text := ["registry".toList, "git".toList, "path".toList]

def parseRef (text : Text) : Option Text → Except LockfileError (Option Ref)
  | none => .ok none
  | some query =>
      match cut '=' query with
      | (_, none) => .error (.source text)
      | (kind, some value) => if kind = [] then .error (.source text) else .ok (some ⟨kind, value⟩)

def parseSource (text : Text) : Except LockfileError Source :=
  match cut '+' text with
  | (_, none) => .error (.source text)
  | (kind, some rest) =>
      if kind = [] then .error (.source text)
      else if KINDS.contains kind = false ∨ rest = [] then .error (.source text)
      else if kind ≠ "git".toList then .ok ⟨kind, rest, none, none⟩
      else
        let (rest, commit) := cut '#' rest
        let (location, query) := cut '?' rest
        (parseRef text query).map fun ref => ⟨"git".toList, location, ref, commit⟩

structure Locked where
  name : Text
  version : Text
  source : Source
  checksum : Option Text := none
  dependencies : List Text := []
  dev : Bool := false
  deriving DecidableEq

abbrev Dict := List (Text × Toml)

def field (d : Dict) (key : String) : Option Toml :=
  OrderedMap.get (fun a b => decide (a = b)) d key.toList

def textLe (a b : Text) : Bool := decide (Lexical.order a b ≤ 0)

def checksumField : Option Text → Dict
  | none => []
  | some checksum => [("checksum".toList, .string checksum)]

def devField (dev : Bool) : Dict := if dev then [("dev".toList, .bool true)] else []

def Locked.toDict (e : Locked) : Dict :=
  [("name".toList, .string e.name), ("version".toList, .string e.version),
    ("source".toList, .string e.source.toText)] ++ checksumField e.checksum ++
    [("dependencies".toList, .list ((MergeSort.sort textLe e.dependencies).map .string))] ++
    devField e.dev

def asText : Option Toml → Option Text
  | some (.string text) => some text
  | _ => none

def asTexts : Option Toml → List Text
  | some (.list items) => items.filterMap fun item => asText (some item)
  | _ => []

def asFlag : Option Toml → Bool
  | some (.bool b) => b
  | _ => false

def readEntry (file : Text) : Toml → Except LockfileError Locked
  | .dict d =>
      match asText (field d "name"), asText (field d "version"), asText (field d "source") with
      | some name, some version, some source =>
          (parseSource source).map fun source => {
            name, version, source
            checksum := asText (field d "checksum")
            dependencies := asTexts (field d "dependencies")
            dev := asFlag (field d "dev") }
      | _, _, _ => .error (.entry file)
  | _ => .error (.entry file)

section
variable (lower : Text → Text)

def normalized (name : Text) : Text := (lower name).map fun c => if c = '-' then '_' else c

abbrev sameKey (a b : Text) : Bool := decide (a = b)

/-- Packages by their normalized names, in the order they were put in. -/
structure Lockfile where
  packages : List (Text × Locked)
  distinct : OrderedMap.Distinct sameKey packages
  keyed : ∀ p ∈ packages, p.1 = normalized lower p.2.name

namespace Lockfile

def empty : Lockfile lower := ⟨[], .nil, fun _ h => absurd h List.not_mem_nil⟩

variable {lower}

def put (lock : Lockfile lower) (entry : Locked) : Lockfile lower where
  packages := OrderedMap.put sameKey lock.packages (normalized lower entry.name) entry
  distinct := lock.distinct.put
  keyed := fun p hp => by
    rcases OrderedMap.mem_put hp with hp | ⟨hvalue, hkey | hkey⟩
    · exact lock.keyed p hp
    · rw [hkey, hvalue]
    · rw [of_decide_eq_true hkey, hvalue]

def ofPuts (puts : List Locked) : Lockfile lower := puts.foldl put (empty lower)

/-- The entries in the order of their normalized names. -/
def entries (lock : Lockfile lower) : List Locked :=
  (MergeSort.sort textLe (lock.packages.map Prod.fst)).filterMap
    (OrderedMap.get sameKey lock.packages)

def FORMAT : Int := 1

def data (lock : Lockfile lower) : Dict :=
  if lock.entries = [] then [("version".toList, .number FORMAT)]
  else [("version".toList, .number FORMAT),
    ("package".toList, .list (lock.entries.map fun e => .dict e.toDict))]

end Lockfile

/-- A library for TOML: dictionaries are written, and read again or refused with a message. -/
structure TomlLibrary where
  dump : Dict → Text
  parse : Text → Except Text Dict

def HEADER : Text :=
  ("# Written by zuri: the exact packages this project was resolved to.\n" ++
    "# Change project.toml and run `zuri install` rather than editing this file.\n\n").toList

variable {lower}

def Lockfile.toText (lib : TomlLibrary) (lock : Lockfile lower) : Text :=
  HEADER ++ lib.dump lock.data

def isFormat : Option Toml → Bool
  | some (.number n) => n = Lockfile.FORMAT
  | _ => false

def packageItems : Option Toml → List Toml
  | some (.list items) => items
  | _ => []

variable (lower)

def parse (lib : TomlLibrary) (text : Text) (file : Option Text) :
    Except LockfileError (Lockfile lower) :=
  let file := file.getD "project.lock".toList
  match lib.parse text with
  | .error message => .error (.toml file message)
  | .ok d =>
      if isFormat (field d "version") then
        (packageItems (field d "package")).foldlM
          (fun lock item => (readEntry file item).map lock.put) (Lockfile.empty lower)
      else .error (.format file (field d "version"))

end

end Zuri.ProjectLock
