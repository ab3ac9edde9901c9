import Zuri.Order.Lexical
import Zuri.Order.MergeSort

/-!
Migrations of a database: the files of a directory, the record of what has been applied, and
the calls that apply migrations and roll them back. Each body runs in one transaction with its
row of the record. What the bodies did is kept with the call that ran them.
-/

namespace Zuri.Migrate

abbrev Text := List Char

structure MigrationError where
  message : Text
  migration : Option Text

inductive Raised where
  | migration (e : MigrationError)
  | body (name : Text)

def fault {α : Type} (message : Text) (migration : Option Text) : Except Raised α :=
  .error (.migration ⟨message, migration⟩)

/-- An entry of the directory, what its module exports, and whether its bodies raise. -/
structure File where
  entry : Text
  isDir : Bool
  checksum : Text
  hasUp : Bool
  hasDown : Bool
  raisesUp : Bool
  raisesDown : Bool

/-- What a call finds: the directory, its entries where it is there, and the time. -/
structure Surroundings where
  directory : Text
  entries : Option (List File)
  now : Nat

structure Migration where
  name : Text
  version : Text
  file : File

structure Row where
  name : Text
  batch : Nat
  checksum : Text
  appliedAt : Nat
deriving DecidableEq

def isDigit (c : Char) : Bool := decide ('0' ≤ c) && decide (c ≤ '9')

def isWord (c : Char) : Bool :=
  isDigit c || decide ('A' ≤ c) && decide (c ≤ 'Z') || decide ('a' ≤ c) && decide (c ≤ 'z')
    || c == '_'

/-- The digits a name starts with, where an underscore follows them, and what follows that. -/
def split (name : Text) : Option (Text × Text) :=
  match name.takeWhile isDigit, name.dropWhile isDigit with
  | d :: digits, '_' :: rest => some (d :: digits, rest)
  | _, _ => none

/-- One line break may follow the words that end a name. -/
def isRest (rest : Text) : Bool :=
  let words := if rest.getLast? = some '\n' then rest.dropLast else rest
  !words.isEmpty && words.all isWord

def parsed (name : Text) : Option Text :=
  match split name with
  | some (version, rest) => if isRest rest then some version else none
  | none => none

def versionOf (name : Text) : Text :=
  match split name with
  | some (version, _) => version
  | none => ['0']

def stripped : Text → Text
  | [] => []
  | [c] => [c]
  | c :: d :: rest => if c = '0' then stripped (d :: rest) else c :: d :: rest

def lpad (width : Nat) (text : Text) : Text := List.replicate (width - text.length) '0' ++ text

def ordering (version : Text) : Text := lpad 40 (stripped version)

def compareVersions (v : Text) (name : Text) (w : Text) (other : Text) : Int :=
  if Lexical.order (ordering v) (ordering w) ≠ 0 then Lexical.order (ordering v) (ordering w)
  else Lexical.order name other

def endsZu (entry : Text) : Bool := ".zu".toList.isSuffixOf entry

def notNamed (entry : Text) : Text :=
  entry ++ " is not named as a migration is: a version, an underscore and ".toList ++
    "a name of letters, digits and underscores, such as 20261011143000_create_posts.zu".toList

def shared (taken name version : Text) : Text :=
  taken ++ " and ".toList ++ name ++ " share the version ".toList ++ version ++
    "; give one another".toList

def readEntries (versions : List (Text × Text)) (found : List Migration) :
    List File → Except Raised (List Migration)
  | [] => .ok found
  | file :: files =>
      if !endsZu file.entry || file.entry.head? == some '_' then readEntries versions found files
      else if file.isDir then readEntries versions found files
      else
        let name := file.entry.take (file.entry.length - 3)
        match parsed name with
        | none => fault (notNamed file.entry) (some name)
        | some version =>
            match versions.find? fun v => v.1 == ordering version with
            | some taken => fault (shared taken.2 name version) (some name)
            | none =>
                readEntries (versions ++ [(ordering version, name)])
                  (found ++ [⟨name, version, file⟩]) files

def migrations (at' : Surroundings) : Except Raised (List Migration) :=
  match at'.entries with
  | none => fault ("there is no directory of migrations at ".toList ++ at'.directory) none
  | some entries =>
      match readEntries [] [] entries with
      | .error e => .error e
      | .ok found =>
          .ok (MergeSort.sort
            (fun a b => decide (compareVersions a.version a.name b.version b.name ≤ 0)) found)

/-- A body that ran and was kept, with the number of the call that ran it. -/
inductive Deed where
  | up (call : Nat) (name : Text)
  | down (call : Nat) (name : Text)
deriving DecidableEq

def Deed.name : Deed → Text
  | .up _ name => name
  | .down _ name => name

structure Database where
  rows : List Row
  calls : Nat
  deeds : List Deed
deriving DecidableEq

def rowLe (a b : Row) : Bool :=
  decide (compareVersions (versionOf a.name) a.name (versionOf b.name) b.name ≤ 0)

def Database.applied (db : Database) : List Row := MergeSort.sort rowLe db.rows

def Database.recorded (db : Database) (name : Text) : Bool := db.rows.any fun r => r.name == name

def Database.latestBatch (db : Database) : Nat := (db.rows.map Row.batch).foldl max 0

def pending (at' : Surroundings) (db : Database) : Except Raised (List Migration) :=
  match migrations at' with
  | .error e => .error e
  | .ok found =>
      .ok (found.filter fun m => !(db.applied.map Row.name).contains m.name)

def Migration.module (m : Migration) : Except Raised Unit :=
  if m.file.hasUp then .ok ()
  else fault (m.name ++ " does not export an up() function".toList) (some m.name)

/-- A number of steps, or the text of something else. -/
inductive Steps where
  | whole (n : Int)
  | other (text : Text)

structure Options where
  steps : Option Steps
  upTo : Option Text

def Options.none : Options := ⟨Option.none, Option.none⟩

def notSteps (text : Text) : Text := "steps is a whole number from 1, not ".toList ++ text

def stepsOf : Steps → Except Raised Nat
  | .whole n => if n < 1 then fault (notSteps (toString n).toList) none else .ok n.toNat
  | .other text => fault (notSteps text) none

def Database.apply (db : Database) (m : Migration) (batch now : Nat) :
    Except Raised Bool × Database :=
  if db.recorded m.name then (.ok false, db)
  else if m.file.raisesUp then (.error (.body m.name), db)
  else
    (.ok true, { db with
      rows := db.rows ++ [⟨m.name, batch, m.file.checksum, now⟩]
      deeds := db.deeds ++ [.up db.calls m.name] })

def Database.applyAll (db : Database) (batch now : Nat) (done : List Text) :
    List Migration → Except Raised (List Text) × Database
  | [] => (.ok done, db)
  | m :: rest =>
      match db.apply m batch now with
      | (.error e, db) => (.error e, db)
      | (.ok ran, db) => db.applyAll batch now (if ran then done ++ [m.name] else done) rest

def chosenUp (options : Options) (pending : List Migration) : Except Raised (List Migration) :=
  match options.steps, options.upTo with
  | some steps, _ =>
      match stepsOf steps with
      | .error e => .error e
      | .ok n => .ok (pending.take (min n pending.length))
  | none, some name =>
      match (pending.map Migration.name).findIdx? (· == name) with
      | none => fault (name ++ " is not a pending migration".toList) (some name)
      | some i => .ok (pending.take (i + 1))
  | none, none => .ok pending

def modules : List Migration → Except Raised Unit
  | [] => .ok ()
  | m :: rest =>
      match m.module with
      | .error e => .error e
      | .ok () => modules rest

def Database.up (db : Database) (at' : Surroundings) (options : Options) :
    Except Raised (List Text) × Database :=
  match pending at' db with
  | .error e => (.error e, db)
  | .ok found =>
      match chosenUp options found with
      | .error e => (.error e, db)
      | .ok chosen =>
          match modules chosen with
          | .error e => (.error e, db)
          | .ok () => db.applyAll (db.latestBatch + 1) at'.now [] chosen

def Database.revert (db : Database) (m : Migration) : Except Raised Bool × Database :=
  if !db.recorded m.name then (.ok false, db)
  else if m.file.raisesDown then (.error (.body m.name), db)
  else
    (.ok true, { db with
      rows := db.rows.filter fun r => !(r.name == m.name)
      deeds := db.deeds ++ [.down db.calls m.name] })

def Database.revertAll (db : Database) (done : List Text) :
    List Migration → Except Raised (List Text) × Database
  | [] => (.ok done, db)
  | m :: rest =>
      match db.revert m with
      | (.error e, db) => (.error e, db)
      | (.ok ran, db) => db.revertAll (if ran then done ++ [m.name] else done) rest

/-- The last file of a name, as the later of two replaces the earlier. -/
def fileOf (found : List Migration) (name : Text) : Option Migration :=
  found.reverse.find? fun m => m.name == name

def checked (directory : Text) (found : List Migration) : List Row → Except Raised (List Migration)
  | [] => .ok []
  | row :: rows =>
      match fileOf found row.name with
      | none =>
          fault (row.name ++ " cannot be rolled back: its file is not in ".toList ++ directory)
            (some row.name)
      | some m =>
          match m.module with
          | .error e => .error e
          | .ok () =>
              if m.file.hasDown then
                match checked directory found rows with
                | .error e => .error e
                | .ok chosen => .ok (m :: chosen)
              else
                fault (row.name ++ " cannot be rolled back: it has no down() function".toList)
                  (some row.name)

def Database.rollBack (db : Database) (at' : Surroundings) (rows : List Row) :
    Except Raised (List Text) × Database :=
  match migrations at' with
  | .error e => (.error e, db)
  | .ok found =>
      match checked at'.directory found rows with
      | .error e => (.error e, db)
      | .ok chosen => db.revertAll [] chosen

def chosenDown (options : Options) (applied : List Row) : Except Raised (List Row) :=
  match options.steps, options.upTo with
  | some steps, _ =>
      match stepsOf steps with
      | .error e => .error e
      | .ok n => .ok (applied.take (min n applied.length))
  | none, some name =>
      match (applied.map Row.name).findIdx? (· == name) with
      | none => fault (name ++ " is not an applied migration".toList) (some name)
      | some i => .ok (applied.take i)
  | none, none =>
      match applied with
      | [] => .ok []
      | latest :: rest => .ok ((latest :: rest).filter fun r => r.batch == latest.batch)

def Database.down (db : Database) (at' : Surroundings) (options : Options) :
    Except Raised (List Text) × Database :=
  match chosenDown options db.applied.reverse with
  | .error e => (.error e, db)
  | .ok chosen => db.rollBack at' chosen

def Database.reset (db : Database) (at' : Surroundings) : Except Raised (List Text) × Database :=
  db.rollBack at' db.applied.reverse

inductive Call where
  | up (at' : Surroundings) (options : Options)
  | down (at' : Surroundings) (options : Options)
  | reset (at' : Surroundings)

def Database.call (db : Database) (c : Call) : Except Raised (List Text) × Database :=
  let db := { db with calls := db.calls + 1 }
  match c with
  | .up at' options => db.up at' options
  | .down at' options => db.down at' options
  | .reset at' => db.reset at'

def Database.new : Database := ⟨[], 0, []⟩

/-- The database after a history of calls, whether each returned or raised. -/
def after (history : List Call) : Database :=
  history.foldl (fun db c => (db.call c).2) .new

end Zuri.Migrate
