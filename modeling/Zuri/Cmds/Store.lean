import Zuri.Transition.Script
import Mathlib.Logic.Function.Basic

/-!
Installing packages: what `.zuri/libs`, the staging directory of a transaction and
`installed.toml` hold, the file operations on them, and the scripts made of these. A
rename, a removal and a write of the journal or the record are one operation each.
-/

namespace Zuri.Cmds.Store

open Transition

/-- One move of a transaction, as its journal has it. -/
structure Entry (Name : Type) where
  name : Name
  old : Bool
  new : Bool
  deriving DecidableEq

inductive Phase where
  | staging
  | swapping
  | committed
  | rolledBack
  deriving DecidableEq

structure Journal (Name : Type) where
  state : Phase
  done : List (Entry Name)

/-- What `installed.toml` says of a package. -/
structure Package where
  name : String
  version : String
  source : String
  checksum : Option String
  tree : String
  dev : Bool
  commands : List String

/-- `saved` and `fresh` are the `old` and `new` directories of the transaction. -/
structure Disk (Name Contents : Type) where
  libs : Name → Option Contents
  saved : Name → Option Contents := fun _ => none
  fresh : Name → Option Contents := fun _ => none
  journal : Option (Journal Name) := none
  record : Name → Option Package

/-- The disk, and `_done` in the memory of the command. -/
structure Machine (Name Contents : Type) where
  disk : Disk Name Contents
  done : List (Entry Name) := []

inductive FileOp (Name Contents : Type) where
  | writeJournal (state : Phase) (done : List (Entry Name))
  | stage (name : Name) (contents : Contents)
  | moveOut (name : Name)
  | moveIn (name : Name)
  | putBack (name : Name)
  | remove (name : Name)
  | hook (name : Name)
  | saveRecord (packages : Name → Option Package)
  | saveLock
  | saveManifest
  | discard

variable {Name Contents : Type} [DecidableEq Name]

def Disk.exec (d : Disk Name Contents) : FileOp Name Contents → Option (Disk Name Contents)
  | .writeJournal state done => some { d with journal := some ⟨state, done⟩ }
  | .stage name contents =>
      some { d with fresh := Function.update d.fresh name (some contents) }
  | .moveOut name =>
      (d.libs name).map fun contents =>
        { d with
          libs := Function.update d.libs name none
          saved := Function.update d.saved name (some contents) }
  | .moveIn name =>
      (d.fresh name).map fun contents =>
        { d with
          fresh := Function.update d.fresh name none
          libs := Function.update d.libs name (some contents) }
  | .putBack name =>
      (d.saved name).map fun contents =>
        { d with
          saved := Function.update d.saved name none
          libs := Function.update d.libs name (some contents) }
  | .remove name => some { d with libs := Function.update d.libs name none }
  | .saveRecord packages => some { d with record := packages }
  | .hook _ | .saveLock | .saveManifest => some d
  | .discard => some { d with saved := fun _ => none, fresh := fun _ => none, journal := none }

def exec (op : FileOp Name Contents) (m : Machine Name Contents) :
    Option (Machine Name Contents) :=
  (m.disk.exec op).map fun disk => { m with disk }

abbrev Command (Name Contents : Type) : Type → Type :=
  Script (Machine Name Contents) (FileOp Name Contents)

namespace Transaction

def writeJournal (state : Phase) : Command Name Contents Unit := do
  let m ← Script.get
  Script.act (.writeJournal state m.done)

def append (entry : Entry Name) : Command Name Contents Unit :=
  Script.modify fun m => { m with done := m.done ++ [entry] }

/-- `self._done[self._done.length() - 1].set('new', true)`. -/
def setNew : Command Name Contents Unit :=
  Script.modify fun m =>
    { m with done := m.done.modify (m.done.length - 1) fun entry => { entry with new := true } }

/-- What `commit` does with a package to be removed. -/
def moveRemoved (name : Name) : Command Name Contents Unit := do
  let m ← Script.get
  if (m.disk.libs name).isSome then
    Script.act (.moveOut name)
    append ⟨name, true, false⟩
    writeJournal .swapping

/-- What `commit` does with a package that was staged. -/
def moveStaged (name : Name) : Command Name Contents Unit := do
  let m ← Script.get
  let hadOld := (m.disk.libs name).isSome
  if hadOld then
    Script.act (.moveOut name)
  append ⟨name, hadOld, false⟩
  writeJournal .swapping
  Script.act (.moveIn name)
  setNew
  writeJournal .swapping

end Transaction

open Transaction

def undoEntry (entry : Entry Name) : Command Name Contents Unit := do
  if entry.new then
    Script.act (.remove entry.name)
  if entry.old then
    let m ← Script.get
    if (m.disk.saved entry.name).isSome then
      Script.act (.remove entry.name)
      Script.act (.putBack entry.name)

/-- Puts back what a list of journal entries moved, newest first. -/
def undo (done : List (Entry Name)) : Command Name Contents Unit := done.reverse.forM undoEntry

namespace Transaction

def rollback : Command Name Contents Unit := do
  let m ← Script.get
  undo m.done
  Script.modify fun m => { m with done := [] }
  writeJournal .rolledBack

def commit (removed staged : List Name) : Command Name Contents Unit := do
  writeJournal .swapping
  Script.attempt
    (do
      removed.forM moveRemoved
      staged.forM moveStaged)
    (do
      rollback
      Script.raise)
  writeJournal .committed

end Transaction

/-- Undoes the transaction a killed command left, or deletes what is left of it. -/
def recover : Command Name Contents Unit := do
  let m ← Script.get
  match m.disk.journal with
  | none => pure ()
  | some journal =>
      if journal.state = .swapping then
        Script.attempt (undo journal.done) (pure ())
      Script.act .discard

/-- A package that is staged, and what is to be recorded of it. -/
structure Item (Contents : Type) where
  contents : Contents
  name : String
  version : String
  source : String
  checksum : Option String
  dev : Bool
  commands : List String

/-- What is to be installed and removed, and whose hooks are run. -/
structure Plan (Name Contents : Type) where
  removed : List Name
  removed_nodup : removed.Nodup
  staged : List (Name × Item Contents)
  staged_nodup : (staged.map Prod.fst).Nodup
  uninstallHooks : List Name
  installHooks : List Name
  saveManifest : Bool

/-- A record whose checksum was blank is written without one. -/
def Package.withoutBlank (p : Package) : Package :=
  if p.checksum = some "" then { p with checksum := none } else p

namespace Plan

variable (plan : Plan Name Contents) (digest : Contents → String)

/-- What is recorded of an item, with the digest of what is now in its directory. -/
def recorded (d : Disk Name Contents) (name : Name) (item : Item Contents) : Package where
  name := item.name
  version := item.version
  source := item.source
  checksum := some (item.checksum.getD "")
  tree := ((d.libs name).map digest).getD ""
  dev := item.dev
  commands := item.commands

/-- The record `apply` saves. -/
def packages (d : Disk Name Contents) : Name → Option Package :=
  let forgotten := plan.removed.foldl (fun r name => Function.update r name none) d.record
  let put := plan.staged.foldl
    (fun (r : Name → Option Package) p =>
      Function.update r p.1 (some (recorded digest d p.1 p.2))) forgotten
  fun name => (put name).map Package.withoutBlank

/-- `apply`, from the lock on. -/
def apply : Command Name Contents Unit := do
  recover
  Script.modify fun m => { m with done := [] }
  writeJournal .staging
  Script.attempt
    (plan.staged.forM fun p => Script.act (.stage p.1 p.2.contents))
    (do
      Script.act .discard
      Script.raise)
  plan.uninstallHooks.forM fun name => Script.act (.hook name)
  commit plan.removed (plan.staged.map Prod.fst)
  Script.attempt
    (plan.installHooks.forM fun name => Script.act (.hook name))
    (do
      rollback
      Script.act .discard
      Script.raise)
  let m ← Script.get
  Script.act (.saveRecord (plan.packages digest m.disk))
  Script.act .saveLock
  if plan.saveManifest then
    Script.act .saveManifest
  Script.act .discard

end Plan

end Zuri.Cmds.Store
