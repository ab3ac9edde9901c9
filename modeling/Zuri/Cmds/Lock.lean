import Zuri.Transition.Log
import Mathlib.Data.Rat.Defs
import Mathlib.Algebra.Order.Ring.Unbundled.Rat
import Mathlib.Logic.Function.Basic

/-!
The lock file of a project, as the processes of one machine take it and let go of it.
Every file operation is a step of its own; between two of them any other process may
run, the clock may move, and a process may be killed. A file keeps its identity when its
name is taken away: what is written to it afterwards does not come under the name.
-/

namespace Zuri.Cmds.Lock

open Transition

/-- What a holder writes in its lock. -/
structure Holder where
  pid : Nat
  host : String
  deriving DecidableEq

/-- A lock with nothing in it, or one that is gone. -/
def Holder.nobody : Holder := ⟨0, ""⟩

structure LockFile (Process : Type) where
  creator : Process
  text : Option Holder := none
  mtime : Rat

/-- Where a process is in `acquire` or `release`, the deadline with it. -/
inductive Place where
  | idle
  | creating (deadline : Rat)
  | writing (file : Nat) (deadline : Rat)
  | looking (deadline : Rat)
  | reading (deadline : Rat)
  | judging (read : Option Nat) (holder : Holder) (deadline : Rat)
  | deleting (judged : Option Nat) (deadline : Rat)
  | sleeping (deadline : Rat)
  | holding (file : Nat)
  | releasing (file : Nat)
  deriving DecidableEq

/-- The file a process has created and not yet let go of. -/
def Place.owned : Place → Option Nat
  | .writing file _ | .holding file | .releasing file => some file
  | _ => none

structure Machine (Process : Type) where
  pid : Process → Nat
  pid_pos : ∀ p, 0 < pid p
  hostname : String

structure State (Process : Type) where
  now : Rat := 0
  running : List Process := []
  place : Process → Place := fun _ => .idle
  files : List (LockFile Process) := []
  entry : Option Nat := none

inductive Event (Process : Type) where
  | spawn (p : Process)
  | kill (p : Process)
  | clock (time : Rat)
  | acquire (p : Process) (wait : Rat)
  | proceed (p : Process)
  | writeFails (p : Process)
  | release (p : Process)

variable {Process : Type} [DecidableEq Process]

namespace State

def put (s : State Process) (p : Process) (place : Place) : State Process :=
  { s with place := Function.update s.place p place }

/-- Whether the process `id` is running. -/
def alive (m : Machine Process) (s : State Process) (id : Nat) : Bool :=
  s.running.any fun p => m.pid p == id

def fileAt (s : State Process) : Option (LockFile Process) := s.entry.bind fun n => s.files[n]?

/-- Creating in `x` mode: only where nothing is there. -/
def create (s : State Process) (p : Process) (deadline : Rat) : State Process :=
  match s.entry with
  | none =>
      let made : LockFile Process := { creator := p, mtime := s.now }
      { s with
        files := s.files ++ [made]
        entry := some s.files.length }.put p (.writing s.files.length deadline)
  | some _ => s.put p (.looking deadline)

def write (m : Machine Process) (s : State Process) (p : Process) (file : Nat) : State Process :=
  { s with
    files := s.files.modify file fun f =>
      { f with text := some ⟨m.pid p, m.hostname⟩, mtime := s.now } }.put p (.holding file)

/-- Whether an empty lock has been left that way for long enough that nobody is about to
write to it. -/
def abandoned (s : State Process) : Bool :=
  match s.fileAt with
  | some f => decide (5 < s.now - f.mtime)
  | none => true

/-- What is made of the holder read: whether its lock is stale. -/
def judge (m : Machine Process) (s : State Process) (p : Process) (read : Option Nat)
    (holder : Holder) (deadline : Rat) : State Process :=
  if holder.pid = 0 then
    if s.abandoned then s.put p (.deleting s.entry deadline) else s.put p (.sleeping deadline)
  else if holder.host = m.hostname ∧ s.alive m holder.pid = false then
    s.put p (.deleting read deadline)
  else if deadline ≤ s.now then s.put p .idle
  else s.put p (.sleeping deadline)

/-- The next step of a process. -/
def proceed (m : Machine Process) (s : State Process) (p : Process) : State Process :=
  match s.place p with
  | .idle | .holding _ => s
  | .creating deadline => s.create p deadline
  | .writing file _ => s.write m p file
  | .looking deadline =>
      if s.entry.isNone then s.put p .idle else s.put p (.reading deadline)
  | .reading deadline =>
      s.put p (.judging s.entry ((s.fileAt.bind (·.text)).getD .nobody) deadline)
  | .judging read holder deadline => s.judge m p read holder deadline
  | .deleting _ deadline => { s with entry := none }.put p (.creating deadline)
  | .sleeping deadline => s.put p (.creating deadline)
  | .releasing _ => { s with entry := none }.put p .idle

def step (m : Machine Process) (s : State Process) : Event Process → State Process
  | .spawn p => if p ∈ s.running then s else { s with running := p :: s.running }.put p .idle
  | .kill p => { s with running := s.running.filter (· ≠ p) }.put p .idle
  | .clock time => { s with now := time }
  | .acquire p wait =>
      if p ∈ s.running ∧ s.place p = .idle then s.put p (.creating (s.now + wait)) else s
  | .proceed p => if p ∈ s.running then s.proceed m p else s
  | .writeFails p =>
      match s.place p with
      | .writing _ deadline => if p ∈ s.running then s.put p (.looking deadline) else s
      | _ => s
  | .release p =>
      match s.place p with
      | .holding file => if p ∈ s.running then s.put p (.releasing file) else s
      | _ => s

end State

open State

def run (m : Machine Process) (events : List (Event Process)) : State Process :=
  events.foldl (step m) {}

/-- A live process believes it holds the lock. -/
def Believes (s : State Process) (p : Process) : Prop :=
  p ∈ s.running ∧ ∃ file, s.place p = .holding file

def Exclusive (s : State Process) : Prop := ∀ p q, Believes s p → Believes s q → p = q

/-- Whether the next step of a process is to delete the lock file. -/
def Place.deletes : Place → Bool
  | .deleting _ _ | .releasing _ => true
  | _ => false

/-- No lock file that another live process created and holds is deleted. -/
def Spares (s : State Process) : Event Process → Prop
  | .proceed p => p ∈ s.running → (s.place p).deletes = true →
      ∀ q file, q ≠ p → q ∈ s.running → s.place q = .holding file → s.entry ≠ some file
  | _ => True

/-- A takeover deletes the file it has judged, and judges abandoned none that a live
process has created and not let go of. -/
def Place.Careful (s : State Process) : Place → Prop
  | .deleting judged _ => s.entry.isSome = true → s.entry = judged
  | .judging _ holder _ => holder.pid = 0 → s.abandoned = true →
      ∀ q ∈ s.running, (s.place q).owned.isSome = true → s.entry ≠ (s.place q).owned
  | _ => True

instance (s : State Process) : ∀ place : Place, Decidable (place.Careful s)
  | .deleting judged _ => inferInstanceAs (Decidable (s.entry.isSome = true → s.entry = judged))
  | .judging _ holder _ =>
      inferInstanceAs (Decidable (holder.pid = 0 → s.abandoned = true →
        ∀ q ∈ s.running, (s.place q).owned.isSome = true → s.entry ≠ (s.place q).owned))
  | .idle | .creating _ | .writing _ _ | .looking _ | .reading _ | .sleeping _ | .holding _
  | .releasing _ => isTrue trivial

def Careful (s : State Process) : Event Process → Prop
  | .proceed p => p ∈ s.running → (s.place p).Careful s
  | _ => True

instance (s : State Process) : ∀ event, Decidable (Careful s event)
  | .proceed p => inferInstanceAs (Decidable (p ∈ s.running → (s.place p).Careful s))
  | .spawn _ | .kill _ | .clock _ | .acquire _ _ | .writeFails _ | .release _ => isTrue trivial

/-- A process that has created a file finds it under the name, and what others have judged
stale is no file of such a process. -/
structure Kept (m : Machine Process) (s : State Process) : Prop where
  running : ∀ p, s.place p ≠ .idle → p ∈ s.running
  owner : ∀ p (n : Nat), (s.place p).owned = some n →
    s.entry = some n ∧ ∃ f : LockFile Process, s.files[n]? = some f ∧ f.creator = p
  text : ∀ (n : Nat) (f : LockFile Process) holder, s.files[n]? = some f → f.text = some holder →
    holder = ⟨m.pid f.creator, m.hostname⟩
  entry : ∀ (n : Nat), s.entry = some n → n < s.files.length
  judging : ∀ p (n : Nat) holder deadline, s.place p = .judging (some n) holder deadline →
    0 < holder.pid → ∃ f : LockFile Process, s.files[n]? = some f ∧ holder.pid = m.pid f.creator
  deleting : ∀ p (n : Nat) deadline, s.place p = .deleting (some n) deadline →
    n < s.files.length ∧ ∀ q, (s.place q).owned ≠ some n

variable {m : Machine Process} {s : State Process}

omit [DecidableEq Process] in
theorem Kept.sole (h : Kept m s) {p q : Process} {n k : Nat} (hp : (s.place p).owned = some n)
    (hq : (s.place q).owned = some k) : p = q := by
  obtain ⟨hentry, f, hf, hcreator⟩ := h.owner p n hp
  obtain ⟨hsame, g, hg, hother⟩ := h.owner q k hq
  cases hentry.symm.trans hsame
  cases hf.symm.trans hg
  exact hcreator.symm.trans hother

omit [DecidableEq Process] in
theorem Kept.start (m : Machine Process) : Kept m ({} : State Process) where
  running := fun _ hplace => absurd rfl hplace
  owner := fun _ _ howned => by cases howned
  text := fun _ _ _ hf => by simp at hf
  entry := fun _ hentry => by cases hentry
  judging := fun _ _ _ _ hplace => by cases hplace
  deleting := fun _ _ _ hplace => by cases hplace

/-- A process goes on, and creates nothing. -/
theorem Kept.put (h : Kept m s) (p : Process) (place : Place)
    (hrunning : place ≠ .idle → p ∈ s.running)
    (howned : ∀ n, place.owned = some n → (s.place p).owned = some n)
    (hjudging : ∀ (n : Nat) holder deadline, place = .judging (some n) holder deadline →
      0 < holder.pid → ∃ f : LockFile Process, s.files[n]? = some f ∧ holder.pid = m.pid f.creator)
    (hdeleting : ∀ (n : Nat) deadline, place = .deleting (some n) deadline →
      n < s.files.length ∧ ∀ q, (s.place q).owned ≠ some n) : Kept m (s.put p place) := by
  have hfewer : ∀ q n, ((s.put p place).place q).owned = some n → (s.place q).owned = some n := by
    intro q n hq
    by_cases hqp : q = p
    · subst hqp
      simp only [State.put, Function.update_self] at hq
      exact howned n hq
    · simp only [State.put, Function.update_of_ne hqp] at hq
      exact hq
  have hcases : ∀ q, (s.put p place).place q = place ∧ q = p ∨
      (s.put p place).place q = s.place q := by
    intro q
    by_cases hqp : q = p
    · exact .inl ⟨by simp [State.put, hqp], hqp⟩
    · exact .inr (by simp only [State.put, Function.update_of_ne hqp])
  exact
    { running := by
        intro q hq
        rcases hcases q with ⟨hplace, rfl⟩ | hplace
        · exact hrunning (hplace ▸ hq)
        · exact h.running q (hplace ▸ hq)
      owner := fun q n hq => h.owner q n (hfewer q n hq)
      text := h.text
      entry := h.entry
      judging := by
        intro q n holder deadline hq hpos
        rcases hcases q with ⟨hplace, rfl⟩ | hplace
        · exact hjudging n holder deadline (hplace.symm.trans hq) hpos
        · exact h.judging q n holder deadline (hplace.symm.trans hq) hpos
      deleting := by
        intro q n deadline hq
        have hfound : n < s.files.length ∧ ∀ r, (s.place r).owned ≠ some n := by
          rcases hcases q with ⟨hplace, rfl⟩ | hplace
          · exact hdeleting n deadline (hplace.symm.trans hq)
          · exact h.deleting q n deadline (hplace.symm.trans hq)
        exact ⟨hfound.1, fun r hr => hfound.2 r (hfewer r n hr)⟩ }

/-- A place at which a process has neither a file nor a verdict on one. -/
def Place.plain : Place → Bool
  | .idle | .creating _ | .looking _ | .reading _ | .sleeping _ => true
  | _ => false

theorem Kept.plain (h : Kept m s) (p : Process) (place : Place) (hplain : place.plain = true)
    (hrunning : place ≠ .idle → p ∈ s.running) : Kept m (s.put p place) := by
  apply h.put p place hrunning
  · intro n howned
    cases place with
    | idle | creating _ | looking _ | reading _ | sleeping _ => cases howned
    | writing _ _ | judging _ _ _ | deleting _ _ | holding _ | releasing _ => cases hplain
  · rintro n holder deadline rfl
    cases hplain
  · rintro n deadline rfl
    cases hplain

omit [DecidableEq Process] in
/-- Where nobody has a file, the name may be taken away. -/
theorem Kept.unlink (h : Kept m s) (hfree : ∀ q n, (s.place q).owned ≠ some n) :
    Kept m { s with entry := none } :=
  { h with
    owner := fun q n hq => absurd hq (hfree q n)
    entry := fun _ hentry => by cases hentry }

theorem create_kept (h : Kept m s) (p : Process) (deadline : Rat) (hp : p ∈ s.running) :
    Kept m (s.create p deadline) := by
  unfold State.create
  split
  · rename_i hnone
    have hfree : ∀ q n, (s.place q).owned ≠ some n := by
      intro q n hq
      cases hnone.symm.trans (h.owner q n hq).1
    have hold : ∀ (n : Nat) (f : LockFile Process), s.files[n]? = some f →
        (s.files ++ [({ creator := p, mtime := s.now } : LockFile Process)])[n]? = some f := by
      intro n f hf
      rw [List.getElem?_append_left (List.getElem?_eq_some_iff.mp hf).1]
      exact hf
    refine ⟨?_, ?_, ?_, ?_, ?_, ?_⟩
    · intro q hq
      by_cases hqp : q = p
      · exact hqp ▸ hp
      · simp only [State.put, Function.update_of_ne hqp] at hq
        exact h.running q hq
    · intro q n hq
      by_cases hqp : q = p
      · subst hqp
        simp only [State.put, Function.update_self, Place.owned, Option.some.injEq] at hq
        subst hq
        exact ⟨rfl, { creator := q, mtime := s.now }, by simp [State.put], rfl⟩
      · simp only [State.put, Function.update_of_ne hqp] at hq
        exact absurd hq (hfree q n)
    · intro n f holder hf htext
      simp only [State.put, List.getElem?_append] at hf
      split at hf
      · exact h.text n f holder hf htext
      · obtain ⟨hlast, hnew⟩ := List.getElem?_eq_some_iff.mp hf
        simp only [List.getElem_singleton] at hnew
        rw [← hnew] at htext
        cases htext
    · intro n hn
      cases hn
      simp [State.put]
    · intro q n holder limit hq hpos
      by_cases hqp : q = p
      · simp [State.put, hqp] at hq
      · simp only [State.put, Function.update_of_ne hqp] at hq
        obtain ⟨f, hf, hpid⟩ := h.judging q n holder limit hq hpos
        exact ⟨f, hold n f hf, hpid⟩
    · intro q n limit hq
      by_cases hqp : q = p
      · simp [State.put, hqp] at hq
      · simp only [State.put, Function.update_of_ne hqp] at hq
        obtain ⟨hlt, _⟩ := h.deleting q n limit hq
        refine ⟨by simp only [State.put, List.length_append]; omega, ?_⟩
        intro r hr
        by_cases hrp : r = p
        · subst hrp
          simp only [State.put, Function.update_self, Place.owned, Option.some.injEq] at hr
          omega
        · simp only [State.put, Function.update_of_ne hrp] at hr
          exact hfree r n hr
  · exact h.plain p _ rfl fun _ => hp

theorem write_kept (h : Kept m s) (p : Process) (file : Nat)
    (hp : (s.place p).owned = some file) (hrunning : p ∈ s.running) :
    Kept m (s.write m p file) := by
  obtain ⟨_, f, hf, hcreator⟩ := h.owner p file hp
  have hsame : ∀ (n : Nat) (g : LockFile Process), s.files[n]? = some g →
      ∃ k : LockFile Process, (s.files.modify file fun f =>
        { f with text := some ⟨m.pid p, m.hostname⟩, mtime := s.now })[n]? = some k ∧
          k.creator = g.creator := by
    intro n g hg
    rw [List.getElem?_modify, hg]
    split
    · exact ⟨_, rfl, rfl⟩
    · exact ⟨g, rfl, rfl⟩
  have hwritten : Kept m { s with
      files := s.files.modify file fun f =>
        { f with text := some ⟨m.pid p, m.hostname⟩, mtime := s.now } } := by
    refine ⟨h.running, ?_, ?_, ?_, ?_, ?_⟩
    · intro q n hq
      obtain ⟨hentry, g, hg, hmade⟩ := h.owner q n hq
      obtain ⟨k, hk, hcreated⟩ := hsame n g hg
      exact ⟨hentry, k, hk, hcreated.trans hmade⟩
    · intro n g holder hg htext
      simp only [List.getElem?_modify] at hg
      split at hg
      · rename_i hn
        rw [← hn, hf] at hg
        cases hg
        cases htext
        rw [hcreator]
      · simp only [Option.map_eq_map, Option.map_id'] at hg
        exact h.text n g holder hg htext
    · intro n hn
      simp only [List.length_modify]
      exact h.entry n hn
    · intro q n holder deadline hq hpos
      obtain ⟨g, hg, hpid⟩ := h.judging q n holder deadline hq hpos
      obtain ⟨k, hk, hcreated⟩ := hsame n g hg
      exact ⟨k, hk, hcreated ▸ hpid⟩
    · intro q n deadline hq
      simp only [List.length_modify]
      exact h.deleting q n deadline hq
  apply hwritten.put p (.holding file) fun _ => hrunning
  · intro n hn
    cases hn
    exact hp
  · intro _ _ _ hplace
    cases hplace
  · intro _ _ hplace
    cases hplace

/-- The lock of a live process is not judged stale. -/
theorem judge_kept (h : Kept m s) (p : Process) (read : Option Nat) (holder : Holder)
    (deadline : Rat) (hplace : s.place p = .judging read holder deadline)
    (hrunning : p ∈ s.running)
    (hcareful : holder.pid = 0 → s.abandoned = true →
      ∀ q ∈ s.running, (s.place q).owned.isSome = true → s.entry ≠ (s.place q).owned) :
    Kept m (s.judge m p read holder deadline) := by
  have hlive : ∀ q n, (s.place q).owned = some n → q ∈ s.running := by
    intro q n hq
    apply h.running
    intro hidle
    rw [hidle] at hq
    cases hq
  have hstale : ∀ judged : Option Nat, (∀ n, judged = some n →
      n < s.files.length ∧ ∀ q, (s.place q).owned ≠ some n) →
        Kept m (s.put p (.deleting judged deadline)) := by
    intro judged hjudged
    apply h.put p _ fun _ => hrunning
    · intro n hn
      cases hn
    · intro _ _ _ hother
      cases hother
    · intro n limit hn
      cases hn
      exact hjudged n rfl
  unfold State.judge
  split
  · rename_i hzero
    split
    · rename_i habandoned
      apply hstale
      intro n hn
      refine ⟨h.entry n hn, ?_⟩
      intro q hq
      exact hcareful hzero habandoned q (hlive q n hq) (by rw [hq]; rfl) (hn.trans hq.symm)
    · exact h.plain p _ rfl fun _ => hrunning
  · rename_i hnamed
    split
    · rename_i hgone
      apply hstale
      rintro n rfl
      obtain ⟨f, hf, hpid⟩ := h.judging p n holder deadline hplace (Nat.pos_of_ne_zero hnamed)
      refine ⟨(List.getElem?_eq_some_iff.mp hf).1, ?_⟩
      intro q hq
      obtain ⟨_, g, hg, hcreator⟩ := h.owner q n hq
      cases hf.symm.trans hg
      have halive : s.alive m holder.pid = true := by
        apply List.any_eq_true.mpr
        exact ⟨q, hlive q n hq, by simp [hpid, hcreator]⟩
      rw [hgone.2] at halive
      cases halive
    · split
      · exact h.plain p _ rfl fun hidle => absurd rfl hidle
      · exact h.plain p _ rfl fun _ => hrunning

theorem proceed_kept (h : Kept m s) (p : Process) (hrunning : p ∈ s.running)
    (hcareful : Careful s (.proceed p)) : Kept m (s.proceed m p) := by
  have hstep := hcareful hrunning
  unfold State.proceed
  split
  · exact h
  · exact h
  · exact create_kept h p _ hrunning
  · rename_i file deadline hplace
    exact write_kept h p file (by rw [hplace]; rfl) hrunning
  · split
    · exact h.plain p _ rfl fun hidle => absurd rfl hidle
    · exact h.plain p _ rfl fun _ => hrunning
  · rename_i deadline hplace
    apply h.put p _ fun _ => hrunning
    · intro n hn
      cases hn
    · intro n holder limit hread hpos
      simp only [Place.judging.injEq] at hread
      obtain ⟨hentry, rfl, _⟩ := hread
      cases hfile : s.fileAt with
      | none => simp [hfile, Holder.nobody] at hpos
      | some f =>
          have hf : s.files[n]? = some f := by
            simpa [State.fileAt, hentry] using hfile
          cases htext : f.text with
          | none => simp [hfile, htext, Holder.nobody] at hpos
          | some written =>
              have hwritten := h.text n f written hf htext
              exact ⟨f, hf, by simp [htext, hwritten]⟩
    · intro _ _ hother
      cases hother
  · rename_i read holder deadline hplace
    rw [hplace] at hstep
    exact judge_kept h p read holder deadline hplace hrunning hstep
  · rename_i judged deadline hplace
    refine (h.unlink ?_).plain p _ rfl fun _ => hrunning
    intro q n hq
    have hentry := (h.owner q n hq).1
    rw [hplace] at hstep
    have hsame := hstep (by rw [hentry]; rfl)
    rw [hentry] at hsame
    exact (h.deleting p n deadline (hplace.trans (by rw [hsame]))).2 q hq
  · exact h.plain p _ rfl fun _ => hrunning
  · rename_i file hplace
    have hidle := h.plain p .idle rfl fun hne => absurd rfl hne
    apply hidle.unlink
    intro q n hq
    by_cases hqp : q = p
    · simp [State.put, hqp, Place.owned] at hq
    · simp only [State.put, Function.update_of_ne hqp] at hq
      exact hqp (h.sole hq (by rw [hplace]; rfl))

theorem step_kept (h : Kept m s) (event : Event Process) (hcareful : Careful s event) :
    Kept m (State.step m s event) := by
  cases event with
  | spawn p =>
      simp only [State.step]
      split
      · exact h
      · have hmore : Kept m { s with running := p :: s.running } :=
          { h with running := fun q hq => List.mem_cons_of_mem p (h.running q hq) }
        exact hmore.plain p .idle rfl fun hne => absurd rfl hne
  | kill p =>
      have hidle := h.plain p .idle rfl fun hne => absurd rfl hne
      refine { hidle with running := ?_ }
      intro q hq
      have hqp : q ≠ p := by
        rintro rfl
        simp [State.step, State.put] at hq
      exact List.mem_filter.mpr ⟨hidle.running q hq, by simpa using hqp⟩
  | clock time => exact { h with }
  | acquire p wait =>
      simp only [State.step]
      split
      · rename_i hidle
        exact h.plain p _ rfl fun _ => hidle.1
      · exact h
  | proceed p =>
      simp only [State.step]
      split
      · rename_i hrunning
        exact proceed_kept h p hrunning hcareful
      · exact h
  | writeFails p =>
      simp only [State.step]
      split
      · split
        · rename_i hrunning
          exact h.plain p _ rfl fun _ => hrunning
        · exact h
      · exact h
  | release p =>
      simp only [State.step]
      split
      · rename_i file hplace
        split
        · rename_i hrunning
          apply h.put p _ fun _ => hrunning
          · intro n hn
            cases hn
            rw [hplace]
            rfl
          · intro _ _ _ hother
            cases hother
          · intro _ _ hother
            cases hother
        · exact h
      · exact h

omit [DecidableEq Process] in
theorem Kept.exclusive (h : Kept m s) : Exclusive s := by
  intro p q ⟨_, file, hp⟩ ⟨_, other, hq⟩
  exact h.sole (n := file) (k := other) (by rw [hp]; rfl) (by rw [hq]; rfl)

omit [DecidableEq Process] in
theorem Kept.spares (h : Kept m s) (event : Event Process) (hcareful : Careful s event) :
    Spares s event := by
  cases event with
  | proceed p =>
      intro hrunning hdeletes q file hqp hq hholding hentry
      have howned : (s.place q).owned = some file := by
        rw [hholding]
        rfl
      cases hplace : s.place p with
      | deleting judged deadline =>
          have hstep := hcareful hrunning
          rw [hplace] at hstep
          have hsame := hstep (by rw [hentry]; rfl)
          rw [hentry] at hsame
          exact (h.deleting p file deadline (hplace.trans (by rw [hsame]))).2 q howned
      | releasing other =>
          exact hqp (h.sole howned (k := other) (by rw [hplace]; rfl))
      | idle | creating _ | writing _ _ | looking _ | reading _ | judging _ _ _ | sleeping _
      | holding _ =>
          rw [hplace] at hdeletes
          cases hdeletes
  | spawn _ | kill _ | clock _ | acquire _ _ | writeFails _ | release _ => trivial

/-- In every run whose takeovers are careful, one process at most believes it holds the
lock, and no lock file of a live holder was deleted. -/
theorem run_exclusive (m : Machine Process) (events : List (Event Process))
    (hcareful : Along Careful (State.step m) {} events) :
    Exclusive (run m events) ∧ Along Spares (State.step m) {} events := by
  have hkept := Along.keeps (I := Kept m) (r := {})
    (fun _ event h hevent => ⟨step_kept h event hevent, h.spares event hevent⟩)
    (Kept.start m) hcareful
  exact ⟨hkept.1.exclusive, hkept.2⟩

def host : Machine Nat := ⟨fun p => p + 1, fun p => Nat.succ_pos p, "host"⟩

/-- A holder is killed, and so many steps of others follow. -/
def orphaned (steps : List Nat) : List (Event Nat) :=
  [.spawn 0, .spawn 1, .spawn 2, .acquire 0 120, .proceed 0, .proceed 0, .kill 0, .acquire 1 120,
    .acquire 2 120] ++ steps.map .proceed

theorem run_exclusive_takeover :
    Exclusive (run host (orphaned [1, 1, 1, 1, 1, 1, 1])) ∧
      Along Spares (State.step host) {} (orphaned [1, 1, 1, 1, 1, 1, 1]) :=
  run_exclusive host _ (by decide)

/-- Two that have both found the holder gone, and both come to hold the lock. -/
theorem run_takeovers :
    ¬ Exclusive (run host (orphaned [1, 1, 1, 1, 2, 2, 2, 2, 1, 1, 1, 2, 2, 2])) := by
  intro h
  have hfirst : Believes (run host (orphaned [1, 1, 1, 1, 2, 2, 2, 2, 1, 1, 1, 2, 2, 2])) 1 :=
    ⟨by decide, 1, by decide⟩
  have hsecond : Believes (run host (orphaned [1, 1, 1, 1, 2, 2, 2, 2, 1, 1, 1, 2, 2, 2])) 2 :=
    ⟨by decide, 2, by decide⟩
  cases h 1 2 hfirst hsecond

end Zuri.Cmds.Lock
