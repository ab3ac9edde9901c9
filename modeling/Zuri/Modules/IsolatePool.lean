import Zuri.Transition.Log

/-!
The pool of isolate threads. A step is what one party does under a lock or with one
atomic operation: a caller of `spawn`, `spawn_batch` or `shutdown`, or an isolate thread
on its way round its loop. A thread that has been claimed comes to the queue in its own
time, and a thread that waits may wake up at any time.
-/

namespace Zuri.Modules.IsolatePool

inductive Outcome where
  | ok
  | failed
  | panicked
  deriving DecidableEq

/-- Where an isolate thread is in `isolate_loop`. -/
inductive Place where
  | claimed
  | arriving
  | parked
  | took (task : Nat)
  | counted (task : Nat)
  | handed (task compiler : Nat)
  | ran (task compiler : Nat) (outcome : Outcome)
  | free (task compiler : Nat) (outcome : Outcome)
  | finished
  | subtracted (prev : Nat)
  | stopping
  deriving DecidableEq

/-- Counted in `Queue::idle`. -/
def Place.idle : Place → Bool
  | .took _ | .counted _ | .handed _ _ | .ran _ _ _ => false
  | _ => true

def Place.isParked : Place → Bool
  | .parked => true
  | _ => false

/-- On its way to the queue. -/
def Place.awake (p : Place) : Bool := p.idle && !p.isParked

/-- Counted in `in_flight`. -/
def Place.inFlight : Place → Bool
  | .took _ | .counted _ | .handed _ _ | .ran _ _ _ | .free _ _ _ | .finished => true
  | _ => false

/-- Counted in `running`. -/
def Place.running : Place → Bool
  | .counted _ | .handed _ _ | .ran _ _ _ | .free _ _ _ | .finished | .subtracted _ => true
  | _ => false

/-- The task of the thread, as long as its state is not finished. -/
def Place.task : Place → Option Nat
  | .took t | .counted t | .handed t _ | .ran t _ _ | .free t _ _ => some t
  | _ => none

/-- The compiler the thread was handed for a task that is not finished. -/
def Place.compiler : Place → Option Nat
  | .handed _ c | .ran _ c _ | .free _ c _ => some c
  | _ => none

def Place.wake : Place → Place
  | .parked => .arriving
  | p => p

/-- What a caller that has queued its tasks does last. -/
inductive Notice where
  | one
  | all
  deriving DecidableEq

inductive ClosePlace where
  | looking
  | waiting
  | stopping
  | returned (done : Bool)
  deriving DecidableEq

/-- A caller of `shutdown`. -/
structure Closer where
  timed : Bool
  place : ClosePlace
  deriving DecidableEq

/-- Tasks are numbered as they are accepted. `taken`, `finished` and `stopped` record what
has happened. -/
structure State where
  size : Nat
  tasks : List Nat := []
  started : Nat := 0
  idle : Nat := 0
  threads : List Place := []
  inFlight : Nat := 0
  running : Nat := 0
  shuttingDown : Bool := false
  compiler : Option Nat := none
  compilers : Nat := 0
  notices : List Notice := []
  closers : List Closer := []
  accepted : Nat := 0
  taken : List (Nat × Nat) := []
  finished : List (Nat × Outcome) := []
  stopped : List Nat := []
  deriving DecidableEq

inductive Event where
  | spawn
  | spawnBatch (count : Nat)
  | notify (caller who : Nat)
  | wake (thread : Nat)
  | proceed (thread : Nat) (outcome : Outcome)
  | shutdown (timed : Bool)
  | close (closer : Nat)
  | timeOut (closer : Nat)

namespace State

def start (size : Nat) : State := { size }

def claimThreads (s : State) : State :=
  let wanted := s.tasks.length - s.idle
  let room := s.size - s.started
  let count := min wanted room
  { s with
    started := s.started + count
    idle := s.idle + count
    threads := s.threads ++ List.replicate count .claimed }

/-- Queues tasks, unless the pool is shutting down. -/
def accept (s : State) (count : Nat) (notice : Notice) : State :=
  if s.shuttingDown then s
  else
    claimThreads { s with
      inFlight := s.inFlight + count
      tasks := s.tasks ++ List.range' s.accepted count
      accepted := s.accepted + count
      notices := s.notices ++ [notice] }

def put (s : State) (i : Nat) (p : Place) : State := { s with threads := s.threads.set i p }

/-- `notify_one` wakes one thread that waits, where there is one. -/
def notify (s : State) (caller who : Nat) : State :=
  match s.notices[caller]? with
  | none => s
  | some .all =>
      { s with
        notices := s.notices.eraseIdx caller
        threads := s.threads.map Place.wake }
  | some .one =>
      if s.threads[who]? = some .parked then
        { s with notices := s.notices.eraseIdx caller }.put who .arriving
      else if s.threads.countP Place.isParked = 0 then
        { s with notices := s.notices.eraseIdx caller }
      else s

/-- Takes a task, or waits for one. -/
def take (s : State) (i : Nat) : State :=
  match s.tasks with
  | [] => s.put i .parked
  | t :: rest =>
      { s with
        tasks := rest
        idle := s.idle - 1
        taken := s.taken ++ [(i, t)] }.put i (.took t)

def getOrSpawnCompiler (s : State) (i t : Nat) : State :=
  match s.compiler with
  | some c => s.put i (.handed t c)
  | none =>
      { s with
        compiler := some s.compilers
        compilers := s.compilers + 1 }.put i (.handed t s.compilers)

def stopCompiler (s : State) : State :=
  match s.compiler with
  | some c => { s with compiler := none, stopped := s.stopped ++ [c] }
  | none => s

/-- The next step of an isolate thread. -/
def proceed (s : State) (i : Nat) (outcome : Outcome) : State :=
  match s.threads[i]? with
  | none | some .parked => s
  | some .claimed => s.put i .arriving
  | some .arriving => s.take i
  | some (.took t) => { s with running := s.running + 1 }.put i (.counted t)
  | some (.counted t) => s.getOrSpawnCompiler i t
  | some (.handed t c) => s.put i (.ran t c outcome)
  | some (.ran t c o) => { s with idle := s.idle + 1 }.put i (.free t c o)
  | some (.free t _ o) => { s with finished := s.finished ++ [(t, o)] }.put i .finished
  | some .finished => { s with inFlight := s.inFlight - 1 }.put i (.subtracted s.inFlight)
  | some (.subtracted prev) =>
      { s with running := s.running - 1 }.put i (if prev = 1 then .stopping else .arriving)
  | some .stopping => s.stopCompiler.put i .arriving

def putCloser (s : State) (j : Nat) (place : ClosePlace) : State :=
  { s with closers := s.closers.modify j fun c => { c with place } }

/-- The next step of a caller of `shutdown`. -/
def close (s : State) (j : Nat) : State :=
  match s.closers[j]? with
  | some ⟨_, .looking⟩ => s.putCloser j (if s.inFlight = 0 then .stopping else .waiting)
  | some ⟨_, .waiting⟩ => s.putCloser j .looking
  | some ⟨_, .stopping⟩ => s.stopCompiler.putCloser j (.returned true)
  | _ => s

/-- The deadline of a caller of `shutdown` passes. -/
def timeOut (s : State) (j : Nat) : State :=
  match s.closers[j]? with
  | some ⟨true, .looking⟩ | some ⟨true, .waiting⟩ =>
      s.putCloser j (if s.inFlight = 0 then .stopping else .returned false)
  | _ => s

def step (s : State) : Event → State
  | .spawn => s.accept 1 .one
  | .spawnBatch count => s.accept count .all
  | .notify caller who => s.notify caller who
  | .wake i => if s.threads[i]? = some .parked then s.put i .arriving else s
  | .proceed i outcome => s.proceed i outcome
  | .shutdown timed =>
      { s with
        shuttingDown := true
        closers := s.closers ++ [⟨timed, .looking⟩] }
  | .close j => s.close j
  | .timeOut j => s.timeOut j

end State

end Zuri.Modules.IsolatePool
