import Zuri.Modules.TransferWhole

/-!
Handing work to the isolate pool. A call captures the callee and what it is called with, one
after another, and only then asks whether the pool still takes tasks. A batch captures its callee
once: its tasks have copies of that graph, which share the slots resources were moved into.

A call that is refused leaves everything as it was exactly when its walks have moved nothing; a
batch that is accepted gives each resource to one task exactly when its callee holds none, or
there is one task.
-/

namespace Zuri.Spawn

open Zuri.Vm (Value)
open Zuri.Transfer

structure IsolateState where
  name : Option String

structure Task where
  callee : TransferGraph
  args : TransferGraph
  state : IsolateState

structure Pool where
  shuttingDown : Bool
  tasks : List Task
  inFlight : Nat

/-- A part of a call, from one memory to another; none when it does not return. -/
def Handing (α : Type) : Type := Memory → Option (Except String α × Memory)

namespace Handing

variable {α β : Type}

def pure (x : α) : Handing α := fun m => some (.ok x, m)

def bind (h : Handing α) (k : α → Handing β) : Handing β := fun m =>
  (h m).bind fun r =>
    match r.1 with
    | .ok x => k x r.2
    | .error message => some (.error message, r.2)

end Handing

section Calls

variable (vm : VM) (fuel : Nat)

/-- A graph of a list that holds the item alone. -/
def captureAsArgsList (item : Value) : Handing TransferGraph := fun m =>
  (captureValue vm fuel item ⟨m, [], []⟩).map fun r =>
    (r.1.map fun x => (⟨.ref r.2.arena.length, r.2.arena ++ [.list [x]]⟩ : TransferGraph),
      r.2.memory)

def captureGraph (root : Value) : Handing TransferGraph := fun m => capture vm fuel m root

/-- The tasks of a batch, all for one callee. -/
def batchTasks (callee : TransferGraph) : List Value → Handing (List Task)
  | [] => .pure []
  | item :: items => (captureAsArgsList vm fuel item).bind fun args =>
      (batchTasks callee items).bind fun tasks => .pure (⟨callee, args, ⟨none⟩⟩ :: tasks)

/-- What a call comes to. -/
structure Left (α : Type) where
  result : Except String α
  memory : Memory
  pool : Pool

/-- Queues the tasks, unless the pool is shutting down. -/
def submit (pool : Pool) (tasks : List Task) : Except String Pool :=
  if pool.shuttingDown then .error "cannot spawn: the isolate pool is shutting down"
  else
    .ok { pool with tasks := pool.tasks ++ tasks, inFlight := pool.inFlight + tasks.length }

def handIn (pool : Pool) (tasks : Handing (List Task)) (m : Memory) :
    Option (Left (List IsolateState)) :=
  (tasks m).map fun r =>
    match r.1 with
    | .error message => ⟨.error message, r.2, pool⟩
    | .ok tasks =>
        match submit pool tasks with
        | .error message => ⟨.error message, r.2, pool⟩
        | .ok pool => ⟨.ok (tasks.map Task.state), r.2, pool⟩

def spawn (callee args : Value) (name : Option String) (pool : Pool) :
    Memory → Option (Left (List IsolateState)) :=
  handIn pool ((captureGraph vm fuel callee).bind fun callee =>
    (captureGraph vm fuel args).bind fun args => .pure [⟨callee, args, ⟨name⟩⟩])

def spawnBatch (callee : Value) (items : List Value) (pool : Pool) :
    Memory → Option (Left (List IsolateState)) :=
  handIn pool ((captureGraph vm fuel callee).bind fun callee => batchTasks vm fuel callee items)

end Calls

inductive Call where
  | spawn (callee args : Value) (name : Option String)
  | spawnBatch (callee : Value) (items : List Value)

namespace Call

def callee : Call → Value
  | spawn callee _ _ => callee
  | spawnBatch callee _ => callee

/-- What the tasks are called with, one value for each task. -/
def items : Call → List Value
  | spawn _ args _ => [args]
  | spawnBatch _ items => items

def run (vm : VM) (fuel : Nat) (pool : Pool) (m : Memory) : Call → Option (Left (List IsolateState))
  | spawn callee args name => Spawn.spawn vm fuel callee args name pool m
  | spawnBatch callee items => Spawn.spawnBatch vm fuel callee items pool m

end Call

open Graph (Meets)

/-- What a native resource still holds. -/
def payload (o : Obj) : Option Nat := o.resource.bind Prod.snd

def payloads (g : TransferGraph) : List Nat :=
  (g.arena.filterMap TransferNode.slot).filterMap Prod.snd

/-- A task holds what its graphs have slots for. -/
def Task.Holds (t : Task) (p : Nat) : Prop := p ∈ payloads t.callee ∨ p ∈ payloads t.args

/-- A memory in which what a native resource holds is its own. -/
structure Heap where
  memory : Memory
  owned : ∀ a b p, payload (memory a) = some p → payload (memory b) = some p → a = b

section Spec

variable (vm : VM) (m : Memory)

/-- The walks from one value after another, with what each of them meets, and whether the
last one went through. -/
inductive MeetsAll : List Value → List (List Nat) → Bool → Prop
  | nil : MeetsAll [] [] true
  | stop {v : Value} {vs : List Value} {met : List Nat} :
      Meets (script vm m) (Refuses vm m) [] (visits [v]) met none → MeetsAll (v :: vs) [met] false
  | next {v : Value} {vs : List Value} {met marked : List Nat} {mets : List (List Nat)}
      {through : Bool} :
      Meets (script vm m) (Refuses vm m) [] (visits [v]) met (some marked) →
      MeetsAll vs mets through → MeetsAll (v :: vs) (met :: mets) through

def Call.Reaches (call : Call) (a : Nat) : Prop :=
  ∃ v ∈ call.callee :: call.items, Reached vm m v a

/-- A call that is refused leaves every object it reaches as it was; one that is accepted
gives what each of them holds to one of its tasks. -/
def CostsNothing (pool : Pool) (call : Call) (left : Left (List IsolateState)) : Prop :=
  match left.result with
  | .error _ => ∀ a, call.Reaches vm m a → left.memory a = m a
  | .ok _ => ∃ tasks, left.pool.tasks = pool.tasks ++ tasks ∧
      ∀ a p, call.Reaches vm m a → payload (m a) = some p →
        ∃! i : Nat, ∃ t : Task, tasks[i]? = some t ∧ t.Holds p

/-- What is walked has moved nothing when the call is refused, and a call that is accepted is
for one task, or with a callee that holds no resource. -/
structure Harmless (pool : Pool) (call : Call) : Prop where
  refused : ∀ mets through, MeetsAll vm m (call.callee :: call.items) mets through →
    through = false ∨ pool.shuttingDown = true → ∀ a ∈ mets.flatten, ¬Moves m a
  accepted : ∀ mets, MeetsAll vm m (call.callee :: call.items) mets true →
    pool.shuttingDown = false →
    call.items.length = 1 ∨ ∀ a, Reached vm m call.callee a → payload (m a) = none

end Spec

section Walks

variable {vm : VM} {m m' m'' : Memory} {fuel : Nat} {taken : List Nat}

/-- The memory once these objects have been met. -/
def Without (m : Memory) (taken : List Nat) (m' : Memory) : Prop :=
  ∀ a, m' a = if a ∈ taken then (m a).taken else m a

theorem payload_taken (o : Obj) : payload o.taken = none := by
  cases o <;> rfl

/-- A memory some resources are gone from, as a walk that has marked their objects sees it. -/
theorem Without.sound (h : Without m taken m') : Sound m ⟨m', [], taken.map fun a => (a, 0)⟩ := by
  intro a
  have hmarked : Captured.marked ⟨m', [], taken.map fun a => (a, 0)⟩ = taken := by
    rw [Captured.marked, List.map_map]
    exact List.map_id taken
  rw [hmarked]
  exact h a

/-- An object is what it was, or a resource that is gone. -/
theorem Without.kind (h : Without m taken m') (a : Nat) :
    m' a = m a ∨ ∃ tag held, m' a = .ptr "<moved>" none ∧ m a = .ptr tag held := by
  rw [h a]
  split
  · cases m a with
    | ptr tag held => exact .inr ⟨tag, held, rfl, rfl⟩
    | _ => exact .inl rfl
  · exact .inl rfl

/-- Moving resources away changes nothing a walk goes by. -/
theorem Without.script (h : Without m taken m') : script vm m' = script vm m := by
  funext a
  have hfunc : asFunc m' = asFunc m := funext (asFunc_read h.sound)
  have hupvalue : readUpvalue m' = readUpvalue m := funext (readUpvalue_read h.sound)
  have hstring : asString m' = asString m := funext (asString_read h.sound)
  have hglobals : ∀ p cs seen, rootGlobals vm m' p cs seen = rootGlobals vm m p cs seen := by
    intro p cs
    induction cs with
    | nil => exact fun _ => rfl
    | cons c cs ih =>
        intro seen
        simp only [rootGlobals, hstring, ih]
  have hnamed : namedFunction vm m' = namedFunction vm m := by
    funext b p
    exact namedFunction_read h.sound b p
  obtain hsame | ⟨tag, held, hmoved, hptr⟩ := h.kind a
  · simp only [Transfer.script, hsame, hfunc, hupvalue, hglobals, hnamed]
  · simp only [Transfer.script, hmoved, hptr]

theorem Without.refuses (h : Without m taken m') : Refuses vm m' = Refuses vm m := by
  funext a
  obtain hsame | ⟨tag, held, hmoved, hptr⟩ := h.kind a
  · simp only [Refuses, hsame]
  · simp only [Refuses, hmoved, hptr]

theorem Without.trans {more : List Nat} (h : Without m taken m') (k : Without m' more m'') :
    Without m (taken ++ more) m'' := by
  intro a
  have htwice : (m a).taken.taken = (m a).taken := by cases m a <;> rfl
  rw [k a, h a]
  by_cases hm : a ∈ more <;> by_cases ht : a ∈ taken <;> simp [hm, ht, htwice]

/-- What a walk finds in the slots it fills, when some resources are gone. -/
theorem Without.payload (h : Without m taken m') (a : Nat) :
    payload (m' a) = if a ∈ taken then none else payload (m a) := by
  rw [h a]
  split
  · exact payload_taken _
  · rfl

/-- What a capture does to the memory, and what is in its graph. -/
structure Takes (vm : VM) (m : Memory) (root : Value) (taken : List Nat)
    (out : Except String TransferGraph × Memory) (met : List Nat) : Prop where
  memory : Without m (taken ++ met) out.2
  refused : ∀ message, out.1 = .error message →
    Meets (Transfer.script vm m) (Refuses vm m) [] (visits [root]) met none
  through : ∀ g, out.1 = .ok g →
    ∃ marked, Meets (Transfer.script vm m) (Refuses vm m) [] (visits [root]) met (some marked)
  holds : ∀ g, out.1 = .ok g → ∀ p,
    p ∈ payloads g ↔ ∃ a ∈ met, a ∉ taken ∧ Spawn.payload (m a) = some p

theorem mem_payloads {g : TransferGraph} {met : List Nat} {p : Nat}
    (h : g.arena.filterMap TransferNode.slot = met.filterMap fun a => (m a).resource) :
    p ∈ payloads g ↔ ∃ a ∈ met, Spawn.payload (m a) = some p := by
  simp only [payloads, h, List.mem_filterMap, Spawn.payload, Option.bind_eq_some_iff]
  constructor
  · rintro ⟨resource, ⟨a, ha, hres⟩, hp⟩
    exact ⟨a, ha, resource, hres, hp⟩
  · rintro ⟨a, ha, resource, hres, hp⟩
    exact ⟨resource, ⟨a, ha, hres⟩, hp⟩

/-- A walk of its own for each value, on what the walks before it have left. -/
theorem captureValue_takes {root : Value} {r : Except String TransferValue} {s : Captured}
    {graph : TransferValue → TransferGraph} (h : Without m taken m')
    (hrun : captureValue vm fuel root ⟨m', [], []⟩ = some (r, s))
    (hgraph : ∀ x, (graph x).arena.filterMap TransferNode.slot = s.slots) :
    ∃ met, Takes vm m root taken (r.map graph, s.memory) met := by
  obtain ⟨met, hmet, heffect⟩ := captureValue_follows vm m' fuel root _ r s (sound_start m') hrun
  have hmet : Meets (Transfer.script vm m) (Refuses vm m) [] (visits [root]) met
      (lastMarked r s) := by
    rw [← h.script, ← h.refuses]
    exact hmet
  have hslots : s.slots = met.filterMap fun a => (m' a).resource := by
    rw [heffect.slots]
    rfl
  refine ⟨met, h.trans (memory_after heffect), fun message hr => ?_, fun g hr => ?_, ?_⟩
  · cases r with
    | error _ => exact hmet
    | ok x => cases hr
  · cases r with
    | error _ => cases hr
    | ok x => exact ⟨_, hmet⟩
  · intro g hg p
    cases r with
    | error _ => cases hg
    | ok x =>
        cases hg
        rw [mem_payloads ((hgraph x).trans hslots)]
        refine exists_congr fun a => and_congr_right fun _ => ?_
        rw [h.payload a]
        split <;> simp [*]

theorem captureGraph_takes {root : Value} {out : Except String TransferGraph × Memory}
    (h : Without m taken m') (hrun : captureGraph vm fuel root m' = some out) :
    ∃ met, Takes vm m root taken out met := by
  obtain ⟨fuel, r, s, hvalue, rfl⟩ := capture_walks hrun
  exact captureValue_takes h hvalue fun _ => rfl

theorem captureAsArgsList_takes {item : Value} {out : Except String TransferGraph × Memory}
    (h : Without m taken m') (hrun : captureAsArgsList vm fuel item m' = some out) :
    ∃ met, Takes vm m item taken out met := by
  obtain ⟨⟨r, s⟩, hvalue, rfl⟩ := Option.map_eq_some_iff.mp hrun
  refine captureValue_takes h hvalue fun x => ?_
  rw [List.filterMap_append]
  exact List.append_nil _

/-- The tasks of a call beside what the walks of its items have met: the graph of the callee
in each, and what an item had left to give. -/
inductive Shares (m : Memory) (callee : TransferGraph) :
    List Nat → List (List Nat) → List Task → Prop
  | nil (taken : List Nat) : Shares m callee taken [] []
  | cons {taken met : List Nat} {mets : List (List Nat)} {t : Task} {ts : List Task} :
      t.callee = callee →
      (∀ p, p ∈ payloads t.args ↔ ∃ a ∈ met, a ∉ taken ∧ Spawn.payload (m a) = some p) →
      Shares m callee (taken ++ met) mets ts → Shares m callee taken (met :: mets) (t :: ts)

/-- What the walks from some values do, and the tasks they come to. -/
structure Gathers (vm : VM) (m : Memory) (callee : TransferGraph) (values : List Value)
    (taken : List Nat) (out : Except String (List Task) × Memory) (mets : List (List Nat)) :
    Prop where
  memory : Without m (taken ++ mets.flatten) out.2
  refused : ∀ message, out.1 = .error message → MeetsAll vm m values mets false
  through : ∀ tasks, out.1 = .ok tasks →
    MeetsAll vm m values mets true ∧ Shares m callee taken mets tasks

theorem Gathers.cons {callee args : TransferGraph} {v : Value} {vs : List Value}
    {met : List Nat} {mets : List (List Nat)} {t : Task} {after : Memory}
    {out : Except String (List Task) × Memory} (hcallee : t.callee = callee) (hargs : t.args = args)
    (hfirst : Takes vm m v taken (.ok args, after) met)
    (hrest : Gathers vm m callee vs (taken ++ met) out mets) :
    Gathers vm m callee (v :: vs) taken (out.1.map (t :: ·), out.2) (met :: mets) := by
  obtain ⟨marked, hmeets⟩ := hfirst.through args rfl
  obtain ⟨r, left⟩ := out
  refine ⟨?_, fun message hr => ?_, fun tasks hr => ?_⟩
  · rw [List.flatten_cons, ← List.append_assoc]
    exact hrest.memory
  · cases r with
    | error message => exact .next hmeets (hrest.refused message rfl)
    | ok ts => cases hr
  · cases r with
    | error message => cases hr
    | ok ts =>
        cases hr
        obtain ⟨hall, hshares⟩ := hrest.through ts rfl
        refine ⟨.next hmeets hall, .cons hcallee ?_ hshares⟩
        rw [hargs]
        exact hfirst.holds args rfl

theorem Gathers.stop {callee : TransferGraph} {v : Value} {vs : List Value} {met : List Nat}
    {message : String} {after : Memory} (hfirst : Takes vm m v taken (.error message, after) met) :
    Gathers vm m callee (v :: vs) taken (.error message, after) [met] := by
  refine ⟨?_, fun _ _ => .stop (hfirst.refused message rfl), nofun⟩
  rw [List.flatten_cons, List.flatten_nil, List.append_nil]
  exact hfirst.memory

theorem batchTasks_gathers {callee : TransferGraph} {items : List Value}
    {out : Except String (List Task) × Memory} (h : Without m taken m')
    (hrun : batchTasks vm fuel callee items m' = some out) :
    ∃ mets, Gathers vm m callee items taken out mets := by
  induction items generalizing taken m' out with
  | nil =>
      cases hrun
      refine ⟨[], by rwa [List.flatten_nil, List.append_nil], nofun, fun tasks hr => ?_⟩
      cases hr
      exact ⟨.nil, .nil _⟩
  | cons item items ih =>
      obtain ⟨⟨r, after⟩, hfirst, hrest⟩ := Option.bind_eq_some_iff.mp hrun
      obtain ⟨met, htakes⟩ := captureAsArgsList_takes h hfirst
      cases r with
      | error message =>
          cases hrest
          exact ⟨[met], .stop htakes⟩
      | ok args =>
          obtain ⟨⟨r, left⟩, htasks, hlast⟩ := Option.bind_eq_some_iff.mp hrest
          obtain ⟨mets, hgathers⟩ := ih htakes.memory htasks
          have hcons := @Gathers.cons vm m _ callee args item items met mets ⟨callee, args, ⟨none⟩⟩ _ _
            rfl rfl htakes hgathers
          cases r <;> cases hlast <;> exact ⟨met :: mets, hcons⟩

/-- The two ways a call ends. -/
inductive Ends (vm : VM) (m : Memory) (pool : Pool) (callee : Value) (items : List Value) :
    Left (List IsolateState) → Prop
  | refused {mets : List (List Nat)} {through : Bool} {message : String} {after : Memory} :
      Without m mets.flatten after → MeetsAll vm m (callee :: items) mets through →
      through = false ∨ pool.shuttingDown = true →
      Ends vm m pool callee items ⟨.error message, after, pool⟩
  | accepted {met : List Nat} {mets : List (List Nat)} {graph : TransferGraph}
      {tasks : List Task} {left : Left (List IsolateState)} {states : List IsolateState} :
      left.result = .ok states → left.pool.tasks = pool.tasks ++ tasks →
      MeetsAll vm m (callee :: items) (met :: mets) true → pool.shuttingDown = false →
      (∀ p, p ∈ payloads graph ↔ ∃ a ∈ met, Spawn.payload (m a) = some p) →
      Shares m graph met mets tasks → Ends vm m pool callee items left

theorem handIn_ends {pool : Pool} {callee : Value} {items : List Value}
    {k : TransferGraph → Handing (List Task)} {left : Left (List IsolateState)}
    (hk : ∀ g taken m' out, Without m taken m' → k g m' = some out →
      ∃ mets, Gathers vm m g items taken out mets)
    (hrun : handIn pool ((captureGraph vm fuel callee).bind k) m = some left) :
    Ends vm m pool callee items left := by
  obtain ⟨⟨r, after⟩, htasks, rfl⟩ := Option.map_eq_some_iff.mp hrun
  obtain ⟨⟨first, between⟩, hfirst, hrest⟩ := Option.bind_eq_some_iff.mp htasks
  have hstart : Without m [] m := fun _ => rfl
  obtain ⟨met, htakes⟩ := captureGraph_takes hstart hfirst
  cases first with
  | error message =>
      cases hrest
      have hmemory : Without m [met].flatten between := by
        rw [List.flatten_cons, List.flatten_nil, List.append_nil]
        exact htakes.memory
      exact .refused hmemory (.stop (htakes.refused message rfl)) (.inl rfl)
  | ok graph =>
      obtain ⟨marked, hmeets⟩ := htakes.through graph rfl
      obtain ⟨mets, hgathers⟩ := hk graph met between _ htakes.memory hrest
      have hmemory : Without m (met :: mets).flatten after := hgathers.memory
      cases r with
      | error message =>
          exact .refused hmemory (.next hmeets (hgathers.refused message rfl)) (.inl rfl)
      | ok tasks =>
          obtain ⟨hall, hshares⟩ := hgathers.through tasks rfl
          have hmeets := MeetsAll.next hmeets hall
          cases hshut : pool.shuttingDown with
          | true =>
              simp only [submit, hshut, if_true]
              exact .refused hmemory hmeets (.inr hshut)
          | false =>
              simp only [submit, hshut]
              refine .accepted rfl rfl hmeets hshut (fun p => ?_) hshares
              rw [htakes.holds graph rfl]
              simp

theorem Call.run_ends {pool : Pool} {call : Call} {left : Left (List IsolateState)}
    (hrun : call.run vm fuel pool m = some left) :
    Ends vm m pool call.callee call.items left := by
  cases call with
  | spawn callee args name =>
      refine handIn_ends (fun g taken m' out h hout => ?_) hrun
      obtain ⟨⟨r, after⟩, hfirst, hrest⟩ := Option.bind_eq_some_iff.mp hout
      obtain ⟨met, htakes⟩ := captureGraph_takes h hfirst
      cases r with
      | error message =>
          cases hrest
          exact ⟨[met], .stop htakes⟩
      | ok args =>
          cases hrest
          have hnone : Gathers vm m g [] (taken ++ met) (.ok [], after) [] := by
            refine ⟨?_, nofun, fun tasks hr => ?_⟩
            · rw [List.flatten_nil, List.append_nil]
              exact htakes.memory
            · cases hr
              exact ⟨.nil, .nil _⟩
          have hcons := @Gathers.cons vm m taken g args _ [] met [] ⟨g, args, ⟨name⟩⟩ _ _
            rfl rfl htakes hnone
          exact ⟨[met], hcons⟩
  | spawnBatch callee items => exact handIn_ends (fun g taken m' out => batchTasks_gathers) hrun

end Walks

section Whole

variable {vm : VM} {m : Memory}

theorem MeetsAll.unique {vs : List Value} {mets mets' : List (List Nat)} {through through' : Bool}
    (h : MeetsAll vm m vs mets through) (k : MeetsAll vm m vs mets' through') :
    mets = mets' ∧ through = through' := by
  induction h generalizing mets' through' with
  | nil =>
      cases k
      exact ⟨rfl, rfl⟩
  | stop hmet =>
      cases k with
      | stop kmet =>
          obtain ⟨rfl, -⟩ := hmet.unique kmet
          exact ⟨rfl, rfl⟩
      | next kmet =>
          obtain ⟨-, hlast⟩ := hmet.unique kmet
          cases hlast
  | next hmet _ ih =>
      cases k with
      | stop kmet =>
          obtain ⟨-, hlast⟩ := hmet.unique kmet
          cases hlast
      | next kmet krest =>
          obtain ⟨rfl, -⟩ := hmet.unique kmet
          obtain ⟨rfl, rfl⟩ := ih krest
          exact ⟨rfl, rfl⟩

/-- What a walk meets is reached from the value it walks. -/
theorem MeetsAll.reached {vs : List Value} {mets : List (List Nat)} {through : Bool}
    (h : MeetsAll vm m vs mets through) {a : Nat} (ha : a ∈ mets.flatten) :
    ∃ v ∈ vs, Reached vm m v a := by
  induction h with
  | nil => cases ha
  | @stop v vs met hmet =>
      rw [List.flatten_cons, List.flatten_nil, List.append_nil] at ha
      exact ⟨v, List.mem_cons_self, reached_of_met hmet ha⟩
  | @next v vs met marked mets through hmet _ ih =>
      obtain ha | ha := List.mem_append.mp ha
      · exact ⟨v, List.mem_cons_self, reached_of_met hmet ha⟩
      · obtain ⟨w, hw, hreached⟩ := ih ha
        exact ⟨w, List.mem_cons_of_mem v hw, hreached⟩

/-- A walk that goes through meets all that its value reaches. -/
theorem met_of_reached {v : Value} {met marked : List Nat} {a : Nat}
    (h : Meets (script vm m) (Refuses vm m) [] (visits [v]) met (some marked))
    (ha : Reached vm m v a) : a ∈ met := by
  obtain ⟨r, rfl, hleads⟩ := ha
  exact h.all script_marks hleads

theorem MeetsAll.met {vs : List Value} {mets : List (List Nat)} (h : MeetsAll vm m vs mets true)
    {v : Value} (hv : v ∈ vs) {a : Nat} (ha : Reached vm m v a) : a ∈ mets.flatten := by
  generalize hend : true = through at h
  induction h with
  | nil => cases hv
  | stop => cases hend
  | next hmet _ ih =>
      rw [List.flatten_cons, List.mem_append]
      obtain rfl | hv := List.mem_cons.mp hv
      · exact .inl (met_of_reached hmet ha)
      · exact .inr (ih hv hend)

theorem MeetsAll.length {vs : List Value} {mets : List (List Nat)}
    (h : MeetsAll vm m vs mets true) :
    mets.length = vs.length := by
  generalize hend : true = through at h
  induction h with
  | nil => rfl
  | stop => cases hend
  | next _ _ ih => rw [List.length_cons, List.length_cons, ih hend]

section Sharing

variable {heap : Heap} {callee : TransferGraph} {taken : List Nat} {mets : List (List Nat)}
  {tasks : List Task} {a p : Nat}

theorem Shares.length (h : Shares m callee taken mets tasks) : tasks.length = mets.length := by
  induction h with
  | nil => rfl
  | cons _ _ _ ih => rw [List.length_cons, List.length_cons, ih]

theorem Shares.callee_eq (h : Shares m callee taken mets tasks) :
    ∀ t ∈ tasks, t.callee = callee := by
  induction h with
  | nil =>
      intro t ht
      cases ht
  | cons ht _ _ ih => exact List.forall_mem_cons.mpr ⟨ht, ih⟩

/-- An item gives what it holds when its object is met and still has it. -/
theorem held_iff {met : List Nat} {args : TransferGraph} (hp : payload (heap.memory a) = some p)
    (hargs : ∀ p, p ∈ payloads args ↔
      ∃ a ∈ met, a ∉ taken ∧ payload (heap.memory a) = some p) :
    p ∈ payloads args ↔ a ∈ met ∧ a ∉ taken := by
  rw [hargs]
  constructor
  · rintro ⟨b, hb, hbtaken, hbp⟩
    cases heap.owned a b p hp hbp
    exact ⟨hb, hbtaken⟩
  · rintro ⟨ha, htaken⟩
    exact ⟨a, ha, htaken, hp⟩

/-- What has been taken before is not given again. -/
theorem Shares.gone (h : Shares heap.memory callee taken mets tasks)
    (hp : payload (heap.memory a) = some p) (ha : a ∈ taken) :
    ∀ t ∈ tasks, p ∉ payloads t.args := by
  induction h with
  | nil =>
      intro t ht
      cases ht
  | cons _ hargs _ ih =>
      refine List.forall_mem_cons.mpr ⟨fun hheld => ?_, ih (List.mem_append_left _ ha)⟩
      exact ((held_iff hp hargs).mp hheld).2 ha

/-- What has not is given to the first task whose item reaches it, and to that one only. -/
theorem Shares.once (h : Shares heap.memory callee taken mets tasks)
    (hp : payload (heap.memory a) = some p) (htaken : a ∉ taken) (ha : a ∈ mets.flatten) :
    ∃! i : Nat, ∃ t : Task, tasks[i]? = some t ∧ p ∈ payloads t.args := by
  induction h with
  | nil => cases ha
  | @cons taken met mets t ts _ hargs hshares ih =>
      have hheld := held_iff (a := a) hp hargs
      by_cases hmet : a ∈ met
      · refine ⟨0, ⟨t, rfl, hheld.mpr ⟨hmet, htaken⟩⟩, ?_⟩
        rintro (_ | i) ⟨u, hu, hup⟩
        · rfl
        · have hmem : u ∈ ts := List.mem_of_getElem? hu
          exact absurd hup (hshares.gone hp (List.mem_append_right _ hmet) u hmem)
      · have hrest : a ∈ mets.flatten := by
          rw [List.flatten_cons, List.mem_append] at ha
          exact ha.resolve_left hmet
        have hleft : a ∉ taken ++ met := by
          rw [List.mem_append]
          rintro (h | h)
          · exact htaken h
          · exact hmet h
        obtain ⟨i, hi, honly⟩ := ih hleft hrest
        refine ⟨i + 1, hi, ?_⟩
        rintro (_ | j) ⟨u, hu, hup⟩
        · cases hu
          exact absurd (hheld.mp hup).1 hmet
        · rw [honly j ⟨u, hu, hup⟩]

end Sharing

variable {heap : Heap} {pool : Pool} {call : Call} {left : Left (List IsolateState)}

/-- A call that is refused leaves what it reaches alone when its walks have moved nothing. -/
theorem untouched_iff {mets : List (List Nat)} {through : Bool} {after : Memory}
    (hmemory : Without m mets.flatten after)
    (hmeets : MeetsAll vm m (call.callee :: call.items) mets through) :
    (∀ a, call.Reaches vm m a → after a = m a) ↔ ∀ a ∈ mets.flatten, ¬Moves m a := by
  constructor
  · intro hkept a ha hmoves
    have hsame := hkept a (hmeets.reached ha)
    rw [hmemory a, if_pos ha] at hsame
    exact hmoves hsame
  · intro hnothing a _
    rw [hmemory a]
    split
    · rename_i ha
      exact not_not.mp (hnothing a ha)
    · rfl

/-- In a batch that is accepted each resource is for one task when the callee holds none, or
there is one task. -/
theorem one_task_iff {met : List Nat} {mets : List (List Nat)} {graph : TransferGraph}
    {tasks : List Task}
    (hmeets : MeetsAll vm heap.memory (call.callee :: call.items) (met :: mets) true)
    (hgraph : ∀ p, p ∈ payloads graph ↔ ∃ a ∈ met, payload (heap.memory a) = some p)
    (hshares : Shares heap.memory graph met mets tasks) :
    (∀ a p, call.Reaches vm heap.memory a → payload (heap.memory a) = some p →
        ∃! i : Nat, ∃ t : Task, tasks[i]? = some t ∧ t.Holds p) ↔
      call.items.length = 1 ∨
        ∀ a, Reached vm heap.memory call.callee a → payload (heap.memory a) = none := by
  have hlength : tasks.length = call.items.length := by
    rw [hshares.length]
    have := hmeets.length
    simpa using this
  obtain ⟨marked, hcallee⟩ : ∃ marked, Meets (script vm heap.memory) (Refuses vm heap.memory) []
      (visits [call.callee]) met (some marked) := by
    cases hmeets with
    | next hmet _ => exact ⟨_, hmet⟩
  have hshared : ∀ {a p}, Reached vm heap.memory call.callee a → payload (heap.memory a) = some p →
      ∀ t ∈ tasks, t.Holds p := by
    intro a p ha hp t ht
    rw [Task.Holds, hshares.callee_eq t ht, hgraph]
    exact .inl ⟨a, met_of_reached hcallee ha, hp⟩
  constructor
  · intro hone
    refine or_iff_not_imp_left.mpr fun hcount a ha => ?_
    cases hp : payload (heap.memory a) with
    | none => rfl
    | some p =>
        obtain ⟨i, ⟨t, ht, -⟩, honly⟩ := hone a p ⟨_, List.mem_cons_self, ha⟩ hp
        have hi := (List.getElem?_eq_some_iff.mp ht).1
        have hat : ∀ j, (hj : j < tasks.length) → j = i := fun j hj =>
          honly j ⟨tasks[j], List.getElem?_eq_getElem hj, hshared ha hp _ (List.getElem_mem hj)⟩
        have hzero := hat 0 (by omega)
        have hfirst := hat 1 (by omega)
        omega
  · have hmet : ∀ {a}, call.Reaches vm heap.memory a → a ∈ (met :: mets).flatten := by
      rintro a ⟨v, hv, ha⟩
      exact hmeets.met hv ha
    rintro (hcount | hnone) a p hreaches hp
    · have honly : ∀ i, i < tasks.length → i = 0 := fun i hi => by omega
      have hheld : ∃ i : Nat, ∃ t : Task, tasks[i]? = some t ∧ t.Holds p := by
        by_cases ha : a ∈ met
        · have hfirst : 0 < tasks.length := by omega
          have htask := List.getElem_mem hfirst
          refine ⟨0, tasks[0], List.getElem?_eq_getElem hfirst, ?_⟩
          rw [Task.Holds, hshares.callee_eq _ htask, hgraph]
          exact .inl ⟨a, ha, hp⟩
        · have hrest := (List.mem_append.mp (hmet hreaches)).resolve_left ha
          obtain ⟨i, ⟨t, ht, hargs⟩, -⟩ := hshares.once hp ha hrest
          exact ⟨i, t, ht, .inr hargs⟩
      obtain ⟨i, t, ht, hholds⟩ := hheld
      refine ⟨i, ⟨t, ht, hholds⟩, ?_⟩
      rintro j ⟨u, hu, -⟩
      rw [honly i (List.getElem?_eq_some_iff.mp ht).1, honly j (List.getElem?_eq_some_iff.mp hu).1]
    · have hempty : ∀ a ∈ met, payload (heap.memory a) = none := fun a ha =>
        hnone a (reached_of_met hcallee ha)
      have ha : a ∉ met := fun ha => by
        rw [hempty a ha] at hp
        cases hp
      have hargs : ∀ t ∈ tasks, (t.Holds p ↔ p ∈ payloads t.args) := by
        intro t ht
        rw [Task.Holds, hshares.callee_eq t ht]
        refine or_iff_right fun hheld => ?_
        obtain ⟨b, hb, hbp⟩ := (hgraph p).mp hheld
        rw [hempty b hb] at hbp
        cases hbp
      have hrest := (List.mem_append.mp (hmet hreaches)).resolve_left ha
      obtain ⟨i, ⟨t, ht, hheld⟩, honly⟩ := hshares.once hp ha hrest
      refine ⟨i, ⟨t, ht, (hargs t (List.mem_of_getElem? ht)).mpr hheld⟩, ?_⟩
      rintro j ⟨u, hu, hholds⟩
      exact honly j ⟨u, hu, (hargs u (List.mem_of_getElem? hu)).mp hholds⟩

/-- Whatever is called with whatever, in any memory and any pool, the call costs its caller
nothing, and a batch spreads its resources over its tasks, exactly when it is harmless. -/
theorem call_costs_nothing (vm : VM) (heap : Heap) (fuel : Nat) (pool : Pool) (call : Call)
    (left : Left (List IsolateState)) (hrun : call.run vm fuel pool heap.memory = some left) :
    CostsNothing vm heap.memory pool call left ↔ Harmless vm heap.memory pool call := by
  cases Call.run_ends hrun with
  | refused hmemory hmeets hrefused =>
      rw [CostsNothing, untouched_iff hmemory hmeets]
      constructor
      · intro hnothing
        refine ⟨fun mets through hother _ => ?_, fun mets hother hopen => ?_⟩
        · obtain ⟨rfl, -⟩ := hother.unique hmeets
          exact hnothing
        · obtain ⟨-, rfl⟩ := hother.unique hmeets
          rw [hopen] at hrefused
          simp at hrefused
      · intro hharmless
        exact hharmless.refused _ _ hmeets hrefused
  | accepted hresult htasks hmeets hopen hgraph hshares =>
      have hcosts : CostsNothing vm heap.memory pool call left ↔ call.items.length = 1 ∨
          ∀ a, Reached vm heap.memory call.callee a → payload (heap.memory a) = none := by
        rw [CostsNothing, hresult, htasks]
        simp only [List.append_cancel_left_eq, exists_eq_left']
        exact one_task_iff hmeets hgraph hshares
      rw [hcosts]
      constructor
      · intro hone
        refine ⟨fun mets through hother hrefused => ?_, fun _ _ _ => hone⟩
        obtain ⟨-, rfl⟩ := hother.unique hmeets
        rw [hopen] at hrefused
        simp at hrefused
      · intro hharmless
        exact hharmless.accepted _ hmeets hopen

end Whole

/-- A socket, a file that cannot cross, a method bound to the socket and a list of it. -/
def desk : Heap where
  memory := fun a =>
    if a = 0 then .ptr "zuri::net::TcpStream" (some 7)
    else if a = 1 then .file
    else if a = 2 then .boundMethod (.obj 0) .nil
    else .list [.obj 0]
  owned := by
    have hsocket : ∀ a p, payload (if a = 0 then Obj.ptr "zuri::net::TcpStream" (some 7)
        else if a = 1 then .file else if a = 2 then .boundMethod (.obj 0) .nil
        else .list [.obj 0]) = some p → a = 0 := by
      intro a p hp
      by_contra ha
      rw [if_neg ha] at hp
      split at hp
      · cases hp
      · split at hp <;> cases hp
    intro a b p ha hb
    rw [hsocket a p ha, hsocket b p hb]

theorem call_costs_nothing_batch :
    CostsNothing noModules desk.memory ⟨false, [], 0⟩ (.spawnBatch .nil [.obj 3, .bool true])
        ((Call.run noModules 3 ⟨false, [], 0⟩ desk.memory
          (.spawnBatch .nil [.obj 3, .bool true])).get rfl) ↔
      Harmless noModules desk.memory ⟨false, [], 0⟩ (.spawnBatch .nil [.obj 3, .bool true]) :=
  call_costs_nothing noModules desk 3 ⟨false, [], 0⟩ _ _ rfl

theorem method_reaches_socket {call : Call} (h : call.callee = .obj 2) :
    call.Reaches noModules desk.memory 0 :=
  ⟨call.callee, List.mem_cons_self, 2, h, .single (List.mem_cons_of_mem _ List.mem_cons_self)⟩

/-- The desk once the socket is gone. -/
def cleared : Memory := fun a => if a = 0 then .ptr "<moved>" none else desk.memory a

def methodGraph : TransferGraph :=
  ⟨.ref 0, [.boundMethod (.ref 1) .nil, .ptr "zuri::net::TcpStream" (some 7)]⟩

def methodTask (arg : TransferValue) : Task := ⟨methodGraph, ⟨.ref 0, [.list [arg]]⟩, ⟨none⟩⟩

/-- A pool that is shutting down refuses the call after the socket has been taken, and a batch
of two gives a socket that its callee is bound to both of its tasks. -/
theorem socket_lost_and_shared :
    (∃ left, Call.run noModules 3 ⟨true, [], 0⟩ desk.memory (.spawn (.obj 2) (.obj 3) none) =
        some left ∧
      ¬CostsNothing noModules desk.memory ⟨true, [], 0⟩ (.spawn (.obj 2) (.obj 3) none) left) ∧
    ∃ left, Call.run noModules 3 ⟨false, [], 0⟩ desk.memory
        (.spawnBatch (.obj 2) [.nil, .bool true]) = some left ∧
      ¬CostsNothing noModules desk.memory ⟨false, [], 0⟩
        (.spawnBatch (.obj 2) [.nil, .bool true]) left := by
  constructor
  · refine ⟨_, rfl, fun hcosts => ?_⟩
    have hkept : Obj.ptr "<moved>" none = .ptr "zuri::net::TcpStream" (some 7) :=
      hcosts 0 (method_reaches_socket rfl)
    injection hkept with _ hpayload
    cases hpayload
  · refine ⟨⟨.ok [⟨none⟩, ⟨none⟩], cleared,
      ⟨false, [methodTask .nil, methodTask (.bool true)], 2⟩⟩, rfl, ?_⟩
    rintro ⟨tasks, rfl, hone⟩
    obtain ⟨i, -, honly⟩ := hone 0 7 (method_reaches_socket rfl) rfl
    have hfirst := honly 0 ⟨methodTask .nil, rfl, .inl List.mem_cons_self⟩
    have hsecond := honly 1 ⟨methodTask (.bool true), rfl, .inl List.mem_cons_self⟩
    omega

end Zuri.Spawn
