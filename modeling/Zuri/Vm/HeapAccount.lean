import Zuri.Float.Binary64
import Mathlib.Data.Nat.Size

/-!
The counters of the heap. Objects begin young; a minor collection moves those it reaches to the
old generation or keeps them young once more, and a full collection frees the old ones that are
not marked. An object is counted when it is allocated and again when it is promoted, and is taken
off with the size it has when it is freed, which may be another. A subtraction that would go below zero stops the model.
-/

namespace Zuri.Vm.HeapAccount

/-- An old object: its size now, and what it was counted with. -/
structure Old where
  size : Nat
  counted : Nat
deriving DecidableEq

/-- A dead slot is none. -/
structure Chunk where
  slots : List (Option Old)
  liveCount : Nat
deriving DecidableEq

/-- The program changes the size of an object. -/
def Chunk.resize (chunk : Chunk) (slot size : Nat) : Chunk :=
  { chunk with slots := chunk.slots.modify slot (Option.map fun o => { o with size := size }) }

/-- A box of the young generation. `aged` is set once it has survived. -/
structure Young where
  size : Nat
  aged : Bool
  forwarded : Bool
deriving DecidableEq

structure Heap where
  /-- A chunk that was given back is none. -/
  chunks : List (Option Chunk)
  /-- The chunks that may have room, the last pushed first. -/
  candidates : List Nat
  bytesAllocated : Nat
  liveAfterCollection : Nat
  youngCeiling : Nat
  youngFloor : Nat
  youngBudget : Nat
  youngOffset : Nat
  liveCount : Nat
  youngBytesAllocated : Nat
  oldLiveCount : Nat
  promotedCount : Nat
  promotedBytes : Nat
  young : List Young
  survivorNext : List Young
  survivorCount : Nat
  survivorBytes : Nat
  promoteAll : Bool
  aging : Bool
  firstCycle : Bool
  judgedSurvivors : Nat
  survivorsKept : Nat
  cyclesWithoutAging : Nat
  agingProbeInterval : Nat
  agingProbe : Bool
deriving DecidableEq

def chunkSize : Nat := 8192
def agingProbeMin : Nat := 8
def agingProbeMax : Nat := 1024

/-- A subtraction the code does not check. -/
def minus (a b : Nat) : Option Nat := if b ≤ a then some (a - b) else none

/-- The first dead slot of a chunk taken, if it has one. -/
def reuse (o : Old) : List (Option Old) → Option (List (Option Old))
  | [] => none
  | none :: slots => some (some o :: slots)
  | some x :: slots => (reuse o slots).map (some x :: ·)

/-- The chunks with one more object, and the candidates left. -/
def promoteAmong (chunks : List (Option Chunk)) (o : Old) :
    List Nat → List (Option Chunk) × List Nat
  | [] => (chunks ++ [some ⟨[some o], 1⟩], [chunks.length])
  | idx :: rest =>
      match chunks[idx]? with
      | some (some chunk) =>
          match reuse o chunk.slots with
          | some slots => (chunks.set idx (some ⟨slots, chunk.liveCount + 1⟩), idx :: rest)
          | none =>
              if chunk.slots.length < chunkSize then
                (chunks.set idx (some ⟨chunk.slots ++ [some o], chunk.liveCount + 1⟩),
                  idx :: rest)
              else promoteAmong chunks o rest
      | _ => promoteAmong chunks o rest

/-- A chunk after its sweep, with the bytes left, what is live in it and what was freed. -/
structure Swept where
  slots : List (Option Old)
  bytes : Nat
  live : Nat
  freed : Nat

def sweepSlots (marked : Nat → Bool) : List (Option Old) → Nat → Nat → Option Swept
  | [], bytes, live => some ⟨[], bytes, live, 0⟩
  | none :: slots, bytes, live => do
      let r ← sweepSlots (fun k => marked (k + 1)) slots bytes live
      some { r with slots := none :: r.slots }
  | some o :: slots, bytes, live =>
      if marked 0 then do
        let r ← sweepSlots (fun k => marked (k + 1)) slots bytes live
        some { r with slots := some o :: r.slots }
      else do
        let live ← minus live 1
        -- This one subtraction saturates.
        let r ← sweepSlots (fun k => marked (k + 1)) slots (bytes - o.size) live
        some { r with slots := none :: r.slots, freed := r.freed + 1 }

structure SweptAll where
  chunks : List (Option Chunk)
  bytes : Nat
  freed : Nat
  reusable : List Nat

def sweepChunks (marked : Nat → Nat → Bool) :
    List (Option Chunk) → Nat → Nat → Option SweptAll
  | [], _, bytes => some ⟨[], bytes, 0, []⟩
  | none :: chunks, idx, bytes => do
      let r ← sweepChunks (fun k => marked (k + 1)) chunks (idx + 1) bytes
      some { r with chunks := none :: r.chunks }
  | some chunk :: chunks, idx, bytes => do
      let hadCapacity := chunk.slots.any Option.isNone || decide (chunk.slots.length < chunkSize)
      let s ← sweepSlots (marked 0) chunk.slots bytes chunk.liveCount
      let r ← sweepChunks (fun k => marked (k + 1)) chunks (idx + 1) s.bytes
      let r := { r with freed := s.freed + r.freed }
      if s.live = 0 then some { r with chunks := none :: r.chunks }
      else if !hadCapacity && s.slots.any Option.isNone then
        some { r with
          chunks := some ⟨s.slots, s.live⟩ :: r.chunks, reusable := idx :: r.reusable }
      else some { r with chunks := some ⟨s.slots, s.live⟩ :: r.chunks }

/-- `f64::max` with zero. -/
def maxZero (x : F64) : F64 := if F64.zero.lt x then x else F64.zero

/-- `as usize`: toward zero and saturating. -/
def asUsize (x : F64) : Nat :=
  match x.num with
  | .nan => 0
  | .inf neg => if neg then 0 else 2 ^ 64 - 1
  | .fin neg mag => if neg then 0 else min (2 ^ 64 - 1) (mag / F64.one)

def nextPowerOfTwo (n : Nat) : Nat :=
  if n ≤ 2 ^ 63 then Nat.nextPowerOfTwo n else 2 ^ 64 - 1

/-- `clamp`, which has no answer for bounds the wrong way round. -/
def clamp (n lo hi : Nat) : Option Nat := if lo ≤ hi then some (max lo (min n hi)) else none

def holdCollected : F64 := ⟨0x3fe0000000000000#64⟩

namespace Heap

/-- A heap with nothing in it. -/
def withYoungCeiling (floor ceiling : Nat) : Heap where
  chunks := []
  candidates := []
  bytesAllocated := 0
  liveAfterCollection := 0
  youngCeiling := max ceiling floor
  youngFloor := floor
  youngBudget := floor
  youngOffset := max ceiling floor - floor
  liveCount := 0
  youngBytesAllocated := max ceiling floor - floor
  oldLiveCount := 0
  promotedCount := 0
  promotedBytes := 0
  young := []
  survivorNext := []
  survivorCount := 0
  survivorBytes := 0
  promoteAll := false
  aging := false
  firstCycle := true
  judgedSurvivors := 0
  survivorsKept := 0
  cyclesWithoutAging := 0
  agingProbeInterval := agingProbeMin
  agingProbe := false

variable (h : Heap)

def keepsSurvivors : Bool := (h.aging || h.firstCycle) && !h.promoteAll

def youngBytes : Option Nat := minus h.youngBytesAllocated h.youngOffset

def oldBytesAllocated : Option Nat := do minus h.bytesAllocated (← h.youngBytes)

/-- What the interpreter does to allocate, and compiled code by itself. -/
def alloc (size : Nat) : Heap :=
  { h with
    bytesAllocated := h.bytesAllocated + size
    youngBytesAllocated := h.youngBytesAllocated + size
    liveCount := h.liveCount + 1
    young := h.young ++ [⟨size, false, false⟩] }

/-- Bytes a rope adds to its tail. -/
def addTail (added : Nat) : Heap :=
  { h with
    bytesAllocated := h.bytesAllocated + added
    youngBytesAllocated := h.youngBytesAllocated + added }

def promoteIntoOld (bytes : Nat) : Heap :=
  let r := promoteAmong h.chunks ⟨bytes, bytes⟩ h.candidates
  { h with chunks := r.1, candidates := r.2 }

def allocOld (size : Nat) : Heap :=
  { h with
    bytesAllocated := h.bytesAllocated + size
    liveCount := h.liveCount + 1
    oldLiveCount := h.oldLiveCount + 1 }.promoteIntoOld size

/-- The program changes the size of a young object. -/
def growYoung (i size : Nat) : Heap :=
  { h with young := h.young.modify i fun y => { y with size := size } }

/-- The program changes the size of an old object. -/
def growOld (idx slot size : Nat) : Heap :=
  { h with
    chunks := h.chunks.modify idx (Option.map fun chunk => chunk.resize slot size) }

/-- `forward_young`. -/
def forward (i : Nat) : Heap :=
  match h.young[i]? with
  | none => h
  | some y =>
      if y.forwarded then h
      else
        let promotes := !h.keepsSurvivors || y.aged
        let h := { h with
          survivorsKept := if y.aged then h.survivorsKept + 1 else h.survivorsKept
          young := h.young.set i { y with forwarded := true } }
        if promotes then
          { h with
            promotedCount := h.promotedCount + 1
            promotedBytes := h.promotedBytes + y.size }.promoteIntoOld y.size
        else
          { h with
            survivorCount := h.survivorCount + 1
            survivorBytes := h.survivorBytes + y.size
            survivorNext := h.survivorNext ++ [⟨y.size, true, false⟩] }

def resizeYoung (youngObjects : Nat) (slow : Bool) : Option Heap :=
  if youngObjects = 0 then some h
  else do
    let survived :=
      (F64.ofInt (h.promotedCount + h.survivorCount : Nat)).div (F64.ofInt youngObjects)
    let collected := maxZero ((F64.ofInt 1).sub survived)
    let budget ←
      if collected.lt holdCollected then
        let grown :=
          if F64.zero.lt collected then
            (F64.ofInt h.youngBudget).mul (holdCollected.div collected)
          else F64.ofInt h.youngCeiling
        clamp (nextPowerOfTwo (asUsize grown)) h.youngBudget h.youngCeiling
      else if slow then some (max (h.youngBudget / 2) h.youngFloor)
      else some h.youngBudget
    let offset ← minus h.youngCeiling budget
    some { h with youngBudget := budget, youngOffset := offset }

def decideAging : Heap :=
  let h :=
    if 0 < h.judgedSurvivors then
      let aging := decide (h.survivorsKept * 2 < h.judgedSurvivors)
      { h with
        aging := aging
        agingProbeInterval :=
          if aging then agingProbeMin
          else if h.agingProbe then min (h.agingProbeInterval * 2) agingProbeMax
          else h.agingProbeInterval
        agingProbe := false
        cyclesWithoutAging := 0 }
    else if !h.aging then
      if h.agingProbeInterval ≤ h.cyclesWithoutAging + 1 then
        { h with aging := true, agingProbe := true, cyclesWithoutAging := 0 }
      else { h with cyclesWithoutAging := h.cyclesWithoutAging + 1 }
    else h
  { h with judgedSurvivors := h.survivorCount, survivorsKept := 0 }

/-- The old generation with what was promoted, and the survivors as the young one. `kept` is
the bytes that were old. -/
def settled (kept : Nat) : Heap :=
  { h with
    young := h.survivorNext
    survivorNext := []
    bytesAllocated := kept + h.promotedBytes + h.survivorBytes
    oldLiveCount := h.oldLiveCount + h.promotedCount
    liveCount := h.oldLiveCount + h.promotedCount + h.survivorCount }

/-- A collection that promotes everything says nothing about the budget. -/
def nextBudget (youngObjects : Nat) (slow : Bool) : Option Heap :=
  if h.promoteAll then some h else h.resizeYoung youngObjects slow

/-- The next cycle begins with the survivors. -/
def beginCycle : Heap :=
  let h := { h with youngBytesAllocated := h.youngOffset + h.survivorBytes }.decideAging
  let h :=
    if h.firstCycle && !h.promoteAll then { h with judgedSurvivors := 0, firstCycle := false }
    else h
  { h with promotedBytes := 0, promotedCount := 0, survivorBytes := 0, survivorCount := 0 }

/-- The counters after a minor collection. `slow` says that the cycle took long to fill. -/
def resetNursery (slow : Bool) : Option Heap := do
  let youngBytes ← h.youngBytes
  let youngObjects ← minus h.liveCount h.oldLiveCount
  let kept ← minus h.bytesAllocated youngBytes
  let h ← (h.settled kept).nextBudget youngObjects slow
  some h.beginCycle

/-- A minor collection that comes to the young objects in the order given. -/
def collectMinor (reached : List Nat) (slow : Bool) : Option Heap :=
  (reached.foldl forward h).resetNursery slow

def collectMinorPromotingAll (reached : List Nat) (slow : Bool) : Option Heap := do
  let h ← { h with promoteAll := true }.collectMinor reached slow
  some { h with promoteAll := false }

def sweep (marked : Nat → Nat → Bool) : Option Heap := do
  let r ← sweepChunks marked h.chunks 0 h.bytesAllocated
  let live ← minus h.liveCount r.freed
  let old ← minus h.oldLiveCount r.freed
  let h := { h with
    chunks := r.chunks
    candidates := r.reusable.reverse ++ h.candidates
    bytesAllocated := r.bytes
    liveCount := live
    oldLiveCount := old
    liveAfterCollection := r.bytes }
  -- The next threshold is worked out from this.
  let _ ← h.oldBytesAllocated
  some h

def collectGarbage (reached : List Nat) (slow : Bool) (marked : Nat → Nat → Bool) :
    Option Heap := do
  let h ← h.collectMinorPromotingAll reached slow
  h.sweep marked

def shedYoung : Option Heap := do
  let offset ← minus h.youngCeiling h.youngFloor
  some { h with
    youngBudget := h.youngFloor, youngOffset := offset, youngBytesAllocated := offset }

end Heap

/-- What the machine does with its heap. -/
inductive HeapOp where
  | alloc (size : Nat)
  | addTail (added : Nat)
  | allocOld (size : Nat)
  | growYoung (i size : Nat)
  | growOld (idx slot size : Nat)
  | collectMinor (reached : List Nat) (slow : Bool)
  | collectMinorPromotingAll (reached : List Nat) (slow : Bool)
  | collectGarbage (reached : List Nat) (slow : Bool) (marked : Nat → Nat → Bool)
  | releaseMemory (reached : List Nat) (slow : Bool) (marked : Nat → Nat → Bool)

def HeapOp.run (h : Heap) : HeapOp → Option Heap
  | alloc size => some (h.alloc size)
  | addTail added => some (h.addTail added)
  | allocOld size => some (h.allocOld size)
  | growYoung i size => some (h.growYoung i size)
  | growOld idx slot size => some (h.growOld idx slot size)
  | collectMinor reached slow => h.collectMinor reached slow
  | collectMinorPromotingAll reached slow => h.collectMinorPromotingAll reached slow
  | collectGarbage reached slow marked => h.collectGarbage reached slow marked
  | releaseMemory reached slow marked => do
      let h ← h.collectGarbage reached slow marked
      h.shedYoung

def runAll : List HeapOp → Heap → Option Heap
  | [], h => some h
  | op :: ops, h => do
      let h ← op.run h
      runAll ops h

def sumSlots (g : Old → Nat) : List (Option Old) → Nat
  | [] => 0
  | none :: slots => sumSlots g slots
  | some o :: slots => g o + sumSlots g slots

def sumChunks (g : Chunk → Nat) : List (Option Chunk) → Nat
  | [] => 0
  | none :: chunks => sumChunks g chunks
  | some chunk :: chunks => g chunk + sumChunks g chunks

/-- The objects in a chunk. -/
def Chunk.objects (chunk : Chunk) : Nat := sumSlots (fun _ => 1) chunk.slots

/-- What the objects in a chunk were counted with at their promotion. -/
def Chunk.counted (chunk : Chunk) : Nat := sumSlots Old.counted chunk.slots

/-- The counters of the heap agree with each other and with what is in it. -/
structure Consistent (h : Heap) : Prop where
  offset : h.youngOffset ≤ h.youngBytesAllocated
  young : h.youngBytesAllocated - h.youngOffset ≤ h.bytesAllocated
  live : h.liveCount = h.oldLiveCount + h.young.length
  old : h.oldLiveCount = sumChunks Chunk.liveCount h.chunks
  exact : ∀ chunk, some chunk ∈ h.chunks → chunk.liveCount = chunk.objects
  ceiling : h.youngOffset + h.youngBudget = h.youngCeiling
  floor : h.youngFloor ≤ h.youngBudget
  budget : h.youngBudget ≤ h.youngCeiling

/-- The bytes are at least what the old objects were counted with. -/
def Covered (h : Heap) : Prop := sumChunks Chunk.counted h.chunks ≤ h.bytesAllocated

/-- No object that a sweep frees has grown since its promotion. -/
def Steady (marked : Nat → Nat → Bool) (chunks : List (Option Chunk)) : Prop :=
  ∀ (i : Nat) (chunk : Chunk) (k : Nat) (o : Old), chunks[i]? = some (some chunk) →
    chunk.slots[k]? = some (some o) → marked i k = false → o.size ≤ o.counted

def HeapOp.Steady (h : Heap) : HeapOp → Prop
  | collectGarbage reached slow marked | releaseMemory reached slow marked =>
      ∀ t, h.collectMinorPromotingAll reached slow = some t → HeapAccount.Steady marked t.chunks
  | _ => True

/-- Every sweep of a run frees only objects that have not grown since their promotion. -/
def SteadyRun : List HeapOp → Heap → Prop
  | [], _ => True
  | op :: ops, h => op.Steady h ∧ ∀ t, op.run h = some t → SteadyRun ops t

section Sums

theorem sumSlots_reuse (g : Old → Nat) {o : Old} {slots used : List (Option Old)}
    (h : reuse o slots = some used) : sumSlots g used = sumSlots g slots + g o := by
  induction slots generalizing used with
  | nil => exact nomatch h
  | cons slot slots ih =>
      cases slot with
      | none =>
          obtain rfl := Option.some.inj h
          simp only [sumSlots]
          omega
      | some x =>
          simp only [reuse, Option.map_eq_some_iff] at h
          obtain ⟨rest, hrest, rfl⟩ := h
          simp only [sumSlots, ih hrest]
          omega

theorem sumSlots_append (g : Old → Nat) (slots : List (Option Old)) (o : Old) :
    sumSlots g (slots ++ [some o]) = sumSlots g slots + g o := by
  induction slots with
  | nil => simp only [List.nil_append, sumSlots]; omega
  | cons slot slots ih =>
      cases slot with
      | none => exact ih
      | some x =>
          simp only [List.cons_append, sumSlots, ih]
          omega

theorem sumSlots_modify (g : Old → Nat) {u : Old → Old} (hu : ∀ o, g (u o) = g o)
    (slots : List (Option Old)) (i : Nat) :
    sumSlots g (slots.modify i (Option.map u)) = sumSlots g slots := by
  induction slots generalizing i with
  | nil => rw [List.modify_nil]
  | cons slot slots ih =>
      cases i with
      | zero =>
          cases slot with
          | none => rfl
          | some o => simp only [List.modify_zero_cons, Option.map_some, sumSlots, hu]
      | succ i =>
          cases slot with
          | none => exact ih i
          | some o => simp only [List.modify_succ_cons, sumSlots, ih i]

/-- Without an object there is nothing to sum. -/
theorem sumSlots_none (g : Old → Nat) {slots : List (Option Old)}
    (h : sumSlots (fun _ => 1) slots = 0) : sumSlots g slots = 0 := by
  induction slots with
  | nil => rfl
  | cons slot slots ih =>
      cases slot with
      | none => exact ih h
      | some o =>
          simp only [sumSlots] at h
          omega

theorem sumChunks_set (g : Chunk → Nat) {chunks : List (Option Chunk)} {i : Nat} {chunk : Chunk}
    (h : chunks[i]? = some (some chunk)) (after : Chunk) :
    sumChunks g (chunks.set i (some after)) + g chunk = sumChunks g chunks + g after := by
  induction chunks generalizing i with
  | nil => exact nomatch h
  | cons first chunks ih =>
      cases i with
      | zero =>
          obtain rfl := Option.some.inj h
          simp only [List.set_cons_zero, sumChunks]
          omega
      | succ i =>
          have hrest := ih h
          cases first with
          | none => exact hrest
          | some x =>
              simp only [List.set_cons_succ, sumChunks]
              omega

theorem sumChunks_append (g : Chunk → Nat) (chunks : List (Option Chunk)) (chunk : Chunk) :
    sumChunks g (chunks ++ [some chunk]) = sumChunks g chunks + g chunk := by
  induction chunks with
  | nil => simp only [List.nil_append, sumChunks]; omega
  | cons first chunks ih =>
      cases first with
      | none => exact ih
      | some x =>
          simp only [List.cons_append, sumChunks, ih]
          omega

theorem sumChunks_modify (g : Chunk → Nat) {u : Chunk → Chunk} (hu : ∀ c, g (u c) = g c)
    (chunks : List (Option Chunk)) (i : Nat) :
    sumChunks g (chunks.modify i (Option.map u)) = sumChunks g chunks := by
  induction chunks generalizing i with
  | nil => rw [List.modify_nil]
  | cons first chunks ih =>
      cases i with
      | zero =>
          cases first with
          | none => rfl
          | some c => simp only [List.modify_zero_cons, Option.map_some, sumChunks, hu]
      | succ i =>
          cases first with
          | none => exact ih i
          | some c => simp only [List.modify_succ_cons, sumChunks, ih i]

/-- The live count of every chunk is the number of its objects. -/
def Exact (chunks : List (Option Chunk)) : Prop :=
  ∀ chunk, some chunk ∈ chunks → chunk.liveCount = chunk.objects

theorem Exact.set {chunks : List (Option Chunk)} (h : Exact chunks) (i : Nat) {after : Chunk}
    (hafter : after.liveCount = after.objects) : Exact (chunks.set i (some after)) := by
  intro chunk hmem
  obtain hold | heq := List.mem_or_eq_of_mem_set hmem
  · exact h chunk hold
  · obtain rfl := Option.some.inj heq
    exact hafter

theorem promoteAmong_spec {chunks : List (Option Chunk)} (h : Exact chunks) (o : Old)
    (candidates : List Nat) :
    Exact (promoteAmong chunks o candidates).1 ∧
    sumChunks Chunk.liveCount (promoteAmong chunks o candidates).1 =
      sumChunks Chunk.liveCount chunks + 1 ∧
    sumChunks Chunk.counted (promoteAmong chunks o candidates).1 =
      sumChunks Chunk.counted chunks + o.counted := by
  induction candidates with
  | nil =>
      refine ⟨fun chunk hmem => ?_, sumChunks_append _ _ _, sumChunks_append _ _ _⟩
      rcases List.mem_append.mp hmem with hold | hnew
      · exact h chunk hold
      · obtain rfl := Option.some.inj (List.mem_singleton.mp hnew)
        rfl
  | cons idx rest ih =>
      rw [promoteAmong]
      cases hidx : chunks[idx]? with
      | none => exact ih
      | some slot =>
          cases slot with
          | none => exact ih
          | some chunk =>
              have hexact := h chunk (List.mem_of_getElem? hidx)
              -- A chunk with the object in it, wherever it went.
              have hplaced : ∀ slots, (∀ g, sumSlots g slots = sumSlots g chunk.slots + g o) →
                  Exact (chunks.set idx (some ⟨slots, chunk.liveCount + 1⟩)) ∧
                  sumChunks Chunk.liveCount (chunks.set idx (some ⟨slots, chunk.liveCount + 1⟩)) =
                    sumChunks Chunk.liveCount chunks + 1 ∧
                  sumChunks Chunk.counted (chunks.set idx (some ⟨slots, chunk.liveCount + 1⟩)) =
                    sumChunks Chunk.counted chunks + o.counted := by
                intro slots hslots
                have hlive := sumChunks_set Chunk.liveCount hidx ⟨slots, chunk.liveCount + 1⟩
                have hcounted := sumChunks_set Chunk.counted hidx ⟨slots, chunk.liveCount + 1⟩
                have hmore : Chunk.counted ⟨slots, chunk.liveCount + 1⟩ =
                    chunk.counted + o.counted := hslots Old.counted
                rw [hmore] at hcounted
                refine ⟨h.set idx ?_, by simp only at hlive; omega, by omega⟩
                have hobjects : Chunk.objects ⟨slots, chunk.liveCount + 1⟩ = chunk.objects + 1 :=
                  hslots fun _ => 1
                rw [hobjects, ← hexact]
              simp only
              cases hreuse : reuse o chunk.slots with
              | some slots => exact hplaced slots fun g => sumSlots_reuse g hreuse
              | none =>
                  simp only
                  split
                  · exact hplaced _ fun g => sumSlots_append g chunk.slots o
                  · exact ih

theorem minus_of_le {a b : Nat} (h : b ≤ a) : minus a b = some (a - b) := if_pos h

/-- A sweep frees from a chunk what it counts, and takes no more bytes for an object than it was
counted with. -/
theorem sweepSlots_spec (slots : List (Option Old)) (marked : Nat → Bool) (bytes live : Nat)
    (hlive : sumSlots (fun _ => 1) slots ≤ live) :
    ∃ r, sweepSlots marked slots bytes live = some r ∧ r.live + r.freed = live ∧
      sumSlots (fun _ => 1) r.slots + r.freed = sumSlots (fun _ => 1) slots ∧
      ((∀ (k : Nat) (o : Old), slots[k]? = some (some o) → marked k = false →
          o.size ≤ o.counted) →
        ∀ more, sumSlots Old.counted slots + more ≤ bytes →
          sumSlots Old.counted r.slots + more ≤ r.bytes) := by
  induction slots generalizing marked bytes live with
  | nil => exact ⟨_, rfl, rfl, rfl, fun _ _ h => h⟩
  | cons slot slots ih =>
      cases slot with
      | none =>
          obtain ⟨r, hr, hcount, hfreed, hpaid⟩ := ih (fun k => marked (k + 1)) bytes live hlive
          refine ⟨{ r with slots := none :: r.slots }, ?_, hcount, hfreed,
            fun hsteady => hpaid fun k => hsteady (k + 1)⟩
          rw [sweepSlots, hr]
          rfl
      | some o =>
          simp only [sumSlots] at hlive
          by_cases hmark : marked 0 = true
          · obtain ⟨r, hr, hcount, hfreed, hpaid⟩ := ih (fun k => marked (k + 1))
              bytes live (by omega)
            refine ⟨{ r with slots := some o :: r.slots }, ?_, hcount, ?_, ?_⟩
            · rw [sweepSlots, if_pos hmark, hr]
              rfl
            · simp only [sumSlots]
              omega
            · intro hsteady more hbytes
              simp only [sumSlots] at hbytes ⊢
              have h := hpaid (fun k => hsteady (k + 1)) (o.counted + more) (by omega)
              omega
          · obtain ⟨r, hr, hcount, hfreed, hpaid⟩ := ih (fun k => marked (k + 1))
              (bytes - o.size) (live - 1) (by omega)
            refine ⟨{ r with slots := none :: r.slots, freed := r.freed + 1 }, ?_, ?_, ?_, ?_⟩
            · rw [sweepSlots, if_neg hmark, minus_of_le (by omega), Option.bind_eq_bind,
                Option.bind_some, hr]
              rfl
            · simp only
              omega
            · simp only [sumSlots]
              omega
            · intro hsteady more hbytes
              have hsize := hsteady 0 o rfl (Bool.eq_false_iff.mpr hmark)
              simp only [sumSlots] at hbytes ⊢
              exact hpaid (fun k => hsteady (k + 1)) more (by omega)

theorem sweepChunks_spec (chunks : List (Option Chunk)) (h : Exact chunks)
    (marked : Nat → Nat → Bool) (idx bytes : Nat) :
    ∃ r, sweepChunks marked chunks idx bytes = some r ∧ Exact r.chunks ∧
      sumChunks Chunk.liveCount r.chunks + r.freed = sumChunks Chunk.liveCount chunks ∧
      (Steady marked chunks → ∀ more, sumChunks Chunk.counted chunks + more ≤ bytes →
        sumChunks Chunk.counted r.chunks + more ≤ r.bytes) := by
  induction chunks generalizing marked idx bytes with
  | nil => exact ⟨_, rfl, (fun _ h => nomatch h), rfl, fun _ _ h => h⟩
  | cons first chunks ih =>
      have hrest : Exact chunks := fun chunk hmem => h chunk (List.mem_cons_of_mem _ hmem)
      cases first with
      | none =>
          obtain ⟨r, hr, hexact, hfreed, hpaid⟩ :=
            ih hrest (fun k => marked (k + 1)) (idx + 1) bytes
          refine ⟨{ r with chunks := none :: r.chunks }, ?_, fun chunk hmem => ?_, hfreed, ?_⟩
          · rw [sweepChunks, hr]
            rfl
          · exact hexact chunk ((List.mem_cons.mp hmem).resolve_left nofun)
          · exact fun hsteady => hpaid fun i => hsteady (i + 1)
      | some chunk =>
          have hcounts := h chunk List.mem_cons_self
          obtain ⟨s, hs, hlive, hslots, hspaid⟩ := sweepSlots_spec chunk.slots (marked 0)
            bytes chunk.liveCount (Nat.le_of_eq hcounts.symm)
          obtain ⟨r, hr, hexact, hfreed, hpaid⟩ :=
            ih hrest (fun k => marked (k + 1)) (idx + 1) s.bytes
          have hleft : s.live = sumSlots (fun _ => 1) s.slots := by
            unfold Chunk.objects at hcounts
            omega
          have hbytes : Steady marked (some chunk :: chunks) → ∀ more,
              chunk.counted + sumChunks Chunk.counted chunks + more ≤ bytes →
              sumSlots Old.counted s.slots + sumChunks Chunk.counted r.chunks + more ≤ r.bytes := by
            intro hsteady more hle
            have hfirst := hspaid (fun k o => hsteady 0 chunk k o rfl)
              (sumChunks Chunk.counted chunks + more) (by
                unfold Chunk.counted at hle ⊢
                omega)
            have hothers := hpaid (fun i => hsteady (i + 1))
              (sumSlots Old.counted s.slots + more) (by omega)
            omega
          by_cases hzero : s.live = 0
          · refine ⟨{ r with chunks := none :: r.chunks, freed := s.freed + r.freed }, ?_,
              fun chunk hmem => ?_, ?_, ?_⟩
            · simp only [sweepChunks, hs, hr, bind, Option.bind, if_pos hzero]
            · exact hexact chunk ((List.mem_cons.mp hmem).resolve_left nofun)
            · simp only [sumChunks]
              omega
            · intro hsteady more hle
              have hgone := sumSlots_none Old.counted (hleft.symm.trans hzero)
              have hsum := hbytes hsteady more hle
              simp only [sumChunks]
              omega
          · have hkept : Exact (some ⟨s.slots, s.live⟩ :: r.chunks) := by
              intro chunk hmem
              rcases List.mem_cons.mp hmem with heq | hmem
              · obtain rfl := Option.some.inj heq
                exact hleft
              · exact hexact chunk hmem
            have hsum : sumChunks Chunk.liveCount (some ⟨s.slots, s.live⟩ :: r.chunks) +
                (s.freed + r.freed) = sumChunks Chunk.liveCount (some chunk :: chunks) := by
              simp only [sumChunks]
              omega
            by_cases hreusable : (!(chunk.slots.any Option.isNone ||
                decide (chunk.slots.length < chunkSize)) && s.slots.any Option.isNone) = true
            · refine ⟨{ r with
                chunks := some ⟨s.slots, s.live⟩ :: r.chunks
                freed := s.freed + r.freed
                reusable := idx :: r.reusable }, ?_, hkept, hsum, hbytes⟩
              simp only [sweepChunks, hs, hr, bind, Option.bind, if_neg hzero, if_pos hreusable]
            · refine ⟨{ r with
                chunks := some ⟨s.slots, s.live⟩ :: r.chunks
                freed := s.freed + r.freed }, ?_, hkept, hsum, hbytes⟩
              simp only [sweepChunks, hs, hr, bind, Option.bind, if_neg hzero, if_neg hreusable]

end Sums

/-- The counters of a heap, a collection that is under way included: what it has promoted is
not yet among the old objects. -/
structure Books (h : Heap) : Prop where
  offset : h.youngOffset ≤ h.youngBytesAllocated
  young : h.youngBytesAllocated - h.youngOffset ≤ h.bytesAllocated
  live : h.liveCount = h.oldLiveCount + h.young.length
  old : sumChunks Chunk.liveCount h.chunks = h.oldLiveCount + h.promotedCount
  exact : Exact h.chunks
  ceiling : h.youngOffset + h.youngBudget = h.youngCeiling
  floor : h.youngFloor ≤ h.youngBudget
  survivors : h.survivorCount = h.survivorNext.length

/-- No collection is under way. -/
structure AtRest (h : Heap) : Prop where
  promotedCount : h.promotedCount = 0
  promotedBytes : h.promotedBytes = 0
  survivorNext : h.survivorNext = []
  survivorCount : h.survivorCount = 0
  survivorBytes : h.survivorBytes = 0
  promoteAll : h.promoteAll = false

/-- The bytes and what has been promoted pay for the old objects and the young bytes. -/
def Paid (h : Heap) : Prop :=
  sumChunks Chunk.counted h.chunks + (h.youngBytesAllocated - h.youngOffset) ≤
    h.bytesAllocated + h.promotedBytes

namespace Books

variable {h : Heap}

theorem consistent (hb : Books h) (hr : AtRest h) : Consistent h where
  offset := hb.offset
  young := hb.young
  live := hb.live
  old := by
    have hold := hb.old
    rw [hr.promotedCount] at hold
    omega
  exact := hb.exact
  ceiling := hb.ceiling
  floor := hb.floor
  budget := hb.ceiling ▸ Nat.le_add_left _ _

theorem alloc (hb : Books h) (size : Nat) : Books (h.alloc size) where
  offset := Nat.le_trans hb.offset (Nat.le_add_right _ _)
  young := by
    have hyoung := hb.young
    simp only [Heap.alloc]
    omega
  live := by
    have hlive := hb.live
    simp only [Heap.alloc, List.length_append, List.length_singleton]
    omega
  old := hb.old
  exact := hb.exact
  ceiling := hb.ceiling
  floor := hb.floor
  survivors := hb.survivors

theorem addTail (hb : Books h) (added : Nat) : Books (h.addTail added) where
  offset := Nat.le_trans hb.offset (Nat.le_add_right _ _)
  young := by
    have hyoung := hb.young
    simp only [Heap.addTail]
    omega
  live := hb.live
  old := hb.old
  exact := hb.exact
  ceiling := hb.ceiling
  floor := hb.floor
  survivors := hb.survivors

theorem allocOld (hb : Books h) (size : Nat) : Books (h.allocOld size) := by
  obtain ⟨hexact, hlive, -⟩ := promoteAmong_spec hb.exact ⟨size, size⟩ h.candidates
  have hold := hb.old
  have hcount := hb.live
  have hyoung := hb.young
  exact {
    offset := hb.offset
    young := by
      simp only [Heap.allocOld, Heap.promoteIntoOld]
      omega
    live := by
      simp only [Heap.allocOld, Heap.promoteIntoOld]
      omega
    old := by
      simp only [Heap.allocOld, Heap.promoteIntoOld]
      omega
    exact := hexact
    ceiling := hb.ceiling
    floor := hb.floor
    survivors := hb.survivors }

theorem growYoung (hb : Books h) (i size : Nat) : Books (h.growYoung i size) where
  offset := hb.offset
  young := hb.young
  live := by
    rw [Heap.growYoung, List.length_modify]
    exact hb.live
  old := hb.old
  exact := hb.exact
  ceiling := hb.ceiling
  floor := hb.floor
  survivors := hb.survivors

theorem growOld (hb : Books h) (idx slot size : Nat) : Books (h.growOld idx slot size) where
  offset := hb.offset
  young := hb.young
  live := hb.live
  old := (sumChunks_modify Chunk.liveCount (u := fun chunk => chunk.resize slot size)
    (fun _ => rfl) h.chunks idx).trans hb.old
  exact := by
    intro chunk hmem
    obtain ⟨j, hj⟩ := List.getElem?_of_mem hmem
    rw [Heap.growOld, List.getElem?_modify] at hj
    obtain ⟨first, hfirst, hmade⟩ := Option.map_eq_some_iff.mp hj
    by_cases hidx : idx = j
    · rw [if_pos hidx] at hmade
      obtain ⟨before, rfl, rfl⟩ := Option.map_eq_some_iff.mp hmade
      have hbefore := hb.exact before (List.mem_of_getElem? hfirst)
      exact hbefore.trans (sumSlots_modify (fun _ => 1) (u := fun o => { o with size := size })
        (fun _ => rfl) before.slots slot).symm
    · rw [if_neg hidx] at hmade
      exact hb.exact chunk (List.mem_of_getElem? (hmade ▸ hfirst))
  ceiling := hb.ceiling
  floor := hb.floor
  survivors := hb.survivors

theorem forward (hb : Books h) (i : Nat) : Books (h.forward i) := by
  unfold Heap.forward
  cases hy : h.young[i]? with
  | none => exact hb
  | some y =>
      simp only
      split
      · exact hb
      · have hlive : h.liveCount =
            h.oldLiveCount + (h.young.set i { y with forwarded := true }).length := by
          rw [List.length_set]
          exact hb.live
        split
        · obtain ⟨hexact, hcount, -⟩ := promoteAmong_spec hb.exact ⟨y.size, y.size⟩ h.candidates
          exact {
            offset := hb.offset
            young := hb.young
            live := hlive
            old := by
              have hold := hb.old
              simp only [Heap.promoteIntoOld]
              omega
            exact := hexact
            ceiling := hb.ceiling
            floor := hb.floor
            survivors := hb.survivors }
        · exact {
            offset := hb.offset
            young := hb.young
            live := hlive
            old := hb.old
            exact := hb.exact
            ceiling := hb.ceiling
            floor := hb.floor
            survivors := by
              rw [List.length_append, List.length_singleton]
              exact congrArg (· + 1) hb.survivors }

end Books

namespace Paid

variable {h : Heap}

theorem covered (hp : Paid h) (hr : AtRest h) : Covered h := by
  unfold Paid at hp
  rw [hr.promotedBytes] at hp
  unfold Covered
  omega

theorem alloc (hp : Paid h) (hb : Books h) (size : Nat) : Paid (h.alloc size) := by
  have hoffset := hb.offset
  unfold Paid at hp ⊢
  simp only [Heap.alloc]
  omega

theorem addTail (hp : Paid h) (hb : Books h) (added : Nat) : Paid (h.addTail added) := by
  have hoffset := hb.offset
  unfold Paid at hp ⊢
  simp only [Heap.addTail]
  omega

theorem allocOld (hp : Paid h) (hb : Books h) (size : Nat) : Paid (h.allocOld size) := by
  obtain ⟨-, -, hcounted⟩ := promoteAmong_spec hb.exact ⟨size, size⟩ h.candidates
  unfold Paid at hp ⊢
  simp only [Heap.allocOld, Heap.promoteIntoOld] at hcounted ⊢
  omega

theorem growOld (hp : Paid h) (idx slot size : Nat) : Paid (h.growOld idx slot size) := by
  have hsame := sumChunks_modify Chunk.counted (u := fun chunk => chunk.resize slot size)
    (fun chunk => sumSlots_modify Old.counted (u := fun o => { o with size := size })
      (fun _ => rfl) chunk.slots slot) h.chunks idx
  unfold Paid at hp ⊢
  simp only [Heap.growOld] at hsame ⊢
  omega

theorem forward (hp : Paid h) (hb : Books h) (i : Nat) : Paid (h.forward i) := by
  unfold Heap.forward
  cases hy : h.young[i]? with
  | none => exact hp
  | some y =>
      simp only
      split
      · exact hp
      · split
        · obtain ⟨-, -, hcounted⟩ :=
            promoteAmong_spec hb.exact ⟨y.size, y.size⟩ h.candidates
          unfold Paid at hp ⊢
          simp only [Heap.promoteIntoOld] at hcounted ⊢
          omega
        · exact hp

end Paid

namespace Heap

variable {h : Heap}

theorem youngBytes_eq (hb : Books h) :
    h.youngBytes = some (h.youngBytesAllocated - h.youngOffset) := minus_of_le hb.offset

/-- A resized budget lies between the floor and the ceiling, and the offset is what is left. -/
theorem resizeYoung_spec (n : Nat) (slow : Bool) (hfloor : h.youngFloor ≤ h.youngBudget)
    (hceiling : h.youngOffset + h.youngBudget = h.youngCeiling) :
    ∃ budget offset, h.resizeYoung n slow =
        some { h with youngBudget := budget, youngOffset := offset } ∧
      offset + budget = h.youngCeiling ∧ h.youngFloor ≤ budget := by
  -- A budget in bounds gives the offset.
  have hset : ∀ budget, h.youngFloor ≤ budget → budget ≤ h.youngCeiling →
      ∃ b offset, (do
          let offset ← minus h.youngCeiling budget
          some { h with youngBudget := budget, youngOffset := offset }) =
        some { h with youngBudget := b, youngOffset := offset } ∧
      offset + b = h.youngCeiling ∧ h.youngFloor ≤ b := by
    intro budget hlow hhigh
    refine ⟨budget, h.youngCeiling - budget, ?_, Nat.sub_add_cancel hhigh, hlow⟩
    rw [minus_of_le hhigh]
    rfl
  unfold resizeYoung
  split
  · exact ⟨h.youngBudget, h.youngOffset, rfl, hceiling, hfloor⟩
  · simp only
    split
    · have hle : h.youngBudget ≤ h.youngCeiling := by omega
      rw [clamp, if_pos hle]
      exact hset _ (by omega) (by omega)
    · split
      · exact hset _ (by omega) (by omega)
      · exact hset _ hfloor (by omega)

theorem decideAging_spec (h : Heap) : ∃ a j k c i p, h.decideAging =
    { h with
      aging := a, judgedSurvivors := j, survivorsKept := k, cyclesWithoutAging := c
      agingProbeInterval := i, agingProbe := p } := by
  unfold decideAging
  simp only
  split
  · exact ⟨_, _, _, _, _, _, rfl⟩
  · split
    · split
      · exact ⟨_, _, _, _, _, _, rfl⟩
      · exact ⟨_, _, _, _, _, _, rfl⟩
    · exact ⟨_, _, _, _, _, _, rfl⟩

theorem beginCycle_spec (h : Heap) : ∃ a j k c i p f, h.beginCycle = { h with
    youngBytesAllocated := h.youngOffset + h.survivorBytes
    aging := a, judgedSurvivors := j, survivorsKept := k, cyclesWithoutAging := c
    agingProbeInterval := i, agingProbe := p, firstCycle := f
    promotedBytes := 0, promotedCount := 0, survivorBytes := 0, survivorCount := 0 } := by
  obtain ⟨a, j, k, c, i, p, haging⟩ := decideAging_spec
    { h with youngBytesAllocated := h.youngOffset + h.survivorBytes }
  unfold beginCycle
  rw [haging]
  simp only
  split
  · exact ⟨a, 0, k, c, i, p, false, rfl⟩
  · exact ⟨a, j, k, c, i, p, h.firstCycle, rfl⟩

/-- What the counters are after a minor collection. The budget and what decides about aging may
be anything within bounds. -/
theorem resetNursery_eq (hb : Books h) (slow : Bool) :
    ∃ budget offset a j k c i p f, h.resetNursery slow =
        some { h.settled (h.bytesAllocated - (h.youngBytesAllocated - h.youngOffset)) with
          youngBudget := budget, youngOffset := offset
          youngBytesAllocated := offset + h.survivorBytes
          aging := a, judgedSurvivors := j, survivorsKept := k, cyclesWithoutAging := c
          agingProbeInterval := i, agingProbe := p, firstCycle := f
          promotedBytes := 0, promotedCount := 0, survivorBytes := 0, survivorCount := 0 } ∧
      offset + budget = h.youngCeiling ∧ h.youngFloor ≤ budget := by
  have hlive : h.oldLiveCount ≤ h.liveCount := hb.live ▸ Nat.le_add_right _ _
  have hkept := minus_of_le hb.young
  generalize h.bytesAllocated - (h.youngBytesAllocated - h.youngOffset) = kept at hkept ⊢
  obtain ⟨budget, offset, hresize, hceiling, hfloor⟩ : ∃ budget offset,
      (h.settled kept).nextBudget (h.liveCount - h.oldLiveCount) slow =
        some { h.settled kept with youngBudget := budget, youngOffset := offset } ∧
      offset + budget = h.youngCeiling ∧ h.youngFloor ≤ budget := by
    unfold nextBudget
    split
    · exact ⟨h.youngBudget, h.youngOffset, rfl, hb.ceiling, hb.floor⟩
    · exact resizeYoung_spec _ slow hb.floor hb.ceiling
  obtain ⟨a, j, k, c, i, p, f, hbegin⟩ := beginCycle_spec
    { h.settled kept with youngBudget := budget, youngOffset := offset }
  refine ⟨budget, offset, a, j, k, c, i, p, f, ?_, hceiling, hfloor⟩
  rw [resetNursery, youngBytes_eq hb]
  simp only [bind, Option.bind, minus_of_le hlive, hkept, hresize, hbegin]
  rfl

/-- Once a minor collection has settled the counters nothing of it is left. -/
theorem resetNursery_spec (hb : Books h) (slow : Bool) :
    ∃ t, h.resetNursery slow = some t ∧ Books t ∧ AtRest { t with promoteAll := false } ∧
      (Paid h → Paid t) ∧ t.promoteAll = h.promoteAll ∧
      t.youngBytesAllocated = t.youngOffset + h.survivorBytes := by
  obtain ⟨budget, offset, a, j, k, c, i, p, f, hreset, hceiling, hfloor⟩ := resetNursery_eq hb slow
  have hyoung := hb.young
  have hold := hb.old
  refine ⟨_, hreset, ?_, ⟨rfl, rfl, rfl, rfl, rfl, rfl⟩, fun hp => ?_, rfl, rfl⟩
  · exact {
      offset := Nat.le_add_right _ _
      young := by
        simp only [settled]
        omega
      live := congrArg (h.oldLiveCount + h.promotedCount + ·) hb.survivors
      old := hold
      exact := hb.exact
      ceiling := hceiling
      floor := hfloor
      survivors := rfl }
  · unfold Paid at hp ⊢
    simp only [settled]
    omega

end Heap

theorem forwardAll_books {h : Heap} (hb : Books h) (reached : List Nat) :
    Books (reached.foldl Heap.forward h) ∧ (Paid h → Paid (reached.foldl Heap.forward h)) := by
  induction reached generalizing h with
  | nil => exact ⟨hb, id⟩
  | cons i reached ih =>
      obtain ⟨hbooks, hpaid⟩ := ih (hb.forward i)
      exact ⟨hbooks, fun hp => hpaid (hp.forward hb i)⟩

theorem forward_promoting {h : Heap} (hall : h.promoteAll = true) (i : Nat) :
    (h.forward i).promoteAll = true ∧ (h.forward i).survivorBytes = h.survivorBytes := by
  unfold Heap.forward
  cases hy : h.young[i]? with
  | none => exact ⟨hall, rfl⟩
  | some y =>
      have hkeeps : h.keepsSurvivors = false := by
        rw [Heap.keepsSurvivors, hall, Bool.not_true, Bool.and_false]
      simp only [hkeeps, Bool.not_false, Bool.true_or, if_true]
      split
      · exact ⟨hall, rfl⟩
      · exact ⟨hall, rfl⟩

theorem forwardAll_promoting {h : Heap} (hall : h.promoteAll = true) (reached : List Nat) :
    (reached.foldl Heap.forward h).promoteAll = true ∧
      (reached.foldl Heap.forward h).survivorBytes = h.survivorBytes := by
  induction reached generalizing h with
  | nil => exact ⟨hall, rfl⟩
  | cons i reached ih =>
      obtain ⟨hnext, hbytes⟩ := forward_promoting hall i
      obtain ⟨hlast, hsame⟩ := ih hnext
      exact ⟨hlast, hsame.trans hbytes⟩

theorem forwardAll_promoteAll (h : Heap) (reached : List Nat) :
    (reached.foldl Heap.forward h).promoteAll = h.promoteAll := by
  induction reached generalizing h with
  | nil => rfl
  | cons i reached ih =>
      refine (ih (h.forward i)).trans ?_
      unfold Heap.forward
      split
      · rfl
      · split
        · rfl
        · simp only
          split <;> rfl

/-- A heap between two operations. -/
structure Idle (h : Heap) : Prop where
  books : Books h
  rest : AtRest h

section Collections

variable {h : Heap}

theorem collectMinor_idle (hb : Books h) (reached : List Nat) (slow : Bool)
    (hall : h.promoteAll = false) :
    ∃ t, h.collectMinor reached slow = some t ∧ Idle t ∧ (Paid h → Paid t) := by
  obtain ⟨hbooks, hpaid⟩ := forwardAll_books hb reached
  obtain ⟨t, ht, htb, hrest, hp, hsame, -⟩ := Heap.resetNursery_spec hbooks slow
  have hnone : t.promoteAll = false := by rw [hsame, forwardAll_promoteAll, hall]
  refine ⟨t, ht, ⟨htb, ?_⟩, fun h => hp (hpaid h)⟩
  exact ⟨hrest.promotedCount, hrest.promotedBytes, hrest.survivorNext, hrest.survivorCount,
    hrest.survivorBytes, hnone⟩

/-- A collection that promotes all it reaches leaves nothing young. -/
theorem collectMinorPromotingAll_idle (hi : Idle h) (reached : List Nat) (slow : Bool) :
    ∃ t, h.collectMinorPromotingAll reached slow = some t ∧ Idle t ∧ (Paid h → Paid t) ∧
      t.youngBytesAllocated = t.youngOffset := by
  have hb : Books { h with promoteAll := true } := ⟨hi.books.offset, hi.books.young, hi.books.live,
    hi.books.old, hi.books.exact, hi.books.ceiling, hi.books.floor, hi.books.survivors⟩
  obtain ⟨hbooks, hpaid⟩ := forwardAll_books hb reached
  obtain ⟨t, ht, htb, hrest, hp, -, hyoung⟩ := Heap.resetNursery_spec hbooks slow
  rw [(forwardAll_promoting (h := { h with promoteAll := true }) rfl reached).2] at hyoung
  refine ⟨{ t with promoteAll := false }, ?_, ⟨?_, hrest⟩, fun h => hp (hpaid h), ?_⟩
  · rw [Heap.collectMinorPromotingAll, Heap.collectMinor, ht]
    rfl
  · exact ⟨htb.offset, htb.young, htb.live, htb.old, htb.exact, htb.ceiling, htb.floor,
      htb.survivors⟩
  · have hnone := hi.rest.survivorBytes
    simp only at hyoung ⊢
    omega

theorem sweep_idle (hi : Idle h) (hyoung : h.youngBytesAllocated = h.youngOffset)
    (marked : Nat → Nat → Bool) :
    ∃ t, h.sweep marked = some t ∧ Idle t ∧ (Paid h → Steady marked h.chunks → Paid t) ∧
      t.youngBytesAllocated = t.youngOffset := by
  obtain ⟨r, hr, hexact, hfreed, hpaid⟩ :=
    sweepChunks_spec h.chunks hi.books.exact marked 0 h.bytesAllocated
  have hold := hi.books.old
  have hcount := hi.books.live
  have hnone := hi.rest.promotedCount
  have hbytes := hi.rest.promotedBytes
  have hle : r.freed ≤ h.oldLiveCount := by omega
  have hzero : minus h.youngBytesAllocated h.youngOffset = some 0 := by
    rw [hyoung, minus_of_le (Nat.le_refl _), Nat.sub_self]
  refine ⟨{ h with
    chunks := r.chunks
    candidates := r.reusable.reverse ++ h.candidates
    bytesAllocated := r.bytes
    liveCount := h.liveCount - r.freed
    oldLiveCount := h.oldLiveCount - r.freed
    liveAfterCollection := r.bytes }, ?_, ⟨?_, ?_⟩, ?_, hyoung⟩
  · simp only [Heap.sweep, hr, bind, Option.bind, minus_of_le hle,
      minus_of_le (show r.freed ≤ h.liveCount by omega), Heap.oldBytesAllocated, Heap.youngBytes,
      hzero, minus_of_le (Nat.zero_le r.bytes)]
  · exact {
      offset := hi.books.offset
      young := by
        simp only
        omega
      live := by
        simp only
        omega
      old := by
        simp only
        omega
      exact := hexact
      ceiling := hi.books.ceiling
      floor := hi.books.floor
      survivors := hi.books.survivors }
  · exact ⟨hi.rest.promotedCount, hi.rest.promotedBytes, hi.rest.survivorNext,
      hi.rest.survivorCount, hi.rest.survivorBytes, hi.rest.promoteAll⟩
  · intro hp hsteady
    unfold Paid at hp ⊢
    have hsum := hpaid hsteady 0 (by omega)
    simp only
    omega

theorem shedYoung_idle (hi : Idle h) (hyoung : h.youngBytesAllocated = h.youngOffset) :
    ∃ t, h.shedYoung = some t ∧ Idle t ∧ (Paid h → Paid t) := by
  have hle : h.youngFloor ≤ h.youngCeiling := by
    have hceiling := hi.books.ceiling
    have hfloor := hi.books.floor
    omega
  refine ⟨{ h with
    youngBudget := h.youngFloor
    youngOffset := h.youngCeiling - h.youngFloor
    youngBytesAllocated := h.youngCeiling - h.youngFloor }, ?_, ⟨?_, ?_⟩, fun hp => ?_⟩
  · simp only [Heap.shedYoung, bind, Option.bind, minus_of_le hle]
  · exact {
      offset := Nat.le_refl _
      young := by
        simp only
        omega
      live := hi.books.live
      old := hi.books.old
      exact := hi.books.exact
      ceiling := Nat.sub_add_cancel hle
      floor := Nat.le_refl _
      survivors := hi.books.survivors }
  · exact ⟨hi.rest.promotedCount, hi.rest.promotedBytes, hi.rest.survivorNext,
      hi.rest.survivorCount, hi.rest.survivorBytes, hi.rest.promoteAll⟩
  · unfold Paid at hp ⊢
    simp only
    omega

/-- What an operation leaves. -/
theorem run_idle (hi : Idle h) (op : HeapOp) :
    ∃ t, op.run h = some t ∧ Idle t ∧ (Paid h → op.Steady h → Paid t) := by
  have hrest := hi.rest
  cases op with
  | alloc size =>
      exact ⟨_, rfl, ⟨hi.books.alloc size, ⟨hrest.1, hrest.2, hrest.3, hrest.4, hrest.5, hrest.6⟩⟩,
        fun hp _ => hp.alloc hi.books size⟩
  | addTail added =>
      exact ⟨_, rfl,
        ⟨hi.books.addTail added, ⟨hrest.1, hrest.2, hrest.3, hrest.4, hrest.5, hrest.6⟩⟩,
        fun hp _ => hp.addTail hi.books added⟩
  | allocOld size =>
      exact ⟨_, rfl,
        ⟨hi.books.allocOld size, ⟨hrest.1, hrest.2, hrest.3, hrest.4, hrest.5, hrest.6⟩⟩,
        fun hp _ => hp.allocOld hi.books size⟩
  | growYoung i size =>
      exact ⟨_, rfl,
        ⟨hi.books.growYoung i size, ⟨hrest.1, hrest.2, hrest.3, hrest.4, hrest.5, hrest.6⟩⟩,
        fun hp _ => hp⟩
  | growOld idx slot size =>
      exact ⟨_, rfl,
        ⟨hi.books.growOld idx slot size, ⟨hrest.1, hrest.2, hrest.3, hrest.4, hrest.5, hrest.6⟩⟩,
        fun hp _ => hp.growOld idx slot size⟩
  | collectMinor reached slow =>
      obtain ⟨t, ht, hidle, hp⟩ := collectMinor_idle hi.books reached slow hrest.promoteAll
      exact ⟨t, ht, hidle, fun h _ => hp h⟩
  | collectMinorPromotingAll reached slow =>
      obtain ⟨t, ht, hidle, hp, -⟩ := collectMinorPromotingAll_idle hi reached slow
      exact ⟨t, ht, hidle, fun h _ => hp h⟩
  | collectGarbage reached slow marked =>
      obtain ⟨m, hm, hmi, hmp, hyoung⟩ := collectMinorPromotingAll_idle hi reached slow
      obtain ⟨t, ht, hidle, hp, -⟩ := sweep_idle hmi hyoung marked
      refine ⟨t, ?_, hidle, fun hpaid hsteady => hp (hmp hpaid) (hsteady m hm)⟩
      simp only [HeapOp.run, Heap.collectGarbage, hm, bind, Option.bind, ht]
  | releaseMemory reached slow marked =>
      obtain ⟨m, hm, hmi, hmp, hyoung⟩ := collectMinorPromotingAll_idle hi reached slow
      obtain ⟨s, hs, hsi, hsp, hempty⟩ := sweep_idle hmi hyoung marked
      obtain ⟨t, ht, hidle, hp⟩ := shedYoung_idle hsi hempty
      refine ⟨t, ?_, hidle, fun hpaid hsteady => hp (hsp (hmp hpaid) (hsteady m hm))⟩
      simp only [HeapOp.run, Heap.collectGarbage, hm, bind, Option.bind, hs, ht]

theorem runAll_idle (hi : Idle h) (ops : List HeapOp) :
    ∃ t, runAll ops h = some t ∧ Idle t ∧ (Paid h → SteadyRun ops h → Paid t) := by
  induction ops generalizing h with
  | nil => exact ⟨h, rfl, hi, fun hp _ => hp⟩
  | cons op ops ih =>
      obtain ⟨m, hm, hmi, hmp⟩ := run_idle hi op
      obtain ⟨t, ht, hti, hp⟩ := ih hmi
      refine ⟨t, ?_, hti, fun hpaid hsteady => hp (hmp hpaid hsteady.1) (hsteady.2 m hm)⟩
      simp only [runAll, hm, bind, Option.bind, ht]

end Collections

theorem idle_new (floor ceiling : Nat) : Idle (Heap.withYoungCeiling floor ceiling) where
  books := {
    offset := Nat.le_refl _
    young := by
      simp only [Heap.withYoungCeiling]
      omega
    live := rfl
    old := rfl
    exact := fun _ h => nomatch h
    ceiling := Nat.sub_add_cancel (Nat.le_max_right _ _)
    floor := Nat.le_refl _
    survivors := rfl }
  rest := ⟨rfl, rfl, rfl, rfl, rfl, rfl⟩

theorem paid_new (floor ceiling : Nat) : Paid (Heap.withYoungCeiling floor ceiling) := by
  simp only [Paid, Heap.withYoungCeiling, sumChunks]
  omega

/-- In every run no subtraction goes below zero and the counters stay consistent. The bytes cover
what the old objects were promoted with as long as every sweep frees only objects that have not
grown since. -/
theorem heap_accounts (floor ceiling : Nat) (ops : List HeapOp) :
    ∃ h, runAll ops (.withYoungCeiling floor ceiling) = some h ∧ Consistent h ∧
      (SteadyRun ops (.withYoungCeiling floor ceiling) → Covered h) := by
  obtain ⟨h, hrun, hidle, hpaid⟩ := runAll_idle (idle_new floor ceiling) ops
  refine ⟨h, hrun, hidle.books.consistent hidle.rest, fun hsteady => ?_⟩
  exact (hpaid (paid_new floor ceiling) hsteady).covered hidle.rest

/-- The first of two objects grows, and a sweep frees the other. -/
def grown : List HeapOp :=
  [.allocOld 64, .allocOld 64, .growOld 0 0 1000,
    .collectGarbage [] false fun _ slot => decide (slot = 0)]

theorem heap_accounts_grown : ∃ h, runAll grown (.withYoungCeiling 4 16) = some h ∧
    Consistent h ∧ Covered h := by
  obtain ⟨h, hrun, hconsistent, hcovered⟩ := heap_accounts 4 16 grown
  refine ⟨h, hrun, hconsistent, hcovered ?_⟩
  refine ⟨trivial, fun t ht => ⟨trivial, fun t' ht' => ⟨trivial, fun t'' ht'' => ⟨?_, fun _ _ => trivial⟩⟩⟩⟩
  cases ht
  cases ht'
  cases ht''
  intro t ht
  cases ht
  intro i chunk k o hchunk hslot hmarked
  rcases i with _ | i
  · cases hchunk
    rcases k with _ | _ | k
    · cases hmarked
    · cases hslot
      decide
    · cases hslot
  · cases hchunk
/-- Two objects are counted with 64 bytes each; the first grows to 1000 and is freed. -/
def outgrown : List HeapOp :=
  [.allocOld 64, .allocOld 64, .growOld 0 0 1000,
    .collectGarbage [] false fun _ slot => decide (slot = 1)]

theorem bytes_uncovered : ¬ ∀ (floor ceiling : Nat) (ops : List HeapOp),
    ∃ h, runAll ops (.withYoungCeiling floor ceiling) = some h ∧ Consistent h ∧ Covered h := by
  intro hall
  obtain ⟨h, hrun, -, hcovered⟩ := hall 4 16 outgrown
  have hbytes : (runAll outgrown (.withYoungCeiling 4 16)).map (fun h =>
      (sumChunks Chunk.counted h.chunks, h.bytesAllocated)) = some (64, 0) := by decide
  rw [hrun, Option.map_some] at hbytes
  obtain ⟨hsum, hnone⟩ := Prod.mk.inj (Option.some.inj hbytes)
  unfold Covered at hcovered
  omega

end Zuri.Vm.HeapAccount
