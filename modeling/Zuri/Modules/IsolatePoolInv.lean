import Zuri.Modules.IsolatePool
import Mathlib.Data.List.Basic

/-!
The counts of the pool of isolate threads say what its threads do, at every point between
two steps: tasks are queued, held or finished, never more than one of these, and a task
that is queued has a thread on its way or every thread is busy.
-/

namespace Transition

variable {α : Type}

theorem countP_put {parties : List α} {i : Nat} {p : α} (h : parties[i]? = some p)
    (f : α → Bool) (q : α) :
    (parties.set i q).countP f + (f p).toNat = parties.countP f + (f q).toNat := by
  obtain ⟨hi, hp⟩ := List.getElem?_eq_some_iff.mp h
  have hpos : f p = true → 0 < parties.countP f := by
    intro hf
    exact List.countP_pos_iff.mpr ⟨p, hp ▸ List.getElem_mem hi, hf⟩
  rw [List.countP_set hi, hp]
  cases hfp : f p <;> cases hfq : f q <;> simp_all

theorem countP_map_same (f : α → Bool) (g : α → α) (hf : ∀ p, f (g p) = f p) (parties : List α) :
    (parties.map g).countP f = parties.countP f := by
  rw [List.countP_map]
  congr 1
  funext p
  exact hf p

/-- A party that is counted makes the count positive. -/
theorem countP_pos_of_getElem? {parties : List α} {i : Nat} {p : α} (hi : parties[i]? = some p)
    {f : α → Bool} (hp : f p = true) : 0 < parties.countP f :=
  List.countP_pos_iff.mpr ⟨p, List.mem_of_getElem? hi, hp⟩

end Transition

namespace Zuri.Modules.IsolatePool

open Transition

/-- The thread holds the task, which is not finished. -/
def Place.holds (t : Nat) (p : Place) : Bool := p.task == some t

theorem count_range_add (first count t : Nat) :
    (List.range (first + count)).count t =
      (List.range first).count t + (List.range' first count).count t := by
  rw [List.range_eq_range', List.range_eq_range', ← List.count_append]
  have happend := @List.range'_append 0 first count 1
  simp only [Nat.zero_add, Nat.one_mul] at happend
  rw [happend]

/-- What the counts of the pool say. -/
structure Counted (s : State) : Prop where
  started : s.started = s.threads.length
  bound : s.started ≤ s.size
  idle : s.idle = s.threads.countP Place.idle
  served : s.tasks.length ≤ s.idle ∨ s.started = s.size
  inFlight : s.inFlight = s.tasks.length + s.threads.countP Place.inFlight
  running : s.running = s.threads.countP Place.running
  woken : s.threads.countP Place.isParked = 0 ∨ Notice.all ∈ s.notices ∨
    s.tasks.length ≤ s.threads.countP Place.awake + s.notices.length
  taken : ∀ t, s.tasks.count t + (s.taken.map Prod.snd).count t =
    (List.range s.accepted).count t
  finished : ∀ t, s.tasks.count t + s.threads.countP (Place.holds t) +
    (s.finished.map Prod.fst).count t = (List.range s.accepted).count t
  closing : s.closers ≠ [] → s.shuttingDown = true
  closed : ∀ c ∈ s.closers, c.place = .stopping ∨ c.place = .returned true → s.inFlight = 0

namespace Counted

variable {s : State}

theorem start (size : Nat) : Counted (State.start size) where
  started := rfl
  bound := Nat.zero_le _
  idle := rfl
  served := .inl (Nat.zero_le _)
  inFlight := rfl
  running := rfl
  woken := .inl rfl
  taken := fun t => by simp [State.start]
  finished := fun t => by simp [State.start]
  closing := fun h => absurd rfl h
  closed := fun c hc => by cases hc

theorem accept (h : Counted s) (count : Nat) (notice : Notice)
    (hnotice : notice = .all ∨ count ≤ 1) : Counted (s.accept count notice) := by
  unfold State.accept
  split
  · exact h
  · rename_i hopen
    have hstarted := h.started
    have hbound := h.bound
    have hnone : s.closers = [] := by
      by_contra hne
      exact hopen (h.closing hne)
    constructor
    · simp only [State.claimThreads, List.length_append, List.length_replicate, h.started]
    · simp only [State.claimThreads]
      omega
    · simp [State.claimThreads, List.countP_append, List.countP_replicate, Place.idle, h.idle]
    · simp only [State.claimThreads, List.length_append, List.length_range']
      omega
    · simp [State.claimThreads, List.countP_append, List.countP_replicate, Place.inFlight,
        h.inFlight]
      omega
    · simp [State.claimThreads, List.countP_append, List.countP_replicate, Place.running,
        h.running]
    · simp only [State.claimThreads, List.countP_append, List.countP_replicate, Place.isParked,
        Place.awake, Place.idle, List.length_append, List.length_range', List.mem_append,
        List.mem_singleton, List.length_singleton]
      cases hnotice with
      | inl hall => exact .inr (.inl (.inr hall.symm))
      | inr hone =>
          have hwoken := h.woken
          simp only [Bool.not_false, Bool.and_self, if_true]
          rcases hwoken with hw | hw | hw
          · exact .inl (by simpa using hw)
          · exact .inr (.inl (.inl hw))
          · exact .inr (.inr (by omega))
    · intro t
      have ht := h.taken t
      simp only [State.claimThreads, List.count_append, count_range_add]
      omega
    · intro t
      have ht := h.finished t
      simp only [State.claimThreads, List.count_append, count_range_add, List.countP_append,
        List.countP_replicate, show Place.holds t .claimed = false from rfl, Bool.false_eq_true,
        if_false]
      omega
    · intro hne
      exact absurd hnone hne
    · intro c hc
      simp only [State.claimThreads, hnone] at hc
      cases hc

end Counted

/-- One thread goes from `p` to `q`, and the counts go with it. -/
structure Moved (s s' : State) (i : Nat) (p q : Place) : Prop where
  there : s.threads[i]? = some p
  threads : s'.threads = s.threads.set i q := by rfl
  size : s'.size = s.size := by rfl
  started : s'.started = s.started := by rfl
  notices : s'.notices = s.notices := by rfl
  closers : s'.closers = s.closers := by rfl
  shuttingDown : s'.shuttingDown = s.shuttingDown := by rfl
  accepted : s'.accepted = s.accepted := by rfl
  tasks : s'.tasks.length ≤ s.tasks.length := by exact Nat.le_refl _
  idle : s'.idle + p.idle.toNat = s.idle + q.idle.toNat
  taking : s'.tasks.length + p.idle.toNat ≤ s.tasks.length + q.idle.toNat
  inFlight : s'.inFlight + p.inFlight.toNat + s.tasks.length =
    s.inFlight + q.inFlight.toNat + s'.tasks.length
  inFlight_le : s'.inFlight ≤ s.inFlight := by exact Nat.le_refl _
  running : s'.running + p.running.toNat = s.running + q.running.toNat
  parks : q.isParked = true → s'.tasks = []
  taken : ∀ t, s'.tasks.count t + (s'.taken.map Prod.snd).count t =
    s.tasks.count t + (s.taken.map Prod.snd).count t := by intro t; rfl
  finished : ∀ t,
    s'.tasks.count t + (q.holds t).toNat + (s'.finished.map Prod.fst).count t =
      s.tasks.count t + (p.holds t).toNat + (s.finished.map Prod.fst).count t

theorem awake_add (p : Place) : p.awake.toNat + p.isParked.toNat = p.idle.toNat := by
  cases p <;> rfl

theorem Moved.counted {s s' : State} {i : Nat} {p q : Place} (h : Moved s s' i p q)
    (hs : Counted s) : Counted s' := by
  have hmove := fun f => countP_put h.there f q
  have hawake := awake_add p
  have hnext := awake_add q
  have hidle := h.idle
  have htaking := h.taking
  constructor
  · rw [h.started, h.threads, List.length_set, hs.started]
  · rw [h.started, h.size]
    exact hs.bound
  · rw [h.threads]
    have hcount := hmove Place.idle
    have hwas := hs.idle
    omega
  · rw [h.started, h.size]
    have htasks := h.tasks
    rcases hs.served with hwas | hwas
    · exact .inl (by omega)
    · exact .inr hwas
  · rw [h.threads]
    have hcount := hmove Place.inFlight
    have hwas := hs.inFlight
    have hflight := h.inFlight
    omega
  · rw [h.threads]
    have hcount := hmove Place.running
    have hwas := hs.running
    have hrunning := h.running
    omega
  · rw [h.threads, h.notices]
    have hparked := hmove Place.isParked
    have hcount := hmove Place.awake
    cases hq : q.isParked with
    | true =>
        rw [h.parks hq]
        exact .inr (.inr (Nat.zero_le _))
    | false =>
        rw [hq] at hparked hnext
        simp only [Bool.toNat_false] at hparked hnext
        rcases hs.woken with hwas | hwas | hwas
        · exact .inl (by omega)
        · exact .inr (.inl hwas)
        · exact .inr (.inr (by omega))
  · intro t
    rw [h.accepted, ← hs.taken t, h.taken t]
  · intro t
    rw [h.accepted, ← hs.finished t, h.threads]
    have hcount := hmove (Place.holds t)
    have hfinished := h.finished t
    omega
  · rw [h.closers, h.shuttingDown]
    exact hs.closing
  · intro c hc hplace
    rw [h.closers] at hc
    have hzero := hs.closed c hc hplace
    have hle := h.inFlight_le
    omega

namespace Counted

variable {s : State}

theorem take (h : Counted s) {i : Nat} (hi : s.threads[i]? = some .arriving) :
    Counted (s.take i) := by
  unfold State.take
  split
  · rename_i htasks
    exact Moved.counted (q := .parked)
      { there := hi
        idle := rfl
        taking := Nat.le_refl _
        inFlight := rfl
        running := rfl
        parks := fun _ => htasks
        finished := fun _ => rfl } h
  · rename_i t rest htasks
    have hpos : 0 < s.idle := by
      rw [h.idle]
      exact List.countP_pos_iff.mpr ⟨_, List.mem_of_getElem? hi, rfl⟩
    refine Moved.counted (q := .took t)
      { there := hi
        tasks := ?_
        idle := ?_
        taking := ?_
        inFlight := ?_
        running := rfl
        parks := fun hq => by cases hq
        taken := fun k => ?_
        finished := fun k => ?_ } h
    · simp [State.put, htasks]
    · simp [State.put, Place.idle]
      omega
    · simp [State.put, Place.idle, htasks]
    · simp [State.put, Place.inFlight, htasks]
      omega
    · simp [State.put, htasks, List.count_cons]
      omega
    · by_cases hk : t = k
      · simp [State.put, htasks, Place.holds, Place.task, hk]
      · simp [State.put, htasks, Place.holds, Place.task, hk]

/-- A step of a thread that changes no count. -/
theorem put (h : Counted s) {i : Nat} {p q : Place} (hi : s.threads[i]? = some p)
    (hidle : p.idle = q.idle) (hinFlight : p.inFlight = q.inFlight)
    (hrunning : p.running = q.running) (htask : p.task = q.task) (hq : q.isParked = false) :
    Counted (s.put i q) :=
  Moved.counted (q := q)
    { there := hi
      idle := by simp [State.put, hidle]
      taking := by simp [State.put, hidle]
      inFlight := by simp [State.put, hinFlight]
      running := by simp [State.put, hrunning]
      parks := fun hparked => by rw [hq] at hparked; cases hparked
      finished := fun t => by simp [State.put, Place.holds, htask] } h

/-- What the counts do not depend on. -/
theorem compilers (h : Counted s) (compiler : Option Nat) (compilers : Nat) (stopped : List Nat) :
    Counted { s with compiler, compilers, stopped } :=
  ⟨h.started, h.bound, h.idle, h.served, h.inFlight, h.running, h.woken, h.taken, h.finished,
    h.closing, h.closed⟩

theorem stopCompiler (h : Counted s) : Counted s.stopCompiler := by
  unfold State.stopCompiler
  split
  · exact h.compilers none s.compilers _
  · exact h

theorem getOrSpawnCompiler (h : Counted s) {i t : Nat} (hi : s.threads[i]? = some (.counted t)) :
    Counted (s.getOrSpawnCompiler i t) := by
  unfold State.getOrSpawnCompiler
  split
  · exact h.put hi rfl rfl rfl rfl rfl
  · exact (h.compilers _ _ s.stopped).put hi rfl rfl rfl rfl rfl

theorem stopCompiler_threads (s : State) : s.stopCompiler.threads = s.threads := by
  unfold State.stopCompiler
  split <;> rfl

theorem proceed (h : Counted s) (i : Nat) (outcome : Outcome) : Counted (s.proceed i outcome) := by
  unfold State.proceed
  split
  · exact h
  · exact h
  · rename_i hi
    exact h.put hi rfl rfl rfl rfl rfl
  · rename_i hi
    exact h.take hi
  · rename_i t hi
    exact Moved.counted (q := .counted t)
      { there := hi
        idle := rfl
        taking := Nat.le_refl _
        inFlight := rfl
        running := rfl
        parks := fun hq => by cases hq
        finished := fun _ => rfl } h
  · rename_i t hi
    exact h.getOrSpawnCompiler hi
  · rename_i hi
    exact h.put hi rfl rfl rfl rfl rfl
  · rename_i t c o hi
    exact Moved.counted (q := .free t c o)
      { there := hi
        idle := rfl
        taking := Nat.le_succ _
        inFlight := rfl
        running := rfl
        parks := fun hq => by cases hq
        finished := fun _ => rfl } h
  · rename_i t c o hi
    refine Moved.counted (q := .finished)
      { there := hi
        idle := rfl
        taking := Nat.le_refl _
        inFlight := rfl
        running := rfl
        parks := fun hq => by cases hq
        finished := fun k => ?_ } h
    by_cases hk : t = k
    · simp [State.put, Place.holds, Place.task, hk]
      omega
    · simp [State.put, Place.holds, Place.task, hk]
  · rename_i hi
    have hpos := countP_pos_of_getElem? hi (f := Place.inFlight) rfl
    have hcount := h.inFlight
    refine Moved.counted (q := .subtracted s.inFlight)
      { there := hi
        idle := rfl
        taking := Nat.le_refl _
        inFlight := ?_
        inFlight_le := Nat.sub_le _ _
        running := rfl
        parks := fun hq => by cases hq
        finished := fun _ => rfl } h
    simp [State.put, Place.inFlight]
    omega
  · rename_i prev hi
    have hpos := countP_pos_of_getElem? hi (f := Place.running) rfl
    have hcount := h.running
    have hnext : ∀ q : Place, q = .stopping ∨ q = .arriving →
        Counted ({ s with running := s.running - 1 }.put i q) := by
      intro q hq
      have hrunning : s.running - 1 + 1 = s.running := by omega
      refine Moved.counted (p := .subtracted prev) (q := q)
        { there := hi
          idle := ?_
          taking := ?_
          inFlight := ?_
          running := ?_
          parks := ?_
          finished := ?_ } h
      all_goals rcases hq with rfl | rfl
      all_goals simp [State.put, Place.idle, Place.inFlight, Place.running, Place.isParked,
        Place.holds, Place.task, hrunning]
    split
    · exact hnext _ (.inl rfl)
    · exact hnext _ (.inr rfl)
  · rename_i hi
    rw [← stopCompiler_threads] at hi
    exact h.stopCompiler.put hi rfl rfl rfl rfl rfl

theorem notify (h : Counted s) (caller who : Nat) : Counted (s.notify caller who) := by
  unfold State.notify
  split
  · exact h
  · have hidle := countP_map_same Place.idle Place.wake (by intro p; cases p <;> rfl) s.threads
    have hinFlight := countP_map_same Place.inFlight Place.wake (by intro p; cases p <;> rfl) s.threads
    have hrunning := countP_map_same Place.running Place.wake (by intro p; cases p <;> rfl) s.threads
    have hholds := fun t =>
      countP_map_same (Place.holds t) Place.wake (by intro p; cases p <;> rfl) s.threads
    refine ⟨by simpa using h.started, h.bound, h.idle.trans hidle.symm, h.served, ?_,
      h.running.trans hrunning.symm, ?_, h.taken, fun t => ?_, h.closing, h.closed⟩
    · rw [hinFlight]
      exact h.inFlight
    · refine .inl (List.countP_eq_zero.mpr fun p hp => ?_)
      obtain ⟨q, _, rfl⟩ := List.mem_map.mp hp
      cases q <;> simp [Place.wake, Place.isParked]
    · rw [hholds t]
      exact h.finished t
  · rename_i hone
    have hlen : (s.notices.eraseIdx caller).length + 1 = s.notices.length := by
      obtain ⟨hlt, _⟩ := List.getElem?_eq_some_iff.mp hone
      rw [List.length_eraseIdx_of_lt hlt]
      omega
    have hall : Notice.all ∈ s.notices → Notice.all ∈ s.notices.eraseIdx caller := by
      intro hmem
      obtain ⟨k, hk⟩ := List.mem_iff_getElem?.mp hmem
      have hne : k ≠ caller := fun hkc => by rw [hkc, hone] at hk; cases hk
      exact List.mem_eraseIdx_iff_getElem?.mpr ⟨k, hne, hk⟩
    split
    · rename_i hi
      have hparked := countP_put hi Place.isParked .arriving
      have hawake := countP_put hi Place.awake .arriving
      have hmoved := h.put hi (q := .arriving) rfl rfl rfl rfl rfl
      refine ⟨hmoved.started, hmoved.bound, hmoved.idle, hmoved.served, hmoved.inFlight,
        hmoved.running, ?_, hmoved.taken, hmoved.finished, h.closing, h.closed⟩
      simp only [State.put, Place.isParked, Place.awake, Place.idle] at hparked hawake ⊢
      simp only [Bool.not_true, Bool.and_false, Bool.not_false, Bool.and_self, Bool.toNat_true,
        Bool.toNat_false] at hparked hawake
      rcases h.woken with hwas | hwas | hwas
      · omega
      · exact .inr (.inl (hall hwas))
      · exact .inr (.inr (by omega))
    · split
      · rename_i hnone
        exact ⟨h.started, h.bound, h.idle, h.served, h.inFlight, h.running, .inl hnone, h.taken,
          h.finished, h.closing, h.closed⟩
      · exact h

theorem putCloser (h : Counted s) (j : Nat) (place : ClosePlace)
    (hplace : place = .stopping ∨ place = .returned true → s.inFlight = 0) :
    Counted (s.putCloser j place) := by
  refine ⟨h.started, h.bound, h.idle, h.served, h.inFlight, h.running, h.woken, h.taken, h.finished,
    fun hne => h.closing fun hnil => hne ?_, fun c hc hdone => ?_⟩
  · simp [State.putCloser, hnil]
  · obtain ⟨k, hk⟩ := List.mem_iff_getElem?.mp hc
    rw [State.putCloser, List.getElem?_modify] at hk
    cases hold : s.closers[k]? with
    | none => rw [hold] at hk; cases hk
    | some b =>
        rw [hold] at hk
        by_cases hjk : j = k
        · simp only [hjk, if_true, Option.map_eq_map, Option.map_some, Option.some.injEq] at hk
          subst hk
          exact hplace hdone
        · simp only [hjk, if_false, Option.map_eq_map, Option.map_some, Option.some.injEq] at hk
          subst hk
          exact h.closed b (List.mem_of_getElem? hold) hdone

theorem close (h : Counted s) (j : Nat) : Counted (s.close j) := by
  unfold State.close
  split
  · refine h.putCloser j _ fun hplace => ?_
    by_contra hne
    simp [hne] at hplace
  · exact h.putCloser j _ (by simp)
  · rename_i hj
    have hzero := h.closed _ (List.mem_of_getElem? hj) (.inl rfl)
    refine h.stopCompiler.putCloser j _ fun _ => ?_
    unfold State.stopCompiler
    split <;> exact hzero
  · exact h

theorem timeOut (h : Counted s) (j : Nat) : Counted (s.timeOut j) := by
  have hlast : Counted (s.putCloser j (if s.inFlight = 0 then .stopping else .returned false)) := by
    refine h.putCloser j _ fun hplace => ?_
    by_contra hne
    simp [hne] at hplace
  unfold State.timeOut
  split
  · exact hlast
  · exact hlast
  · exact h

/-- Every step keeps the counts. -/
theorem step (h : Counted s) (e : Event) : Counted (s.step e) := by
  cases e with
  | spawn => exact h.accept 1 .one (.inr (Nat.le_refl 1))
  | spawnBatch count => exact h.accept count .all (.inl rfl)
  | notify caller who => exact h.notify caller who
  | wake i =>
      simp only [State.step]
      split
      · rename_i hi
        exact h.put hi rfl rfl rfl rfl rfl
      · exact h
  | proceed i outcome => exact h.proceed i outcome
  | shutdown timed =>
      refine ⟨h.started, h.bound, h.idle, h.served, h.inFlight, h.running, h.woken, h.taken,
        h.finished, fun _ => rfl, fun c hc hplace => ?_⟩
      cases List.mem_append.mp hc with
      | inl hc => exact h.closed c hc hplace
      | inr hc =>
          cases List.mem_singleton.mp hc
          cases hplace with
          | inl hplace => cases hplace
          | inr hplace => cases hplace
  | close j => exact h.close j
  | timeOut j => exact h.timeOut j

/-- After any steps at all. -/
theorem run (size : Nat) (log : List Event) : Counted (log.foldl State.step (.start size)) := by
  have hrun : ∀ s, Counted s → Counted (log.foldl State.step s) := by
    induction log with
    | nil => exact fun _ h => h
    | cons e es ih => exact fun s h => ih _ (h.step e)
  exact hrun _ (start size)

end Counted

end Zuri.Modules.IsolatePool
