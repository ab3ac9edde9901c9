import Zuri.Modules.IsolatePoolInv
import Mathlib.Data.List.Nodup

/-!
Isolate tasks run exactly once and are never stranded, in every run of the pool. The
compiler a task was handed lives until the task has finished as long as no thread is handed it
while another is on its way to stop it.
-/

namespace Zuri.Modules.IsolatePool

open Transition

/-- Between the decrement that took the count of tasks in flight to zero and `stop_compiler`. -/
def Place.stops : Place → Bool
  | .subtracted prev => prev = 1
  | .stopping => true
  | _ => false

/-- No thread is handed the compiler between another thread's decrement to zero and its stop. -/
def Apart (s : State) : Event → Prop
  | .proceed i _ => ∀ t, s.threads[i]? = some (.counted t) → ∀ p ∈ s.threads, p.stops = false
  | _ => True

/-- While a thread is on its way to stop the compiler no unfinished task has one. -/
def Quiet (s : State) : Prop :=
  ∀ p ∈ s.threads, p.stops = true → ∀ q ∈ s.threads, q.compiler = none

/-- No compiler that an unfinished task was handed has been stopped. -/
def Live (s : State) : Prop := ∀ p ∈ s.threads, ∀ c, p.compiler = some c → c ∉ s.stopped

/-- Tasks in flight were handed the compiler the pool has now. -/
structure Handed (s : State) : Prop where
  current : ∀ c, s.compiler = some c → c ∉ s.stopped ∧ c < s.compilers
  stopped : ∀ c ∈ s.stopped, c < s.compilers
  handed : ∀ p ∈ s.threads, ∀ c, p.compiler = some c → s.compiler = some c

namespace Handed

variable {s : State}

theorem live (h : Handed s) : Live s :=
  fun p hp c hc => (h.current c (h.handed p hp c hc)).1

/-- The threads may change as long as none has another compiler. -/
theorem threads (h : Handed s) {t : State} (hcompiler : t.compiler = s.compiler)
    (hcompilers : t.compilers = s.compilers) (hstopped : t.stopped = s.stopped)
    (hthreads : ∀ p ∈ t.threads, p.compiler = none ∨ ∃ q ∈ s.threads, p.compiler = q.compiler) :
    Handed t := by
  refine ⟨by rw [hcompiler, hcompilers, hstopped]; exact h.current,
    by rw [hcompilers, hstopped]; exact h.stopped, fun p hp c hc => ?_⟩
  rw [hcompiler]
  cases hthreads p hp with
  | inl hnone => rw [hnone] at hc; cases hc
  | inr hq =>
      obtain ⟨q, hq, hsame⟩ := hq
      exact h.handed q hq c (hsame ▸ hc)

theorem same (h : Handed s) {t : State} (hcompiler : t.compiler = s.compiler)
    (hcompilers : t.compilers = s.compilers) (hstopped : t.stopped = s.stopped)
    (hthreads : t.threads = s.threads) : Handed t :=
  h.threads hcompiler hcompilers hstopped fun p hp => .inr ⟨p, hthreads ▸ hp, rfl⟩

theorem put (h : Handed s) {t : State} {i : Nat} {p q : Place} (hi : s.threads[i]? = some p)
    (hq : q.compiler = none ∨ q.compiler = p.compiler) (hcompiler : t.compiler = s.compiler)
    (hcompilers : t.compilers = s.compilers) (hstopped : t.stopped = s.stopped)
    (hthreads : t.threads = s.threads) : Handed (t.put i q) := by
  refine h.threads hcompiler hcompilers hstopped fun r hr => ?_
  cases List.mem_or_eq_of_mem_set hr with
  | inl hr => exact .inr ⟨r, hthreads ▸ hr, rfl⟩
  | inr hr =>
      subst hr
      cases hq with
      | inl hnone => exact .inl hnone
      | inr hsame => exact .inr ⟨p, List.mem_of_getElem? hi, hsame⟩

theorem stopCompiler (h : Handed s) (hnone : ∀ p ∈ s.threads, p.compiler = none) :
    Handed s.stopCompiler := by
  unfold State.stopCompiler
  split
  · rename_i c hc
    refine ⟨fun _ hcompiler => ?_, fun k hk => ?_, fun p hp k hk => ?_⟩
    · cases hcompiler
    · cases List.mem_append.mp hk with
      | inl hk => exact h.stopped k hk
      | inr hk =>
          rw [List.mem_singleton.mp hk]
          exact (h.current c hc).2
    · rw [hnone p hp] at hk
      cases hk
  · exact h

theorem getOrSpawnCompiler (h : Handed s) {i t : Nat} : Handed (s.getOrSpawnCompiler i t) := by
  unfold State.getOrSpawnCompiler
  split
  · rename_i c hc
    refine ⟨h.current, h.stopped, fun p hp k hk => ?_⟩
    cases List.mem_or_eq_of_mem_set hp with
    | inl hp => exact h.handed p hp k hk
    | inr hp =>
        subst hp
        cases hk
        exact hc
  · rename_i hnone
    refine ⟨fun c hc => ?_, fun c hc => Nat.lt_succ_of_lt (h.stopped c hc), fun p hp k hk => ?_⟩
    · cases hc
      exact ⟨fun hmem => Nat.lt_irrefl _ (h.stopped _ hmem), Nat.lt_succ_self _⟩
    · cases List.mem_or_eq_of_mem_set hp with
      | inl hp =>
          have hold := h.handed p hp k hk
          rw [hnone] at hold
          cases hold
      | inr hp =>
          subst hp
          cases hk
          rfl

/-- Nothing in flight has a compiler when nothing is in flight. -/
theorem none_of_zero (hcounted : Counted s) (hzero : s.inFlight = 0) :
    ∀ p ∈ s.threads, p.compiler = none := by
  intro p hp
  have hcount := hcounted.inFlight
  have hnone : s.threads.countP Place.inFlight = 0 := by omega
  have hout := List.countP_eq_zero.mp hnone p hp
  cases p <;> first | rfl | exact absurd rfl hout

theorem proceed (h : Handed s) (i : Nat) (outcome : Outcome)
    (hquiet : Quiet s) : Handed (s.proceed i outcome) := by
  unfold State.proceed
  split
  · exact h
  · exact h
  · rename_i hi
    exact h.put hi (.inl rfl) rfl rfl rfl rfl
  · rename_i hi
    unfold State.take
    split
    · exact h.put hi (.inl rfl) rfl rfl rfl rfl
    · exact h.put hi (.inl rfl) rfl rfl rfl rfl
  · rename_i hi
    exact h.put hi (.inl rfl) rfl rfl rfl rfl
  · exact h.getOrSpawnCompiler
  · rename_i hi
    exact h.put hi (.inr rfl) rfl rfl rfl rfl
  · rename_i hi
    exact h.put hi (.inr rfl) rfl rfl rfl rfl
  · rename_i hi
    exact h.put hi (.inl rfl) rfl rfl rfl rfl
  · rename_i hi
    exact h.put hi (.inl rfl) rfl rfl rfl rfl
  · rename_i hi
    split
    · exact h.put hi (.inl rfl) rfl rfl rfl rfl
    · exact h.put hi (.inl rfl) rfl rfl rfl rfl
  · rename_i hi
    have hstopped := h.stopCompiler (hquiet _ (List.mem_of_getElem? hi) rfl)
    rw [← Counted.stopCompiler_threads] at hi
    exact hstopped.put hi (.inl rfl) rfl rfl rfl rfl

theorem close (h : Handed s) (hcounted : Counted s) (j : Nat) : Handed (s.close j) := by
  unfold State.close
  split
  · exact h.same rfl rfl rfl rfl
  · exact h.same rfl rfl rfl rfl
  · rename_i hj
    have hzero := hcounted.closed _ (List.mem_of_getElem? hj) (.inl rfl)
    exact (h.stopCompiler (none_of_zero hcounted hzero)).same rfl rfl rfl rfl
  · exact h

theorem step (h : Handed s) (hcounted : Counted s) (e : Event) (hquiet : Quiet s) :
    Handed (s.step e) := by
  have haccept : ∀ count notice, Handed (s.accept count notice) := by
    intro count notice
    unfold State.accept
    split
    · exact h
    · refine h.threads rfl rfl rfl fun p hp => ?_
      cases List.mem_append.mp hp with
      | inl hp => exact .inr ⟨p, hp, rfl⟩
      | inr hp => exact .inl (by rw [List.eq_of_mem_replicate hp]; rfl)
  cases e with
  | spawn => exact haccept 1 .one
  | spawnBatch count => exact haccept count .all
  | notify caller who =>
      simp only [State.step, State.notify]
      split
      · exact h
      · refine h.threads rfl rfl rfl fun p hp => ?_
        obtain ⟨q, hq, rfl⟩ := List.mem_map.mp hp
        exact .inr ⟨q, hq, by cases q <;> rfl⟩
      · split
        · rename_i hi
          exact h.put hi (.inl rfl) rfl rfl rfl rfl
        · split
          · exact h.same rfl rfl rfl rfl
          · exact h
  | wake i =>
      simp only [State.step]
      split
      · rename_i hi
        exact h.put hi (.inl rfl) rfl rfl rfl rfl
      · exact h
  | proceed i outcome => exact h.proceed i outcome hquiet
  | shutdown timed => exact h.same rfl rfl rfl rfl
  | close j => exact h.close hcounted j
  | timeOut j =>
      simp only [State.step, State.timeOut]
      split
      · exact h.same rfl rfl rfl rfl
      · exact h.same rfl rfl rfl rfl
      · exact h

end Handed

namespace Quiet

variable {s : State}

/-- The threads may change as long as none has another compiler, and none starts on its way to
stop it. -/
theorem threads (h : Quiet s) {t : State}
    (hcompiler : ∀ p ∈ t.threads, p.compiler = none ∨ ∃ q ∈ s.threads, p.compiler = q.compiler)
    (hstops : ∀ p ∈ t.threads, p.stops = true → ∃ q ∈ s.threads, q.stops = true) : Quiet t := by
  intro p hp hstop q hq
  obtain ⟨r, hr, hstop⟩ := hstops p hp hstop
  cases hcompiler q hq with
  | inl hnone => exact hnone
  | inr hold =>
      obtain ⟨q', hq', hsame⟩ := hold
      exact hsame.trans (h r hr hstop q' hq')

theorem same (h : Quiet s) {t : State} (hthreads : t.threads = s.threads) : Quiet t :=
  fun p hp hstop q hq => h p (hthreads ▸ hp) hstop q (hthreads ▸ hq)

theorem put (h : Quiet s) {t : State} {i : Nat} {p q : Place} (hi : s.threads[i]? = some p)
    (hcompiler : q.compiler = none ∨ q.compiler = p.compiler)
    (hstops : q.stops = true → p.stops = true) (hthreads : t.threads = s.threads) :
    Quiet (t.put i q) := by
  have hp := List.mem_of_getElem? hi
  refine h.threads (fun r hr => ?_) fun r hr hstop => ?_
  · cases List.mem_or_eq_of_mem_set hr with
    | inl hr => exact .inr ⟨r, hthreads ▸ hr, rfl⟩
    | inr hr =>
        subst hr
        exact hcompiler.imp_right fun hsame => ⟨p, hp, hsame⟩
  · cases List.mem_or_eq_of_mem_set hr with
    | inl hr => exact ⟨r, hthreads ▸ hr, hstop⟩
    | inr hr => exact ⟨p, hp, hstops (hr ▸ hstop)⟩

theorem proceed (h : Quiet s) (hcounted : Counted s) (i : Nat) (outcome : Outcome)
    (hapart : Apart s (.proceed i outcome)) : Quiet (s.proceed i outcome) := by
  have hnext : Counted (s.proceed i outcome) := hcounted.step (.proceed i outcome)
  unfold State.proceed at hnext ⊢
  split at hnext
  · exact h
  · exact h
  · rename_i hi
    exact h.put hi (.inl rfl) (fun hstop => absurd hstop Bool.false_ne_true) rfl
  · rename_i hi
    unfold State.take
    split
    · exact h.put hi (.inl rfl) (fun hstop => absurd hstop Bool.false_ne_true) rfl
    · exact h.put hi (.inl rfl) (fun hstop => absurd hstop Bool.false_ne_true) rfl
  · rename_i hi
    exact h.put hi (.inl rfl) (fun hstop => absurd hstop Bool.false_ne_true) rfl
  · rename_i t hi
    -- no thread is on its way to stop the compiler, and being handed it starts none
    intro p hp hstop
    have hthreads : ∃ c, p ∈ s.threads.set i (.handed t c) := by
      unfold State.getOrSpawnCompiler at hp
      split at hp <;> exact ⟨_, hp⟩
    obtain ⟨c, hp⟩ := hthreads
    cases List.mem_or_eq_of_mem_set hp with
    | inl hp =>
        rw [hapart t hi p hp] at hstop
        cases hstop
    | inr hp =>
        subst hp
        cases hstop
  · rename_i hi
    exact h.put hi (.inr rfl) (fun hstop => absurd hstop Bool.false_ne_true) rfl
  · rename_i hi
    exact h.put hi (.inr rfl) (fun hstop => absurd hstop Bool.false_ne_true) rfl
  · rename_i hi
    exact h.put hi (.inl rfl) (fun hstop => absurd hstop Bool.false_ne_true) rfl
  · rename_i hi
    by_cases hone : s.inFlight = 1
    · have hzero : s.inFlight - 1 = 0 := by omega
      exact fun _ _ _ => Handed.none_of_zero hnext hzero
    · exact h.put hi (.inl rfl) (fun hstop => absurd (of_decide_eq_true hstop) hone) rfl
  · rename_i prev hi
    split
    · next hprev =>
        exact h.put hi (.inl rfl) (fun _ => decide_eq_true hprev) rfl
    · exact h.put hi (.inl rfl) (fun hstop => absurd hstop Bool.false_ne_true) rfl
  · rename_i hi
    exact h.put hi (.inl rfl) (fun hstop => absurd hstop Bool.false_ne_true)
      (Counted.stopCompiler_threads s)

theorem step (h : Quiet s) (hcounted : Counted s) (e : Event) (hapart : Apart s e) :
    Quiet (s.step e) := by
  have haccept : ∀ count notice, Quiet (s.accept count notice) := by
    intro count notice
    unfold State.accept
    split
    · exact h
    · refine h.threads (fun p hp => ?_) fun p hp hstop => ?_
      · cases List.mem_append.mp hp with
        | inl hp => exact .inr ⟨p, hp, rfl⟩
        | inr hp => exact .inl (by rw [List.eq_of_mem_replicate hp]; rfl)
      · cases List.mem_append.mp hp with
        | inl hp => exact ⟨p, hp, hstop⟩
        | inr hp =>
            rw [List.eq_of_mem_replicate hp] at hstop
            cases hstop
  cases e with
  | spawn => exact haccept 1 .one
  | spawnBatch count => exact haccept count .all
  | notify caller who =>
      simp only [State.step, State.notify]
      split
      · exact h
      · refine h.threads (fun p hp => ?_) fun p hp hstop => ?_
        · obtain ⟨q, hq, rfl⟩ := List.mem_map.mp hp
          exact .inr ⟨q, hq, by cases q <;> rfl⟩
        · obtain ⟨q, hq, rfl⟩ := List.mem_map.mp hp
          exact ⟨q, hq, by cases q <;> exact hstop⟩
      · split
        · rename_i hi
          exact h.put hi (.inl rfl) (fun hstop => absurd hstop Bool.false_ne_true) rfl
        · split
          · exact h.same rfl
          · exact h
  | wake i =>
      simp only [State.step]
      split
      · rename_i hi
        exact h.put hi (.inl rfl) (fun hstop => absurd hstop Bool.false_ne_true) rfl
      · exact h
  | proceed i outcome => exact h.proceed hcounted i outcome hapart
  | shutdown timed => exact h.same rfl
  | close j =>
      simp only [State.step, State.close]
      split
      · exact h.same rfl
      · exact h.same rfl
      · exact h.same (Counted.stopCompiler_threads s)
      · exact h
  | timeOut j =>
      simp only [State.step, State.timeOut]
      split
      · exact h.same rfl
      · exact h.same rfl
      · exact h

end Quiet

/-- The compilers live along a run in which none is handed out on the way to a stop. -/
theorem live_of_apart (log : List Event) {s : State} (hcounted : Counted s) (h : Handed s)
    (hquiet : Quiet s) (hapart : Along Apart State.step s log) :
    Along (fun s e => Live (s.step e)) State.step s log := by
  induction log generalizing s with
  | nil => trivial
  | cons e es ih =>
      obtain ⟨hone, hrest⟩ := hapart
      have hnext := h.step hcounted e hquiet
      exact ⟨hnext.live, ih (hcounted.step e) hnext (hquiet.step hcounted e hone) hrest⟩

/-- What holds of every accepted task, of the threads, and of callers of `shutdown`. -/
structure Exact (s : State) : Prop where
  bound : s.threads.length = s.started ∧ s.started ≤ s.size
  taken : ∀ t < s.accepted, s.tasks.count t + (s.taken.map Prod.snd).count t = 1
  finished : ∀ t < s.accepted, s.tasks.count t + s.threads.countP (Place.holds t) +
    (s.finished.map Prod.fst).count t = 1
  only : ∀ t, s.accepted ≤ t →
    t ∉ s.tasks ∧ t ∉ s.taken.map Prod.snd ∧ t ∉ s.finished.map Prod.fst
  served : s.tasks ≠ [] →
    (∃ p ∈ s.threads, p.awake = true) ∨
      ((∃ p ∈ s.threads, p.isParked = true) ∧ s.notices ≠ []) ∨
      (s.threads.length = s.size ∧ ∀ p ∈ s.threads, p.task.isSome ∧ p.idle = false)
  returned : ∀ c ∈ s.closers, c.place = .returned true →
    s.shuttingDown = true ∧ s.tasks = [] ∧ ∀ p ∈ s.threads, p.task = none

namespace Counted

variable {s : State}

theorem served_awake (h : Counted s) (htasks : s.tasks ≠ []) (hidle : 0 < s.idle) :
    (∃ p ∈ s.threads, p.awake = true) ∨
      ((∃ p ∈ s.threads, p.isParked = true) ∧ s.notices ≠ []) := by
  rw [h.idle] at hidle
  obtain ⟨p, hp, hpidle⟩ := List.countP_pos_iff.mp hidle
  cases hparked : p.isParked with
  | false => exact .inl ⟨p, hp, by simp [Place.awake, hpidle, hparked]⟩
  | true =>
      rcases h.woken with hnone | hall | hcount
      · exact absurd hparked (List.countP_eq_zero.mp hnone p hp)
      · exact .inr ⟨⟨p, hp, hparked⟩, List.ne_nil_of_mem hall⟩
      · by_cases hnotices : s.notices = []
        · have hlen := List.length_pos_iff.mpr htasks
          rw [hnotices, List.length_nil] at hcount
          have hpos : 0 < s.threads.countP Place.awake := by omega
          obtain ⟨q, hq, hawake⟩ := List.countP_pos_iff.mp hpos
          exact .inl ⟨q, hq, hawake⟩
        · exact .inr ⟨⟨p, hp, hparked⟩, hnotices⟩

theorem exact (h : Counted s) : Exact s := by
  have hone : ∀ t < s.accepted, (List.range s.accepted).count t = 1 := fun t ht =>
    List.count_eq_one_of_mem List.nodup_range (List.mem_range.mpr ht)
  refine ⟨⟨h.started.symm, h.bound⟩, fun t ht => ?_, fun t ht => ?_, fun t ht => ?_,
    fun htasks => ?_, fun c hc hplace => ?_⟩
  · rw [h.taken t, hone t ht]
  · rw [h.finished t, hone t ht]
  · have hzero : (List.range s.accepted).count t = 0 :=
      List.count_eq_zero.mpr fun hmem => Nat.not_lt.mpr ht (List.mem_range.mp hmem)
    have htaken := h.taken t
    have hfinished := h.finished t
    rw [hzero] at htaken hfinished
    exact ⟨List.count_eq_zero.mp (by omega), List.count_eq_zero.mp (by omega),
      List.count_eq_zero.mp (by omega)⟩
  · by_cases hidle : 0 < s.idle
    · rcases h.served_awake htasks hidle with hawake | hparked
      · exact .inl hawake
      · exact .inr (.inl hparked)
    · have hlen := List.length_pos_iff.mpr htasks
      refine .inr (.inr ?_)
      rcases h.served with hfew | hfull
      · omega
      · refine ⟨by rw [← h.started, hfull], fun p hp => ?_⟩
        have hzero : s.threads.countP Place.idle = 0 := by rw [← h.idle]; omega
        have hbusy := List.countP_eq_zero.mp hzero p hp
        cases p <;> first | exact ⟨rfl, rfl⟩ | exact absurd rfl hbusy
  · have hzero := h.closed c hc (.inr hplace)
    have hcount := h.inFlight
    have hnone : s.threads.countP Place.inFlight = 0 := by omega
    refine ⟨h.closing (List.ne_nil_of_mem hc), List.length_eq_zero_iff.mp (by omega),
      fun p hp => ?_⟩
    have hout := List.countP_eq_zero.mp hnone p hp
    cases p <;> first | rfl | exact absurd rfl hout

end Counted

theorem step_closed {s : State} (h : s.shuttingDown = true) (e : Event) :
    (s.step e).shuttingDown = true ∧ (s.step e).accepted = s.accepted := by
  cases e with
  | spawn | spawnBatch _ => simp [State.step, State.accept, h]
  | notify caller who =>
      simp only [State.step, State.notify]
      split
      · exact ⟨h, rfl⟩
      · exact ⟨h, rfl⟩
      · split
        · exact ⟨h, rfl⟩
        · split <;> exact ⟨h, rfl⟩
  | wake i =>
      simp only [State.step]
      split <;> exact ⟨h, rfl⟩
  | proceed i outcome =>
      simp only [State.step, State.proceed, State.take, State.getOrSpawnCompiler, State.put,
        State.stopCompiler]
      split <;> first | exact ⟨h, rfl⟩ | (split <;> exact ⟨h, rfl⟩)
  | shutdown timed => exact ⟨rfl, rfl⟩
  | close j =>
      simp only [State.step, State.close, State.putCloser, State.stopCompiler]
      split <;> first | exact ⟨h, rfl⟩ | (split <;> exact ⟨h, rfl⟩)
  | timeOut j =>
      simp only [State.step, State.timeOut, State.putCloser]
      split <;> exact ⟨h, rfl⟩

theorem run_closed (log : List Event) {s : State} (h : s.shuttingDown = true) :
    (log.foldl State.step s).accepted = s.accepted := by
  induction log generalizing s with
  | nil => rfl
  | cons e es ih =>
      obtain ⟨hclosed, hsame⟩ := step_closed h e
      rw [List.foldl_cons, ih hclosed, hsame]

/-- Isolate tasks run exactly once and are not stranded, whatever the interleaving; after
`shutdown` has returned true no task is unfinished and none is accepted; and the compiler
a task was handed is not stopped before the task has finished in runs in which none is handed it
between a decrement of the tasks in flight to zero and the stop that follows. -/
theorem tasks_once (size : Nat) (log : List Event) :
    Exact (log.foldl State.step (.start size)) ∧
      (∀ c ∈ (log.foldl State.step (.start size)).closers, c.place = .returned true →
        ∀ more : List Event, (more.foldl State.step (log.foldl State.step (.start size))).accepted =
          (log.foldl State.step (.start size)).accepted) ∧
      (Along Apart State.step (.start size) log →
        Along (fun s e => Live (s.step e)) State.step (.start size) log) := by
  have hcounted := Counted.run size log
  refine ⟨hcounted.exact, fun c hc hplace more => ?_, ?_⟩
  · exact run_closed more (hcounted.exact.returned c hc hplace).1
  · refine live_of_apart log (Counted.start size) ⟨?_, ?_, ?_⟩ ?_
    · intro c hc
      cases hc
    · intro c hc
      cases hc
    · intro p hp
      cases hp
    · intro p hp
      cases hp

/-- Two tasks have run; the thread that finished the last of them has seen the count fall
to zero when another is accepted, taken and handed the compiler, which is then stopped. -/
def lateStop : List Event :=
  [.spawn, .spawn, .proceed 0 .ok, .proceed 0 .ok, .proceed 1 .ok, .proceed 1 .ok] ++
    List.replicate 7 (.proceed 1 .ok) ++ List.replicate 6 (.proceed 0 .ok) ++ [.spawn] ++
    List.replicate 3 (.proceed 1 .ok) ++ List.replicate 2 (.proceed 0 .ok)

theorem lateStop_stopped :
    (lateStop.foldl State.step (.start 2)).threads = [.arriving, .handed 2 0] ∧
      0 ∈ (lateStop.foldl State.step (.start 2)).stopped ∧
      ¬Live (lateStop.foldl State.step (.start 2)) := by
  have hthreads : (lateStop.foldl State.step (.start 2)).threads = [.arriving, .handed 2 0] := by
    decide
  have hstopped : 0 ∈ (lateStop.foldl State.step (.start 2)).stopped := by decide
  refine ⟨hthreads, hstopped, fun hlive => ?_⟩
  have hthere : Place.handed 2 0 ∈ (lateStop.foldl State.step (.start 2)).threads := by
    rw [hthreads]
    exact List.mem_cons_of_mem _ (List.mem_singleton_self _)
  exact hlive (.handed 2 0) hthere 0 rfl hstopped

end Zuri.Modules.IsolatePool
