import Zuri.Cmds.StoreMoves
import Mathlib.Data.List.Nodup
import Mathlib.Data.Fintype.Basic

/-!
Installing is all or nothing wherever the command may stop and be recovered from: what
`apply` leaves behind, however it ends, either is whole already or has a journal that
covers what has been moved, and `recover` makes that whole.
-/

namespace Zuri.Cmds.Store

open Transition Transaction

variable {Name Contents : Type} [DecidableEq Name]

/-- The operations whose errors are caught, or raised before anything has moved. -/
def FileOp.caught : FileOp Name Contents → Bool
  | .writeJournal .swapping _ | .stage _ _ | .moveOut _ | .moveIn _ | .hook _ => true
  | _ => false

/-- The operations after which a committed transaction may stop: the record has been
saved, or everything has been put back. -/
def FileOp.settles : FileOp Name Contents → Bool
  | .saveLock | .saveManifest | .discard | .writeJournal .rolledBack _ => true
  | _ => false

def FileOp.commits : FileOp Name Contents → Bool
  | .writeJournal .committed _ => true
  | _ => false

/-- A command may stop for good at `op`: while packages are swapped the journal covers
what has been moved, and once it says `committed` the record has been saved. -/
def Survivable (libs : Name → Option Contents) (op : FileOp Name Contents)
    (d : Disk Name Contents) : Prop :=
  ∀ j, d.journal = some j →
    (j.state = .swapping → Covers libs j.done d) ∧ (j.state = .committed → op.settles)

/-- The command is not stopped for good at this operation, or may be. -/
def MayStop (libs : Name → Option Contents)
    (a : Attempted (Machine Name Contents) (FileOp Name Contents)) : Prop :=
  match a.fate with
  | .done => True
  | .raises => a.op.caught ∨ Survivable libs a.op a.before.disk
  | .killed => Survivable libs a.op a.before.disk

instance [Fintype Name] [DecidableEq Contents] (libs : Name → Option Contents)
    (done : List (Entry Name)) (d : Disk Name Contents) : Decidable (Covers libs done d) :=
  decidable_of_iff
    ((∀ n, d.saved n ≠ none → ∃ e ∈ done, e.name = n ∧ e.old = true) ∧
      (∀ e ∈ done, e.new = true → (∃ a ∈ done, a.name = e.name ∧ a.old = true) →
        d.saved e.name ≠ none) ∧
      ∀ n, libs n = none → d.libs n ≠ none → ∃ e ∈ done, e.name = n ∧ e.new = true)
    ⟨fun h => ⟨h.1, h.2.1, h.2.2⟩, fun h => ⟨h.left, h.notBack, h.arrived⟩⟩

instance [Fintype Name] [DecidableEq Contents] (libs : Name → Option Contents)
    (op : FileOp Name Contents) (d : Disk Name Contents) : Decidable (Survivable libs op d) :=
  inferInstanceAs (Decidable (∀ j ∈ d.journal,
    (j.state = .swapping → Covers libs j.done d) ∧ (j.state = .committed → op.settles)))

instance [Fintype Name] [DecidableEq Contents] (libs : Name → Option Contents) :
    ∀ a : Attempted (Machine Name Contents) (FileOp Name Contents), Decidable (MayStop libs a)
  | ⟨_, _, .done⟩ => isTrue trivial
  | ⟨before, op, .raises⟩ => inferInstanceAs (Decidable (op.caught ∨ Survivable libs op before.disk))
  | ⟨before, op, .killed⟩ => inferInstanceAs (Decidable (Survivable libs op before.disk))

/-- The record of a package agrees with what is in `libs`. -/
def Disk.Describes (d : Disk Name Contents) (digest : Contents → String) (n : Name) : Prop :=
  (d.record n).map Package.tree = (d.libs n).map digest

/-- No transaction is left over. -/
structure Disk.Idle (d : Disk Name Contents) : Prop where
  journal : d.journal = none
  saved : d.saved = fun _ => none

namespace Plan

variable (plan : Plan Name Contents)

def names : List Name := plan.staged.map Prod.fst

/-- What was staged for a package. -/
def contents (n : Name) : Option Contents :=
  (plan.staged.find? fun p => p.1 = n).map fun p => p.2.contents

/-- The new contents of every package. -/
def target (libs : Name → Option Contents) (n : Name) : Option Contents :=
  if n ∈ plan.names then plan.contents n
  else if n ∈ plan.removed then none
  else libs n

end Plan

/-- Every package has its old contents or, where the transaction was committed, every one
its new contents, and the record still describes them. -/
structure Whole (plan : Plan Name Contents) (digest : Contents → String) (committed : Prop)
    (before after : Disk Name Contents) : Prop where
  libs : after.libs = before.libs ∨ committed ∧ after.libs = plan.target before.libs
  described : ∀ n, before.Describes digest n → after.Describes digest n

omit [DecidableEq Name] in
theorem find_fst [DecidableEq Name] {β : Type} {l : List (Name × β)} (hl : (l.map Prod.fst).Nodup)
    {p : Name × β} (hp : p ∈ l) : l.find? (fun q => q.1 = p.1) = some p := by
  induction l with
  | nil => cases hp
  | cons q qs ih =>
      rw [List.map_cons, List.nodup_cons] at hl
      cases hp with
      | head => simp
      | tail _ hp =>
          have hne : q.1 ≠ p.1 := fun h => hl.1 (h ▸ List.mem_map_of_mem hp)
          rw [List.find?_cons_of_neg (by simpa using hne)]
          exact ih hl.2 hp

theorem foldl_forget {β : Type} (removed : List Name) (r : Name → Option β) (n : Name) :
    removed.foldl (fun r k => Function.update r k none) r n =
      if n ∈ removed then none else r n := by
  induction removed generalizing r with
  | nil => simp
  | cons k ks ih =>
      rw [List.foldl_cons, ih]
      by_cases hn : n = k
      · subst hn
        simp
      · simp [hn, Function.update_of_ne hn]

theorem foldl_put_of_notMem {β γ : Type} (f : Name × β → γ) (l : List (Name × β))
    (r : Name → Option γ) {n : Name} (hn : n ∉ l.map Prod.fst) :
    l.foldl (fun (r : Name → Option γ) p => Function.update r p.1 (some (f p))) r n = r n := by
  induction l generalizing r with
  | nil => rfl
  | cons q qs ih =>
      rw [List.map_cons, List.mem_cons, not_or] at hn
      rw [List.foldl_cons, ih _ hn.2, Function.update_of_ne hn.1]

theorem foldl_put_of_mem {β γ : Type} (f : Name × β → γ) (l : List (Name × β))
    (hl : (l.map Prod.fst).Nodup) (r : Name → Option γ) {p : Name × β} (hp : p ∈ l) :
    l.foldl (fun (r : Name → Option γ) p => Function.update r p.1 (some (f p))) r p.1 =
      some (f p) := by
  induction l generalizing r with
  | nil => cases hp
  | cons q qs ih =>
      rw [List.map_cons, List.nodup_cons] at hl
      rw [List.foldl_cons]
      cases hp with
      | head => rw [foldl_put_of_notMem f qs _ hl.1, Function.update_self]
      | tail _ hp => exact ih hl.2 _ hp

namespace Plan

variable (plan : Plan Name Contents)

theorem contents_of_mem {p : Name × Item Contents} (hp : p ∈ plan.staged) :
    plan.contents p.1 = some p.2.contents := by
  rw [contents, find_fst plan.staged_nodup hp]
  rfl

theorem contents_of_mem_names {n : Name} (hn : n ∈ plan.names) : ∃ c, plan.contents n = some c := by
  obtain ⟨p, hp, rfl⟩ := List.mem_map.mp hn
  exact ⟨_, plan.contents_of_mem hp⟩

@[simp] theorem withoutBlank_tree (p : Package) : p.withoutBlank.tree = p.tree := by
  unfold Package.withoutBlank
  split <;> rfl

/-- The record saved describes the new contents. -/
theorem packages_describe (digest : Contents → String) {before d : Disk Name Contents}
    (hrecord : d.record = before.record) (hlibs : d.libs = plan.target before.libs) {n : Name}
    (hn : before.Describes digest n) :
    { d with record := plan.packages digest d }.Describes digest n := by
  unfold Disk.Describes at hn ⊢
  simp only [packages, Option.map_map, Function.comp_def, withoutBlank_tree]
  by_cases hs : n ∈ plan.names
  · obtain ⟨p, hp, rfl⟩ := List.mem_map.mp hs
    have hhere : d.libs p.1 = some p.2.contents := by
      rw [hlibs, target, if_pos hs, plan.contents_of_mem hp]
    rw [foldl_put_of_mem _ _ plan.staged_nodup _ hp, hhere]
    simp [recorded, hhere]
  · rw [foldl_put_of_notMem _ _ _ hs, foldl_forget, hlibs, target, if_neg hs, hrecord]
    by_cases hr : n ∈ plan.removed
    · simp [hr]
    · simpa [hr] using hn

end Plan

theorem ensures_writeJournal
    {C : Attempted (Machine Name Contents) (FileOp Name Contents) → Prop}
    {Q : Unit → Machine Name Contents → Prop} {R K : Machine Name Contents → Prop} {state : Phase}
    {m : Machine Name Contents} :
    Script.Ensures exec C Q R K (writeJournal state) m ↔
      (C ⟨m, .writeJournal state m.done, .done⟩ →
        Q () { m with disk := { m.disk with journal := some ⟨state, m.done⟩ } }) ∧
      (C ⟨m, .writeJournal state m.done, .raises⟩ → R m) ∧
      (C ⟨m, .writeJournal state m.done, .killed⟩ → K m) := by
  rw [writeJournal, Script.ensures_bind, Script.ensures_get, Script.ensures_act]
  refine and_congr_left' ⟨fun h hC => h _ rfl hC, fun h t ht hC => ?_⟩
  cases ht
  exact h hC

section Command

variable (plan : Plan Name Contents) (digest : Contents → String)
  (before : Disk Name Contents) (committed : Prop)

/-- What a command leaves behind when it stops. -/
inductive Stopped (m : Machine Name Contents) : Prop where
  | settled (hjournal : ∀ j, m.disk.journal = some j → j.state ≠ .swapping)
      (hidle : m.disk.journal = none → m.disk.Idle)
      (hwhole : Whole plan digest committed before m.disk)
  | midway (done : List (Entry Name)) (hkept : Kept (some ⟨.swapping, done⟩) before.record m)
      (hplaces : Places before.libs m.disk) (hsound : Sound before.libs done.reverse)
      (hcovers : Covers before.libs done m.disk)

/-- An operation at which the command may stop, where the transaction counts as
committed once the journal says so. -/
def Allowed (a : Attempted (Machine Name Contents) (FileOp Name Contents)) : Prop :=
  MayStop before.libs a ∧ (a.op.commits → a.fate = .done → committed)

/-- While packages are swapped; `written` is what the journal has. -/
structure Swapping (gone came : List Name) (written : List (Entry Name))
    (m : Machine Name Contents) : Prop where
  moves : Moves before.libs plan.contents gone came m.disk
  logged : Logged before.libs gone came m.done
  kept : Kept (some ⟨.swapping, written⟩) before.record m
  sound : Sound before.libs written.reverse
  fresh : ∀ n ∈ plan.names, n ∉ came → m.disk.fresh n = plan.contents n

/-- What the handler of `commit` finds. -/
def Failed (m : Machine Name Contents) : Prop :=
  ∃ gone came written, Swapping plan before gone came written m

variable {plan digest before committed} {gone came : List Name} {written : List (Entry Name)}
  {m : Machine Name Contents}

theorem Stopped.old (hjournal : ∀ j, m.disk.journal = some j → j.state ≠ .swapping)
    (hidle : m.disk.journal = none → m.disk.Idle)
    (hlibs : m.disk.libs = before.libs) (hrecord : m.disk.record = before.record) :
    Stopped plan digest before committed m := by
  refine .settled hjournal hidle ⟨.inl hlibs, fun n hn => ?_⟩
  simpa only [Disk.Describes, hlibs, hrecord] using hn

theorem Swapping.stopped (h : Swapping plan before gone came written m)
    {op : FileOp Name Contents} (hmay : Survivable before.libs op m.disk) :
    Stopped plan digest before committed m :=
  .midway written h.kept h.moves.places h.sound ((hmay _ h.kept.1).1 rfl)

/-- An operation of the swap: it may raise or be stopped at. -/
theorem Swapping.act (h : Swapping plan before gone came written m)
    (op : FileOp Name Contents) {t : Machine Name Contents} (hop : exec op m = some t)
    {Q : Unit → Machine Name Contents → Prop} (hQ : Q () t) :
    Script.Ensures exec (Allowed before committed) Q (Failed plan before)
      (Stopped plan digest before committed) (Script.act op) m := by
  rw [Script.ensures_act]
  refine ⟨fun u hu _ => ?_, fun _ => ⟨gone, came, written, h⟩, fun hC => h.stopped hC.1⟩
  rw [hop] at hu
  cases hu
  exact hQ

theorem Swapping.write (h : Swapping plan before gone came written m)
    {Q : Unit → Machine Name Contents → Prop}
    (hQ : ∀ t, Swapping plan before gone came t.done t → t.done = m.done → Q () t) :
    Script.Ensures exec (Allowed before committed) Q (Failed plan before)
      (Stopped plan digest before committed) (writeJournal .swapping) m := by
  rw [writeJournal, Script.ensures_bind, Script.ensures_get]
  refine h.act _ rfl (hQ { m with disk := { m.disk with journal := some ⟨.swapping, m.done⟩ } }
    ⟨?_, h.logged, ⟨rfl, h.kept.2⟩, h.logged.sound, h.fresh⟩ rfl)
  exact ⟨h.moves.came_gone, h.moves.here, h.moves.out, h.moves.away, h.moves.back⟩

/-- A package that was there has gone out, and an entry says so. -/
theorem Swapping.out (h : Swapping plan before gone came written m) {n : Name} {c : Contents}
    (hc : n ∉ came) (hn : m.disk.libs n = some c) :
    Swapping plan before (n :: gone) came written
      { disk := { m.disk with
          libs := Function.update m.disk.libs n none
          saved := Function.update m.disk.saved n (some c) }
        done := m.done ++ [⟨n, true, false⟩] } := by
  obtain ⟨hlibs, hmoves⟩ := h.moves.moveOut hc hn
  exact ⟨hmoves, h.logged.append hc (fun _ => hlibs) (by simp), h.kept, h.sound, h.fresh⟩

/-- A package that was not there comes in next, and an entry says so. -/
theorem Swapping.vacant (h : Swapping plan before gone came written m) {n : Name}
    (hc : n ∉ came) (hn : m.disk.libs n = none) :
    Swapping plan before (n :: gone) came written
      { m with done := m.done ++ [⟨n, false, false⟩] } :=
  ⟨h.moves.stay hc hn, h.logged.append hc (by simp) fun _ => h.moves.nothing hn, h.kept, h.sound,
    h.fresh⟩

/-- A package has come in, and its entry says so. -/
theorem Swapping.arrive {done : List (Entry Name)} {had : Bool} {n : Name} {c : Contents}
    (h : Swapping plan before (n :: gone) came written m)
    (hdone : m.done = done ++ [⟨n, had, false⟩]) (hn : plan.contents n = some c) :
    Swapping plan before (n :: gone) (n :: came) written
      { disk := { m.disk with
          fresh := Function.update m.disk.fresh n none
          libs := Function.update m.disk.libs n (some c) }
        done := done ++ [⟨n, had, true⟩] } := by
  have hlogged := h.logged
  rw [hdone] at hlogged
  refine ⟨h.moves.moveIn List.mem_cons_self hn _, hlogged.arrive List.mem_cons_self, h.kept,
    h.sound, fun k hk hkc => ?_⟩
  obtain ⟨hkn, hkc⟩ := List.ne_and_not_mem_of_not_mem_cons hkc
  simpa [Function.update_of_ne hkn] using h.fresh k hk hkc

theorem moveRemoved_ensures {n : Name} (h : Swapping plan before gone [] m.done m) :
    Script.Ensures exec (Allowed before committed)
      (fun _ t => Swapping plan before (n :: gone) [] t.done t) (Failed plan before)
      (Stopped plan digest before committed) (moveRemoved n) m := by
  rw [moveRemoved, Script.ensures_bind, Script.ensures_get]
  cases hn : m.disk.libs n with
  | none =>
      rw [if_neg (by simp)]
      exact ⟨h.moves.stay (by simp) hn, h.logged.stay (h.moves.nothing hn), h.kept, h.sound,
        h.fresh⟩
  | some c =>
      rw [if_pos (by rfl), Script.ensures_bind]
      refine h.act (.moveOut n) (t := { m with disk := { m.disk with
        libs := Function.update m.disk.libs n none
        saved := Function.update m.disk.saved n (some c) } }) ?_ ?_
      · simp [exec, Disk.exec, hn]
      · rw [Script.ensures_bind, append, Script.ensures_modify]
        exact (h.out (by simp) hn).write fun t ht _ => ht

omit [DecidableEq Name] in
theorem modify_last (done : List (Entry Name)) (e : Entry Name) (f : Entry Name → Entry Name) :
    (done ++ [e]).modify ((done ++ [e]).length - 1) f = done ++ [f e] := by
  induction done with
  | nil => rfl
  | cons a as ih =>
      have hlen : (as ++ [e]).length = ((as ++ [e]).length - 1) + 1 := by simp
      rw [List.cons_append, List.length_cons, Nat.add_sub_cancel, hlen, List.modify_succ_cons, ih,
        List.cons_append]

/-- The rest of what `commit` does with a staged package, once its entry is made. -/
theorem moveIn_ensures {done : List (Entry Name)} {had : Bool} {n : Name}
    (h : Swapping plan before (n :: gone) came written m)
    (hdone : m.done = done ++ [⟨n, had, false⟩]) (hn : n ∈ plan.names) (hc : n ∉ came) :
    Script.Ensures exec (Allowed before committed)
      (fun _ t => Swapping plan before (n :: gone) (n :: came) t.done t) (Failed plan before)
      (Stopped plan digest before committed)
      (do
        writeJournal .swapping
        Script.act (.moveIn n)
        setNew
        writeJournal .swapping) m := by
  obtain ⟨c, hcontents⟩ := plan.contents_of_mem_names hn
  rw [Script.ensures_bind]
  refine h.write fun t ht hsame => ?_
  have hfresh : t.disk.fresh n = some c := by rw [ht.fresh n hn hc, hcontents]
  rw [Script.ensures_bind]
  refine ht.act (.moveIn n) (t := { t with disk := { t.disk with
    fresh := Function.update t.disk.fresh n none
    libs := Function.update t.disk.libs n (some c) } }) ?_ ?_
  · simp [exec, Disk.exec, hfresh]
  · rw [hdone] at hsame
    rw [Script.ensures_bind, setNew, Script.ensures_modify]
    simp only [hsame, modify_last]
    exact (ht.arrive hsame hcontents).write fun u hu _ => hu

theorem moveStaged_ensures {n : Name} (h : Swapping plan before gone came m.done m)
    (hn : n ∈ plan.names) (hc : n ∉ came) :
    Script.Ensures exec (Allowed before committed)
      (fun _ t => Swapping plan before (n :: gone) (n :: came) t.done t) (Failed plan before)
      (Stopped plan digest before committed) (moveStaged n) m := by
  rw [moveStaged, Script.ensures_bind, Script.ensures_get]
  cases hlibs : m.disk.libs n with
  | none =>
      rw [if_neg (by simp), Script.ensures_bind, append, Script.ensures_modify]
      exact moveIn_ensures (h.vacant hc hlibs) rfl hn hc
  | some c =>
      rw [if_pos (by rfl), Script.ensures_bind]
      refine h.act (.moveOut n) (t := { m with disk := { m.disk with
        libs := Function.update m.disk.libs n none
        saved := Function.update m.disk.saved n (some c) } }) ?_ ?_
      · simp [exec, Disk.exec, hlibs]
      · rw [Script.ensures_bind, append, Script.ensures_modify]
        exact moveIn_ensures (h.out hc hlibs) rfl hn hc

/-- All the moves of a transaction. -/
theorem moves_ensures (h : Swapping plan before [] [] m.done m) :
    Script.Ensures exec (Allowed before committed)
      (fun _ t => ∃ gone came, Swapping plan before gone came t.done t ∧
        (∀ k, k ∈ gone ↔ k ∈ plan.removed ∨ k ∈ plan.names) ∧ ∀ k, k ∈ came ↔ k ∈ plan.names)
      (Failed plan before) (Stopped plan digest before committed)
      (do
        plan.removed.forM moveRemoved
        (plan.staged.map Prod.fst).forM moveStaged) m := by
  rw [Script.ensures_bind]
  refine (Script.ensures_forM (fun xs t => ∃ gone, Swapping plan before gone [] t.done t ∧
    ∀ k, (k ∈ gone ∨ k ∈ xs) ↔ k ∈ plan.removed) _ ?_ plan.removed m ⟨[], h, by simp⟩).weaken ?_
    (fun _ h => h) fun _ h => h
  · intro n xs t ht
    obtain ⟨gone, hswap, hall⟩ := ht
    refine (moveRemoved_ensures hswap).weaken (fun _ u hu => ⟨n :: gone, hu, fun k => ?_⟩)
      (fun _ h => h) fun _ h => h
    rw [← hall k, List.mem_cons, List.mem_cons, or_assoc, or_left_comm]
  · intro _ t ht
    obtain ⟨out, hswap, hall⟩ := ht
    refine (Script.ensures_forM (fun xs u => ∃ gone came, Swapping plan before gone came u.done u ∧
      (∀ k, k ∈ gone ↔ k ∈ plan.removed ∨ k ∈ came) ∧ (∀ k, (k ∈ came ∨ k ∈ xs) ↔ k ∈ plan.names) ∧
      xs.Nodup ∧ ∀ k ∈ xs, k ∉ came) _ ?_ plan.names t
      ⟨out, [], hswap, by simpa using hall, by simp, plan.staged_nodup, by simp⟩).weaken ?_
      (fun _ h => h) fun _ h => h
    · intro n xs u hu
      obtain ⟨gone, came, hswap, hgone, hnames, hnodup, hnew⟩ := hu
      obtain ⟨hnot, hnodup⟩ := List.nodup_cons.mp hnodup
      refine (moveStaged_ensures hswap ((hnames n).mp (.inr List.mem_cons_self))
        (hnew n List.mem_cons_self)).weaken
        (fun _ v hv => ⟨n :: gone, n :: came, hv, fun k => ?_, fun k => ?_, hnodup, ?_⟩)
        (fun _ h => h) fun _ h => h
      · rw [List.mem_cons, List.mem_cons, hgone k, or_left_comm]
      · rw [← hnames k, List.mem_cons, List.mem_cons, or_assoc, or_left_comm]
      · intro k hk hkc
        cases List.mem_cons.mp hkc with
        | inl hkn => exact hnot (hkn ▸ hk)
        | inr hkc => exact hnew k (List.mem_cons_of_mem n hk) hkc
    · intro _ u hu
      obtain ⟨gone, came, hswap, hgone, hnames, _, _⟩ := hu
      have hcame : ∀ k, k ∈ came ↔ k ∈ plan.names := fun k => by simpa using hnames k
      exact ⟨gone, came, hswap, fun k => by rw [hgone k, hcame k], hcame⟩

theorem Swapping.target (h : Swapping plan before gone came written m)
    (hgone : ∀ k, k ∈ gone ↔ k ∈ plan.removed ∨ k ∈ plan.names)
    (hcame : ∀ k, k ∈ came ↔ k ∈ plan.names) : m.disk.libs = plan.target before.libs := by
  funext n
  rw [Plan.target]
  split
  · rename_i hn
    exact h.moves.back n ((hcame n).mpr hn)
  · rename_i hn
    split
    · rename_i hr
      exact h.moves.away n ((hgone n).mpr (.inl hr)) fun hc => hn ((hcame n).mp hc)
    · rename_i hr
      exact (h.moves.here n fun hg => ((hgone n).mp hg).elim hr hn).1

/-- The journal has been rolled back, and everything is as it was. -/
structure RolledBack (before : Disk Name Contents) (m : Machine Name Contents) : Prop where
  journal : m.disk.journal = some ⟨.rolledBack, []⟩
  libs : m.disk.libs = before.libs
  record : m.disk.record = before.record

omit [DecidableEq Name] in
theorem places_old {d : Disk Name Contents} (hlibs : d.libs = before.libs)
    (hsaved : d.saved = fun _ => none) : Places before.libs d := by
  refine ⟨fun n _ => by rw [hsaved], fun n c hn => .inr ⟨by rw [hsaved], by rw [hlibs, hn]⟩⟩

/-- `rollback`, from any point at which the entries in memory cover what has been moved. -/
theorem rollback_ensures {j : Journal Name} (hplaces : Places before.libs m.disk)
    (hsound : Sound before.libs m.done.reverse) (hcovers : Covers before.libs m.done m.disk)
    (hkept : Kept (some j) before.record m)
    (hj : j.state = .swapping ∧ Sound before.libs j.done.reverse ∨ j.state = .committed) :
    Script.Ensures exec (Allowed before committed) (fun _ t => RolledBack before t)
      (Stopped plan digest before committed) (Stopped plan digest before committed) rollback m := by
  have hmidway : ∀ (t : Machine Name Contents) (op : FileOp Name Contents),
      Places before.libs t.disk → Kept (some j) before.record t →
      Survivable before.libs op t.disk → j.state = .swapping ∧ Sound before.libs j.done.reverse →
      Stopped plan digest before committed t := by
    intro t op ht hkept hmay hswapping
    obtain ⟨state, done⟩ := j
    obtain ⟨rfl, hdone⟩ := hswapping
    exact .midway done hkept ht hdone ((hmay _ hkept.1).1 rfl)
  have hstop : StopsIn (some j) before.record before.libs (Allowed before committed)
      (Stopped plan digest before committed) (Stopped plan digest before committed) := by
    intro t op fate hundoes ht hkept _ hfate hC
    have hmay : Survivable before.libs op t.disk := by
      cases fate with
      | done => exact absurd rfl hfate
      | killed => exact hC.1
      | raises =>
          cases hC.1 with
          | inl hcaught => cases op <;> first | exact hundoes.elim | cases hcaught
          | inr hmay => exact hmay
    suffices h : Stopped plan digest before committed t from ⟨h, h⟩
    cases hj with
    | inl hswapping => exact hmidway t op ht hkept hmay hswapping
    | inr hcommitted =>
        have hsettles := (hmay _ hkept.1).2 hcommitted
        cases op <;> first | exact hundoes.elim | cases hsettles
  rw [rollback, Script.ensures_bind, Script.ensures_get, Script.ensures_bind]
  refine (undo_ensures hstop m.done m hplaces hsound hcovers hkept).weaken ?_ (fun _ h => h)
    fun _ h => h
  intro _ t ht
  obtain ⟨hlibs, hsaved, hkept⟩ := ht
  have hold : Survivable before.libs (.writeJournal .rolledBack []) t.disk →
      Stopped plan digest before committed { t with done := [] } := by
    intro hmay
    cases hj with
    | inl hswapping =>
        exact hmidway { t with done := [] } _ (places_old hlibs hsaved) hkept hmay hswapping
    | inr hcommitted =>
        refine .old (fun k hk => ?_) (by simp [hkept.1]) hlibs hkept.2
        have hsame := hkept.1.symm.trans hk
        cases hsame
        rw [hcommitted]
        simp
  rw [Script.ensures_bind, Script.ensures_modify, ensures_writeJournal]
  refine ⟨fun _ => ⟨rfl, hlibs, hkept.2⟩, fun hC => ?_, fun hC => hold hC.1⟩
  · cases hC.1 with
    | inl hcaught => cases hcaught
    | inr hmay => exact hold hmay

/-- After `commit`: the new packages are in place, and everything can still be undone. -/
structure Committed (plan : Plan Name Contents) (before : Disk Name Contents) (committed : Prop)
    (m : Machine Name Contents) : Prop where
  committed : committed
  libs : m.disk.libs = plan.target before.libs
  kept : Kept (some ⟨.committed, m.done⟩) before.record m
  places : Places before.libs m.disk
  sound : Sound before.libs m.done.reverse
  covers : Covers before.libs m.done m.disk

/-- Before anything is moved. -/
structure Staging (before : Disk Name Contents) (m : Machine Name Contents) : Prop where
  journal : m.disk.journal = some ⟨.staging, []⟩
  libs : m.disk.libs = before.libs
  saved : m.disk.saved = fun _ => none
  record : m.disk.record = before.record
  done : m.done = []

omit [DecidableEq Name] in
theorem Staging.stopped [DecidableEq Name] (h : Staging before m) :
    Stopped plan digest before committed m := by
  refine .old (fun j hj => ?_) (by simp [h.journal]) h.libs h.record
  rw [h.journal] at hj
  cases hj
  simp

theorem commit_ensures (h : Staging before m)
    (hfresh : ∀ n ∈ plan.names, m.disk.fresh n = plan.contents n) :
    Script.Ensures exec (Allowed before committed) (fun _ t => Committed plan before committed t)
      (Stopped plan digest before committed) (Stopped plan digest before committed)
      (commit plan.removed plan.names) m := by
  have hstart : Swapping plan before [] [] [] { m with disk := { m.disk with
      journal := some ⟨.swapping, m.done⟩ } } := by
    refine ⟨⟨by simp, fun n _ => ?_, by simp, by simp, by simp⟩, ?_, ⟨by rw [h.done], h.record⟩,
      trivial, fun n hn _ => hfresh n hn⟩
    · exact ⟨by rw [h.libs], by rw [h.saved]⟩
    · rw [h.done]
      exact ⟨trivial, by simp, by simp, by simp, by simp⟩
  rw [commit, Script.ensures_bind, ensures_writeJournal]
  refine ⟨fun _ => ?_, fun _ => h.stopped, fun _ => h.stopped⟩
  rw [Script.ensures_bind, Script.ensures_attempt]
  have hmoves := @moves_ensures _ _ _ plan digest before committed { m with
    disk := { m.disk with journal := some ⟨.swapping, m.done⟩ } } (by rwa [h.done] at hstart ⊢)
  refine hmoves.weaken ?_ ?_ fun _ h => h
  · intro _ t ht
    obtain ⟨gone, came, hswap, hgone, hcame⟩ := ht
    rw [ensures_writeJournal]
    refine ⟨fun hC => ?_, fun hC => ?_, fun hC => hswap.stopped hC.1⟩
    · exact ⟨hC.2 rfl rfl, hswap.target hgone hcame, ⟨rfl, hswap.kept.2⟩,
        ⟨hswap.moves.places.absent, hswap.moves.places.present⟩, hswap.logged.sound,
        ⟨(hswap.logged.covers hswap.moves).left, (hswap.logged.covers hswap.moves).notBack,
          (hswap.logged.covers hswap.moves).arrived⟩⟩
    · cases hC.1 with
      | inl hcaught => cases hcaught
      | inr hmay => exact hswap.stopped hmay
  · intro t ht
    obtain ⟨gone, came, written, hswap⟩ := ht
    rw [Script.ensures_bind]
    refine (rollback_ensures hswap.moves.places hswap.logged.sound
      (hswap.logged.covers hswap.moves) hswap.kept (.inl ⟨rfl, hswap.sound⟩)).weaken ?_
      (fun _ h => h) fun _ h => h
    intro _ u hu
    refine .old (fun k hk => ?_) (by simp [hu.journal]) hu.libs hu.record
    rw [hu.journal] at hk
    cases hk
    simp

/-- The next `recover` makes whole what a command leaves behind, and leaves nothing over. -/
theorem recover_ensures (h : Stopped plan digest before committed m) :
    Script.Ensures exec
      (fun a => a.fate ≠ .killed ∧ (a.fate = .raises → exec a.op a.before = none))
      (fun _ t => Whole plan digest committed before t.disk ∧ t.disk.Idle) (fun _ => False)
      (fun _ => False) recover m := by
  have hdiscard : ∀ t : Machine Name Contents, Whole plan digest committed before t.disk →
      Script.Ensures exec
        (fun a => a.fate ≠ .killed ∧ (a.fate = .raises → exec a.op a.before = none))
        (fun _ t => Whole plan digest committed before t.disk ∧ t.disk.Idle) (fun _ => False)
        (fun _ => False) (Script.act .discard) t := by
    intro t ht
    rw [Script.ensures_act]
    refine ⟨fun u hu _ => ?_, fun hC => ?_, fun hC => hC.1 rfl⟩
    · cases hu
      exact ⟨⟨ht.libs, ht.described⟩, rfl, rfl⟩
    · cases hC.2 rfl
  rw [recover, Script.ensures_bind, Script.ensures_get]
  cases h with
  | settled hjournal hidle hwhole =>
      cases hj : m.disk.journal with
      | none => exact ⟨hwhole, hidle hj⟩
      | some j =>
          dsimp only
          rw [if_neg (hjournal j hj)]
          exact hdiscard m hwhole
  | midway done hkept hplaces hsound hcovers =>
      have hstop : StopsIn (some ⟨.swapping, done⟩) before.record before.libs
          (fun a : Attempted (Machine Name Contents) (FileOp Name Contents) =>
            a.fate ≠ .killed ∧ (a.fate = .raises → exec a.op a.before = none))
          (fun _ => False) (fun _ => False) := by
        intro t op fate _ _ _ hop hfate hC
        cases fate with
        | done => exact absurd rfl hfate
        | killed => exact absurd rfl hC.1
        | raises => rw [hC.2 rfl] at hop; cases hop
      rw [hkept.1]
      dsimp only
      rw [if_pos rfl, Script.ensures_bind, Script.ensures_attempt]
      refine (undo_ensures hstop done m hplaces hsound hcovers hkept).weaken ?_ (fun _ h => h.elim)
        fun _ h => h
      intro _ t ht
      obtain ⟨hlibs, _, hkept⟩ := ht
      refine hdiscard t ⟨.inl hlibs, fun n hn => ?_⟩
      simpa only [Disk.Describes, hlibs, hkept.2] using hn

theorem stage_ensures (h : Staging before m) :
    Script.Ensures exec (Allowed before committed)
      (fun _ t => Staging before t ∧ ∀ n ∈ plan.names, t.disk.fresh n = plan.contents n)
      (Staging before) (Stopped plan digest before committed)
      (plan.staged.forM fun p => Script.act (.stage p.1 p.2.contents)) m := by
  refine (Script.ensures_forM (fun ps t => Staging before t ∧ (∀ p ∈ ps, p ∈ plan.staged) ∧
    ∀ q ∈ plan.staged, q ∈ ps ∨ t.disk.fresh q.1 = plan.contents q.1) _ ?_ plan.staged m
    ⟨h, fun _ hp => hp, fun _ hq => .inl hq⟩).weaken ?_ (fun _ h => h) fun _ h => h
  · intro p ps t ht
    obtain ⟨hstaging, hps, hdone⟩ := ht
    rw [Script.ensures_act]
    refine ⟨fun u hu _ => ?_, fun _ => hstaging, fun _ => hstaging.stopped⟩
    cases hu
    refine ⟨⟨hstaging.journal, hstaging.libs, hstaging.saved, hstaging.record, hstaging.done⟩,
      fun q hq => hps q (List.mem_cons_of_mem p hq), fun q hq => ?_⟩
    by_cases hqp : q.1 = p.1
    · refine .inr ?_
      rw [hqp, plan.contents_of_mem (hps p List.mem_cons_self)]
      exact Function.update_self ..
    · cases hdone q hq with
      | inl hmem =>
          cases hmem with
          | head => exact absurd rfl hqp
          | tail _ hmem => exact .inl hmem
      | inr hfresh => exact .inr (by simpa [Function.update_of_ne hqp] using hfresh)
  · intro _ t ht
    obtain ⟨hstaging, _, hdone⟩ := ht
    refine ⟨hstaging, fun n hn => ?_⟩
    obtain ⟨q, hq, rfl⟩ := List.mem_map.mp hn
    cases hdone q hq with
    | inl hmem => cases hmem
    | inr hfresh => exact hfresh

/-- An operation that changes nothing that matters here, from a state that is settled. -/
theorem settled_ensures {op : FileOp Name Contents} (hop : exec op m = some m)
    (h : Stopped plan digest before committed m) :
    Script.Ensures exec (Allowed before committed) (fun _ t => t = m)
      (Stopped plan digest before committed) (Stopped plan digest before committed)
      (Script.act op) m := by
  rw [Script.ensures_act]
  refine ⟨fun u hu _ => ?_, fun _ => h, fun _ => h⟩
  rw [hop] at hu
  cases hu
  rfl

theorem discard_ensures (h : Stopped plan digest before committed m)
    (hwhole : Whole plan digest committed before m.disk) :
    Script.Ensures exec (Allowed before committed)
      (fun _ t => Stopped plan digest before committed t)
      (Stopped plan digest before committed) (Stopped plan digest before committed)
      (Script.act .discard) m := by
  rw [Script.ensures_act]
  refine ⟨fun u hu _ => ?_, fun _ => h, fun _ => h⟩
  cases hu
  exact .settled (by simp) (fun _ => ⟨rfl, rfl⟩) ⟨hwhole.libs, hwhole.described⟩

/-- A committed transaction may not be stopped at an operation that does not settle it. -/
theorem Committed.notStopped (h : Committed plan before committed m) (op : FileOp Name Contents)
    (hop : op.settles = false) (hmay : Survivable before.libs op m.disk) :
    Stopped plan digest before committed m :=
  absurd ((hmay _ h.kept.1).2 rfl) (by simp [hop])

theorem installHooks_ensures (h : Committed plan before committed m) (hooks : List Name) :
    Script.Ensures exec (Allowed before committed) (fun _ t => Committed plan before committed t)
      (Stopped plan digest before committed) (Stopped plan digest before committed)
      (Script.attempt
        (hooks.forM fun name => Script.act (.hook name))
        (do
          rollback
          Script.act .discard
          Script.raise)) m := by
  rw [Script.ensures_attempt]
  refine (Script.ensures_forM (R := Committed plan before committed)
    (fun _ t => Committed plan before committed t) _ ?_ hooks m h).weaken (fun _ _ h => h) ?_
    fun _ h => h
  · intro n ns t ht
    rw [Script.ensures_act]
    refine ⟨fun u hu _ => ?_, fun _ => ht, fun hC => ht.notStopped (.hook n) rfl hC.1⟩
    cases hu
    exact ht
  · intro t ht
    rw [Script.ensures_bind]
    refine (rollback_ensures ht.places ht.sound ht.covers ht.kept (.inr rfl)).weaken ?_
      (fun _ h => h) fun _ h => h
    intro _ u hu
    have hold : Stopped plan digest before committed u := by
      refine .old (fun k hk => ?_) (by simp [hu.journal]) hu.libs hu.record
      rw [hu.journal] at hk
      cases hk
      simp
    rw [Script.ensures_bind, Script.ensures_act]
    refine ⟨fun v hv _ => ?_, fun _ => hold, fun _ => hold⟩
    cases hv
    exact .old (by simp) (fun _ => ⟨rfl, rfl⟩) hu.libs hu.record

/-- What `apply` does once everything is in place and the hooks have run. -/
theorem save_ensures (h : Committed plan before committed m) :
    Script.Ensures exec (Allowed before committed)
      (fun _ t => Stopped plan digest before committed t)
      (Stopped plan digest before committed) (Stopped plan digest before committed)
      (do
        let m ← Script.get
        Script.act (.saveRecord (plan.packages digest m.disk))
        Script.act .saveLock
        if plan.saveManifest then
          Script.act .saveManifest
        Script.act .discard) m := by
  rw [Script.ensures_bind, Script.ensures_get, Script.ensures_bind, Script.ensures_act]
  refine ⟨fun t ht _ => ?_, fun hC => ?_, fun hC => h.notStopped (.saveRecord _) rfl hC.1⟩
  · cases ht
    have hwhole : Whole plan digest committed before
        { m.disk with record := plan.packages digest m.disk } :=
      ⟨.inr ⟨h.committed, h.libs⟩, fun n hn => plan.packages_describe digest h.kept.2 h.libs hn⟩
    have hsettled : Stopped plan digest before committed
        { m with disk := { m.disk with record := plan.packages digest m.disk } } := by
      refine .settled (fun j hj => ?_) (by simp [h.kept.1]) hwhole
      have hsame := h.kept.1.symm.trans hj
      cases hsame
      simp
    rw [Script.ensures_bind]
    refine (settled_ensures rfl hsettled).weaken ?_ (fun _ h => h) fun _ h => h
    intro _ t ht
    subst ht
    split
    · rw [Script.ensures_bind]
      refine (settled_ensures rfl hsettled).weaken ?_ (fun _ h => h) fun _ h => h
      intro _ t ht
      subst ht
      exact discard_ensures hsettled hwhole
    · exact discard_ensures hsettled hwhole
  · cases hC.1 with
    | inl hcaught => cases hcaught
    | inr hmay => exact h.notStopped (.saveRecord _) rfl hmay

theorem apply_ensures (hidle : before.Idle) (hm : m.disk = before) :
    Script.Ensures exec (Allowed before committed)
      (fun _ t => Stopped plan digest before committed t)
      (Stopped plan digest before committed) (Stopped plan digest before committed)
      (plan.apply digest) m := by
  have hold : Stopped plan digest before committed { m with done := [] } :=
    .old (fun j hj => by rw [hm, hidle.journal] at hj; cases hj) (fun _ => hm ▸ hidle) (by rw [hm])
      (by rw [hm])
  rw [Plan.apply, Script.ensures_bind, recover, Script.ensures_bind, Script.ensures_get, hm,
    hidle.journal]
  dsimp only
  rw [Script.ensures_pure, Script.ensures_bind, Script.ensures_modify, Script.ensures_bind,
    ensures_writeJournal]
  refine ⟨fun _ => ?_, fun _ => hold, fun _ => hold⟩
  have hstaging : Staging before
      { disk := { m.disk with journal := some ⟨.staging, []⟩ }, done := [] } :=
    ⟨rfl, by rw [hm], by rw [hm]; exact hidle.saved, by rw [hm], rfl⟩
  rw [Script.ensures_bind, Script.ensures_attempt]
  refine (stage_ensures hstaging).weaken ?_ ?_ fun _ h => h
  · intro _ t ht
    rw [Script.ensures_bind]
    refine (Script.ensures_forM (fun _ u => Staging before u ∧
      ∀ n ∈ plan.names, u.disk.fresh n = plan.contents n) _ ?_ plan.uninstallHooks t ht).weaken ?_
      (fun _ h => h) fun _ h => h
    · intro n ns u hu
      rw [Script.ensures_act]
      refine ⟨fun v hv _ => ?_, fun _ => hu.1.stopped, fun _ => hu.1.stopped⟩
      cases hv
      exact hu
    · intro _ u hu
      rw [Script.ensures_bind]
      refine (commit_ensures hu.1 hu.2).weaken ?_ (fun _ h => h) fun _ h => h
      intro _ v hv
      rw [Script.ensures_bind]
      refine (installHooks_ensures hv _).weaken ?_ (fun _ h => h) fun _ h => h
      intro _ w hw
      exact save_ensures hw
  · intro t ht
    rw [Script.ensures_bind, Script.ensures_act]
    refine ⟨fun u hu _ => ?_, fun _ => ht.stopped, fun _ => ht.stopped⟩
    cases hu
    exact .old (by simp) (fun _ => ⟨rfl, rfl⟩) ht.libs ht.record

end Command

/-- Runs `apply` on a disk. -/
def Plan.runs (plan : Plan Name Contents) (digest : Contents → String)
    (before : Disk Name Contents) (fates : List Fate) :
    Outcome (Machine Name Contents) (FileOp Name Contents) Unit :=
  (plan.apply digest).run exec ⟨before, []⟩ fates

/-- What the next command's `recover` makes of a disk when it is left alone. -/
def Disk.recovered (d : Disk Name Contents) : Disk Name Contents :=
  ((recover : Command Name Contents Unit).run Store.exec ⟨d, []⟩ []).state.disk

theorem Stopped.recovered {plan : Plan Name Contents} {digest : Contents → String}
    {before : Disk Name Contents} {committed : Prop} {m : Machine Name Contents}
    (h : Stopped plan digest before committed m) :
    Whole plan digest committed before m.disk.recovered ∧ m.disk.recovered.Idle := by
  have hstopped : Stopped plan digest before committed ⟨m.disk, []⟩ := by
    cases h with
    | settled hjournal hidle hwhole => exact .settled hjournal hidle hwhole
    | midway done hkept hplaces hsound hcovers => exact .midway done hkept hplaces hsound hcovers
  have hrun := (recover_ensures hstopped).run [] (Script.run_alone _ _)
  unfold Disk.recovered
  cases hended : ((recover : Command Name Contents Unit).run exec ⟨m.disk, []⟩ []).ended with
  | value _ => simpa only [Outcome.Holds, hended] using hrun
  | raised => simp [Outcome.Holds, hended] at hrun
  | killed => simp [Outcome.Holds, hended] at hrun

theorem runs_stopped {plan : Plan Name Contents} {digest : Contents → String}
    {before : Disk Name Contents} (hidle : before.Idle) (fates : List Fate)
    (hmay : ∀ a ∈ (plan.runs digest before fates).attempts, MayStop before.libs a) :
    Stopped plan digest before
      (∃ a ∈ (plan.runs digest before fates).attempts, a.op.commits ∧ a.fate = .done)
      (plan.runs digest before fates).state := by
  have hensures := @apply_ensures _ _ _ plan digest before
    (∃ a ∈ (plan.runs digest before fates).attempts, a.op.commits ∧ a.fate = .done) ⟨before, []⟩
    hidle rfl
  have hrun := hensures.run fates
    fun a ha => ⟨hmay a ha, fun hcommits hdone => ⟨a, ha, hcommits, hdone⟩⟩
  change Outcome.Holds _ _ _ (plan.runs digest before fates) at hrun
  cases hended : (plan.runs digest before fates).ended with
  | value _ | raised | killed => simpa only [Outcome.Holds, hended] using hrun

/-- Installing is all or nothing: wherever the command was stopped, the next `recover`
leaves every package with its old contents or, once the journal said `committed`, every
one with its new contents, the record describes them, and nothing is left over. Where the
journal does not say `swapping`, this holds already before it. -/
theorem apply_whole (plan : Plan Name Contents) (digest : Contents → String)
    (before : Disk Name Contents) (hidle : before.Idle) (fates : List Fate)
    (hmay : ∀ a ∈ (plan.runs digest before fates).attempts, MayStop before.libs a) :
    (Whole plan digest
        (∃ a ∈ (plan.runs digest before fates).attempts, a.op.commits ∧ a.fate = .done)
        before (plan.runs digest before fates).state.disk.recovered ∧
      (plan.runs digest before fates).state.disk.recovered.Idle) ∧
    ((∀ j, (plan.runs digest before fates).state.disk.journal = some j → j.state ≠ .swapping) →
      Whole plan digest
        (∃ a ∈ (plan.runs digest before fates).attempts, a.op.commits ∧ a.fate = .done)
        before (plan.runs digest before fates).state.disk) := by
  have hstopped := runs_stopped hidle fates hmay
  refine ⟨hstopped.recovered, fun hjournal => ?_⟩
  cases hstopped with
  | settled _ _ hwhole => exact hwhole
  | midway done hkept _ _ _ => exact absurd rfl (hjournal _ hkept.1)

section Example

def exampleItem : Item Nat := ⟨2, "b", "2.0.0", "registry", none, false, []⟩

/-- Removes one package and puts a new version of another in its place. -/
def examplePlan : Plan Bool Nat where
  removed := [true]
  removed_nodup := by decide
  staged := [(false, exampleItem)]
  staged_nodup := by decide
  uninstallHooks := []
  installHooks := [false]
  saveManifest := true

def exampleDisk : Disk Bool Nat where
  libs := fun _ => some 1
  record := fun _ => some ⟨"b", "1.0.0", "registry", none, "1", false, []⟩

/-- The new version has been moved in, and the command is killed before the journal says so. -/
def exampleFates : List Fate := List.replicate 8 .done ++ [.killed]

theorem apply_whole_killed :
    (∀ a ∈ (examplePlan.runs toString exampleDisk exampleFates).attempts,
      MayStop exampleDisk.libs a) ∧
    exampleDisk.Idle ∧
    Whole examplePlan toString
      (∃ a ∈ (examplePlan.runs toString exampleDisk exampleFates).attempts,
        a.op.commits ∧ a.fate = .done)
      exampleDisk (examplePlan.runs toString exampleDisk exampleFates).state.disk.recovered := by
  have hmay : ∀ a ∈ (examplePlan.runs toString exampleDisk exampleFates).attempts,
      MayStop exampleDisk.libs a := by decide
  have hidle : exampleDisk.Idle := ⟨rfl, rfl⟩
  exact ⟨hmay, hidle, (apply_whole examplePlan toString exampleDisk hidle exampleFates hmay).1.1⟩

/-- Killed after a rename and before the journal write that records it, the command has
lost a package, and `recover` deletes its old contents. -/
theorem recovered_lost :
    exampleDisk.Idle ∧
    (examplePlan.runs toString exampleDisk [.done, .done, .done, .done, .killed]).state.disk.recovered.libs
      true = none ∧
    ¬Whole examplePlan toString
      (∃ a ∈ (examplePlan.runs toString exampleDisk [.done, .done, .done, .done, .killed]).attempts,
        a.op.commits ∧ a.fate = .done)
      exampleDisk
      (examplePlan.runs toString exampleDisk
        [.done, .done, .done, .done, .killed]).state.disk.recovered := by
  have hlost : (examplePlan.runs toString exampleDisk
      [.done, .done, .done, .done, .killed]).state.disk.recovered.libs true = none := by
    rfl
  have hnever : ¬∃ a ∈ (examplePlan.runs toString exampleDisk
      [.done, .done, .done, .done, .killed]).attempts, a.op.commits ∧ a.fate = .done := by
    decide
  refine ⟨⟨rfl, rfl⟩, hlost, fun h => ?_⟩
  cases h.libs with
  | inl hold =>
      rw [hold] at hlost
      cases hlost
  | inr hnew => exact hnever hnew.1

end Example

end Zuri.Cmds.Store
