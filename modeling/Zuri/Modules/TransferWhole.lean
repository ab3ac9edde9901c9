import Zuri.Modules.Transfer
import Zuri.Graph.Walk

/-!
When sending is all or nothing. The walk that captures a value meets its objects in an order
that the memory alone decides. Whatever it meets and has to move is moved then and there, so
nothing is lost exactly when no resource comes before the first object that cannot cross.
-/

namespace Zuri.Transfer

open Zuri.Vm (Value)
open Graph (Step Meets Leads)

section Order

variable (vm : VM) (m : Memory)

/-- The globals a function takes along, in the order its code names them. -/
def rootGlobals (p : ObjFunction) : List Nat → List String → List Value
  | [], _ => []
  | c :: cs, seen =>
      match p.constants[c]?.bind (asString m) with
      | none => rootGlobals p cs seen
      | some name =>
          if name ∈ seen then rootGlobals p cs seen
          else
            match vm.globals.lookup name with
            | none => rootGlobals p cs (name :: seen)
            | some current => current :: rootGlobals p cs (name :: seen)

def visits (vs : List Value) : List (Step Nat) :=
  vs.filterMap fun v =>
    match v with
    | .obj a => some (.visit a)
    | _ => none

def ObjClass.values (c : ObjClass) : List Value :=
  c.superclass.toList ++ c.methods.map Prod.snd ++ c.ownFieldInitializer.toList ++ c.statics ++
    c.ownDefaults.map Prod.snd ++ c.defaults.map Prod.snd

/-- What a walk does at an object. A container is marked before what it holds is visited, a
closure between its prototype and its captured variables. -/
def script (a : Nat) : List (Step Nat) :=
  match m a with
  | .func p =>
      .mark a :: (visits p.constants ++
        if p.home.isNone then visits (rootGlobals vm m p p.globals []) else [])
  | .closure function upvalues =>
      match asFunc m function with
      | none => []
      | some p =>
          if (namedFunction vm m a p).isSome then []
          else
            .visit function :: .mark a :: visits ((upvalues.mapM (readUpvalue m)).getD [])
  | .cls c => if (namedClass vm a c).isSome then [] else .mark a :: visits c.values
  | .boundMethod receiver method => .mark a :: visits [receiver, method]
  | .shared _ _ => [.mark a]
  | .ptr _ _ => [.mark a]
  | .list items => .mark a :: visits items
  | .dict pairs => .mark a :: visits (pairs.flatMap fun e => [e.1, e.2])
  | .inst c fields => .mark a :: visits (c :: fields)
  | _ => []

/-- What cannot cross. -/
def Refuses (a : Nat) : Prop :=
  match m a with
  | .handle _ state => state = none
  | .module _ => cacheKeyOf vm a = none
  | .moduleBinding target _ => cacheKeyOf vm target = none
  | .upvalue _ => True
  | .file => True
  | _ => False

/-- A native resource that is still in its object. -/
def Moves (a : Nat) : Prop := (m a).taken ≠ m a

/-- An object is reached from a value when the walk is led there. -/
def Reached (root : Value) (a : Nat) : Prop := ∃ r, root = .obj r ∧ Leads (script vm m) r a

def TransferNode.slot : TransferNode → Option (String × Option Nat)
  | .ptr tag payload => some (tag, payload)
  | _ => none

def Obj.resource : Obj → Option (String × Option Nat)
  | .ptr tag payload => some (tag, payload)
  | _ => none

/-- Sending leaves every resource of the value where it was, or it moves each of them into
one slot and leaves everything else. -/
def AllOrNothing (root : Value) : Except String TransferGraph × Memory → Prop
  | (.error _, after) => ∀ a, Reached vm m root a → after a = m a
  | (.ok graph, after) =>
      ∃ moved : List Nat, moved.Nodup ∧
        (∀ a, a ∈ moved ↔ Reached vm m root a ∧ (m a).resource.isSome) ∧
        graph.arena.filterMap TransferNode.slot = moved.filterMap (fun a => (m a).resource) ∧
        ∀ a, after a = if a ∈ moved then (m a).taken else m a

/-- In the order of the walk, no resource comes before the first object that cannot cross. -/
def NothingBefore (root : Value) : Prop :=
  ∀ met, Meets (script vm m) (Refuses vm m) [] (visits [root]) met none → ∀ a ∈ met, ¬Moves m a

end Order

section Follows

variable {vm : VM} {m : Memory} {α β : Type} {s s' : Captured}

def Captured.marked (s : Captured) : List Nat := s.memo.map Prod.fst

def Captured.slots (s : Captured) : List (String × Option Nat) :=
  s.arena.filterMap TransferNode.slot

/-- What has been marked and was a resource has been taken; the rest is as it was. -/
def Sound (m : Memory) (s : Captured) : Prop :=
  ∀ a, s.memory a = if a ∈ s.marked then (m a).taken else m a

/-- Nodes of the graph stay what they are, with new ones after them. -/
structure Filled (s s' : Captured) : Prop where
  length : s.arena.length ≤ s'.arena.length
  kept : ∀ i, i < s.arena.length →
    s'.arena[i]?.bind TransferNode.slot = s.arena[i]?.bind TransferNode.slot

def lastMarked (r : Except String α) (s' : Captured) : Option (List Nat) :=
  match r with
  | .ok _ => some s'.marked
  | .error _ => none

structure Effect (m : Memory) (s s' : Captured) (met : List Nat) : Prop where
  sound : Sound m s'
  filled : Filled s s'
  slots : s'.slots = s.slots ++ met.filterMap fun a => (m a).resource
  taken : ∀ a, (m a).resource.isSome → (a ∈ s'.marked ↔ a ∈ s.marked ∨ a ∈ met)

/-- A part of the walk meets what these steps meet, and moves what it meets. -/
def Follows (vm : VM) (m : Memory) (c : Capture α) (steps : List (Step Nat)) : Prop :=
  ∀ s r s', Sound m s → c s = some (r, s') →
    ∃ met, Meets (script vm m) (Refuses vm m) s.marked steps met (lastMarked r s') ∧
      Effect m s s' met

theorem Filled.refl (s : Captured) : Filled s s := ⟨Nat.le_refl _, fun _ _ => rfl⟩

theorem Filled.trans {t : Captured} (h : Filled s s') (k : Filled s' t) : Filled s t :=
  ⟨Nat.le_trans h.length k.length, fun i hi => by
    rw [k.kept i (Nat.lt_of_lt_of_le hi h.length), h.kept i hi]⟩

theorem Effect.nothing (hs : Sound m s) : Effect m s s [] :=
  ⟨hs, .refl s, by simp, by simp⟩

theorem Effect.trans {t : Captured} {met met' : List Nat} (h : Effect m s s' met)
    (k : Effect m s' t met') : Effect m s t (met ++ met') := by
  refine ⟨k.sound, h.filled.trans k.filled, ?_, fun a ha => ?_⟩
  · rw [k.slots, h.slots, List.filterMap_append, List.append_assoc]
  · rw [k.taken a ha, h.taken a ha, List.mem_append, or_assoc]

/-- What does not tell a resource from one that is gone is read as it was before. -/
theorem Sound.read {γ : Type} (hs : Sound m s) (f : Obj → γ) (hf : ∀ o, f o.taken = f o) (a : Nat) :
    f (s.memory a) = f (m a) := by
  rw [hs a]
  split
  · exact hf _
  · rfl

namespace Follows

theorem pure (x : α) : Follows vm m (.pure x) [] := by
  rintro s r s' hs ⟨⟩
  exact ⟨[], .done _, .nothing hs⟩

theorem bind {c : Capture α} {k : α → Capture β} {steps more : List (Step Nat)}
    (hc : Follows vm m c steps) (hk : ∀ x, Follows vm m (k x) more) :
    Follows vm m (c.bind k) (steps ++ more) := by
  intro s r s' hs hrun
  obtain ⟨⟨x, t⟩, hfirst, hrest⟩ := Option.bind_eq_some_iff.mp hrun
  obtain ⟨met, hmet, heffect⟩ := hc s x t hs hfirst
  cases x with
  | ok x =>
      obtain ⟨met', hmet', heffect'⟩ := hk x t r s' heffect.sound hrest
      exact ⟨met ++ met', hmet.append hmet', heffect.trans heffect'⟩
  | error message =>
      cases hrest
      exact ⟨met, hmet.stop more, heffect⟩

theorem map {c : Capture α} {steps : List (Step Nat)} (hc : Follows vm m c steps) (f : α → β) :
    Follows vm m (c.map f) steps := by
  have hpure : ∀ x, Follows vm m (.pure (f x)) [] := fun x => pure (f x)
  have hmapped := hc.bind hpure
  rwa [List.append_nil] at hmapped

theorem mapErr {c : Capture α} {steps : List (Step Nat)} (hc : Follows vm m c steps)
    (f : String → String) : Follows vm m (c.mapErr f) steps := by
  intro s r s' hs hrun
  obtain ⟨⟨x, t⟩, hfirst, hsome⟩ := Option.map_eq_some_iff.mp hrun
  cases hsome
  obtain ⟨met, hmet, heffect⟩ := hc s x t hs hfirst
  exact ⟨met, by cases x <;> exact hmet, heffect⟩

theorem filterMap_set {f : α → Option β} {l : List α} {i : Nat} {x : α} (hx : f x = none)
    (hi : l[i]?.bind f = none) : (l.set i x).filterMap f = l.filterMap f := by
  induction l generalizing i with
  | nil => rfl
  | cons y l ih =>
      cases i with
      | zero =>
          have hy : f y = none := hi
          rw [List.set_cons_zero, List.filterMap_cons_none hx, List.filterMap_cons_none hy]
      | succ i =>
          rw [List.set_cons_succ, List.filterMap_cons, List.filterMap_cons, ih hi]

theorem withNode {a : Nat} {placeholder : TransferNode} {body : Capture α}
    {fill : α → TransferNode} {steps : List (Step Nat)} (hbody : Follows vm m body steps)
    (ha : (m a).resource = none) (hplace : placeholder.slot = none)
    (hfill : ∀ x, (fill x).slot = none) :
    Follows vm m (.withNode a placeholder body fill) (.mark a :: steps) := by
  intro s r s' hs hrun
  obtain ⟨⟨x, t⟩, hwalk, hsome⟩ := Option.map_eq_some_iff.mp hrun
  have htaken : (m a).taken = m a := by
    cases h : m a with
    | ptr tag payload => rw [h] at ha; cases ha
    | _ => rfl
  have hstart : Sound m ⟨s.memory, s.arena ++ [placeholder], (a, s.arena.length) :: s.memo⟩ := by
    intro y
    have hmark : y ∈ (a :: s.marked) ↔ y = a ∨ y ∈ s.marked := List.mem_cons
    show s.memory y = if y ∈ a :: s.marked then _ else _
    rw [hs y]
    by_cases hya : y = a
    · subst hya
      simp [htaken]
    · simp [hya]
  obtain ⟨met, hmet, heffect⟩ := hbody _ x t hstart hwalk
  have hlength : s.arena.length < t.arena.length := by
    have := heffect.filled.length
    rw [List.length_append, List.length_singleton] at this
    omega
  have hat : t.arena[s.arena.length]?.bind TransferNode.slot = none := by
    rw [heffect.filled.kept s.arena.length (by simp)]
    simp [hplace]
  have hbefore : ∀ i, i < s.arena.length →
      t.arena[i]?.bind TransferNode.slot = s.arena[i]?.bind TransferNode.slot := by
    intro i hi
    rw [heffect.filled.kept i (by simp; omega)]
    simp only [List.getElem?_append_left hi]
  have hslots : t.slots = s.slots ++ met.filterMap fun a => (m a).resource := by
    rw [heffect.slots]
    simp [Captured.slots, hplace]
  have hmarked : ∀ b, (m b).resource.isSome → (b ∈ t.marked ↔ b ∈ s.marked ∨ b ∈ met) := by
    intro b hb
    rw [heffect.taken b hb]
    have hba : b ≠ a := by
      rintro rfl
      rw [ha] at hb
      cases hb
    simp [Captured.marked, hba]
  cases x with
  | error message =>
      cases hsome
      exact ⟨met, .mark hmet, heffect.sound, ⟨Nat.le_of_lt hlength, hbefore⟩, hslots, hmarked⟩
  | ok x =>
      cases hsome
      refine ⟨met, .mark hmet, heffect.sound, ⟨?_, fun i hi => ?_⟩, ?_, hmarked⟩
      · rw [List.length_set]
        exact Nat.le_of_lt hlength
      · rw [List.getElem?_set_ne (by omega)]
        exact hbefore i hi
      · exact (filterMap_set (hfill x) hat).trans hslots

end Follows

theorem visits_cons (v : Value) (vs : List Value) : visits (v :: vs) = visits [v] ++ visits vs := by
  cases v <;> rfl

theorem visits_append (vs ws : List Value) : visits (vs ++ ws) = visits vs ++ visits ws :=
  List.filterMap_append

def Obj.text? : Obj → Option String
  | .leaf (.str text) => some text
  | _ => none

def Obj.prototype? : Obj → Option ObjFunction
  | .func p => some p
  | _ => none

def Obj.current? : Obj → Option Value
  | .upvalue current => some current
  | _ => none

def Obj.method? (name : String) : Obj → Option Value
  | .cls c => c.methods.lookup name
  | _ => none

theorem asString_read (hs : Sound m s) (v : Value) : asString s.memory v = asString m v := by
  cases v with
  | obj a =>
      exact hs.read Obj.text? (fun o => by cases o <;> rfl) a
  | _ => rfl

section Parts

variable {rec : Value → Capture TransferValue}
  (hrec : ∀ v, Follows vm m (rec v) (visits [v]))

include hrec

theorem captureEach_follows (vs : List Value) :
    Follows vm m (captureEach rec vs) (visits vs) := by
  induction vs with
  | nil => exact .pure _
  | cons v vs ih =>
      rw [visits_cons]
      exact (hrec v).bind fun x => ih.map _

theorem capturePairs_follows (es : List (Value × Value)) :
    Follows vm m (capturePairs rec es) (visits (es.flatMap fun e => [e.1, e.2])) := by
  induction es with
  | nil => exact .pure _
  | cons e es ih =>
      rw [List.flatMap_cons, visits_append, visits_cons e.1, List.append_assoc]
      exact (hrec e.1).bind fun k => (hrec e.2).bind fun v => ih.map _

theorem captureKeyed_follows {κ : Type} (es : List (κ × Value)) :
    Follows vm m (captureKeyed rec es) (visits (es.map Prod.snd)) := by
  induction es with
  | nil => exact .pure _
  | cons e es ih =>
      rw [List.map_cons, visits_cons]
      exact (hrec e.2).bind fun v => ih.map _

theorem captureOption_follows (v : Option Value) :
    Follows vm m (captureOption rec v) (visits v.toList) := by
  cases v with
  | none => exact .pure _
  | some v => exact (hrec v).map _

theorem captureRootGlobals_follows (p : ObjFunction) (cs : List Nat) (seen : List String) :
    Follows vm m (captureRootGlobals vm rec p cs seen) (visits (rootGlobals vm m p cs seen)) := by
  induction cs generalizing seen with
  | nil => exact .pure _
  | cons c cs ih =>
      intro s r s' hs hrun
      have hname : p.constants[c]?.bind (asString s.memory) = p.constants[c]?.bind (asString m) := by
        cases p.constants[c]? with
        | none => rfl
        | some v => exact asString_read hs v
      simp only [captureRootGlobals, hname] at hrun
      rw [rootGlobals]
      cases hconst : p.constants[c]?.bind (asString m) with
      | none =>
          rw [hconst] at hrun
          exact ih seen s r s' hs hrun
      | some name =>
          simp only [hconst] at hrun ⊢
          by_cases hseen : name ∈ seen
          · rw [if_pos hseen] at hrun ⊢
            exact ih seen s r s' hs hrun
          · rw [if_neg hseen] at hrun ⊢
            cases hglobal : vm.globals.lookup name with
            | none =>
                rw [hglobal] at hrun
                exact ih _ s r s' hs hrun
            | some current =>
                rw [hglobal] at hrun
                simp only at hrun ⊢
                rw [visits_cons]
                exact (((hrec current).mapErr _).bind fun x => (ih (name :: seen)).map _)
                  s r s' hs hrun

end Parts

theorem asFunc_read (hs : Sound m s) (a : Nat) : asFunc s.memory a = asFunc m a :=
  hs.read Obj.prototype? (fun o => by cases o <;> rfl) a

theorem readUpvalue_read (hs : Sound m s) (a : Nat) : readUpvalue s.memory a = readUpvalue m a :=
  hs.read Obj.current? (fun o => by cases o <;> rfl) a

theorem methodOf_read (hs : Sound m s) (name : String) (v : Value) :
    methodOf s.memory name v = methodOf m name v := by
  cases v with
  | obj a =>
      exact hs.read (Obj.method? name) (fun o => by cases o <;> rfl) a
  | _ => rfl

theorem namedFunction_read (hs : Sound m s) (a : Nat) (p : ObjFunction) :
    namedFunction vm s.memory a p = namedFunction vm m a p := by
  have hmethod : methodOf s.memory p.name = methodOf m p.name :=
    funext fun v => methodOf_read hs p.name v
  simp only [namedFunction, hmethod]

theorem marked_of_lookup {a idx : Nat} (h : s.memo.lookup a = some idx) : a ∈ s.marked := by
  unfold Captured.marked
  induction hmemo : s.memo generalizing s with
  | nil =>
      rw [hmemo] at h
      cases h
  | cons e memo ih =>
      rw [hmemo, List.lookup_cons] at h
      rw [List.map_cons]
      cases heq : a == e.1 with
      | true =>
          rw [beq_iff_eq.mp heq]
          exact List.mem_cons_self
      | false =>
          rw [heq] at h
          exact List.mem_cons_of_mem _ (ih (s := ⟨s.memory, s.arena, memo⟩) h rfl)

theorem not_marked_of_lookup {a : Nat} (h : s.memo.lookup a = none) : a ∉ s.marked := by
  intro ha
  obtain ⟨e, he, rfl⟩ := List.mem_map.mp ha
  have := List.lookup_eq_none_iff.mp h e he
  simp at this

/-- What meeting an object comes to, for one that is walked into and is no resource. -/
theorem Follows.visit {c : Capture α} {a : Nat} {r : Except String α}
    (hc : Follows vm m c (script vm m a)) (hres : (m a).resource = none)
    (hrefuse : ¬Refuses vm m a) (ha : a ∉ s.marked) (hs : Sound m s)
    (hrun : c s = some (r, s')) :
    ∃ met, Meets (script vm m) (Refuses vm m) s.marked [.visit a] met (lastMarked r s') ∧
      Effect m s s' met := by
  obtain ⟨met, hmet, heffect⟩ := hc s r s' hs hrun
  refine ⟨a :: met, .meet ha hrefuse (by rwa [List.append_nil]), heffect.sound, heffect.filled,
    ?_, fun b hb => ?_⟩
  · simp only [heffect.slots, List.filterMap_cons, hres]
  · have hba : b ≠ a := by
      rintro rfl
      rw [hres] at hb
      cases hb
    rw [heffect.taken b hb, List.mem_cons]
    simp [hba]

theorem visit_refuse {a : Nat} {message : String} {r : Except String α}
    (hres : (m a).resource = none) (hrefuse : Refuses vm m a) (ha : a ∉ s.marked) (hs : Sound m s)
    (hrun : Capture.refuse message s = some (r, s')) :
    ∃ met, Meets (script vm m) (Refuses vm m) s.marked [.visit a] met (lastMarked r s') ∧
      Effect m s s' met := by
  cases hrun
  refine ⟨[a], .refuse ha hrefuse, hs, .refl s, ?_, fun b hb => ?_⟩
  · simp only [List.filterMap_cons, hres, List.filterMap_nil, List.append_nil]
  · have hba : b ≠ a := by
      rintro rfl
      rw [hres] at hb
      cases hb
    simp [hba]

theorem takePtr_visit {a : Nat} {tag : String} {payload : Option Nat}
    {r : Except String TransferValue} (hptr : m a = .ptr tag payload) (ha : a ∉ s.marked)
    (hs : Sound m s) (hrun : takePtr a tag payload s = some (r, s')) :
    ∃ met, Meets (script vm m) (Refuses vm m) s.marked [.visit a] met (lastMarked r s') ∧
      Effect m s s' met := by
  cases hrun
  have hscript : script vm m a = [.mark a] := by rw [script, hptr]
  have hrefuse : ¬Refuses vm m a := by rw [Refuses, hptr]; exact id
  refine ⟨[a], .meet ha hrefuse (by rw [hscript]; exact .mark (.done _)), ?_, ⟨?_, ?_⟩, ?_, ?_⟩
  · intro x
    show (if x = a then _ else s.memory x) = if x ∈ a :: s.marked then _ else _
    rw [hs x]
    by_cases hxa : x = a
    · subst hxa
      simp [hptr, Obj.taken]
    · simp [hxa]
  · simp
  · intro i hi
    simp only [List.getElem?_append_left hi]
  · simp [Captured.slots, TransferNode.slot, Obj.resource, hptr]
  · intro b _
    simp only [Captured.marked, List.map_cons, List.mem_cons, List.not_mem_nil, or_false]
    exact or_comm

/-- A module crosses by its key in the cache, without being walked. -/
theorem captureModule_visit {a target : Nat} {name : String} {binding : Option String}
    {r : Except String TransferValue} (hscript : script vm m a = [])
    (hres : (m a).resource = none) (hrefuses : Refuses vm m a ↔ cacheKeyOf vm target = none)
    (ha : a ∉ s.marked) (hs : Sound m s)
    (hrun : captureModule vm target name binding s = some (r, s')) :
    ∃ met, Meets (script vm m) (Refuses vm m) s.marked [.visit a] met (lastMarked r s') ∧
      Effect m s s' met := by
  simp only [captureModule] at hrun
  cases hkey : cacheKeyOf vm target with
  | some key =>
      rw [hkey] at hrun
      refine Follows.visit ?_ hres (fun hrefuse => ?_) ha hs hrun
      · rw [hscript]
        exact .pure _
      · rw [hrefuses.mp hrefuse] at hkey
        cases hkey
  | none =>
      rw [hkey] at hrun
      exact visit_refuse hres (hrefuses.mpr hkey) ha hs hrun

section Objects

variable {rec : Value → Capture TransferValue}
  (hrec : ∀ v, Follows vm m (rec v) (visits [v]))

include hrec

theorem capturePrototype_follows (a : Nat) :
    Follows vm m (capturePrototype vm rec a) [.visit a] := by
  intro s r s' hs hrun
  simp only [capturePrototype] at hrun
  cases hlookup : s.memo.lookup a with
  | some idx =>
      rw [hlookup] at hrun
      cases hrun
      exact ⟨[], .again (marked_of_lookup hlookup) (.done _), .nothing hs⟩
  | none =>
      rw [hlookup, asFunc_read hs] at hrun
      obtain ⟨p, hp, hrun⟩ := Option.bind_eq_some_iff.mp hrun
      have hfunc : m a = .func p := by
        unfold asFunc at hp
        split at hp
        · rename_i hma
          cases hp
          exact hma
        · cases hp
      refine Follows.visit ?_ (by rw [hfunc]; rfl) (by rw [Refuses, hfunc]; exact id)
        (not_marked_of_lookup hlookup) hs hrun
      rw [script, hfunc]
      refine Follows.withNode ?_ (by rw [hfunc]; rfl) rfl fun _ => rfl
      refine (captureEach_follows hrec _).bind fun constants => Follows.map ?_ _
      split
      · exact captureRootGlobals_follows hrec p p.globals []
      · exact .pure _

theorem captureClosure_follows {a function : Nat} {upvalues : List Nat}
    (hclosure : m a = .closure function upvalues) :
    Follows vm m (captureClosure vm rec a function upvalues) (script vm m a) := by
  intro s r s' hs hrun
  simp only [captureClosure, asFunc_read hs] at hrun
  obtain ⟨p, hp, hrun⟩ := Option.bind_eq_some_iff.mp hrun
  rw [namedFunction_read hs] at hrun
  rw [script, hclosure]
  simp only [hp]
  cases hnamed : namedFunction vm m a p with
  | some named =>
      rw [hnamed] at hrun
      exact Follows.pure named s r s' hs hrun
  | none =>
      have hread : readUpvalue s.memory = readUpvalue m := funext (readUpvalue_read hs)
      simp only [hnamed, hread] at hrun
      obtain ⟨values, hvalues, hrun⟩ := Option.bind_eq_some_iff.mp hrun
      rw [hvalues]
      refine Follows.bind (capturePrototype_follows hrec function) (fun proto => ?_) s r s' hs hrun
      exact Follows.withNode (captureEach_follows hrec values) (by rw [hclosure]; rfl) rfl
        fun _ => rfl

theorem captureClass_follows {a : Nat} {c : ObjClass} (hclass : m a = .cls c) :
    Follows vm m (captureClass vm rec a c) (script vm m a) := by
  rw [script, hclass]
  simp only [captureClass]
  cases namedClass vm a c with
  | some named => exact .pure _
  | none =>
      refine Follows.withNode ?_ (by rw [hclass]; rfl) rfl fun _ => rfl
      simp only [ObjClass.values, visits_append, List.append_assoc]
      exact (captureOption_follows hrec _).bind fun _ =>
        (captureKeyed_follows hrec _).bind fun _ =>
        (captureOption_follows hrec _).bind fun _ =>
        (captureEach_follows hrec _).bind fun _ =>
        (captureKeyed_follows hrec _).bind fun _ => (captureKeyed_follows hrec _).map _

theorem captureObj_visit {a : Nat} {r : Except String TransferValue} (ha : a ∉ s.marked)
    (hs : Sound m s) (hrun : captureObj vm rec a (m a) s = some (r, s')) :
    ∃ met, Meets (script vm m) (Refuses vm m) s.marked [.visit a] met (lastMarked r s') ∧
      Effect m s s' met := by
  cases hobj : m a with
  | leaf leaf =>
      rw [hobj] at hrun
      refine Follows.visit ?_ (by rw [hobj]; rfl) (by rw [Refuses, hobj]; exact id) ha hs hrun
      rw [script, hobj]
      exact .pure _
  | func p =>
      rw [hobj] at hrun
      exact capturePrototype_follows hrec a s r s' hs hrun
  | closure function upvalues =>
      rw [hobj] at hrun
      exact (captureClosure_follows hrec hobj).visit (by rw [hobj]; rfl)
        (by rw [Refuses, hobj]; exact id) ha hs hrun
  | cls c =>
      rw [hobj] at hrun
      exact (captureClass_follows hrec hobj).visit (by rw [hobj]; rfl)
        (by rw [Refuses, hobj]; exact id) ha hs hrun
  | boundMethod receiver method =>
      rw [hobj] at hrun
      refine Follows.visit ?_ (by rw [hobj]; rfl) (by rw [Refuses, hobj]; exact id) ha hs hrun
      rw [script, hobj]
      refine Follows.withNode ?_ (by rw [hobj]; rfl) rfl fun _ => rfl
      rw [visits_cons]
      exact (hrec receiver).bind fun _ => (hrec method).map _
  | handle kind state =>
      rw [hobj] at hrun
      cases state with
      | some state =>
          refine Follows.visit ?_ (by rw [hobj]; rfl) (by rw [Refuses, hobj]; exact nofun) ha hs hrun
          rw [script, hobj]
          exact .pure _
      | none =>
          have hrefuse : Refuses vm m a := by rw [Refuses, hobj]
          cases kind <;> exact visit_refuse (by rw [hobj]; rfl) hrefuse ha hs hrun
  | shared tag payload =>
      have hnode : Follows vm m (captureObj vm rec a (.shared tag payload)) (script vm m a) := by
        rw [script, hobj, captureObj]
        exact Follows.withNode (.pure ()) (by rw [hobj]; rfl) rfl fun _ => rfl
      rw [hobj] at hrun
      exact hnode.visit (by rw [hobj]; rfl) (by rw [Refuses, hobj]; exact id) ha hs hrun
  | ptr tag payload =>
      rw [hobj] at hrun
      exact takePtr_visit hobj ha hs hrun
  | list items =>
      rw [hobj] at hrun
      refine Follows.visit ?_ (by rw [hobj]; rfl) (by rw [Refuses, hobj]; exact id) ha hs hrun
      rw [script, hobj]
      exact Follows.withNode (captureEach_follows hrec items) (by rw [hobj]; rfl) rfl fun _ => rfl
  | dict pairs =>
      rw [hobj] at hrun
      refine Follows.visit ?_ (by rw [hobj]; rfl) (by rw [Refuses, hobj]; exact id) ha hs hrun
      rw [script, hobj]
      exact Follows.withNode (capturePairs_follows hrec pairs) (by rw [hobj]; rfl) rfl fun _ => rfl
  | inst c fields =>
      rw [hobj] at hrun
      refine Follows.visit ?_ (by rw [hobj]; rfl) (by rw [Refuses, hobj]; exact id) ha hs hrun
      rw [script, hobj]
      refine Follows.withNode ?_ (by rw [hobj]; rfl) rfl fun _ => rfl
      rw [visits_cons]
      exact (hrec c).bind fun _ => (captureEach_follows hrec fields).map _
  | module name =>
      rw [hobj] at hrun
      exact captureModule_visit (by rw [script, hobj]) (by rw [hobj]; rfl)
        (by rw [Refuses, hobj]) ha hs hrun
  | moduleBinding target name =>
      rw [hobj] at hrun
      exact captureModule_visit (by rw [script, hobj]) (by rw [hobj]; rfl)
        (by rw [Refuses, hobj]) ha hs hrun
  | upvalue current =>
      rw [hobj] at hrun
      exact visit_refuse (by rw [hobj]; rfl) (by rw [Refuses, hobj]; trivial) ha hs hrun
  | file =>
      rw [hobj] at hrun
      exact visit_refuse (by rw [hobj]; rfl) (by rw [Refuses, hobj]; trivial) ha hs hrun

end Objects

theorem captureValue_follows (vm : VM) (m : Memory) (fuel : Nat) (v : Value) :
    Follows vm m (captureValue vm fuel v) (visits [v]) := by
  induction fuel generalizing v with
  | zero =>
      intro s r s' _ hrun
      cases v <;> cases hrun
  | succ fuel ih =>
      cases v with
      | obj a =>
          intro s r s' hs hrun
          simp only [captureValue] at hrun
          cases hlookup : s.memo.lookup a with
          | some idx =>
              rw [hlookup] at hrun
              cases hrun
              exact ⟨[], .again (marked_of_lookup hlookup) (.done _), .nothing hs⟩
          | none =>
              have ha := not_marked_of_lookup hlookup
              have hmem : s.memory a = m a := by rw [hs a, if_neg ha]
              rw [hlookup, hmem] at hrun
              exact captureObj_visit ih ha hs hrun
      | _ => exact .pure _

end Follows

section Whole

variable {vm : VM} {m : Memory} {fuel : Nat} {root : Value}

theorem mem_visits {v : Value} {a : Nat} : Step.visit a ∈ visits [v] ↔ v = .obj a := by
  cases v with
  | obj b => simp [visits, eq_comm]
  | _ => simp [visits]

theorem mark_not_visits {vs : List Value} {a : Nat} : Step.mark a ∉ visits vs := by
  intro h
  obtain ⟨v, -, hv⟩ := List.mem_filterMap.mp h
  cases v <;> cases hv

theorem script_marks (a b : Nat) (h : Step.mark b ∈ script vm m a) : b = a := by
  have hvisits : ∀ {vs : List Value}, Step.mark b ∈ Step.mark a :: visits vs → b = a := by
    intro vs hb
    rcases List.mem_cons.mp hb with hb | hb
    · cases hb
      rfl
    · exact absurd hb mark_not_visits
  unfold script at h
  split at h
  · rcases List.mem_cons.mp h with h | h
    · cases h
      rfl
    · rcases List.mem_append.mp h with h | h
      · exact absurd h mark_not_visits
      · split at h
        · exact absurd h mark_not_visits
        · cases h
  · split at h
    · cases h
    · split at h
      · cases h
      · rcases List.mem_cons.mp h with h | h
        · cases h
        · exact hvisits h
  · split at h
    · cases h
    · exact hvisits h
  · exact hvisits h
  · simpa using h
  · simpa using h
  · exact hvisits h
  · exact hvisits h
  · exact hvisits h
  · cases h

theorem script_resource (a : Nat) (h : (m a).resource.isSome = true) :
    ∃ rest, script vm m a = .mark a :: rest := by
  cases hobj : m a with
  | ptr tag payload => exact ⟨[], by rw [script, hobj]⟩
  | _ => rw [hobj] at h; cases h

theorem taken_of_none {o : Obj} (h : o.resource = none) : o.taken = o := by
  cases o with
  | ptr tag payload => cases h
  | _ => rfl

theorem sound_start (m : Memory) : Sound m ⟨m, [], []⟩ := fun _ => rfl

/-- The objects a walk meets are reached from where it starts. -/
theorem reached_of_met {met : List Nat} {last : Option (List Nat)}
    (hmet : Meets (script vm m) (Refuses vm m) [] (visits [root]) met last) {a : Nat}
    (ha : a ∈ met) : Reached vm m root a := by
  cases root with
  | obj r =>
      refine ⟨r, rfl, hmet.leads (fun b hb => ?_) a ha⟩
      cases mem_visits.mp hb
      exact .refl
  | _ =>
      cases hmet
      cases ha

/-- What is left in memory once a walk has met these. -/
theorem memory_after {s' : Captured} {met : List Nat} (heffect : Effect m ⟨m, [], []⟩ s' met)
    (a : Nat) : s'.memory a = if a ∈ met then (m a).taken else m a := by
  rw [heffect.sound a]
  cases hres : (m a).resource with
  | none => simp [taken_of_none hres]
  | some resource =>
      have hmarked := heffect.taken a (by rw [hres]; rfl)
      simp only [Captured.marked, List.map_nil, List.not_mem_nil, false_or] at hmarked
      simp only [Captured.marked, hmarked]

theorem captureValue_whole {r : Except String TransferValue} {s' : Captured}
    (hrun : captureValue vm fuel root ⟨m, [], []⟩ = some (r, s')) :
    AllOrNothing vm m root (r.map (fun x => (⟨x, s'.arena⟩ : TransferGraph)), s'.memory) ↔
      NothingBefore vm m root := by
  obtain ⟨met, hmet, heffect⟩ := captureValue_follows vm m fuel root _ r s' (sound_start m) hrun
  have hmemory := memory_after heffect
  cases r with
  | error message =>
      constructor
      · intro hwhole other hother a ha hmoves
        obtain ⟨rfl, -⟩ := hother.unique hmet
        have hkept := hwhole a (reached_of_met hmet ha)
        rw [hmemory a, if_pos ha] at hkept
        exact hmoves hkept
      · intro hnothing a _
        show s'.memory a = m a
        rw [hmemory a]
        split
        · rename_i ha
          exact not_not.mp (hnothing met hmet a ha)
        · rfl
  | ok x =>
      refine iff_of_true ?_ fun other hother => ?_
      · refine ⟨met.filter fun a => (m a).resource.isSome,
          hmet.nodup_filter _ script_resource, fun a => ?_, ?_, fun a => ?_⟩
        · rw [List.mem_filter]
          constructor
          · rintro ⟨ha, hres⟩
            exact ⟨reached_of_met hmet ha, hres⟩
          · rintro ⟨⟨r, rfl, hleads⟩, hres⟩
            exact ⟨hmet.all script_marks hleads, hres⟩
        · show s'.slots = _
          rw [heffect.slots, List.filterMap_filter]
          simp only [Captured.slots, List.filterMap_nil, List.nil_append]
          congr 1
          funext a
          cases (m a).resource <;> rfl
        · show s'.memory a = _
          rw [hmemory a]
          cases hres : (m a).resource with
          | none => simp [taken_of_none hres]
          | some resource => simp [hres]
      · obtain ⟨-, hlast⟩ := hother.unique hmet
        cases hlast

/-- A value that has no walk of its own is captured as its walk would. -/
theorem capture_walks {out : Except String TransferGraph × Memory}
    (hrun : capture vm fuel m root = some out) :
    ∃ fuel r s', captureValue vm fuel root ⟨m, [], []⟩ = some (r, s') ∧
      out = (r.map (fun x => (⟨x, s'.arena⟩ : TransferGraph)), s'.memory) := by
  have hwalk : ∀ {out : Except String TransferGraph × Memory},
      (captureValue vm fuel root ⟨m, [], []⟩).map (fun r =>
        (r.1.map fun x => (⟨x, r.2.arena⟩ : TransferGraph), r.2.memory)) = some out →
      ∃ fuel r s', captureValue vm fuel root ⟨m, [], []⟩ = some (r, s') ∧
        out = (r.map (fun x => (⟨x, s'.arena⟩ : TransferGraph)), s'.memory) := by
    intro out hout
    obtain ⟨⟨r, s'⟩, hvalue, rfl⟩ := Option.map_eq_some_iff.mp hout
    exact ⟨fuel, r, s', hvalue, rfl⟩
  cases root with
  | obj a =>
      have hmeet : captureValue vm 1 (.obj a) ⟨m, [], []⟩ =
          captureObj vm (captureValue vm 0) a (m a) ⟨m, [], []⟩ := rfl
      simp only [capture] at hrun
      cases hobj : m a with
      | leaf leaf =>
          rw [hobj] at hrun hmeet
          cases hrun
          exact ⟨1, _, _, hmeet, rfl⟩
      | handle kind state =>
          rw [hobj] at hrun hmeet
          cases state with
          | some state =>
              cases hrun
              exact ⟨1, _, _, hmeet, rfl⟩
          | none =>
              cases kind with
              | channel =>
                  cases hrun
                  exact ⟨1, _, _, hmeet, rfl⟩
              | isolate =>
                  cases hrun
                  exact ⟨1, _, _, hmeet, rfl⟩
      | _ =>
          rw [hobj] at hrun
          exact hwalk hrun
  | _ =>
      cases hrun
      exact ⟨1, _, _, rfl, rfl⟩

/-- Whatever is sent and whatever the memory, sending is all or nothing exactly when no
resource is met before the first object that cannot cross. -/
theorem capture_whole (vm : VM) (m : Memory) (fuel : Nat) (root : Value)
    (out : Except String TransferGraph × Memory) (hrun : capture vm fuel m root = some out) :
    AllOrNothing vm m root out ↔ NothingBefore vm m root := by
  obtain ⟨fuel, r, s', hvalue, rfl⟩ := capture_walks hrun
  exact captureValue_whole hvalue

def noModules : VM := ⟨[], [], []⟩

/-- A list of a socket named twice: it crosses in one slot. -/
def socketTwice : Memory := fun a =>
  if a = 0 then .list [.obj 1, .obj 1] else .ptr "zuri::net::TcpStream" (some 7)

theorem capture_whole_twice :
    AllOrNothing noModules socketTwice (.obj 0)
        (.ok ⟨.ref 0, [.list [.ref 1, .ref 1], .ptr "zuri::net::TcpStream" (some 7)]⟩,
          fun a => if a = 1 then .ptr "<moved>" none else socketTwice a) ↔
      NothingBefore noModules socketTwice (.obj 0) :=
  capture_whole noModules socketTwice 2 (.obj 0) _ rfl

/-- A list of a socket and a file: the file cannot cross. -/
def socketThenFile : Memory := fun a =>
  if a = 0 then .list [.obj 1, .obj 2]
  else if a = 1 then .ptr "zuri::net::TcpStream" (some 7) else .file

/-- The socket is gone although nothing was sent. -/
theorem socketThenFile_lost :
    ∃ message after, capture noModules 2 socketThenFile (.obj 0) = some (.error message, after) ∧
      after 1 = .ptr "<moved>" none ∧
      ¬AllOrNothing noModules socketThenFile (.obj 0) (.error message, after) := by
  refine ⟨_, _, rfl, rfl, fun hwhole => ?_⟩
  have hreached : Reached noModules socketThenFile (.obj 0) 1 :=
    ⟨0, rfl, .single (List.mem_cons_of_mem _ List.mem_cons_self)⟩
  have hkept : Obj.ptr "<moved>" none = .ptr "zuri::net::TcpStream" (some 7) := hwhole 1 hreached
  injection hkept with _ hpayload
  cases hpayload

end Whole

end Zuri.Transfer
