import Zuri.Transition.Log
import Mathlib.Data.List.Nodup
import Mathlib.Data.List.Infix

/-!
The display of a class: its line of descent by depth, cut at a fixed depth, so that descent
from a class is one comparison. A class is declared with its superclass, or it comes from
another isolate: then an empty placeholder is allocated first and filled in later, with any
number of other classes allocated and filled in between.
-/

namespace Zuri.Vm

/-- The bits of a class value. No object's bits are all zero. -/
abbrev Bits := Nat

def classDisplayDepth : Nat := 8

structure ObjClass where
  superclass : Option Bits
  display : List Bits
  subclassed : Bool
  deriving DecidableEq

/-- `filling` are the placeholders that have not been filled in yet. -/
structure Classes where
  heap : Bits → Option ObjClass
  filling : List Bits

namespace Classes

def start : Classes := ⟨fun _ => none, []⟩

def superclassOf (s : Classes) (c : Bits) : Option (Option Bits) :=
  (s.heap c).map ObjClass.superclass

def subclassedOf (s : Classes) (c : Bits) : Bool := (s.heap c).any ObjClass.subclassed

def displayOf (s : Classes) (c : Bits) : List Bits :=
  ((s.heap c).map ObjClass.display).getD (List.replicate classDisplayDepth 0)

/-- The display of a class with this superclass: the superclass's own display, with the
class at the first depth that leaves free. -/
def fillDisplay (s : Classes) (superclass : Option Bits) (own : Bits) : List Bits :=
  match superclass with
  | none => (List.replicate classDisplayDepth 0).set 0 own
  | some parent =>
      let depth := (s.displayOf parent).countP (· != 0)
      if depth < classDisplayDepth then (s.displayOf parent).set depth own
      else s.displayOf parent

/-- The depth of a class in its display, or `none` when it sits deeper than that records. -/
def displayDepth (s : Classes) (own : Bits) : Option Nat :=
  (s.displayOf own).findIdx? (· == own)

/-- The walk up the superclasses. -/
def isInstanceOf (s : Classes) (target : Bits) : Nat → Option Bits → Bool
  | 0, _ => false
  | _ + 1, none => false
  | n + 1, some cur => cur == target || s.isInstanceOf target n (s.superclassOf cur).join

/-- Descent as compiled code tests it: one entry of the display where the target's depth is
recorded, and the walk where it is not. -/
def descendsFast (s : Classes) (fuel : Nat) (c target : Bits) : Bool :=
  match s.displayDepth target with
  | some depth => (s.displayOf c)[depth]? == some target
  | none => s.isInstanceOf target fuel (some c)

inductive Event where
  | alloc (own : Bits) (superclass : Option Bits)
  | placeholder (own : Bits)
  | fill (own : Bits) (superclass : Option Bits)
  deriving DecidableEq

/-- The class with its superclass and its display; the superclass has a class below it now. -/
def put (s : Classes) (own : Bits) (superclass : Option Bits) : Bits → Option ObjClass :=
  fun c =>
    if c = own then some ⟨superclass, s.fillDisplay superclass own, s.subclassedOf own⟩
    else if superclass = some c then (s.heap c).map fun o => { o with subclassed := true }
    else s.heap c

/-- Memory for a class can be had where there is none, and only a class that is there can be
a superclass. -/
def canAlloc (s : Classes) (own : Bits) (superclass : Option Bits) : Bool :=
  own != 0 && (s.heap own).isNone && superclass.all fun p => (s.heap p).isSome

def step (s : Classes) : Event → Classes
  | .alloc own superclass =>
      if s.canAlloc own superclass then { s with heap := s.put own superclass } else s
  | .placeholder own =>
      if s.canAlloc own none then ⟨s.put own none, own :: s.filling⟩ else s
  | .fill own superclass =>
      if s.filling.contains own && superclass.all fun p => (s.heap p).isSome then
        ⟨s.put own superclass, s.filling.filter (· != own)⟩
      else s

/-- A class is another, or its superclass descends from it. -/
inductive Descends (s : Classes) : Bits → Bits → Prop where
  | refl {c : Bits} : (s.heap c).isSome → Descends s c c
  | up {c p a : Bits} : s.superclassOf c = some (some p) → Descends s p a → Descends s c a

/-- The display answers whether one class descends from another, wherever it answers; and
where it does not, the walk does. -/
structure DisplayExact (s : Classes) : Prop where
  entry : ∀ a b depth, (s.heap a).isSome → (s.heap b).isSome → s.displayDepth b = some depth →
    ((s.displayOf a)[depth]? = some b ↔ s.Descends a b)
  test : ∀ a b, (s.heap a).isSome → (s.heap b).isSome →
    ∃ n, ∀ fuel, n ≤ fuel → (s.descendsFast fuel a b = true ↔ s.Descends a b)

/-- A placeholder is given a superclass only while it is no class's superclass itself. -/
def FilledFirst (s : Classes) : Event → Prop
  | .fill own (some p) => p ≠ own ∧ s.subclassedOf own = false
  | _ => True

/-! A display holds the line of descent, cut and padded. -/

def pad (line : List Bits) : List Bits :=
  (line ++ List.replicate classDisplayDepth 0).take classDisplayDepth

theorem pad_getElem? (line : List Bits) (d : Nat) {b : Bits} (hb : b ≠ 0) :
    (pad line)[d]? = some b ↔ d < classDisplayDepth ∧ (line)[d]? = some b := by
  simp only [pad, List.getElem?_take]
  split
  · next hd =>
      simp only [hd, true_and]
      by_cases hl : d < line.length
      · rw [List.getElem?_append_left hl]
      · rw [List.getElem?_append_right (by omega), List.getElem?_eq_none (by omega : _ ≤ d)]
        simp only [List.getElem?_replicate]
        split <;> simp [hb.symm]
  · next hd => simp [hd]

theorem pad_append_of_le {line : List Bits} (h : classDisplayDepth ≤ line.length)
    (more : List Bits) : pad (line ++ more) = pad line := by
  simp only [pad, List.append_assoc]
  rw [List.take_append_of_le_length h, List.take_append_of_le_length h]

theorem pad_set {line : List Bits} (h : line.length < classDisplayDepth) (own : Bits) :
    (pad line).set line.length own = pad (line ++ [own]) := by
  apply List.ext_getElem?
  intro d
  simp only [pad, List.getElem?_set, List.getElem?_take, List.length_take, List.length_append,
    List.length_replicate, List.append_assoc]
  have hlength : line.length < min classDisplayDepth (line.length + classDisplayDepth) := by
    omega
  by_cases hd : line.length = d
  · subst hd
    simp [hlength, h]
  · simp only [hd, if_false]
    split
    · by_cases hl : d < line.length
      · rw [List.getElem?_append_left hl, List.getElem?_append_left hl]
      · rw [List.getElem?_append_right (by omega), List.getElem?_append_right (by omega),
          List.getElem?_append_right (by simp; omega)]
        simp only [List.getElem?_replicate, List.length_singleton]
        rw [if_pos (by omega), if_pos (by omega)]
    · rfl

theorem pad_count {line : List Bits} (h : ∀ x ∈ line, x ≠ 0) :
    (pad line).countP (· != 0) = min classDisplayDepth line.length := by
  have hline : ∀ xs : List Bits, (∀ x ∈ xs, x ≠ 0) → xs.countP (· != 0) = xs.length := by
    intro xs hxs
    rw [List.countP_eq_length]
    intro x hx
    simpa using hxs x hx
  simp only [pad, List.take_append, List.countP_append, List.take_replicate]
  rw [hline _ fun x hx => h x (List.mem_of_mem_take hx), List.length_take]
  simp [List.countP_replicate]

/-! The line of descent of a class, from the root down to it. -/

inductive Line (s : Classes) : Bits → List Bits → Prop where
  | root {c : Bits} : s.superclassOf c = some none → Line s c [c]
  | sub {c p : Bits} {line : List Bits} :
      s.superclassOf c = some (some p) → Line s p line → Line s c (line ++ [c])

namespace Line

variable {s t : Classes} {a b c : Bits} {line other : List Bits}

theorem unique (h : Line s c line) (k : Line s c other) : line = other := by
  induction h generalizing other with
  | root h =>
      cases k with
      | root k => rfl
      | sub k kl => rw [h] at k; cases k
  | sub h hl ih =>
      cases k with
      | root k => rw [h] at k; cases k
      | sub k kl =>
          rw [h] at k
          cases k
          rw [ih kl]

theorem isSome_of_superclassOf {o : Option Bits} (h : s.superclassOf c = some o) :
    (s.heap c).isSome := by
  cases hc : s.heap c with
  | none => simp [superclassOf, hc] at h
  | some _ => rfl

theorem allocated (h : Line s c line) : ∀ x ∈ line, (s.heap x).isSome := by
  induction h with
  | root h =>
      intro x hx
      rw [List.mem_singleton.mp hx]
      exact isSome_of_superclassOf h
  | sub h hl ih =>
      intro x hx
      cases List.mem_append.mp hx with
      | inl hx => exact ih x hx
      | inr hx =>
          rw [List.mem_singleton.mp hx]
          exact isSome_of_superclassOf h

theorem mem_iff (h : Line s c line) : b ∈ line ↔ s.Descends c b := by
  induction h with
  | root h =>
      refine ⟨fun hb => ?_, fun hd => ?_⟩
      · rw [List.mem_singleton.mp hb]
        exact .refl (isSome_of_superclassOf h)
      · cases hd with
        | refl _ => exact List.mem_singleton_self _
        | up k _ => rw [h] at k; cases k
  | sub h hl ih =>
      refine ⟨fun hb => ?_, fun hd => ?_⟩
      · cases List.mem_append.mp hb with
        | inl hb => exact .up h (ih.mp hb)
        | inr hb =>
            rw [List.mem_singleton.mp hb]
            exact .refl (isSome_of_superclassOf h)
      · cases hd with
        | refl _ => exact List.mem_append_right _ (List.mem_singleton_self _)
        | up k hd =>
            rw [h] at k
            cases k
            exact List.mem_append_left _ (ih.mpr hd)

theorem prefixed (h : Line s c line) (hb : b ∈ line) : ∃ init, Line s b init ∧ init <+: line := by
  induction h with
  | root h =>
      rw [List.mem_singleton.mp hb]
      exact ⟨_, .root h, List.prefix_refl _⟩
  | sub h hl ih =>
      cases List.mem_append.mp hb with
      | inl hb =>
          obtain ⟨init, hinit, hp⟩ := ih hb
          exact ⟨init, hinit, hp.trans (List.prefix_append _ _)⟩
      | inr hb =>
          rw [List.mem_singleton.mp hb]
          exact ⟨_, .sub h hl, List.prefix_refl _⟩

/-- Whatever stands above a class in a line is some class's superclass. -/
theorem superclass_of_mem (h : Line s c line) (hb : b ∈ line) (hne : b ≠ c) :
    ∃ x, s.superclassOf x = some (some b) := by
  induction h with
  | root h => exact absurd (List.mem_singleton.mp hb) hne
  | @sub c p line h hl ih =>
      cases List.mem_append.mp hb with
      | inl hb =>
          by_cases hp : b = p
          · exact ⟨c, hp ▸ h⟩
          · exact ih hb hp
      | inr hb => exact absurd (List.mem_singleton.mp hb) hne

theorem congr (h : Line s c line) (hsame : ∀ x ∈ line, t.superclassOf x = s.superclassOf x) :
    Line t c line := by
  induction h with
  | root h => exact .root ((hsame _ (List.mem_singleton_self _)).trans h)
  | sub h hl ih =>
      refine .sub ((hsame _ (List.mem_append_right _ (List.mem_singleton_self _))).trans h) ?_
      exact ih fun x hx => hsame x (List.mem_append_left _ hx)

/-- Enough turns of the walk see the whole line. -/
theorem walk (h : Line s c line) (target : Bits) {fuel : Nat} (hfuel : line.length ≤ fuel) :
    s.isInstanceOf target fuel (some c) = true ↔ target ∈ line := by
  induction h generalizing fuel with
  | root h =>
      cases fuel with
      | zero => simp at hfuel
      | succ n =>
          have hnone : s.isInstanceOf target n none = false := by cases n <;> rfl
          simp only [isInstanceOf, h, Option.join_some, hnone, Bool.or_false, beq_iff_eq,
            List.mem_singleton]
          exact eq_comm
  | sub h hl ih =>
      cases fuel with
      | zero => simp at hfuel
      | succ n =>
          have hn : s.isInstanceOf target n _ = true ↔ _ := ih (by simpa using hfuel)
          simp only [isInstanceOf, h, Option.join_some, Bool.or_eq_true, beq_iff_eq, hn,
            List.mem_append, List.mem_singleton]
          rw [or_comm, eq_comm (a := target)]

end Line

/-- Every class has a line without repetition, and its display is that line. -/
structure Lined (s : Classes) : Prop where
  nonzero : ∀ c, (s.heap c).isSome → c ≠ 0
  line : ∀ c, (s.heap c).isSome → ∃ line, s.Line c line ∧ line.Nodup ∧ s.displayOf c = pad line
  filling : ∀ c ∈ s.filling, s.superclassOf c = some none
  subclassed : ∀ c p, s.superclassOf c = some (some p) → s.subclassedOf p = true

namespace Lined

variable {s : Classes}

theorem line_nonzero (h : Lined s) {c : Bits} {line : List Bits} (hl : s.Line c line) :
    ∀ x ∈ line, x ≠ 0 := fun x hx => h.nonzero x (hl.allocated x hx)

theorem exact (h : Lined s) : DisplayExact s := by
  have hentry : ∀ a b depth, (s.heap a).isSome → (s.heap b).isSome →
      s.displayDepth b = some depth → ((s.displayOf a)[depth]? = some b ↔ s.Descends a b) := by
    intro a b depth ha hb hdepth
    obtain ⟨la, hla, -, hda⟩ := h.line a ha
    obtain ⟨lb, hlb, hnodup, hdb⟩ := h.line b hb
    have hzero := h.nonzero b hb
    rw [displayDepth, hdb, List.findIdx?_eq_some_iff_getElem] at hdepth
    obtain ⟨hlt, hat, -⟩ := hdepth
    have hown : (pad lb)[depth]? = some b := by
      rw [List.getElem?_eq_getElem hlt, beq_iff_eq.mp hat]
    obtain ⟨hd, hown⟩ := (pad_getElem? lb depth hzero).mp hown
    rw [hda, pad_getElem? la depth hzero, ← hla.mem_iff]
    refine ⟨fun hin => List.mem_of_getElem? hin.2, fun hin => ⟨hd, ?_⟩⟩
    obtain ⟨init, hinit, hprefix⟩ := hla.prefixed hin
    rw [hinit.unique hlb] at hprefix
    have hlt := (List.getElem?_eq_some_iff.mp hown).1
    rw [← hown]
    exact (List.prefix_iff_getElem?.mp hprefix depth hlt).trans
      (List.getElem?_eq_getElem hlt).symm
  refine ⟨hentry, fun a b ha hb => ?_⟩
  obtain ⟨la, hla, -, -⟩ := h.line a ha
  refine ⟨la.length, fun fuel hfuel => ?_⟩
  cases hdepth : s.displayDepth b with
  | some depth =>
      simp only [descendsFast, hdepth, beq_iff_eq]
      exact hentry a b depth ha hb hdepth
  | none =>
      simp only [descendsFast, hdepth]
      rw [hla.walk b hfuel, hla.mem_iff]

/-- The display of a new class is its superclass's line with the class below it. -/
theorem fillDisplay_pad (h : Lined s) {p own : Bits} (hp : (s.heap p).isSome)
    {line : List Bits} (hl : s.Line p line) :
    s.fillDisplay (some p) own = pad (line ++ [own]) := by
  obtain ⟨other, hother, -, hdisplay⟩ := h.line p hp
  rw [hother.unique hl] at hdisplay
  simp only [fillDisplay, hdisplay, pad_count (h.line_nonzero hl)]
  split
  · next hlt =>
      have hmin : min classDisplayDepth line.length = line.length := by omega
      rw [hmin, pad_set (by omega)]
  · next hge => exact (pad_append_of_le (by omega) [own]).symm

theorem fillDisplay_root (s : Classes) (own : Bits) : s.fillDisplay none own = pad [own] := rfl

theorem superclassOf_put (s : Classes) (own : Bits) (superclass : Option Bits)
    (filling : List Bits) (c : Bits) :
    superclassOf ⟨s.put own superclass, filling⟩ c =
      if c = own then some superclass else s.superclassOf c := by
  simp only [superclassOf, put]
  split
  · rfl
  · split
    · simp [Option.map_map, Function.comp_def]
    · rfl

theorem displayOf_put (s : Classes) (own : Bits) (superclass : Option Bits)
    (filling : List Bits) (c : Bits) :
    displayOf ⟨s.put own superclass, filling⟩ c =
      if c = own then s.fillDisplay superclass own else s.displayOf c := by
  simp only [displayOf, put]
  split
  · rfl
  · split
    · simp [Option.map_map, Function.comp_def]
    · rfl

theorem isSome_put {s : Classes} {own : Bits} {superclass : Option Bits} {c : Bits}
    (hc : c ≠ own) : (s.put own superclass c).isSome = (s.heap c).isSome := by
  simp only [Classes.put, hc, if_false]
  split
  · exact Option.isSome_map
  · rfl

theorem subclassedOf_put (s : Classes) (own : Bits) (superclass : Option Bits)
    (filling : List Bits) (c : Bits) (hself : superclass ≠ some own) :
    subclassedOf ⟨s.put own superclass, filling⟩ c =
      (s.subclassedOf c || decide (superclass = some c) && (s.heap c).isSome) := by
  simp only [subclassedOf, Classes.put]
  by_cases hc : c = own
  · subst hc
    simp [hself]
  · rw [if_neg hc]
    by_cases hs : superclass = some c
    · rw [if_pos hs]
      cases s.heap c <;> simp [hs]
    · simp [hs]

/-- A class may be given its superclass while nothing else has it in its line. -/
theorem put (h : Lined s) {own : Bits} {superclass : Option Bits} {filling : List Bits}
    (hzero : own ≠ 0) (hsuper : ∀ p, superclass = some p → (s.heap p).isSome)
    (hout : ∀ c line, c ≠ own → s.Line c line → own ∈ line → superclass = none ∧
      s.superclassOf own = some none)
    (hself : superclass ≠ some own)
    (hfilling : ∀ c ∈ filling, c ≠ own ∧ c ∈ s.filling ∨ c = own ∧ superclass = none) :
    Lined ⟨s.put own superclass, filling⟩ := by
  have hline : ∀ c line, c ≠ own → s.Line c line →
      Line ⟨s.put own superclass, filling⟩ c line := by
    intro c line hc hl
    refine hl.congr fun x hx => ?_
    rw [superclassOf_put]
    by_cases hown : x = own
    · subst hown
      obtain ⟨hnone, hsame⟩ := hout c line hc hl hx
      rw [if_pos rfl, hnone, hsame]
    · rw [if_neg hown]
  refine ⟨fun c hc => ?_, fun c hc => ?_, fun c hc => ?_, fun c p hcp => ?_⟩
  · by_cases hown : c = own
    · exact hown ▸ hzero
    · exact h.nonzero c ((isSome_put hown).symm.trans hc)
  · by_cases hown : c = own
    · subst hown
      cases superclass with
      | none =>
          refine ⟨[c], .root ?_, List.nodup_singleton c, ?_⟩
          · rw [superclassOf_put, if_pos rfl]
          · rw [displayOf_put, if_pos rfl, fillDisplay_root]
      | some p =>
          have hp := hsuper p rfl
          obtain ⟨line, hl, hnodup, -⟩ := h.line p hp
          have hne : p ≠ c := fun he => hself (by rw [he])
          refine ⟨line ++ [c], .sub ?_ (hline p line hne hl), ?_, ?_⟩
          · rw [superclassOf_put, if_pos rfl]
          · refine List.nodup_append.mpr ⟨hnodup, List.nodup_singleton c, ?_⟩
            intro x hx y hy he
            rw [List.mem_singleton.mp hy] at he
            subst he
            cases (hout p line hne hl hx).1
          · rw [displayOf_put, if_pos rfl, h.fillDisplay_pad hp hl]
    · have hc' : (s.heap c).isSome := (isSome_put hown).symm.trans hc
      obtain ⟨line, hl, hnodup, hdisplay⟩ := h.line c hc'
      refine ⟨line, hline c line hown hl, hnodup, ?_⟩
      rw [displayOf_put, if_neg hown, hdisplay]
  · rw [superclassOf_put]
    cases hfilling c hc with
    | inl hc => rw [if_neg hc.1]; exact h.filling c hc.2
    | inr hc => rw [if_pos hc.1, hc.2]
  · rw [superclassOf_put] at hcp
    rw [subclassedOf_put _ _ _ _ _ hself]
    by_cases hown : c = own
    · rw [if_pos hown, Option.some_inj] at hcp
      simp [hcp, hsuper p hcp]
    · rw [if_neg hown] at hcp
      simp [h.subclassed c p hcp]

theorem step (h : Lined s) (e : Event) (hfirst : FilledFirst s e) : Lined (s.step e) := by
  have hfresh : ∀ own superclass, s.canAlloc own superclass = true →
      own ≠ 0 ∧ s.heap own = none ∧ ∀ p, superclass = some p → (s.heap p).isSome := by
    intro own superclass hcan
    simp only [canAlloc, Bool.and_eq_true, bne_iff_ne, Option.isNone_iff_eq_none,
      Option.all_eq_true] at hcan
    exact ⟨hcan.1.1, hcan.1.2, fun p hp => hcan.2 p hp⟩
  have hgone : ∀ own, s.heap own = none → ∀ c line, s.Line c line → own ∉ line := by
    intro own hnone c line hl hin
    have := hl.allocated own hin
    rw [hnone] at this
    cases this
  cases e with
  | alloc own superclass =>
      simp only [Classes.step]
      split
      · next hcan =>
          obtain ⟨hzero, hnone, hsuper⟩ := hfresh own superclass hcan
          refine h.put hzero hsuper (fun c line _ hl hin => absurd hin (hgone own hnone c line hl))
            ?_ fun c hc => .inl ⟨?_, hc⟩
          · intro he
            have := hsuper own he
            rw [hnone] at this
            cases this
          · intro he
            have := Line.isSome_of_superclassOf (h.filling c hc)
            rw [he, hnone] at this
            cases this
      · exact h
  | placeholder own =>
      simp only [Classes.step]
      split
      · next hcan =>
          obtain ⟨hzero, hnone, hsuper⟩ := hfresh own none hcan
          refine h.put hzero hsuper (fun c line _ hl hin => absurd hin (hgone own hnone c line hl))
            (by simp) fun c hc => ?_
          by_cases he : c = own
          · exact .inr ⟨he, rfl⟩
          · refine .inl ⟨he, ?_⟩
            cases List.mem_cons.mp hc with
            | inl hc => exact absurd hc he
            | inr hc => exact hc
      · exact h
  | fill own superclass =>
      simp only [Classes.step]
      split
      · next hcan =>
          simp only [Bool.and_eq_true, List.contains_iff_mem, Option.all_eq_true] at hcan
          have hown := h.filling own hcan.1
          refine h.put (h.nonzero own (Line.isSome_of_superclassOf hown))
            (fun p hp => hcan.2 p hp) (fun c line hne hl hin => ⟨?_, hown⟩) ?_ fun c hc => ?_
          · cases superclass with
            | none => rfl
            | some p =>
                obtain ⟨x, hx⟩ := hl.superclass_of_mem hin (Ne.symm hne)
                have hsub := h.subclassed x own hx
                rw [hfirst.2] at hsub
                cases hsub
          · intro he
            subst he
            exact hfirst.1 rfl
          · obtain ⟨hc, hne⟩ := List.mem_filter.mp hc
            exact .inl ⟨by simpa using hne, hc⟩
      · exact h

theorem start : Lined start := by
  refine ⟨fun c hc => ?_, fun c hc => ?_, fun c hc => ?_, fun c p hcp => ?_⟩
  · cases hc
  · cases hc
  · cases hc
  · cases hcp

theorem run (log : List Event) (h : Lined s)
    (hfirst : Transition.Along FilledFirst Classes.step s log) :
    Transition.Along (fun s e => DisplayExact (s.step e)) Classes.step s log := by
  induction log generalizing s with
  | nil => trivial
  | cons e es ih =>
      have hstep := h.step e hfirst.1
      exact ⟨hstep.exact, ih hstep hfirst.2⟩

end Lined

/-- Whatever classes are declared and brought in, in whatever order, displays stay exact as
long as no placeholder is given a superclass after a class was put below it. -/
theorem displays_exact (log : List Event)
    (hfirst : Transition.Along FilledFirst step start log) :
    Transition.Along (fun s e => DisplayExact (s.step e)) step start log :=
  Lined.start.run log hfirst

/-- A class, a class below it that is declared, and one that comes from another isolate with
both of its ancestors. -/
theorem displays_exact_brought :
    Transition.Along (fun s e => DisplayExact (s.step e)) step start
      [.alloc 1 none, .alloc 2 (some 1), .placeholder 5, .placeholder 6, .fill 6 (some 2),
        .fill 5 (some 6)] := by
  exact displays_exact _ ⟨trivial, trivial, trivial, trivial, ⟨by decide, by decide⟩,
    ⟨by decide, by decide⟩, trivial⟩

/-- Class 1 descends from class 2, whose method names class 3, which descends from class 1:
bringing in class 1 fills in class 3 while class 1 is still a placeholder. -/
def broughtInsideOut : List Event :=
  [.placeholder 1, .placeholder 2, .placeholder 3, .fill 3 (some 1), .fill 2 none,
    .fill 1 (some 2)]

theorem broughtInsideOut_wrong :
    (broughtInsideOut.foldl step start).displayOf 3 = [1, 3, 0, 0, 0, 0, 0, 0] ∧
      (broughtInsideOut.foldl step start).displayDepth 2 = some 0 ∧
      ¬DisplayExact (broughtInsideOut.foldl step start) := by
  have hdisplay : (broughtInsideOut.foldl step start).displayOf 3 = [1, 3, 0, 0, 0, 0, 0, 0] := by
    decide
  have hdepth : (broughtInsideOut.foldl step start).displayDepth 2 = some 0 := by decide
  refine ⟨hdisplay, hdepth, fun hexact => ?_⟩
  have hdescends : (broughtInsideOut.foldl step start).Descends 3 2 :=
    .up (by decide : _ = some (some 1)) (.up (by decide : _ = some (some 2)) (.refl (by decide)))
  have hentry := (hexact.entry 3 2 0 (by decide) (by decide) hdepth).mpr hdescends
  rw [hdisplay] at hentry
  cases hentry

end Classes

end Zuri.Vm
