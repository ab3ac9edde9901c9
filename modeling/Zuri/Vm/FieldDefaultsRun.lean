import Mathlib.Data.List.Dedup
import Mathlib.Data.List.Induction
import Zuri.Vm.FieldDefaults

/-!
A new instance has the fields that evaluating every declaration of its line would leave, from
the root down and in source order, whether they come from the table of defaults or from running
the initializers.
-/

namespace Zuri.Vm.Fields

variable {W : Type} {negate : Negate W} {slots : List (String × Nat)}

/-- Every declaration of a line, evaluated on an instance all of whose fields are nil. -/
def evaluated (negate : Negate W) (slots : List (String × Nat)) (decls : List (ClassDecl W))
    (world : W) : Except String (State W) :=
  decls.foldlM (fun s d => runDecls negate slots d.fields s) ⟨fun _ => .nil, world⟩

theorem apply_append (ds ds' : List (Nat × Literal)) (fields : Nat → Value) :
    apply (ds ++ ds') fields = apply ds' (apply ds fields) := List.foldl_append

theorem apply_snoc (ds : List (Nat × Literal)) (slot : Nat) (value : Literal)
    (fields : Nat → Value) : apply (ds ++ [(slot, value)]) fields =
      Function.update (apply ds fields) slot (.lit value) := by
  rw [apply_append]
  rfl

def Holds (ds : List (Nat × Literal)) (slot : Nat) : Prop := ∃ d ∈ ds, d.1 = slot

theorem apply_update {ds : List (Nat × Literal)} {slot : Nat} (h : ¬Holds ds slot) (value : Value)
    (fields : Nat → Value) : apply ds (Function.update fields slot value) =
      Function.update (apply ds fields) slot value := by
  induction ds generalizing fields with
  | nil => rfl
  | cons d ds ih =>
      have hne : d.1 ≠ slot := fun heq => h ⟨d, List.mem_cons_self, heq⟩
      have hrest : ¬Holds ds slot := fun ⟨d', hd', heq⟩ => h ⟨d', List.mem_cons_of_mem _ hd', heq⟩
      change apply ds (Function.update (Function.update fields slot value) d.1 (.lit d.2)) =
        Function.update (apply ds (Function.update fields d.1 (.lit d.2))) slot value
      rw [Function.update_comm hne.symm, ih hrest]

theorem apply_same {ds : List (Nat × Literal)} {slot : Nat} (h : ¬Holds ds slot)
    (fields : Nat → Value) : apply ds fields slot = fields slot := by
  induction ds generalizing fields with
  | nil => rfl
  | cons d ds ih =>
      have hne : slot ≠ d.1 := fun heq => h ⟨d, List.mem_cons_self, heq.symm⟩
      change apply ds (Function.update fields d.1 (.lit d.2)) slot = fields slot
      rw [ih fun ⟨d', hd', heq⟩ => h ⟨d', List.mem_cons_of_mem _ hd', heq⟩,
        Function.update_of_ne hne]

/-- Exchanging a slot's default is setting the slot once more. -/
theorem apply_set {ds : List (Nat × Literal)} {slot i : Nat} (hnodup : (ds.map Prod.fst).Nodup)
    (hfind : ds.findIdx? (fun d => decide (d.1 = slot)) = some i) (value : Literal)
    (fields : Nat → Value) : apply (ds.set i (slot, value)) fields =
      Function.update (apply ds fields) slot (.lit value) := by
  induction ds generalizing i fields with
  | nil => exact absurd hfind (by simp)
  | cons d ds ih =>
      obtain ⟨hnot, hnodup⟩ := List.nodup_cons.mp hnodup
      rw [List.findIdx?_cons] at hfind
      by_cases heq : d.1 = slot
      · rw [if_pos (decide_eq_true heq)] at hfind
        obtain rfl := Option.some.inj hfind
        have hrest : ¬Holds ds slot := fun ⟨d', hd', hslot⟩ =>
          hnot (List.mem_map.mpr ⟨d', hd', hslot.trans heq.symm⟩)
        change apply ds (Function.update fields slot (.lit value)) =
          Function.update (apply ds (Function.update fields d.1 (.lit d.2))) slot (.lit value)
        rw [heq, apply_update hrest, apply_update hrest, Function.update_idem]
      · rw [if_neg (by simpa using heq)] at hfind
        obtain ⟨j, hj, rfl⟩ := Option.map_eq_some_iff.mp hfind
        exact ih hnodup hj (Function.update fields d.1 (.lit d.2))

theorem findIdx?_none {ds : List (Nat × Literal)} {slot : Nat} :
    ds.findIdx? (fun d => decide (d.1 = slot)) = none ↔ ¬Holds ds slot := by
  rw [List.findIdx?_eq_none_iff]
  simp only [Holds, decide_eq_false_iff_not, not_exists, not_and]

theorem set_slots {ds : List (Nat × Literal)} {slot i : Nat}
    (hfind : ds.findIdx? (fun d => decide (d.1 = slot)) = some i) (value : Literal) :
    (ds.set i (slot, value)).map Prod.fst = ds.map Prod.fst := by
  obtain ⟨hlt, hslot, -⟩ := List.findIdx?_eq_some_iff_getElem.mp hfind
  rw [List.map_set]
  apply List.ext_getElem
  · simp
  · intro j h₁ h₂
    rw [List.getElem_set]
    split
    · next heq =>
        subst heq
        rw [List.getElem_map]
        exact (of_decide_eq_true hslot).symm
    · rfl

/-- What the tables of a class do to fields, after another default is given. -/
structure Gives (c c' : ObjClass W) (slot : Nat) (value : Literal) : Prop where
  runs : c'.runsInitializers = c.runsInitializers
  slots : c'.fieldSlots = c.fieldSlots
  init : c'.ownFieldInitializer = c.ownFieldInitializer
  nodup : (c'.defaults.map Prod.fst).Nodup
  keeps : ∀ s, Holds c.defaults s → Holds c'.defaults s
  own : ∀ fields, (c.runsInitializers = true ∨
      ∀ s, ¬Holds c.defaults s → apply c.ownDefaults fields s = .nil) →
    apply c'.ownDefaults fields = Function.update (apply c.ownDefaults fields) slot (.lit value) ∧
      (c'.runsInitializers = true ∨ ∀ s, ¬Holds c'.defaults s → apply c'.ownDefaults fields s = .nil)
  table : c.runsInitializers = false → apply c'.defaults (fun _ => .nil) =
    Function.update (apply c.defaults fun _ => .nil) slot (.lit value)

theorem setFieldDefault_gives {c : ObjClass W} (hnodup : (c.defaults.map Prod.fst).Nodup)
    (slot : Nat) (value : Literal) : Gives c (c.setFieldDefault slot value) slot value := by
  unfold ObjClass.setFieldDefault
  simp only
  by_cases hdrop : value = .nil ∧ c.defaults.findIdx? (fun d => decide (d.1 = slot)) = none ∧
      c.runsInitializers = false
  · rw [if_pos hdrop]
    obtain ⟨rfl, hnone, hruns⟩ := hdrop
    have hfree := findIdx?_none.mp hnone
    refine ⟨rfl, rfl, rfl, hnodup, fun _ h => h, fun fields hnil => ⟨?_, hnil⟩, fun _ => ?_⟩
    · rcases hnil with htrue | hnil
      · rw [hruns] at htrue
        exact absurd htrue (by decide)
      · exact (Function.update_eq_self_iff.mpr (hnil slot hfree).symm).symm
    · have hsame : Value.nil = apply c.defaults (fun _ => .nil) slot :=
        (apply_same hfree fun _ => Value.nil).symm
      exact (Function.update_eq_self_iff.mpr hsame).symm
  · rw [if_neg hdrop]
    have hown : ∀ fields, apply (c.ownDefaults ++ [(slot, value)]) fields =
        Function.update (apply c.ownDefaults fields) slot (.lit value) := fun fields =>
      apply_snoc _ _ _ _
    have hafter : ∀ (ds : List (Nat × Literal)) (fields : Nat → Value), Holds ds slot →
        (∀ s, Holds c.defaults s → Holds ds s) → (c.runsInitializers = true ∨
          ∀ s, ¬Holds c.defaults s → apply c.ownDefaults fields s = .nil) →
        c.runsInitializers = true ∨ ∀ s, ¬Holds ds s →
          apply (c.ownDefaults ++ [(slot, value)]) fields s = .nil := by
      intro ds fields hslot hkeeps hnil
      rcases hnil with htrue | hnil
      · exact .inl htrue
      · refine .inr fun s hs => ?_
        have hne : s ≠ slot := fun heq => hs (heq ▸ hslot)
        rw [hown, Function.update_of_ne hne]
        exact hnil s fun h => hs (hkeeps s h)
    cases hfind : c.defaults.findIdx? (fun d => decide (d.1 = slot)) with
    | some i =>
        have hsame := set_slots hfind value
        have hholds : ∀ s, Holds c.defaults s → Holds (c.defaults.set i (slot, value)) s := by
          rintro s ⟨d, hd, rfl⟩
          have hmem := List.mem_map_of_mem (f := Prod.fst) hd
          rw [← hsame] at hmem
          obtain ⟨d', hd', heq⟩ := List.mem_map.mp hmem
          exact ⟨d', hd', heq⟩
        have hslot : Holds (c.defaults.set i (slot, value)) slot := by
          by_contra hnot
          have hfree : ¬Holds c.defaults slot := fun h => hnot (hholds slot h)
          rw [findIdx?_none.mpr hfree] at hfind
          exact absurd hfind (by simp)
        refine ⟨rfl, rfl, rfl, ?_, hholds, fun fields hnil => ⟨hown fields, ?_⟩, fun _ => ?_⟩
        · change ((c.defaults.set i (slot, value)).map Prod.fst).Nodup
          rw [hsame]
          exact hnodup
        · exact hafter _ fields hslot hholds hnil
        · exact apply_set hnodup hfind value _
    | none =>
        have hfree := findIdx?_none.mp hfind
        have hholds : ∀ s, Holds c.defaults s → Holds (c.defaults ++ [(slot, value)]) s :=
          fun s ⟨d, hd, heq⟩ => ⟨d, List.mem_append_left _ hd, heq⟩
        refine ⟨rfl, rfl, rfl, ?_, hholds, fun fields hnil => ⟨hown fields, ?_⟩, fun _ => ?_⟩
        · change ((c.defaults ++ [(slot, value)]).map Prod.fst).Nodup
          rw [List.map_append, List.map_singleton, List.nodup_append]
          refine ⟨hnodup, by simp, fun a ha b hb => ?_⟩
          rw [List.mem_singleton.mp hb]
          rintro rfl
          obtain ⟨d, hd, heq⟩ := List.mem_map.mp ha
          exact hfree ⟨d, hd, heq⟩
        · exact hafter _ fields ⟨(slot, value), by simp, rfl⟩ hholds hnil
        · exact apply_snoc _ _ _ _

theorem literalDefault_eval {e : Expr W} {literal : Literal} (h : literalDefault e = some literal)
    (s : State W) : eval negate e s = .ok (.lit literal, s) := by
  induction e generalizing literal with
  | nil | bool _ | integer _ | float _ | literal _ =>
      obtain rfl := Option.some.inj h
      rfl
  | grouping inner ih => exact ih h
  | minus inner ih =>
      unfold literalDefault at h
      cases hinner : literalDefault inner with
      | none => simp [hinner] at h
      | some l =>
          cases l with
          | number value =>
              rw [hinner] at h
              obtain rfl := Option.some.inj h
              rw [eval, ih hinner]
          | nil | bool _ | text _ => simp [hinner] at h
  | code run => exact absurd h (by simp [literalDefault])

/-- The slots that were there stay, as they were. -/
def Extends (slots slots' : List (String × Nat)) : Prop :=
  ∀ name slot, slots.lookup name = some slot → slots'.lookup name = some slot

theorem declareField_extends (c : ObjClass W) (name : String) :
    Extends c.fieldSlots (c.declareField name).fieldSlots := by
  intro other slot h
  unfold ObjClass.declareField
  split
  · exact h
  · change List.lookup other (c.fieldSlots ++ _) = _
    rw [List.lookup_append, h]
    rfl

theorem declareField_slot (c : ObjClass W) (name : String) :
    ((c.declareField name).slot name).isSome := by
  unfold ObjClass.declareField
  split
  · assumption
  · change (List.lookup name (c.fieldSlots ++ [(name, c.fieldCount)])).isSome
    rw [List.lookup_append]
    simp

theorem declareField_rest (c : ObjClass W) (name : String) :
    (c.declareField name).ownFieldInitializer = c.ownFieldInitializer ∧
      (c.declareField name).ownDefaults = c.ownDefaults ∧
      (c.declareField name).defaults = c.defaults ∧
      (c.declareField name).runsInitializers = c.runsInitializers := by
  unfold ObjClass.declareField
  split <;> exact ⟨rfl, rfl, rfl, rfl⟩

/-- What declaring fields leaves of a class. -/
structure Declares (c c' : ObjClass W) (names : List String) : Prop where
  keeps : Extends c.fieldSlots c'.fieldSlots
  has : ∀ name ∈ names, (c'.slot name).isSome
  init : c'.ownFieldInitializer = c.ownFieldInitializer
  own : c'.ownDefaults = c.ownDefaults
  table : c'.defaults = c.defaults
  runs : c'.runsInitializers = c.runsInitializers

theorem declareFields_declares (names : List String) (c : ObjClass W) :
    Declares c (names.foldl ObjClass.declareField c) names := by
  induction names generalizing c with
  | nil => exact ⟨fun _ _ h => h, fun _ h => absurd h (by simp), rfl, rfl, rfl, rfl⟩
  | cons name names ih =>
      obtain ⟨hinit, hown, htable, hruns⟩ := declareField_rest c name
      have hrest := ih (c.declareField name)
      rw [List.foldl_cons]
      refine ⟨fun n slot h => hrest.keeps n slot (declareField_extends c name n slot h), ?_,
        hrest.init.trans hinit, hrest.own.trans hown, hrest.table.trans htable,
        hrest.runs.trans hruns⟩
      intro n hn
      rcases List.mem_cons.mp hn with rfl | hn
      · obtain ⟨slot, hslot⟩ := Option.isSome_iff_exists.mp (declareField_slot c n)
        exact Option.isSome_iff_exists.mpr ⟨slot, hrest.keeps n slot hslot⟩
      · exact hrest.has n hn

/-- Literals stored in fields one after the other. -/
def stored (slots : List (String × Nat)) (literals : List (String × Literal))
    (fields : Nat → Value) : Nat → Value :=
  literals.foldl (fun fields p =>
    match slots.lookup p.1 with
    | some slot => Function.update fields slot (.lit p.2)
    | none => fields) fields

theorem stored_extends {slots' : List (String × Nat)} (hext : Extends slots slots')
    {literals : List (String × Literal)} (hhas : ∀ p ∈ literals, (slots.lookup p.1).isSome)
    (fields : Nat → Value) : stored slots' literals fields = stored slots literals fields := by
  induction literals generalizing fields with
  | nil => rfl
  | cons p literals ih =>
      obtain ⟨slot, hslot⟩ := Option.isSome_iff_exists.mp (hhas p List.mem_cons_self)
      have hrest := fun p hp => hhas p (List.mem_cons_of_mem _ hp)
      simp only [stored, List.foldl_cons, hslot, hext _ _ hslot]
      exact ih hrest _

/-- Running the declarations of a class is storing the literals and running the others. -/
theorem runDecls_tabled {fields : List (FieldDecl W)}
    (hhas : ∀ d ∈ fields, (slots.lookup d.name).isSome) (s : State W) :
    runDecls negate slots fields s = runDecls negate slots (tabled fields).2
      { s with fields := stored slots (tabled fields).1 s.fields } := by
  induction fields generalizing s with
  | nil => rfl
  | cons d fields ih =>
      unfold tabled
      cases hd : literalDefault d.value with
      | none => rfl
      | some literal =>
          obtain ⟨slot, hslot⟩ := Option.isSome_iff_exists.mp (hhas d List.mem_cons_self)
          have hstep : runDecl negate slots s d =
              .ok { s with fields := Function.update s.fields slot (.lit literal) } := by
            rw [runDecl, literalDefault_eval hd]
            simp only [setField, hslot]
          rw [runDecls, List.foldlM_cons, hstep]
          change runDecls negate slots fields _ = _
          rw [ih fun d hd => hhas d (List.mem_cons_of_mem _ hd)]
          simp only [stored, List.foldl_cons, hslot]

theorem tabled_names (fields : List (FieldDecl W)) :
    ∀ p ∈ (tabled fields).1, p.1 ∈ fields.map FieldDecl.name := by
  induction fields with
  | nil => exact fun p hp => absurd hp (by simp [tabled])
  | cons d fields ih =>
      unfold tabled
      cases hd : literalDefault d.value with
      | none => exact fun p hp => absurd hp (by simp)
      | some literal =>
          intro p hp
          rcases List.mem_cons.mp hp with rfl | hp
          · exact List.mem_cons_self
          · exact List.mem_cons_of_mem _ (ih p hp)

/-- A class before and after the literals are given to it. -/
structure GivesAll (c c' : ObjClass W) (literals : List (String × Literal)) : Prop where
  runs : c'.runsInitializers = c.runsInitializers
  slots : c'.fieldSlots = c.fieldSlots
  init : c'.ownFieldInitializer = c.ownFieldInitializer
  nodup : (c'.defaults.map Prod.fst).Nodup
  own : ∀ fields, (c.runsInitializers = true ∨
      ∀ s, ¬Holds c.defaults s → apply c.ownDefaults fields s = .nil) →
    apply c'.ownDefaults fields = stored c.fieldSlots literals (apply c.ownDefaults fields)
  table : c.runsInitializers = false → apply c'.defaults (fun _ => .nil) =
    stored c.fieldSlots literals (apply c.defaults fun _ => .nil)

theorem giveDefaults_gives (literals : List (String × Literal)) {c : ObjClass W}
    (hnodup : (c.defaults.map Prod.fst).Nodup) :
    GivesAll c (literals.foldl (fun c p => c.giveDefault p.1 p.2) c) literals := by
  induction literals generalizing c with
  | nil => exact ⟨rfl, rfl, rfl, hnodup, fun _ _ => rfl, fun _ => rfl⟩
  | cons p literals ih =>
      cases hslot : c.slot p.1 with
      | none =>
          have hgive : c.giveDefault p.1 p.2 = c := by simp only [ObjClass.giveDefault, hslot]
          have hall := ih hnodup
          rw [List.foldl_cons, hgive]
          refine ⟨hall.runs, hall.slots, hall.init, hall.nodup, fun fields h => ?_, fun h => ?_⟩
          · have hlookup : c.fieldSlots.lookup p.1 = none := hslot
            simp only [stored, List.foldl_cons, hlookup]
            exact hall.own fields h
          · have hlookup : c.fieldSlots.lookup p.1 = none := hslot
            simp only [stored, List.foldl_cons, hlookup]
            exact hall.table h
      | some slot =>
          have hgive : c.giveDefault p.1 p.2 = c.setFieldDefault slot p.2 := by
            simp only [ObjClass.giveDefault, hslot]
          have hone := setFieldDefault_gives hnodup slot p.2
          have hall := ih hone.nodup
          rw [List.foldl_cons, hgive]
          have hlookup : c.fieldSlots.lookup p.1 = some slot := hslot
          refine ⟨hall.runs.trans hone.runs, hall.slots.trans hone.slots, hall.init.trans hone.init,
            hall.nodup, fun fields h => ?_, fun h => ?_⟩
          · obtain ⟨hset, hnil⟩ := hone.own fields h
            rw [hall.own fields hnil, hset, hone.slots]
            simp only [stored, List.foldl_cons, hlookup]
          · rw [hall.table (hone.runs.trans h), hone.table h, hone.slots]
            simp only [stored, List.foldl_cons, hlookup]

/-- What the declaration of a class makes of its superclass's. -/
structure Inherits (negate : Negate W) (superclass : Option (ObjClass W)) (d : ClassDecl W)
    (c : ObjClass W) : Prop where
  nodup : (c.defaults.map Prod.fst).Nodup
  keeps : Extends (makeClass superclass).fieldSlots c.fieldSlots
  step : ∀ slots s, Extends c.fieldSlots slots → ((makeClass superclass).runsInitializers = true ∨
      ∀ k, ¬Holds (makeClass superclass).defaults k → s.fields k = .nil) →
    initStep negate slots s c = runDecls negate slots d.fields s
  table : ∀ slots world, Extends c.fieldSlots slots → c.runsInitializers = false →
    (makeClass superclass).runsInitializers = false ∧
      runDecls negate slots d.fields ⟨apply (makeClass superclass).defaults fun _ => .nil, world⟩ =
        .ok ⟨apply c.defaults fun _ => .nil, world⟩

theorem declareClass_inherits (superclass : Option (ObjClass W)) (d : ClassDecl W)
    (hnodup : ((makeClass superclass).defaults.map Prod.fst).Nodup) :
    Inherits negate superclass d (declareClass superclass d) := by
  have hdecl := declareFields_declares d.names (makeClass superclass)
  unfold declareClass
  simp only
  generalize d.names.foldl ObjClass.declareField (makeClass superclass) = base at hdecl
  have hall := giveDefaults_gives (tabled d.fields).1 (hdecl.table ▸ hnodup)
  generalize (tabled d.fields).1.foldl (fun c p => c.giveDefault p.1 p.2) base = full at hall
  have hnames : ∀ f ∈ d.fields, (base.fieldSlots.lookup f.name).isSome := fun f hf =>
    hdecl.has f.name (List.mem_append_left _ (List.mem_map_of_mem hf))
  have hliterals : ∀ p ∈ (tabled d.fields).1, (base.fieldSlots.lookup p.1).isSome := fun p hp =>
    hdecl.has p.1 (List.mem_append_left _ (tabled_names d.fields p hp))
  have hinit : base.ownFieldInitializer = none := by
    rw [hdecl.init]
    cases superclass <;> rfl
  have hown : base.ownDefaults = [] := by
    rw [hdecl.own]
    cases superclass <;> rfl
  have hrun : ∀ slots s, Extends full.fieldSlots slots → runDecls negate slots d.fields s =
      runDecls negate slots (tabled d.fields).2
        { s with fields := stored base.fieldSlots (tabled d.fields).1 s.fields } := by
    intro slots s hext
    rw [hall.slots] at hext
    have hhas : ∀ f ∈ d.fields, (slots.lookup f.name).isSome := fun f hf => by
      obtain ⟨slot, hslot⟩ := Option.isSome_iff_exists.mp (hnames f hf)
      exact Option.isSome_iff_exists.mpr ⟨slot, hext _ _ hslot⟩
    rw [runDecls_tabled hhas, stored_extends hext hliterals]
  have hfields : ∀ s : State W, ((makeClass superclass).runsInitializers = true ∨
      ∀ k, ¬Holds (makeClass superclass).defaults k → s.fields k = .nil) →
      apply full.ownDefaults s.fields = stored base.fieldSlots (tabled d.fields).1 s.fields := by
    intro s hs
    rw [← hdecl.runs, ← hdecl.table] at hs
    have happly : apply base.ownDefaults s.fields = s.fields := by
      rw [hown]
      rfl
    rw [hall.own s.fields (by rwa [happly]), happly]
  cases hrest : (tabled d.fields).2 with
  | nil =>
      rw [if_pos List.isEmpty_nil]
      refine ⟨hall.nodup, fun n k h => hall.slots ▸ hdecl.keeps n k h, ?_, ?_⟩
      · intro slots s hext hs
        rw [hrun slots s hext, hrest, initStep, hall.init, hinit, hfields s hs]
        rfl
      · intro slots world hext hruns
        rw [hall.runs] at hruns
        rw [hdecl.runs] at hruns
        refine ⟨hruns, ?_⟩
        rw [hrun slots _ hext, hrest, hall.table (hdecl.runs.trans hruns), hdecl.table]
        rfl
  | cons f rest =>
      rw [if_neg (by simp)]
      refine ⟨hall.nodup, fun n k h => hall.slots ▸ hdecl.keeps n k h, ?_, ?_⟩
      · intro slots s hext hs
        rw [hrun slots s hext, hrest]
        change runDecls negate slots (f :: rest) { s with fields := apply full.ownDefaults s.fields } = _
        rw [hfields s hs]
      · intro slots world hext hruns
        exact absurd hruns (by simp [ObjClass.setFieldInit])

theorem declareLine_snoc (decls : List (ClassDecl W)) (d : ClassDecl W) :
    declareLine (decls ++ [d]) =
      declareClass (declareLine decls).head? d :: declareLine decls := by
  simp only [declareLine, List.foldl_append, List.foldl_cons, List.foldl_nil]

theorem evaluated_snoc (decls : List (ClassDecl W)) (d : ClassDecl W) (world : W) :
    evaluated negate slots (decls ++ [d]) world =
      (evaluated negate slots decls world).bind (runDecls negate slots d.fields) := by
  simp only [evaluated, List.foldlM_append, List.foldlM_cons, List.foldlM_nil, bind_pure]
  rfl

/-- What holds of a line: its steps evaluate the declarations, and with no initializer in it so
does its table. -/
structure Evaluates (negate : Negate W) (decls : List (ClassDecl W)) : Prop where
  nodup : ((makeClass (declareLine decls).head?).defaults.map Prod.fst).Nodup
  steps : ∀ slots world, Extends (makeClass (declareLine decls).head?).fieldSlots slots →
    (declareLine decls).reverse.foldlM (initStep negate slots) ⟨fun _ => .nil, world⟩ =
      evaluated negate slots decls world
  table : ∀ slots world, Extends (makeClass (declareLine decls).head?).fieldSlots slots →
    (makeClass (declareLine decls).head?).runsInitializers = false →
    evaluated negate slots decls world =
      .ok ⟨apply (makeClass (declareLine decls).head?).defaults fun _ => .nil, world⟩

theorem declareLine_evaluates (decls : List (ClassDecl W)) : Evaluates negate decls := by
  induction decls using List.reverseRecOn with
  | nil => exact ⟨List.nodup_nil, fun _ _ _ => rfl, fun _ _ _ _ => rfl⟩
  | append_singleton decls d ih =>
      have hd : Inherits negate (declareLine decls).head? d
          (declareClass (declareLine decls).head? d) := declareClass_inherits _ d ih.nodup
      have htop : makeClass (declareLine (decls ++ [d])).head? =
          makeClass (some (declareClass (declareLine decls).head? d)) := by
        rw [declareLine_snoc]
        rfl
      refine ⟨?_, ?_, ?_⟩
      · rw [htop]
        exact hd.nodup
      · intro slots world hext
        rw [htop] at hext
        have hbelow : Extends (makeClass (declareLine decls).head?).fieldSlots slots :=
          fun n k h => hext n k (hd.keeps n k h)
        rw [declareLine_snoc, List.reverse_cons, List.foldlM_append, ih.steps slots world hbelow,
          evaluated_snoc]
        simp only [List.foldlM_cons, List.foldlM_nil, bind_pure]
        cases hs : evaluated negate slots decls world with
        | error e => rfl
        | ok s =>
            refine hd.step slots s hext ?_
            cases hruns : (makeClass (declareLine decls).head?).runsInitializers with
            | true => exact .inl rfl
            | false =>
                -- with no initializer so far, the fields are what the table says
                have htable := ih.table slots world hbelow hruns
                rw [hs] at htable
                obtain rfl := Except.ok.inj htable
                exact .inr fun k hk => apply_same hk _
      · intro slots world hext hruns
        rw [htop] at hext hruns ⊢
        obtain ⟨hnone, hrun⟩ := hd.table slots world hext hruns
        have hbelow : Extends (makeClass (declareLine decls).head?).fieldSlots slots :=
          fun n k h => hext n k (hd.keeps n k h)
        rw [evaluated_snoc, ih.table slots world hbelow hnone]
        exact hrun

/-- A new instance just before its constructor runs, of any line of classes `decls` and then `d`,
has in its slots what evaluating the declarations leaves in them. -/
theorem instantiate_eq (negate : Negate W) (decls : List (ClassDecl W)) (d : ClassDecl W)
    (world : W) :
    instantiate negate (declareLine (decls ++ [d])) world =
      evaluated negate (declareClass (declareLine decls).head? d).fieldSlots (decls ++ [d])
        world := by
  have hall : Evaluates negate (decls ++ [d]) := declareLine_evaluates _
  have hline := declareLine_snoc decls d
  generalize declareClass (declareLine decls).head? d = c at hline ⊢
  have hsteps := hall.steps c.fieldSlots world (by rw [hline]; exact fun _ _ h => h)
  have htable := hall.table c.fieldSlots world (by rw [hline]; exact fun _ _ h => h)
  rw [hline] at hsteps htable ⊢
  simp only [instantiate, allocInstance]
  cases hruns : c.runsInitializers with
  | true =>
      rw [if_pos rfl, if_pos rfl]
      exact hsteps
  | false =>
      rw [if_neg Bool.false_ne_true, if_neg Bool.false_ne_true, htable hruns]
      rfl

/-- The slots of a class after fields of these names have been declared in it. -/
structure Laid (c : ObjClass W) (names : List String) : Prop where
  nodup : (c.fieldSlots.map Prod.fst).Nodup
  mem : ∀ name, name ∈ c.fieldSlots.map Prod.fst ↔ name ∈ names
  slots : c.fieldSlots.map Prod.snd = (List.range c.fieldSlots.length).map (· % 2 ^ 16)
  count : c.fieldCount = c.fieldSlots.length % 2 ^ 16

theorem Laid.length {c : ObjClass W} {names : List String} (h : Laid c names) :
    c.fieldSlots.length = names.dedup.length := by
  have hmap : (c.fieldSlots.map Prod.fst).length = c.fieldSlots.length := List.length_map _
  rw [← hmap]
  refine ((List.perm_ext_iff_of_nodup h.nodup (List.nodup_dedup names)).mpr fun name => ?_).length_eq
  rw [h.mem, List.mem_dedup]

theorem slot_isSome {c : ObjClass W} {name : String} :
    (c.slot name).isSome ↔ name ∈ c.fieldSlots.map Prod.fst := by
  unfold ObjClass.slot
  induction c.fieldSlots with
  | nil => simp
  | cons p slots ih =>
      rw [List.lookup_cons, List.map_cons, List.mem_cons]
      by_cases hname : name = p.1
      · simp [hname]
      · rw [beq_false_of_ne hname, ← ih]
        simp [hname]

theorem Laid.declareField {c : ObjClass W} {names : List String} (h : Laid c names)
    (name : String) : Laid (c.declareField name) (names ++ [name]) := by
  unfold ObjClass.declareField
  split
  · next hsome =>
      refine ⟨h.nodup, fun other => ?_, h.slots, h.count⟩
      rw [h.mem, List.mem_append, List.mem_singleton]
      refine ⟨.inl, fun hmem => hmem.elim id fun heq => ?_⟩
      exact heq ▸ (h.mem name).mp (slot_isSome.mp hsome)
  · next hnone =>
      have hnew : name ∉ c.fieldSlots.map Prod.fst := fun hmem => hnone (slot_isSome.mpr hmem)
      refine ⟨?_, fun other => ?_, ?_, ?_⟩
      · simp only [List.map_append, List.map_cons, List.map_nil]
        exact List.nodup_append.mpr ⟨h.nodup, List.nodup_singleton name, fun a ha b hb heq =>
          hnew (List.mem_singleton.mp hb ▸ heq ▸ ha)⟩
      · simp only [List.map_append, List.map_cons, List.map_nil, List.mem_append, h.mem]
      · simp only [List.map_append, List.map_cons, List.map_nil, List.length_append,
          List.length_singleton, List.range_succ, h.slots, h.count]
      · simp only [List.length_append, List.length_singleton, h.count, Nat.mod_add_mod]

theorem Laid.declareFields {c : ObjClass W} {names : List String} (h : Laid c names)
    (more : List String) : Laid (more.foldl ObjClass.declareField c) (names ++ more) := by
  induction more generalizing c names with
  | nil => rwa [List.append_nil]
  | cons name more ih =>
      rw [List.append_cons]
      exact ih (h.declareField name)

theorem giveDefaults_count (literals : List (String × Literal)) (c : ObjClass W) :
    (literals.foldl (fun c p => c.giveDefault p.1 p.2) c).fieldSlots = c.fieldSlots ∧
      (literals.foldl (fun c p => c.giveDefault p.1 p.2) c).fieldCount = c.fieldCount := by
  induction literals generalizing c with
  | nil => exact ⟨rfl, rfl⟩
  | cons p literals ih =>
      have hone : (c.giveDefault p.1 p.2).fieldSlots = c.fieldSlots ∧
          (c.giveDefault p.1 p.2).fieldCount = c.fieldCount := by
        unfold ObjClass.giveDefault ObjClass.setFieldDefault
        split
        · simp only
          split <;> exact ⟨rfl, rfl⟩
        · exact ⟨rfl, rfl⟩
      obtain ⟨hslots, hcount⟩ := ih (c.giveDefault p.1 p.2)
      exact ⟨hslots.trans hone.1, hcount.trans hone.2⟩

theorem Laid.of_eq {c c' : ObjClass W} {names : List String} (h : Laid c names)
    (hslots : c'.fieldSlots = c.fieldSlots) (hcount : c'.fieldCount = c.fieldCount) :
    Laid c' names :=
  ⟨hslots ▸ h.nodup, fun name => hslots ▸ h.mem name, hslots ▸ h.slots,
    hcount.trans (hslots ▸ h.count)⟩

theorem Laid.declareClass {superclass : Option (ObjClass W)} {names : List String}
    (h : Laid (makeClass superclass) names) (d : ClassDecl W) :
    Laid (declareClass superclass d) (names ++ d.names) := by
  obtain ⟨hslots, hcount⟩ := giveDefaults_count (tabled d.fields).1
    (d.names.foldl ObjClass.declareField (makeClass superclass))
  unfold Fields.declareClass
  simp only
  split
  · exact (h.declareFields d.names).of_eq hslots hcount
  · exact (h.declareFields d.names).of_eq hslots hcount

theorem declareLine_laid (decls : List (ClassDecl W)) :
    Laid (makeClass (declareLine decls).head?) (decls.flatMap ClassDecl.names) := by
  induction decls using List.reverseRecOn with
  | nil => exact ⟨List.nodup_nil, fun _ => Iff.rfl, rfl, rfl⟩
  | append_singleton decls d ih =>
      rw [declareLine_snoc, List.flatMap_append, List.flatMap_singleton]
      exact (ih.declareClass d).of_eq rfl rfl

/-- Every field has a slot of its own, which instances have. -/
def Apart (c : ObjClass W) : Prop :=
  ∀ name slot, c.slot name = some slot →
    slot < c.fieldCount ∧ ∀ other, c.slot other = some slot → other = name

theorem Laid.slot_iff {c : ObjClass W} {names : List String} (h : Laid c names) {name : String}
    {slot : Nat} : c.slot name = some slot ↔
      ∃ i, (c.fieldSlots.map Prod.fst)[i]? = some name ∧ slot = i % 2 ^ 16 := by
  have hmem : c.slot name = some slot ↔ (name, slot) ∈ c.fieldSlots := by
    have hnodup := h.nodup
    unfold ObjClass.slot
    generalize c.fieldSlots = slots at hnodup
    induction slots with
    | nil => simp
    | cons p slots ih =>
        obtain ⟨hnot, hrest⟩ := List.nodup_cons.mp hnodup
        rw [List.lookup_cons]
        by_cases hname : name = p.1
        · subst hname
          rw [beq_self_eq_true]
          constructor
          · intro hsome
            obtain rfl := Option.some.inj hsome
            exact List.mem_cons_self
          · intro hin
            rcases List.mem_cons.mp hin with heq | hin
            · exact congrArg some (congrArg Prod.snd heq).symm
            · exact absurd (List.mem_map_of_mem (f := Prod.fst) hin) hnot
        · rw [beq_false_of_ne hname]
          refine (ih hrest).trans ⟨List.mem_cons_of_mem _, fun hin => ?_⟩
          rcases List.mem_cons.mp hin with heq | hin
          · exact absurd (congrArg Prod.fst heq) hname
          · exact hin
  rw [hmem, List.mem_iff_getElem?]
  have hat : ∀ i < c.fieldSlots.length,
      (c.fieldSlots.map Prod.snd)[i]? = some (i % 2 ^ 16) := fun i hi => by
    rw [h.slots, List.getElem?_map, List.getElem?_range hi]
    rfl
  constructor
  · rintro ⟨i, hi⟩
    have hsnd := hat i (List.getElem?_eq_some_iff.mp hi).1
    rw [List.getElem?_map, hi] at hsnd
    exact ⟨i, by rw [List.getElem?_map, hi]; rfl, Option.some.inj hsnd⟩
  · rintro ⟨i, hi, rfl⟩
    rw [List.getElem?_map, Option.map_eq_some_iff] at hi
    obtain ⟨p, hp, rfl⟩ := hi
    have hsnd := hat i (List.getElem?_eq_some_iff.mp hp).1
    rw [List.getElem?_map, hp] at hsnd
    exact ⟨i, by rw [hp, ← Option.some.inj hsnd]⟩

/-- Fields are apart exactly if there are fewer than 2^16. -/
theorem Laid.apart_iff {c : ObjClass W} {names : List String} (h : Laid c names) :
    Apart c ↔ names.dedup.length < 2 ^ 16 := by
  rw [← h.length]
  constructor
  · intro hapart
    by_contra hge
    have hlast : 2 ^ 16 - 1 < (c.fieldSlots.map Prod.fst).length := by
      rw [List.length_map]
      omega
    have hslot := (hapart _ _ (h.slot_iff.mpr ⟨2 ^ 16 - 1, List.getElem?_eq_getElem hlast, rfl⟩)).1
    have hcount := h.count
    omega
  · intro hlt name slot hslot
    obtain ⟨i, hi, rfl⟩ := h.slot_iff.mp hslot
    have hil := (List.getElem?_eq_some_iff.mp hi).1
    rw [List.length_map] at hil
    rw [h.count, Nat.mod_eq_of_lt hlt, Nat.mod_eq_of_lt (Nat.lt_trans hil hlt)]
    refine ⟨hil, fun other hother => ?_⟩
    obtain ⟨j, hj, hsame⟩ := h.slot_iff.mp hother
    have hjl := (List.getElem?_eq_some_iff.mp hj).1
    rw [List.length_map] at hjl
    rw [Nat.mod_eq_of_lt (Nat.lt_trans hjl hlt)] at hsame
    rw [← hsame, hi] at hj
    exact (Option.some.inj hj).symm

/-- Instances of `d` under `decls` have every field, and in it what evaluating the declarations
from the root's on leaves in it. -/
def Evaluated (negate : Negate W) (decls : List (ClassDecl W)) (d : ClassDecl W) : Prop :=
  let c := declareClass (declareLine decls).head? d
  Apart c ∧ ∀ world, instantiate negate (declareLine (decls ++ [d])) world =
    evaluated negate c.fieldSlots (decls ++ [d]) world

/-- A class of `n` fields that are not set. -/
def wide (start n : Nat) : ClassDecl Unit :=
  ⟨(List.range' start n).map fun i => ⟨String.ofList (List.replicate i 'f'), .nil⟩, []⟩

end Zuri.Vm.Fields
