import Zuri.Float.Binary64
import Mathlib.Logic.Function.Basic

/-!
`using` as it is compiled: the labels known at compile time in a table that is looked
up first, the others compared one after the other. Against it stands the comparison of
the subject with every label in source order. What a label computes and what `@eq`
does may change the state of the machine and may raise; both are left to the runtime.
-/

namespace Zuri.Compiler.Using

/-- A value; of a heap object other than a string it is known which one it is. -/
inductive Value (Object : Type) where
  | nil
  | bool (b : Bool)
  | number (x : F64)
  | string (text : String)
  | object (o : Object)

/-- A label that is a literal. An integer is the double nearest to it, and no literal is
a NaN. -/
inductive Literal where
  | nil
  | bool (b : Bool)
  | number (x : F64) (real : x.isNan = false)
  | string (text : String)

inductive Label (Expr : Type) where
  | literal (l : Literal)
  | computed (e : Expr)

inductive JumpKey where
  | nil
  | bool (b : Bool)
  | number (bits : BitVec 64)
  | str (text : String)
  | eqInstance
  deriving DecidableEq

variable {σ ε Expr Object : Type}

def Literal.value : Literal → Value Object
  | .nil => .nil
  | .bool b => .bool b
  | .number x _ => .number x
  | .string text => .string text

def Literal.jumpKey : Literal → JumpKey
  | .nil => .nil
  | .bool b => .bool b
  | .number x _ => .number x.bits
  | .string text => .str text

/-- The key of a label known at compile time. -/
def exprAsJumpKey : Label Expr → Option JumpKey
  | .literal l => some l.jumpKey
  | .computed _ => none

/-- What the rest of the machine does: evaluating an expression, comparing two objects as
they are, whether the class of an object defines `@eq`, and calling it. -/
structure Runtime (σ ε Expr Object : Type) where
  compileExpression : Expr → σ → Except ε (Value Object × σ)
  same : σ → Object → Object → Bool
  hasEq : Object → Bool
  callEq : Object → Value Object → σ → Except ε (Bool × σ)

variable (rt : Runtime σ ε Expr Object)

namespace Runtime

def equals (s : σ) : Value Object → Value Object → Bool
  | .nil, .nil => true
  | .bool a, .bool b => a == b
  | .number x, .number y => x.eq y
  | .string a, .string b => a == b
  | .object a, .object b => rt.same s a b
  | _, _ => false

/-- `a == b`, which is a question for the class of `a` if `b` is on the heap. -/
def eq (a b : Value Object) (s : σ) : Except ε (Bool × σ) :=
  match a, b with
  | .object o, .string _ | .object o, .object _ =>
      if rt.hasEq o then rt.callEq o b s else .ok (rt.equals s a b, s)
  | _, _ => .ok (rt.equals s a b, s)

def label (label : Label Expr) (s : σ) : Except ε (Value Object × σ) :=
  match label with
  | .literal l => .ok (l.value, s)
  | .computed e => rt.compileExpression e s

/-- A label evaluated and compared with the subject. -/
def test (subject : Value Object) (label : Label Expr) (s : σ) : Except ε (Bool × σ) :=
  match rt.label label s with
  | .error e => .error e
  | .ok (value, s) => rt.eq subject value s

/-- A subject as the table knows it. -/
def valueToJumpKey : Value Object → Option JumpKey
  | .nil => some .nil
  | .bool b => some (.bool b)
  | .number x => some (.number x.bits)
  | .string text => some (.str text)
  | .object o => if rt.hasEq o then some .eqInstance else none

end Runtime

/-- Where a jump leads: to the body of an arm, or to where every label is compared. -/
inductive Target where
  | group (n : Nat)
  | section_
  deriving DecidableEq

structure Group (Expr : Type) where
  labels : List (Label Expr)
  constKeys : List JumpKey
  dynamicLabels : List (Label Expr)

def groupOf (labels : List (Label Expr)) : Group Expr where
  labels := labels
  constKeys := labels.filterMap exprAsJumpKey
  dynamicLabels := labels.filter fun label => (exprAsJumpKey label).isNone

abbrev JumpTable := JumpKey → Option Target

def JumpTable.insert (table : JumpTable) (key : JumpKey) (target : Target) : JumpTable :=
  Function.update table key (some target)

/-- The keys of every arm, each leading to its body. -/
def insertKeys : List (Group Expr) → Nat → JumpTable → JumpTable
  | [], _, table => table
  | group :: groups, n, table =>
      insertKeys groups (n + 1)
        (group.constKeys.foldl (fun table key => table.insert key (.group n)) table)

/-- Labels compared one after the other, each leading to the body of its arm. -/
abbrev Tests (Expr : Type) := List (Label Expr × Nat)

def testsOf (labels : Group Expr → List (Label Expr)) : List (Group Expr) → Nat → Tests Expr
  | [], _ => []
  | group :: groups, n =>
      (labels group).map (fun label => (label, n)) ++ testsOf labels groups (n + 1)

structure Compiled (Expr : Type) where
  table : JumpTable
  dynamic : Tests Expr
  section_ : Tests Expr

def compileUsing (arms : List (List (Label Expr))) : Compiled Expr :=
  let groups := arms.map groupOf
  let table : JumpTable :=
    if groups.any fun group => !group.constKeys.isEmpty then
      JumpTable.insert (fun _ => none) .eqInstance .section_
    else fun _ => none
  { table := insertKeys groups 0 table
    dynamic := testsOf (·.dynamicLabels) groups 0
    section_ := testsOf (·.labels) groups 0 }

/-- The arm a row of tests leads to; none of them, and the default is next. -/
def runTests (subject : Value Object) : Tests Expr → σ → Except ε (Option Nat × σ)
  | [], s => .ok (none, s)
  | (label, n) :: tests, s =>
      match rt.test subject label s with
      | .error e => .error e
      | .ok (true, s) => .ok (some n, s)
      | .ok (false, s) => runTests subject tests s

def Compiled.run (compiled : Compiled Expr) (subject : Value Object) (s : σ) :
    Except ε (Option Nat × σ) :=
  match (rt.valueToJumpKey subject).bind compiled.table with
  | some (.group n) => .ok (some n, s)
  | some .section_ => runTests rt subject compiled.section_ s
  | none => runTests rt subject compiled.dynamic s

/-- Whether a label of an arm is `==` to the subject; the ones after it are not looked at. -/
def meetsAny (subject : Value Object) : List (Label Expr) → σ → Except ε (Bool × σ)
  | [], s => .ok (false, s)
  | label :: labels, s =>
      match rt.test subject label s with
      | .error e => .error e
      | .ok (true, s) => .ok (true, s)
      | .ok (false, s) => meetsAny subject labels s

/-- The first arm, in source order, one of whose labels is `==` to the subject. -/
def firstArm (subject : Value Object) :
    List (List (Label Expr)) → Nat → σ → Except ε (Option Nat × σ)
  | [], _, s => .ok (none, s)
  | arm :: arms, n, s =>
      match meetsAny rt subject arm s with
      | .error e => .error e
      | .ok (true, s) => .ok (some n, s)
      | .ok (false, s) => firstArm subject arms (n + 1) s

/-- The arm chosen, or what was raised instead. -/
def chosen (result : Except ε (Option Nat × σ)) : Except ε (Option Nat) := result.map Prod.fst

section Tests

variable {rt} {subject : Value Object}

theorem runTests_append (first more : Tests Expr) (s : σ) :
    runTests rt subject (first ++ more) s =
      match runTests rt subject first s with
      | .error e => .error e
      | .ok (some n, s) => .ok (some n, s)
      | .ok (none, s) => runTests rt subject more s := by
  induction first generalizing s with
  | nil => rfl
  | cons test first ih =>
      obtain ⟨label, n⟩ := test
      simp only [List.cons_append, runTests]
      split
      · rfl
      · rfl
      · exact ih _

theorem runTests_arm (labels : List (Label Expr)) (n : Nat) (s : σ) :
    runTests rt subject (labels.map fun label => (label, n)) s =
      match meetsAny rt subject labels s with
      | .error e => .error e
      | .ok (true, s) => .ok (some n, s)
      | .ok (false, s) => .ok (none, s) := by
  induction labels generalizing s with
  | nil => rfl
  | cons label labels ih =>
      simp only [List.map_cons, runTests, meetsAny]
      cases rt.test subject label s with
      | error e => rfl
      | ok result =>
          obtain ⟨met, t⟩ := result
          cases met with
          | true => rfl
          | false => exact ih t

/-- Every label compared in the order of the tests is comparison in source order. -/
theorem runTests_section (arms : List (List (Label Expr))) (n : Nat) (s : σ) :
    runTests rt subject (testsOf (·.labels) (arms.map groupOf) n) s =
      firstArm rt subject arms n s := by
  induction arms generalizing n s with
  | nil => rfl
  | cons arm arms ih =>
      simp only [List.map_cons, testsOf, groupOf, runTests_append, runTests_arm, firstArm]
      cases meetsAny rt subject arm s with
      | error e => rfl
      | ok result =>
          obtain ⟨met, t⟩ := result
          cases met with
          | true => rfl
          | false => exact ih (n + 1) t

def Label.isComputed : Label Expr → Bool
  | .literal _ => false
  | .computed _ => true

/-- The tests of the computed labels are comparison with these alone. -/
theorem runTests_dynamic (arms : List (List (Label Expr))) (n : Nat) (s : σ) :
    runTests rt subject (testsOf (·.dynamicLabels) (arms.map groupOf) n) s =
      firstArm rt subject (arms.map (·.filter Label.isComputed)) n s := by
  have hcomputed : (fun label : Label Expr => (exprAsJumpKey label).isNone) = Label.isComputed := by
    funext label
    cases label <;> rfl
  induction arms generalizing n s with
  | nil => rfl
  | cons arm arms ih =>
      simp only [List.map_cons, testsOf, groupOf, hcomputed, runTests_append, runTests_arm, firstArm]
      cases meetsAny rt subject (arm.filter Label.isComputed) s with
      | error e => rfl
      | ok result =>
          obtain ⟨met, t⟩ := result
          cases met with
          | true => rfl
          | false => exact ih (n + 1) t

/-- Whether a literal label is `==` to a subject that has no `@eq`. -/
def Literal.meets (subject : Value Object) (l : Literal) : Bool :=
  match l, subject with
  | .nil, .nil => true
  | .bool b, .bool a => a == b
  | .number x _, .number y => y.eq x
  | .string b, .string a => a == b
  | _, _ => false

theorem test_literal (h : rt.valueToJumpKey subject ≠ some .eqInstance) (l : Literal) (s : σ) :
    rt.test subject (.literal l : Label Expr) s = .ok (l.meets subject, s) := by
  cases subject with
  | object o =>
      have hplain : rt.hasEq o = false := by
        by_contra hdefined
        simp [Runtime.valueToJumpKey, hdefined] at h
      cases l <;>
        simp [Runtime.test, Runtime.label, Runtime.eq, Runtime.equals, Literal.meets, Literal.value,
          hplain]
  | nil | bool _ | number _ | string _ =>
      cases l <;>
        simp [Runtime.test, Runtime.label, Runtime.eq, Runtime.equals, Literal.meets, Literal.value]

end Tests

/-- The last arm with a literal label of that key. -/
def lastSpelled (key : JumpKey) : List (List (Label Expr)) → Nat → Option Nat
  | [], _ => none
  | arm :: arms, n =>
      (lastSpelled key arms (n + 1)).or
        (if arm.any fun label => exprAsJumpKey label = some key then some n else none)

theorem foldl_insert (keys : List JumpKey) (n : Nat) (table : JumpTable) (key : JumpKey) :
    keys.foldl (fun table key => table.insert key (.group n)) table key =
      if key ∈ keys then some (.group n) else table key := by
  induction keys generalizing table with
  | nil => rfl
  | cons first keys ih =>
      rw [List.foldl_cons, ih]
      by_cases hin : key ∈ keys
      · simp [hin]
      · by_cases hfirst : key = first
        · simp [hfirst, JumpTable.insert]
        · simp [hin, hfirst, JumpTable.insert]

/-- A key leads to the last arm that has it. -/
theorem insertKeys_lookup (arms : List (List (Label Expr))) (n : Nat) (table : JumpTable)
    (key : JumpKey) :
    insertKeys (arms.map groupOf) n table key =
      ((lastSpelled key arms n).map Target.group).or (table key) := by
  induction arms generalizing n table with
  | nil => rfl
  | cons arm arms ih =>
      simp only [List.map_cons, insertKeys, ih, lastSpelled]
      cases lastSpelled key arms (n + 1) with
      | some k => rfl
      | none =>
          have hmem : key ∈ (groupOf arm).constKeys ↔
              (arm.any fun label => exprAsJumpKey label = some key) = true := by
            simp [groupOf, List.mem_filterMap]
          rw [foldl_insert]
          by_cases hkey : key ∈ (groupOf arm).constKeys
          · simp [hkey, hmem.mp hkey]
          · have hno : (arm.any fun label => decide (exprAsJumpKey label = some key)) = false := by
              simpa using fun h => hkey (hmem.mpr h)
            simp [hkey, hno]

/-- A label of an arm that is in the table under the key is known at compile time. -/
theorem lastSpelled_mem {key : JumpKey} {arms : List (List (Label Expr))} {n k : Nat}
    (h : lastSpelled key arms n = some k) :
    ∃ i, k = n + i ∧ ∃ l : Literal, .literal l ∈ arms.getD i [] ∧ l.jumpKey = key := by
  induction arms generalizing n with
  | nil => cases h
  | cons arm arms ih =>
      simp only [lastSpelled] at h
      cases hmore : lastSpelled key arms (n + 1) with
      | some other =>
          rw [hmore, Option.some_or, Option.some.injEq] at h
          subst h
          obtain ⟨i, hi, l, hl, hkey⟩ := ih hmore
          exact ⟨i + 1, by omega, l, by simpa using hl, hkey⟩
      | none =>
          rw [hmore] at h
          split at h
          · rename_i hany
            cases h
            obtain ⟨label, hlabel, hkey⟩ := List.any_eq_true.mp hany
            cases label with
            | literal l => exact ⟨0, rfl, l, by simpa using hlabel, by simpa [exprAsJumpKey] using hkey⟩
            | computed e => simp [exprAsJumpKey] at hkey
          · cases h

theorem meets_of_key {rt : Runtime σ ε Expr Object} {subject : Value Object} {l : Literal}
    (h : rt.valueToJumpKey subject = some l.jumpKey) : l.meets subject = true := by
  cases subject with
  | nil => cases l <;> simp_all [Runtime.valueToJumpKey, Literal.jumpKey, Literal.meets]
  | bool b => cases l <;> simp_all [Runtime.valueToJumpKey, Literal.jumpKey, Literal.meets]
  | string text => cases l <;> simp_all [Runtime.valueToJumpKey, Literal.jumpKey, Literal.meets]
  | object o =>
      cases l <;> simp [Runtime.valueToJumpKey, Literal.jumpKey] at h
  | number y =>
      cases l with
      | number x real =>
          simp only [Runtime.valueToJumpKey, Literal.jumpKey, Option.some.injEq,
            JumpKey.number.injEq] at h
          have hsame : y = x := by
            cases y
            cases x
            simpa using h
          rw [hsame]
          exact F64.eq_self x real
      | nil | bool _ | string _ => simp [Runtime.valueToJumpKey, Literal.jumpKey] at h

/-- The labels before and after the first literal one that is `==` to the subject. -/
def splitArm (subject : Value Object) :
    List (Label Expr) → Option (List (Label Expr) × List (Label Expr))
  | [] => none
  | .literal l :: labels =>
      if l.meets subject then some ([], labels)
      else (splitArm subject labels).map fun split => (.literal l :: split.1, split.2)
  | .computed e :: labels =>
      (splitArm subject labels).map fun split => (.computed e :: split.1, split.2)

/-- All labels before the first literal one that is `==` to the subject, and those after it
in its arm. -/
def firstLiteral (subject : Value Object) :
    List (List (Label Expr)) → Option (List (Label Expr) × List (Label Expr))
  | [] => none
  | arm :: arms =>
      match splitArm subject arm with
      | some split => some split
      | none => (firstLiteral subject arms).map fun split => (arm ++ split.1, split.2)

/-- Where literal labels spell the subject, no label of the arms before the last of them is
`==` to it. Where none does, and one is `==` to it all the same, a computed label is
before it, or after it in its arm. A subject with no key, or with an `@eq` of its own, is
compared in source order anyway. -/
def Unambiguous (rt : Runtime σ ε Expr Object) (subject : Value Object)
    (arms : List (List (Label Expr))) (s : σ) : Prop :=
  ∀ key, rt.valueToJumpKey subject = some key → key ≠ .eqInstance →
    (∀ n, lastSpelled key arms 0 = some n →
      ∃ t, meetsAny rt subject (arms.take n).flatten s = .ok (false, t) ∧
        ∃ result, meetsAny rt subject (arms.getD n []) t = .ok result) ∧
    (lastSpelled key arms 0 = none → ∀ before after,
      firstLiteral subject arms = some (before, after) →
        ∀ t, meetsAny rt subject (before.filter Label.isComputed) s = .ok (false, t) →
          ∃ u, meetsAny rt subject (after.filter Label.isComputed) t = .ok (true, u))

section Choice

variable {rt : Runtime σ ε Expr Object} {subject : Value Object}

theorem meetsAny_append (first more : List (Label Expr)) (s : σ) :
    meetsAny rt subject (first ++ more) s =
      match meetsAny rt subject first s with
      | .error e => .error e
      | .ok (true, s) => .ok (true, s)
      | .ok (false, s) => meetsAny rt subject more s := by
  induction first generalizing s with
  | nil => rfl
  | cons label labels ih =>
      simp only [List.cons_append, meetsAny]
      split
      · rfl
      · rfl
      · exact ih _

theorem firstArm_ge (arms : List (List (Label Expr))) {n k : Nat} {s t : σ}
    (h : firstArm rt subject arms n s = .ok (some k, t)) : n ≤ k := by
  induction arms generalizing n s with
  | nil => cases h
  | cons arm arms ih =>
      simp only [firstArm] at h
      split at h
      · cases h
      · cases h
        exact Nat.le_refl _
      · exact Nat.le_of_succ_le (ih h)

/-- Comparison comes to an arm if nothing before it is met and something in it is. -/
theorem firstArm_chosen (arms : List (List (Label Expr))) (n i : Nat) (s : σ) :
    chosen (firstArm rt subject arms n s) = .ok (some (n + i)) ↔
      ∃ t, meetsAny rt subject (arms.take i).flatten s = .ok (false, t) ∧
        ∃ u, meetsAny rt subject (arms.getD i []) t = .ok (true, u) := by
  induction arms generalizing n i s with
  | nil => simp [firstArm, chosen, meetsAny, Except.map]
  | cons arm arms ih =>
      cases i with
      | zero =>
          simp only [firstArm, List.take_zero, List.flatten_nil, meetsAny, Except.ok.injEq,
            Prod.mk.injEq, true_and, exists_eq_left', List.getD_cons_zero]
          cases hmeets : meetsAny rt subject arm s with
          | error e => simp [chosen, Except.map]
          | ok result =>
              obtain ⟨met, t⟩ := result
              cases met with
              | true => simp [chosen, Except.map]
              | false =>
                  simp only [Except.ok.injEq, Prod.mk.injEq, Bool.false_eq_true, false_and,
                    exists_false, iff_false]
                  intro hchosen
                  cases hfirst : firstArm rt subject arms (n + 1) t with
                  | error e => simp [hfirst, chosen, Except.map] at hchosen
                  | ok result =>
                      obtain ⟨found, u⟩ := result
                      simp only [hfirst, chosen, Except.map, Except.ok.injEq] at hchosen
                      rw [hchosen] at hfirst
                      have hge := firstArm_ge arms hfirst
                      omega
      | succ i =>
          have hi : n + (i + 1) = n + 1 + i := by omega
          simp only [firstArm, List.take_succ_cons, List.flatten_cons, meetsAny_append,
            List.getD_cons_succ, hi]
          cases hmeets : meetsAny rt subject arm s with
          | error e => simp [chosen, Except.map]
          | ok result =>
              obtain ⟨met, t⟩ := result
              cases met with
              | true =>
                  simp only [chosen, Except.map, Except.ok.injEq, Option.some.injEq,
                    Prod.mk.injEq, Bool.true_eq_false, false_and, exists_false, iff_false]
                  omega
              | false => exact ih (n + 1) i t

theorem splitArm_some {labels before after : List (Label Expr)}
    (h : splitArm subject labels = some (before, after)) :
    ∃ l : Literal, labels = before ++ .literal l :: after ∧ l.meets subject = true ∧
      ∀ k : Literal, .literal k ∈ before → k.meets subject = false := by
  induction labels generalizing before with
  | nil => cases h
  | cons label labels ih =>
      cases label with
      | literal l =>
          simp only [splitArm] at h
          split at h
          · rename_i hmeets
            cases h
            exact ⟨l, rfl, hmeets, by simp⟩
          · rename_i hmiss
            obtain ⟨⟨first, rest⟩, hsplit, heq⟩ := Option.map_eq_some_iff.mp h
            cases heq
            obtain ⟨k, hlabels, hk, hbefore⟩ := ih hsplit
            refine ⟨k, by rw [hlabels]; rfl, hk, ?_⟩
            intro other ho
            rcases List.mem_cons.mp ho with ho | ho
            · cases ho
              simpa using hmiss
            · exact hbefore other ho
      | computed e =>
          simp only [splitArm] at h
          obtain ⟨⟨first, rest⟩, hsplit, heq⟩ := Option.map_eq_some_iff.mp h
          cases heq
          obtain ⟨k, hlabels, hk, hbefore⟩ := ih hsplit
          refine ⟨k, by rw [hlabels]; rfl, hk, ?_⟩
          intro other ho
          rcases List.mem_cons.mp ho with ho | ho
          · cases ho
          · exact hbefore other ho

theorem splitArm_none {labels : List (Label Expr)} (h : splitArm subject labels = none) :
    ∀ k : Literal, .literal k ∈ labels → k.meets subject = false := by
  induction labels with
  | nil => simp
  | cons label labels ih =>
      intro k hk
      cases label with
      | literal l =>
          simp only [splitArm] at h
          split at h
          · cases h
          · rename_i hmiss
            rcases List.mem_cons.mp hk with hk | hk
            · cases hk
              simpa using hmiss
            · exact ih (Option.map_eq_none_iff.mp h) k hk
      | computed e =>
          simp only [splitArm] at h
          rcases List.mem_cons.mp hk with hk | hk
          · cases hk
          · exact ih (Option.map_eq_none_iff.mp h) k hk

theorem meetsAny_computed (h : rt.valueToJumpKey subject ≠ some .eqInstance)
    (labels : List (Label Expr))
    (hmiss : ∀ l : Literal, .literal l ∈ labels → l.meets subject = false) (s : σ) :
    meetsAny rt subject (labels.filter Label.isComputed) s = meetsAny rt subject labels s := by
  induction labels generalizing s with
  | nil => rfl
  | cons label labels ih =>
      have hmore := ih fun l hl => hmiss l (List.mem_cons_of_mem label hl)
      cases label with
      | literal l =>
          have hl := hmiss l List.mem_cons_self
          have hskip : ((Label.literal l : Label Expr) :: labels).filter Label.isComputed =
              labels.filter Label.isComputed := rfl
          rw [hskip, hmore s]
          simp only [meetsAny, test_literal h, hl]
      | computed e =>
          have hkeep : ((Label.computed e : Label Expr) :: labels).filter Label.isComputed =
              .computed e :: labels.filter Label.isComputed := rfl
          rw [hkeep]
          simp only [meetsAny]
          split
          · rfl
          · rfl
          · exact hmore _

theorem meetsAny_literal (h : rt.valueToJumpKey subject ≠ some .eqInstance)
    {labels : List (Label Expr)} {l : Literal} (hl : .literal l ∈ labels)
    (hmeets : l.meets subject = true) {s t : σ} {met : Bool}
    (hresult : meetsAny rt subject labels s = .ok (met, t)) : met = true := by
  induction labels generalizing s with
  | nil => cases hl
  | cons label labels ih =>
      simp only [meetsAny] at hresult
      split at hresult
      · cases hresult
      · cases hresult
        rfl
      · rename_i u htest
        rcases List.mem_cons.mp hl with rfl | hl
        · rw [test_literal h, hmeets] at htest
          cases htest
        · exact ih hl hresult

/-- The computed labels alone choose as comparison with every label does. -/
theorem computed_chosen (h : rt.valueToJumpKey subject ≠ some .eqInstance)
    (arms : List (List (Label Expr))) (n : Nat) (s : σ) :
    chosen (firstArm rt subject (arms.map (·.filter Label.isComputed)) n s) =
        chosen (firstArm rt subject arms n s) ↔
      ∀ before after, firstLiteral subject arms = some (before, after) →
        ∀ t, meetsAny rt subject (before.filter Label.isComputed) s = .ok (false, t) →
          ∃ u, meetsAny rt subject (after.filter Label.isComputed) t = .ok (true, u) := by
  induction arms generalizing n s with
  | nil => simp [firstLiteral, firstArm]
  | cons arm arms ih =>
      cases hsplit : splitArm subject arm with
      | none =>
          have hcomputed := meetsAny_computed h arm (splitArm_none hsplit) s
          have hfirst : firstLiteral subject (arm :: arms) =
              (firstLiteral subject arms).map fun split => (arm ++ split.1, split.2) := by
            simp only [firstLiteral, hsplit]
          simp only [List.map_cons, firstArm, hcomputed, hfirst]
          cases hmeets : meetsAny rt subject arm s with
          | error e =>
              refine iff_of_true rfl ?_
              intro before after hbefore t ht
              obtain ⟨split, _, heq⟩ := Option.map_eq_some_iff.mp hbefore
              cases heq
              simp [List.filter_append, meetsAny_append, hcomputed, hmeets] at ht
          | ok result =>
              obtain ⟨met, u⟩ := result
              cases met with
              | true =>
                  refine iff_of_true rfl ?_
                  intro before after hbefore t ht
                  obtain ⟨split, _, heq⟩ := Option.map_eq_some_iff.mp hbefore
                  cases heq
                  simp [List.filter_append, meetsAny_append, hcomputed, hmeets] at ht
              | false =>
                  have hwalk : ∀ before : List (Label Expr),
                      meetsAny rt subject ((arm ++ before).filter Label.isComputed) s =
                        meetsAny rt subject (before.filter Label.isComputed) u := by
                    intro before
                    simp [List.filter_append, meetsAny_append, hcomputed, hmeets]
                  refine (ih (n + 1) u).trans ⟨?_, ?_⟩
                  · intro hrest before after hbefore t ht
                    obtain ⟨split, hfound, heq⟩ := Option.map_eq_some_iff.mp hbefore
                    cases heq
                    exact hrest split.1 split.2 hfound t (hwalk split.1 ▸ ht)
                  · intro hrest before after hbefore t ht
                    exact hrest (arm ++ before) after
                      (Option.map_eq_some_iff.mpr ⟨(before, after), hbefore, rfl⟩) t
                      ((hwalk before).trans ht)
      | some split =>
          obtain ⟨before, after⟩ := split
          obtain ⟨l, rfl, hmeets, hbefore⟩ := splitArm_some hsplit
          have hfirst : firstLiteral subject ((before ++ .literal l :: after) :: arms) =
              some (before, after) := by
            simp only [firstLiteral, hsplit]
          have hcomputed := meetsAny_computed h before hbefore s
          have hfilter : (before ++ Label.literal l :: after).filter Label.isComputed =
              before.filter Label.isComputed ++ after.filter Label.isComputed := by
            simp [List.filter_append, Label.isComputed]
          simp only [List.map_cons, firstArm, hfilter, meetsAny_append, hcomputed, hfirst]
          cases hwalk : meetsAny rt subject before s with
          | error e =>
              refine iff_of_true rfl ?_
              intro first rest heq t ht
              cases heq
              rw [hcomputed, hwalk] at ht
              cases ht
          | ok result =>
              obtain ⟨met, t⟩ := result
              cases met with
              | true =>
                  refine iff_of_true rfl ?_
                  intro first rest heq t ht
                  cases heq
                  rw [hcomputed, hwalk] at ht
                  cases ht
              | false =>
                  simp only [meetsAny, test_literal h, hmeets]
                  have hcond : (∀ first rest, some (before, after) = some (first, rest) →
                      ∀ u, meetsAny rt subject (first.filter Label.isComputed) s = .ok (false, u) →
                        ∃ v, meetsAny rt subject (rest.filter Label.isComputed) u = .ok (true, v)) ↔
                      ∃ v, meetsAny rt subject (after.filter Label.isComputed) t = .ok (true, v) := by
                    constructor
                    · intro hall
                      exact hall before after rfl t (hcomputed.trans hwalk)
                    · intro hfound first rest heq u hu
                      cases heq
                      cases (hcomputed.trans hwalk).symm.trans hu
                      exact hfound
                  rw [hcond]
                  cases hafter : meetsAny rt subject (after.filter Label.isComputed) t with
                  | error e => simp [chosen, Except.map]
                  | ok result =>
                      obtain ⟨later, u⟩ := result
                      cases later with
                      | true => simp [chosen, Except.map]
                      | false =>
                          refine iff_of_false ?_ (by simp)
                          intro hchosen
                          cases hrest : firstArm rt subject (arms.map (·.filter Label.isComputed))
                            (n + 1) u with
                          | error e => simp [hrest, chosen, Except.map] at hchosen
                          | ok result =>
                              obtain ⟨found, v⟩ := result
                              simp only [hrest, chosen, Except.map, Except.ok.injEq] at hchosen
                              rw [hchosen] at hrest
                              have hge := firstArm_ge _ hrest
                              omega

/-- Where no literal label is `==` to the subject, none need be looked at. -/
theorem firstArm_computed (h : rt.valueToJumpKey subject ≠ some .eqInstance)
    (hmiss : ∀ l : Literal, l.meets subject = false) (arms : List (List (Label Expr))) (n : Nat)
    (s : σ) :
    firstArm rt subject (arms.map (·.filter Label.isComputed)) n s =
      firstArm rt subject arms n s := by
  induction arms generalizing n s with
  | nil => rfl
  | cons arm arms ih =>
      simp only [List.map_cons, firstArm, meetsAny_computed h arm fun l _ => hmiss l]
      split
      · rfl
      · rfl
      · exact ih _ _

theorem lastSpelled_eqInstance (arms : List (List (Label Expr))) (n : Nat) :
    lastSpelled .eqInstance arms n = none := by
  cases hspelled : lastSpelled .eqInstance arms n with
  | none => rfl
  | some k =>
      obtain ⟨_, _, l, _, hkey⟩ := lastSpelled_mem hspelled
      cases l <;> cases hkey

theorem compileUsing_table (arms : List (List (Label Expr))) (key : JumpKey)
    (hkey : key ≠ .eqInstance) :
    (compileUsing arms).table key = (lastSpelled key arms 0).map Target.group := by
  unfold compileUsing
  simp only
  rw [insertKeys_lookup]
  split <;> simp [JumpTable.insert, Function.update_of_ne hkey]

/-- A subject with an `@eq` of its own meets every label. -/
theorem run_eqInstance (h : rt.valueToJumpKey subject = some .eqInstance)
    (arms : List (List (Label Expr))) (s : σ) :
    (compileUsing arms).run rt subject s = firstArm rt subject arms 0 s := by
  unfold Compiled.run
  rw [h, Option.bind_some]
  have htable : (compileUsing arms).table .eqInstance =
      if (arms.map groupOf).any fun group => !group.constKeys.isEmpty then some .section_
      else none := by
    unfold compileUsing
    simp only
    rw [insertKeys_lookup, lastSpelled_eqInstance]
    split <;> simp [JumpTable.insert]
  rw [htable]
  by_cases hany : ((arms.map groupOf).any fun group => !group.constKeys.isEmpty) = true
  · rw [if_pos hany]
    exact runTests_section arms 0 s
  · rw [if_neg hany]
    have hplain : arms.map (·.filter Label.isComputed) = arms := by
      refine (List.map_congr_left ?_).trans (List.map_id arms)
      intro arm harm
      apply List.filter_eq_self.mpr
      intro label hlabel
      cases label with
      | computed e => rfl
      | literal l =>
          refine absurd (List.any_eq_true.mpr ⟨groupOf arm, List.mem_map_of_mem harm, ?_⟩) hany
          have hkey : l.jumpKey ∈ (groupOf arm).constKeys :=
            List.mem_filterMap.mpr ⟨.literal l, hlabel, rfl⟩
          simpa using List.ne_nil_of_mem hkey
    have hdynamic := @runTests_dynamic _ _ _ _ rt subject arms 0 s
    rw [hplain] at hdynamic
    exact hdynamic

/-- The arm that runs is the first one with a label that is `==` to the subject, in source
order, exactly if the labels are unambiguous. -/
theorem run_firstArm (rt : Runtime σ ε Expr Object) (subject : Value Object)
    (arms : List (List (Label Expr))) (s : σ) :
    chosen ((compileUsing arms).run rt subject s) = chosen (firstArm rt subject arms 0 s) ↔
      Unambiguous rt subject arms s := by
  cases hkey : rt.valueToJumpKey subject with
  | none =>
      refine iff_of_true ?_ fun key hother => by cases hkey.symm.trans hother
      have hmiss : ∀ l : Literal, l.meets subject = false := by
        cases subject with
        | object o =>
            intro l
            cases l <;> rfl
        | nil | bool _ | number _ | string _ => cases hkey
      simp only [Compiled.run, hkey, Option.bind_none]
      rw [← firstArm_computed (by simp [hkey]) hmiss]
      exact congrArg chosen (runTests_dynamic arms 0 s)
  | some key =>
      by_cases hinstance : key = .eqInstance
      · subst hinstance
        rw [run_eqInstance hkey]
        refine iff_of_true rfl fun other hother hne => ?_
        cases hkey.symm.trans hother
        exact absurd rfl hne
      · have hplain : rt.valueToJumpKey subject ≠ some .eqInstance := by
          rw [hkey]
          simpa using hinstance
        simp only [Compiled.run, hkey, Option.bind_some, compileUsing_table arms key hinstance]
        cases hspelled : lastSpelled key arms 0 with
        | some n =>
            obtain ⟨i, hi, l, hl, hlkey⟩ := lastSpelled_mem hspelled
            have hmeets := @meets_of_key _ _ _ _ rt subject l
              (by rw [hkey, hlkey])
            have hchosen := @firstArm_chosen _ _ _ _ rt subject arms 0 n s
            rw [Nat.zero_add] at hchosen hi
            subst hi
            simp only [Option.map_some]
            refine Iff.trans ⟨Eq.symm, Eq.symm⟩ (hchosen.trans ⟨?_, ?_⟩)
            · rintro ⟨t, hbefore, u, hfound⟩ other hother _
              cases hkey.symm.trans hother
              refine ⟨?_, fun hnone => by cases hspelled.symm.trans hnone⟩
              intro k hk
              cases hspelled.symm.trans hk
              exact ⟨t, hbefore, _, hfound⟩
            · intro hcond
              obtain ⟨t, hbefore, ⟨met, u⟩, hresult⟩ := (hcond key hkey hinstance).1 n hspelled
              have hmet := meetsAny_literal hplain hl hmeets hresult
              exact ⟨t, hbefore, u, hmet ▸ hresult⟩
        | none =>
            have hdynamic := @runTests_dynamic _ _ _ _ rt subject arms 0 s
            have hsame := @computed_chosen _ _ _ _ rt subject hplain arms 0 s
            rw [← hdynamic] at hsame
            refine hsame.trans ⟨?_, ?_⟩
            · intro hcond other hother _
              cases hkey.symm.trans hother
              refine ⟨?_, fun _ => hcond⟩
              intro n hn
              cases hspelled.symm.trans hn
            · intro hcond
              exact (hcond key hkey hinstance).2 hspelled

/-- Labels that are only literals, compared in a machine without state. -/
def plainRuntime : Runtime Unit Empty Empty Empty where
  compileExpression := fun e _ => e.elim
  same := fun _ o _ => o.elim
  hasEq := fun o => o.elim
  callEq := fun o _ _ => o.elim

/-- A label repeated in a later arm: the later arm runs. -/
theorem run_repeated :
    ¬ ∀ (arms : List (List (Label Empty))) (subject : Value Empty),
      chosen ((compileUsing arms).run plainRuntime subject ()) =
        chosen (firstArm plainRuntime subject arms 0 ()) := by
  intro h
  have hsame := h [[.literal .nil], [.literal .nil]] .nil
  cases hsame

end Choice

end Zuri.Compiler.Using
