import Mathlib.Data.List.Perm.Subperm
import Mathlib.Data.List.Dedup
import Mathlib.Data.List.Induction
import Mathlib.Logic.Function.Basic
import Zuri.Vm.Instr

/-!
The numbers that the compiler stores in instructions: positions in a function's tables and
registers, each cut to the width of its operand, beside the numbers they are made for. Whatever
a program is, its functions are compiled by taking such numbers one after the other; a step is
one place at which the compiler takes one.
-/

namespace Zuri.Compiler.Operands

open Zuri.Vm (UpvalueDescriptor)

def asU8 (n : Nat) : Nat := n % 256

def asU16 (n : Nat) : Nat := n % 65536

/-- A number stored in an instruction, and the number it was made for. -/
structure Operand where
  stored : Nat
  meant : Nat
  deriving DecidableEq

/-- The tables of a function that instructions point into with two bytes. -/
inductive Table where
  | constants
  | paramChecks
  | jumpTables
  deriving DecidableEq

/-- What the compiler does with the scope of a function. `allocReg` gives a register to
whoever asks, and `name` puts one that was given or taken before into an instruction, counted
from the first. `take` uses a register that is worked out: the one after a call's arguments so
far or after the class of an assertion, or the next free one for the result of a condition; an
instruction or a call's window names it, and the registers above it are free then. -/
inductive Step where
  | addEntry (t : Table)
  | addUpvalue (desc : UpvalueDescriptor)
  | allocReg
  | name (k : Nat)
  | take (reg : Nat)
  | freeRegsTo (mark : Nat)
  | checkedArgCount (args : Nat)
  deriving DecidableEq

structure FunctionScope where
  tables : Table → Nat := fun _ => 0
  upvalues : List UpvalueDescriptor := []
  nextReg : Nat := 0
  maxReg : Nat := 0
  registerOverflowReported : Bool := false
  errors : Nat := 0
  given : List Nat := []
  indices : List Operand := []
  registers : List Operand := []

namespace FunctionScope

variable (s : FunctionScope)

def index (stored meant : Nat) : FunctionScope :=
  { s with indices := s.indices ++ [⟨stored, meant⟩] }

def addEntry (t : Table) : FunctionScope :=
  { s with tables := Function.update s.tables t (s.tables t + 1) }.index
    (asU16 (s.tables t)) (s.tables t)

def addConstant : FunctionScope := s.addEntry .constants

def addParamCheck : FunctionScope := s.addEntry .paramChecks

def addJumpTable : FunctionScope := s.addEntry .jumpTables

def addUpvalue (desc : UpvalueDescriptor) : FunctionScope :=
  if desc ∈ s.upvalues then s.index (asU8 (s.upvalues.idxOf desc)) (s.upvalues.idxOf desc)
  else
    { s with upvalues := s.upvalues ++ [desc] }.index (asU8 s.upvalues.length) s.upvalues.length

def allocReg : FunctionScope :=
  if s.nextReg = 255 then
    { s with
      registerOverflowReported := true
      errors := if s.registerOverflowReported then s.errors else s.errors + 1
      given := s.given ++ [255] }
  else
    { s with
      nextReg := s.nextReg + 1
      maxReg := max s.maxReg (s.nextReg + 1)
      given := s.given ++ [s.nextReg] }

def freeRegsTo (mark : Nat) : FunctionScope :=
  { s with nextReg := mark, maxReg := if mark > s.maxReg then mark else s.maxReg }

def name (reg : Nat) : FunctionScope :=
  { s with registers := s.registers ++ [⟨asU8 reg, reg⟩] }

def take (reg : Nat) : FunctionScope :=
  { s.name reg with given := s.given ++ [reg] }.freeRegsTo (asU8 (asU8 reg + 1))

/-- The arguments of a call, counted in a byte. -/
def checkedArgCount (args : Nat) : FunctionScope :=
  if args ≤ 255 then s.index args args
  else { s with errors := s.errors + 1 }.index 255 args

def step : Step → FunctionScope
  | .addEntry .constants => s.addConstant
  | .addEntry .paramChecks => s.addParamCheck
  | .addEntry .jumpTables => s.addJumpTable
  | .addUpvalue desc => s.addUpvalue desc
  | .allocReg => s.allocReg
  | .name k =>
      match s.given[k]? with
      | some reg => s.name reg
      | none => s
  | .take reg => s.take reg
  | .freeRegsTo mark => s.freeRegsTo (asU8 mark)
  | .checkedArgCount args => s.checkedArgCount args

end FunctionScope

/-- A function as it stands when all of it has been compiled; `maxReg` is then its number of
registers. -/
def compile (steps : List Step) : FunctionScope := steps.foldl FunctionScope.step {}

/-- Every number stored is the one it was made for, and every register named is one of the
function's. -/
structure Exact (s : FunctionScope) : Prop where
  indices : ∀ x ∈ s.indices, x.stored = x.meant
  registers : ∀ x ∈ s.registers, x.stored = x.meant ∧ x.stored < s.maxReg

/-- The different variables that a function captures. -/
def captures (steps : List Step) : List UpvalueDescriptor :=
  (steps.filterMap fun
    | .addUpvalue desc => some desc
    | _ => none).dedup

/-- A function whose tables fit their operands and which takes no register by hand past the
last that there can be. -/
structure Fits (steps : List Step) : Prop where
  tables : ∀ t, steps.count (.addEntry t) ≤ 65536
  upvalues : (captures steps).length ≤ 256
  taken : ∀ reg, .take reg ∈ steps → reg < 255

theorem mem_captures {steps : List Step} {desc : UpvalueDescriptor} :
    desc ∈ captures steps ↔ .addUpvalue desc ∈ steps := by
  simp only [captures, List.mem_dedup, List.mem_filterMap]
  constructor
  · rintro ⟨x, hx, hdesc⟩
    cases x with
    | addUpvalue desc' => cases hdesc; exact hx
    | _ => cases hdesc
  · exact fun h => ⟨_, h, rfl⟩

section Step

variable (s : FunctionScope)

theorem step_addEntry (t : Table) : s.step (.addEntry t) = s.addEntry t := by
  cases t <;> rfl

/-- What has been stored stays. -/
theorem step_grows (x : Step) :
    (∀ op ∈ s.indices, op ∈ (s.step x).indices) ∧
      (∀ op ∈ s.registers, op ∈ (s.step x).registers) ∧ s.errors ≤ (s.step x).errors := by
  cases x with
  | addEntry t =>
      rw [step_addEntry]
      exact ⟨fun op hop => List.mem_append_left _ hop, fun _ hop => hop, le_rfl⟩
  | addUpvalue desc =>
      simp only [FunctionScope.step, FunctionScope.addUpvalue]
      split <;> exact ⟨fun op hop => List.mem_append_left _ hop, fun _ hop => hop, le_rfl⟩
  | allocReg =>
      simp only [FunctionScope.step, FunctionScope.allocReg]
      split
      · refine ⟨fun _ hop => hop, fun _ hop => hop, ?_⟩
        dsimp only
        split <;> omega
      · exact ⟨fun _ hop => hop, fun _ hop => hop, le_rfl⟩
  | name k =>
      simp only [FunctionScope.step]
      split
      · exact ⟨fun _ hop => hop, fun op hop => List.mem_append_left _ hop, le_rfl⟩
      · exact ⟨fun _ hop => hop, fun _ hop => hop, le_rfl⟩
  | take reg => exact ⟨fun _ hop => hop, fun op hop => List.mem_append_left _ hop, le_rfl⟩
  | freeRegsTo mark => exact ⟨fun _ hop => hop, fun _ hop => hop, le_rfl⟩
  | checkedArgCount args =>
      simp only [FunctionScope.step, FunctionScope.checkedArgCount]
      split
      · exact ⟨fun op hop => List.mem_append_left _ hop, fun _ hop => hop, le_rfl⟩
      · exact ⟨fun op hop => List.mem_append_left _ hop, fun _ hop => hop, Nat.le_succ _⟩

end Step

theorem compile_append (steps : List Step) (x : Step) :
    compile (steps ++ [x]) = (compile steps).step x := by
  rw [compile, List.foldl_append]
  rfl

/-- Every entry of a table has been stored with its position, and so has every register taken
by hand. -/
structure Logged (steps : List Step) (s : FunctionScope) : Prop where
  tables : ∀ t, s.tables t = steps.count (.addEntry t)
  entries : ∀ t, ∀ k < s.tables t, ⟨asU16 k, k⟩ ∈ s.indices
  nodup : s.upvalues.Nodup
  upvalues : ∀ desc, desc ∈ s.upvalues ↔ .addUpvalue desc ∈ steps
  captured : ∀ k < s.upvalues.length, ⟨asU8 k, k⟩ ∈ s.indices
  taken : ∀ reg, .take reg ∈ steps → ⟨asU8 reg, reg⟩ ∈ s.registers
  nextReg : s.nextReg ≤ 255
  maxReg : s.maxReg ≤ 255
  reported : s.registerOverflowReported = true → 0 < s.errors

theorem logged_start : Logged [] {} where
  tables := fun _ => rfl
  entries := fun _ _ hk => absurd hk (Nat.not_lt_zero _)
  nodup := List.nodup_nil
  upvalues := fun _ => by simp
  captured := fun _ hk => absurd hk (Nat.not_lt_zero _)
  taken := fun _ hreg => absurd hreg List.not_mem_nil
  nextReg := Nat.zero_le _
  maxReg := Nat.zero_le _
  reported := fun h => by cases h

/-- A step that leaves the tables and what has been captured. -/
def Step.Plain : Step → Prop
  | .addEntry _ | .addUpvalue _ => False
  | _ => True

theorem Logged.plain {steps : List Step} {s t : FunctionScope} {x : Step} (h : Logged steps s)
    (hx : x.Plain) (htables : t.tables = s.tables) (hupvalues : t.upvalues = s.upvalues)
    (hindices : ∀ op ∈ s.indices, op ∈ t.indices)
    (htaken : ∀ reg, .take reg ∈ steps ++ [x] → ⟨asU8 reg, reg⟩ ∈ t.registers)
    (hnext : t.nextReg ≤ 255) (hmax : t.maxReg ≤ 255)
    (hreported : t.registerOverflowReported = true → 0 < t.errors) :
    Logged (steps ++ [x]) t where
  tables := by
    intro table
    have hnone : [x].count (.addEntry table) = 0 :=
      List.count_eq_zero.mpr fun hmem => (List.mem_singleton.mp hmem ▸ hx : Step.Plain (.addEntry table))
    rw [htables, h.tables, List.count_append, hnone, Nat.add_zero]
  entries := fun table k hk => hindices _ (h.entries table k (htables ▸ hk))
  nodup := hupvalues ▸ h.nodup
  upvalues := by
    intro desc
    rw [hupvalues, h.upvalues, List.mem_append, List.mem_singleton]
    exact ⟨.inl, fun hor => hor.resolve_right fun heq => (heq ▸ hx : Step.Plain (.addUpvalue desc))⟩
  captured := fun k hk => hindices _ (h.captured k (hupvalues ▸ hk))
  taken := htaken
  nextReg := hnext
  maxReg := hmax
  reported := hreported

theorem Logged.untaken {steps : List Step} {s t : FunctionScope} {x : Step} (h : Logged steps s)
    (hx : ∀ reg, x ≠ .take reg) (hregisters : ∀ op ∈ s.registers, op ∈ t.registers) (reg : Nat)
    (hreg : .take reg ∈ steps ++ [x]) : ⟨asU8 reg, reg⟩ ∈ t.registers := by
  cases List.mem_append.mp hreg with
  | inl hold => exact hregisters _ (h.taken reg hold)
  | inr hnew => exact absurd (List.mem_singleton.mp hnew).symm (hx reg)

theorem Logged.addEntry {steps : List Step} {s : FunctionScope} (h : Logged steps s)
    (t : Table) : Logged (steps ++ [.addEntry t]) (s.addEntry t) where
  tables := by
    intro table
    simp only [FunctionScope.addEntry, FunctionScope.index, List.count_append]
    by_cases heq : table = t
    · subst heq
      rw [Function.update_self, h.tables]
      simp
    · have hnone : [Step.addEntry t].count (.addEntry table) = 0 := by
        refine List.count_eq_zero.mpr fun hmem => ?_
        cases List.mem_singleton.mp hmem
        exact heq rfl
      rw [Function.update_of_ne heq, h.tables, hnone, Nat.add_zero]
  entries := by
    intro table k hk
    simp only [FunctionScope.addEntry, FunctionScope.index, List.mem_append,
      List.mem_singleton] at hk ⊢
    by_cases heq : table = t
    · subst heq
      rw [Function.update_self] at hk
      cases Nat.lt_succ_iff_lt_or_eq.mp hk with
      | inl hlt => exact .inl (h.entries table k hlt)
      | inr hlast => exact .inr (by rw [hlast])
    · rw [Function.update_of_ne heq] at hk
      exact .inl (h.entries table k hk)
  nodup := h.nodup
  upvalues := by
    intro desc
    rw [List.mem_append, List.mem_singleton, ← h.upvalues]
    exact ⟨.inl, fun hor => hor.resolve_right Step.noConfusion⟩
  captured := fun k hk => List.mem_append_left _ (h.captured k hk)
  taken := h.untaken (fun _ heq => by cases heq) fun _ hop => hop
  nextReg := h.nextReg
  maxReg := h.maxReg
  reported := h.reported

theorem Logged.addUpvalue {steps : List Step} {s : FunctionScope} (h : Logged steps s)
    (desc : UpvalueDescriptor) : Logged (steps ++ [.addUpvalue desc]) (s.addUpvalue desc) := by
  have hcount : ∀ table, (steps ++ [Step.addUpvalue desc]).count (.addEntry table) =
      steps.count (.addEntry table) := by
    intro table
    have hnone : [Step.addUpvalue desc].count (.addEntry table) = 0 := by
      refine List.count_eq_zero.mpr fun hmem => ?_
      cases List.mem_singleton.mp hmem
    rw [List.count_append, hnone, Nat.add_zero]
  have hmem : ∀ d, Step.addUpvalue d ∈ steps ++ [.addUpvalue desc] ↔ d ∈ s.upvalues ∨ d = desc := by
    intro d
    rw [List.mem_append, List.mem_singleton, ← h.upvalues, Step.addUpvalue.injEq]
  by_cases hheld : desc ∈ s.upvalues
  · simp only [FunctionScope.addUpvalue, if_pos hheld]
    refine ⟨fun t => (h.tables t).trans (hcount t).symm,
      fun t k hk => List.mem_append_left _ (h.entries t k hk), h.nodup, fun d => ?_,
      fun k hk => List.mem_append_left _ (h.captured k hk),
      h.untaken (fun _ heq => by cases heq) fun _ hop => hop, h.nextReg, h.maxReg, h.reported⟩
    rw [hmem]
    exact ⟨.inl, fun hor => hor.elim id fun heq => heq ▸ hheld⟩
  · simp only [FunctionScope.addUpvalue, if_neg hheld]
    refine ⟨fun t => (h.tables t).trans (hcount t).symm,
      fun t k hk => List.mem_append_left _ (h.entries t k hk), ?_, fun d => ?_, fun k hk => ?_,
      h.untaken (fun _ heq => by cases heq) fun _ hop => hop, h.nextReg, h.maxReg, h.reported⟩
    · exact List.nodup_append.mpr ⟨h.nodup, List.nodup_singleton _, fun d hd e he heq =>
        hheld (by rw [← List.mem_singleton.mp he, ← heq]; exact hd)⟩
    · rw [hmem]
      exact List.mem_append.trans (or_congr_right List.mem_singleton)
    · simp only [FunctionScope.index, List.length_append, List.length_singleton] at hk
      cases Nat.lt_succ_iff_lt_or_eq.mp hk with
      | inl hlt => exact List.mem_append_left _ (h.captured k hlt)
      | inr hlast =>
          refine List.mem_append_right _ ?_
          rw [hlast]
          exact List.mem_singleton_self _

theorem asU8_le (n : Nat) : asU8 n ≤ 255 := by
  simp only [asU8]
  omega

theorem freeRegsTo_maxReg {s : FunctionScope} (hmax : s.maxReg ≤ 255) (mark : Nat) :
    (s.freeRegsTo (asU8 mark)).maxReg ≤ 255 := by
  have hmark := asU8_le mark
  simp only [FunctionScope.freeRegsTo]
  split <;> omega

theorem Logged.step {steps : List Step} {s : FunctionScope} (h : Logged steps s) (x : Step) :
    Logged (steps ++ [x]) (s.step x) := by
  have hgrows := step_grows s x
  cases x with
  | addEntry t =>
      rw [step_addEntry]
      exact h.addEntry t
  | addUpvalue desc => exact h.addUpvalue desc
  | allocReg =>
      have htaken := h.untaken (x := .allocReg) (fun _ heq => by cases heq) hgrows.2.1
      have hnext := h.nextReg
      have hmax := h.maxReg
      by_cases hfull : s.nextReg = 255
      · simp only [FunctionScope.step, FunctionScope.allocReg, if_pos hfull] at htaken ⊢
        refine h.plain trivial rfl rfl (fun _ hop => hop) htaken hnext hmax fun _ => ?_
        change 0 < if s.registerOverflowReported = true then s.errors else s.errors + 1
        split
        · exact h.reported ‹_›
        · exact Nat.succ_pos _
      · simp only [FunctionScope.step, FunctionScope.allocReg, if_neg hfull] at htaken ⊢
        refine h.plain trivial rfl rfl (fun _ hop => hop) htaken ?_ ?_ h.reported
        · change s.nextReg + 1 ≤ 255
          omega
        · change max s.maxReg (s.nextReg + 1) ≤ 255
          omega
  | name k =>
      have htaken := h.untaken (x := .name k) (fun _ heq => by cases heq) hgrows.2.1
      cases hgiven : s.given[k]? with
      | none =>
          simp only [FunctionScope.step, hgiven] at htaken ⊢
          exact h.plain trivial rfl rfl (fun _ hop => hop) htaken h.nextReg h.maxReg h.reported
      | some reg =>
          simp only [FunctionScope.step, hgiven] at htaken ⊢
          exact h.plain trivial rfl rfl (fun _ hop => hop) htaken h.nextReg h.maxReg h.reported
  | take reg =>
      refine h.plain trivial rfl rfl hgrows.1 (fun r hr => ?_) (asU8_le _) ?_ h.reported
      · cases List.mem_append.mp hr with
        | inl hold => exact hgrows.2.1 _ (h.taken r hold)
        | inr hnew =>
            cases List.mem_singleton.mp hnew
            exact List.mem_append_right _ (List.mem_singleton_self _)
      · exact freeRegsTo_maxReg (s := { s.name reg with given := s.given ++ [reg] }) h.maxReg _
  | freeRegsTo mark =>
      exact h.plain trivial rfl rfl hgrows.1 (h.untaken (fun _ heq => by cases heq) hgrows.2.1)
        (asU8_le _) (freeRegsTo_maxReg h.maxReg _) h.reported
  | checkedArgCount args =>
      have htaken := h.untaken (x := .checkedArgCount args) (fun _ heq => by cases heq) hgrows.2.1
      by_cases hargs : args ≤ 255
      · simp only [FunctionScope.step, FunctionScope.checkedArgCount, if_pos hargs] at htaken hgrows ⊢
        exact h.plain trivial rfl rfl hgrows.1 htaken h.nextReg h.maxReg h.reported
      · simp only [FunctionScope.step, FunctionScope.checkedArgCount, if_neg hargs] at htaken hgrows ⊢
        exact h.plain trivial rfl rfl hgrows.1 htaken h.nextReg h.maxReg fun _ => Nat.succ_pos _

theorem logged_compile (steps : List Step) : Logged steps (compile steps) := by
  induction steps using List.reverseRecOn with
  | nil => exact logged_start
  | append_singleton steps x ih =>
      rw [compile_append]
      exact ih.step x

theorem captures_length {steps : List Step} {s : FunctionScope} (h : Logged steps s) :
    (captures steps).length = s.upvalues.length := by
  refine ((List.perm_ext_iff_of_nodup (List.nodup_dedup _) h.nodup).mpr fun desc => ?_).length_eq
  rw [h.upvalues]
  exact mem_captures

/-- A table or a register out of bounds shows in what has been stored. -/
theorem fits_of_exact {steps : List Step} {s : FunctionScope} (h : Logged steps s)
    (hs : Exact s) : Fits steps where
  tables := by
    intro t
    by_contra hmany
    have hlogged := h.entries t 65536 (by rw [h.tables]; omega)
    have hsame := hs.indices _ hlogged
    simp [asU16] at hsame
  upvalues := by
    by_contra hmany
    rw [captures_length h] at hmany
    have hsame := hs.indices _ (h.captured 256 (by omega))
    simp [asU8] at hsame
  taken := by
    intro reg hreg
    obtain ⟨hsame, hlt⟩ := hs.registers _ (h.taken reg hreg)
    have hmax := h.maxReg
    simp only [asU8] at hsame hlt
    omega

theorem captures_append_le (steps : List Step) (x : Step) :
    (captures steps).length ≤ (captures (steps ++ [x])).length := by
  refine (List.subperm_of_subset (List.nodup_dedup _) fun desc hdesc => ?_).length_le
  exact mem_captures.mpr (List.mem_append_left _ (mem_captures.mp hdesc))

theorem Fits.before {steps : List Step} {x : Step} (h : Fits (steps ++ [x])) : Fits steps where
  tables := fun t => by
    have hle := h.tables t
    rw [List.count_append] at hle
    omega
  upvalues := (captures_append_le steps x).trans h.upvalues
  taken := fun reg hreg => h.taken reg (List.mem_append_left _ hreg)

/-- While nothing has been reported, every register given is one of the function's. -/
structure Held (s : FunctionScope) : Prop where
  given : ∀ reg ∈ s.given, reg < s.maxReg
  exact_ : Exact s

theorem Exact.index {s : FunctionScope} (h : Exact s) {stored meant : Nat}
    (hsame : stored = meant) : Exact (s.index stored meant) where
  indices := by
    intro op hop
    cases List.mem_append.mp hop with
    | inl hold => exact h.indices op hold
    | inr hnew =>
        rw [List.mem_singleton.mp hnew]
        exact hsame
  registers := h.registers

theorem Exact.name {s : FunctionScope} (h : Exact s) {reg : Nat} (hreg : reg < s.maxReg)
    (hmax : s.maxReg ≤ 255) : Exact (s.name reg) where
  indices := h.indices
  registers := by
    intro op hop
    cases List.mem_append.mp hop with
    | inl hold => exact h.registers op hold
    | inr hnew =>
        have hstored : asU8 reg = reg := Nat.mod_eq_of_lt (by omega)
        rw [List.mem_singleton.mp hnew, hstored]
        exact ⟨rfl, hreg⟩

/-- More registers keep what is exact. -/
theorem Exact.wider {s t : FunctionScope} (h : Exact s) (hindices : t.indices = s.indices)
    (hregisters : t.registers = s.registers) (hmax : s.maxReg ≤ t.maxReg) : Exact t where
  indices := fun op hop => h.indices op (hindices ▸ hop)
  registers := fun op hop => by
    obtain ⟨hsame, hlt⟩ := h.registers op (hregisters ▸ hop)
    exact ⟨hsame, Nat.lt_of_lt_of_le hlt hmax⟩

theorem maxReg_le_freeRegsTo (s : FunctionScope) (mark : Nat) :
    s.maxReg ≤ (s.freeRegsTo mark).maxReg ∧ mark ≤ (s.freeRegsTo mark).maxReg := by
  simp only [FunctionScope.freeRegsTo]
  split <;> omega

theorem Held.freeRegsTo {s : FunctionScope} (h : Held s) (mark : Nat) :
    Held (s.freeRegsTo mark) where
  given := fun reg hreg => Nat.lt_of_lt_of_le (h.given reg hreg) (maxReg_le_freeRegsTo s mark).1
  exact_ := h.exact_.wider rfl rfl (maxReg_le_freeRegsTo s mark).1

theorem Held.take {s : FunctionScope} (h : Held s) {reg : Nat} (hreg : reg < 255)
    (hmax : s.maxReg ≤ 255) : Held (s.take reg) := by
  have hnext : asU8 (asU8 reg + 1) = reg + 1 := by
    simp only [asU8]
    omega
  have hfreed := h.freeRegsTo (asU8 (asU8 reg + 1))
  have hheld : reg < (s.freeRegsTo (asU8 (asU8 reg + 1))).maxReg := by
    have hle := (maxReg_le_freeRegsTo s (asU8 (asU8 reg + 1))).2
    omega
  have hnamed := hfreed.exact_.name hheld (freeRegsTo_maxReg hmax _)
  refine ⟨fun r hr => ?_, hnamed.wider rfl rfl le_rfl⟩
  cases List.mem_append.mp hr with
  | inl hold => exact hfreed.given r hold
  | inr hnew =>
      rw [List.mem_singleton.mp hnew]
      exact hheld

theorem Held.allocReg {steps : List Step} {s : FunctionScope} (h : Held s)
    (hl : Logged steps s) (hnone : s.allocReg.errors = 0) : Held s.allocReg := by
  by_cases hfull : s.nextReg = 255
  · simp only [FunctionScope.allocReg, if_pos hfull] at hnone
    have hreported := hl.reported
    split at hnone
    · have hpos := hreported ‹_›
      omega
    · omega
  · simp only [FunctionScope.allocReg, if_neg hfull]
    refine ⟨fun reg hreg => ?_, h.exact_.wider rfl rfl (le_max_left _ _)⟩
    change reg < max s.maxReg (s.nextReg + 1)
    cases List.mem_append.mp hreg with
    | inl hold =>
        have hlt := h.given reg hold
        omega
    | inr hnew =>
        rw [List.mem_singleton.mp hnew]
        omega

theorem Held.addUpvalue {steps : List Step} {s : FunctionScope} (h : Held s)
    (hl : Logged steps s) {desc : UpvalueDescriptor} (hf : Fits (steps ++ [.addUpvalue desc])) :
    Held (s.addUpvalue desc) := by
  have hlength := captures_length (hl.addUpvalue desc)
  have hfew := hf.upvalues
  by_cases hheld : desc ∈ s.upvalues
  · simp only [FunctionScope.addUpvalue, if_pos hheld] at hlength ⊢
    have hlt := List.idxOf_lt_length_of_mem hheld
    change _ = s.upvalues.length at hlength
    exact ⟨h.given, h.exact_.index (Nat.mod_eq_of_lt (by omega))⟩
  · simp only [FunctionScope.addUpvalue, if_neg hheld] at hlength ⊢
    change _ = (s.upvalues ++ [desc]).length at hlength
    rw [List.length_append, List.length_singleton] at hlength
    have hwider : Exact { s with upvalues := s.upvalues ++ [desc] } :=
      h.exact_.wider rfl rfl le_rfl
    exact ⟨h.given, hwider.index (Nat.mod_eq_of_lt (by omega))⟩

theorem Held.step {steps : List Step} {s : FunctionScope} (h : Held s) (hl : Logged steps s)
    {x : Step} (hf : Fits (steps ++ [x])) (hnone : (s.step x).errors = 0) : Held (s.step x) := by
  cases x with
  | addEntry t =>
      rw [step_addEntry]
      have hfew := hf.tables t
      rw [List.count_append, List.count_singleton_self, ← hl.tables] at hfew
      have hwider : Exact { s with tables := Function.update s.tables t (s.tables t + 1) } :=
        h.exact_.wider rfl rfl le_rfl
      exact ⟨h.given, hwider.index (Nat.mod_eq_of_lt (by omega))⟩
  | addUpvalue desc => exact h.addUpvalue hl hf
  | allocReg => exact h.allocReg hl hnone
  | name k =>
      cases hgiven : s.given[k]? with
      | none =>
          simp only [FunctionScope.step, hgiven]
          exact h
      | some reg =>
          simp only [FunctionScope.step, hgiven]
          have hreg := h.given reg (List.mem_of_getElem? hgiven)
          exact ⟨h.given, h.exact_.name hreg hl.maxReg⟩
  | take reg =>
      have hlt := hf.taken reg (List.mem_append_right _ (List.mem_singleton_self _))
      exact h.take hlt hl.maxReg
  | freeRegsTo mark => exact h.freeRegsTo _
  | checkedArgCount args =>
      by_cases hargs : args ≤ 255
      · simp only [FunctionScope.step, FunctionScope.checkedArgCount, if_pos hargs]
        exact ⟨h.given, h.exact_.index rfl⟩
      · simp only [FunctionScope.step, FunctionScope.checkedArgCount, if_neg hargs] at hnone
        exact absurd hnone (Nat.succ_ne_zero _)

theorem held_compile (steps : List Step) (hf : Fits steps) (hnone : (compile steps).errors = 0) :
    Held (compile steps) := by
  induction steps using List.reverseRecOn with
  | nil =>
      exact ⟨fun _ hreg => absurd hreg List.not_mem_nil,
        ⟨fun _ hop => absurd hop List.not_mem_nil, fun _ hop => absurd hop List.not_mem_nil⟩⟩
  | append_singleton steps x ih =>
      rw [compile_append] at hnone ⊢
      have hbefore := (step_grows (compile steps) x).2.2
      exact (ih hf.before (by omega)).step (logged_compile steps) hf hnone

/-- The statement `echo 1`, when so many such statements come before it. -/
def echo (before : Nat) : List Step :=
  [.allocReg, .addEntry .constants, .name before, .name before, .freeRegsTo 0]

def echoes : Nat → List Step
  | 0 => []
  | n + 1 => echoes n ++ echo n

/-- A script of so many such statements, after the constant that every script begins with. -/
def script (n : Nat) : List Step := .addEntry .constants :: echoes n

theorem script_constants (n : Nat) : (script n).count (.addEntry .constants) = n + 1 := by
  rw [script, List.count_cons_self]
  induction n with
  | zero => rfl
  | succ n ih =>
      have hone : (echo n).count (.addEntry .constants) = 1 := by
        simp [echo]
      rw [echoes, List.count_append, hone]
      omega

theorem echo_scope {s : FunctionScope} {n : Nat} (hnext : s.nextReg = 0)
    (hgiven : s.given.length = n) :
    ((echo n).foldl FunctionScope.step s).nextReg = 0 ∧
      ((echo n).foldl FunctionScope.step s).errors = s.errors ∧
      ((echo n).foldl FunctionScope.step s).given.length = n + 1 := by
  simp [echo, FunctionScope.step, FunctionScope.allocReg, FunctionScope.addConstant,
    FunctionScope.addEntry, FunctionScope.index, FunctionScope.name, FunctionScope.freeRegsTo,
    asU8, hnext, hgiven]

theorem script_scope (n : Nat) : (compile (script n)).nextReg = 0 ∧
    (compile (script n)).errors = 0 ∧ (compile (script n)).given.length = n := by
  induction n with
  | zero => exact ⟨rfl, rfl, rfl⟩
  | succ n ih =>
      obtain ⟨hnext, herrors, hgiven⟩ := ih
      have hecho := echo_scope hnext hgiven
      rw [script, echoes, ← List.cons_append, ← script, compile, List.foldl_append]
      exact ⟨hecho.1, hecho.2.1.trans herrors, hecho.2.2⟩

end Zuri.Compiler.Operands
