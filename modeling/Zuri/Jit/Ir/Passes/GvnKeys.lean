import Zuri.Jit.Ir.Passes.Gvn
import Zuri.Jit.Ir.Typing

/-!
What a key stands for.

A key can be turned back into an operation that does the same as every
operation entered under it. A write that leaves alone what a key's operation
reads leaves alone what it gives; the keys without a version whose operation
looks at memory anyway are `unversioned`.
-/

namespace Zuri.Jit.Ir.Gvn

def cmpOf : Nat → Cmp
  | 0 => .eq
  | 1 => .ne
  | 2 => .lt
  | 3 => .le
  | 4 => .gt
  | _ => .ge

def bitOf : Nat → BitOp
  | 0 => .and
  | 1 => .or
  | 2 => .xor
  | 3 => .shl
  | 4 => .shr
  | _ => .ushr

def unaryOf : Nat → FUnary
  | 0 => .sqrt
  | 1 => .abs
  | 2 => .floor
  | 3 => .ceil
  | 4 => .trunc
  | 5 => .round
  | 6 => .sign
  | _ => .int

def testOf : Nat → FTest
  | 0 => .isNan
  | 1 => .isInf
  | 2 => .isFinite
  | _ => .truthy

def nativeOf (key : Nat) : NativeTest :=
  if key.testBit 8 then .tags ((List.finRange 17).filter fun t => key.testBit (16 + t.val))
  else
    match key with
    | 1 => .number
    | 2 => .bool
    | 3 => .object
    | _ => .int

def Name.op (bits : Nat) : Name → Op
  | constTagged => .constTagged (BitVec.ofNat 64 bits)
  | constF64 => .constF64 ⟨BitVec.ofNat 64 bits⟩
  | constI64 => .constI64 (BitVec.ofNat 64 bits)
  | constBool => .constBool (bits = 1)
  | boxF64 => .boxF64
  | boxBool => .boxBool
  | intToF64 => .intToF64
  | f64ToI64 => .f64ToI64
  | unboxF64 => .unboxF64
  | unboxBool => .unboxBool
  | objPtr => .objPtr
  | fAdd => .fAdd
  | fSub => .fSub
  | fMul => .fMul
  | fDiv => .fDiv
  | fNeg => .fNeg
  | fMod => .fMod
  | fFloorDiv => .fFloorDiv
  | fCmp => .fCmp (cmpOf bits)
  | iAdd => .iAdd
  | iSub => .iSub
  | iMul => .iMul
  | iBit => .iBit (bitOf bits)
  | wrapI64 => .wrapI64
  | unsaturate => .unsaturate
  | iCmp => .iCmp (cmpOf bits)
  | isFalsey => .isFalsey
  | bNot => .bNot
  | eqConst => .eqConst ⟨BitVec.ofNat 64 bits⟩
  | fPow => .fPow
  | fUnary => .fUnary (unaryOf bits)
  | fMax => .fMax
  | fMin => .fMin
  | fTest => .fTest (testOf bits)
  | fCall => .fCall bits
  | strAscii => .strAscii
  | strByteLen => .strByteLen
  | strByte => .strByte
  | asciiChar => .asciiChar
  | strLength => .strLength
  | strOrd => .strOrd
  | wrapIndex => .wrapIndex
  | getIndex => .getIndex
  | isBits => .isBits (BitVec.ofNat 64 bits)
  | isKind => .isKind (nativeOf bits)
  | nextKey => .nextKey
  | rangeCount => .rangeCount
  | rangeAt => .rangeAt

def ReadName.op : ReadName → Op
  | bytesLen => .bytesLen
  | bytesLoad => .bytesLoad
  | listGetOr => .listGetOr
  | dictGet => .dictGet
  | dictContains => .dictContains
  | dictLen => .dictLen

def HeaderName.op : HeaderName → Op
  | len => .listLen
  | data => .listData

/-- An operation entered under a key. -/
def Key.op : Key → Op
  | pure name bits => name.op bits
  | guard kind => .guard kind
  | header name _ => name.op
  | elem _ => .loadElem
  | listEnd last _ _ => .listEnd last
  | field slot _ => .loadField slot
  | global ref _ => .loadGlobal ref
  | cell n _ => .upvalCell n
  | upval _ => .loadUpval
  | read name _ => name.op

/-- Whether a key carries the versions `v` of what its operation reads. -/
def Key.Current (v : Versions) : Key → Prop
  | pure _ _ | guard _ => True
  | header _ n => n = v.header
  | elem n => n = v.elems
  | listEnd _ h e => h = v.header ∧ e = v.elems
  | field _ n => n = v.fields
  | global _ n => n = v.globals
  | cell _ n => n = v.cells
  | upval n => n = v.upvals
  | read .bytesLen n => n = v.header
  | read .bytesLoad n | read .listGetOr n => n = v.elems
  | read .dictGet n | read .dictContains n | read .dictLen n => n = v.dicts

/-- Whether the counter is past every version of a key. A header's version is
never the last one counted. -/
def Key.Below (next : Nat) : Key → Prop
  | pure _ _ | guard _ => True
  | header _ n => n < next
  | elem n | field _ n | global _ n | cell _ n | upval n => n ≤ next
  | listEnd _ h e => h < next ∧ e ≤ next
  | read .bytesLen n => n < next
  | read .bytesLoad n | read .listGetOr n | read .dictGet n | read .dictContains n
  | read .dictLen n => n ≤ next

structure Versions.Below (next : Nat) (v : Versions) : Prop where
  header : v.header < next
  elems : v.elems ≤ next
  fields : v.fields ≤ next
  globals : v.globals ≤ next
  cells : v.cells ≤ next
  upvals : v.upvals ≤ next
  dicts : v.dicts ≤ next

/-- Operations that look at memory but are entered without a version. -/
def unversioned : Op → Bool
  | .isFalsey | .rangeCount | .rangeAt | .guard (.elems _) | .guard (.param _ _) => true
  | _ => false

/-- Operations that change memory. -/
def writes : Op → Bool
  | .storeGlobal _ | .listAppend | .storeElem | .storeField _ | .bytesStore | .bytesAppend
  | .dictSet | .newInstance _ _ | .newList _ _ _ _ | .storeReg _ | .storeUpval
  | .usingTarget _ _ _ | .generic _ _ | .safepoint => true
  | _ => false

theorem keyOf_current {v : Versions} {op : Op} {k : Key} (h : keyOf v op = some k) :
    k.Current v := by
  cases op <;> cases h <;> first | exact trivial | exact rfl | exact ⟨rfl, rfl⟩

theorem Key.Current.below {v : Versions} {k : Key} {next : Nat} (h : k.Current v)
    (hv : v.Below next) : k.Below next := by
  cases k with
  | pure _ _ | guard _ => trivial
  | header _ _ => exact h ▸ hv.header
  | elem _ => exact h ▸ hv.elems
  | listEnd _ _ _ => exact ⟨h.1 ▸ hv.header, h.2 ▸ hv.elems⟩
  | field _ _ => exact h ▸ hv.fields
  | global _ _ => exact h ▸ hv.globals
  | cell _ _ => exact h ▸ hv.cells
  | upval _ => exact h ▸ hv.upvals
  | read name _ =>
      cases name
      case bytesLen => exact h ▸ hv.header
      case bytesLoad | listGetOr => exact h ▸ hv.elems
      all_goals exact h ▸ hv.dicts

theorem keyOf_below {v : Versions} {op : Op} {k : Key} {next : Nat} (h : keyOf v op = some k)
    (hv : v.Below next) : k.Below next :=
  (keyOf_current h).below hv

theorem Key.Below.mono {k : Key} {next next' : Nat} (h : k.Below next) (hle : next ≤ next') :
    k.Below next' := by
  cases k with
  | read name n => cases name <;> simp only [Key.Below] at h ⊢ <;> omega
  | _ => simp only [Key.Below] at h ⊢ <;> first | trivial | omega

theorem Versions.Below.mono {v : Versions} {next next' : Nat} (h : v.Below next)
    (hle : next ≤ next') : v.Below next' := by
  obtain ⟨h1, h2, h3, h4, h5, h6, h7⟩ := h
  exact ⟨by omega, by omega, by omega, by omega, by omega, by omega, by omega⟩

theorem fresh_below (next : Nat) : (fresh next).1.Below (fresh next).2 := by
  constructor <;> simp [fresh]

theorem testBit_tags (ts : List (Fin 17)) (key i : Nat) :
    (ts.foldl (fun key tag => key ||| 1 <<< (16 + tag.val)) key).testBit i =
      (key.testBit i || ts.any fun t => decide (16 + t.val = i)) := by
  induction ts generalizing key with
  | nil => simp
  | cons t ts ih =>
      rw [List.foldl_cons, ih, Nat.testBit_or, Nat.one_shiftLeft, Nat.testBit_two_pow,
        List.any_cons, Bool.or_assoc]

/-- A predicate and the one its key gives back answer alike. -/
theorem nativeOf_apply (test : NativeTest) (v : Value) :
    (nativeOf (nativeKey test)).apply v = test.apply v := by
  cases test with
  | tags ts =>
      have h8 : (nativeKey (.tags ts)).testBit 8 = true := by
        rw [nativeKey, testBit_tags]
        rfl
      have hlow : ∀ i : Fin 17, (nativeKey (.tags ts)).testBit (16 + i.val) = decide (i ∈ ts) := by
        intro i
        have h0 : Nat.testBit 0x100 (16 + i.val) = false := by
          revert i
          decide
        rw [nativeKey, testBit_tags, h0, Bool.false_or, Bool.eq_iff_iff]
        simp only [List.any_eq_true, decide_eq_true_eq]
        constructor
        · rintro ⟨t, ht, he⟩
          have : t = i := Fin.ext (by omega)
          exact this ▸ ht
        · exact fun hi => ⟨i, hi, rfl⟩
      simp only [nativeOf, h8, if_true, NativeTest.apply, Value.hasTag, hlow]
      cases v with
      | obj r =>
          rw [Bool.eq_iff_iff]
          simp
      | _ => rfl
  | _ => rfl

/-- An operation does what its key's operation does. -/
theorem keyOf_eval {M : Machine} {v : Versions} {op : Op} {k : Key} (h : keyOf v op = some k)
    (f : Func) (w : World M.Rest) (regs : List (Nat × Value)) (args : List Val) :
    k.op.eval f w regs args = op.eval f w regs args := by
  cases op with
  | isKind test =>
      cases h
      have hkind : ∀ t : NativeTest, (Op.isKind t).eval f w regs args =
          .next (some (.bool (t.apply (args.getD 0 (.bool false)).taggedOf))) w := fun _ => rfl
      rw [hkind, ← nativeOf_apply test]
      exact hkind _
  | constBool c => cases h; cases c <;> rfl
  | fCmp c => cases h; cases c <;> rfl
  | iCmp c => cases h; cases c <;> rfl
  | iBit bit => cases h; cases bit <;> rfl
  | fUnary u => cases h; cases u <;> rfl
  | fTest t => cases h; cases t <;> rfl
  | constTagged bits => cases h; simp only [Key.op, Name.op, BitVec.ofNat_toNat, BitVec.setWidth_eq]
  | constF64 x => cases h; simp only [Key.op, Name.op, BitVec.ofNat_toNat, BitVec.setWidth_eq]
  | constI64 n => cases h; simp only [Key.op, Name.op, BitVec.ofNat_toNat, BitVec.setWidth_eq]
  | eqConst x => cases h; simp only [Key.op, Name.op, BitVec.ofNat_toNat, BitVec.setWidth_eq]
  | isBits bits => cases h; simp only [Key.op, Name.op, BitVec.ofNat_toNat, BitVec.setWidth_eq]
  | _ => cases h <;> rfl

/-- What is looked up writes no registers out. -/
theorem keyOf_regs {M : Machine} {v : Versions} {op : Op} {k : Key} (h : keyOf v op = some k)
    (f : Func) (w : World M.Rest) (regs : List (Nat × Value)) (args : List Val) :
    op.eval f w regs args = op.eval f w [] args := by
  cases op <;> first | rfl | cases h

theorem keyOf_quiet {v : Versions} {op : Op} {k : Key} (h : keyOf v op = some k) :
    op.visible = false ∧ op ≠ .unreached ∧ writes op = false := by
  cases op <;> cases h <;> exact ⟨rfl, by simp, rfl⟩

theorem keyOf_write {v : Versions} {op : Op} {k : Key} (h : keyOf v op = some k) (s : Visit)
    (args : List ValueId) : s.write args op = s := by
  cases op <;> first | rfl | cases h

/-- Only guards are looked up for no result. -/
theorem keyOf_guard {v : Versions} {op : Op} {k : Key} (h : keyOf v op = some k)
    (hr : op.resultTy = none) : ∃ kind, op = .guard kind := by
  cases op <;> cases h <;> first | exact ⟨_, rfl⟩ | cases hr

theorem unversioned_op {v : Versions} {op : Op} {k : Key} (h : keyOf v op = some k)
    (hu : unversioned k.op = true) : k.op = op := by
  cases op <;> cases h <;> first | rfl | cases hu

theorem keyOf_resultTy {v : Versions} {op : Op} {k : Key} (h : keyOf v op = some k) :
    k.op.resultTy = op.resultTy := by
  cases op <;> cases h <;> rfl

section Memory

variable {M : Machine}

/-- Whether a change to memory leaves alone what a key's operation reads. -/
def Key.Stable (w w' : World M.Rest) : Key → Prop
  | pure .isFalsey _ | pure .rangeCount _ | pure .rangeAt _ => False
  | guard (.elems _) | guard (.param _ _) => False
  | pure _ _ | guard _ => True
  | header _ _ | read .bytesLen _ => w'.header = w.header
  | elem _ | listEnd _ _ _ | read .bytesLoad _ | read .listGetOr _ =>
      w'.header = w.header ∧ w'.elems = w.elems ∧ w'.bytes = w.bytes
  | field _ _ => w'.fields = w.fields
  | global ref _ => w'.globals ref = w.globals ref
  | cell _ _ => w'.cells = w.cells
  | upval _ => w'.upvals = w.upvals
  | read .dictGet _ | read .dictContains _ | read .dictLen _ => w'.dicts = w.dicts

/-- A key without a version that is not stable under everything rereads. -/
theorem Key.stable_or {k : Key} (w w' : World M.Rest)
    (h : (∃ name bits, k = .pure name bits) ∨ ∃ kind, k = .guard kind) :
    unversioned k.op = true ∨ k.Stable w w' := by
  rcases h with ⟨name, bits, rfl⟩ | ⟨kind, rfl⟩
  · cases name <;> first | exact .inr trivial | exact .inl rfl
  · cases kind <;> first | exact .inr trivial | exact .inl rfl

theorem Key.stable_refl (k : Key) (w : World M.Rest) :
    unversioned k.op = true ∨ k.Stable w w := by
  cases k with
  | pure name bits => exact stable_or w w (.inl ⟨name, bits, rfl⟩)
  | guard kind => exact stable_or w w (.inr ⟨kind, rfl⟩)
  | read name n => cases name <;> simp [Stable]
  | _ => simp [Stable]

theorem check_stable {kind : GuardKind} (h : unversioned (.guard kind) = false) (f : Func)
    (w w' : World M.Rest) (a b : Val) : kind.check f w' a b = kind.check f w a b := by
  cases kind <;> first | rfl | cases h

/-- What a key's operation gives does not change with memory it does not read. -/
theorem Key.Stable.eval {k : Key} {f : Func} {w w' : World M.Rest} {regs : List (Nat × Value)}
    {args : List Val} {r : Option Val} (h : k.Stable w w')
    (he : k.op.eval f w regs args = .next r w) : k.op.eval f w' regs args = .next r w' := by
  cases k with
  | pure name bits => cases name <;> first | exact h.elim | (cases he; rfl)
  | guard kind =>
      have hu : unversioned (.guard kind) = false := by
        cases kind <;> first | rfl | exact h.elim
      simp only [Key.op, Op.eval_guard] at he ⊢
      rw [check_stable hu f w w']
      split at he
      · cases he
        rfl
      · cases he
  | global ref n =>
      cases he
      exact congrArg (fun v => Answer.next (some (Val.tagged v)) w') h
  | cell n v =>
      cases w
      cases w'
      cases h
      simp only [Key.op, Op.eval_upvalCell] at he ⊢
      split at he
      · cases he
        rfl
      · cases he
  | header name n =>
      cases w
      cases w'
      cases h
      cases name <;> (cases he; rfl)
  | read name n =>
      cases w
      cases w'
      cases name
      case bytesLen => cases h; cases he; rfl
      case bytesLoad | listGetOr =>
        obtain ⟨rfl, rfl, rfl⟩ := h
        cases he
        rfl
      all_goals
        cases h
        cases he
        rfl
  | elem n | listEnd last n m =>
      cases w
      cases w'
      obtain ⟨rfl, rfl, rfl⟩ := h
      cases he
      rfl
  | field slot n | upval n =>
      cases w
      cases w'
      cases h
      cases he
      rfl

theorem eval_unchanged {op : Op} {f : Func} {w w' : World M.Rest} {regs : List (Nat × Value)}
    {args : List Val} {r : Option Val} (h : op.eval f w regs args = .next r w')
    (hop : writes op = false) : w' = w := by
  unfold Op.eval at h
  simp only at h
  split at h
  · cases h
    rfl
  · split at h
    · cases h
      rfl
    · split at h
      · split at h <;> cases h
        rfl
      · repeat' split at h
        all_goals cases h
        all_goals rfl
      · split at h <;> cases h
        rfl
      · cases op <;> first | (cases h; rfl) | cases hop

/-- The parts of memory a step leaves as they were, by the versions it keeps. -/
structure Kept (v v' : Versions) (next : Nat) (w w' : World M.Rest) : Prop where
  header : (v'.header = v.header ∧ w'.header = w.header) ∨ next ≤ v'.header
  elems : (v'.elems = v.elems ∧ w'.header = w.header ∧ w'.elems = w.elems ∧ w'.bytes = w.bytes) ∨
    next < v'.elems
  fields : (v'.fields = v.fields ∧ w'.fields = w.fields) ∨ next < v'.fields
  globals : (v'.globals = v.globals ∧ w'.globals = w.globals) ∨ next < v'.globals
  cells : (v'.cells = v.cells ∧ w'.cells = w.cells) ∨ next < v'.cells
  upvals : (v'.upvals = v.upvals ∧ w'.upvals = w.upvals) ∨ next < v'.upvals
  dicts : (v'.dicts = v.dicts ∧ w'.dicts = w.dicts) ∨ next < v'.dicts

theorem kept_of {a b n next : Nat} {P : Prop} (h : (b = a ∧ P) ∨ next ≤ b) (hb : n < next)
    (hc : n = b) : n = a ∧ P := by
  subst hc
  exact h.resolve_right (Nat.not_le.mpr hb)

/-- A key current after a step was so before, and what it reads was left alone. -/
theorem Kept.current_stable {v v' : Versions} {next : Nat} {w w' : World M.Rest}
    (h : Kept v v' next w w') {k : Key} (hb : k.Below next) (hc : k.Current v') :
    k.Current v ∧ (unversioned k.op = true ∨ k.Stable w w') := by
  cases k with
  | pure name bits => exact ⟨trivial, Key.stable_or w w' (.inl ⟨name, bits, rfl⟩)⟩
  | guard kind => exact ⟨trivial, Key.stable_or w w' (.inr ⟨kind, rfl⟩)⟩
  | header _ _ => exact (kept_of h.header hb hc).imp id .inr
  | elem _ => exact (kept_of h.elems (Nat.lt_succ_of_le hb) hc).imp id .inr
  | listEnd _ _ _ =>
      have he := kept_of h.elems (Nat.lt_succ_of_le hb.2) hc.2
      exact ⟨⟨(kept_of h.header hb.1 hc.1).1, he.1⟩, .inr he.2⟩
  | field _ _ => exact (kept_of h.fields (Nat.lt_succ_of_le hb) hc).imp id .inr
  | global ref _ =>
      exact (kept_of h.globals (Nat.lt_succ_of_le hb) hc).imp id fun hw => .inr (congrFun hw ref)
  | cell _ _ => exact (kept_of h.cells (Nat.lt_succ_of_le hb) hc).imp id .inr
  | upval _ => exact (kept_of h.upvals (Nat.lt_succ_of_le hb) hc).imp id .inr
  | read name _ =>
      cases name
      case bytesLen => exact (kept_of h.header hb hc).imp id .inr
      case bytesLoad | listGetOr =>
        exact (kept_of h.elems (Nat.lt_succ_of_le hb) hc).imp id .inr
      all_goals exact (kept_of h.dicts (Nat.lt_succ_of_le hb) hc).imp id .inr

theorem Kept.refl (v : Versions) (next : Nat) (w : World M.Rest) : Kept v v next w w where
  header := .inl ⟨rfl, rfl⟩
  elems := .inl ⟨rfl, rfl, rfl, rfl⟩
  fields := .inl ⟨rfl, rfl⟩
  globals := .inl ⟨rfl, rfl⟩
  cells := .inl ⟨rfl, rfl⟩
  upvals := .inl ⟨rfl, rfl⟩
  dicts := .inl ⟨rfl, rfl⟩

theorem kept_fresh (v : Versions) (next : Nat) (w w' : World M.Rest) :
    Kept v (fresh next).1 next w w' := by
  constructor <;> right <;> simp [fresh]

/-- What an operation leaves of memory is what the walk takes it to leave; a
store to a global apart, which changes one slot and bumps nothing. -/
theorem write_kept (s : Visit) (ids : List ValueId) {op : Op} {f : Func} {w w' : World M.Rest}
    {regs : List (Nat × Value)} {args : List Val} {r : Option Val}
    (he : op.eval f w regs args = .next r w') (hop : ∀ slot, op ≠ .storeGlobal slot) :
    Kept s.versions (s.write ids op).versions s.next w w' := by
  by_cases hw : writes op = true
  · cases op
    case storeGlobal slot => exact absurd rfl (hop slot)
    case generic | safepoint | newList => exact kept_fresh _ _ _ _
    case listAppend =>
      cases he
      have hkeep : ∀ r v, (w.listAppend M.grown r v).fields = w.fields ∧
          (w.listAppend M.grown r v).globals = w.globals ∧
          (w.listAppend M.grown r v).cells = w.cells ∧
          (w.listAppend M.grown r v).upvals = w.upvals ∧
          (w.listAppend M.grown r v).dicts = w.dicts := by
        intro r v
        unfold World.listAppend
        simp only
        split <;> exact ⟨rfl, rfl, rfl, rfl, rfl⟩
      obtain ⟨h1, h2, h3, h4, h5⟩ := hkeep (args.getD 0 (.bool false)).asRef
        (args.getD 1 (.bool false)).taggedOf
      exact ⟨.inr (Nat.le_succ _), .inr (by simp [Visit.write]), .inl ⟨rfl, h1⟩, .inl ⟨rfl, h2⟩,
        .inl ⟨rfl, h3⟩, .inl ⟨rfl, h4⟩, .inl ⟨rfl, h5⟩⟩
    case bytesAppend =>
      cases he
      exact ⟨.inr (Nat.le_succ _), .inr (by simp [Visit.write]), .inl ⟨rfl, rfl⟩, .inl ⟨rfl, rfl⟩,
        .inl ⟨rfl, rfl⟩, .inl ⟨rfl, rfl⟩, .inl ⟨rfl, rfl⟩⟩
    case storeElem | bytesStore =>
      cases he
      exact ⟨.inl ⟨rfl, rfl⟩, .inr (by simp [Visit.write]), .inl ⟨rfl, rfl⟩, .inl ⟨rfl, rfl⟩,
        .inl ⟨rfl, rfl⟩, .inl ⟨rfl, rfl⟩, .inl ⟨rfl, rfl⟩⟩
    case storeField =>
      cases he
      exact ⟨.inl ⟨rfl, rfl⟩, .inl ⟨rfl, rfl, rfl, rfl⟩, .inr (by simp [Visit.write, Visit.insert]),
        .inl ⟨rfl, rfl⟩, .inl ⟨rfl, rfl⟩, .inl ⟨rfl, rfl⟩, .inl ⟨rfl, rfl⟩⟩
    case dictSet =>
      cases he
      exact ⟨.inl ⟨rfl, rfl⟩, .inl ⟨rfl, rfl, rfl, rfl⟩, .inl ⟨rfl, rfl⟩, .inl ⟨rfl, rfl⟩,
        .inl ⟨rfl, rfl⟩, .inl ⟨rfl, rfl⟩, .inr (by simp [Visit.write])⟩
    case storeUpval =>
      cases he
      exact ⟨.inl ⟨rfl, rfl⟩, .inl ⟨rfl, rfl, rfl, rfl⟩, .inl ⟨rfl, rfl⟩, .inl ⟨rfl, rfl⟩,
        .inl ⟨rfl, rfl⟩, .inr (by simp [Visit.write]), .inl ⟨rfl, rfl⟩⟩
    case newInstance | storeReg | usingTarget =>
      cases he
      exact ⟨.inl ⟨rfl, rfl⟩, .inl ⟨rfl, rfl, rfl, rfl⟩, .inl ⟨rfl, rfl⟩, .inl ⟨rfl, rfl⟩,
        .inl ⟨rfl, rfl⟩, .inl ⟨rfl, rfl⟩, .inl ⟨rfl, rfl⟩⟩
    all_goals cases hw
  · rw [eval_unchanged he (by simpa using hw)]
    have hsame : (s.write ids op).versions = s.versions := by
      cases op <;> first | rfl | exact absurd rfl hw
    rw [hsame]
    exact Kept.refl _ _ _

/-- What an operation leaves of the versions, memory apart. -/
theorem write_versions (s : Visit) (ids : List ValueId) (op : Op) (w : World M.Rest) :
    Kept s.versions (s.write ids op).versions s.next w w := by
  cases op
  case generic | safepoint | newList => exact kept_fresh _ _ _ _
  case listAppend | bytesAppend | storeElem | bytesStore | storeField | dictSet | storeUpval =>
    constructor <;> simp [Visit.write, Visit.insert]
  all_goals exact Kept.refl _ _ _

theorem write_below {s : Visit} (ids : List ValueId) (op : Op) (h : s.versions.Below s.next) :
    (s.write ids op).versions.Below (s.write ids op).next ∧ s.next ≤ (s.write ids op).next := by
  cases op
  case generic | safepoint | newList => exact ⟨fresh_below _, by simp [Visit.write, fresh, Op.mayCollect]⟩
  case listAppend | bytesAppend | storeElem | bytesStore | storeField | dictSet | storeUpval =>
    obtain ⟨h1, h2, h3, h4, h5, h6, h7⟩ := h
    refine ⟨⟨?_, ?_, ?_, ?_, ?_, ?_, ?_⟩, ?_⟩ <;> simp only [Visit.write, Visit.insert] <;> omega
  all_goals exact ⟨h, Nat.le_refl _⟩

/-- Only a store to a field or a global enters what it stores. -/
theorem write_table (s : Visit) (ids : List ValueId) {op : Op}
    (hf : ∀ slot, op ≠ .storeField slot) (hg : ∀ slot, op ≠ .storeGlobal slot) :
    (s.write ids op).table = s.table ∧ (s.write ids op).added = s.added := by
  cases op
  case storeField slot => exact absurd rfl (hf slot)
  case storeGlobal slot => exact absurd rfl (hg slot)
  all_goals exact ⟨rfl, rfl⟩

theorem write_rest (s : Visit) (ids : List ValueId) (op : Op) :
    (s.write ids op).replaced = s.replaced ∧ (s.write ids op).keep = s.keep := by
  cases op <;> exact ⟨rfl, rfl⟩

/-- What is looked up gives a result where its operation has one. -/
theorem keyOf_gives {v : Versions} {op : Op} {k : Key} (h : keyOf v op = some k) {f : Func}
    {w w' : World M.Rest} {regs : List (Nat × Value)} {args : List Val}
    (he : op.eval f w regs args = .next none w') : op.resultTy = none := by
  cases op
  case guard kind =>
    rw [Op.eval_guard] at he
    split at he
    · rename_i r hr
      cases he
      exact (GuardKind.check_ty hr).symm
    · cases he
  case upvalCell n =>
    rw [Op.eval_upvalCell] at he
    split at he <;> cases he
  all_goals first | (cases h; done) | cases he

/-- A store to a global leaves every key but that slot's alone. -/
theorem storeGlobal_stable {s : Visit} {slot : Nat} {ids : List ValueId} {f : Func}
    {w w' : World M.Rest} {regs : List (Nat × Value)} {args : List Val} {r : Option Val}
    (he : (Op.storeGlobal slot).eval f w regs args = .next r w') {k : Key}
    (hb : k.Below s.next) (hc : k.Current (s.write ids (.storeGlobal slot)).versions) :
    unversioned k.op = true ∨ k.Stable w w' ∨ k = .global (.root slot) s.versions.globals := by
  cases he
  have hc : k.Current s.versions := hc
  cases k with
  | global ref n =>
      right
      by_cases href : ref = .root slot
      · simp only [Key.Current] at hc
        exact .inr (by rw [href, hc])
      · exact .inl (Function.update_of_ne href _ _)
  | pure name bits => exact (Key.stable_or _ _ (.inl ⟨name, bits, rfl⟩)).imp id .inl
  | guard kind => exact (Key.stable_or _ _ (.inr ⟨kind, rfl⟩)).imp id .inl
  | read name n =>
      cases name <;> first | exact .inr (.inl rfl) | exact .inr (.inl ⟨rfl, rfl, rfl⟩)
  | _ => first | exact .inr (.inl rfl) | exact .inr (.inl ⟨rfl, rfl, rfl⟩)

end Memory

end Zuri.Jit.Ir.Gvn
