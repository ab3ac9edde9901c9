import Mathlib.Tactic.Linarith
import Mathlib.Tactic.Ring
import Zuri.Ffi.ConstMeaning

/-!
Where the reader gives what C does, however the expression is written. No conversion of an operand
that C evaluates and no result of an unsigned type is taken modulo a width, and nothing that C does
not evaluate fails for the reader: then all the types of C make no difference.
-/

namespace Zuri.Cdecl

/-- A width that the reader's integers have room for. -/
def IntType.Small (t : IntType) : Prop := 0 < t.width ∧ t.width ≤ 120

/-- What an operator asks of operands `a` and `b` of types `t` and `u`. -/
def Op.Plain (op : Op) (int : Nat) (t u : IntType) (a b : Int) : Prop :=
  match op.kind with
  | .logical => True
  | .comparison => (t.common int u).Holds a ∧ (t.common int u).Holds b
  | .shift => (0 ≤ b ∧ b < (t.promote int).width) ∧
      (op = .shl → ((t.promote int).signed = true → 0 ≤ a) ∧
        (t.promote int).Holds (a * 2 ^ b.toNat))
  | .arithmetic => ((t.common int u).Holds a ∧ (t.common int u).Holds b) ∧
      ∃ m, op.exact a b = some m ∧ (t.common int u).Holds m

def Unary.Plain (u : Unary) (int : Nat) (t : IntType) (a : Int) : Prop :=
  match u with
  | .neg => (t.promote int).Holds (-a)
  | .compl => (t.promote int).Holds (-a - 1)
  | _ => True

/-- The byte that a part of a character constant is. -/
def CharUnit.byte : CharUnit → Option Nat
  | .plain c => if c.toNat < 128 then some c.toNat else none
  | unit => unit.code.bind fun value => if value < 256 then some value else none

/-- A character constant of bytes: one that `char` has for itself, or some that `int` holds; or one
character that its type holds. -/
def CharConst.Plain (target : Target) (c : CharConst) : Prop :=
  ∃ units, c.units = some units ∧
    match c.encoding with
    | .plain => (∀ unit ∈ units, unit.byte.isSome = true) ∧
        match units.filterMap CharUnit.byte with
        | [] => False
        | [b] => b < 128 ∨ target.charSigned = false
        | bytes => target.intType.Holds (packed bytes)
    | _ => ∃ unit value, units = [unit] ∧ unit.code = some value ∧ value.isValidChar ∧
        (c.type target).Holds value

/-- An operator whose left operand decides, so that C does not evaluate the right one. -/
def Op.Decides (op : Op) (left : Int) : Prop := op = .oror ∧ left ≠ 0 ∨ op = .andand ∧ left = 0

/-- What C does not evaluate has to be evaluated by the reader without an error. -/
def Expr.Plain (target : Target) (scope : Scope) : Expr → Prop
  | .lit l => ∃ t, target.literalType l = some t
  | .chr c => c.Plain target
  | .name n => (target.names n).isSome = true
  | .size keyword type => ∃ n : Nat,
      (if keyword = sizeofName then type.type.size else type.type.align) = some n ∧
        IntType.Holds ⟨target.size, false⟩ n
  | .sizeOf _ => False
  | .cast type e => e.Plain target scope ∧ (castType type.type.kind).isSome = true
  | .unary u e => e.Plain target scope ∧
      ∀ t a, e.type target = some t → e.meaning target = some a → u.Plain target.int t a
  | .binary op left right => left.Plain target scope ∧
      ∀ a, left.meaning target = some a →
        (op.Decides a → (right.value scope).isSome = true) ∧
        (¬op.Decides a → right.Plain target scope ∧
          ∀ t u b, left.type target = some t → right.type target = some u →
            right.meaning target = some b → op.Plain target.int t u a b)
  | .cond condition yes no => condition.Plain target scope ∧
      ∃ t u, (yes.type target = some t ∧ no.type target = some u) ∧
        ∀ c, condition.meaning target = some c →
          (c ≠ 0 → yes.Plain target scope ∧ (no.value scope).isSome = true ∧
            ∀ a, yes.meaning target = some a → (t.common target.int u).Holds a) ∧
          (c = 0 → no.Plain target scope ∧ (yes.value scope).isSome = true ∧
            ∀ b, no.meaning target = some b → (t.common target.int u).Holds b)
  | .comma first second => first.Plain target scope ∧ second.Plain target scope
  | .paren e => e.Plain target scope

/-- The constants declared before have, for the reader, the values that C has for them, which their
types hold. -/
def Agrees (target : Target) (scope : Scope) : Prop :=
  ∀ n t v, target.names n = some (t, v) → nameValue scope n = some v ∧ t.Small ∧ t.Holds v

variable {int : Nat} {t u : IntType} {a b value : Int}

theorem pow_mono {m n : Nat} (h : m ≤ n) : (2 : Int) ^ m ≤ 2 ^ n :=
  pow_le_pow_right₀ (by decide) h

theorem holds_bounds (h : t.Holds value) : -2 ^ t.width ≤ value ∧ value < 2 ^ t.width := by
  have hpow := pow_mono (Nat.sub_le t.width 1)
  have hpos : (0 : Int) < 2 ^ t.width := by positivity
  rw [IntType.Holds] at h
  split at h <;> constructor <;> linarith [h.1, h.2]

theorem wrap_holds (hsmall : t.Small) (h : t.Holds value) : wrap value = value := by
  obtain ⟨hlow, hhigh⟩ := holds_bounds h
  have hpow := pow_mono hsmall.2
  have hroom : (2 : Int) ^ 120 ≤ 2 ^ 127 := by norm_num
  rw [wrap, Int.emod_eq_of_lt] <;> norm_num at * <;> omega

theorem convert_holds (hsmall : t.Small) (h : t.Holds value) : t.convert value = value := by
  obtain ⟨n, hn⟩ : ∃ n, t.width = n + 1 := ⟨t.width - 1, by have := hsmall.1; omega⟩
  have hpow : (2 : Int) ^ (n + 1) = 2 * 2 ^ n := by rw [pow_succ]; ring
  have hpos : (0 : Int) < 2 ^ n := by positivity
  rw [IntType.Holds, hn, Nat.add_sub_cancel, hpow] at h
  rw [IntType.convert, hn, Nat.add_sub_cancel, hpow]
  cases hsigned : t.signed with
  | false =>
    simp only [hsigned, Bool.false_eq_true, if_false, Bool.false_and] at h ⊢
    exact Int.emod_eq_of_lt h.1 h.2
  | true =>
    simp only [hsigned, if_true, Bool.true_and, decide_eq_true_eq] at h ⊢
    rcases Int.lt_or_le value 0 with hneg | hnonneg
    · have hmod : value % (2 * 2 ^ n) = value + 2 * 2 ^ n := by
        rw [← Int.add_emod_right]
        exact Int.emod_eq_of_lt (by linarith [h.1]) (by linarith)
      rw [hmod, if_pos (by linarith [h.1])]
      ring
    · rw [Int.emod_eq_of_lt hnonneg (by linarith [h.2]), if_neg (by linarith [h.2])]

theorem holds_convert (hsmall : t.Small) (value : Int) : t.Holds (t.convert value) := by
  obtain ⟨n, hn⟩ : ∃ n, t.width = n + 1 := ⟨t.width - 1, by have := hsmall.1; omega⟩
  have hpow : (2 : Int) ^ (n + 1) = 2 * 2 ^ n := by rw [pow_succ]; ring
  have hpos : (0 : Int) < 2 ^ n := by positivity
  have hlow := Int.emod_nonneg value (show (2 * 2 ^ n : Int) ≠ 0 by positivity)
  have hhigh := Int.emod_lt_of_pos value (show (0 : Int) < 2 * 2 ^ n by positivity)
  rw [IntType.Holds, IntType.convert, hn, Nat.add_sub_cancel, hpow]
  cases hsigned : t.signed with
  | false =>
    simp only [Bool.false_eq_true, if_false, Bool.false_and]
    exact ⟨hlow, hhigh⟩
  | true =>
    simp only [if_true, Bool.true_and, decide_eq_true_eq]
    split <;> constructor <;> linarith

theorem promote_holds (h : t.Holds value) : (t.promote int).Holds value := by
  rw [IntType.promote]
  split
  · next hnarrow =>
    have hpow : (2 : Int) ^ t.width ≤ 2 ^ (int - 1) := pow_mono (by omega)
    obtain ⟨hlow, hhigh⟩ := holds_bounds h
    change -2 ^ (int - 1) ≤ value ∧ value < 2 ^ (int - 1)
    constructor <;> linarith
  · exact h

theorem promote_small (hint : int ≤ 64) (h : t.Small) : (t.promote int).Small := by
  rw [IntType.promote]
  split
  · next hnarrow => exact ⟨Nat.lt_trans h.1 hnarrow, hint.trans (by decide)⟩
  · exact h

theorem common_small (hint : int ≤ 64) (ht : t.Small) (hu : u.Small) :
    (t.common int u).Small := by
  have ht := promote_small hint ht
  have hu := promote_small hint hu
  rw [IntType.common]
  split
  · exact ⟨lt_max_of_lt_left ht.1, max_le ht.2 hu.2⟩
  · split <;> split <;> assumption

theorem int_holds (hint : 2 ≤ int) (b : Bool) : IntType.Holds ⟨int, true⟩ (truth b) := by
  have hpow : (2 : Int) ^ 1 ≤ 2 ^ (int - 1) := pow_mono (by omega)
  change -2 ^ (int - 1) ≤ truth b ∧ truth b < 2 ^ (int - 1)
  cases b <;> simp only [truth, if_true, Bool.false_eq_true, if_false] <;> constructor <;> linarith

theorem cast_eq {kind : Kind} (h : castType kind = some t) :
    cast value kind = castValue value kind ∧ t.Small ∧ t.Holds (castValue value kind) := by
  induction kind with
  | bool =>
    obtain rfl := Option.some.inj h
    refine ⟨rfl, ⟨by decide, by decide⟩, ?_⟩
    rw [castValue]
    cases decide (value ≠ 0) <;> decide
  | int size signed =>
    rw [castType] at h
    split at h
    · next hsize =>
      obtain rfl := Option.some.inj h
      have hsmall : IntType.Small ⟨size * 8, signed⟩ :=
        ⟨Nat.mul_pos hsize.1 (by decide), by change size * 8 ≤ 120; omega⟩
      exact ⟨by rw [cast, if_pos hsize.2]; rfl, hsmall, holds_convert hsmall value⟩
    · cases h
  | enum underlying ih => exact ih h
  | other => cases h

theorem apply_exact {op : Op} (hexact : op.exact a b = some value) (hwrap : wrap value = value) :
    apply op a b = .ok value := by
  cases op <;> simp only [Op.exact, reduceCtorEq, Option.some.injEq] at hexact <;>
    simp only [apply]
  case or | xor | and => rw [hexact]
  case add | sub | mul => rw [hexact, hwrap]
  case div =>
    split at hexact
    · cases hexact
    · next hne =>
      obtain rfl := Option.some.inj hexact
      rw [if_neg hne, hwrap]
  case rem =>
    split at hexact
    · cases hexact
    · next hne =>
      obtain rfl := Option.some.inj hexact
      rw [if_neg hne]

theorem apply_compare {op : Op} (hkind : op.kind = .comparison) :
    apply op a b = .ok (op.compare a b) := by
  cases op <;> first | rfl | cases hkind

theorem compare_truth (op : Op) : ∃ c, op.compare a b = truth c := by
  cases op <;> exact ⟨_, rfl⟩

theorem result_holds (h : t.Holds value) : t.result value = some value := if_pos h

theorem shift_eq {op : Op} (hsmall : t.Small) (hkind : op.kind = .shift)
    (hb : 0 ≤ b ∧ b < t.width)
    (hshl : op = .shl → (t.signed = true → 0 ≤ a) ∧ t.Holds (a * 2 ^ b.toNat))
    (ha : t.Holds a) : ∃ v, shift op t a b = some v ∧ apply op a b = .ok v ∧ t.Holds v := by
  have hmod : b % 128 = b := Int.emod_eq_of_lt hb.1 (by have := hsmall.2; omega)
  have hguard : ¬ (b < 0 ∨ (t.width : Int) ≤ b) := by omega
  cases op <;> try cases hkind
  · obtain ⟨hsign, hholds⟩ := hshl rfl
    refine ⟨a * 2 ^ b.toNat, ?_, ?_, hholds⟩
    · rw [shift, if_neg hguard, if_pos rfl, if_neg (fun h => absurd (hsign h.1) (by omega)),
        result_holds hholds]
    · rw [apply, hmod, wrap_holds hsmall hholds]
  · refine ⟨a / 2 ^ b.toNat, ?_, ?_, ?_⟩
    · rw [shift, if_neg hguard, if_neg (by decide)]
    · rw [apply, hmod]
    · have hpos : (0 : Int) < 2 ^ b.toNat := by positivity
      have hbig : (0 : Int) < 2 ^ (t.width - 1) := by positivity
      rw [IntType.Holds] at ha ⊢
      split at ha
      · next hsigned =>
        rw [if_pos hsigned]
        refine ⟨?_, ?_⟩
        · rw [Int.le_ediv_iff_mul_le hpos]
          nlinarith [ha.1]
        · rw [Int.ediv_lt_iff_lt_mul hpos]
          nlinarith [ha.2]
      · next hsigned =>
        rw [if_neg hsigned]
        refine ⟨Int.ediv_nonneg ha.1 (le_of_lt hpos), ?_⟩
        exact lt_of_le_of_lt (Int.ediv_le_self _ ha.1) ha.2

variable {target : Target} {scope : Scope}

theorem Target.int_le_64 (target : Target) : target.int ≤ 64 := target.int_le.trans target.long_le

theorem intType_small : target.intType.Small :=
  ⟨Nat.lt_of_lt_of_le (by decide) target.int_ge, target.int_le_64.trans (by decide)⟩

theorem truth_holds (b : Bool) : target.intType.Holds (truth b) :=
  int_holds (Nat.le_trans (by decide) target.int_ge) b

theorem compare_holds (op : Op) : target.intType.Holds (op.compare a b) := by
  obtain ⟨c, hc⟩ := @compare_truth a b op
  rw [hc]
  exact truth_holds c

theorem literal_small {l : Literal} (h : target.literalType l = some t) :
    t.Small ∧ t.Holds l.value := by
  have hholds : t.Holds l.value := by simpa using List.find?_some h
  have hmem := List.mem_of_find?_eq_some h
  obtain ⟨width, hwidth, ht⟩ := List.mem_flatMap.1 hmem
  have hwidth := List.mem_of_mem_drop hwidth
  have hint := target.int_ge
  have hlong := target.int_le
  have hlong' := target.long_le
  have hsmall : 0 < width ∧ width ≤ 120 := by
    simp only [List.mem_cons, List.not_mem_nil, or_false] at hwidth
    omega
  refine ⟨?_, hholds⟩
  split at ht
  · rw [List.mem_singleton.1 ht]
    exact hsmall
  · split at ht
    · rw [List.mem_singleton.1 ht]
      exact hsmall
    · rcases List.mem_pair.1 ht with rfl | rfl <;> exact hsmall

theorem charType_small (c : CharConst) : (c.type target).Small := by
  obtain ⟨encoding, body⟩ := c
  cases encoding with
  | plain => exact intType_small
  | wide => exact ⟨target.wchar_pos, target.wchar_le.trans (by decide)⟩
  | char16 => exact (⟨by decide, by decide⟩ : IntType.Small ⟨16, false⟩)
  | char32 => exact (⟨by decide, by decide⟩ : IntType.Small ⟨32, false⟩)
  | utf8 => exact (⟨by decide, by decide⟩ : IntType.Small ⟨8, false⟩)

/-- Every type is one that the reader's integers have room for. -/
theorem type_small (hagrees : Agrees target scope) {e : Expr} (h : e.type target = some t) :
    t.Small := by
  have hint := target.int_le_64
  induction e generalizing t with
  | lit l => exact (literal_small h).1
  | chr c =>
    obtain rfl := Option.some.inj h
    exact charType_small c
  | name n =>
    obtain ⟨⟨t', v⟩, hn, rfl⟩ := Option.map_eq_some_iff.1 h
    exact (hagrees n t' v hn).2.1
  | size keyword type =>
    obtain rfl := Option.some.inj h
    exact ⟨target.size_pos, target.size_le.trans (by decide)⟩
  | sizeOf e _ =>
    obtain ⟨-, -, rfl⟩ := Option.map_eq_some_iff.1 h
    exact ⟨target.size_pos, target.size_le.trans (by decide)⟩
  | cast type e _ => exact (@cast_eq t 0 type.type.kind h).2.1
  | unary u e ih =>
    cases u with
    | not =>
      obtain rfl := Option.some.inj h
      exact intType_small
    | neg | plus | compl =>
      obtain ⟨t', ht', rfl⟩ := Option.map_eq_some_iff.1 h
      exact promote_small hint (ih ht')
  | binary op left right ihl ihr =>
    rw [Expr.type] at h
    split at h
    · next hl hr =>
      obtain rfl := Option.some.inj h
      exact common_small hint (ihl hl) (ihr hr)
    · next hl =>
      obtain rfl := Option.some.inj h
      exact promote_small hint (ihl hl)
    · cases h
    · cases h
    · obtain rfl := Option.some.inj h
      exact intType_small
  | cond condition yes no _ ihy ihn =>
    rw [Expr.type] at h
    split at h
    · next hy hn =>
      obtain rfl := Option.some.inj h
      exact common_small hint (ihy hy) (ihn hn)
    · cases h
  | comma first second _ ih => exact ih h
  | paren e ih => exact ih h

theorem fromU32_toNat {v : Nat} (hv : v.isValidChar) : (fromU32 v).toNat = v := by
  rw [fromU32, if_pos hv]
  unfold Char.ofNat
  rw [dif_pos hv]
  rfl

theorem valid_lt {v : Nat} (hv : v.isValidChar) : v < 2 ^ 32 := by
  rcases hv with h | h <;> omega

/-- A part is decoded to the character with its code. -/
theorem char_code {unit : CharUnit} {v : Nat} (hcode : unit.code = some v) (hv : v.isValidChar) :
    unit.char.toNat = v := by
  cases unit with
  | plain c => exact Option.some.inj hcode
  | octal value =>
    obtain rfl := Option.some.inj hcode
    exact fromU32_toNat hv
  | hex value =>
    obtain rfl := Option.some.inj hcode
    rw [CharUnit.char, Nat.mod_eq_of_lt (valid_lt hv)]
    exact fromU32_toNat hv
  | escape c =>
    rw [CharUnit.code] at hcode
    split at hcode
    · exact Option.some.inj hcode
    · cases hcode

theorem byte_valid {b : Nat} (hb : b < 256) : b.isValidChar := .inl (by omega)

theorem bytes_ascii : ∀ n < 128, (CharUnit.plain (Char.ofNat n)).bytes = some [n] := by
  decide +kernel

theorem byte_spec {unit : CharUnit} {b : Nat} (h : unit.byte = some b) :
    b < 256 ∧ unit.char.toNat = b ∧ unit.bytes = some [b] := by
  have hcoded : ∀ u : CharUnit, (u.code.bind fun value => if value < 256 then some value else none) =
      some b → b < 256 ∧ u.char.toNat = b ∧
        (u.code.bind fun value => if value < 256 then some [value] else none) = some [b] := by
    intro u hu
    obtain ⟨v, hv, hb⟩ := Option.bind_eq_some_iff.1 hu
    split at hb
    · next hlt =>
      obtain rfl := Option.some.inj hb
      refine ⟨hlt, char_code hv (byte_valid hlt), ?_⟩
      rw [hv, Option.bind_some, if_pos hlt]
    · cases hb
  cases unit with
  | plain c =>
    rw [CharUnit.byte] at h
    split at h
    · next hlt =>
      obtain rfl := Option.some.inj h
      refine ⟨by omega, rfl, ?_⟩
      have hc := bytes_ascii c.toNat hlt
      rwa [Char.ofNat_toNat] at hc
    · cases h
  | octal value => exact hcoded (.octal value) h
  | hex value => exact hcoded (.hex value) h
  | escape c => exact hcoded (.escape c) h

theorem bytes_spec {units : List CharUnit} (h : ∀ unit ∈ units, unit.byte.isSome = true) :
    (units.all fun unit => unit.bytes.isSome) = true ∧
      (units.flatMap fun unit => unit.bytes.getD []) = units.filterMap CharUnit.byte ∧
      (units.map CharUnit.char).map Char.toNat = units.filterMap CharUnit.byte := by
  induction units with
  | nil => exact ⟨rfl, rfl, rfl⟩
  | cons unit units ih =>
    obtain ⟨hall, hflat, hchars⟩ := ih fun other hother => h other (List.mem_cons_of_mem _ hother)
    obtain ⟨b, hb⟩ := Option.isSome_iff_exists.1 (h unit List.mem_cons_self)
    obtain ⟨-, hchar, hbytes⟩ := byte_spec hb
    refine ⟨?_, ?_, ?_⟩
    · rw [List.all_cons, hbytes, hall]
      rfl
    · rw [List.flatMap_cons, hbytes, hflat, List.filterMap_cons_some hb]
      rfl
    · rw [List.map_cons, List.map_cons, hchar, hchars, List.filterMap_cons_some hb]

/-- A plain character constant is read as what it is in C. -/
theorem character_meets {c : CharConst} (h : c.Plain target) :
    ∃ v, c.meaning target = some v ∧ (c.type target).Holds v ∧ charConstant c.text = some v := by
  obtain ⟨units, hunits, hplain⟩ := h
  rw [charConstant_text, hunits, Option.map_some, CharConst.meaning, hunits]
  have hone : ∀ (unit : CharUnit) (value : Nat), units = [unit] → unit.code = some value →
      value.isValidChar → charValue (units.map CharUnit.char) = (value : Int) := by
    intro unit value hsingle hcode hvalid
    have hchar := char_code hcode hvalid
    rw [hsingle, List.map_singleton]
    exact congrArg Int.ofNat hchar
  cases hencoding : c.encoding with
  | plain =>
    rw [hencoding] at hplain
    obtain ⟨hbytes, hplain⟩ := hplain
    obtain ⟨hall, hflat, hchars⟩ := bytes_spec hbytes
    have htype : c.type target = target.intType := by rw [CharConst.type, hencoding]
    simp only [hall, if_true, hflat]
    rw [htype]
    generalize hlist : units.filterMap CharUnit.byte = bytes at hplain hchars
    match bytes, hplain with
    | [b], hplain =>
      obtain ⟨char, hchar⟩ : ∃ char, units.map CharUnit.char = [char] := by
        rw [← List.length_eq_one_iff, ← List.length_map (f := Char.toNat), hchars]
        rfl
      have hb : b < 256 := by
        have hmem : b ∈ units.filterMap CharUnit.byte := hlist ▸ List.mem_singleton_self b
        obtain ⟨unit, -, hbyte⟩ := List.mem_filterMap.1 hmem
        exact (byte_spec hbyte).1
      have hsign : (target.charSigned && decide (128 ≤ b)) = false := by
        rcases hplain with hlt | hunsigned
        · rw [decide_eq_false (by omega), Bool.and_false]
        · rw [hunsigned, Bool.false_and]
      rw [hchar] at hchars ⊢
      refine ⟨b, ?_, ?_, ?_⟩
      · simp only [hsign, Bool.false_eq_true, if_false]
      · have hpow : (2 : Int) ^ 15 ≤ 2 ^ (target.int - 1) :=
          pow_mono (Nat.le_sub_one_of_lt target.int_ge)
        change -2 ^ (target.int - 1) ≤ (b : Int) ∧ (b : Int) < 2 ^ (target.int - 1)
        constructor <;> omega
      · exact congrArg (fun n : Nat => some (n : Int)) (List.cons.inj hchars).1
    | b :: b' :: bytes, hplain =>
      replace hplain : target.intType.Holds (packed (b :: b' :: bytes)) := hplain
      refine ⟨(packed (b :: b' :: bytes) : Int), ?_, hplain, ?_⟩
      · simp only [convert_holds intType_small hplain]
      · rw [← hchars] at hplain ⊢
        rw [← wrap_holds intType_small hplain]
        match units.map CharUnit.char, hchars with
        | _ :: _ :: _, _ => rfl
  | wide | char16 | char32 | utf8 =>
    rw [hencoding] at hplain
    obtain ⟨unit, value, hsingle, hcode, hvalid, hholds⟩ := hplain
    refine ⟨value, ?_, hholds, congrArg some (hone unit value hsingle hcode hvalid)⟩
    subst hsingle
    simp only [hcode, Option.bind_some, if_pos hholds]

/-- What is known of an operand: a type and a value in C, which the type holds, and the same value
for the reader. -/
def Meets (target : Target) (scope : Scope) (e : Expr) (t : IntType) (v : Int) : Prop :=
  (e.type target = some t ∧ t.Small) ∧ (e.meaning target = some v ∧ t.Holds v) ∧
    e.value scope = some v

theorem unary_meets {op : Unary} {e : Expr} (h : Meets target scope e t a)
    (hplain : op.Plain target.int t a) : ∃ t' v, Meets target scope (.unary op e) t' v := by
  obtain ⟨⟨htype, hsmall⟩, ⟨hmeaning, hholds⟩, hvalue⟩ := h
  have hpromoted := promote_small target.int_le_64 hsmall
  cases op with
  | neg =>
    refine ⟨t.promote target.int, -a, ⟨by simp [Expr.type, htype], hpromoted⟩, ⟨?_, hplain⟩, ?_⟩
    · simp only [Expr.meaning, htype, hmeaning]
      exact result_holds hplain
    · simp only [Expr.value, hvalue, Option.map_some, Unary.apply]
      rw [wrap_holds hpromoted hplain]
  | plus =>
    refine ⟨t.promote target.int, a, ⟨by simp [Expr.type, htype], hpromoted⟩,
      ⟨?_, promote_holds hholds⟩, ?_⟩
    · simp only [Expr.meaning, htype, hmeaning]
    · simp only [Expr.value, hvalue, Option.map_some, Unary.apply]
  | compl =>
    refine ⟨t.promote target.int, -a - 1, ⟨by simp [Expr.type, htype], hpromoted⟩,
      ⟨?_, hplain⟩, ?_⟩
    · simp only [Expr.meaning, htype, hmeaning]
      exact result_holds hplain
    · simp only [Expr.value, hvalue, Option.map_some, Unary.apply]
  | not =>
    refine ⟨target.intType, truth (a = 0), ⟨rfl, intType_small⟩, ⟨?_, truth_holds _⟩, ?_⟩
    · simp only [Expr.meaning, htype, hmeaning]
    · simp only [Expr.value, hvalue, Option.map_some, Unary.apply]

/-- An operand that C does not evaluate makes no difference to the reader, if it can evaluate it. -/
theorem decided_meets {op : Op} {left right : Expr} (hl : Meets target scope left t a)
    (hdecides : op.Decides a) (hright : (right.value scope).isSome = true) :
    ∃ t' v, Meets target scope (.binary op left right) t' v := by
  obtain ⟨-, ⟨hmeaning, -⟩, hvalue⟩ := hl
  obtain ⟨b, hb⟩ := Option.isSome_iff_exists.1 hright
  rcases hdecides with ⟨rfl, ha⟩ | ⟨rfl, ha⟩
  · refine ⟨target.intType, truth true, ⟨rfl, intType_small⟩, ⟨?_, truth_holds _⟩, ?_⟩
    · simp [Expr.meaning, Op.kind, hmeaning, ha, truth]
    · simp [Expr.value, hvalue, hb, apply, ha, Except.toOption]
  · refine ⟨target.intType, truth false, ⟨rfl, intType_small⟩, ⟨?_, truth_holds _⟩, ?_⟩
    · simp [Expr.meaning, Op.kind, hmeaning, ha, truth]
    · simp [Expr.value, hvalue, hb, apply, ha, Except.toOption]

theorem binary_meets {op : Op} {left right : Expr} (hl : Meets target scope left t a)
    (hr : Meets target scope right u b) (hplain : op.Plain target.int t u a b) :
    ∃ t' v, Meets target scope (.binary op left right) t' v := by
  obtain ⟨⟨htype, hsmall⟩, ⟨hmeaning, hholds⟩, hvalue⟩ := hl
  obtain ⟨⟨htype', hsmall'⟩, ⟨hmeaning', hholds'⟩, hvalue'⟩ := hr
  have hcommon := common_small target.int_le_64 hsmall hsmall'
  have hread : ∀ v, apply op a b = .ok v → (Expr.binary op left right).value scope = some v :=
    fun v hv => by simp only [Expr.value, hvalue, hvalue', hv]; rfl
  rw [Op.Plain] at hplain
  cases hkind : op.kind with
  | logical =>
    have hvalues : ∃ c : Bool, (Expr.binary op left right).meaning target = some (truth c) ∧
        apply op a b = .ok (truth c) := by
      cases op <;> try cases hkind
      · refine ⟨a ≠ 0 || b ≠ 0, ?_, rfl⟩
        by_cases ha : a = 0
        · simp [Expr.meaning, Op.kind, hmeaning, hmeaning', ha]
        · simp [Expr.meaning, Op.kind, hmeaning, ha, truth]
      · refine ⟨a ≠ 0 && b ≠ 0, ?_, rfl⟩
        by_cases ha : a = 0
        · simp [Expr.meaning, Op.kind, hmeaning, ha, truth]
        · simp [Expr.meaning, Op.kind, hmeaning, hmeaning', ha]
    obtain ⟨c, hc, happly⟩ := hvalues
    refine ⟨target.intType, truth c, ⟨?_, intType_small⟩, ⟨hc, truth_holds _⟩, hread _ happly⟩
    simp only [Expr.type, hkind]
  | comparison =>
    simp only [hkind] at hplain
    refine ⟨target.intType, op.compare a b, ⟨by simp only [Expr.type, hkind], intType_small⟩,
      ⟨?_, compare_holds op⟩, hread _ (apply_compare hkind)⟩
    simp only [Expr.meaning, hkind, hmeaning, htype, htype', hmeaning',
      convert_holds hcommon hplain.1, convert_holds hcommon hplain.2]
  | shift =>
    simp only [hkind] at hplain
    have hpromoted := promote_small target.int_le_64 hsmall
    obtain ⟨v, hv, happly, hvholds⟩ :=
      shift_eq hpromoted hkind hplain.1 hplain.2 (promote_holds hholds)
    refine ⟨t.promote target.int, v, ⟨by simp only [Expr.type, hkind, htype], hpromoted⟩,
      ⟨?_, hvholds⟩, hread _ happly⟩
    simp only [Expr.meaning, hkind, hmeaning, htype, hmeaning', hv]
  | arithmetic =>
    simp only [hkind] at hplain
    obtain ⟨⟨ha, hb⟩, m, hexact, hm⟩ := hplain
    refine ⟨t.common target.int u, m, ⟨by simp only [Expr.type, hkind, htype, htype'], hcommon⟩,
      ⟨?_, hm⟩, hread _ (apply_exact hexact (wrap_holds hcommon hm))⟩
    simp only [Expr.meaning, hkind, hmeaning, htype, htype', hmeaning', convert_holds hcommon ha,
      convert_holds hcommon hb, hexact, Option.bind_some, result_holds hm]

/-- Of a plain expression the reader makes what C does. -/
theorem plain_meets (hagrees : Agrees target scope) {e : Expr} (hplain : e.Plain target scope) :
    ∃ t v, Meets target scope e t v := by
  induction e with
  | lit l =>
    obtain ⟨t, ht⟩ := hplain
    obtain ⟨hsmall, hholds⟩ := literal_small ht
    refine ⟨t, l.value, ⟨ht, hsmall⟩, ⟨by simp [Expr.meaning, ht], hholds⟩, ?_⟩
    rw [Expr.value, wrap_holds hsmall hholds]
  | chr c =>
    obtain ⟨v, hmeaning, hholds, hread⟩ := character_meets hplain
    exact ⟨c.type target, v, ⟨rfl, charType_small c⟩, ⟨hmeaning, hholds⟩, hread⟩
  | name n =>
    obtain ⟨⟨t, v⟩, hname⟩ := Option.isSome_iff_exists.1 hplain
    obtain ⟨hread, hsmall, hholds⟩ := hagrees n t v hname
    exact ⟨t, v, ⟨by simp [Expr.type, hname], hsmall⟩, ⟨by simp [Expr.meaning, hname], hholds⟩,
      hread⟩
  | sizeOf e _ => exact hplain.elim
  | size keyword type =>
    obtain ⟨n, hn, hholds⟩ := hplain
    have hsmall : IntType.Small ⟨target.size, false⟩ :=
      ⟨target.size_pos, target.size_le.trans (by decide)⟩
    exact ⟨⟨target.size, false⟩, n, ⟨rfl, hsmall⟩,
      ⟨by simp only [Expr.meaning, hn, Option.map_some], hholds⟩,
      by simp only [Expr.value, hn, Option.map_some]⟩
  | cast type e ih =>
    obtain ⟨he, hcast⟩ := hplain
    obtain ⟨t, v, -, ⟨hmeaning, -⟩, hvalue⟩ := ih he
    obtain ⟨t', ht'⟩ := Option.isSome_iff_exists.1 hcast
    obtain ⟨heq, hsmall, hholds⟩ := @cast_eq t' v type.type.kind ht'
    refine ⟨t', castValue v type.type.kind, ⟨ht', hsmall⟩, ⟨?_, hholds⟩, ?_⟩
    · simp only [Expr.meaning, ht', hmeaning]
    · simp only [Expr.value, hvalue, Option.map_some, heq]
  | unary u e ih =>
    obtain ⟨he, hu⟩ := hplain
    obtain ⟨t, v, h⟩ := ih he
    exact unary_meets h (hu t v h.1.1 h.2.1.1)
  | binary op left right ihl ihr =>
    obtain ⟨hl, hop⟩ := hplain
    obtain ⟨t, a, ha⟩ := ihl hl
    obtain ⟨hskipped, hboth⟩ := hop a ha.2.1.1
    by_cases hdecides : op.Decides a
    · exact decided_meets ha hdecides (hskipped hdecides)
    · obtain ⟨hr, hplain⟩ := hboth hdecides
      obtain ⟨u, b, hb⟩ := ihr hr
      exact binary_meets ha hb (hplain t u b ha.1.1 hb.1.1 hb.2.1.1)
  | cond condition yes no ihc ihy ihn =>
    obtain ⟨hc, t, u, ⟨hyt, hnt⟩, hbranches⟩ := hplain
    obtain ⟨-, c, -, ⟨hcmeaning, -⟩, hcvalue⟩ := ihc hc
    have hcommon := common_small target.int_le_64 (type_small hagrees hyt) (type_small hagrees hnt)
    have htype : (Expr.cond condition yes no).type target = some (t.common target.int u) := by
      simp only [Expr.type, hyt, hnt]
    obtain ⟨hyes, hno⟩ := hbranches c hcmeaning
    by_cases hzero : c = 0
    · obtain ⟨hn, hskipped, hholds⟩ := hno hzero
      obtain ⟨-, b, -, ⟨hnm, -⟩, hnv⟩ := ihn hn
      obtain ⟨a, hyv⟩ := Option.isSome_iff_exists.1 hskipped
      refine ⟨_, b, ⟨htype, hcommon⟩, ⟨?_, hholds b hnm⟩, ?_⟩
      · simp only [Expr.meaning, hcmeaning, hyt, hnt, hzero, ne_eq, not_true, if_false, hnm,
          Option.map_some, convert_holds hcommon (hholds b hnm)]
      · simp only [Expr.value, hcvalue, hyv, hnv, hzero, ne_eq, not_true, if_false]
    · obtain ⟨hy, hskipped, hholds⟩ := hyes hzero
      obtain ⟨-, a, -, ⟨hym, -⟩, hyv⟩ := ihy hy
      obtain ⟨b, hnv⟩ := Option.isSome_iff_exists.1 hskipped
      refine ⟨_, a, ⟨htype, hcommon⟩, ⟨?_, hholds a hym⟩, ?_⟩
      · simp only [Expr.meaning, hcmeaning, hyt, hnt, ne_eq, hzero, not_false_eq_true, if_true, hym,
          Option.map_some, convert_holds hcommon (hholds a hym)]
      · simp only [Expr.value, hcvalue, hyv, hnv, ne_eq, hzero, not_false_eq_true, if_true]
  | comma first second ihf ihs =>
    obtain ⟨hf, hs⟩ := hplain
    obtain ⟨-, f, -, ⟨hfm, -⟩, hfv⟩ := ihf hf
    obtain ⟨t, v, ⟨ht, hsmall⟩, ⟨hm, hholds⟩, hv⟩ := ihs hs
    exact ⟨t, v, ⟨ht, hsmall⟩, ⟨by simp only [Expr.meaning, hfm, hm], hholds⟩,
      by simp only [Expr.value, hfv, hv]⟩
  | paren e ih => exact ih hplain

/-- Where C gives an expression a value, the reader makes that value of its tokens: as a whole
before the end of the input, and before whatever closes an operand. -/
def Means (target : Target) (scope : Scope) (e : Expr) : Prop :=
  ∀ v, e.meaning target = some v →
    Ends (expression scope · (e.tokens ++ [.eof])) (done v [.eof]) ∧
    (1 ≤ e.level → ∀ rest, Closed rest →
      Ends (conditional scope · (e.tokens ++ rest)) (done v rest))

theorem plain_means (target : Target) (scope : Scope) (e : Expr) (hagrees : Agrees target scope)
    (hwritten : e.Written scope) (hplain : e.Plain target scope) :
    ((∃ v, e.meaning target = some v) ∧ Means target scope e) ∧
      ∀ (l : Literal) (text : Text), (target.literalType l).isSome = true →
        text.map Char.toLower = l.text → number text = some (.int l.value l.unsigned) := by
  obtain ⟨t, v, -, ⟨hmeaning, -⟩, hvalue⟩ := plain_meets hagrees hplain
  refine ⟨⟨⟨v, hmeaning⟩, fun w hw => ?_⟩, fun l text htype htext => ?_⟩
  · rw [hmeaning] at hw
    obtain rfl := Option.some.inj hw
    exact ⟨expression_read hwritten hvalue, (read_written hwritten hvalue).conditional⟩
  · obtain ⟨t', ht'⟩ := Option.isSome_iff_exists.1 htype
    obtain ⟨hsmall, hholds⟩ := literal_small ht'
    have hbound := (holds_bounds hholds).2
    have hpow := pow_mono (hsmall.2.trans (show 120 ≤ 128 by decide))
    rw [number_literal l text htext (by exact_mod_cast lt_of_lt_of_le hbound hpow),
      wrap_holds hsmall hholds]

/-- A scope without types and constants. -/
def noScope : Scope := ⟨fun _ => false, fun _ => .error .notConstant, fun _ => none⟩

/-- A target with `long` of 64 bits. -/
def target64 : Target :=
  ⟨32, 64, 64, by decide, by decide, by decide, by decide, by decide, fun _ => none, true,
    ⟨32, true⟩, by decide, by decide⟩

def zeroUnsigned : Literal :=
  ⟨.oct, [], true, 0, false, by decide, by decide, by decide⟩

/-- The complement of an unsigned zero is read as a negative number. -/
theorem unsigned_complement : ¬ ∀ (target : Target) (scope : Scope) (e : Expr),
    Agrees target scope → e.Written scope → Means target scope e := by
  intro hall
  have hends := (hall target64 noScope (.unary .compl (.lit zeroUnsigned))
    (fun _ _ _ h => by cases h) ⟨rfl, trivial⟩ 4294967295 (by decide)).1
  have hread := @expression_read noScope (.unary .compl (.lit zeroUnsigned)) (-1)
    ⟨rfl, trivial⟩ (by decide)
  cases hread.unique hends

def one : Literal := ⟨.dec, [1], false, 0, false, by decide, by decide, by decide⟩

def forty : Literal := ⟨.dec, [4, 0], false, 0, false, by decide, by decide, by decide⟩

/-- `1 ? 'a' : 1 << 40`, of which C does not evaluate the last operand. -/
theorem plain_means_skipped : Means target64 noScope
    (.cond (.lit one) (.chr ⟨.plain, ['a']⟩) (.binary .shl (.lit one) (.lit forty))) := by
  refine (plain_means target64 noScope _ (fun _ _ _ h => by cases h) ?_ ?_).1.2
  · exact ⟨⟨by decide, by decide⟩, trivial, rfl, ⟨by decide, by decide⟩, trivial, trivial⟩
  · refine ⟨⟨_, rfl⟩, ⟨32, true⟩, ⟨32, true⟩, ⟨rfl, rfl⟩, fun c hc => ⟨fun _ => ?_, fun hzero => ?_⟩⟩
    · refine ⟨⟨[.plain 'a'], rfl, by decide, .inl (by decide)⟩, rfl, fun a ha => ?_⟩
      obtain rfl : (97 : Int) = a := Option.some.inj ha
      decide
    · subst hzero
      exact absurd (Option.some.inj hc) (by decide)

end Zuri.Cdecl
