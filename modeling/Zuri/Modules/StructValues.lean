import Zuri.Float.Single
import Zuri.Modules.StructLayout

/-!
One value at a time. A value that is read from bytes is written as the bytes it was read from; an
integer that is written is read as what is left of it in the width of its code.
-/

namespace Zuri.Struct

variable {m : Machine}

theorem ofLeBytes_lt (bytes : List UInt8) : ofLeBytes bytes < 256 ^ bytes.length := by
  induction bytes with
  | nil => exact Nat.one_pos
  | cons b bytes ih =>
      have hb := b.toNat_lt
      rw [ofLeBytes, List.foldr_cons, List.length_cons, Nat.pow_succ]
      rw [ofLeBytes] at ih
      omega

theorem leBytes_ofLeBytes (bytes : List UInt8) :
    leBytes bytes.length (ofLeBytes bytes) = bytes := by
  induction bytes with
  | nil => rfl
  | cons b bytes ih =>
      have hb := b.toNat_lt
      rw [ofLeBytes, List.foldr_cons, ← ofLeBytes, List.length_cons, leBytes]
      rw [show (b.toNat + 256 * ofLeBytes bytes) / 256 = ofLeBytes bytes by omega, ih]
      congr 1
      apply UInt8.toNat_inj.mp
      rw [UInt8.toNat_ofNat']
      omega

theorem ofLeBytes_leBytes (size n : Nat) : ofLeBytes (leBytes size n) = n % 256 ^ size := by
  induction size generalizing n with
  | zero => rw [Nat.pow_zero, Nat.mod_one]; rfl
  | succ size ih =>
      rw [leBytes, ofLeBytes, List.foldr_cons, ← ofLeBytes, ih, Nat.pow_succ,
        Nat.mul_comm (256 ^ size), Nat.mod_mul, UInt8.toNat_ofNat']

theorem leBytes_mod (size n : Nat) : leBytes size (n % 256 ^ size) = leBytes size n := by
  have hback := leBytes_ofLeBytes (leBytes size n)
  rwa [length_leBytes, ofLeBytes_leBytes] at hback

theorem ordered_ordered (endian : Endian) (bytes : List UInt8) :
    ordered m endian (ordered m endian bytes) = bytes := by
  unfold ordered
  cases endian with
  | little => rfl
  | big => exact List.reverse_reverse bytes
  | native =>
      cases m.little with
      | true => rfl
      | false => exact List.reverse_reverse bytes

/-- Bytes are written from what is read of them, whatever their order. -/
theorem ordered_readUint (endian : Endian) (bytes : List UInt8) :
    ordered m endian (leBytes bytes.length (readUint m bytes endian)) = bytes := by
  have hback := leBytes_ofLeBytes (ordered m endian bytes)
  rw [length_ordered] at hback
  rw [readUint, hback, ordered_ordered]

theorem readUint_lt (endian : Endian) (bytes : List UInt8) :
    readUint m bytes endian < 2 ^ (bytes.length * 8) := by
  have hlt := ofLeBytes_lt (ordered m endian bytes)
  rw [length_ordered] at hlt
  rwa [readUint, Nat.mul_comm, Nat.pow_mul]

theorem readUint_writeInt (size : Nat) (endian : Endian) (v : Int) :
    readUint m (writeInt m size endian v) endian = asU128 v % 2 ^ (size * 8) := by
  rw [readUint, writeInt, ordered_ordered, ofLeBytes_leBytes, Nat.mul_comm, Nat.pow_mul]

theorem uintToValue_eq (n : Nat) : uintToValue n = intToValue n := by
  unfold uintToValue intToValue
  have hlow : -F64_SAFE_INT ≤ (n : Int) := by
    unfold F64_SAFE_INT
    omega
  simp only [hlow, true_and]

/-- An integer that 128 bits hold is the integer its value stands for. -/
theorem valueToI128_intToValue {v : Int} (hlow : -2 ^ 127 ≤ v) (hhigh : v < 2 ^ 127) :
    valueToI128 m (intToValue v) = .ok v := by
  unfold intToValue
  split
  · rename_i hsafe
    unfold F64_SAFE_INT at hsafe
    have hnum := F64.num_ofInt (n := v) (by omega)
    unfold valueToI128
    simp only [hnum]
    have hwhole : hasFract (.fin (decide (v < 0)) (v.natAbs * F64.one)) = false := by
      simp [hasFract]
    rw [hwhole]
    simp only [Bool.false_eq_true, if_false, toI128, Nat.mul_div_cancel _ F64.one_pos]
    refine congrArg Except.ok ?_
    unfold F64.signed
    by_cases hneg : v < 0
    · simp only [hneg, decide_true, if_true]
      omega
    · simp only [hneg, decide_false, Bool.false_eq_true, if_false]
      omega
  · exact if_pos ⟨hlow, hhigh⟩

/-- What is left of an integer in so many bytes. -/
def wrapped (size : Nat) (signed : Bool) (n : Int) : Int :=
  let raw := n % 2 ^ (size * 8)
  if signed then if 2 ^ (size * 8 - 1) ≤ raw then raw - 2 ^ (size * 8) else raw else raw

/-- An integer that so many bytes hold. -/
def Fits (size : Nat) (signed : Bool) (n : Int) : Prop :=
  if signed then -2 ^ (size * 8 - 1) ≤ n ∧ n < 2 ^ (size * 8 - 1) else 0 ≤ n ∧ n < 2 ^ (size * 8)

theorem wrapped_fits {size : Nat} {signed : Bool} {n : Int} (hsize : 0 < size)
    (h : Fits size signed n) : wrapped size signed n = n := by
  unfold wrapped
  unfold Fits at h
  have hpow : (2 : Int) ^ (size * 8) = 2 * 2 ^ (size * 8 - 1) := by
    rw [← pow_succ', show size * 8 - 1 + 1 = size * 8 by omega]
  have hpos : (0 : Int) < 2 ^ (size * 8 - 1) := Int.pow_pos (by decide)
  generalize (2 : Int) ^ (size * 8 - 1) = half at h hpow hpos ⊢
  rw [hpow] at h ⊢
  cases signed with
  | false =>
      simp only [Bool.false_eq_true, if_false] at h ⊢
      exact Int.emod_eq_of_lt h.1 h.2
  | true =>
      simp only [if_true] at h ⊢
      by_cases hneg : n < 0
      · have hraw : n % (2 * half) = n + 2 * half := by
          rw [← Int.add_emod_right, Int.emod_eq_of_lt (by omega) (by omega)]
        rw [hraw, if_pos (by omega)]
        omega
      · have hraw : n % (2 * half) = n := Int.emod_eq_of_lt (by omega) (by omega)
        rw [hraw, if_neg (by omega)]

theorem codeIntSpec_size {code : Char} {size : Nat} {endian : Endian} {signed : Bool}
    (h : codeIntSpec code = some (size, endian, signed)) :
    0 < size ∧ size ≤ 16 ∧ (size = 16 → signed = true ∨ code = 'U') := by
  unfold codeIntSpec at h
  split at h
  all_goals
    cases h
    try exact ⟨by decide, by decide, by decide⟩

theorem codeFloatSpec_size {code : Char} {size : Nat} {endian : Endian}
    (h : codeFloatSpec code = some (size, endian)) : size = 2 ∨ size = 4 ∨ size = 8 := by
  unfold codeFloatSpec at h
  split at h
  all_goals
    cases h
    try decide

theorem elemSize_float {code : Char} {size : Nat} {endian : Endian}
    (h : codeFloatSpec code = some (size, endian)) : elemSize code = size := by
  unfold codeFloatSpec at h
  split at h
  all_goals
    cases h
    try rfl

theorem elemSize_int {code : Char} {size : Nat} {endian : Endian} {signed : Bool}
    (h : codeIntSpec code = some (size, endian, signed)) : elemSize code = size := by
  rw [elemSize, codeSize, h]

/-- Bytes of which a code forgets nothing: a bool is zero or one, and a float is no NaN. -/
structure Canonical (m : Machine) (code : Char) (bytes : List UInt8) : Prop where
  bool : code = '?' → bytes = [0] ∨ bytes = [1]
  float : ∀ size endian, codeFloatSpec code = some (size, endian) →
    (readFloat m size endian bytes).num ≠ .nan

/-- An unsigned integer of 128 bits has its highest bit clear. -/
def Narrow (m : Machine) (code : Char) (bytes : List UInt8) : Prop :=
  code = 'U' → readUint m bytes .little < 2 ^ 127

theorem num_toF64_nan {bits : Nat} (h : F32.num bits = .nan) : (F32.toF64 bits).num = .nan := by
  rw [F32.toF64, h]
  exact F64.num_ofNum_nan

theorem writeFloat_readFloat {size : Nat} {endian : Endian} {bytes : List UInt8}
    (hsize : size = 2 ∨ size = 4 ∨ size = 8) (hlen : bytes.length = size)
    (hnan : (readFloat m size endian bytes).num ≠ .nan) :
    writeFloat m size endian (readFloat m size endian bytes) = bytes := by
  have hlt := readUint_lt (m := m) endian bytes
  have hback := ordered_readUint (m := m) endian bytes
  rw [hlen] at hlt hback
  rcases hsize with rfl | rfl | rfl
  · unfold writeFloat readFloat at *
    simp only [Nat.reduceEqDiff, if_false] at hnan ⊢
    have hfields := F32.halfFields hlt fun hlast => Decidable.byContradiction fun hne =>
      hnan (num_toF64_nan (F32.num_ofHalf_nan hlt hlast hne))
    rw [F32.toHalf_toF64 hfields]
    exact hback
  · unfold writeFloat readFloat at *
    simp only [Nat.reduceEqDiff, if_false, if_true] at hnan ⊢
    rw [F32.ofF64_toF64 hlt fun h => hnan (num_toF64_nan h)]
    exact hback
  · unfold writeFloat readFloat
    simp only [if_true, BitVec.toNat_ofNat]
    rw [Nat.mod_eq_of_lt hlt]
    exact hback

/-- The integer that is read from these bytes. -/
def integer (m : Machine) (endian : Endian) (signed : Bool) (bytes : List UInt8) : Int :=
  let raw := readUint m bytes endian
  if signed then
    if 2 ^ (bytes.length * 8 - 1) ≤ raw then (raw : Int) - 2 ^ (bytes.length * 8) else raw
  else raw

theorem readGroupValue_int {code : Char} {size : Nat} {endian : Endian} {signed : Bool}
    {bytes : List UInt8} (hbool : code ≠ '?') (hfloat : codeFloatSpec code = none)
    (hint : codeIntSpec code = some (size, endian, signed)) (hlen : bytes.length = size) :
    readGroupValue m code bytes = intToValue (integer m endian signed bytes) := by
  subst hlen
  rw [readGroupValue, if_neg hbool, hfloat]
  simp only [hint]
  unfold integer
  cases signed with
  | true => simp only [if_true]
  | false => exact uintToValue_eq _

theorem integer_bounds (endian : Endian) (signed : Bool) {bytes : List UInt8}
    (hpos : 0 < bytes.length) (hsize : bytes.length ≤ 16)
    (hwide : bytes.length = 16 → signed = true ∨ readUint m bytes endian < 2 ^ 127) :
    -2 ^ 127 ≤ integer m endian signed bytes ∧ integer m endian signed bytes < 2 ^ 127 := by
  have hlt := readUint_lt (m := m) endian bytes
  have hpow : 2 ^ (bytes.length * 8) = 2 * 2 ^ (bytes.length * 8 - 1) := by
    rw [← Nat.pow_succ', Nat.succ_eq_add_one, Nat.sub_add_cancel (by omega)]
  have hhalf : 2 ^ (bytes.length * 8 - 1) ≤ 2 ^ 127 :=
    Nat.pow_le_pow_right (by decide) (by omega)
  have hcast : ((2 : Int) ^ (bytes.length * 8)) = ((2 ^ (bytes.length * 8) : Nat) : Int) := by
    push_cast
    rfl
  have hsmall : bytes.length ≠ 16 → 2 ^ (bytes.length * 8) ≤ 2 ^ 127 := fun hne =>
    Nat.pow_le_pow_right (by decide) (by omega)
  unfold integer
  simp only [hcast]
  generalize 2 ^ (bytes.length * 8 - 1) = half at *
  generalize 2 ^ (bytes.length * 8) = whole at *
  generalize readUint m bytes endian = raw at *
  cases signed with
  | true =>
      simp only [if_true]
      split
      · omega
      · omega
  | false =>
      simp only [Bool.false_eq_true, if_false]
      by_cases hfull : bytes.length = 16
      · have := (hwide hfull).resolve_left (by decide)
        omega
      · have := hsmall hfull
        omega

/-- The low bytes of an integer are those of its remainder. -/
theorem asU128_mod {size : Nat} (hsize : size ≤ 16) (v : Int) :
    ((asU128 v % 2 ^ (size * 8) : Nat) : Int) = v % 2 ^ (size * 8) := by
  have hdvd : (2 : Int) ^ (size * 8) ∣ 2 ^ 128 := pow_dvd_pow 2 (by omega)
  have hnonneg : 0 ≤ v % 2 ^ 128 := Int.emod_nonneg _ (by decide)
  rw [asU128, Int.natCast_emod, Int.toNat_of_nonneg hnonneg]
  push_cast
  exact Int.emod_emod_of_dvd v hdvd

/-- The bytes of the integer that was read from bytes. -/
theorem writeInt_integer {endian : Endian} {signed : Bool} {bytes : List UInt8}
    (hsize : bytes.length ≤ 16) :
    writeInt m bytes.length endian (integer m endian signed bytes) = bytes := by
  have hlt := readUint_lt (m := m) endian bytes
  have hraw : (integer m endian signed bytes) % 2 ^ (bytes.length * 8) =
      (readUint m bytes endian : Int) := by
    have hcast : (2 : Int) ^ (bytes.length * 8) = ((2 ^ (bytes.length * 8) : Nat) : Int) := by
      push_cast
      rfl
    have hsame : (readUint m bytes endian : Int) % 2 ^ (bytes.length * 8) =
        (readUint m bytes endian : Int) := by
      rw [hcast]
      exact Int.emod_eq_of_lt (Int.natCast_nonneg _) (Int.ofNat_lt.mpr hlt)
    unfold integer
    cases signed with
    | false => exact hsame
    | true =>
        simp only [if_true]
        split
        · rw [Int.sub_emod_right, hsame]
        · exact hsame
  have hmod : asU128 (integer m endian signed bytes) % 256 ^ bytes.length =
      readUint m bytes endian := by
    have hcast := asU128_mod hsize (integer m endian signed bytes)
    rw [hraw, Nat.mul_comm, Nat.pow_mul] at hcast
    exact Int.ofNat_inj.mp hcast
  rw [writeInt, ← leBytes_mod, hmod, ordered_readUint]

/-- A value that was read can be written, as the bytes it was read from unless the code forgets a
part of them. -/
theorem writeGroupValue_read {code : Char} {bytes : List UInt8} (hvalid : isValidCode code = true)
    (hkind : kind code = .value) (hlen : bytes.length = elemSize code)
    (hnarrow : Narrow m code bytes) :
    ∃ written, writeGroupValue m code (readGroupValue m code bytes) = .ok written ∧
      (Canonical m code bytes → written = bytes) := by
  by_cases hbool : code = '?'
  · rw [writeGroupValue, readGroupValue, if_pos hbool, if_pos hbool]
    refine ⟨_, rfl, fun hcanonical => ?_⟩
    rcases hcanonical.bool hbool with rfl | rfl
    · rfl
    · rfl
  cases hfloat : codeFloatSpec code with
  | some spec =>
      obtain ⟨size, endian⟩ := spec
      rw [elemSize_float hfloat] at hlen
      rw [writeGroupValue, readGroupValue, if_neg hbool, if_neg hbool, hfloat]
      exact ⟨_, rfl, fun hcanonical => writeFloat_readFloat (codeFloatSpec_size hfloat) hlen
        (hcanonical.float size endian hfloat)⟩
  | none =>
      have hsome := codeSize_valid hvalid hkind
      cases hint : codeIntSpec code with
      | none =>
          rw [codeSize, hint, hfloat] at hsome
          cases hsome
      | some spec =>
          obtain ⟨size, endian, signed⟩ := spec
          rw [elemSize_int hint] at hlen
          obtain ⟨hpos, hsize, hwide⟩ := codeIntSpec_size hint
          subst hlen
          obtain ⟨hlow, hhigh⟩ := integer_bounds (m := m) endian signed hpos hsize fun hfull => (hwide hfull).imp_right fun hcode => by
              subst hcode
              have hspec : (16, Endian.little, false) = (bytes.length, endian, signed) :=
                Option.some.inj hint
              rw [← (Prod.mk.inj (Prod.mk.inj hspec).2).1]
              exact hnarrow rfl
          rw [readGroupValue_int hbool hfloat hint rfl, writeGroupValue, if_neg hbool, hfloat]
          simp only [hint]
          rw [valueToI128_intToValue hlow hhigh]
          exact ⟨_, rfl, fun _ => writeInt_integer hsize⟩

theorem codeFloatSpec_int {code : Char} {spec : Nat × Endian × Bool}
    (h : codeIntSpec code = some spec) : codeFloatSpec code = none := by
  unfold codeIntSpec at h
  split at h
  all_goals
    first
    | rfl
    | cases h

theorem integer_writeInt {size : Nat} (hsize : size ≤ 16) (endian : Endian) (signed : Bool)
    (n : Int) : integer m endian signed (writeInt m size endian n) = wrapped size signed n := by
  have hlen : (writeInt m size endian n).length = size := by
    rw [writeInt, length_ordered, length_leBytes]
  have hraw : ((readUint m (writeInt m size endian n) endian : Nat) : Int) =
      n % 2 ^ (size * 8) := by
    rw [readUint_writeInt, asU128_mod hsize]
  have hhalf : (2 ^ (size * 8 - 1) ≤ readUint m (writeInt m size endian n) endian) ↔
      (2 : Int) ^ (size * 8 - 1) ≤ n % 2 ^ (size * 8) := by
    rw [← hraw, ← Int.ofNat_le]
    push_cast
    exact Iff.rfl
  unfold integer wrapped
  simp only [hlen, hraw, hhalf]

/-- What an integer that is written is read as: itself, if it fits. -/
theorem readGroupValue_write {code : Char} {size : Nat} {endian : Endian} {signed : Bool}
    (hint : codeIntSpec code = some (size, endian, signed)) (hbool : code ≠ '?') {v : Value}
    {n : Int} (hv : valueToI128 m v = .ok n) : ∃ bytes, writeGroupValue m code v = .ok bytes ∧
      bytes.length = size ∧ readGroupValue m code bytes = intToValue (wrapped size signed n) := by
  obtain ⟨-, hsize, -⟩ := codeIntSpec_size hint
  have hfloat := codeFloatSpec_int hint
  have hlen : (writeInt m size endian n).length = size := by
    rw [writeInt, length_ordered, length_leBytes]
  refine ⟨writeInt m size endian n, ?_, hlen, ?_⟩
  · rw [writeGroupValue, if_neg hbool, hfloat]
    simp only [hint]
    rw [hv]
    rfl
  · rw [readGroupValue_int hbool hfloat hint hlen, integer_writeInt hsize]

theorem writeGroupValue_refused {code : Char} {spec : Nat × Endian × Bool}
    (hint : codeIntSpec code = some spec) (hbool : code ≠ '?') {n : Int}
    (hn : ¬(-2 ^ 127 ≤ n ∧ n < 2 ^ 127)) : ∃ e, writeGroupValue m code (.bigint n) = .error e := by
  rw [writeGroupValue, if_neg hbool, codeFloatSpec_int hint]
  simp only
  rw [valueToI128, if_neg hn]
  exact ⟨_, rfl⟩

/-- The digits of a byte, in the order of a code. -/
def nibbles (code : Char) (b : UInt8) : List Nat :=
  if code = 'h' then [b.toNat % 16, b.toNat / 16] else [b.toNat / 16, b.toNat % 16]

theorem hexDigits_eq (code : Char) (b : UInt8) :
    hexDigits code b = (nibbles code b).map fromDigit := by
  unfold hexDigits nibbles
  split
  · rfl
  · rfl

theorem hexValue_fromDigit {d : Nat} (h : d < 16) : hexValue (fromDigit d) = some d := by
  have hall : ∀ d < 16, hexValue (fromDigit d) = some d := by decide
  exact hall d h

theorem nibbles_lt (code : Char) (b : UInt8) : ∀ d ∈ nibbles code b, d < 16 := by
  have hb := b.toNat_lt
  unfold nibbles
  split
  · intro d hd
    simp only [List.mem_cons, List.not_mem_nil, or_false] at hd
    omega
  · intro d hd
    simp only [List.mem_cons, List.not_mem_nil, or_false] at hd
    omega

theorem hexBytes_nibbles (code : Char) (bytes : List UInt8) :
    hexBytes code (bytes.flatMap (nibbles code)) = bytes := by
  induction bytes with
  | nil => rfl
  | cons b bytes ih =>
      have hb := b.toNat_lt
      have hbyte : UInt8.ofNat (b.toNat / 16 * 16 + b.toNat % 16) = b := by
        rw [Nat.div_add_mod', UInt8.ofNat_toNat]
      rw [List.flatMap_cons]
      by_cases hcode : code = 'h'
      · rw [nibbles, if_pos hcode, List.cons_append, List.cons_append, List.nil_append, hexBytes,
          if_pos hcode, hbyte, ih]
      · rw [nibbles, if_neg hcode, List.cons_append, List.cons_append, List.nil_append, hexBytes,
          if_neg hcode, hbyte, ih]

theorem length_nibbles (code : Char) (bytes : List UInt8) :
    (bytes.flatMap (nibbles code)).length = 2 * bytes.length := by
  induction bytes with
  | nil => rfl
  | cons b bytes ih =>
      have hlen : (nibbles code b).length = 2 := by
        unfold nibbles
        split
        · rfl
        · rfl
      rw [List.flatMap_cons, List.length_append, hlen, ih, List.length_cons]
      omega

/-- Digits that were read can be written, and bytes are written from all the digits that were read
of them. -/
theorem writeHex_readHex (code : Char) (bytes : List UInt8) (want : Nat) :
    ∃ digits, valueAsHexStr (.string (readHex bytes want code)) code = .ok digits ∧
      (want = 2 * bytes.length → writeHex digits want code = bytes) := by
  have hdigits : bytes.flatMap (hexDigits code) = (bytes.flatMap (nibbles code)).map fromDigit := by
    rw [List.map_flatMap]
    exact congrArg (fun f => bytes.flatMap f) (funext fun b => hexDigits_eq code b)
  have hlen : ((bytes.flatMap (nibbles code)).map fromDigit).length = 2 * bytes.length := by
    rw [List.length_map, length_nibbles]
  have hall : ∀ d ∈ bytes.flatMap (nibbles code), d < 16 := fun d hd => by
    obtain ⟨b, -, hd⟩ := List.mem_flatMap.mp hd
    exact nibbles_lt code b d hd
  refine ⟨((bytes.flatMap (nibbles code)).map fromDigit).take want, ?_, ?_⟩
  · have hnone : (((bytes.flatMap (nibbles code)).map fromDigit).take want).find?
        (fun c => (hexValue c).isNone) = none := by
      rw [List.find?_eq_none]
      intro c hc
      obtain ⟨d, hd, rfl⟩ := List.mem_map.mp (List.mem_of_mem_take hc)
      rw [hexValue_fromDigit (hall d hd)]
      exact Bool.false_ne_true
    rw [readHex, hdigits, valueAsHexStr]
    simp only [String.toList_ofList, hnone]
  · rintro rfl
    rw [List.take_of_length_le (Nat.le_of_eq hlen), writeHex,
      List.take_of_length_le (Nat.le_of_eq hlen), List.length_map, hlen, Nat.sub_self,
      List.replicate_zero, List.append_nil, List.map_map]
    have hback : (bytes.flatMap (nibbles code)).map
        ((fun c => (hexValue c).getD 0) ∘ fromDigit) = bytes.flatMap (nibbles code) := by
      refine (List.map_congr_left fun d hd => ?_).trans (List.map_id _)
      rw [Function.comp, hexValue_fromDigit (hall d hd)]
      rfl
    rw [hback, hexBytes_nibbles]

end Zuri.Struct
