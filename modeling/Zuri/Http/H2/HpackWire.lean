import Zuri.Http.H2.HeaderTable

/-!
Reading back what is written: texts out of their octets, integers and string literals
out of their encodings, with whatever data comes after them left over.
-/

namespace Zuri.Http.H2

theorem toByteArray_append (xs ys : List UInt8) :
    (xs ++ ys).toByteArray = xs.toByteArray ++ ys.toByteArray := by
  apply ByteArray.ext
  simp [List.toByteArray_append]

theorem fromUtf8Loop_utf8 (text : Text) (n : Nat) (h : text.length ≤ n) :
    fromUtf8Loop n (utf8 text) = some text := by
  induction text generalizing n with
  | nil => cases n <;> rfl
  | cons c text ih =>
      cases n with
      | zero => cases h
      | succ n =>
          have hcons : utf8 (c :: text) = String.utf8EncodeChar c ++ utf8 text := rfl
          have hne : (utf8 (c :: text)).isEmpty = false := by
            have hpos : 0 < (String.utf8EncodeChar c).length := by
              rw [String.length_utf8EncodeChar]
              exact c.utf8Size_pos
            rw [hcons]
            cases he : String.utf8EncodeChar c with
            | nil => simp [he] at hpos
            | cons b bs => rfl
          have hread : (utf8 (c :: text)).toByteArray.utf8DecodeChar? 0 = some c := by
            rw [hcons, toByteArray_append]
            exact ByteArray.utf8DecodeChar?_utf8EncodeChar_append
          have hdrop : (utf8 (c :: text)).drop c.utf8Size = utf8 text := by
            rw [hcons]
            exact List.drop_left' (String.length_utf8EncodeChar c)
          have hlen : text.length ≤ n := Nat.le_of_succ_le_succ h
          simp only [fromUtf8Loop, hne, hread, hdrop, ih n hlen]
          rfl

theorem length_le_utf8 (text : Text) : text.length ≤ (utf8 text).length := by
  induction text with
  | nil => exact Nat.le_refl 0
  | cons c text ih =>
      have hcons : utf8 (c :: text) = String.utf8EncodeChar c ++ utf8 text := rfl
      rw [hcons, List.length_append, String.length_utf8EncodeChar]
      have hpos := c.utf8Size_pos
      simp only [List.length_cons]
      omega

theorem fromUtf8_utf8 (text : Text) : fromUtf8 (utf8 text) = some text :=
  fromUtf8Loop_utf8 text _ (length_le_utf8 text)

@[simp] theorem textOf_utf8 (text : Text) : textOf (utf8 text) = text := by
  simp [textOf, fromUtf8_utf8]

/-- Octets that spell a text. -/
def IsText (octets : List UInt8) : Prop := ∃ text, utf8 text = octets

theorem utf8_textOf (octets : List UInt8) (h : IsText octets) : utf8 (textOf octets) = octets := by
  obtain ⟨text, rfl⟩ := h
  rw [textOf_utf8]

/-- Octets of one-octet characters only. -/
def IsAscii (octets : List UInt8) : Prop := ∀ octet ∈ octets, octet < 128

theorem high_or (x high : UInt8) (h : 128 ≤ high) : 128 ≤ x ||| high := by
  rw [UInt8.le_iff_toNat_le] at h ⊢
  rw [UInt8.toNat_or]
  exact Nat.le_trans h Nat.right_le_or

theorem length_of_isAscii (text : Text) (h : IsAscii (utf8 text)) :
    text.length = (utf8 text).length := by
  induction text with
  | nil => rfl
  | cons c text ih =>
      have hcons : utf8 (c :: text) = String.utf8EncodeChar c ++ utf8 text := rfl
      have hrest := ih (fun octet ho => h octet (hcons ▸ List.mem_append_right _ ho))
      have hone : c.utf8Size = 1 := by
        by_contra hsize
        have hbig : 127 < c.val := by
          by_contra hle
          exact hsize (Char.utf8Size_eq_one_iff.mpr (UInt32.not_lt.mp hle))
        have hhead : ∃ octet ∈ String.utf8EncodeChar c, 128 ≤ octet := by
          rcases c.utf8Size_eq with h1 | h2 | h3 | h4
          · exact absurd h1 hsize
          · rw [String.utf8EncodeChar_eq_cons_cons h2]
            exact ⟨_, List.mem_cons_self, high_or _ _ (by decide)⟩
          · rw [String.utf8EncodeChar_eq_cons_cons_cons h3]
            exact ⟨_, List.mem_cons_self, high_or _ _ (by decide)⟩
          · rw [String.utf8EncodeChar_eq_cons_cons_cons_cons h4]
            exact ⟨_, List.mem_cons_self, high_or _ _ (by decide)⟩
        obtain ⟨octet, hm, hge⟩ := hhead
        exact absurd (h octet (hcons ▸ List.mem_append_left _ hm)) (UInt8.not_lt.mpr hge)
      rw [hcons, List.length_cons, List.length_append, String.length_utf8EncodeChar, hone, hrest]
      omega

theorem decodeTail_encodeTail (rem value shift steps : Nat) (rest : List UInt8)
    (hshift : shift + 7 * steps ≤ 35) (hrem : rem < 128 ^ steps) :
    decodeTail (encodeTail rem ++ rest) value shift = .ok (value + rem <<< shift, rest) := by
  induction rem using Nat.strongRecOn generalizing value shift steps with
  | ind rem ih =>
      rw [encodeTail]
      split
      · rename_i hbig
        cases steps with
        | zero => simp at hrem; omega
        | succ steps =>
            have hnext : rem / 128 < 128 ^ steps := by
              rw [Nat.div_lt_iff_lt_mul (by omega)]
              rw [Nat.pow_succ] at hrem
              exact hrem
            have hsteps : 1 ≤ steps := by
              cases steps with
              | zero => simp at hnext; omega
              | succ _ => omega
            have hoctet : (UInt8.ofNat (rem % 128 + 128)).toNat = rem % 128 + 128 := by
              rw [UInt8.toNat_ofNat']
              omega
            have hhigh : ¬ UInt8.ofNat (rem % 128 + 128) < 128 := by
              rw [UInt8.lt_iff_toNat_lt, hoctet]
              simp
            have hmore : ¬ 28 < shift + 7 := by omega
            simp only [List.cons_append, decodeTail, if_neg hhigh, if_neg hmore, hoctet]
            rw [ih (rem / 128) (by omega) _ (shift + 7) steps (by omega) hnext]
            congr 2
            simp only [Nat.shiftLeft_eq, Nat.pow_add]
            have hdiv := Nat.div_add_mod rem 128
            have hmod : (rem % 128 + 128) % 128 = rem % 128 := by omega
            rw [hmod, Nat.add_assoc]
            congr 1
            calc rem % 128 * 2 ^ shift + rem / 128 * (2 ^ shift * 2 ^ 7)
                = (128 * (rem / 128) + rem % 128) * 2 ^ shift := by ring
              _ = rem * 2 ^ shift := by rw [hdiv]
      · rename_i hsmall
        have hoctet : (UInt8.ofNat rem).toNat = rem := by
          rw [UInt8.toNat_ofNat']
          omega
        have hlow : UInt8.ofNat rem < 128 := by
          rw [UInt8.lt_iff_toNat_lt, hoctet]
          simpa using hsmall
        have hmod : rem % 128 = rem := by omega
        simp only [List.singleton_append, decodeTail, if_pos hlow, hoctet, hmod]

/-- The flag bits and the value share the first octet. -/
theorem first_octet (value prefixBits first : Nat) (hv : value < 2 ^ prefixBits)
    (hp : prefixBits ≤ 8) (hf : first < 256) (hflag : first % 2 ^ prefixBits = 0) :
    (UInt8.ofNat (first ||| value)).toNat = first ||| value ∧
      (first ||| value) % 2 ^ prefixBits = value := by
  have hv8 : value < 2 ^ 8 := lt_of_lt_of_le hv (Nat.pow_le_pow_right (by omega) hp)
  refine ⟨?_, ?_⟩
  · rw [UInt8.toNat_ofNat']
    exact Nat.mod_eq_of_lt (Nat.or_lt_two_pow hf hv8)
  · rw [Nat.or_mod_two_pow, hflag, Nat.zero_or]
    exact Nat.mod_eq_of_lt hv

theorem decodeInteger_encodeInteger (value prefixBits first : Nat) (rest : List UInt8)
    (hp : prefixBits ≤ 8) (hpos : 1 ≤ prefixBits) (hf : first < 256)
    (hflag : first % 2 ^ prefixBits = 0) (hvalue : value < 2 ^ 35) :
    decodeInteger (encodeInteger value prefixBits first ++ rest) prefixBits =
      .ok (value, rest) := by
  have htwo : 2 ≤ 2 ^ prefixBits := by
    calc 2 = 2 ^ 1 := rfl
      _ ≤ 2 ^ prefixBits := Nat.pow_le_pow_right (by omega) hpos
  unfold encodeInteger
  by_cases hsmall : value < 2 ^ prefixBits - 1
  · obtain ⟨hoctet, hmod⟩ := first_octet value prefixBits first (by omega) hp hf hflag
    simp only [if_pos hsmall, List.singleton_append, decodeInteger, hoctet, hmod]
  · obtain ⟨hoctet, hmod⟩ := first_octet (2 ^ prefixBits - 1) prefixBits first (by omega) hp hf hflag
    simp only [if_neg hsmall, List.cons_append, decodeInteger, hoctet, hmod, Nat.lt_irrefl,
      if_false]
    rw [decodeTail_encodeTail (value - (2 ^ prefixBits - 1)) (2 ^ prefixBits - 1) 0 5 rest
      (by omega) (by
        have : (128 : Nat) ^ 5 = 2 ^ 35 := by norm_num
        omega)]
    congr 2
    simp only [Nat.shiftLeft_zero]
    omega

theorem decodeString_wire (literal : Literal) (rest : List UInt8) (maxLength : Nat)
    (hsmall : literal.encoded.length < 2 ^ 35) (hlen : literal.encoded.length ≤ maxLength) :
    decodeString (literal.wire ++ rest) maxLength = .ok (textOf literal.octets, rest) := by
  have hflag : (if literal.huffman then 128 else 0) < 256 := by split <;> omega
  have hzero : (if literal.huffman then 128 else 0) % 2 ^ 7 = 0 := by split <;> rfl
  have hint := decodeInteger_encodeInteger literal.encoded.length 7
    (if literal.huffman then 128 else 0) (literal.encoded ++ rest) (by omega) (by omega) hflag
    hzero hsmall
  have hhead : ∃ octet tail, literal.wire ++ rest = octet :: tail ∧
      (decide (128 ≤ octet.toNat) = literal.huffman) := by
    have hbit : ∀ v, v < 2 ^ 7 →
        decide (128 ≤ (UInt8.ofNat ((if literal.huffman then 128 else 0) ||| v)).toNat) =
          literal.huffman := by
      intro v hv
      rw [(first_octet v 7 _ hv (by omega) hflag hzero).1]
      cases literal.huffman with
      | true => simpa using Nat.left_le_or
      | false => simpa using hv
    unfold Literal.wire encodeInteger
    simp only
    split
    · exact ⟨_, _, rfl, hbit _ (by omega)⟩
    · exact ⟨_, _, rfl, hbit _ (by omega)⟩
  obtain ⟨octet, tail, heq, hhuff⟩ := hhead
  have hwire : literal.wire ++ rest =
      encodeInteger literal.encoded.length 7 (if literal.huffman then 128 else 0) ++
        (literal.encoded ++ rest) := by
    rw [Literal.wire, List.append_assoc]
  have hmaxNot : ¬ maxLength < literal.encoded.length := by omega
  have hrestNot : ¬ (literal.encoded ++ rest).length < literal.encoded.length := by
    rw [List.length_append]
    omega
  have hread : decodeString (octet :: tail) maxLength =
      .ok (textOf literal.octets, rest) := by
    rw [← hwire, heq] at hint
    simp only [decodeString]
    rw [hint]
    simp only [if_neg hmaxNot, if_neg hrestNot, hhuff, List.take_left, List.drop_left]
    cases hh : literal.huffman with
    | true =>
        have henc : literal.encoded = huffmanEncode literal.octets := by simp [Literal.encoded, hh]
        simp [henc, huffmanDecode_huffmanEncode]
    | false =>
        have henc : literal.encoded = literal.octets := by simp [Literal.encoded, hh]
        simp [henc]
  rw [heq]
  exact hread

end Zuri.Http.H2
