import Mathlib.Data.List.Basic

/-!
Texts in UTF-8. A text is a list of characters; its octets are those of its characters one
after the other. An octet says by itself whether it begins a character, and if so how many
octets the character has.
-/

namespace Utf8

def encode (text : List Char) : List UInt8 := text.flatMap String.utf8EncodeChar

def byteLen (text : List Char) : Nat := (encode text).length

/-- Whether an octet may begin a character: it is not one of the continuing ones. -/
def starts (b : UInt8) : Bool := decide (b.toNat < 128) || decide (192 ≤ b.toNat)

/-- How many octets a character has that begins with this one. -/
def width (b : UInt8) : Nat :=
  if b.toNat < 128 then 1
  else if 192 ≤ b.toNat ∧ b.toNat < 224 then 2
  else if 224 ≤ b.toNat ∧ b.toNat < 240 then 3
  else 4

/-- What stands before an octet position and after it, where a character begins there. -/
def splitAt? : List Char → Nat → Option (List Char × List Char)
  | text, 0 => some ([], text)
  | [], _ + 1 => none
  | c :: text, n + 1 =>
      if c.utf8Size ≤ n + 1 then
        (splitAt? text (n + 1 - c.utf8Size)).map fun parts => (c :: parts.1, parts.2)
      else none

theorem encode_cons (c : Char) (text : List Char) :
    encode (c :: text) = String.utf8EncodeChar c ++ encode text := rfl

theorem encode_append (s t : List Char) : encode (s ++ t) = encode s ++ encode t :=
  List.flatMap_append

@[simp] theorem byteLen_nil : byteLen [] = 0 := rfl

@[simp] theorem byteLen_cons (c : Char) (text : List Char) :
    byteLen (c :: text) = c.utf8Size + byteLen text := by
  simp only [byteLen, encode_cons, List.length_append, String.length_utf8EncodeChar]

@[simp] theorem byteLen_append (s t : List Char) :
    byteLen (s ++ t) = byteLen s + byteLen t := by
  simp only [byteLen, encode_append, List.length_append]

theorem length_le_byteLen (text : List Char) : text.length ≤ byteLen text := by
  induction text with
  | nil => exact Nat.le_refl 0
  | cons c text ih =>
      have hpos := c.utf8Size_pos
      simp only [byteLen_cons, List.length_cons]
      omega

theorem toNat_ofNat {n : Nat} (h : n < 256) : (UInt8.ofNat n).toNat = n := by
  simp [Nat.mod_eq_of_lt h]

theorem starts_continuing (n : Nat) : starts (UInt8.ofNat (n % 0x40 + 0x80)) = false := by
  have hlt := Nat.mod_lt n (by decide : 0x40 > 0)
  simp only [starts, toNat_ofNat (by omega : n % 0x40 + 0x80 < 256), Bool.or_eq_false_iff,
    decide_eq_false_iff_not]
  omega

/-- The octet a character begins with and the ones that continue it. -/
theorem encodeChar_shape (c : Char) :
    ∃ lead rest, String.utf8EncodeChar c = lead :: rest ∧ starts lead = true ∧
      width lead = c.utf8Size ∧ ∀ b ∈ rest, starts b = false := by
  rw [← String.length_utf8EncodeChar c]
  simp only [String.utf8EncodeChar]
  split
  · next h =>
      have hlead := toNat_ofNat (by omega : c.val.toNat < 256)
      refine ⟨_, _, rfl, ?_, ?_, by simp⟩
      · simp only [starts, hlead, Bool.or_eq_true, decide_eq_true_eq]
        omega
      · simp only [width, hlead, List.length_singleton]
        rw [if_pos (by omega)]
  · split
    · have hlt := Nat.mod_lt (c.val.toNat / 64) (by decide : 0x20 > 0)
      have hlead := toNat_ofNat (by omega : c.val.toNat / 64 % 0x20 + 0xc0 < 256)
      refine ⟨_, _, rfl, ?_, ?_, ?_⟩
      · simp only [starts, hlead, Bool.or_eq_true, decide_eq_true_eq]
        omega
      · simp only [width, hlead, List.length_cons, List.length_nil]
        rw [if_neg (by omega), if_pos (by omega)]
      · intro b hb
        rw [List.mem_singleton.mp hb]
        exact starts_continuing _
    · split
      · have hlt := Nat.mod_lt (c.val.toNat / 4096) (by decide : 0x10 > 0)
        have hlead := toNat_ofNat (by omega : c.val.toNat / 4096 % 0x10 + 0xe0 < 256)
        refine ⟨_, _, rfl, ?_, ?_, ?_⟩
        · simp only [starts, hlead, Bool.or_eq_true, decide_eq_true_eq]
          omega
        · simp only [width, hlead, List.length_cons, List.length_nil]
          rw [if_neg (by omega), if_neg (by omega), if_pos (by omega)]
        · intro b hb
          simp only [List.mem_cons, List.not_mem_nil, or_false] at hb
          obtain rfl | rfl := hb <;> exact starts_continuing _
      · have hlt := Nat.mod_lt (c.val.toNat / 262144) (by decide : 0x08 > 0)
        have hlead := toNat_ofNat (by omega : c.val.toNat / 262144 % 0x08 + 0xf0 < 256)
        refine ⟨_, _, rfl, ?_, ?_, ?_⟩
        · simp only [starts, hlead, Bool.or_eq_true, decide_eq_true_eq]
          omega
        · simp only [width, hlead, List.length_cons, List.length_nil]
          rw [if_neg (by omega), if_neg (by omega), if_neg (by omega)]
        · intro b hb
          simp only [List.mem_cons, List.not_mem_nil, or_false] at hb
          obtain rfl | rfl | rfl := hb <;> exact starts_continuing _

theorem countP_starts_char (c : Char) : (String.utf8EncodeChar c).countP starts = 1 := by
  obtain ⟨lead, rest, hshape, hlead, -, hrest⟩ := encodeChar_shape c
  rw [hshape, List.countP_cons_of_pos hlead, List.countP_eq_zero.mpr]
  intro b hb
  simp [hrest b hb]

/-- As many octets begin a character as there are characters. -/
theorem countP_starts (text : List Char) : (encode text).countP starts = text.length := by
  induction text with
  | nil => rfl
  | cons c text ih =>
      rw [encode_cons, List.countP_append, countP_starts_char, ih, List.length_cons, Nat.add_comm]

/-- The octet where a character of the text begins says how long it is. -/
theorem encode_at (s : List Char) (c : Char) (t : List Char) :
    ∃ lead, (encode (s ++ c :: t))[byteLen s]? = some lead ∧ width lead = c.utf8Size := by
  obtain ⟨lead, rest, hshape, -, hwidth, -⟩ := encodeChar_shape c
  refine ⟨lead, ?_, hwidth⟩
  have hlen : byteLen s = (encode s).length := rfl
  rw [encode_append, hlen, List.getElem?_append_right (Nat.le_refl _), Nat.sub_self,
    encode_cons, hshape]
  rfl

theorem encode_all_ascii (text : List Char) :
    (encode text).all (fun b => decide (b.toNat < 128)) = text.all fun c => c.utf8Size == 1 := by
  induction text with
  | nil => rfl
  | cons c text ih =>
      rw [encode_cons, List.all_append, ih, List.all_cons]
      congr 1
      obtain ⟨lead, rest, hshape, -, hwidth, -⟩ := encodeChar_shape c
      have hlength := String.length_utf8EncodeChar c
      rw [hshape, List.length_cons] at hlength
      by_cases hone : lead.toNat < 128
      · have hsize : c.utf8Size = 1 := by rw [← hwidth, width, if_pos hone]
        have hrest : rest = [] := List.eq_nil_of_length_eq_zero (by omega)
        simp [hshape, hrest, hone, hsize]
      · have hsize : c.utf8Size ≠ 1 := by
          rw [← hwidth, width, if_neg hone]
          split <;> (try split) <;> omega
        simp [hshape, hone, hsize]

/-- Where every character has one octet, positions are character positions. -/
theorem byteLen_take_of_ascii {text : List Char} (h : text.all fun c => c.utf8Size == 1)
    (n : Nat) : byteLen (text.take n) = min n text.length := by
  induction text generalizing n with
  | nil => simp
  | cons c text ih =>
      simp only [List.all_cons, Bool.and_eq_true, beq_iff_eq] at h
      cases n with
      | zero => simp
      | succ n =>
          simp only [List.take_succ_cons, byteLen_cons, ih h.2 n, h.1, List.length_cons]
          omega

theorem byteLen_of_ascii {text : List Char} (h : text.all fun c => c.utf8Size == 1) :
    byteLen text = text.length := by
  have := byteLen_take_of_ascii h text.length
  rwa [List.take_length, Nat.min_self] at this

theorem byteLen_take_le (text : List Char) {m n : Nat} (h : m ≤ n) :
    byteLen (text.take m) ≤ byteLen (text.take n) := by
  obtain ⟨more, hmore⟩ := (List.take_prefix_take_left h : text.take m <+: text.take n)
  rw [← hmore, byteLen_append]
  exact Nat.le_add_right _ _

theorem byteLen_take_lt (text : List Char) {m n : Nat} (h : m < n) (hm : m < text.length) :
    byteLen (text.take m) < byteLen (text.take n) := by
  refine Nat.lt_of_lt_of_le ?_ (byteLen_take_le text (Nat.succ_le_of_lt h))
  rw [List.take_succ_eq_append_getElem hm, byteLen_append, byteLen_cons]
  have hpos := text[m].utf8Size_pos
  omega

@[simp] theorem splitAt?_append (s t : List Char) : splitAt? (s ++ t) (byteLen s) = some (s, t) := by
  induction s with
  | nil => simp [splitAt?]
  | cons c s ih =>
      have hpos := c.utf8Size_pos
      obtain ⟨n, hn⟩ : ∃ n, byteLen (c :: s) = n + 1 := ⟨byteLen (c :: s) - 1, by
        rw [byteLen_cons]; omega⟩
      have hrest : n + 1 - c.utf8Size = byteLen s := by rw [← hn, byteLen_cons]; omega
      rw [hn, List.cons_append, splitAt?, if_pos (by rw [← hn, byteLen_cons]; omega), hrest, ih]
      rfl

theorem splitAt?_take (text : List Char) (n : Nat) :
    splitAt? text (byteLen (text.take n)) = some (text.take n, text.drop n) := by
  have := splitAt?_append (text.take n) (text.drop n)
  rwa [List.take_append_drop] at this

end Utf8
