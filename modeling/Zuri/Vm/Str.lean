import Mathlib.Data.Nat.Bitwise
import Zuri.Coding.Utf8

/-!
Flat strings, which are reached into by character. What is known about a string's text is
noted down when something first asks: whether it is ASCII, and for a long text that is not,
where every so many characters a character starts. A query that would panic has no answer.
-/

namespace Zuri.Vm

open Utf8

/-- What is known of the text of a flat string; `strConcat` is for one that `+` produced. -/
inductive Form where
  | asciiUnknown
  | asciiYes
  | asciiNo
  | strConcat
  deriving DecidableEq

def isAsciiText (text : List Char) : Bool := (encode text).all fun b => decide (b.toNat < 128)

def countChars (bytes : List UInt8) : Nat := bytes.countP starts

/-- The byte position of each character, and the character. -/
def charIndices : List Char → Nat → List (Nat × Char)
  | [], _ => []
  | c :: text, offset => (offset, c) :: charIndices text (offset + c.utf8Size)

/-- A slice of a text by byte positions, which panics inside a character. -/
def strSlice (text : List Char) (start stop : Nat) : Option (List Char) := do
  if stop < start then none
  else
    let parts ← splitAt? text start
    let inner ← splitAt? parts.2 (stop - start)
    return inner.1

structure CharIndex where
  starts : List Nat
  chars : Nat
  deriving DecidableEq

namespace CharIndex

def stride : Nat := 64

def minBytes : Nat := 256

def scan : List UInt8 → Nat → Nat → List Nat × Nat
  | [], _, chars => ([], chars)
  | b :: bytes, offset, chars =>
      if Utf8.starts b then
        let rest := scan bytes (offset + 1) (chars + 1)
        (if chars % stride = 0 then offset % 2 ^ 32 :: rest.1 else rest.1, rest.2)
      else scan bytes (offset + 1) chars

def build (text : List Char) : CharIndex :=
  ⟨(scan (encode text) 0 0).1, (scan (encode text) 0 0).2⟩

def walk (bytes : List UInt8) : Nat → Nat → Option Nat
  | 0, offset => some offset
  | n + 1, offset => do
      let lead ← bytes[offset]?
      walk bytes n (offset + width lead)

/-- Byte offset of a character, which must not be past the end. -/
def byteOffset (i : CharIndex) (text : List Char) (index : Nat) : Option Nat :=
  if index = i.chars then some (byteLen text)
  else do
    let start ← i.starts[index / stride]?
    walk (encode text) (index % stride) start

/-- Character index of a byte offset, which must start a character or sit at the end. -/
def charOffset (i : CharIndex) (text : List Char) (offset : Nat) : Option Nat := do
  let point := (i.starts.takeWhile (· ≤ offset)).length
  if point = 0 then none
  else
    let start ← i.starts[point - 1]?
    if start ≤ offset ∧ offset ≤ byteLen text then
      return (point - 1) * stride +
        countChars (((encode text).drop start).take (offset - start))
    else none

end CharIndex

/-- A flat string. What has been noted down about its text is so. -/
structure FlatStr where
  text : List Char
  form : Form
  chars : Option CharIndex
  form_yes : form = .asciiYes → isAsciiText text = true
  form_no : form = .asciiNo → isAsciiText text = false
  chars_built : ∀ i, chars = some i → i = .build text

/-- A query of a string may note something down, and may panic. -/
abbrev ReadM := StateT FlatStr Option

namespace FlatStr

def flat (text : List Char) : FlatStr :=
  ⟨text, .asciiUnknown, none, by simp, by simp, by simp⟩

/-- What `+` produces. -/
def concat (text : List Char) : FlatStr :=
  ⟨text, .strConcat, none, by simp, by simp, by simp⟩

def classify (s : FlatStr) : FlatStr where
  text := s.text
  form := if isAsciiText s.text then .asciiYes else .asciiNo
  chars := s.chars
  form_yes := by cases isAsciiText s.text <;> simp
  form_no := by cases isAsciiText s.text <;> simp
  chars_built := s.chars_built

def keepIndex (s : FlatStr) : FlatStr where
  text := s.text
  form := s.form
  chars := some (.build s.text)
  form_yes := s.form_yes
  form_no := s.form_no
  chars_built := by
    intro i hi
    cases hi
    rfl

end FlatStr

def text : ReadM (List Char) := fun s => some (s.text, s)

def isAscii : ReadM Bool := fun s =>
  match s.form with
  | .asciiYes => some (true, s)
  | .asciiNo => some (false, s)
  | _ => some (isAsciiText s.text, s.classify)

def charIndex : ReadM (Option CharIndex) := do
  let text ← text
  if byteLen text < CharIndex.minBytes ∨ 2 ^ 32 - 1 < byteLen text then return none
  if ← isAscii then return none
  fun s =>
    match s.chars with
    | some i => some (some i, s)
    | none => some (some (.build s.text), s.keepIndex)

/-- The codepoint count of a string whose form does not give it. -/
def countedLen : ReadM Nat := do
  match ← charIndex with
  | some index => return index.chars
  | none => fun s => some (if s.form = .asciiYes then byteLen s.text else s.text.length, s)

def charLen : ReadM Nat := fun s =>
  match s.form with
  | .asciiYes => some (byteLen s.text, s)
  | .strConcat => some (s.text.length, s)
  | _ => countedLen s

/-- The walk over a text that has no index. -/
def walkTo (len index : Nat) : List (Nat × Char) → Nat → Option Nat
  | [], seen => if seen = index then some len else none
  | (offset, _) :: rest, seen =>
      if seen = index then some offset else walkTo len index rest (seen + 1)

/-- Byte offset of a character: the byte length at the end, and `none` past that. -/
def byteOffset (index : Nat) : ReadM (Option Nat) := do
  let text ← text
  if ← isAscii then return if index ≤ byteLen text then some index else none
  match ← charIndex with
  | some chars =>
      if index ≤ chars.chars then
        let offset ← (chars.byteOffset text index : Option Nat)
        return some offset
      else return none
  | none => return walkTo (byteLen text) index (charIndices text 0) 0

def charOffset (offset : Nat) : ReadM Nat := do
  let text ← text
  if ← isAscii then return offset
  match ← charIndex with
  | some chars => (chars.charOffset text offset : Option Nat)
  | none =>
      if offset ≤ byteLen text then return countChars ((encode text).take offset)
      else (none : Option Nat)

def charAt (index : Nat) : ReadM (Option Char) := do
  match ← byteOffset index with
  | none => return none
  | some offset =>
      let text ← text
      let parts ← (splitAt? text offset : Option (List Char × List Char))
      return parts.2.head?

/-- The characters from one up to another, which must be in order and within the string. -/
def charSlice (start stop : Nat) : ReadM (List Char) := do
  let text ← text
  if ← isAscii then (strSlice text start stop : Option (List Char))
  else
    let first := (← byteOffset start).getD (byteLen text)
    match ← charIndex with
    | some _ =>
        let last := (← byteOffset stop).getD (byteLen text)
        (strSlice text first last : Option (List Char))
    | none =>
        let rest ← (strSlice text first (byteLen text) : Option (List Char))
        let count := ((charIndices rest 0)[stop - start]?.map Prod.fst).getD (byteLen rest)
        (strSlice text first (first + count) : Option (List Char))

/-! The index of a text. -/

theorem isAsciiText_iff (text : List Char) :
    isAsciiText text = text.all fun c => c.utf8Size == 1 := encode_all_ascii text

theorem charIndices_getElem? (text : List Char) (offset n : Nat) :
    (charIndices text offset)[n]? =
      text[n]?.map fun c => (offset + byteLen (text.take n), c) := by
  induction text generalizing offset n with
  | nil => rfl
  | cons c text ih =>
      cases n with
      | zero => simp [charIndices]
      | succ n =>
          simp only [charIndices, List.getElem?_cons_succ, ih, List.take_succ_cons, byteLen_cons,
            Nat.add_assoc]

theorem strSlice_chars (text : List Char) {start stop : Nat} (h : start ≤ stop) :
    strSlice text (byteLen (text.take start)) (byteLen (text.take stop)) =
      some ((text.take stop).drop start) := by
  have hle := byteLen_take_le text h
  have hstop : byteLen (text.take stop) - byteLen (text.take start) =
      byteLen ((text.drop start).take (stop - start)) := by
    have hsplit : text.take stop = text.take start ++ (text.drop start).take (stop - start) := by
      rw [← List.take_add]
      congr 1
      omega
    rw [hsplit, byteLen_append]
    omega
  simp only [strSlice, Nat.not_lt.mpr hle, if_false, splitAt?_take, hstop, Option.bind_eq_bind,
    Option.bind_some]
  rw [List.drop_take]
  rfl

namespace CharIndex

/-- Past the octets that continue a character nothing is noted down. -/
theorem scan_continuing {bytes : List UInt8} (h : ∀ b ∈ bytes, Utf8.starts b = false)
    (more : List UInt8) (offset chars : Nat) :
    scan (bytes ++ more) offset chars = scan more (offset + bytes.length) chars := by
  induction bytes generalizing offset with
  | nil => rfl
  | cons b bytes ih =>
      rw [List.cons_append, scan, h b List.mem_cons_self, if_neg (by decide),
        ih (fun x hx => h x (List.mem_cons_of_mem b hx)), List.length_cons]
      congr 1
      omega

theorem scan_cons (c : Char) (text : List Char) (offset chars : Nat) :
    scan (encode (c :: text)) offset chars =
      (if chars % stride = 0 then
        offset % 2 ^ 32 :: (scan (encode text) (offset + c.utf8Size) (chars + 1)).1
      else (scan (encode text) (offset + c.utf8Size) (chars + 1)).1,
        (scan (encode text) (offset + c.utf8Size) (chars + 1)).2) := by
  obtain ⟨lead, rest, hshape, hlead, -, hrest⟩ := encodeChar_shape c
  have hlength : rest.length + 1 = c.utf8Size := by
    rw [← String.length_utf8EncodeChar c, hshape, List.length_cons]
  rw [encode_cons, hshape, List.cons_append, scan, if_pos hlead, scan_continuing hrest]
  have hoffset : offset + 1 + rest.length = offset + c.utf8Size := by omega
  rw [hoffset]

theorem scan_chars (text : List Char) (offset chars : Nat) :
    (scan (encode text) offset chars).2 = chars + text.length := by
  induction text generalizing offset chars with
  | nil => rfl
  | cons c text ih =>
      rw [scan_cons, ih, List.length_cons]
      omega

/-- Of the characters scanned, those that come at a multiple of the stride. -/
theorem scan_starts (text : List Char) (offset chars k : Nat)
    (hfits : offset + byteLen text < 2 ^ 32) :
    (scan (encode text) offset chars).1[k]? =
      if stride * ((chars + 63) / stride + k) - chars < text.length then
        some (offset + byteLen (text.take (stride * ((chars + 63) / stride + k) - chars)))
      else none := by
  induction text generalizing offset chars k with
  | nil => simp [encode, scan]
  | cons c text ih =>
      rw [byteLen_cons] at hfits
      have hrest := fun k => ih (offset + c.utf8Size) (chars + 1) k (by omega)
      have hstride : stride = 64 := rfl
      rw [scan_cons]
      by_cases hzero : chars % stride = 0
      · rw [if_pos hzero]
        cases k with
        | zero =>
            have hat : stride * ((chars + 63) / stride + 0) - chars = 0 := by
              rw [hstride] at hzero ⊢
              omega
            rw [hat, if_pos (by simp), List.getElem?_cons_zero, Nat.mod_eq_of_lt (by omega)]
            simp
        | succ k =>
            have hat : stride * ((chars + 63) / stride + (k + 1)) - chars =
                stride * ((chars + 1 + 63) / stride + k) - (chars + 1) + 1 := by
              rw [hstride] at hzero ⊢
              omega
            rw [List.getElem?_cons_succ, hrest k, hat, List.length_cons, List.take_succ_cons,
              byteLen_cons]
            simp only [Nat.add_lt_add_iff_right, Nat.add_assoc]
      · rw [if_neg hzero]
        have hat : stride * ((chars + 63) / stride + k) - chars =
            stride * ((chars + 1 + 63) / stride + k) - (chars + 1) + 1 := by
          rw [hstride] at hzero ⊢
          omega
        rw [hrest k, hat, List.length_cons, List.take_succ_cons, byteLen_cons]
        simp only [Nat.add_lt_add_iff_right, Nat.add_assoc]

@[simp] theorem build_chars (text : List Char) : (build text).chars = text.length := by
  rw [build, scan_chars, Nat.zero_add]

theorem build_starts {text : List Char} (hfits : byteLen text < 2 ^ 32) (k : Nat) :
    (build text).starts[k]? =
      if stride * k < text.length then some (byteLen (text.take (stride * k))) else none := by
  have hscan := scan_starts text 0 0 k (by omega)
  have hat : stride * ((0 + 63) / stride + k) - 0 = stride * k := by simp [stride]
  rw [hat, Nat.zero_add] at hscan
  exact hscan

theorem walk_take (text : List Char) {m n : Nat} (h : m + n ≤ text.length) :
    walk (encode text) n (byteLen (text.take m)) = some (byteLen (text.take (m + n))) := by
  induction n generalizing m with
  | zero => rfl
  | succ n ih =>
      have hm : m < text.length := by omega
      obtain ⟨lead, hlead, hwidth⟩ := encode_at (text.take m) text[m] (text.drop (m + 1))
      rw [List.getElem_cons_drop, List.take_append_drop] at hlead
      have hnext : byteLen (text.take m) + width lead = byteLen (text.take (m + 1)) := by
        rw [hwidth, List.take_succ_eq_append_getElem hm, byteLen_append]
        simp
      rw [walk, hlead]
      simp only [Option.bind_eq_bind, Option.bind_some, hnext]
      rw [ih (by omega)]
      congr 3
      omega

theorem build_byteOffset {text : List Char} (hfits : byteLen text < 2 ^ 32) {index : Nat}
    (h : index ≤ text.length) :
    (build text).byteOffset text index = some (byteLen (text.take index)) := by
  rw [CharIndex.byteOffset, build_chars]
  by_cases hend : index = text.length
  · rw [if_pos hend, hend, List.take_length]
  · have hdiv := Nat.div_add_mod index stride
    rw [if_neg hend, build_starts hfits, if_pos (by omega)]
    simp only [Option.bind_eq_bind, Option.bind_some]
    rw [walk_take text (by omega), hdiv]

theorem length_takeWhile {α : Type} {p : α → Bool} {xs : List α} {n : Nat} (hn : n ≤ xs.length)
    (h : ∀ k x, xs[k]? = some x → (p x = true ↔ k < n)) : (xs.takeWhile p).length = n := by
  induction xs generalizing n with
  | nil => simp at hn; simp [hn]
  | cons x xs ih =>
      have hx := h 0 x rfl
      cases n with
      | zero => rw [List.takeWhile_cons_of_neg (by simp [hx]), List.length_nil]
      | succ n =>
          rw [List.takeWhile_cons_of_pos (hx.mpr (Nat.succ_pos n)), List.length_cons,
            ih (Nat.le_of_succ_le_succ hn)]
          intro k y hy
          rw [h (k + 1) y hy, Nat.succ_lt_succ_iff]

/-- The last character noted down that is not past a byte offset. -/
theorem build_point {text : List Char} (hfits : byteLen text < 2 ^ 32) (hne : text ≠ [])
    {index : Nat} (h : index ≤ text.length) :
    ((build text).starts.takeWhile (· ≤ byteLen (text.take index))).length =
      min index (text.length - 1) / stride + 1 := by
  have hpos := List.length_pos_iff.mpr hne
  have hstride : stride = 64 := rfl
  refine length_takeWhile ?_ fun k x hx => ?_
  · by_contra hlt
    have hnone : (build text).starts[min index (text.length - 1) / stride]? = none :=
      List.getElem?_eq_none (by omega)
    rw [build_starts hfits] at hnone
    have hmul := Nat.mul_div_le (min index (text.length - 1)) stride
    rw [if_pos (by omega)] at hnone
    cases hnone
  · rw [build_starts hfits] at hx
    by_cases hk : stride * k < text.length
    · rw [if_pos hk, Option.some_inj] at hx
      rw [decide_eq_true_eq, ← hx]
      have hiff : byteLen (text.take (stride * k)) ≤ byteLen (text.take index) ↔
          stride * k ≤ index := by
        refine ⟨fun hle => ?_, byteLen_take_le text⟩
        by_contra hlt
        have := byteLen_take_lt text (Nat.lt_of_not_le hlt) (by omega)
        omega
      rw [hiff]
      rw [hstride] at hk ⊢
      omega
    · rw [if_neg hk] at hx
      cases hx

theorem countChars_between (text : List Char) {m n : Nat} (h : m ≤ n) (hn : n ≤ text.length) :
    countChars (((encode text).drop (byteLen (text.take m))).take
      (byteLen (text.take n) - byteLen (text.take m))) = n - m := by
  have hsplit : text = text.take m ++ ((text.drop m).take (n - m) ++ text.drop n) := by
    have hdrop : (text.drop m).drop (n - m) = text.drop n := by
      rw [List.drop_drop]
      congr 1
      omega
    rw [← hdrop, List.take_append_drop, List.take_append_drop]
  have htake : text.take n = text.take m ++ (text.drop m).take (n - m) := by
    rw [← List.take_add]
    congr 1
    omega
  have hlen : byteLen (text.take n) - byteLen (text.take m) =
      (encode ((text.drop m).take (n - m))).length := by
    rw [htake, byteLen_append]
    simp only [byteLen]
    omega
  have hbytes : (encode text).drop (byteLen (text.take m)) =
      encode ((text.drop m).take (n - m)) ++ encode (text.drop n) := by
    have hwhole : encode text = encode (text.take m) ++
        (encode ((text.drop m).take (n - m)) ++ encode (text.drop n)) := by
      conv_lhs => rw [hsplit]
      rw [encode_append, encode_append]
    rw [hwhole]
    exact List.drop_left
  rw [hlen, hbytes, List.take_left, countChars, countP_starts, List.length_take,
    List.length_drop]
  omega

theorem build_charOffset {text : List Char} (hfits : byteLen text < 2 ^ 32) (hne : text ≠ [])
    {index : Nat} (h : index ≤ text.length) :
    (build text).charOffset text (byteLen (text.take index)) = some index := by
  have hpos := List.length_pos_iff.mpr hne
  have hmul := Nat.mul_div_le (min index (text.length - 1)) stride
  have hle : stride * (min index (text.length - 1) / stride) ≤ index := by omega
  have hbytes := byteLen_take_le text hle
  have hend : byteLen (text.take index) ≤ byteLen text := by
    have := byteLen_take_le text h
    rwa [List.take_length] at this
  simp only [CharIndex.charOffset, build_point hfits hne h, Nat.add_sub_cancel,
    Nat.succ_ne_zero, if_false, Option.bind_eq_bind]
  rw [build_starts hfits, if_pos (by omega), Option.bind_some, if_pos ⟨hbytes, hend⟩,
    countChars_between text hle h]
  have : min index (text.length - 1) / stride * stride +
      (index - stride * (min index (text.length - 1) / stride)) = index := by
    rw [Nat.mul_comm]
    omega
  rw [this]
  rfl

end CharIndex

/-! Every query answers what the text says and leaves the text as it was. -/

def Answers {α : Type} (s : FlatStr) (m : ReadM α) (a : α) : Prop :=
  ∃ t, m s = some (a, t) ∧ t.text = s.text

namespace Answers

variable {α β : Type} {s : FlatStr}

theorem pure (a : α) : Answers s (Pure.pure a) a := ⟨s, rfl, rfl⟩

theorem lift {x : Option α} {a : α} (h : x = some a) : Answers s (liftM x) a :=
  ⟨s, by rw [h]; rfl, rfl⟩

theorem bind {m : ReadM α} {k : α → ReadM β} {a : α} {b : β} (h : Answers s m a)
    (hk : ∀ t : FlatStr, t.text = s.text → Answers t (k a) b) : Answers s (m >>= k) b := by
  obtain ⟨t, ht, htext⟩ := h
  obtain ⟨u, hu, hutext⟩ := hk t htext
  refine ⟨u, ?_, hutext.trans htext⟩
  simp only [Bind.bind, StateT.bind, ht, Option.bind_some, hu]

end Answers

theorem answers_text (s : FlatStr) : Answers s text s.text := ⟨s, rfl, rfl⟩

theorem answers_isAscii (s : FlatStr) : Answers s isAscii (isAsciiText s.text) := by
  unfold isAscii
  cases hform : s.form with
  | asciiYes => exact ⟨s, by simp only [hform, s.form_yes hform], rfl⟩
  | asciiNo => exact ⟨s, by simp only [hform, s.form_no hform], rfl⟩
  | asciiUnknown => exact ⟨s.classify, by simp only [hform], rfl⟩
  | strConcat => exact ⟨s.classify, by simp only [hform], rfl⟩

/-- Whether a text is one that has an index. -/
def isIndexed (text : List Char) : Bool :=
  decide (CharIndex.minBytes ≤ byteLen text) && decide (byteLen text < 2 ^ 32) &&
    !isAsciiText text

theorem answers_charIndex (s : FlatStr) :
    Answers s charIndex (if isIndexed s.text then some (.build s.text) else none) := by
  refine (answers_text s).bind fun t ht => ?_
  by_cases hsize : byteLen s.text < CharIndex.minBytes ∨ 2 ^ 32 - 1 < byteLen s.text
  · have hnot : isIndexed s.text = false := by
      simp only [isIndexed, Bool.and_eq_false_iff, decide_eq_false_iff_not]
      omega
    rw [if_pos hsize, hnot]
    exact Answers.pure _
  · rw [if_neg hsize]
    refine (answers_isAscii t).bind fun u hu => ?_
    cases hascii : isAsciiText t.text with
    | true =>
        have hnot : isIndexed s.text = false := by
          rw [ht] at hascii
          simp [isIndexed, hascii]
        rw [hnot]
        exact Answers.pure _
    | false =>
        have hyes : isIndexed s.text = true := by
          rw [ht] at hascii
          simp only [isIndexed, hascii, Bool.not_false, Bool.and_true, Bool.and_eq_true,
            decide_eq_true_eq]
          omega
        rw [if_neg (by decide), if_pos hyes, ← ht, ← hu]
        cases hchars : u.chars with
        | some i => exact ⟨u, by simp only [hchars, u.chars_built i hchars], rfl⟩
        | none => exact ⟨u.keepIndex, by simp only [hchars], rfl⟩

theorem byteLen_lt_of_isIndexed {text : List Char} (h : isIndexed text = true) :
    byteLen text < 2 ^ 32 := by
  simp only [isIndexed, Bool.and_eq_true, decide_eq_true_eq] at h
  exact h.1.2

theorem ne_nil_of_isIndexed {text : List Char} (h : isIndexed text = true) : text ≠ [] := by
  intro hnil
  rw [hnil] at h
  cases h

theorem walkTo_charIndices (text : List Char) (len index offset seen : Nat)
    (hseen : seen ≤ index) (hlen : len = offset + byteLen text) :
    walkTo len index (charIndices text offset) seen =
      if index - seen ≤ text.length then some (offset + byteLen (text.take (index - seen)))
      else none := by
  induction text generalizing offset seen with
  | nil =>
      simp only [charIndices, walkTo, List.length_nil, List.take_nil, byteLen_nil, hlen]
      by_cases heq : seen = index
      · rw [if_pos heq, if_pos (by omega)]
      · rw [if_neg heq, if_neg (by omega)]
  | cons c text ih =>
      rw [byteLen_cons, ← Nat.add_assoc] at hlen
      simp only [charIndices, walkTo]
      by_cases heq : seen = index
      · rw [if_pos heq, if_pos (by omega)]
        simp [heq]
      · obtain ⟨n, hn⟩ : ∃ n, index - seen = n + 1 := ⟨index - seen - 1, by omega⟩
        have hn' : index - (seen + 1) = n := by omega
        rw [if_neg heq, ih (offset + c.utf8Size) (seen + 1) (by omega) hlen, hn, hn',
          List.length_cons, List.take_succ_cons, byteLen_cons]
        simp only [Nat.add_le_add_iff_right, Nat.add_assoc]

/-- The byte position of a character, and of the end. -/
def offsetOf (text : List Char) (index : Nat) : Option Nat :=
  if index ≤ text.length then some (byteLen (text.take index)) else none

theorem answers_byteOffset (s : FlatStr) (index : Nat) :
    Answers s (byteOffset index) (offsetOf s.text index) := by
  refine (answers_text s).bind fun t ht => ?_
  refine (answers_isAscii t).bind fun u hu => ?_
  rw [ht]
  cases hascii : isAsciiText s.text with
  | true =>
      have hall := (isAsciiText_iff s.text).symm.trans hascii
      have hwhole := byteLen_of_ascii hall
      have heq : (if index ≤ byteLen s.text then some index else none) = offsetOf s.text index := by
        rw [offsetOf, hwhole, byteLen_take_of_ascii hall]
        split
        · rw [Nat.min_eq_left (by assumption)]
        · rfl
      rw [if_pos rfl, heq]
      exact Answers.pure _
  | false =>
      rw [if_neg (by decide)]
      refine (answers_charIndex u).bind fun w hw => ?_
      rw [hu, ht]
      cases hindexed : isIndexed s.text with
      | true =>
          rw [if_pos rfl]
          simp only [CharIndex.build_chars]
          by_cases hle : index ≤ s.text.length
          · rw [if_pos hle, offsetOf, if_pos hle]
            refine (Answers.lift (CharIndex.build_byteOffset
              (byteLen_lt_of_isIndexed hindexed) hle)).bind fun x _ => Answers.pure _
          · rw [if_neg hle, offsetOf, if_neg hle]
            exact Answers.pure _
      | false =>
          rw [if_neg (by decide)]
          simp only
          rw [walkTo_charIndices s.text _ index 0 0 (Nat.zero_le _) (Nat.zero_add _).symm]
          simp only [Nat.sub_zero, Nat.zero_add]
          exact Answers.pure _

theorem answers_charOffset (s : FlatStr) {index : Nat} (h : index ≤ s.text.length) :
    Answers s (charOffset (byteLen (s.text.take index))) index := by
  refine (answers_text s).bind fun t ht => ?_
  refine (answers_isAscii t).bind fun u hu => ?_
  rw [ht]
  cases hascii : isAsciiText s.text with
  | true =>
      have hall := (isAsciiText_iff s.text).symm.trans hascii
      rw [if_pos rfl, byteLen_take_of_ascii hall, Nat.min_eq_left h]
      exact Answers.pure _
  | false =>
      rw [if_neg (by decide)]
      refine (answers_charIndex u).bind fun w hw => ?_
      rw [hu, ht]
      cases hindexed : isIndexed s.text with
      | true =>
          rw [if_pos rfl]
          exact Answers.lift (CharIndex.build_charOffset (byteLen_lt_of_isIndexed hindexed)
            (ne_nil_of_isIndexed hindexed) h)
      | false =>
          have hend : byteLen (s.text.take index) ≤ byteLen s.text := by
            have := byteLen_take_le s.text h
            rwa [List.take_length] at this
          have hcount := CharIndex.countChars_between s.text (Nat.zero_le index) h
          simp only [List.take_zero, byteLen_nil, List.drop_zero, Nat.sub_zero] at hcount
          rw [if_neg (by decide)]
          simp only [if_pos hend, hcount]
          exact Answers.pure _

theorem answers_charAt (s : FlatStr) (index : Nat) : Answers s (charAt index) s.text[index]? := by
  refine (answers_byteOffset s index).bind fun t ht => ?_
  by_cases hle : index ≤ s.text.length
  · rw [offsetOf, if_pos hle]
    refine (answers_text t).bind fun u hu => ?_
    rw [ht]
    refine (Answers.lift (splitAt?_take s.text index)).bind fun w _ => ?_
    rw [List.head?_drop]
    exact Answers.pure _
  · rw [offsetOf, if_neg hle, List.getElem?_eq_none (by omega)]
    exact Answers.pure _

theorem answers_countedLen (s : FlatStr) : Answers s countedLen s.text.length := by
  refine (answers_charIndex s).bind fun t ht => ?_
  cases hindexed : isIndexed s.text with
  | true =>
      rw [if_pos rfl]
      simp only [CharIndex.build_chars]
      exact Answers.pure _
  | false =>
      rw [if_neg (by decide)]
      refine ⟨t, ?_, rfl⟩
      by_cases hyes : t.form = .asciiYes
      · simp only [if_pos hyes, ht]
        rw [byteLen_of_ascii ((isAsciiText_iff _).symm.trans (ht ▸ t.form_yes hyes))]
      · simp only [if_neg hyes, ht]

theorem answers_charLen (s : FlatStr) : Answers s charLen s.text.length := by
  cases hform : s.form with
  | asciiYes =>
      refine ⟨s, ?_, rfl⟩
      simp only [charLen, hform]
      rw [byteLen_of_ascii ((isAsciiText_iff _).symm.trans (s.form_yes hform))]
  | strConcat => exact ⟨s, by simp only [charLen, hform], rfl⟩
  | asciiUnknown =>
      obtain ⟨t, ht, htext⟩ := answers_countedLen s
      exact ⟨t, by simp only [charLen, hform, ht], htext⟩
  | asciiNo =>
      obtain ⟨t, ht, htext⟩ := answers_countedLen s
      exact ⟨t, by simp only [charLen, hform, ht], htext⟩

theorem answers_charSlice (s : FlatStr) {start stop : Nat} (h : start ≤ stop)
    (hstop : stop ≤ s.text.length) :
    Answers s (charSlice start stop) ((s.text.take stop).drop start) := by
  refine (answers_text s).bind fun t ht => ?_
  refine (answers_isAscii t).bind fun u hu => ?_
  rw [ht]
  have hslice := strSlice_chars s.text h
  cases hascii : isAsciiText s.text with
  | true =>
      have hall := (isAsciiText_iff s.text).symm.trans hascii
      rw [byteLen_take_of_ascii hall, byteLen_take_of_ascii hall, Nat.min_eq_left hstop,
        Nat.min_eq_left (by omega)] at hslice
      rw [if_pos rfl]
      exact Answers.lift hslice
  | false =>
      rw [if_neg (by decide)]
      refine (answers_byteOffset u start).bind fun v hv => ?_
      rw [hu, ht, offsetOf, if_pos (by omega)]
      refine (answers_charIndex v).bind fun w hw => ?_
      rw [hv, hu, ht]
      cases hindexed : isIndexed s.text with
      | true =>
          rw [if_pos rfl]
          refine (answers_byteOffset w stop).bind fun x hx => ?_
          rw [hw, hv, hu, ht, offsetOf, if_pos hstop]
          exact Answers.lift hslice
      | false =>
          rw [if_neg (by decide)]
          have hrest := strSlice_chars s.text (by omega : start ≤ s.text.length)
          rw [List.take_length] at hrest
          simp only [Option.getD_some]
          refine (Answers.lift hrest).bind fun x _ => ?_
          have hcount : ((charIndices (s.text.drop start) 0)[stop - start]?.map Prod.fst).getD
              (byteLen (s.text.drop start)) = byteLen ((s.text.drop start).take (stop - start)) := by
            rw [charIndices_getElem?]
            by_cases hin : stop - start < (s.text.drop start).length
            · rw [List.getElem?_eq_getElem hin]
              simp
            · rw [List.getElem?_eq_none (by omega), List.take_of_length_le (by omega)]
              rfl
          have hwhole : byteLen (s.text.take start) +
              byteLen ((s.text.drop start).take (stop - start)) = byteLen (s.text.take stop) := by
            rw [← byteLen_append, ← List.take_add]
            congr 2
            omega
          rw [hcount, hwhole]
          exact Answers.lift hslice

/-- Whatever has been noted down of a string, reaching into it by character answers as
decoding its text character by character would, without a panic, and leaves the text alone. -/
theorem characters_exact (s : FlatStr) :
    Answers s charLen s.text.length ∧
      (∀ index, Answers s (byteOffset index)
        (if index ≤ s.text.length then some (byteLen (s.text.take index)) else none)) ∧
      (∀ index, index ≤ s.text.length →
        Answers s (charOffset (byteLen (s.text.take index))) index) ∧
      (∀ index, Answers s (charAt index) s.text[index]?) ∧
      ∀ start stop, start ≤ stop → stop ≤ s.text.length →
        Answers s (charSlice start stop) ((s.text.take stop).drop start) :=
  ⟨answers_charLen s, answers_byteOffset s, fun _ => answers_charOffset s, answers_charAt s,
    fun _ _ => answers_charSlice s⟩

end Zuri.Vm
