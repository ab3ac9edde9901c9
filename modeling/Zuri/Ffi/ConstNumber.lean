import Zuri.Ffi.ConstExpr

/-!
Integer constants, in any base and with a suffix, and character constants: how they are spelled in C,
and what the reader makes of the text. Floating constants are left out.
-/

namespace Zuri.Cdecl

/-- The digit that a character is in a radix. -/
def digitOf (radix : Nat) (c : Char) : Option Nat :=
  let d := if '0' ≤ c ∧ c ≤ '9' then some (c.toNat - 48)
    else if 'a' ≤ c ∧ c ≤ 'z' then some (c.toNat - 87) else none
  d.filter (· < radix)

/-- `u128::from_str_radix`, of digits without a sign. -/
def fromRadix (radix : Nat) (digits : Text) : Option Nat :=
  if digits.isEmpty then none
  else
    (digits.foldl (fun value c => value.bind fun v => (digitOf radix c).map (v * radix + ·))
      (some 0)).filter (· < 2 ^ 128)

/-- The token of an integer constant. -/
def number (text : Text) : Option Tok :=
  let lower := text.map Char.toLower
  let isHex := "0x".toList.isPrefixOf lower
  let isFloat := if isHex then lower.contains 'p' || lower.contains '.'
    else lower.contains '.' || lower.contains 'e'
  if isFloat then none
  else
    let digitsEnd := lower.findIdx fun c => c == 'u' || c == 'l' || (!isHex && c == 'i')
    let digits := lower.take digitsEnd
    let unsigned := (lower.drop digitsEnd).contains 'u'
    let value :=
      if "0x".toList.isPrefixOf digits then fromRadix 16 (digits.drop 2)
      else if "0b".toList.isPrefixOf digits then fromRadix 2 (digits.drop 2)
      else if 1 < digits.length && digits.head? == some '0' then fromRadix 8 digits.tail
      else fromRadix 10 digits
    value.map fun v => .int (wrap v) unsigned

inductive Base where
  | dec | oct | hex | bin
  deriving DecidableEq

def Base.radix : Base → Nat
  | .dec => 10
  | .oct => 8
  | .hex => 16
  | .bin => 2

def Base.start : Base → Text
  | .dec => []
  | .oct => ['0']
  | .hex => ['0', 'x']
  | .bin => ['0', 'b']

/-- An integer constant of C: a base, digits and a suffix. -/
structure Literal where
  base : Base
  digits : List Nat
  unsigned : Bool
  longs : Nat
  unsignedLast : Bool := false
  below : ∀ d ∈ digits, d < base.radix
  given : base ≠ .oct → digits ≠ []
  leading : base = .dec → digits.head? ≠ some 0

def Literal.value (l : Literal) : Nat := l.digits.foldl (fun v d => v * l.base.radix + d) 0

def Literal.decimal (l : Literal) : Bool := l.base == .dec

def digitChar (d : Nat) : Char := if d < 10 then Char.ofNat (48 + d) else Char.ofNat (87 + d)

def Literal.suffix (l : Literal) : Text :=
  let u := if l.unsigned then ['u'] else []
  let longs := List.replicate l.longs 'l'
  if l.unsignedLast then longs ++ u else u ++ longs

/-- The text in small letters. -/
def Literal.text (l : Literal) : Text := l.base.start ++ (l.digits.map digitChar ++ l.suffix)

/-- The letters and the digits that constants are made of. -/
theorem digitChar_spec {radix d : Nat} (hradix : radix ≤ 16) (hd : d < radix) :
    digitOf radix (digitChar d) = some d ∧ digitChar d ≠ 'u' ∧ digitChar d ≠ 'l' ∧
      digitChar d ≠ 'i' ∧ digitChar d ≠ 'p' ∧ digitChar d ≠ '.' ∧ digitChar d ≠ 'x' ∧
      (d < 10 → digitChar d ≠ 'e' ∧ digitChar d ≠ 'b') ∧ (d ≠ 0 → digitChar d ≠ '0') := by
  have hall : ∀ d < 16, (digitOf 16 (digitChar d) = some d ∧ digitChar d ≠ 'u' ∧
      digitChar d ≠ 'l' ∧ digitChar d ≠ 'i' ∧ digitChar d ≠ 'p' ∧ digitChar d ≠ '.' ∧
      digitChar d ≠ 'x' ∧ (d < 10 → digitChar d ≠ 'e' ∧ digitChar d ≠ 'b') ∧
      (d ≠ 0 → digitChar d ≠ '0')) := by decide
  obtain ⟨hdigit, hrest⟩ := hall d (by omega)
  refine ⟨?_, hrest⟩
  rw [digitOf, Option.filter_eq_some_iff] at hdigit ⊢
  exact ⟨hdigit.1, by simpa using hd⟩

theorem foldl_digits {radix : Nat} (hradix : radix ≤ 16) (digits : List Nat)
    (hbelow : ∀ d ∈ digits, d < radix) (v : Nat) :
    (digits.map digitChar).foldl
      (fun value c => value.bind fun v => (digitOf radix c).map (v * radix + ·)) (some v) =
      some (digits.foldl (fun v d => v * radix + d) v) := by
  induction digits generalizing v with
  | nil => rfl
  | cons d digits ih =>
    rw [List.map_cons, List.foldl_cons, List.foldl_cons, Option.bind_some,
      (digitChar_spec hradix (hbelow d List.mem_cons_self)).1, Option.map_some]
    exact ih (fun x hx => hbelow x (List.mem_cons_of_mem _ hx)) _

theorem fromRadix_digits {radix : Nat} (hradix : radix ≤ 16) {digits : List Nat}
    (hbelow : ∀ d ∈ digits, d < radix) (hne : digits ≠ [])
    (hsmall : digits.foldl (fun v d => v * radix + d) 0 < 2 ^ 128) :
    fromRadix radix (digits.map digitChar) =
      some (digits.foldl (fun v d => v * radix + d) 0) := by
  rw [fromRadix, if_neg (by simpa using hne), foldl_digits hradix digits hbelow,
    Option.filter_some, if_pos (by simpa using hsmall)]

theorem suffix_mem {l : Literal} {c : Char} (hc : c ∈ l.suffix) : c = 'u' ∨ c = 'l' := by
  rw [Literal.suffix] at hc
  split at hc <;> split at hc <;> simp [List.mem_replicate] at hc <;> tauto

theorem suffix_unsigned (l : Literal) : l.suffix.contains 'u' = l.unsigned := by
  rw [Literal.suffix]
  cases l.unsigned <;> split <;> simp [List.mem_replicate]

/-- The part of the text before the suffix. -/
def Literal.stem (l : Literal) : Text := l.base.start ++ l.digits.map digitChar

theorem text_eq (l : Literal) : l.text = l.stem ++ l.suffix := by
  rw [Literal.text, Literal.stem, List.append_assoc]

theorem radix_le (base : Base) : base.radix ≤ 16 := by cases base <;> decide

theorem stem_mem {l : Literal} {c : Char} (hc : c ∈ l.stem) :
    c ≠ 'u' ∧ c ≠ 'l' ∧ c ≠ 'i' ∧ c ≠ 'p' ∧ c ≠ '.' ∧ (l.base ≠ .hex → c ≠ 'e') := by
  rcases List.mem_append.1 hc with hc | hc
  · cases hbase : l.base <;> rw [hbase] at hc <;> simp [Base.start] at hc <;>
      rcases hc with rfl | rfl <;> decide
  · obtain ⟨d, hd, rfl⟩ := List.mem_map.1 hc
    have hbelow := l.below d hd
    obtain ⟨-, hu, hl, hi, hp, hdot, -, he, -⟩ := digitChar_spec (radix_le l.base) hbelow
    refine ⟨hu, hl, hi, hp, hdot, fun hhex => (he ?_).1⟩
    cases hbase : l.base <;> rw [hbase] at hbelow hhex <;> simp only [Base.radix] at hbelow
    case hex => exact absurd rfl hhex
    all_goals omega

/-- The text starts as a hexadecimal constant if it is one. -/
theorem stem_hex (l : Literal) (rest : Text) (hrest : rest.head? ≠ some 'x') :
    ['0', 'x'].isPrefixOf (l.stem ++ rest) = (l.base == .hex) := by
  rw [Literal.stem]
  cases hbase : l.base with
  | hex => rfl
  | bin => rfl
  | oct =>
    change ('0' == '0' && ['x'].isPrefixOf _) = false
    cases hdigits : l.digits with
    | nil =>
      cases rest with
      | nil => rfl
      | cons c rest =>
        have hc : c ≠ 'x' := fun h => hrest (by rw [h]; rfl)
        simp [List.isPrefixOf, hc.symm]
    | cons d digits =>
      have hd := l.below d (by rw [hdigits]; exact List.mem_cons_self)
      obtain ⟨-, -, -, -, -, -, hx, -⟩ := digitChar_spec (radix_le l.base) hd
      simp [List.isPrefixOf, hx.symm]
  | dec =>
    cases hdigits : l.digits with
    | nil => exact absurd hdigits (l.given (by rw [hbase]; decide))
    | cons d digits =>
      have hd := l.below d (by rw [hdigits]; exact List.mem_cons_self)
      have hne : d ≠ 0 := fun h => l.leading hbase (by rw [hdigits, h]; rfl)
      have hzero := (digitChar_spec (radix_le l.base) hd).2.2.2.2.2.2.2.2 hne
      have hbeq : ('0' == digitChar d) = false := beq_false_of_ne hzero.symm
      simp only [Base.start, List.nil_append, List.map_cons, List.cons_append, List.isPrefixOf,
        hbeq, Bool.false_and]
      rfl

theorem stem_bin (l : Literal) :
    ['0', 'b'].isPrefixOf l.stem = (l.base == .bin) := by
  rw [Literal.stem]
  cases hbase : l.base with
  | hex => rfl
  | bin => rfl
  | oct =>
    change ('0' == '0' && ['b'].isPrefixOf _) = false
    cases hdigits : l.digits with
    | nil => rfl
    | cons d digits =>
      have hd := l.below d (by rw [hdigits]; exact List.mem_cons_self)
      rw [hbase] at hd
      have hten : d < 10 := Nat.lt_trans hd (by decide)
      have hb := ((digitChar_spec (by decide) hd).2.2.2.2.2.2.2.1 hten).2
      simp [List.isPrefixOf, hb.symm]
  | dec =>
    cases hdigits : l.digits with
    | nil => exact absurd hdigits (l.given (by rw [hbase]; decide))
    | cons d digits =>
      have hd := l.below d (by rw [hdigits]; exact List.mem_cons_self)
      have hne : d ≠ 0 := fun h => l.leading hbase (by rw [hdigits, h]; rfl)
      have hzero := (digitChar_spec (radix_le l.base) hd).2.2.2.2.2.2.2.2 hne
      have hbeq : ('0' == digitChar d) = false := beq_false_of_ne hzero.symm
      simp only [Base.start, List.nil_append, List.map_cons, List.isPrefixOf,
        hbeq, Bool.false_and]
      rfl

/-- The digits of the stem are read in its base. -/
theorem stem_value (l : Literal) (hsmall : l.value < 2 ^ 128) :
    (if "0x".toList.isPrefixOf l.stem then fromRadix 16 (l.stem.drop 2)
      else if "0b".toList.isPrefixOf l.stem then fromRadix 2 (l.stem.drop 2)
      else if 1 < l.stem.length && l.stem.head? == some '0' then fromRadix 8 l.stem.tail
      else fromRadix 10 l.stem) = some l.value := by
  have hhex := stem_hex l [] (by decide)
  rw [List.append_nil] at hhex
  change (if ['0', 'x'].isPrefixOf l.stem then _ else if ['0', 'b'].isPrefixOf l.stem then _
    else _) = _
  rw [hhex, stem_bin, Literal.stem]
  have hread := fun hne => fromRadix_digits (radix_le l.base) l.below hne hsmall
  rw [Literal.value]
  cases hbase : l.base with
  | hex =>
    rw [hbase] at hread
    exact hread (l.given (by rw [hbase]; decide))
  | bin =>
    rw [hbase] at hread
    exact hread (l.given (by rw [hbase]; decide))
  | oct =>
    rw [hbase] at hread
    cases hdigits : l.digits with
    | nil => rfl
    | cons d digits =>
      rw [hdigits] at hread
      exact hread (List.cons_ne_nil _ _)
  | dec =>
    rw [hbase] at hread
    have hne := l.given (by rw [hbase]; decide)
    obtain ⟨d, digits, hdigits⟩ := List.exists_cons_of_ne_nil hne
    have hd := l.below d (by rw [hdigits]; exact List.mem_cons_self)
    have hd0 : d ≠ 0 := fun h => l.leading hbase (by rw [hdigits, h]; rfl)
    have hzero := (digitChar_spec (radix_le l.base) hd).2.2.2.2.2.2.2.2 hd0
    have hhead : (1 < (Base.dec.start ++ l.digits.map digitChar).length &&
        (Base.dec.start ++ l.digits.map digitChar).head? == some '0') = false := by
      rw [hdigits]
      simp [Base.start, hzero]
    rw [if_neg (by decide), if_neg (by decide), hhead, if_neg (by decide)]
    exact hread hne

/-- A constant's text, its letters large or small, is read as the constant. -/
theorem number_literal (l : Literal) (text : Text) (htext : text.map Char.toLower = l.text)
    (hsmall : l.value < 2 ^ 128) :
    number text = some (.int (wrap l.value) l.unsigned) := by
  have hsuffix : l.suffix.head? ≠ some 'x' := by
    intro h
    rcases suffix_mem (List.mem_of_mem_head? h) with h | h <;> cases h
  have hhex : "0x".toList.isPrefixOf l.text = (l.base == .hex) := by
    rw [text_eq]
    exact stem_hex l l.suffix hsuffix
  have hmem : ∀ c ∈ l.text, c ≠ 'p' ∧ c ≠ '.' ∧ (l.base ≠ .hex → c ≠ 'e') := by
    intro c hc
    rw [text_eq] at hc
    rcases List.mem_append.1 hc with hc | hc
    · obtain ⟨-, -, -, hp, hdot, he⟩ := stem_mem hc
      exact ⟨hp, hdot, he⟩
    · rcases suffix_mem hc with rfl | rfl <;> exact ⟨by decide, by decide, fun _ => by decide⟩
  have hnot : ∀ c, (∀ x ∈ l.text, x ≠ c) → l.text.contains c = false := fun c h => by
    rw [Bool.eq_false_iff, Ne, List.contains_iff_mem]
    exact fun hmem => h c hmem rfl
  have hfloat : (if (l.base == .hex) = true then l.text.contains 'p' || l.text.contains '.'
      else l.text.contains '.' || l.text.contains 'e') = false := by
    rw [hnot 'p' fun x hx => (hmem x hx).1, hnot '.' fun x hx => (hmem x hx).2.1]
    split
    · rfl
    · next hbase => rw [hnot 'e' fun x hx => (hmem x hx).2.2 (by simpa using hbase)]; rfl
  have hend : l.text.findIdx (fun c => c == 'u' || c == 'l' || (!(l.base == .hex) && c == 'i')) =
      l.stem.length := by
    rw [text_eq]
    have hstem : ∀ c ∈ l.stem,
        (c == 'u' || c == 'l' || (!(l.base == .hex) && c == 'i')) = false := by
      intro c hc
      obtain ⟨hu, hl, hi, -⟩ := stem_mem hc
      simp [hu, hl, hi]
    rw [List.findIdx_append, List.findIdx_eq_length_of_false hstem, if_neg (Nat.lt_irrefl _)]
    cases hs : l.suffix with
    | nil => simp
    | cons c rest =>
      have hc : c = 'u' ∨ c = 'l' := suffix_mem (by rw [hs]; exact List.mem_cons_self)
      rw [List.findIdx_cons]
      rcases hc with rfl | rfl <;> simp
  rw [number]
  simp only [htext, hhex, hfloat, hend, Bool.false_eq_true, if_false]
  rw [text_eq, List.take_left, List.drop_left, suffix_unsigned, stem_value l hsmall]
  rfl

section Characters

/-- A part of a literal between quotes: a character, or what follows a backslash. -/
inductive CharUnit where
  | plain (c : Char)
  | octal (value : Nat)
  | hex (value : Nat)
  | escape (c : Char)
  deriving DecidableEq

/-- The digits that an octal escape goes on with, so many at most. -/
def octalFrom : Nat → Nat → Text → Nat × Text
  | n + 1, value, c :: text =>
      match digitOf 8 c with
      | some d => octalFrom n (value * 8 + d) text
      | none => (value, c :: text)
  | _, value, text => (value, text)

def hexFrom : Nat → Text → Nat × Text
  | value, c :: text =>
      match digitOf 16 c.toLower with
      | some d => hexFrom (value * 16 + d) text
      | none => (value, c :: text)
  | value, [] => (value, [])

def escapeUnit : Text → Option (CharUnit × Text)
  | [] => none
  | 'x' :: text => some (.hex (hexFrom 0 text).1, (hexFrom 0 text).2)
  | c :: text =>
      match digitOf 8 c with
      | some d => some (.octal (octalFrom 2 d text).1, (octalFrom 2 d text).2)
      | none => some (.escape c, text)

/-- The parts of a literal up to its quote, and what follows it; nothing if it is never closed. -/
def literalUnits (quote : Char) : Nat → Text → Option (List CharUnit × Text)
  | n + 1, c :: text =>
      if c = '\n' then none
      else if c = quote then some ([], text)
      else
        match if c = '\\' then escapeUnit text else some (.plain c, text) with
        | some (unit, rest) =>
            (literalUnits quote n rest).map fun (units, rest) => (unit :: units, rest)
        | none => none
  | _, _ => none

/-- `char::from_u32`, or the replacement character. -/
def fromU32 (value : Nat) : Char :=
  if value.isValidChar then Char.ofNat value else Char.ofNat 0xfffd

/-- The character that a part is decoded to. -/
def CharUnit.char : CharUnit → Char
  | .plain c => c
  | .octal value => fromU32 value
  | .hex value => fromU32 (value % 2 ^ 32)
  | .escape 'n' => '\n'
  | .escape 't' => '\t'
  | .escape 'r' => '\r'
  | .escape 'a' => Char.ofNat 7
  | .escape 'b' => Char.ofNat 8
  | .escape 'f' => Char.ofNat 12
  | .escape 'v' => Char.ofNat 11
  | .escape 'e' => Char.ofNat 27
  | .escape c => c

/-- The low bytes of some characters, the first highest. -/
def packed (codes : List Nat) : Nat := codes.foldl (fun value code => value * 256 + code % 256) 0

def charValue : List Char → Int
  | [c] => c.toNat
  | text => wrap (packed (text.map Char.toNat))

/-- A character constant, its encoding prefix included, as it is read. -/
def charConstant (text : Text) : Option Int :=
  let length :=
    match text with
    | 'L' :: _ => 1
    | 'U' :: _ => 1
    | 'u' :: '8' :: _ => 2
    | 'u' :: _ => 1
    | _ => 0
  match text.drop length with
  | '\'' :: rest =>
      match literalUnits '\'' (rest.length + 1) rest with
      | some (units, []) => some (charValue (units.map CharUnit.char))
      | _ => none
  | _ => none

inductive Encoding where
  | plain | wide | char16 | char32 | utf8
  deriving DecidableEq

def Encoding.text : Encoding → Text
  | .plain => []
  | .wide => ['L']
  | .char16 => ['u']
  | .char32 => ['U']
  | .utf8 => ['u', '8']

/-- A character constant: its encoding, and what is between its quotes. -/
structure CharConst where
  encoding : Encoding
  body : Text

def CharConst.text (c : CharConst) : Text := c.encoding.text ++ '\'' :: (c.body ++ ['\''])

def CharConst.units (c : CharConst) : Option (List CharUnit) :=
  match literalUnits '\'' ((c.body ++ ['\'']).length + 1) (c.body ++ ['\'']) with
  | some (units, []) => some units
  | _ => none

theorem charConstant_text (c : CharConst) :
    charConstant c.text = c.units.map fun units => charValue (units.map CharUnit.char) := by
  obtain ⟨encoding, body⟩ := c
  have hread : charConstant (CharConst.text ⟨encoding, body⟩) =
      match literalUnits '\'' ((body ++ ['\'']).length + 1) (body ++ ['\'']) with
      | some (units, []) => some (charValue (units.map CharUnit.char))
      | _ => none := by
    cases encoding <;> rfl
  rw [hread, CharConst.units]
  split
  · next h => rw [h]; rfl
  · rfl

end Characters

end Zuri.Cdecl
