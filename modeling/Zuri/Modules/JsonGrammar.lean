import Zuri.Modules.Json

/-!
JSON as a grammar: relations between a text, the value it starts with, and what is left after it.
What a blank, a numeral and a plain character are, and whether comments may stand for blanks, are
parameters, so that the grammar of RFC 8259 and the one that is accepted are instances of it.
-/

namespace Zuri.Json

structure Grammar where
  space : Char → Prop
  plain : Char → Prop
  numeral : Bool → Numeral → Prop
  comments : Bool
  unclosed : Bool

/-- A line comment after its slashes, to the line's end or the text's. -/
inductive LineEnd : Text → Text → Prop
  | finish : LineEnd [] []
  | newline (s : Text) : LineEnd ('\n' :: s) s
  | char {c : Char} {s r : Text} : c ≠ '\n' → LineEnd s r → LineEnd (c :: s) r

/-- A block comment after its opening; left unclosed, it may end with the text. -/
inductive BlockEnd (unclosed : Bool) : Text → Text → Prop
  | finish : unclosed = true → BlockEnd unclosed [] []
  | close (s : Text) : BlockEnd unclosed ('*' :: '/' :: s) s
  | char {c : Char} {s r : Text} : ¬(c = '*' ∧ s.head? = some '/') → BlockEnd unclosed s r →
      BlockEnd unclosed (c :: s) r

inductive Blanks (g : Grammar) : Text → Text → Prop
  | done (s : Text) : Blanks g s s
  | space {c : Char} {s r : Text} : g.space c → Blanks g s r → Blanks g (c :: s) r
  | line {s s' r : Text} : g.comments = true → LineEnd s s' → Blanks g s' r →
      Blanks g ('/' :: '/' :: s) r
  | block {s s' r : Text} : g.comments = true → BlockEnd g.unclosed s s' → Blanks g s' r →
      Blanks g ('/' :: '*' :: s) r

/-- Four hexadecimal digits and their number. -/
inductive Hex4 : Text → Nat → Text → Prop
  | digits {a b c d : Char} {i j k l : Nat} (r : Text) : hexValue a = some i →
      hexValue b = some j → hexValue c = some k → hexValue d = some l →
      Hex4 (a :: b :: c :: d :: r) (((i * 16 + j) * 16 + k) * 16 + l) r

/-- A string after its opening quote. -/
inductive Chars (g : Grammar) : Text → Text → Text → Prop
  | close (r : Text) : Chars g ('"' :: r) [] r
  | plain {c : Char} {s text r : Text} : c ≠ '"' → c ≠ '\\' → g.plain c → Chars g s text r →
      Chars g (c :: s) (c :: text) r
  | short {c d : Char} {s text r : Text} : shortEscape c = some d → Chars g s text r →
      Chars g ('\\' :: c :: s) (d :: text) r
  | unicode {s s' text r : Text} {n : Nat} {c : Char} : Hex4 s n s' → isHigh n = false →
      charFromU32 n = some c → Chars g s' text r → Chars g ('\\' :: 'u' :: s) (c :: text) r
  | pair {s s' s'' text r : Text} {m n : Nat} {c : Char} : Hex4 s m ('\\' :: 'u' :: s') →
      isHigh m = true → Hex4 s' n s'' → isLow n = true →
      charFromU32 (combined m n) = some c → Chars g s'' text r →
      Chars g ('\\' :: 'u' :: s) (c :: text) r

mutual

inductive IsValue (g : Grammar) : Text → Value → Text → Prop
  | nil (r : Text) : IsValue g ('n' :: 'u' :: 'l' :: 'l' :: r) .nil r
  | true (r : Text) : IsValue g ('t' :: 'r' :: 'u' :: 'e' :: r) (.bool true) r
  | false (r : Text) : IsValue g ('f' :: 'a' :: 'l' :: 's' :: 'e' :: r) (.bool false) r
  | number {neg : Bool} {u : Numeral} (r : Text) : g.numeral neg u →
      IsValue g (minusText neg ++ u.text ++ r) (.number (u.value neg)) r
  | string {s text r : Text} : Chars g s text r → IsValue g ('"' :: s) (.string text) r
  | emptyList {s r : Text} : Blanks g s (']' :: r) → IsValue g ('[' :: s) (.list []) r
  | list {s r : Text} {items : List Value} : IsItems g s items r →
      IsValue g ('[' :: s) (.list items) r
  | emptyDict {s r : Text} : Blanks g s ('\x7d' :: r) → IsValue g ('\x7b' :: s) (.dict []) r
  | dict {s r : Text} {pairs : List (Text × Value)} : IsPairs g s pairs r →
      IsValue g ('\x7b' :: s) (.dict (fromPairs pairs)) r

/-- The items of an array after its bracket or a comma. -/
inductive IsItems (g : Grammar) : Text → List Value → Text → Prop
  | last {s s₁ s₂ r : Text} {v : Value} : Blanks g s s₁ → IsValue g s₁ v s₂ →
      Blanks g s₂ (']' :: r) → IsItems g s [v] r
  | more {s s₁ s₂ s₃ r : Text} {v : Value} {items : List Value} : Blanks g s s₁ →
      IsValue g s₁ v s₂ → Blanks g s₂ (',' :: s₃) → IsItems g s₃ items r →
      IsItems g s (v :: items) r

/-- The pairs of an object after its brace or a comma. -/
inductive IsPairs (g : Grammar) : Text → List (Text × Value) → Text → Prop
  | last {s s₁ s₂ s₃ s₄ s₅ r key : Text} {v : Value} : Blanks g s ('"' :: s₁) →
      Chars g s₁ key s₂ → Blanks g s₂ (':' :: s₃) → Blanks g s₃ s₄ → IsValue g s₄ v s₅ →
      Blanks g s₅ ('\x7d' :: r) → IsPairs g s [(key, v)] r
  | more {s s₁ s₂ s₃ s₄ s₅ s₆ r key : Text} {v : Value} {pairs : List (Text × Value)} :
      Blanks g s ('"' :: s₁) → Chars g s₁ key s₂ → Blanks g s₂ (':' :: s₃) → Blanks g s₃ s₄ →
      IsValue g s₄ v s₅ → Blanks g s₅ (',' :: s₆) → IsPairs g s₆ pairs r →
      IsPairs g s ((key, v) :: pairs) r

end

/-- A text that is a value and blanks around it. -/
def IsText (g : Grammar) (s : Text) (v : Value) : Prop :=
  ∃ s₁ s₂, Blanks g s s₁ ∧ IsValue g s₁ v s₂ ∧ Blanks g s₂ []

/-- A numeral that is digits, and a sign of the exponent, where it has any. -/
structure Numeral.Written (u : Numeral) : Prop where
  whole : ∀ c ∈ u.whole, c.isDigit = true
  fraction : ∀ c ∈ u.fraction.getD [], c.isDigit = true
  letter : ∀ e ∈ u.exponent, e.1 = 'e' ∨ e.1 = 'E'
  sign : ∀ e ∈ u.exponent, e.2.1 = [] ∨ e.2.1 = ['+'] ∨ e.2.1 = ['-']
  exponent : ∀ e ∈ u.exponent, ∀ c ∈ e.2.2, c.isDigit = true

/-- The numerals of RFC 8259. -/
structure Numeral.Rfc8259 (u : Numeral) : Prop extends u.Written where
  noLeadingZero : u.whole = ['0'] ∨ u.whole ≠ [] ∧ u.whole.head? ≠ some '0'
  digitsAfterPoint : u.fraction ≠ some []
  digitsInExponent : ∀ e ∈ u.exponent, e.2.2 ≠ []

/-- RFC 8259, with comments where white space may stand when they are allowed. -/
def rfc8259 (comments : Bool) : Grammar where
  space c := c = ' ' ∨ c = '\t' ∨ c = '\n' ∨ c = '\r'
  plain c := 0x20 ≤ c.toNat
  numeral _ u := u.Rfc8259
  comments := comments
  unclosed := false

/-- What the decoder accepts besides: the white space of Unicode, control characters in strings,
any decimal that starts with a digit or a minus, and a block comment that ends with the text. -/
def lenient (comments : Bool) : Grammar where
  space c := isWhitespace c = true
  plain _ := True
  numeral neg u := u.Written ∧ u.isDecimal = true ∧ (neg = true ∨ u.whole ≠ [])
  comments := comments
  unclosed := true

structure Grammar.Within (g g' : Grammar) : Prop where
  space : ∀ c, g.space c → g'.space c
  plain : ∀ c, g.plain c → g'.plain c
  numeral : ∀ neg u, g.numeral neg u → g'.numeral neg u
  comments : g.comments = true → g'.comments = true
  unclosed : g.unclosed = true → g'.unclosed = true

section
variable {g g' : Grammar}

theorem BlockEnd.mono {a b : Bool} (hab : a = true → b = true) {s r : Text} (h : BlockEnd a s r) :
    BlockEnd b s r := by
  induction h with
  | finish ha => exact .finish (hab ha)
  | close s => exact .close s
  | char hc _ ih => exact .char hc ih

theorem Blanks.mono (hg : g.Within g') {s r : Text} (h : Blanks g s r) : Blanks g' s r := by
  induction h with
  | done s => exact .done s
  | space hc _ ih => exact .space (hg.space _ hc) ih
  | line hc hs _ ih => exact .line (hg.comments hc) hs ih
  | block hc hs _ ih => exact .block (hg.comments hc) (hs.mono hg.unclosed) ih

theorem Chars.mono (hg : g.Within g') {s text r : Text} (h : Chars g s text r) :
    Chars g' s text r := by
  induction h with
  | close r => exact .close r
  | plain hquote hslash hc _ ih => exact .plain hquote hslash (hg.plain _ hc) ih
  | short hc _ ih => exact .short hc ih
  | unicode hhex hhigh hc _ ih => exact .unicode hhex hhigh hc ih
  | pair hhex hhigh hhex' hlow hc _ ih => exact .pair hhex hhigh hhex' hlow hc ih

mutual

theorem IsValue.mono (hg : g.Within g') {s r : Text} {v : Value} :
    IsValue g s v r → IsValue g' s v r
  | .nil r => .nil r
  | .true r => .true r
  | .false r => .false r
  | .number r hu => .number r (hg.numeral _ _ hu)
  | .string hs => .string (hs.mono hg)
  | .emptyList hb => .emptyList (hb.mono hg)
  | .list hs => .list (hs.mono hg)
  | .emptyDict hb => .emptyDict (hb.mono hg)
  | .dict hs => .dict (hs.mono hg)

theorem IsItems.mono (hg : g.Within g') {s r : Text} {items : List Value} :
    IsItems g s items r → IsItems g' s items r
  | .last hb hv hb' => .last (hb.mono hg) (hv.mono hg) (hb'.mono hg)
  | .more hb hv hb' hs => .more (hb.mono hg) (hv.mono hg) (hb'.mono hg) (hs.mono hg)

theorem IsPairs.mono (hg : g.Within g') {s r : Text} {pairs : List (Text × Value)} :
    IsPairs g s pairs r → IsPairs g' s pairs r
  | .last h₁ hk h₂ h₃ hv h₄ =>
      .last (h₁.mono hg) (hk.mono hg) (h₂.mono hg) (h₃.mono hg) (hv.mono hg) (h₄.mono hg)
  | .more h₁ hk h₂ h₃ hv h₄ hs =>
      .more (h₁.mono hg) (hk.mono hg) (h₂.mono hg) (h₃.mono hg) (hv.mono hg) (h₄.mono hg)
        (hs.mono hg)

end

theorem IsText.mono (hg : g.Within g') {s : Text} {v : Value} (h : IsText g s v) :
    IsText g' s v := by
  obtain ⟨s₁, s₂, hb, hv, hb'⟩ := h
  exact ⟨s₁, s₂, hb.mono hg, hv.mono hg, hb'.mono hg⟩

theorem LineEnd.length {s r : Text} (h : LineEnd s r) : r.length ≤ s.length := by
  induction h with
  | finish => exact Nat.le_refl _
  | newline s => exact Nat.le_succ _
  | char _ _ ih => exact Nat.le_succ_of_le ih

theorem BlockEnd.length {a : Bool} {s r : Text} (h : BlockEnd a s r) : r.length ≤ s.length := by
  induction h with
  | finish _ => exact Nat.le_refl _
  | close s => simp only [List.length_cons]; omega
  | char _ _ ih => exact Nat.le_succ_of_le ih

theorem Blanks.length {s r : Text} (h : Blanks g s r) : r.length ≤ s.length := by
  induction h with
  | done s => exact Nat.le_refl _
  | space _ _ ih => exact Nat.le_succ_of_le ih
  | line _ hs _ ih =>
      have := hs.length
      simp only [List.length_cons]
      omega
  | block _ hs _ ih =>
      have := hs.length
      simp only [List.length_cons]
      omega

theorem Hex4.length {s r : Text} {n : Nat} (h : Hex4 s n r) : r.length + 4 = s.length := by
  cases h
  rfl

theorem Chars.length {s text r : Text} (h : Chars g s text r) : r.length < s.length := by
  induction h with
  | close r => exact Nat.lt_succ_self _
  | plain _ _ _ _ ih => exact Nat.lt_succ_of_lt ih
  | short _ _ ih =>
      simp only [List.length_cons]
      omega
  | unicode hhex _ _ _ ih =>
      have := hhex.length
      simp only [List.length_cons]
      omega
  | pair hhex _ hhex' _ _ _ ih =>
      have := hhex.length
      have := hhex'.length
      simp only [List.length_cons] at *
      omega

end

theorem Numeral.Rfc8259.isDecimal {u : Numeral} (h : u.Rfc8259) : u.isDecimal = true := by
  have hwhole : u.whole ≠ [] := by
    rcases h.noLeadingZero with h | ⟨h, -⟩
    · rw [h]
      exact List.cons_ne_nil _ _
    · exact h
  have hdigits : (u.whole ++ u.fraction.getD []).isEmpty = false := by
    simp [hwhole]
  unfold Numeral.isDecimal
  rw [hdigits]
  cases he : u.exponent with
  | none => rfl
  | some e =>
      have := h.digitsInExponent e he
      simpa using this

theorem rfc8259_within (comments : Bool) : (rfc8259 comments).Within (lenient comments) where
  space c h := by
    change isWhitespace c = true
    rcases h with rfl | rfl | rfl | rfl <;> decide
  plain _ _ := trivial
  numeral neg u h := by
    refine ⟨h.toWritten, h.isDecimal, .inr ?_⟩
    rcases h.noLeadingZero with h | ⟨h, -⟩
    · rw [h]
      exact List.cons_ne_nil _ _
    · exact h
  comments h := h
  unclosed h := absurd h Bool.false_ne_true

end Zuri.Json
