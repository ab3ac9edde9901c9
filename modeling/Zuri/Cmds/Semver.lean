import Mathlib.Data.Char
import Mathlib.Data.List.Basic
import Mathlib.Data.Sum.Order
import Mathlib.Order.WithBot
import Zuri.Float.Binary64
import Zuri.Float.Nearest
import Zuri.Order.Lexical
import Zuri.Order.MergeSort

/-!
Versions: how they are read, compared, sorted and written. Comparing is the order of versions for
the doubles nearest to their numbers; it is the order of the numbers themselves wherever the first
place with different doubles goes the way of the first place with different numbers.
-/

namespace Zuri.Semver

abbrev Text := List Char

/-- What `\s` matches. -/
def isSpace (c : Char) : Bool :=
  c = ' ' || c = '\t' || c = '\n' || c = Char.ofNat 11 || c = Char.ofNat 12 || c = '\r'

def isIdentifierChar (c : Char) : Bool := c.isAlphanum || c = '-'

/-- What `[0-9A-Za-z-]+` matches. -/
def isIdentifier (text : Text) : Bool := !text.isEmpty && text.all isIdentifierChar

/-- Whether an identifier is all digits. -/
def isNumeric (text : Text) : Bool := !text.isEmpty && text.all Char.isDigit

/-- What `0|[1-9][0-9]*` matches. -/
def isNumeral (text : Text) : Bool := isNumeric text && (text = ['0'] || text.head? ≠ some '0')

def value (text : Text) : Nat := text.foldl (fun n c => n * 10 + (c.toNat - 48)) 0

/-- The number that a text of digits is read as: the nearest double. -/
def toNumber (text : Text) : F64 := F64.ofInt (value text)

/-- A text up to the first such character, and what follows it. -/
def cut (sep : Char) (text : Text) : Text × Option Text :=
  match text.span fun c => c ≠ sep with
  | (before, []) => (before, none)
  | (before, _ :: after) => (before, some after)

/-- Dotted identifiers, of which there may be none. -/
def identifiers : Option Text → Option (List Text)
  | none => some []
  | some text => if (text.splitOn '.').all isIdentifier then some (text.splitOn '.') else none

/-- The groups of the pattern for a version. -/
structure Groups where
  major : Text
  minor : Text
  patch : Text
  pre : List Text
  build : List Text
  deriving DecidableEq

def dropV (text : Text) : Text := if text.head? = some 'v' then text.tail else text

def matchCore (text : Text) : Option Groups :=
  let (rest, build) := cut '+' (dropV text)
  let (numbers, pre) := cut '-' rest
  match numbers.splitOn '.', identifiers pre, identifiers build with
  | [major, minor, patch], some pre, some build =>
      if isNumeral major && isNumeral minor && isNumeral patch then
        some ⟨major, minor, patch, pre, build⟩
      else none
  | _, _, _ => none

structure Version where
  major : F64
  minor : F64
  patch : F64
  pre : List Text
  build : List Text
  deriving DecidableEq

def Groups.version (g : Groups) : Version :=
  ⟨toNumber g.major, toNumber g.minor, toNumber g.patch, g.pre, g.build⟩

/-- A pre-release number with a leading zero. -/
def leadingZero (identifier : Text) : Bool :=
  isNumeric identifier && 1 < identifier.length && identifier.head? = some '0'

def parse (text : Text) : Except String Version :=
  match matchCore (text.filter fun c => !isSpace c) with
  | none => .error (s!"'{String.ofList text}' is not a valid version; " ++
      "use major.minor.patch, such as 1.0.0")
  | some groups =>
      match groups.pre.find? leadingZero with
      | some identifier => .error (s!"'{String.ofList text}' is not a valid version; the pre-release " ++
          s!"number '{String.ofList identifier}' has a leading zero")
      | none => .ok groups.version

/-- `-1`, `0` or `1` for two numbers. -/
def order (a b : F64) : Int := if a.lt b then -1 else if b.lt a then 1 else 0

/-- Texts by their characters. -/
def compareText : Text → Text → Int
  | [], [] => 0
  | [], _ :: _ => -1
  | _ :: _, [] => 1
  | a :: as, b :: bs => if a < b then -1 else if b < a then 1 else compareText as bs

def compareIdentifier (a b : Text) : Int :=
  if isNumeric a && isNumeric b then order (toNumber a) (toNumber b)
  else if isNumeric a then -1
  else if isNumeric b then 1
  else if compareText a b < 0 then -1
  else if compareText a b > 0 then 1 else 0

def orderLength (a b : Nat) : Int := if a < b then -1 else if b < a then 1 else 0

/-- The first step that decides, or else the lengths. -/
def comparePre (mine theirs : List Text) : Int :=
  ((List.zipWith compareIdentifier mine theirs).find? fun step => step ≠ 0).getD
    (orderLength mine.length theirs.length)

def Version.compare (v other : Version) : Int :=
  let core := order v.major other.major
  let core := if core = 0 then order v.minor other.minor else core
  let core := if core = 0 then order v.patch other.patch else core
  if core ≠ 0 then core
  else if v.pre.isEmpty || other.pre.isEmpty then
    if v.pre.isEmpty && other.pre.isEmpty then 0 else if v.pre.isEmpty then 1 else -1
  else comparePre v.pre other.pre

/-- The version as written; `display` gives the text of a number. -/
def Version.toText (display : F64 → Text) (v : Version) : Text :=
  display v.major ++ ['.'] ++ display v.minor ++ ['.'] ++ display v.patch ++
    (if v.pre.isEmpty then [] else '-' :: ['.'].intercalate v.pre) ++
    (if v.build.isEmpty then [] else '+' :: ['.'].intercalate v.build)

/-- What a list to be sorted holds. -/
inductive Item where
  | text (written : Text)
  | version (v : Version)
  deriving DecidableEq

def Item.key : Item → Except String Version
  | text written => parse written
  | version v => .ok v

def keyed (item : Item) : Except String (Version × Item) := item.key.map fun v => (v, item)

def mergeSort (items : List (Version × Item)) : List (Version × Item) :=
  MergeSort.sort (fun a b => decide (a.1.compare b.1 ≤ 0)) items

def sorted (versions : List Item) : Except String (List Item) :=
  (versions.mapM keyed).map fun items => (mergeSort items).map Prod.snd

/-- One text of those that are looked through for the highest. -/
def better (satisfies : Version → Bool) (best : Option (Version × Text)) (text : Text) :
    Except String (Option (Version × Text)) :=
  (parse text).map fun version =>
    if satisfies version && (match best with
        | none => true
        | some best => decide (version.compare best.1 > 0)) then some (version, text)
    else best

/-- The highest of the versions that satisfy a range. -/
def maxSatisfying (versions : List Text) (satisfies : Version → Bool) :
    Except String (Option Text) :=
  (versions.foldlM (better satisfies) none).map fun best => best.map Prod.snd

open Lexical

/-- A part of a version: a number, a word, or the end of a release. -/
abbrev Part (ν : Type) := WithTop (ν ⊕ₗ Text)

def number {ν : Type} (n : ν) : Part ν := (toLex (.inl n) : ν ⊕ₗ Text)
def word {ν : Type} (text : Text) : Part ν := (toLex (.inr text) : ν ⊕ₗ Text)

def identifierPart (text : Text) : Part Nat :=
  if isNumeric text then number (value text) else word text

/-- The parts by which a version has its precedence. -/
def Groups.parts (g : Groups) : List (Part Nat) :=
  number (value g.major) :: number (value g.minor) :: number (value g.patch) ::
    if g.pre.isEmpty then [⊤] else g.pre.map identifierPart

/-- The sign of the precedence of one version against another. -/
def precedence (a b : Groups) : Int := Lexical.order a.parts b.parts

/-- A part with the double nearest to its number. -/
def nearestPart (part : Part Nat) : Part (WithTop Nat) :=
  part.map fun s => toLex ((ofLex s).map F64.nearest id)

theorem nearestPart_number (n : Nat) : nearestPart (number n) = number (F64.nearest n) := rfl

theorem nearestPart_word (text : Text) : nearestPart (word text) = word text := rfl

theorem nearestPart_top : nearestPart ⊤ = ⊤ := rfl

theorem number_lt {ν : Type} [LinearOrder ν] (m n : ν) : number m < number n ↔ m < n := by
  rw [number, number, WithTop.coe_lt_coe, Sum.Lex.inl_lt_inl_iff]

theorem number_lt_word {ν : Type} [LinearOrder ν] (n : ν) (text : Text) :
    number n < word text := by
  rw [number, word, WithTop.coe_lt_coe]
  exact Sum.Lex.inl_lt_inr _ _

theorem word_lt {ν : Type} [LinearOrder ν] (s t : Text) : (word s : Part ν) < word t ↔ s < t := by
  rw [word, word, WithTop.coe_lt_coe, Sum.Lex.inr_lt_inr_iff]

theorem order_number {ν : Type} [LinearOrder ν] (m n : ν) :
    Lexical.order (number m) (number n) = Lexical.order m n := by
  simp only [Lexical.order, number_lt]

theorem order_word {ν : Type} [LinearOrder ν] (s t : Text) :
    Lexical.order (word s : Part ν) (word t) = Lexical.order s t := by
  rcases lt_trichotomy s t with hlt | heq | hgt
  · rw [order_lt hlt, order_lt ((word_lt s t).mpr hlt)]
  · rw [heq, Lexical.order_self, Lexical.order_self]
  · rw [order_gt hgt, order_gt ((word_lt t s).mpr hgt)]

theorem nearestPart_mono : Monotone nearestPart := by
  intro a b h
  induction b using WithTop.recTopCoe with
  | top => exact le_top
  | coe b =>
      induction a using WithTop.recTopCoe with
      | top => exact absurd (top_le_iff.mp h) WithTop.coe_ne_top
      | coe a =>
          rw [WithTop.coe_le_coe] at h
          apply WithTop.coe_le_coe.mpr
          rcases a with m | s
          · rcases b with n | t
            · exact Sum.Lex.inl_le_inl_iff.mpr (F64.nearest_mono (Sum.Lex.inl_le_inl_iff.mp h))
            · exact Sum.Lex.inl_le_inr _ _
          · rcases b with n | t
            · exact absurd h Sum.Lex.not_inr_le_inl
            · exact Sum.Lex.inr_le_inr_iff.mpr (Sum.Lex.inr_le_inr_iff.mp h)

theorem order_toNumber (s t : Text) :
    order (toNumber s) (toNumber t) =
      Lexical.order (F64.nearest (value s)) (F64.nearest (value t)) := by
  simp only [order, toNumber, F64.lt_nearest, decide_eq_true_eq, Lexical.order]

theorem compareText_eq (s t : Text) : compareText s t = Lexical.order s t := by
  induction s, t using compareText.induct with
  | case1 => exact (Lexical.order_self _).symm
  | case2 b bs => exact (order_nil_cons b bs).symm
  | case3 a as => exact (order_cons_nil a as).symm
  | case4 a as b bs hlt =>
      rw [compareText, if_pos hlt, order_cons, order_lt hlt]
      rfl
  | case5 a as b bs hnot hlt =>
      rw [compareText, if_neg hnot, if_pos hlt, order_cons, order_gt hlt]
      rfl
  | case6 a as b bs hnot hnot' ih =>
      have heq : a = b := le_antisymm (not_lt.mp hnot') (not_lt.mp hnot)
      rw [compareText, if_neg hnot, if_neg hnot', ih, order_cons, heq, Lexical.order_self,
        if_pos rfl]

theorem compareIdentifier_eq (a b : Text) : compareIdentifier a b =
    Lexical.order (nearestPart (identifierPart a)) (nearestPart (identifierPart b)) := by
  unfold compareIdentifier identifierPart
  cases ha : isNumeric a with
  | true =>
      cases hb : isNumeric b with
      | true =>
          simp only [Bool.and_self, if_true, nearestPart_number, order_number, order_toNumber]
      | false =>
          simp only [Bool.and_false, Bool.false_eq_true, if_false, if_true, nearestPart_number,
            nearestPart_word]
          rw [order_lt (number_lt_word _ _)]
  | false =>
      cases hb : isNumeric b with
      | true =>
          simp only [Bool.false_and, Bool.false_eq_true, if_false, if_true, nearestPart_number,
            nearestPart_word]
          rw [order_gt (number_lt_word _ _)]
      | false =>
          simp only [Bool.false_and, Bool.false_eq_true, if_false, nearestPart_word, order_word,
            compareText_eq]
          rcases lt_trichotomy a b with hlt | heq | hgt
          · rw [order_lt hlt]
            rfl
          · rw [heq, Lexical.order_self]
            rfl
          · rw [order_gt hgt]
            rfl

theorem comparePre_eq (mine theirs : List Text) : comparePre mine theirs =
    Lexical.order ((mine.map identifierPart).map nearestPart)
      ((theirs.map identifierPart).map nearestPart) := by
  induction mine generalizing theirs with
  | nil =>
      cases theirs with
      | nil => exact (Lexical.order_self _).symm
      | cons b bs =>
          rw [List.map_nil, List.map_nil, List.map_cons, List.map_cons, order_nil_cons]
          rfl
  | cons a as ih =>
      cases theirs with
      | nil =>
          rw [List.map_nil, List.map_nil, List.map_cons, List.map_cons, order_cons_nil]
          rfl
      | cons b bs =>
          simp only [List.map_cons]
          rw [order_cons, ← ih bs, ← compareIdentifier_eq]
          unfold comparePre
          rw [List.zipWith_cons_cons, List.find?_cons]
          by_cases hzero : compareIdentifier a b = 0
          · rw [if_pos hzero]
            simp only [hzero, ne_eq, not_true_eq_false, decide_false, List.length_cons, orderLength,
              Nat.add_lt_add_iff_right]
          · simp only [hzero, ne_eq, not_false_eq_true, decide_true, Option.getD_some, if_false]

theorem identifierPart_lt (text : Text) : nearestPart (identifierPart text) < ⊤ := by
  unfold identifierPart
  split <;> exact WithTop.coe_lt_top _

theorem Groups.compare_eq (a b : Groups) : a.version.compare b.version =
    Lexical.order (a.parts.map nearestPart) (b.parts.map nearestPart) := by
  unfold Groups.parts
  simp only [List.map_cons]
  rw [order_cons, order_cons, order_cons]
  simp only [nearestPart_number, order_number]
  rw [← order_toNumber, ← order_toNumber, ← order_toNumber]
  unfold Version.compare Groups.version
  simp only
  by_cases hmajor : order (toNumber a.major) (toNumber b.major) = 0
  · by_cases hminor : order (toNumber a.minor) (toNumber b.minor) = 0
    · by_cases hpatch : order (toNumber a.patch) (toNumber b.patch) = 0
      · simp only [hmajor, hminor, hpatch, if_true, ne_eq, not_true_eq_false, if_false]
        cases ha : a.pre with
        | nil =>
            cases hb : b.pre with
            | nil => exact (Lexical.order_self _).symm
            | cons i is =>
                simp only [List.isEmpty_nil, List.isEmpty_cons, Bool.true_or, Bool.and_false,
                  Bool.false_eq_true, if_false, if_true, List.map_cons]
                rw [order_cons, nearestPart_top, order_gt (identifierPart_lt i)]
                rfl
        | cons i is =>
            cases hb : b.pre with
            | nil =>
                simp only [List.isEmpty_nil, List.isEmpty_cons, Bool.or_true, Bool.false_and,
                  Bool.false_eq_true, if_false, if_true, List.map_cons]
                rw [order_cons, nearestPart_top, order_lt (identifierPart_lt i)]
                rfl
            | cons i' is' =>
                simp only [List.isEmpty_cons, Bool.or_false, Bool.false_eq_true, if_false]
                exact comparePre_eq _ _
      · simp only [hmajor, hminor, hpatch, if_true, if_false, ne_eq, not_false_eq_true]
    · simp only [hmajor, hminor, if_true, if_false, ne_eq, not_false_eq_true]
  · simp only [hmajor, if_false, if_true, ne_eq, not_false_eq_true]

/-- Two versions are compared by their precedence exactly where the first place with different
doubles goes the way of the first place with different numbers. -/
def Clear (a b : Groups) : Prop :=
  firstOrder nearestPart a.parts b.parts = firstOrder id a.parts b.parts

theorem compare_precedence (a b : Groups) :
    a.version.compare b.version = precedence a b ↔ Clear a b := by
  rw [a.compare_eq b, order_map nearestPart_mono, precedence, order_eq_firstOrder, Clear]

end Zuri.Semver
