import Mathlib.Data.List.Infix
import Mathlib.Data.Nat.Bitwise
import Mathlib.Tactic.Ring

/-!
Binary prefix codes. A word is a list of bits; a decoder walks a trie in which the
symbol of a word stands at the end of its path. Canonical codes are given by the
lengths of their words alone, and no word of one begins another.
-/

namespace Coding

variable {α : Type}

/-- The low bits of a number, the most significant first. -/
def bitsOf (value : Nat) : Nat → List Bool
  | 0 => []
  | n + 1 => value.testBit n :: bitsOf value n

@[simp] theorem bitsOf_length (value n : Nat) : (bitsOf value n).length = n := by
  induction n with
  | zero => rfl
  | succ n ih => simp [bitsOf, ih]

theorem bitsOf_congr (x y n : Nat) (h : ∀ i < n, x.testBit i = y.testBit i) :
    bitsOf x n = bitsOf y n := by
  induction n with
  | zero => rfl
  | succ n ih =>
      simp only [bitsOf]
      rw [h n (Nat.lt_succ_self n), ih (fun i hi => h i (by omega))]

theorem bitsOf_add (value m n : Nat) :
    bitsOf value (m + n) = bitsOf (value >>> n) m ++ bitsOf value n := by
  induction m with
  | zero => simp [bitsOf]
  | succ m ih =>
      rw [Nat.succ_add]
      simp only [bitsOf, ih, List.cons_append]
      rw [Nat.testBit_shiftRight, Nat.add_comm n m]

theorem bitsOf_shift_or (acc code m n : Nat) (h : code < 2 ^ n) :
    bitsOf (acc <<< n ||| code) (m + n) = bitsOf acc m ++ bitsOf code n := by
  rw [bitsOf_add]
  congr 1
  · apply bitsOf_congr
    intro i _
    rw [Nat.testBit_shiftRight, Nat.testBit_or, Nat.testBit_shiftLeft]
    have hc : code.testBit (n + i) = false :=
      Nat.testBit_lt_two_pow (lt_of_lt_of_le h (Nat.pow_le_pow_right (by omega) (by omega)))
    simp [hc]
  · apply bitsOf_congr
    intro i hi
    rw [Nat.testBit_or, Nat.testBit_shiftLeft]
    simp [Nat.not_le.mpr hi]

theorem bitsOf_mod (value m n : Nat) (h : n ≤ m) : bitsOf (value % 2 ^ m) n = bitsOf value n := by
  apply bitsOf_congr
  intro i hi
  rw [Nat.testBit_mod_two_pow]
  simp [Nat.lt_of_lt_of_le hi h]

theorem bitsOf_ones (n : Nat) : bitsOf (2 ^ n - 1) n = List.replicate n true := by
  have h : ∀ k, k ≤ n → bitsOf (2 ^ n - 1) k = List.replicate k true := by
    intro k
    induction k with
    | zero => intro _; rfl
    | succ k ih =>
        intro hk
        simp only [bitsOf, List.replicate_succ]
        rw [Nat.testBit_two_pow_sub_one, ih (by omega)]
        simp [Nat.lt_of_succ_le hk]
  exact h n (Nat.le_refl n)

theorem bitsOf_inj (x y n : Nat) (hx : x < 2 ^ n) (hy : y < 2 ^ n)
    (h : bitsOf x n = bitsOf y n) : x = y := by
  apply Nat.eq_of_testBit_eq
  intro i
  by_cases hi : i < n
  · have all : ∀ k, k ≤ n → bitsOf x k = bitsOf y k := by
      intro k hk
      have hsplit := h
      rw [← Nat.sub_add_cancel hk, bitsOf_add, bitsOf_add] at hsplit
      exact (List.append_inj hsplit (by simp)).2
    have hlast := all (i + 1) hi
    simp only [bitsOf, List.cons.injEq] at hlast
    exact hlast.1
  · have hpow : 2 ^ n ≤ 2 ^ i := Nat.pow_le_pow_right (by omega) (by omega)
    rw [Nat.testBit_lt_two_pow (lt_of_lt_of_le hx hpow),
      Nat.testBit_lt_two_pow (lt_of_lt_of_le hy hpow)]

/-- A place of the decoder: nothing, or a node with the symbol that ends there. -/
inductive Trie (α : Type) where
  | missing
  | node (symbol : Option α) (zero one : Trie α)

namespace Trie

def root : Trie α := .node none .missing .missing

def child : Trie α → Bool → Trie α
  | .missing, _ => .missing
  | .node _ zero one, bit => if bit then one else zero

def symbol : Trie α → Option α
  | .missing => none
  | .node symbol _ _ => symbol

def present : Trie α → Bool
  | .missing => false
  | .node _ _ _ => true

/-- Puts a symbol at the end of a word, making the nodes on the way. -/
def insert : Trie α → List Bool → α → Trie α
  | t, [], a => .node (some a) (t.child false) (t.child true)
  | t, true :: word, a => .node t.symbol (t.child false) ((t.child true).insert word a)
  | t, false :: word, a => .node t.symbol ((t.child false).insert word a) (t.child true)

def walk : Trie α → List Bool → Trie α
  | t, [] => t
  | t, bit :: word => (t.child bit).walk word

theorem walk_append (t : Trie α) (v w : List Bool) : t.walk (v ++ w) = (t.walk v).walk w := by
  induction v generalizing t with
  | nil => rfl
  | cons bit v ih => exact ih (t.child bit)

theorem walk_missing (w : List Bool) : (missing : Trie α).walk w = .missing := by
  induction w with
  | nil => rfl
  | cons bit w ih => exact ih

theorem present_insert (t : Trie α) (w : List Bool) (a : α) : (t.insert w a).present = true := by
  cases w with
  | nil => rfl
  | cons bit w => cases bit <;> rfl

theorem symbol_walk_insert (t : Trie α) (w v : List Bool) (a : α) :
    ((t.insert w a).walk v).symbol = if v = w then some a else (t.walk v).symbol := by
  induction w generalizing t v with
  | nil =>
      cases v with
      | nil => rfl
      | cons bit v => cases bit <;> simp [insert, walk, child]
  | cons b w ih =>
      cases v with
      | nil => cases b <;> simp [insert, walk, symbol]
      | cons bit v =>
          cases b <;> cases bit <;> simp [insert, walk, child, ih]

theorem present_walk_insert (t : Trie α) (w v : List Bool) (a : α) :
    ((t.insert w a).walk v).present = true ↔ (t.walk v).present = true ∨ v <+: w := by
  induction w generalizing t v with
  | nil =>
      cases v with
      | nil => simp [insert, walk, present]
      | cons bit v => cases bit <;> simp [insert, walk, child]
  | cons b w ih =>
      cases v with
      | nil => simp [walk, present_insert]
      | cons bit v =>
          cases b <;> cases bit <;>
            simp [insert, walk, child, ih, List.cons_prefix_cons]

end Trie

/-- The trie of a list of words with their symbols. -/
def trieOf (codes : List (List Bool × α)) : Trie α :=
  codes.foldl (fun t code => t.insert code.1 code.2) Trie.root

/-- No word of the list begins another one of it. -/
def PrefixFree (codes : List (List Bool × α)) : Prop :=
  codes.Pairwise (fun a b => ¬ a.1 <+: b.1 ∧ ¬ b.1 <+: a.1)

theorem foldl_insert_symbol_of_ne (codes : List (List Bool × α)) (t : Trie α) (v : List Bool)
    (h : ∀ code ∈ codes, v ≠ code.1) :
    ((codes.foldl (fun t code => t.insert code.1 code.2) t).walk v).symbol =
      (t.walk v).symbol := by
  induction codes generalizing t with
  | nil => rfl
  | cons code codes ih =>
      simp only [List.foldl_cons]
      rw [ih _ (fun c hc => h c (List.mem_cons_of_mem _ hc)), Trie.symbol_walk_insert,
        if_neg (h code List.mem_cons_self)]

theorem foldl_insert_present (codes : List (List Bool × α)) (t : Trie α) (v : List Bool) :
    ((codes.foldl (fun t code => t.insert code.1 code.2) t).walk v).present = true ↔
      (t.walk v).present = true ∨ ∃ code ∈ codes, v <+: code.1 := by
  induction codes generalizing t with
  | nil => simp
  | cons code codes ih =>
      simp only [List.foldl_cons]
      rw [ih, Trie.present_walk_insert]
      simp only [List.exists_mem_cons_iff, or_assoc]

theorem trieOf_symbol_none (codes : List (List Bool × α)) (v : List Bool)
    (h : ∀ code ∈ codes, v ≠ code.1) : ((trieOf codes).walk v).symbol = none := by
  unfold trieOf
  rw [foldl_insert_symbol_of_ne codes Trie.root v h]
  cases v with
  | nil => rfl
  | cons bit v => cases bit <;> simp [Trie.root, Trie.walk, Trie.child, Trie.walk_missing, Trie.symbol]

theorem trieOf_present (codes : List (List Bool × α)) (v : List Bool) :
    ((trieOf codes).walk v).present = true ↔ v = [] ∨ ∃ code ∈ codes, v <+: code.1 := by
  unfold trieOf
  rw [foldl_insert_present]
  apply or_congr_left
  cases v with
  | nil => simp [Trie.root, Trie.walk, Trie.present]
  | cons bit v =>
      cases bit <;> simp [Trie.root, Trie.walk, Trie.child, Trie.walk_missing, Trie.present]

/-- A word of a prefix code leads to its symbol. -/
theorem trieOf_symbol (codes : List (List Bool × α)) (h : PrefixFree codes)
    (code : List Bool × α) (hc : code ∈ codes) :
    ((trieOf codes).walk code.1).symbol = some code.2 := by
  unfold trieOf
  generalize Trie.root = t
  induction codes generalizing t with
  | nil => cases hc
  | cons head codes ih =>
      simp only [List.foldl_cons]
      have hpair := List.pairwise_cons.mp h
      cases hc with
      | head =>
          rw [foldl_insert_symbol_of_ne codes _ _
            (fun c hc he => (hpair.1 c hc).1 (he ▸ List.prefix_rfl)),
            Trie.symbol_walk_insert, if_pos rfl]
      | tail _ hc => exact ih hpair.2 hc _

theorem PrefixFree.eq_of_prefix {codes : List (List Bool × α)} (h : PrefixFree codes)
    {a b : List Bool × α} (ha : a ∈ codes) (hb : b ∈ codes) (hp : a.1 <+: b.1) : a = b := by
  induction codes with
  | nil => cases ha
  | cons head codes ih =>
      have hpair := List.pairwise_cons.mp h
      cases ha with
      | head =>
          cases hb with
          | head => rfl
          | tail _ hb => exact ((hpair.1 b hb).1 hp).elim
      | tail _ ha =>
          cases hb with
          | head => exact ((hpair.1 a ha).2 hp).elim
          | tail _ hb => exact ih hpair.2 ha hb

/-- Inside a word of a prefix code the decoder has met no symbol. -/
theorem trieOf_symbol_inside (codes : List (List Bool × α)) (h : PrefixFree codes)
    (code : List Bool × α) (hc : code ∈ codes) (v : List Bool) (hv : v <+: code.1)
    (hne : v ≠ code.1) : ((trieOf codes).walk v).symbol = none := by
  apply trieOf_symbol_none
  intro other ho he
  have heq := h.eq_of_prefix ho hc (he ▸ hv)
  exact hne (he.trans (congrArg Prod.fst heq))

/-- Words numbered in order, where the lengths do not fall. -/
def canonical : List (α × Nat) → Nat → Nat → List (α × Nat × Nat)
  | [], _, _ => []
  | (a, length) :: rest, code, previous =>
      let code := code <<< (length - previous)
      (a, code, length) :: canonical rest (code + 1) length

theorem canonical_lower (lengths : List (α × Nat)) (code previous : Nat)
    (hp : ∀ l ∈ lengths, previous ≤ l.2) (hs : lengths.Pairwise (fun a b => a.2 ≤ b.2))
    (entry : α × Nat × Nat) (he : entry ∈ canonical lengths code previous) :
    previous ≤ entry.2.2 ∧ code ≤ entry.2.1 >>> (entry.2.2 - previous) := by
  induction lengths generalizing code previous with
  | nil => cases he
  | cons head rest ih =>
      obtain ⟨a, length⟩ := head
      have hle : previous ≤ length := hp (a, length) List.mem_cons_self
      have hpair := List.pairwise_cons.mp hs
      simp only [canonical] at he
      cases he with
      | head =>
          refine ⟨hle, ?_⟩
          rw [Nat.shiftLeft_shiftRight]
      | tail _ he =>
          have hrec := ih _ length (fun l hl => hpair.1 l hl) hpair.2 he
          refine ⟨Nat.le_trans hle hrec.1, ?_⟩
          have hsplit : entry.2.2 - previous = (entry.2.2 - length) + (length - previous) := by
            have := hrec.1
            omega
          rw [hsplit, Nat.shiftRight_add]
          have hstep : code <<< (length - previous) ≤ entry.2.1 >>> (entry.2.2 - length) :=
            Nat.le_of_succ_le hrec.2
          calc code = (code <<< (length - previous)) >>> (length - previous) :=
                (Nat.shiftLeft_shiftRight _ _).symm
            _ ≤ (entry.2.1 >>> (entry.2.2 - length)) >>> (length - previous) := by
                rw [Nat.shiftRight_eq_div_pow, Nat.shiftRight_eq_div_pow]
                exact Nat.div_le_div_right hstep

theorem canonical_lengths (lengths : List (α × Nat)) (code previous : Nat) :
    (canonical lengths code previous).map (fun entry => (entry.1, entry.2.2)) = lengths := by
  induction lengths generalizing code previous with
  | nil => rfl
  | cons head rest ih => simp [canonical, ih]

/-- The word of an entry of a canonical code. -/
def wordOf (entry : α × Nat × Nat) : List Bool × α :=
  (bitsOf entry.2.1 entry.2.2, entry.1)

/-- Canonical codes that do not overflow their lengths are prefix codes. -/
theorem canonical_prefixFree (lengths : List (α × Nat)) (code previous : Nat)
    (hp : ∀ l ∈ lengths, previous ≤ l.2) (hs : lengths.Pairwise (fun a b => a.2 ≤ b.2))
    (hfit : ∀ entry ∈ canonical lengths code previous, entry.2.1 < 2 ^ entry.2.2) :
    PrefixFree ((canonical lengths code previous).map wordOf) := by
  induction lengths generalizing code previous with
  | nil => exact List.Pairwise.nil
  | cons head rest ih =>
      obtain ⟨a, length⟩ := head
      have hpair := List.pairwise_cons.mp hs
      simp only [canonical, List.map_cons] at hfit ⊢
      refine List.pairwise_cons.mpr ⟨?_, ih _ length (fun l hl => hpair.1 l hl) hpair.2
        (fun entry he => hfit entry (List.mem_cons_of_mem _ he))⟩
      intro word hw
      obtain ⟨entry, he, rfl⟩ := List.mem_map.mp hw
      have hlow := canonical_lower rest _ length (fun l hl => hpair.1 l hl) hpair.2 entry he
      have hfirst := hfit _ List.mem_cons_self
      have hlater := hfit entry (List.mem_cons_of_mem _ he)
      have hnot : ¬ bitsOf (code <<< (length - previous)) length <+:
          bitsOf entry.2.1 entry.2.2 := by
        intro hpre
        have hlen : entry.2.2 = length + (entry.2.2 - length) := by have := hlow.1; omega
        rw [hlen, bitsOf_add] at hpre
        have htake := List.prefix_of_prefix_length_le hpre (List.prefix_append _ _) (by simp)
        have hbits := htake.eq_of_length (by simp)
        have hsmall : entry.2.1 >>> (entry.2.2 - length) < 2 ^ length := by
          rw [Nat.shiftRight_eq_div_pow, Nat.div_lt_iff_lt_mul (Nat.two_pow_pos _), ← Nat.pow_add,
            ← hlen]
          exact hlater
        have hval : code <<< (length - previous) = entry.2.1 >>> (entry.2.2 - length) :=
          bitsOf_inj _ _ length hfirst hsmall hbits
        have hnext := hlow.2
        rw [← hval] at hnext
        exact Nat.not_succ_le_self _ hnext
      refine ⟨hnot, ?_⟩
      intro hpre
      have hle := hpre.length_le
      simp only [wordOf, bitsOf_length] at hle
      have heq : entry.2.2 = length := Nat.le_antisymm hle hlow.1
      apply hnot
      have hsame := hpre.eq_of_length (by simp [wordOf, heq])
      simp only [wordOf] at hsame
      rw [hsame]

end Coding
