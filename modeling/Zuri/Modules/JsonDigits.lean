import Zuri.Float.Exact
import Zuri.Modules.JsonParse

/-!
The text of a double is a numeral of RFC 8259 that is read as the double. Every candidate has
been read to see that it is, and the exact decimal is read without rounding.
-/

namespace Zuri.Json

theorem digitChar_spec : ∀ n, (digitChar n).isDigit = true ∧ (digitChar n).toNat - '0'.toNat = n % 10 := by
  have hchars : ∀ k < 10, (Char.ofNat ('0'.toNat + k)).isDigit = true ∧
      (Char.ofNat ('0'.toNat + k)).toNat - '0'.toNat = k := by decide
  exact fun n => hchars (n % 10) (Nat.mod_lt _ (by decide))

theorem lastDigits_digits (width n : Nat) : ∀ c ∈ lastDigits width n, c.isDigit = true := by
  induction width generalizing n with
  | zero => exact fun c hc => absurd hc (by simp [lastDigits])
  | succ width ih =>
      intro c hc
      rcases List.mem_append.mp hc with hc | hc
      · exact ih _ c hc
      · rw [List.mem_singleton.mp hc]
        exact (digitChar_spec n).1

theorem lastDigits_length (width n : Nat) : (lastDigits width n).length = width := by
  induction width generalizing n with
  | zero => rfl
  | succ width ih => rw [lastDigits, List.length_append, ih, List.length_singleton]

theorem natOf_append (a b : Text) :
    Numeral.natOf (a ++ b) = Numeral.natOf a * 10 ^ b.length + Numeral.natOf b := by
  unfold Numeral.natOf
  rw [List.foldl_append]
  generalize List.foldl (fun n c => n * 10 + (c.toNat - '0'.toNat)) 0 a = k
  induction b generalizing k with
  | nil => simp
  | cons c b ih =>
      rw [List.foldl_cons, List.foldl_cons, ih, ih (0 * 10 + _), List.length_cons, Nat.pow_succ]
      ring

theorem natOf_lastDigits (width n : Nat) :
    Numeral.natOf (lastDigits width n) = n % 10 ^ width := by
  induction width generalizing n with
  | zero => rw [Nat.pow_zero, Nat.mod_one]; rfl
  | succ width ih =>
      have hdigit : Numeral.natOf [digitChar n] = n % 10 := by
        change 0 * 10 + _ = _
        rw [(digitChar_spec n).2, Nat.zero_mul, Nat.zero_add]
      rw [lastDigits, natOf_append, ih, hdigit, List.length_singleton, Nat.pow_one,
        Nat.pow_succ', Nat.mod_mul]
      omega

theorem natOf_digitsOf (n : Nat) : Numeral.natOf (digitsOf n) = n := by
  rw [digitsOf, natOf_lastDigits]
  exact Nat.mod_eq_of_lt (Nat.lt_pow_succ_log_self (by decide) n)

theorem lastDigits_head (width n : Nat) :
    (lastDigits (width + 1) n).head? = some (digitChar (n / 10 ^ width)) := by
  induction width generalizing n with
  | zero => rw [Nat.pow_zero, Nat.div_one]; rfl
  | succ width ih =>
      rw [lastDigits, List.head?_append, ih, Nat.div_div_eq_div_mul, ← Nat.pow_succ']
      rfl

theorem digitsOf_head (n : Nat) :
    digitsOf n = ['0'] ∨ digitsOf n ≠ [] ∧ (digitsOf n).head? ≠ some '0' := by
  rcases Nat.eq_zero_or_pos n with rfl | hpos
  · exact .inl (by decide)
  · refine .inr ⟨?_, fun h => ?_⟩
    · apply List.ne_nil_of_length_pos
      rw [digitsOf, lastDigits_length]
      exact Nat.succ_pos _
    · rw [digitsOf, lastDigits_head] at h
      have hlow : 10 ^ Nat.log 10 n ≤ n := Nat.pow_log_le_self 10 (Nat.ne_of_gt hpos)
      have hhigh : n < 10 ^ (Nat.log 10 n + 1) := Nat.lt_pow_succ_log_self (by decide) n
      have hquotient : n / 10 ^ Nat.log 10 n < 10 := by
        rw [Nat.div_lt_iff_lt_mul (Nat.pow_pos (by decide)), ← Nat.pow_succ']
        exact hhigh
      have hone : 0 < n / 10 ^ Nat.log 10 n := Nat.div_pos hlow (Nat.pow_pos (by decide))
      have hdigit := (digitChar_spec (n / 10 ^ Nat.log 10 n)).2
      rw [Option.some.inj h, Nat.mod_eq_of_lt hquotient] at hdigit
      rw [← hdigit] at hone
      exact absurd hone (by decide)

theorem formatDecimal_rfc8259 (digits : Nat) (exponent : Int) :
    (formatDecimal digits exponent).Rfc8259 := by
  unfold formatDecimal
  split
  · exact {
      whole := lastDigits_digits _ _
      fraction := fun c hc => absurd hc (by simp)
      letter := fun e he => absurd he (by simp)
      sign := fun e he => absurd he (by simp)
      exponent := fun e he => absurd he (by simp)
      noLeadingZero := digitsOf_head _
      digitsAfterPoint := by simp
      digitsInExponent := fun e he => absurd he (by simp) }
  · next hneg =>
      exact {
        whole := lastDigits_digits _ _
        fraction := lastDigits_digits _ _
        letter := fun e he => absurd he (by simp)
        sign := fun e he => absurd he (by simp)
        exponent := fun e he => absurd he (by simp)
        noLeadingZero := digitsOf_head _
        digitsAfterPoint := fun h => by
          have hlength := congrArg List.length (Option.some.inj h)
          rw [lastDigits_length, List.length_nil] at hlength
          omega
        digitsInExponent := fun e he => absurd he (by simp) }

theorem trimZeros_rfc8259 (fuel digits : Nat) (exponent : Int) :
    (trimZeros fuel digits exponent).Rfc8259 := by
  induction fuel generalizing digits exponent with
  | zero => exact formatDecimal_rfc8259 _ _
  | succ fuel ih =>
      rw [trimZeros]
      split
      · exact ih _ _
      · exact formatDecimal_rfc8259 _ _

theorem candidates_rfc8259 {mag count : Nat} {u : Numeral} (h : u ∈ candidates mag count) :
    u.Rfc8259 := by
  unfold candidates at h
  simp only at h
  split at h
  all_goals
    simp only [List.mem_cons, List.not_mem_nil, or_false] at h
    rcases h with rfl | rfl <;> exact trimZeros_rfc8259 _ _ _

/-- The exact decimal of a magnitude is read as it. -/
theorem formatDecimal_value {mag places : Nat} (h : F64.Representable mag)
    (hone : F64.one = 2 ^ places) (hplaces : 0 < places) (neg : Bool) :
    (formatDecimal (mag * 5 ^ places) (-places)).value neg = F64.ofNum (.fin neg mag) := by
  have hpow : mag * 5 ^ places * F64.one = mag * 10 ^ places := by
    rw [Nat.mul_assoc, hone, ← Nat.mul_pow]
  have hdigits : ∀ n k : Nat, Numeral.natOf (digitsOf (n / 10 ^ k) ++
      lastDigits k (n % 10 ^ k)) = n := by
    intro n k
    rw [natOf_append, natOf_digitsOf, natOf_lastDigits, lastDigits_length, Nat.mod_mod,
      Nat.mul_comm]
    exact Nat.div_add_mod n (10 ^ k)
  have hcount : (-(-(places : Int))).toNat = places := by omega
  have hup : ((0 : Int) - places).toNat = 0 := by omega
  have hdown : (-((0 : Int) - places)).toNat = places := by omega
  unfold formatDecimal
  rw [if_neg (by omega)]
  simp only [hcount, Numeral.value, Option.getD_some, hdigits, lastDigits_length,
    Numeral.exponentOf]
  unfold Numeral.decimal
  rw [hup, hdown, Nat.pow_zero, Nat.mul_one, hpow,
    F64.round_exact neg h _ (Nat.pow_pos (by decide))]

theorem exactDecimal_value {mag : Nat} (h : F64.Representable mag) (neg : Bool) :
    (exactDecimal mag).value neg = F64.ofNum (.fin neg mag) :=
  formatDecimal_value h rfl (by decide) neg

/-- A numeral that is a positive double is its negative with a minus. -/
theorem value_neg {u : Numeral} {mag : Nat} (h : F64.Representable mag)
    (hu : u.value false = F64.ofNum (.fin false mag)) (neg : Bool) :
    u.value neg = F64.ofNum (.fin neg mag) := by
  unfold Numeral.value Numeral.decimal at hu ⊢
  generalize Numeral.natOf _ * 10 ^ _ * F64.one = n at hu ⊢
  have hd : 0 < 10 ^ (-(Numeral.exponentOf u.exponent - (u.fraction.getD []).length)).toNat :=
    Nat.pow_pos (by decide)
  generalize 10 ^ (-(Numeral.exponentOf u.exponent - (u.fraction.getD []).length)).toNat = d
    at hu hd ⊢
  have hnum := congrArg F64.num hu
  rw [F64.num_round _ _ _ hd, F64.num_ofNum_fin _ h] at hnum
  unfold F64.round at hnum ⊢
  simp only at hnum ⊢
  generalize F64.limit = bound at hnum ⊢
  by_cases hlt : F64.roundMag n d < bound
  · rw [if_pos hlt] at hnum ⊢
    rw [(F64.Num.fin.inj hnum).2]
  · rw [if_neg hlt] at hnum
    exact absurd hnum (by simp)

theorem shortest_value {mag : Nat} (h : F64.Representable mag) (neg : Bool) :
    (shortest mag).value neg = F64.ofNum (.fin neg mag) := by
  unfold shortest
  split
  · next hzero =>
      subst hzero
      cases neg <;> decide +kernel
  · simp only
    cases hfound : (List.range 17).findSome? fun count =>
        (candidates mag (count + 1)).find? fun u =>
          decide (u.value false = F64.ofNum (.fin false mag)) with
    | none =>
        rw [Option.getD_none]
        exact exactDecimal_value h neg
    | some u =>
        obtain ⟨count, -, hcount⟩ := List.exists_of_findSome?_eq_some hfound
        have hvalue := List.find?_some hcount
        simp only [decide_eq_true_eq] at hvalue
        exact value_neg h hvalue neg

theorem shortest_rfc8259 (mag : Nat) : (shortest mag).Rfc8259 := by
  unfold shortest
  split
  · exact formatDecimal_rfc8259 _ _
  · simp only
    cases hfound : (List.range 17).findSome? fun count =>
        (candidates mag (count + 1)).find? fun u =>
          decide (u.value false = F64.ofNum (.fin false mag)) with
    | none =>
        rw [Option.getD_none]
        exact formatDecimal_rfc8259 _ _
    | some u =>
        obtain ⟨count, -, hcount⟩ := List.exists_of_findSome?_eq_some hfound
        exact candidates_rfc8259 (List.mem_of_find?_eq_some hcount)

/-- The text of a finite double is a numeral of its value. -/
theorem displayF64_number {x : F64} {neg : Bool} {mag : Nat} (hx : x.num = .fin neg mag)
    (comments : Bool) (r : Text) : IsValue (rfc8259 comments) (displayF64 x ++ r) (.number x) r := by
  have hvalue : x = (shortest mag).value neg := by
    rw [shortest_value (F64.representable_num hx), ← hx, F64.ofNum_num (by rw [hx]; simp)]
  have htext : displayF64 x = minusText neg ++ (shortest mag).text := by
    unfold displayF64
    rw [hx]
  rw [htext, hvalue]
  exact .number r (shortest_rfc8259 mag)

end Zuri.Json
