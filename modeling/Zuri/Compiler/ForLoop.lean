import Zuri.Float.Whole

/-!
`for x in LOWER..UPPER` as the counting loop it is lowered to, and as the loop over a range
value it stands for. The body is any program: it may assign to the variable, and what a
closure does to it between two passes is part of what the body does. Of a loop is seen
the value the variable has at the start of each pass.
-/

namespace Zuri.Compiler.ForLoop

inductive Value (Object : Type) where
  | nil
  | number (x : F64)
  | other (o : Object)

structure Range where
  lower : F64
  upper : F64
  step : F64 := .ofInt 1

namespace Range

def stride (r : Range) : F64 := if F64.zero.lt r.step then r.step else .ofInt 1

/-- How many numbers the range has, before it is made a whole number. -/
def span (r : Range) : F64 := ((r.upper.sub r.lower).abs.div r.stride).ceil

/-- The method `@key`: the index after the one given. -/
def key (r : Range) (val : Option F64) : Option F64 :=
  let count := r.span.toInt
  if count ≤ 0 then none
  else
    match val with
    | none => some .zero
    | some val =>
        let index := val.toInt
        if index < count - 1 then some ((F64.ofInt index).add (.ofInt 1)) else none

/-- The method `@value`: the number at an index. -/
def value (r : Range) (index : F64) : Option F64 :=
  if F64.zero.le index && index.lt r.span then
    if r.lower.le r.upper then some (r.lower.add (index.mul r.stride))
    else some (r.lower.sub (index.mul r.stride))
  else none

end Range

variable {σ Object : Type}

/-- What a pass of the body does with the variable and with everything else; nothing if it
leaves the loop. A `continue` ends the pass. -/
abbrev Body (σ Object : Type) := Value Object → σ → Option (Value Object × σ)

/-- The value of the variable at an index. -/
def fetch (r : Range) (key : F64) : Value Object :=
  match r.value key with
  | some x => .number x
  | none => .nil

/-- The first passes of the loop over a range value. -/
def forLoop (r : Range) (body : Body σ Object) : Nat → Option F64 → σ → List (Value Object)
  | 0, _, _ => []
  | n + 1, key, s =>
      match r.key key with
      | none => []
      | some key =>
          fetch r key ::
            match body (fetch r key) s with
            | none => []
            | some (_, s) => forLoop r body n (some key) s

/-- What `+` gives for a value that is no number; nothing if it raises. -/
abbrev Plus (σ Object : Type) := Value Object → F64 → σ → Option (Value Object)

def advance (plus : Plus σ Object) (step : F64) (x : Value Object) (s : σ) :
    Option (Value Object) :=
  match x with
  | .number y => some (.number (y.add step))
  | x => plus x step s

/-- The first passes of a loop that counts. -/
def countedLoop (plus : Plus σ Object) (body : Body σ Object) (count step : F64) :
    Nat → F64 → Value Object → σ → List (Value Object)
  | 0, _, _, _ => []
  | fuel + 1, n, x, s =>
      if n.lt count then
        x ::
          match body x s with
          | none => []
          | some (x, s) =>
              match advance plus step x s with
              | none => []
              | some x => countedLoop plus body count step fuel (n.add (.ofInt 1)) x s
      else []

def countOf (lower upper : F64) : F64 :=
  if lower.le upper then upper.sub lower else lower.sub upper

def stepOf (lower upper : F64) : F64 := if lower.le upper then .ofInt 1 else .ofInt (-1)

def countedRangeLoop (plus : Plus σ Object) (body : Body σ Object) (lower upper : F64)
    (fuel : Nat) (s : σ) : List (Value Object) :=
  countedLoop plus body (countOf lower upper) (stepOf lower upper) fuel (.ofInt 0) (.number lower) s

/-- A pass of the loop over the range: its key, and everything else at its start. -/
inductive Pass (r : Range) (body : Body σ Object) (start : σ) : F64 → σ → Prop
  | first (key : F64) (hkey : r.key none = some key) : Pass r body start key start
  | next (key after : F64) (s t : σ) (left : Value Object) (h : Pass r body start key s)
      (hbody : body (fetch r key) s = some (left, t)) (hkey : r.key (some key) = some after) :
      Pass r body start after t

/-- The lower bound is what is fetched first, and what a pass leaves in the variable, advanced, is
what is fetched next, if anything is. -/
structure Steady (plus : Plus σ Object) (body : Body σ Object) (lower upper : F64) (start : σ) :
    Prop where
  first : ∀ key, Range.key ⟨lower, upper, .ofInt 1⟩ none = some key →
    fetch ⟨lower, upper, .ofInt 1⟩ key = (.number lower : Value Object)
  next : ∀ key s left t after, Pass ⟨lower, upper, .ofInt 1⟩ body start key s →
    body (fetch ⟨lower, upper, .ofInt 1⟩ key) s = some (left, t) →
      Range.key ⟨lower, upper, .ofInt 1⟩ (some key) = some after →
        advance plus (stepOf lower upper) left t = some (fetch ⟨lower, upper, .ofInt 1⟩ after)

open F64 (one ofInt signed)

/-- The range between two bounds, as it is made. -/
abbrev between (lower upper : F64) : Range := ⟨lower, upper, .ofInt 1⟩

theorem num_one : (ofInt 1).num = .fin false one := by
  have h := F64.num_ofInt (n := 1) (by decide)
  have hneg : decide ((1 : Int) < 0) = false := rfl
  rw [hneg, Int.natAbs_one, Nat.one_mul] at h
  exact h

theorem zero_lt_fin {mag : Nat} (hmag : 0 < mag) :
    (F64.Num.fin false 0).lt (.fin false mag) = true := by
  simp [F64.Num.lt, signed, hmag]

theorem stride_between (lower upper : F64) : (between lower upper).stride = ofInt 1 := by
  have hpos : F64.zero.lt (ofInt 1) = true := by
    have hzero : F64.zero.num = .fin false 0 := rfl
    rw [F64.lt, hzero, num_one]
    exact zero_lt_fin F64.one_pos
  simp only [Range.stride, hpos, if_true]

theorem num_div_one (x : F64) : (x.div (ofInt 1)).num = x.num := by
  unfold F64.div
  rw [num_one]
  cases hx : x.num with
  | nan => exact F64.num_ofNum_nan
  | inf s =>
      have hsign : (s != false) = s := by cases s <;> rfl
      simp only [F64.Num.div, hsign]
      exact F64.num_ofNum_inf s
  | fin s a =>
      have hsign : (s != false) = s := by cases s <;> rfl
      simp only [F64.Num.div, if_neg (Nat.ne_of_gt F64.one_pos), hsign,
        F64.round_exact s (F64.representable_num hx) one F64.one_pos]
      exact F64.num_ofNum_fin s (F64.representable_num hx)

def wholes (mag : Nat) : Nat := (mag + one - 1) / one

theorem lt_wholes (j mag : Nat) : j < wholes mag ↔ j * one < mag := by
  have hpos := F64.one_pos
  unfold wholes
  rw [Nat.lt_iff_add_one_le, Nat.le_div_iff_mul_le hpos, Nat.add_mul]
  omega

theorem wholes_whole (q : Nat) : wholes (q * one) = q := by
  have h := lt_wholes (wholes (q * one)) (q * one)
  have k := lt_wholes q (q * one)
  have hpos := F64.one_pos
  have hge : q ≤ wholes (q * one) := by
    by_contra hlt
    have hmul := Nat.mul_lt_mul_of_pos_right (Nat.lt_of_not_le hlt) hpos
    omega
  omega

theorem num_ceil {x : F64} {mag : Nat} (h : x.num = .fin false mag) :
    x.ceil.num = .fin false (wholes mag * one) := by
  have hmag := F64.representable_num h
  have hceil : x.num.ceil = .fin false (wholes mag * one) := by
    simp only [h, F64.Num.ceil, wholes, Bool.false_eq_true, if_false]
  unfold F64.ceil
  rw [hceil]
  apply F64.num_ofNum_fin
  by_cases hsmall : wholes mag ≤ 2 ^ 53
  · exact F64.representable_whole hsmall
  · have hlarge : 2 ^ 53 * one < mag := (lt_wholes _ _).mp (by omega)
    obtain ⟨q, hq⟩ := hmag.even hlarge
    have hwhole : wholes mag * one = mag := by
      rw [hq, wholes_whole]
    rw [hwhole]
    exact hmag

/-- What a width comes to when its numbers are counted. -/
def F64.Num.counted : F64.Num → F64.Num
  | .nan => .nan
  | .inf _ => .inf false
  | .fin _ mag => .fin false (wholes mag * one)

/-- How many numbers there are between two bounds, as a number. -/
theorem span_num (lower upper : F64) :
    (between lower upper).span.num = F64.Num.counted (upper.sub lower).num := by
  have habs := F64.num_abs (upper.sub lower)
  have hdiv := num_div_one (upper.sub lower).abs
  rw [habs] at hdiv
  unfold Range.span
  rw [stride_between]
  simp only
  cases hnum : (upper.sub lower).num with
  | nan =>
      rw [hnum] at hdiv
      unfold F64.ceil
      rw [hdiv]
      exact F64.num_ofNum_nan
  | inf s =>
      rw [hnum] at hdiv
      unfold F64.ceil
      rw [hdiv]
      exact F64.num_ofNum_inf false
  | fin s mag =>
      rw [hnum] at hdiv
      exact num_ceil hdiv

/-- A whole number is less than the width if it is less than how many there are. -/
theorem whole_lt_span {j : Nat} (hj : j ≤ 2 ^ 53) (width span : F64)
    (hspan : span.num = F64.Num.counted width.num) :
    (F64.Num.fin false (j * one)).lt width.num.abs = true ↔ (j : Int) < span.toInt := by
  have hbig : (j : Int) < 2 ^ 63 - 1 := by omega
  unfold F64.toInt
  rw [hspan]
  cases width.num with
  | nan => simp [F64.Num.abs, F64.Num.lt, F64.Num.counted, F64.Num.toInt]
  | inf s =>
      simp only [F64.Num.abs, F64.Num.lt, Bool.not_false, F64.Num.counted, F64.Num.toInt,
        Bool.false_eq_true, if_false, true_iff]
      exact hbig
  | fin s mag =>
      have hless := lt_wholes j mag
      have hquotient : wholes mag * one / one = wholes mag := Nat.mul_div_cancel _ F64.one_pos
      simp only [F64.Num.abs, F64.Num.lt, F64.Num.counted, F64.Num.toInt, F64.signed,
        Bool.false_eq_true, if_false, hquotient, decide_eq_true_eq]
      generalize wholes mag = w at hless
      generalize j * one = m at hless ⊢
      omega

theorem abs_round (s : Bool) (n d : Nat) : (F64.round s n d).abs = F64.round false n d := by
  unfold F64.round
  simp only
  split <;> rfl

theorem signed_not (s : Bool) (mag : Nat) : signed (!s) mag = -signed s mag := by
  cases s <;> simp [F64.signed]

theorem abs_sub_comm (a b : F64.Num) : (a.add b.neg).abs = (b.add a.neg).abs := by
  cases a with
  | nan => cases b <;> rfl
  | inf s =>
      cases b with
      | nan => rfl
      | inf t => cases s <;> cases t <;> rfl
      | fin t n => rfl
  | fin s m =>
      cases b with
      | nan => rfl
      | inf t => rfl
      | fin t n =>
          have hneg : signed t n + -signed s m = -(signed s m + -signed t n) := by ring
          simp only [F64.Num.neg, F64.Num.add, signed_not, hneg]
          generalize signed s m + -signed t n = sum
          by_cases hzero : sum = 0
          · simp [hzero, F64.Num.abs]
          · have hother : -sum ≠ 0 := by omega
            rw [if_neg hzero, if_neg hother, abs_round, abs_round, Int.natAbs_neg]

/-- The larger less the smaller is no less than its magnitude. -/
theorem lt_sub (a b : F64.Num) (h : (b.lt a || b.eq a) = true) (k : Nat) :
    (F64.Num.fin false k).lt (a.add b.neg) = (F64.Num.fin false k).lt (a.add b.neg).abs := by
  cases a with
  | nan => rfl
  | inf s =>
      cases b with
      | nan => rfl
      | inf t =>
          cases s <;> cases t <;> simp_all [F64.Num.lt, F64.Num.eq, F64.Num.add, F64.Num.neg, F64.Num.abs]
      | fin t n =>
          cases s with
          | true => simp [F64.Num.lt, F64.Num.eq] at h
          | false => rfl
  | fin s m =>
      cases b with
      | nan => rfl
      | inf t =>
          cases t with
          | true => rfl
          | false => simp [F64.Num.lt, F64.Num.eq] at h
      | fin t n =>
          have hle : signed t n ≤ signed s m := by
            simp only [F64.Num.lt, F64.Num.eq, Bool.or_eq_true, decide_eq_true_eq] at h
            omega
          simp only [F64.Num.neg, F64.Num.add, signed_not]
          have hsum : 0 ≤ signed s m + -signed t n := by omega
          generalize signed s m + -signed t n = sum at hsum
          by_cases hzero : sum = 0
          · simp [hzero, F64.Num.abs, F64.Num.lt, F64.signed]
          · have hpos : decide (sum < 0) = false := by
              rw [decide_eq_false_iff_not]
              omega
            rw [if_neg hzero, hpos, abs_round]

theorem sub_unordered (a b : F64.Num) (h : ¬ (a.lt b || a.eq b) = true)
    (k : ¬ (b.lt a || b.eq a) = true) : a.add b.neg = .nan := by
  cases a with
  | nan => rfl
  | inf s =>
      cases b with
      | nan => rfl
      | inf t => cases s <;> cases t <;> simp_all [F64.Num.lt, F64.Num.eq]
      | fin t n => cases s <;> simp_all [F64.Num.lt, F64.Num.eq]
  | fin s m =>
      cases b with
      | nan => rfl
      | inf t => cases t <;> simp_all [F64.Num.lt, F64.Num.eq]
      | fin t n =>
          simp only [F64.Num.lt, F64.Num.eq, Bool.or_eq_true, decide_eq_true_eq] at h k
          omega

/-- Counting goes on where the range has one more. -/
theorem lt_count {j : Nat} (hj : j ≤ 2 ^ 53) (lower upper : F64) :
    (ofInt j).lt (countOf lower upper) = true ↔ (j : Int) < (between lower upper).span.toInt := by
  have hspan := whole_lt_span hj (upper.sub lower) _ (span_num lower upper)
  rw [← hspan]
  have hwhole : (ofInt j).num = .fin false (j * one) := by
    have hnum := F64.num_ofInt (n := j) (by omega)
    have hneg : decide ((j : Int) < 0) = false := decide_eq_false (by omega)
    rw [hneg, Int.natAbs_natCast] at hnum
    exact hnum
  unfold F64.lt countOf
  rw [hwhole]
  split
  · rename_i hle
    rw [F64.num_sub, lt_sub _ _ hle]
  · rename_i hle
    rw [F64.num_sub, F64.num_sub, abs_sub_comm upper.num lower.num]
    by_cases hother : (upper.num.lt lower.num || upper.num.eq lower.num) = true
    · rw [lt_sub _ _ hother]
    · rw [sub_unordered lower.num upper.num hle hother]
      rfl

theorem add_stuck :
    (ofInt ((2 ^ 53 : Nat) : Int)).add (ofInt 1) = ofInt ((2 ^ 53 : Nat) : Int) := by
  decide +kernel

theorem key_none (lower upper : F64) :
    (between lower upper).key none =
      if (ofInt 0).lt (countOf lower upper) = true then some (ofInt 0) else none := by
  have hzero : F64.zero = ofInt 0 := by rfl
  have hlt := lt_count (j := 0) (by decide) lower upper
  rw [Nat.cast_zero] at hlt
  unfold Range.key
  simp only
  by_cases hpos : (0 : Int) < (between lower upper).span.toInt
  · rw [if_neg (by omega), if_pos (hlt.mpr hpos), hzero]
  · rw [if_pos (by omega), if_neg fun h => hpos (hlt.mp h)]

theorem span_even (lower upper : F64) (h : (2 : Int) ^ 53 < (between lower upper).span.toInt) :
    (2 : Int) ^ 53 + 1 < (between lower upper).span.toInt := by
  have hspan := span_num lower upper
  unfold F64.toInt at h ⊢
  rw [hspan] at h ⊢
  cases hwidth : (upper.sub lower).num with
  | nan =>
      rw [hwidth] at h
      simp [F64.Num.counted, F64.Num.toInt] at h
  | inf s => simp [F64.Num.counted, F64.Num.toInt]
  | fin s mag =>
      rw [hwidth] at h
      have hquotient : wholes mag * one / one = wholes mag := Nat.mul_div_cancel _ F64.one_pos
      simp only [F64.Num.counted, F64.Num.toInt, F64.signed, Bool.false_eq_true, if_false,
        hquotient] at h ⊢
      have hlarge : 2 ^ 53 * one < mag := (lt_wholes _ _).mp (by omega)
      obtain ⟨q, hq⟩ := (F64.representable_num hwidth).even hlarge
      have hwhole : wholes mag = 2 * q := by
        rw [hq, wholes_whole]
      rw [hwhole] at h ⊢
      omega

/-- The next key is the next count, as long as there is one. -/
theorem key_some {j : Nat} (hj : j ≤ 2 ^ 53) (lower upper : F64) :
    (between lower upper).key (some (ofInt j)) =
      if ((ofInt j).add (ofInt 1)).lt (countOf lower upper) = true then
        some ((ofInt j).add (ofInt 1))
      else none := by
  have hindex : (ofInt j).toInt = j := F64.toInt_ofInt (by omega)
  have hlt : ((ofInt j).add (ofInt 1)).lt (countOf lower upper) = true ↔
      (j : Int) < (between lower upper).span.toInt - 1 := by
    by_cases hsmall : j < 2 ^ 53
    · have hadd := F64.add_ofInt (a := j) (b := 1) (by omega) (by decide)
      have hnext := lt_count (j := j + 1) (by omega) lower upper
      rw [Nat.cast_add, Nat.cast_one] at hnext
      rw [hadd, hnext]
      omega
    · have hlast : j = 2 ^ 53 := by omega
      subst hlast
      have hnext := lt_count (j := 2 ^ 53) (by decide) lower upper
      have heven := span_even lower upper
      rw [add_stuck, hnext]
      push_cast
      omega
  unfold Range.key
  simp only [hindex]
  by_cases hmore : (j : Int) < (between lower upper).span.toInt - 1
  · rw [if_neg (by omega), if_pos hmore, if_pos (hlt.mpr hmore)]
  · rw [if_neg hmore, if_neg fun h => hmore (hlt.mp h), ite_self]

/-- A count stays a whole number the next count is made from. -/
theorem next_count {j : Nat} (hj : j ≤ 2 ^ 53) :
    ∃ k ≤ 2 ^ 53, (ofInt j).add (ofInt 1) = ofInt (k : Nat) := by
  by_cases hsmall : j < 2 ^ 53
  · refine ⟨j + 1, by omega, ?_⟩
    have hadd := F64.add_ofInt (a := j) (b := 1) (by omega) (by decide)
    rw [hadd, Nat.cast_add, Nat.cast_one]
  · have hlast : j = 2 ^ 53 := by omega
    refine ⟨j, hj, ?_⟩
    subst hlast
    exact add_stuck

/-- The loop over a range, at the start of a pass. -/
def passesFrom (r : Range) (body : Body σ Object) (fuel : Nat) (key : F64) (s : σ) :
    List (Value Object) :=
  match fuel with
  | 0 => []
  | fuel + 1 =>
      fetch r key ::
        match body (fetch r key) s with
        | none => []
        | some (_, s) => forLoop r body fuel (some key) s

theorem forLoop_key {r : Range} {body : Body σ Object} {from_ : Option F64} {key : F64}
    (h : r.key from_ = some key) (fuel : Nat) (s : σ) :
    forLoop r body fuel from_ s = passesFrom r body fuel key s := by
  cases fuel with
  | zero => rfl
  | succ fuel =>
      simp only [forLoop, h]
      rfl

theorem forLoop_end {r : Range} {body : Body σ Object} {from_ : Option F64}
    (h : r.key from_ = none) (fuel : Nat) (s : σ) : forLoop r body fuel from_ s = [] := by
  cases fuel with
  | zero => rfl
  | succ fuel => simp only [forLoop, h]

theorem countedLoop_end (plus : Plus σ Object) (body : Body σ Object) {count step n : F64}
    (h : ¬ n.lt count = true) (fuel : Nat) (x : Value Object) (s : σ) :
    countedLoop plus body count step fuel n x s = [] := by
  cases fuel with
  | zero => rfl
  | succ fuel => simp only [countedLoop, if_neg h]

section Agreement

variable {plus : Plus σ Object} {body : Body σ Object} {lower upper : F64} {start : σ}

/-- The key of every pass is a whole number below the count. -/
theorem Pass.whole {key : F64} {s : σ} (h : Pass (between lower upper) body start key s) :
    (∃ j : Nat, j ≤ 2 ^ 53 ∧ key = ofInt j) ∧ key.lt (countOf lower upper) = true := by
  induction h with
  | first key hkey =>
      rw [key_none] at hkey
      split at hkey
      · rename_i hlt
        cases hkey
        exact ⟨⟨0, by decide, by rw [Nat.cast_zero]⟩, hlt⟩
      · cases hkey
  | next key after s t left _ _ hkey ih =>
      obtain ⟨⟨j, hj, rfl⟩, _⟩ := ih
      rw [key_some hj] at hkey
      split at hkey
      · rename_i hlt
        cases hkey
        obtain ⟨k, hk, hadd⟩ := next_count hj
        exact ⟨⟨k, hk, hadd⟩, hlt⟩
      · cases hkey

/-- What counting does after a pass whose body goes on. -/
theorem countedLoop_next {key : F64} {s t : σ} {left : Value Object}
    (h : Pass (between lower upper) body start key s)
    (hbody : body (fetch (between lower upper) key) s = some (left, t)) (fuel : Nat) :
    countedLoop plus body (countOf lower upper) (stepOf lower upper) (fuel + 1) key
        (fetch (between lower upper) key) s =
      fetch (between lower upper) key ::
        match (between lower upper).key (some key) with
        | none => []
        | some after =>
            match advance plus (stepOf lower upper) left t with
            | none => []
            | some x =>
                countedLoop plus body (countOf lower upper) (stepOf lower upper) fuel after x t := by
  obtain ⟨⟨j, hj, rfl⟩, hlt⟩ := h.whole
  rw [key_some hj]
  simp only [countedLoop, if_pos hlt, hbody]
  by_cases hmore : ((ofInt j).add (ofInt 1)).lt (countOf lower upper) = true
  · rw [if_pos hmore]
  · rw [if_neg hmore]
    cases advance plus (stepOf lower upper) left t with
    | none => rfl
    | some x => simp only [countedLoop_end plus body hmore]

/-- If the variable is steady, the passes agree from any of them on. -/
theorem Steady.passes (h : Steady plus body lower upper start) (fuel : Nat) {key : F64} {s : σ}
    (hpass : Pass (between lower upper) body start key s) :
    passesFrom (between lower upper) body fuel key s =
      countedLoop plus body (countOf lower upper) (stepOf lower upper) fuel key
        (fetch (between lower upper) key) s := by
  induction fuel generalizing key s with
  | zero => rfl
  | succ fuel ih =>
      cases hbody : body (fetch (between lower upper) key) s with
      | none => simp only [passesFrom, countedLoop, hpass.whole.2, if_true, hbody]
      | some result =>
          obtain ⟨left, t⟩ := result
          rw [countedLoop_next hpass hbody]
          simp only [passesFrom, hbody]
          cases hkey : (between lower upper).key (some key) with
          | none => rw [forLoop_end hkey]
          | some after =>
              have hnext := h.next key s left t after hpass hbody hkey
              rw [forLoop_key hkey, hnext]
              simp only
              rw [ih (.next key after s t left hpass hbody hkey)]

/-- Where the loops agree from a pass on, the variable is steady over it. -/
theorem agree_next {key after : F64} {s t : σ} {left : Value Object}
    (hpass : Pass (between lower upper) body start key s)
    (hbody : body (fetch (between lower upper) key) s = some (left, t))
    (hkey : (between lower upper).key (some key) = some after)
    (h : ∀ fuel, passesFrom (between lower upper) body fuel key s =
      countedLoop plus body (countOf lower upper) (stepOf lower upper) fuel key
        (fetch (between lower upper) key) s) :
    advance plus (stepOf lower upper) left t = some (fetch (between lower upper) after) := by
  have hnext : Pass (between lower upper) body start after t :=
    .next key after s t left hpass hbody hkey
  have hone := h 2
  rw [countedLoop_next hpass hbody, hkey] at hone
  simp only [passesFrom, hbody, forLoop_key hkey, List.cons.injEq, true_and] at hone
  cases hadvance : advance plus (stepOf lower upper) left t with
  | none => simp [hadvance] at hone
  | some x =>
      simp only [hadvance, countedLoop, if_pos hnext.whole.2, List.cons.injEq] at hone
      rw [hone.1]

/-- The counting loop starts the same passes with the same values as the loop over the
range, exactly if the variable is steady. -/
theorem agree_iff (plus : Plus σ Object) (body : Body σ Object)
    (lower upper : F64) (start : σ) :
    (∀ fuel, countedRangeLoop plus body lower upper fuel start =
        forLoop ⟨lower, upper, .ofInt 1⟩ body fuel none start) ↔
      Steady plus body lower upper start := by
  have hfirst : ∀ key, (between lower upper).key none = some key →
      key = ofInt 0 ∧ (ofInt 0).lt (countOf lower upper) = true := by
    intro key hkey
    rw [key_none] at hkey
    split at hkey
    · rename_i hlt
      cases hkey
      exact ⟨rfl, hlt⟩
    · cases hkey
  constructor
  · intro h
    have hlower : ∀ key, (between lower upper).key none = some key →
        fetch (between lower upper) key = (.number lower : Value Object) := by
      intro key hkey
      obtain ⟨rfl, hlt⟩ := hfirst key hkey
      have hone := h 1
      rw [forLoop_key hkey] at hone
      simp only [countedRangeLoop, countedLoop, if_pos hlt, passesFrom, List.cons.injEq] at hone
      exact hone.1.symm
    have hagree : ∀ key s, Pass (between lower upper) body start key s → ∀ fuel,
        passesFrom (between lower upper) body fuel key s =
          countedLoop plus body (countOf lower upper) (stepOf lower upper) fuel key
            (fetch (between lower upper) key) s := by
      intro key s hpass
      induction hpass with
      | first key hkey =>
          intro fuel
          rw [hlower key hkey, ← forLoop_key hkey, ← h fuel, (hfirst key hkey).1]
          rfl
      | next key after s t left hpass hbody hkey ih =>
          intro fuel
          have hadvance := agree_next hpass hbody hkey ih
          have hmore := ih (fuel + 1)
          rw [countedLoop_next hpass hbody, hkey] at hmore
          simp only [passesFrom, hbody, forLoop_key hkey, hadvance, List.cons.injEq, true_and]
            at hmore
          exact hmore
    exact
      { first := hlower
        next := fun key s left t after hpass hbody hkey =>
          agree_next hpass hbody hkey (hagree key s hpass) }
  · intro h fuel
    cases hkey : (between lower upper).key none with
    | none =>
        rw [forLoop_end hkey]
        have hstop : ¬ (ofInt 0).lt (countOf lower upper) = true := by
          intro hlt
          rw [key_none, if_pos hlt] at hkey
          cases hkey
        exact countedLoop_end plus body hstop fuel _ start
    | some key =>
        have hpasses := h.passes fuel (.first key hkey)
        rw [forLoop_key hkey, hpasses, h.first key hkey, (hfirst key hkey).1]
        rfl

section Numbers

/-- The number of a pass, given its index. -/
def numberAt (lower upper n : F64) : F64 := if lower.le upper then lower.add n else lower.sub n

/-- A pass that the bounds have room for, and everything else at its start, when the body was given
the number of every pass before. -/
inductive Turn (body : Body σ Object) (lower upper : F64) (start : σ) : F64 → σ → Prop
  | first (hmore : (ofInt 0).lt (upper.sub lower).abs = true) :
      Turn body lower upper start (ofInt 0) start
  | next (n : F64) (s t : σ) (left : Value Object) (h : Turn body lower upper start n s)
      (hbody : body (.number (numberAt lower upper n)) s = some (left, t))
      (hmore : (n.add (ofInt 1)).lt (upper.sub lower).abs = true) :
      Turn body lower upper start (n.add (ofInt 1)) t

/-- One more than what is left in the variable, or one less when the bounds descend. -/
def OneOn (plus : Plus σ Object) (lower upper : F64) (left : Value Object) (t : σ) (x : F64) :
    Prop :=
  match left with
  | .number y => (if lower.le upper then y.add (ofInt 1) else y.sub (ofInt 1)) = x
  | left => plus left (if lower.le upper then ofInt 1 else ofInt (-1)) t = some (.number x)

/-- The lower bound is itself when nothing is added, which `-0.0` is not; and what the body leaves
in the variable is one short of the number of the pass that follows, if one does. -/
structure Even (plus : Plus σ Object) (body : Body σ Object) (lower upper : F64) (start : σ) :
    Prop where
  bound : (ofInt 0).lt (upper.sub lower).abs = true → numberAt lower upper (ofInt 0) = lower
  next : ∀ n s left t, Turn body lower upper start n s →
    body (.number (numberAt lower upper n)) s = some (left, t) →
      (n.add (ofInt 1)).lt (upper.sub lower).abs = true →
        OneOn plus lower upper left t (numberAt lower upper (n.add (ofInt 1)))

theorem lt_width {j : Nat} (hj : j ≤ 2 ^ 53) (lower upper : F64) :
    (ofInt j).lt (upper.sub lower).abs = (ofInt j).lt (countOf lower upper) := by
  have hspan := whole_lt_span hj (upper.sub lower) _ (span_num lower upper)
  rw [Bool.eq_iff_iff, lt_count hj, ← hspan, F64.lt, F64.num_abs, F64.num_ofNat hj]

theorem lt_span {j : Nat} (hj : j ≤ 2 ^ 53) {lower upper : F64}
    (h : (ofInt j).lt (countOf lower upper) = true) :
    (ofInt j).lt (between lower upper).span = true := by
  have hcount := (lt_count hj lower upper).mp h
  have hspan := span_num lower upper
  unfold F64.toInt at hcount
  unfold F64.lt
  rw [F64.num_ofNat hj, hspan]
  rw [hspan] at hcount
  cases hnum : (upper.sub lower).num with
  | nan =>
      rw [hnum] at hcount
      simp only [F64.Num.counted, F64.Num.toInt] at hcount
      omega
  | inf s => rfl
  | fin s mag =>
      have hquotient : wholes mag * one / one = wholes mag := Nat.mul_div_cancel _ F64.one_pos
      rw [hnum] at hcount
      simp only [F64.Num.counted, F64.Num.toInt, F64.signed, Bool.false_eq_true, if_false,
        hquotient] at hcount
      have hless := Nat.mul_lt_mul_of_pos_right (show j < wholes mag by omega) F64.one_pos
      simp only [F64.Num.counted, F64.Num.lt, F64.signed, Bool.false_eq_true, if_false]
      exact decide_eq_true (by exact_mod_cast hless)

theorem fetch_number {j : Nat} (hj : j ≤ 2 ^ 53) {lower upper : F64}
    (h : (ofInt j).lt (countOf lower upper) = true) :
    fetch (between lower upper) (ofInt j) =
      (.number (numberAt lower upper (ofInt j)) : Value Object) := by
  have hzero : F64.zero.le (ofInt j) = true := by
    rw [F64.zero_eq, F64.le_ofInt (by decide) (by rwa [Int.natAbs_natCast])]
    exact decide_eq_true (by omega)
  have hmul : (ofInt j).mul (ofInt 1) = ofInt j := by
    have hone := F64.mul_ofNat hj (b := 1) (by decide) (by omega)
    rwa [Nat.mul_one, Nat.cast_one] at hone
  unfold fetch Range.value numberAt
  rw [stride_between, hmul, hzero, lt_span hj h, Bool.and_self, if_pos rfl]
  by_cases hle : lower.le upper = true
  · simp only [hle, if_true]
  · simp only [if_neg hle]

theorem sub_one (y : F64) : y.sub (ofInt 1) = y.add (ofInt (-1)) := by
  have hminus := F64.num_ofInt (n := -1) (by decide)
  have hneg : decide ((-1 : Int) < 0) = true := rfl
  rw [hneg, Int.natAbs_neg, Int.natAbs_one, Nat.one_mul] at hminus
  unfold F64.sub F64.add
  rw [num_one, hminus]
  rfl

theorem advance_iff (plus : Plus σ Object) (lower upper : F64) (left : Value Object) (t : σ)
    (x : F64) :
    advance plus (stepOf lower upper) left t = some (.number x) ↔
      OneOn plus lower upper left t x := by
  unfold advance stepOf OneOn
  cases left with
  | number y =>
      simp only [Option.some.injEq, Value.number.injEq, sub_one]
      split
      · exact Iff.rfl
      · exact Iff.rfl
  | nil | other _ => exact Iff.rfl

variable {plus : Plus σ Object} {body : Body σ Object} {lower upper : F64} {start : σ}

theorem key_none_iff {key : F64} : (between lower upper).key none = some key ↔
    key = ofInt 0 ∧ (ofInt 0).lt (upper.sub lower).abs = true := by
  have hwidth := lt_width (j := 0) (by decide) lower upper
  rw [Nat.cast_zero] at hwidth
  rw [key_none, hwidth]
  split
  · next hlt => exact ⟨fun h => ⟨(Option.some.inj h).symm, hlt⟩, fun h => by rw [h.1]⟩
  · next hlt => exact ⟨fun h => (nomatch h), fun h => absurd h.2 hlt⟩

theorem key_some_iff {j : Nat} (hj : j ≤ 2 ^ 53) {key : F64} :
    (between lower upper).key (some (ofInt j)) = some key ↔
      key = (ofInt j).add (ofInt 1) ∧ ((ofInt j).add (ofInt 1)).lt (upper.sub lower).abs = true := by
  obtain ⟨k, hk, hadd⟩ := next_count hj
  have hwidth := lt_width hk lower upper
  rw [key_some hj, hadd, hwidth]
  split
  · next hlt => exact ⟨fun h => ⟨(Option.some.inj h).symm, hlt⟩, fun h => by rw [h.1]⟩
  · next hlt => exact ⟨fun h => (nomatch h), fun h => absurd h.2 hlt⟩

theorem Pass.fetched {n : F64} {s : σ} (h : Pass (between lower upper) body start n s) :
    fetch (between lower upper) n = (.number (numberAt lower upper n) : Value Object) := by
  obtain ⟨⟨j, hj, rfl⟩, hlt⟩ := h.whole
  exact fetch_number hj hlt

theorem turn_iff {n : F64} {s : σ} :
    Turn body lower upper start n s ↔ Pass (between lower upper) body start n s := by
  constructor
  · intro h
    induction h with
    | first hmore => exact .first _ (key_none_iff.mpr ⟨rfl, hmore⟩)
    | next n s t left _ hbody hmore ih =>
        rw [← ih.fetched] at hbody
        obtain ⟨⟨j, hj, rfl⟩, -⟩ := ih.whole
        exact .next _ _ s t left ih hbody ((key_some_iff hj).mpr ⟨rfl, hmore⟩)
  · intro h
    induction h with
    | first key hkey =>
        obtain ⟨rfl, hmore⟩ := key_none_iff.mp hkey
        exact .first hmore
    | next key after s t left h hbody hkey ih =>
        rw [h.fetched] at hbody
        obtain ⟨⟨j, hj, rfl⟩, -⟩ := h.whole
        obtain ⟨rfl, hmore⟩ := (key_some_iff hj).mp hkey
        exact .next _ s t left ih hbody hmore

theorem steady_iff : Steady plus body lower upper start ↔ Even plus body lower upper start := by
  constructor
  · intro h
    refine ⟨fun hmore => ?_, fun n s left t hturn hbody hmore => ?_⟩
    · have hpass : Pass (between lower upper) body start (ofInt 0) start :=
        .first _ (key_none_iff.mpr ⟨rfl, hmore⟩)
      have hfirst := h.first _ (key_none_iff.mpr ⟨rfl, hmore⟩)
      rw [hpass.fetched] at hfirst
      exact Value.number.inj hfirst
    · have hpass := turn_iff.mp hturn
      have hnext := turn_iff.mp (.next n s t left hturn hbody hmore)
      rw [← hpass.fetched] at hbody
      obtain ⟨⟨j, hj, rfl⟩, -⟩ := hpass.whole
      have hadvance := h.next _ s left t _ hpass hbody ((key_some_iff hj).mpr ⟨rfl, hmore⟩)
      rw [hnext.fetched] at hadvance
      exact (advance_iff plus lower upper left t _).mp hadvance
  · intro h
    refine ⟨fun key hkey => ?_, fun key s left t after hpass hbody hkey => ?_⟩
    · have hpass : Pass (between lower upper) body start key start := .first key hkey
      obtain ⟨rfl, hmore⟩ := key_none_iff.mp hkey
      rw [hpass.fetched, h.bound hmore]
    · have hnext : Pass (between lower upper) body start after t :=
        .next key after s t left hpass hbody hkey
      rw [hpass.fetched] at hbody
      obtain ⟨⟨j, hj, rfl⟩, -⟩ := hpass.whole
      obtain ⟨rfl, hmore⟩ := (key_some_iff hj).mp hkey
      rw [hnext.fetched]
      exact (advance_iff plus lower upper left t _).mpr
        (h.next _ s left t (turn_iff.mpr hpass) hbody hmore)

section Whole

variable {l u : Int} (hl : l.natAbs ≤ 2 ^ 53) (hu : u.natAbs ≤ 2 ^ 53)
  (hw : (u - l).natAbs ≤ 2 ^ 53)
include hl hu

theorem numberAt_whole {j : Nat} (hj : j ≤ 2 ^ 53) :
    numberAt (ofInt l) (ofInt u) (ofInt j) = ofInt (if l ≤ u then l + j else l - j) := by
  have hcast : (j : Int).natAbs ≤ 2 ^ 53 := by rwa [Int.natAbs_natCast]
  rw [numberAt, F64.le_ofInt hl hu]
  by_cases hle : l ≤ u
  · rw [if_pos (decide_eq_true hle), if_pos hle, F64.add_ofInt hl hcast]
  · rw [if_neg (by simpa using hle), if_neg hle, F64.sub_ofInt hl hcast]

include hw in
/-- Between whole numbers that doubles hold exactly, a body that leaves the variable as it was
given keeps it even. -/
theorem even_whole (hbody : ∀ x s left t, body x s = some (left, t) → left = x) :
    Even plus body (ofInt l) (ofInt u) start := by
  have hwidth : ((ofInt u).sub (ofInt l)).abs = ofInt ((u - l).natAbs : Nat) := by
    rw [F64.sub_ofInt hu hl, F64.abs_ofInt hw]
  refine ⟨fun _ => ?_, fun n s left t hturn hpass hmore => ?_⟩
  · have hzero := numberAt_whole hl hu (j := 0) (by decide)
    rw [Nat.cast_zero] at hzero
    rw [hzero]
    simp
  · obtain rfl := hbody _ s left t hpass
    obtain ⟨⟨j, hj, rfl⟩, -⟩ := (turn_iff.mp hturn).whole
    have hroom : j < 2 ^ 53 := by
      by_contra hnot
      obtain rfl : j = 2 ^ 53 := by omega
      rw [add_stuck, hwidth, F64.lt_ofInt (by decide) (by rwa [Int.natAbs_natCast])] at hmore
      have := of_decide_eq_true hmore
      omega
    have hadd := F64.add_ofInt (a := j) (b := 1) (by omega) (by decide)
    rw [← Nat.cast_one, ← Nat.cast_add, Nat.cast_one] at hadd
    rw [hadd, hwidth, F64.lt_ofInt (by omega) (by rwa [Int.natAbs_natCast])] at hmore
    have hless := of_decide_eq_true hmore
    rw [OneOn, hadd, numberAt_whole hl hu hj, numberAt_whole hl hu (by omega : j + 1 ≤ 2 ^ 53),
      F64.le_ofInt hl hu]
    by_cases hle : l ≤ u
    · rw [if_pos (decide_eq_true hle), if_pos hle, if_pos hle,
        F64.add_ofInt (by omega) (by decide)]
      push_cast
      rw [Int.add_assoc]
    · rw [if_neg (by simpa using hle), if_neg hle, if_neg hle,
        F64.sub_ofInt (by omega) (by decide)]
      push_cast
      rw [Int.sub_sub]

end Whole

end Numbers

end Agreement

end Zuri.Compiler.ForLoop
