import Zuri.Compiler.ForLoop
import Zuri.Float.Grain

/-!
The numbers of a range, which three methods give: `loop` adds the step up, the methods a
`for` calls multiply it by an index, and `to_list` counts in whole numbers from bound to
bound whatever the step is. Where doubles hold the sums exactly, the first two are the same
sequence; between whole numbers the third is that of the step one.
-/

namespace Zuri.Builtins

open Zuri.Compiler.ForLoop (Range)
open F64 (ofInt ofGrains)

/-- `a..b` over the whole numbers. -/
def ints (a b : Int) : List Int := (List.range (b - a).toNat).map fun k : Nat => a + k

/-- A sum in sixty-four bits, which wraps. -/
def wrapI64 (n : Int) : Int := (n + 2 ^ 63) % 2 ^ 64 - 2 ^ 63

def toList (r : Range) : List F64 :=
  let lower := r.lower.toInt
  let upper := r.upper.toInt
  let list :=
    if r.lower.lt r.upper then ints lower upper
    else if F64.zero.le r.lower then (ints (wrapI64 (upper + 1)) (wrapI64 (lower + 1))).reverse
    else (ints (wrapI64 (upper + 1)) lower).reverse
  list.map ofInt

/-- The numbers a callback gets from one on, each with its index. -/
def loopFrom (before : F64 → Bool) (advance : F64 → F64) :
    Nat → F64 → F64 → Option (List (F64 × F64))
  | 0, _, _ => none
  | fuel + 1, i, index =>
      if before i then
        (loopFrom before advance fuel (advance i) (index.add (ofInt 1))).map ((i, index) :: ·)
      else some []

def loop (r : Range) (fuel : Nat) : Option (List (F64 × F64)) :=
  if r.lower.le r.upper then
    loopFrom (fun i => i.lt r.upper) (fun i => i.add r.stride) fuel r.lower .zero
  else loopFrom (fun i => r.upper.lt i) (fun i => i.sub r.stride) fuel r.lower .zero

/-- The values a `for` sees after a key, which it asks for with `@key` and `@value`. -/
def iterate (r : Range) : Nat → Option F64 → Option (List (Option F64))
  | 0, _ => none
  | fuel + 1, key =>
      match r.key key with
      | none => some []
      | some next => (iterate r fuel (some next)).map (r.value next :: ·)

/-- `lower`, `lower ± step`, and so on, up to but not including `upper`. -/
structure Sequence (lower upper : Int) (step : Nat) (xs : List Int) : Prop where
  entry : ∀ k x, xs[k]? = some x →
    x = if lower ≤ upper then lower + (k * step : Nat) else lower - (k * step : Nat)
  before : ∀ x ∈ xs, if lower ≤ upper then x < upper else upper < x
  ends : if lower ≤ upper then upper ≤ lower + (xs.length * step : Nat)
    else lower - (xs.length * step : Nat) ≤ upper

section Count

open Zuri.Compiler.ForLoop (wholes lt_wholes num_ceil)

/-- How many steps it takes to come to a distance. -/
def stepsTo (w s : Nat) : Nat := (w + s - 1) / s

theorem lt_stepsTo {w s j : Nat} (hs : 0 < s) : j < stepsTo w s ↔ j * s < w := by
  unfold stepsTo
  rw [Nat.lt_iff_add_one_le, Nat.le_div_iff_mul_le hs, Nat.add_mul]
  omega

theorem stepsTo_le {w s : Nat} (hs : 0 < s) : stepsTo w s ≤ w := by
  by_contra h
  have hlt := (lt_stepsTo hs).mp (Nat.lt_of_not_le h)
  have := Nat.le_mul_of_pos_right w hs
  omega

theorem ceil_div {w s : Nat} (hw : w ≤ 2 ^ 53) (hs : 0 < s) (hsle : s ≤ 2 ^ 53) :
    ((ofInt w).div (ofInt s)).ceil = ofInt (stepsTo w s : Nat) := by
  have hone := F64.one_pos
  have hsone : s * F64.one ≠ 0 := Nat.mul_ne_zero hs.ne' hone.ne'
  have hcount : stepsTo w s ≤ 2 ^ 53 := Nat.le_trans (stepsTo_le hs) hw
  obtain ⟨mag, hdiv, hwholes⟩ : ∃ mag, ((ofInt w).div (ofInt s)).num = .fin false mag ∧
      wholes mag = stepsTo w s := by
    have hround : (ofInt w).div (ofInt s) =
        F64.ofNum (F64.round false (w * F64.one * F64.one) (s * F64.one)) := by
      unfold F64.div
      rw [F64.num_ofNat hw, F64.num_ofNat hsle]
      simp only [F64.Num.div, if_neg hsone, bne_self_eq_false]
    rw [hround, F64.num_round _ _ _ (Nat.pos_of_ne_zero hsone)]
    by_cases hzero : w = 0
    · subst hzero
      have hexact := F64.round_exact false F64.representable_zero (s * F64.one)
        (Nat.pos_of_ne_zero hsone)
      refine ⟨0, by simpa using hexact, ?_⟩
      have hnone : stepsTo 0 s = 0 := Nat.le_zero.mp (stepsTo_le hs)
      rw [hnone]
      have := Zuri.Compiler.ForLoop.wholes_whole 0
      rwa [Nat.zero_mul] at this
    · obtain ⟨hlow, hhigh⟩ := F64.roundMag_whole (Nat.pos_of_ne_zero hzero) hw hs hsle
      have hsteps : stepsTo w s = (w - 1) / s + 1 := by
        rw [stepsTo, show w + s - 1 = w - 1 + s by omega, Nat.add_div_right _ hs]
      rw [hsteps] at hcount ⊢
      refine ⟨F64.roundMag (w * F64.one * F64.one) (s * F64.one), ?_, ?_⟩
      · have hlimit := (F64.representable_whole hcount).1
        unfold F64.round
        simp only
        rw [if_pos (Nat.lt_of_le_of_lt hhigh hlimit)]
      · have hmore := (lt_wholes ((w - 1) / s) _).mpr hlow
        have hless := mt (lt_wholes ((w - 1) / s + 1) _).mp (Nat.not_lt_of_le hhigh)
        omega
  have hceil := num_ceil hdiv
  rw [hwholes, ← F64.num_ofNat hcount] at hceil
  exact F64.num_inj hceil (by rw [hceil, F64.num_ofNat hcount]; intro hnan; cases hnan)

end Count

section Methods

variable {p : Nat} {l u : Int} {s : Nat}

/-- The number at a place of the sequence. -/
def entry (l u : Int) (s k : Nat) : Int :=
  if l ≤ u then l + (k * s : Nat) else l - (k * s : Nat)

/-- Bounds, a step and a distance that are whole multiples of one power of two, of at most `2^53`
of it, so that doubles hold them exactly. -/
structure Exact (p : Nat) (l u : Int) (s : Nat) : Prop where
  grain : p ≤ 2044
  lower : l.natAbs ≤ 2 ^ 53
  upper : u.natAbs ≤ 2 ^ 53
  width : (u - l).natAbs ≤ 2 ^ 53
  pos : 0 < s
  step : s ≤ 2 ^ 53

def numbers (l u : Int) (s : Nat) : List Int :=
  (List.range (stepsTo (u - l).natAbs s)).map (entry l u s)

theorem entry_before (h : Exact p l u s) {k : Nat} (hk : k < stepsTo (u - l).natAbs s) :
    (if l ≤ u then entry l u s k < u else u < entry l u s k) ∧ (entry l u s k).natAbs ≤ 2 ^ 53 := by
  have hlt := (lt_stepsTo h.pos).mp hk
  have hlower := h.lower
  have hupper := h.upper
  unfold entry
  generalize k * s = d at hlt ⊢
  split <;> constructor <;> omega

theorem entry_last (h : Exact p l u s) :
    if l ≤ u then u ≤ entry l u s (stepsTo (u - l).natAbs s)
    else entry l u s (stepsTo (u - l).natAbs s) ≤ u := by
  have hge := mt (lt_stepsTo (j := stepsTo (u - l).natAbs s) h.pos).mpr (Nat.lt_irrefl _)
  unfold entry
  generalize stepsTo (u - l).natAbs s * s = d at hge ⊢
  split <;> omega

theorem numbers_sequence (h : Exact p l u s) : Sequence l u s (numbers l u s) := by
  refine ⟨fun k x hx => ?_, fun x hx => ?_, ?_⟩
  · obtain ⟨hk, hat⟩ := List.getElem?_eq_some_iff.mp hx
    rw [← hat]
    simp [numbers, entry]
  · obtain ⟨k, hk, rfl⟩ := List.mem_map.mp hx
    exact (entry_before h (List.mem_range.mp hk)).1
  · have hlast := entry_last h
    rw [numbers, List.length_map, List.length_range]
    unfold entry at hlast
    split
    · rename_i hle
      simpa only [if_pos hle] using hlast
    · rename_i hle
      simpa only [if_neg hle] using hlast

/-- The range with these bounds and this step. -/
def rangeOf (p : Nat) (l u : Int) (s : Nat) : Range :=
  ⟨ofGrains p l, ofGrains p u, ofGrains p s⟩

theorem stride_rangeOf (h : Exact p l u s) : (rangeOf p l u s).stride = ofGrains p s := by
  have hzero : F64.zero = ofGrains p 0 := by
    unfold ofGrains
    rfl
  have hpos : F64.zero.lt (ofGrains p s) = true := by
    rw [hzero, F64.lt_ofGrains h.grain (by decide) (by rw [Int.natAbs_natCast]; exact h.step)]
    exact decide_eq_true (by exact_mod_cast h.pos)
  simp only [Range.stride, rangeOf, hpos, if_true]

theorem natAbs_cast {n : Nat} (h : n ≤ 2 ^ 53) : (n : Int).natAbs ≤ 2 ^ 53 := by
  rwa [Int.natAbs_natCast]

theorem entry_next (h : Exact p l u s) {k : Nat} (hk : k < stepsTo (u - l).natAbs s) :
    (if l ≤ u then (ofGrains p (entry l u s k)).add (ofGrains p s)
      else (ofGrains p (entry l u s k)).sub (ofGrains p s)) = ofGrains p (entry l u s (k + 1)) := by
  have hat := (entry_before h hk).2
  unfold entry at hat ⊢
  rw [Nat.add_mul, Nat.one_mul]
  generalize k * s = d at hat ⊢
  split
  · rename_i hle
    rw [if_pos hle] at hat
    rw [F64.add_ofGrains h.grain hat (natAbs_cast h.step)]
    congr 1
    push_cast
    omega
  · rename_i hle
    rw [if_neg hle] at hat
    rw [F64.sub_ofGrains h.grain hat (natAbs_cast h.step)]
    congr 1
    push_cast
    omega

theorem loopFrom_entries (h : Exact p l u s) (before : F64 → Bool) (advance : F64 → F64)
    (hbefore : ∀ k, before (ofGrains p (entry l u s k)) = decide (k < stepsTo (u - l).natAbs s))
    (hadvance : ∀ k, k < stepsTo (u - l).natAbs s →
      advance (ofGrains p (entry l u s k)) = ofGrains p (entry l u s (k + 1)))
    (n k : Nat) (hn : k + n = stepsTo (u - l).natAbs s) (index : F64) :
    ∃ pairs, loopFrom before advance (n + 1) (ofGrains p (entry l u s k)) index = some pairs ∧
      pairs.map Prod.fst = (List.range' k n).map fun i => ofGrains p (entry l u s i) := by
  induction n generalizing k index with
  | zero =>
      refine ⟨[], ?_, rfl⟩
      rw [loopFrom, hbefore, if_neg (by simp; omega)]
  | succ n ih =>
      have hk : k < stepsTo (u - l).natAbs s := by omega
      obtain ⟨pairs, hpairs, hmap⟩ := ih (k + 1) (by omega) (index.add (ofInt 1))
      refine ⟨(ofGrains p (entry l u s k), index) :: pairs, ?_, ?_⟩
      · rw [loopFrom, hbefore, if_pos (by simpa using hk), hadvance k hk, hpairs]
        rfl
      · rw [List.range'_succ, List.map_cons, List.map_cons, hmap]

theorem reached_iff (h : Exact p l u s) (k : Nat) :
    (if l ≤ u then (ofGrains p (entry l u s k)).lt (ofGrains p u)
      else (ofGrains p u).lt (ofGrains p (entry l u s k))) = decide (k < stepsTo (u - l).natAbs s) := by
  by_cases hk : k < stepsTo (u - l).natAbs s
  · obtain ⟨hless, hat⟩ := entry_before h hk
    rw [decide_eq_true hk]
    split
    · rename_i hle
      rw [if_pos hle] at hless
      rw [F64.lt_ofGrains h.grain hat h.upper]
      exact decide_eq_true hless
    · rename_i hle
      rw [if_neg hle] at hless
      rw [F64.lt_ofGrains h.grain h.upper hat]
      exact decide_eq_true hless
  · have hfar := mt (lt_stepsTo h.pos).mpr hk
    rw [decide_eq_false hk]
    unfold entry
    generalize k * s = d at hfar ⊢
    split
    · exact F64.not_lt_of_le h.grain h.upper (by omega)
    · exact F64.not_lt_of_ge h.grain h.upper (by omega)

theorem loop_numbers (h : Exact p l u s) :
    ∃ fuel pairs, loop (rangeOf p l u s) fuel = some pairs ∧
      pairs.map Prod.fst = (numbers l u s).map (ofGrains p) := by
  have hle : (rangeOf p l u s).lower.le (rangeOf p l u s).upper = decide (l ≤ u) :=
    F64.le_ofGrains h.grain h.lower h.upper
  have hfirst : ofGrains p l = ofGrains p (entry l u s 0) := by simp [entry]
  have hlist : (numbers l u s).map (ofGrains p) =
      (List.range' 0 (stepsTo (u - l).natAbs s)).map fun i => ofGrains p (entry l u s i) := by
    rw [numbers, List.map_map, List.range_eq_range']
    rfl
  have hreached := reached_iff h
  have hnext := fun k => entry_next h (k := k)
  rw [hlist]
  by_cases hup : l ≤ u
  · simp only [if_pos hup] at hreached hnext
    obtain ⟨pairs, hpairs, hmap⟩ := loopFrom_entries h (fun i => i.lt (ofGrains p u))
      (fun i => i.add (ofGrains p s)) hreached hnext _ 0 (Nat.zero_add _) .zero
    rw [← hfirst] at hpairs
    refine ⟨stepsTo (u - l).natAbs s + 1, pairs, ?_, hmap⟩
    rw [loop, hle, decide_eq_true hup, if_pos rfl, stride_rangeOf h]
    exact hpairs
  · simp only [if_neg hup] at hreached hnext
    obtain ⟨pairs, hpairs, hmap⟩ := loopFrom_entries h (fun i => (ofGrains p u).lt i)
      (fun i => i.sub (ofGrains p s)) hreached hnext _ 0 (Nat.zero_add _) .zero
    rw [← hfirst] at hpairs
    refine ⟨stepsTo (u - l).natAbs s + 1, pairs, ?_, hmap⟩
    rw [loop, hle, decide_eq_false hup, if_neg Bool.false_ne_true, stride_rangeOf h]
    exact hpairs

theorem span_rangeOf (h : Exact p l u s) :
    (rangeOf p l u s).span = ofInt (stepsTo (u - l).natAbs s : Nat) := by
  unfold Range.span
  rw [stride_rangeOf h]
  simp only [rangeOf]
  rw [F64.sub_ofGrains h.grain h.upper h.lower, F64.abs_ofGrains h.grain h.width,
    F64.div_ofGrains h.grain h.width h.pos h.step, ceil_div h.width h.pos h.step]

theorem count_le (h : Exact p l u s) : stepsTo (u - l).natAbs s ≤ 2 ^ 53 :=
  Nat.le_trans (stepsTo_le h.pos) h.width

theorem span_toInt (h : Exact p l u s) :
    (rangeOf p l u s).span.toInt = stepsTo (u - l).natAbs s := by
  rw [span_rangeOf h, F64.toInt_ofInt (natAbs_cast (count_le h))]

/-- The key a `for` has before it asks for the one at a place. -/
def keyBefore : Nat → Option F64
  | 0 => none
  | k + 1 => some (ofInt (k : Nat))

theorem key_keyBefore (h : Exact p l u s) {k : Nat} (hk : k ≤ stepsTo (u - l).natAbs s) :
    (rangeOf p l u s).key (keyBefore k) =
      if k < stepsTo (u - l).natAbs s then some (ofInt (k : Nat)) else none := by
  have hcount := count_le h
  unfold Range.key
  simp only [span_toInt h]
  cases k with
  | zero =>
      by_cases hpos : 0 < stepsTo (u - l).natAbs s
      · rw [if_neg (by omega), if_pos hpos, F64.zero_eq]
        rfl
      · rw [if_pos (by omega), if_neg hpos]
  | succ k =>
      have hindex : (ofInt (k : Nat)).toInt = k := F64.toInt_ofInt (natAbs_cast (by omega))
      have hadd := F64.add_ofInt (a := k) (b := 1) (natAbs_cast (by omega)) (by decide)
      simp only [keyBefore, hindex]
      rw [if_neg (by omega), hadd]
      by_cases hmore : k + 1 < stepsTo (u - l).natAbs s
      · rw [if_pos (by omega), if_pos hmore, Nat.cast_add, Nat.cast_one]
      · rw [if_neg (by omega), if_neg hmore]

theorem value_entry (h : Exact p l u s) {k : Nat} (hk : k < stepsTo (u - l).natAbs s) :
    (rangeOf p l u s).value (ofInt (k : Nat)) = some (ofGrains p (entry l u s k)) := by
  have hcount := count_le h
  have hlt := (lt_stepsTo h.pos).mp hk
  have hwidth := h.width
  have hksmall : k ≤ 2 ^ 53 := by omega
  have hindex : F64.zero.le (ofInt (k : Nat)) = true := by
    rw [F64.zero_eq, F64.le_ofInt (by decide) (natAbs_cast hksmall)]
    exact decide_eq_true (by omega)
  have hless : (ofInt (k : Nat)).lt (rangeOf p l u s).span = true := by
    rw [span_rangeOf h, F64.lt_ofInt (natAbs_cast hksmall) (natAbs_cast hcount)]
    exact decide_eq_true (by exact_mod_cast hk)
  have hle : (rangeOf p l u s).lower.le (rangeOf p l u s).upper = decide (l ≤ u) :=
    F64.le_ofGrains h.grain h.lower h.upper
  have hmul : (ofInt (k : Nat)).mul (ofGrains p s) = ofGrains p (k * s : Nat) :=
    F64.mul_ofGrains h.grain hksmall h.step (by omega)
  have hdistance : ((k * s : Nat) : Int).natAbs ≤ 2 ^ 53 := natAbs_cast (by omega)
  unfold Range.value
  rw [hindex, hless, Bool.and_self, if_pos rfl, hle, stride_rangeOf h, hmul]
  simp only [rangeOf, F64.add_ofGrains h.grain h.lower hdistance,
    F64.sub_ofGrains h.grain h.lower hdistance, entry]
  by_cases hup : l ≤ u
  · rw [if_pos (decide_eq_true hup), if_pos hup]
  · rw [if_neg (by simp [hup]), if_neg hup]

theorem iterate_entries (h : Exact p l u s) (n k : Nat) (hn : k + n = stepsTo (u - l).natAbs s) :
    iterate (rangeOf p l u s) (n + 1) (keyBefore k) =
      some ((List.range' k n).map fun i => some (ofGrains p (entry l u s i))) := by
  induction n generalizing k with
  | zero =>
      rw [iterate, key_keyBefore h (by omega), if_neg (by omega)]
      rfl
  | succ n ih =>
      have hk : k < stepsTo (u - l).natAbs s := by omega
      have hrest := ih (k + 1) (by omega)
      rw [iterate, key_keyBefore h (Nat.le_of_lt hk), if_pos hk]
      simp only [keyBefore] at hrest
      simp only [hrest, value_entry h hk, Option.map_some]
      rw [List.range'_succ, List.map_cons]

theorem iterate_numbers (h : Exact p l u s) :
    ∃ fuel, iterate (rangeOf p l u s) fuel none =
      some ((numbers l u s).map fun x => some (ofGrains p x)) := by
  refine ⟨_, (iterate_entries h _ 0 (Nat.zero_add _)).trans ?_⟩
  rw [numbers, List.map_map, List.range_eq_range']
  rfl

theorem wrapI64_small {n : Int} (h : n.natAbs < 2 ^ 63) : wrapI64 n = n := by
  unfold wrapI64
  omega

theorem toList_numbers (hl : l.natAbs ≤ 2 ^ 53) (hu : u.natAbs ≤ 2 ^ 53)
    (hdirection : l ≤ u ∨ 0 ≤ l) (step : F64) :
    toList ⟨ofInt l, ofInt u, step⟩ = (numbers l u 1).map ofInt := by
  have hlower : (ofInt l).toInt = l := F64.toInt_ofInt hl
  have hupper : (ofInt u).toInt = u := F64.toInt_ofInt hu
  have hlt : (ofInt l).lt (ofInt u) = decide (l < u) := F64.lt_ofInt hl hu
  have hzero : F64.zero.le (ofInt l) = decide (0 ≤ l) := by
    rw [F64.zero_eq]
    exact F64.le_ofInt (by decide) hl
  have hsteps : stepsTo (u - l).natAbs 1 = (u - l).natAbs := by
    rw [stepsTo, Nat.add_sub_cancel, Nat.div_one]
  unfold toList
  simp only [hlower, hupper, hlt, hzero, wrapI64_small (show (u + 1).natAbs < 2 ^ 63 by omega),
    wrapI64_small (show (l + 1).natAbs < 2 ^ 63 by omega)]
  congr 1
  rw [numbers, hsteps]
  by_cases hup : l < u
  · rw [if_pos (decide_eq_true hup), ints, show (u - l).toNat = (u - l).natAbs by omega]
    apply List.map_congr_left
    intro k _
    rw [entry, if_pos (by omega), Nat.mul_one]
  · rw [if_neg (by simp [hup])]
    by_cases heq : l = u
    · subst heq
      have hnone : (l - l).natAbs = 0 := by omega
      rw [hnone]
      split
      · simp [ints]
      · simp [ints]
    · rw [if_pos (decide_eq_true (by omega : 0 ≤ l)), ints,
        show (l + 1 - (u + 1)).toNat = (u - l).natAbs by omega]
      apply List.ext_getElem
      · simp
      · intro k hk hk'
        simp only [List.length_reverse, List.length_map, List.length_range] at hk
        simp only [List.getElem_reverse, List.getElem_map, List.getElem_range, List.length_map,
          List.length_range, entry, if_neg (show ¬l ≤ u by omega), Nat.mul_one]
        omega

end Methods

/-- Where doubles hold the sums exactly, looping over a range and iterating over it give one
sequence, and both end. Between whole numbers, `to_list` gives the sequence of step one, which
looping and iterating give when the step is one, for a range that ascends or starts at no less
than zero. -/
theorem range_sequence :
    (∀ p l u s, Exact p l u s → ∃ xs : List Int, Sequence l u s xs ∧
      (∃ fuel pairs, loop (rangeOf p l u s) fuel = some pairs ∧
        pairs.map Prod.fst = xs.map (ofGrains p)) ∧
      ∃ fuel, iterate (rangeOf p l u s) fuel none = some (xs.map fun x => some (ofGrains p x))) ∧
    ∀ l u step, Exact 1074 l u 1 → (l ≤ u ∨ 0 ≤ l) → ∃ xs : List Int, Sequence l u 1 xs ∧
      toList ⟨ofInt l, ofInt u, step⟩ = xs.map ofInt ∧
      (∃ fuel pairs, loop ⟨ofInt l, ofInt u, ofInt 1⟩ fuel = some pairs ∧
        pairs.map Prod.fst = xs.map ofInt) ∧
      ∃ fuel, iterate ⟨ofInt l, ofInt u, ofInt 1⟩ fuel none =
        some (xs.map fun x => some (ofInt x)) := by
  refine ⟨fun p l u s h => ⟨numbers l u s, numbers_sequence h, loop_numbers h, iterate_numbers h⟩,
    fun l u step h hdirection => ?_⟩
  have hloop := loop_numbers h
  have hiterate := iterate_numbers h
  have hone : ofGrains 1074 = ofInt := funext F64.ofGrains_one
  rw [rangeOf, hone] at hloop hiterate
  exact ⟨numbers l u 1, numbers_sequence h, toList_numbers h.lower h.upper hdirection step, hloop,
    hiterate⟩

/-- Down from five halves to minus one by three quarters, and from three to minus one. -/
theorem range_sequence_quarters :
    (∃ xs : List Int, Sequence 10 (-4) 3 xs ∧
      (∃ fuel pairs, loop (rangeOf 1072 10 (-4) 3) fuel = some pairs ∧
        pairs.map Prod.fst = xs.map (ofGrains 1072)) ∧
      ∃ fuel, iterate (rangeOf 1072 10 (-4) 3) fuel none =
        some (xs.map fun x => some (ofGrains 1072 x))) ∧
    ∃ xs : List Int, Sequence 3 (-1) 1 xs ∧ toList ⟨ofInt 3, ofInt (-1), ofInt 2⟩ = xs.map ofInt := by
  obtain ⟨hsteps, hwhole⟩ := range_sequence
  refine ⟨hsteps 1072 10 (-4) 3 ⟨by omega, by omega, by omega, by omega, by omega, by omega⟩, ?_⟩
  obtain ⟨xs, hxs, hlist, -⟩ := hwhole 3 (-1) (ofInt 2)
    ⟨by omega, by omega, by omega, by omega, by omega, by omega⟩ (.inr (by decide))
  exact ⟨xs, hxs, hlist⟩

/-- From zero to one by tenths. -/
def tenths : Range := ⟨ofInt 0, ofInt 1, ⟨BitVec.ofNat 64 0x3fb999999999999a⟩⟩

/-- With a step of two, `to_list` has a number that the loop does not. By tenths, the loop has
one more number than the index counts. -/
theorem toList_steps_by_one :
    toList (rangeOf 1074 0 2 2) = [ofInt 0, ofInt 1] ∧
      (loop (rangeOf 1074 0 2 2) 2).map (List.map Prod.fst) = some [ofInt 0] ∧
      iterate (rangeOf 1074 0 2 2) 2 none = some [some (ofInt 0)] ∧
      toList (rangeOf 1074 0 2 2) ≠ [ofInt 0] ∧
      (loop tenths 12).map List.length = some 11 ∧
      (iterate tenths 12 none).map List.length = some 10 := by
  refine ⟨?_, ?_, ?_, ?_, ?_, ?_⟩ <;> decide +kernel

end Zuri.Builtins
