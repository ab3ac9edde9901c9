import Mathlib.Data.List.Basic
import Mathlib.Order.Bounds.Defs

/-!
The edit graph of two lists. A point is how much of each list has been passed; passing an element
of one list alone is a move that counts, passing one element that both have is a move that does
not. Nothing bounds the points, but a move that does not count stays within both lists.
-/

namespace EditGraph

variable {α : Type*} (a b : List α)

/-- Both lists have the same element at a point. -/
def Match (x y : Nat) : Prop := ∃ c, a[x]? = some c ∧ b[y]? = some c

/-- A point is reached with a number of moves that count. -/
inductive Reach : Nat → Nat → Nat → Prop where
  | start : Reach 0 0 0
  | keep {d x y : Nat} : Reach d x y → Match a b x y → Reach d (x + 1) (y + 1)
  | delete {d x y : Nat} : Reach d x y → Reach (d + 1) (x + 1) y
  | insert {d x y : Nat} : Reach d x y → Reach (d + 1) x (y + 1)

/-- The furthest point of a diagonal that is reached with a number of moves. -/
structure Furthest (d : Nat) (k : Int) (x : Nat) : Prop where
  reached : ∃ y : Nat, (x : Int) - y = k ∧ Reach a b d x y
  last : ∀ x' y' : Nat, Reach a b d x' y' → (x' : Int) - y' = k → x' ≤ x

/-- A script makes one list of another by keeping, deleting and inserting elements; the number
counts those deleted or inserted. -/
inductive Script : List α → List α → Nat → Prop where
  | nil : Script [] [] 0
  | keep {a b : List α} {n : Nat} (c : α) : Script a b n → Script (c :: a) (c :: b) n
  | delete {a b : List α} {n : Nat} (c : α) : Script a b n → Script (c :: a) b (n + 1)
  | insert {a b : List α} {n : Nat} (c : α) : Script a b n → Script a (c :: b) (n + 1)

variable {a b}

section Points

variable {d x y : Nat}

theorem Match.within (hmatch : Match a b x y) : x < a.length ∧ y < b.length := by
  obtain ⟨c, ha, hb⟩ := hmatch
  exact ⟨(List.getElem?_eq_some_iff.1 ha).1, (List.getElem?_eq_some_iff.1 hb).1⟩

theorem Reach.diagonal (hreach : Reach a b d x y) :
    x ≤ y + d ∧ y ≤ x + d ∧ (x + y + d) % 2 = 0 := by
  induction hreach with
  | start => exact ⟨Nat.le_refl _, Nat.le_refl _, rfl⟩
  | keep _ _ ih => omega
  | delete _ ih => omega
  | insert _ ih => omega

theorem Reach.keeps (hreach : Reach a b d x y) {s : Nat}
    (hrun : ∀ i < s, Match a b (x + i) (y + i)) : Reach a b d (x + s) (y + s) := by
  induction s with
  | zero => exact hreach
  | succ s ih =>
    exact .keep (ih fun i hi => hrun i (Nat.lt_succ_of_lt hi)) (hrun s (Nat.lt_succ_self s))

/-- Moves past the end of a list count, so a point past both ends is reached later than the last
point of both lists by as much as it is past them. -/
theorem Reach.clip (hreach : Reach a b d x y) :
    ∃ e, Reach a b e (min x a.length) (min y b.length) ∧
      e + (x - a.length) + (y - b.length) = d := by
  induction hreach with
  | start => exact ⟨0, by simpa using Reach.start, by omega⟩
  | @keep d x y hreach hmatch ih =>
    obtain ⟨e, hclip, hsum⟩ := ih
    have hwithin := hmatch.within
    rw [Nat.min_eq_left (by omega), Nat.min_eq_left (by omega)] at hclip
    refine ⟨e, ?_, by omega⟩
    rw [Nat.min_eq_left (by omega), Nat.min_eq_left (by omega)]
    exact .keep hclip hmatch
  | @delete d x y hreach ih =>
    obtain ⟨e, hclip, hsum⟩ := ih
    by_cases hx : x < a.length
    · rw [Nat.min_eq_left (by omega : x ≤ a.length)] at hclip
      rw [Nat.min_eq_left (by omega : x + 1 ≤ a.length)]
      exact ⟨e + 1, .delete hclip, by omega⟩
    · rw [Nat.min_eq_right (by omega : a.length ≤ x)] at hclip
      rw [Nat.min_eq_right (by omega : a.length ≤ x + 1)]
      exact ⟨e, hclip, by omega⟩
  | @insert d x y hreach ih =>
    obtain ⟨e, hclip, hsum⟩ := ih
    by_cases hy : y < b.length
    · rw [Nat.min_eq_left (by omega : y ≤ b.length)] at hclip
      rw [Nat.min_eq_left (by omega : y + 1 ≤ b.length)]
      exact ⟨e + 1, .insert hclip, by omega⟩
    · rw [Nat.min_eq_right (by omega : b.length ≤ y)] at hclip
      rw [Nat.min_eq_right (by omega : b.length ≤ y + 1)]
      exact ⟨e, hclip, by omega⟩

theorem Reach.zero (hreach : Reach a b 0 x y) : x = y ∧ ∀ i < x, Match a b i i := by
  generalize hd : 0 = d at hreach
  induction hreach with
  | start => exact ⟨rfl, fun i hi => absurd hi (Nat.not_lt_zero i)⟩
  | @keep d x y _ hmatch ih =>
    obtain ⟨rfl, hrun⟩ := ih hd
    refine ⟨rfl, fun i hi => ?_⟩
    rcases Nat.lt_succ_iff_lt_or_eq.1 hi with hlt | rfl
    · exact hrun i hlt
    · exact hmatch
  | delete _ _ => omega
  | insert _ _ => omega

/-- The last move that counts, and the moves after it. -/
theorem Reach.last_move (hreach : Reach a b (d + 1) x y) :
    ∃ x₀ y₀ s, x = x₀ + s ∧ y = y₀ + s ∧ (∀ i < s, Match a b (x₀ + i) (y₀ + i)) ∧
      ((∃ p, x₀ = p + 1 ∧ Reach a b d p y₀) ∨ (∃ q, y₀ = q + 1 ∧ Reach a b d x₀ q)) := by
  generalize hd : d + 1 = e at hreach
  induction hreach with
  | start => omega
  | @keep e x y _ hmatch ih =>
    obtain ⟨x₀, y₀, s, rfl, rfl, hrun, hmove⟩ := ih hd
    refine ⟨x₀, y₀, s + 1, rfl, rfl, fun i hi => ?_, hmove⟩
    rcases Nat.lt_succ_iff_lt_or_eq.1 hi with hlt | rfl
    · exact hrun i hlt
    · exact hmatch
  | @delete e x y hreach _ =>
    obtain rfl : d = e := by omega
    exact ⟨x + 1, y, 0, rfl, rfl, fun i hi => absurd hi (Nat.not_lt_zero i),
      .inl ⟨x, rfl, hreach⟩⟩
  | @insert e x y hreach _ =>
    obtain rfl : d = e := by omega
    exact ⟨x, y + 1, 0, rfl, rfl, fun i hi => absurd hi (Nat.not_lt_zero i),
      .inr ⟨y, rfl, hreach⟩⟩

end Points

section Furthests

variable {d xs ys s : Nat} {k : Int}

theorem furthest_zero (hrun : ∀ i < s, Match a b i i) (hstop : ¬ Match a b s s) :
    Furthest a b 0 0 s := by
  refine ⟨⟨s, by omega, ?_⟩, fun x' y' hreach _ => ?_⟩
  · have hkeeps := (Reach.start (a := a) (b := b)).keeps (s := s) (by simpa using hrun)
    simpa using hkeeps
  · by_contra hpast
    exact hstop (hreach.zero.2 s (by omega))

/-- Following the diagonal from the furthest point that a move reaches ends at the furthest
point. -/
theorem furthest_succ (hreach : Reach a b (d + 1) xs ys) (hdiag : (xs : Int) - ys = k)
    (hrun : ∀ i < s, Match a b (xs + i) (ys + i)) (hstop : ¬ Match a b (xs + s) (ys + s))
    (hdelete : ∀ p q : Nat, Reach a b d p q → (p : Int) - q = k - 1 → p + 1 ≤ xs)
    (hinsert : ∀ p q : Nat, Reach a b d p q → (p : Int) - q = k + 1 → p ≤ xs) :
    Furthest a b (d + 1) k (xs + s) := by
  refine ⟨⟨ys + s, by omega, hreach.keeps hrun⟩, fun x' y' hreach' hdiag' => ?_⟩
  obtain ⟨x₀, y₀, t, rfl, rfl, hrun', hmove⟩ := hreach'.last_move
  have hx₀ : x₀ ≤ xs := by
    rcases hmove with ⟨p, rfl, hp⟩ | ⟨q, rfl, hq⟩
    · exact hdelete p y₀ hp (by omega)
    · exact hinsert x₀ q hq (by omega)
  by_contra hpast
  have hmatch := hrun' (xs + s - x₀) (by omega)
  rw [show x₀ + (xs + s - x₀) = xs + s by omega,
    show y₀ + (xs + s - x₀) = ys + s by omega] at hmatch
  exact hstop hmatch

end Furthests

section Scripts

theorem Script.append {a₁ b₁ a₂ b₂ : List α} {n₁ n₂ : Nat} (hfront : Script a₁ b₁ n₁)
    (hback : Script a₂ b₂ n₂) : Script (a₁ ++ a₂) (b₁ ++ b₂) (n₁ + n₂) := by
  induction hfront with
  | nil => simpa using hback
  | keep c _ ih => exact .keep c ih
  | delete c _ ih => exact (Nat.add_right_comm _ _ _) ▸ Script.delete c ih
  | insert c _ ih => exact (Nat.add_right_comm _ _ _) ▸ Script.insert c ih

/-- A script from a point on is a way from the point to the end of both lists. -/
theorem Script.reach {front back : List α} {n : Nat} (hscript : Script front back n) {d x y : Nat}
    (hfront : front = a.drop x) (hback : back = b.drop y) (hx : x ≤ a.length) (hy : y ≤ b.length)
    (hreach : Reach a b d x y) : Reach a b (d + n) a.length b.length := by
  have hcons : ∀ {l rest : List α} {c : α} {i : Nat}, c :: rest = l.drop i →
      l[i]? = some c ∧ rest = l.drop (i + 1) ∧ i + 1 ≤ l.length := by
    intro l rest c i hdrop
    have hget : l[i]? = some c := by rw [← List.head?_drop, ← hdrop, List.head?_cons]
    refine ⟨hget, ?_, (List.getElem?_eq_some_iff.1 hget).1⟩
    rw [← List.tail_drop, ← hdrop, List.tail_cons]
  induction hscript generalizing d x y with
  | nil =>
    have hxl := List.drop_eq_nil_iff.1 hfront.symm
    have hyl := List.drop_eq_nil_iff.1 hback.symm
    obtain rfl : x = a.length := Nat.le_antisymm hx hxl
    obtain rfl : y = b.length := Nat.le_antisymm hy hyl
    exact hreach
  | keep c _ ih =>
    obtain ⟨ha, hfront, hx⟩ := hcons hfront
    obtain ⟨hb, hback, hy⟩ := hcons hback
    exact ih hfront hback hx hy (.keep hreach ⟨c, ha, hb⟩)
  | @delete front back n c _ ih =>
    obtain ⟨-, hfront, hx⟩ := hcons hfront
    have hrest := ih hfront hback hx hy (.delete hreach)
    rwa [Nat.add_assoc, Nat.add_comm 1 n] at hrest
  | @insert front back n c _ ih =>
    obtain ⟨-, hback, hy⟩ := hcons hback
    have hrest := ih hfront hback hx hy (.insert hreach)
    rwa [Nat.add_assoc, Nat.add_comm 1 n] at hrest

/-- Deleting everything and inserting everything is a way to the end of both lists. -/
theorem reach_all : Reach a b (a.length + b.length) a.length b.length := by
  have hdelete : ∀ n, Reach a b n n 0 := fun n => by
    induction n with
    | zero => exact .start
    | succ n ih => exact .delete ih
  have hinsert : ∀ m, Reach a b (a.length + m) a.length m := fun m => by
    induction m with
    | zero => exact hdelete _
    | succ m ih => exact .insert ih
  exact hinsert _

end Scripts

end EditGraph
