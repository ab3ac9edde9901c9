import Mathlib.Data.List.GetD
import Zuri.Graph.EditGraph

/-!
The edit script of two lists of lines: rounds that follow every diagonal as far as it goes, with
the frontier of each round kept, and the walk back through the kept frontiers.
-/

namespace Zuri.Lsp

/-- The steps `['=', i, j]`, `['-', i]` and `['+', j]`. -/
inductive Step where
  | keep (i j : Nat)
  | delete (i : Nat)
  | insert (j : Nat)
  deriving DecidableEq, Repr

section Rounds

variable {α : Type} [DecidableEq α]

/-- How far two lists go on alike: the loop along a diagonal, given what is left of both. -/
def common : List α → List α → Nat
  | c :: a, d :: b => if c = d then common a b + 1 else 0
  | _, _ => 0

/-- `v[offset + k]`. -/
def entry (v : List Nat) (offset : Nat) (k : Int) : Nat := v.getD (offset + k).toNat 0

/-- Whether round `d` comes to diagonal `k` from the one above it. -/
def comesDown (v : List Nat) (offset d : Nat) (k : Int) : Bool :=
  k == -d || (k != d && decide (entry v offset (k - 1) < entry v offset (k + 1)))

/-- Where round `d` comes to diagonal `k`. -/
def startOn (v : List Nat) (offset d : Nat) (k : Int) : Nat :=
  if comesDown v offset d k then entry v offset (k + 1) else entry v offset (k - 1) + 1

/-- How far round `d` goes on diagonal `k`. -/
def endOn (a b : List α) (v : List Nat) (offset d : Nat) (k : Int) : Nat :=
  let x := startOn v offset d k
  x + common (a.drop x) (b.drop (x - k).toNat)

/-- The diagonals of round `d` from `k` on, `count` of them, and whether one ends the search. -/
def round (a b : List α) (offset d : Nat) : Nat → Int → List Nat → List Nat × Bool
  | 0, _, v => (v, false)
  | count + 1, k, v =>
      let x := endOn a b v offset d k
      let v := v.set (offset + k).toNat x
      if x ≥ a.length ∧ x - k ≥ b.length then (v, true)
      else round a b offset d count (k + 2) v

/-- The frontiers of the rounds from `d` on, at most `count` of them. -/
def rounds (a b : List α) (offset : Nat) : Nat → Nat → List Nat → List (List Nat)
  | 0, _, _ => []
  | count + 1, d, v =>
      let after := round a b offset d (d + 1) (-d) v
      v :: (if after.2 then [] else rounds a b offset count (d + 1) after.1)

/-- The steps back along a diagonal, and where they stop. Neither counter falls below zero on the
frontiers that the rounds keep. -/
def slide (previousX : Nat) (previousY : Int) : Nat → Nat → List Step × Nat × Nat
  | 0, y => ([], 0, y)
  | x + 1, y =>
      if x + 1 > previousX ∧ y > previousY then
        let rest := slide previousX previousY x (y - 1)
        (.keep x (y - 1) :: rest.1, rest.2)
      else ([], x + 1, y)

/-- The walk back from a point through the frontiers, the last first. -/
def walk (trace : List (List Nat)) (offset : Nat) : Nat → Nat → Nat → List Step
  | 0, _, _ => []
  | d + 1, x, y =>
      let saved := trace.getD d []
      let k : Int := x - y
      let previousK := if comesDown saved offset d k then k + 1 else k - 1
      let previousX := entry saved offset previousK
      let previousY : Int := previousX - previousK
      let back := slide previousX previousY x y
      let x := back.2.1
      let y := back.2.2
      if d > 0 then
        if x = previousX then back.1 ++ .insert (y - 1) :: walk trace offset d x (y - 1)
        else back.1 ++ .delete (x - 1) :: walk trace offset d (x - 1) y
      else back.1

/-- The frontiers kept for two lists. -/
def trace (a b : List α) : List (List Nat) :=
  let max := a.length + b.length
  rounds a b (max + 1) (max + 1) 0 (List.replicate (2 * max + 3) 0)

/-- `_edit_script`. -/
def editScript (a b : List α) : List Step :=
  let offset := a.length + b.length + 1
  let trace := trace a b
  (walk trace offset trace.length a.length b.length).reverse

end Rounds

end Zuri.Lsp
