import Zuri.Jit.Ir.Cfg
import Zuri.Jit.Ir.Passes.Ints
import Zuri.Order.Widening

/-!
The ranges of 64-bit integers over a whole function, loop parameters included. Every block's
parameters are bounded by what its edges bring, and every operation by its operands; a range
that has grown three times is given up. That settles for every function.
-/

namespace Zuri.Jit.Ir.Ranges

open Zuri.Widening (Site settle)

/-- The lowest and highest value an `I64` can hold. -/
@[ext]
structure Range where
  lo : Int64
  hi : Int64
deriving DecidableEq

def full : Range := ⟨Int64.minValue, Int64.maxValue⟩

/-- How many times a value's range may widen before it is given up as unknown. -/
def widenings : Nat := 3

def join : Option Range → Range → Range
  | some a, b => ⟨min a.lo b.lo, max a.hi b.hi⟩
  | none, b => b

def exact : Option Range → Bool
  | some r => decide (-Ints.exact ≤ r.lo.toInt ∧ r.hi.toInt ≤ Ints.exact)
  | none => false

/-- `a op b` over whole ranges, when no result can leave `i64`. -/
def arith (op : IntOp) (a b : Range) : Option Range :=
  let a0 := a.lo.toInt
  let a1 := a.hi.toInt
  let b0 := b.lo.toInt
  let b1 := b.hi.toInt
  let r : Int × Int :=
    match op with
    | .add => (a0 + b0, a1 + b1)
    | .sub => (a0 - b1, a1 - b0)
    | .mul =>
        (min (min (a0 * b0) (a0 * b1)) (min (a1 * b0) (a1 * b1)),
          max (max (a0 * b0) (a0 * b1)) (max (a1 * b0) (a1 * b1)))
  if -2 ^ 63 ≤ r.1 ∧ r.2 ≤ 2 ^ 63 - 1 then some ⟨.ofInt r.1, .ofInt r.2⟩ else none

/-- The smallest `2^n - 1` at or above `x`, for `x` not negative. -/
def ones (x : Int64) : Int64 :=
  if x ≤ 0 then 0 else .ofNat (2 ^ (Nat.log2 x.toInt.toNat + 1) - 1)

/-- The smallest range of the form `-2^n..2^n - 1` holding both. -/
def sameWidth (a b : Range) : Range :=
  let reach (x : Int64) : Int64 := if x < 0 then ~~~x else x
  let o := ones (max (max (reach a.lo) (reach a.hi)) (max (reach b.lo) (reach b.hi)))
  ⟨-o - 1, o⟩

def bitwise (op : BitOp) (a b : Range) : Range :=
  let amount := if b.lo = b.hi ∧ 0 ≤ b.lo ∧ b.lo < 64 then some b.lo.toInt.toNat else none
  match op with
  | .and =>
      match decide (0 ≤ a.lo), decide (0 ≤ b.lo) with
      | true, true => ⟨0, min a.hi b.hi⟩
      | true, false => ⟨0, a.hi⟩
      | false, true => ⟨0, b.hi⟩
      | false, false => sameWidth a b
  | .or | .xor =>
      if 0 ≤ a.lo ∧ 0 ≤ b.lo then ⟨0, ones (max a.hi b.hi)⟩ else sameWidth a b
  | .shl =>
      match amount with
      | some s =>
          let lo := a.lo.toInt * 2 ^ s
          let hi := a.hi.toInt * 2 ^ s
          if -2 ^ 63 ≤ lo ∧ hi ≤ 2 ^ 63 - 1 then ⟨.ofInt lo, .ofInt hi⟩ else full
      | none => full
  | .shr =>
      match amount with
      | some s => ⟨.ofInt (a.lo.toInt >>> s), .ofInt (a.hi.toInt >>> s)⟩
      | none => ⟨min a.lo 0, max a.hi 0⟩
  | .ushr => ⟨0, 2 ^ 32 - 1⟩

/-- The integer `v` is the double of, looking through a box. -/
def madeDouble (f : Func) (v : ValueId) : Option ValueId := do
  let d ← f.defInst v
  let d ← if d.op = .boxF64 then f.defInst (d.args.getD 0 0) else some d
  if d.op = .intToF64 then some (d.args.getD 0 0) else none

/-- The range of `inst`'s `I64` result, or none while an operand has none yet. -/
def eval (f : Func) (inst : Inst) (ranges : ValueId → Option Range) : Option Range :=
  let arg (k : Nat) := ranges (inst.args.getD k 0)
  match inst.op with
  | .constI64 c => some ⟨.ofBitVec c, .ofBitVec c⟩
  | .bytesLoad | .strByte => some ⟨0, 255⟩
  | .listLen | .bytesLen | .strByteLen | .strLength | .objLength => some ⟨0, .ofInt Ints.exact⟩
  | .iAdd => do return (arith .add (← arg 0) (← arg 1)).getD full
  | .iSub => do return (arith .sub (← arg 0) (← arg 1)).getD full
  | .iMul => do return (arith .mul (← arg 0) (← arg 1)).getD full
  | .guard (.arith op) => do
      -- Whatever gets through the check is inside the exact range.
      let checked : Range := ⟨.ofInt (-Ints.exact), .ofInt (Ints.exact - 1)⟩
      match arith op (← arg 0) (← arg 1) with
      | some r =>
          let cut : Range := ⟨max r.lo checked.lo, min r.hi checked.hi⟩
          return if cut.lo ≤ cut.hi then cut else checked
      | none => return checked
  | .iBit .and =>
      match arg 0, arg 1 with
      | some a, some b => some (bitwise .and a b)
      | some r, none | none, some r => if 0 ≤ r.lo then some ⟨0, r.hi⟩ else none
      | none, none => none
  | .iBit op => do return bitwise op (← arg 0) (← arg 1)
  | .wrapI64 | .guard .whole | .guard .int =>
      match madeDouble f (inst.args.getD 0 0) with
      | some x => do
          let r ← ranges x
          return if exact (some r) then r else full
      | none => some full
  | _ => some full

/-- The argument lists of the edges from one block into another. -/
def edgeArgs (f : Func) (source target : BlockId) : List (List ValueId) :=
  ((f.block source).term.edges.filter fun e => e.1 = target).map Prod.snd

/-- What an edge brings to a parameter: joined with the others, or unknown. -/
def bring (ranges : ValueId → Option Range) (inside : Bool) (k : Nat)
    (brought : Option Range × Bool) (args : List ValueId) : Option Range × Bool :=
  match args[k]?.map ranges with
  | some (some r) => (some (join brought.1 r), brought.2)
  | some none => (brought.1, brought.2 || !inside)
  | none => (brought.1, true)

/-- What parameter `k` of a block takes from the edges into it. With `closed` only edges from
`blocks` count. -/
def paramNext (f : Func) (blocks : List BlockId) (closed : Bool) (b : BlockId) (k : Nat)
    (ranges : ValueId → Option Range) : Option Range :=
  let preds := (f.preds b).filter fun pred => !closed || blocks.contains pred
  let brought := preds.foldl (fun brought pred =>
    (edgeArgs f pred b).foldl (bring ranges (blocks.contains pred) k) brought) (none, false)
  if brought.2 then some full else brought.1

/-- What is worked out in a block: its integer parameters, then the integers it computes. -/
def sitesOf (f : Func) (blocks : List BlockId) (header : Option (BlockId × List ValueId))
    (b : BlockId) : List (Site ValueId Range) :=
  ((f.block b).params.zipIdx.filterMap fun (p, k) =>
    if f.ty p = .i64 then
      let closed := header.any fun h => h.1 = b && !h.2.contains p
      some ⟨p, paramNext f blocks closed b k⟩
    else none) ++
  (f.code b).filterMap fun inst => inst.result.bind fun v =>
    if f.ty v = .i64 then some ⟨v, eval f inst⟩ else none

def sites (f : Func) (blocks : List BlockId) (header : Option (BlockId × List ValueId)) :
    List (Site ValueId Range) := blocks.flatMap (sitesOf f blocks header)

theorem max_eq (a b : Int64) : max a b = if a ≤ b then b else a := rfl

theorem le_max_left (a b : Int64) : a ≤ max a b := by
  rw [max_eq]
  split
  · assumption
  · exact Int64.le_refl a

theorem le_max_right (a b : Int64) : b ≤ max a b := by
  rw [max_eq]
  split
  · exact Int64.le_refl b
  · next h => exact (Int64.le_total a b).resolve_left h

theorem max_le {a b c : Int64} (ha : a ≤ c) (hb : b ≤ c) : max a b ≤ c := by
  rw [max_eq]
  split <;> assumption

instance : SemilatticeSup Range where
  le a b := b.lo ≤ a.lo ∧ a.hi ≤ b.hi
  le_refl a := ⟨Int64.le_refl _, Int64.le_refl _⟩
  le_trans a b c hab hbc := ⟨Int64.le_trans hbc.1 hab.1, Int64.le_trans hab.2 hbc.2⟩
  le_antisymm a b hab hba :=
    Range.ext (Int64.le_antisymm hba.1 hab.1) (Int64.le_antisymm hab.2 hba.2)
  sup a b := join (some a) b
  le_sup_left a b := ⟨Std.min_le_left, le_max_left _ _⟩
  le_sup_right a b := ⟨Std.min_le_right, le_max_right _ _⟩
  sup_le a b c hac hbc := ⟨Std.le_min_iff.mpr ⟨hac.1, hbc.1⟩, max_le hac.2 hbc.2⟩

instance : OrderTop Range where
  top := full
  le_top a := And.intro (Int64.minValue_le a.lo) (Int64.le_maxValue a.hi)

/-- Settles `ranges` for the values `blocks` define, with how often each has widened. -/
def runToFixpoint (f : Func) (blocks : List BlockId) (header : Option (BlockId × List ValueId))
    (fuel : Nat) (ranges : ValueId → Option Range) : Option (Widening.State ValueId Range) :=
  settle widenings (sites f blocks header) fuel ⟨ranges, fun _ => 0⟩

theorem mem_sites_param {f : Func} {blocks : List BlockId}
    (header : Option (BlockId × List ValueId)) {b : BlockId} {k : Nat} {p : ValueId}
    (hb : b ∈ blocks) (hp : (f.block b).params[k]? = some p) (hty : f.ty p = .i64) :
    ⟨p, paramNext f blocks (header.any fun h => h.1 = b && !h.2.contains p) b k⟩ ∈
      sites f blocks header := by
  refine List.mem_flatMap.mpr ⟨b, hb, List.mem_append_left _ (List.mem_filterMap.mpr ?_)⟩
  exact ⟨(p, k), List.mem_zipIdx_iff_getElem?.mpr hp, if_pos hty⟩

theorem mem_sites_inst {f : Func} {blocks : List BlockId}
    (header : Option (BlockId × List ValueId)) {b : BlockId} {inst : Inst} {v : ValueId}
    (hb : b ∈ blocks) (hinst : inst ∈ f.code b) (hv : inst.result = some v) (hty : f.ty v = .i64) :
    ⟨v, eval f inst⟩ ∈ sites f blocks header := by
  refine List.mem_flatMap.mpr ⟨b, hb, List.mem_append_right _ (List.mem_filterMap.mpr ?_)⟩
  exact ⟨inst, hinst, by rw [hv, Option.bind_some, if_pos hty]⟩

end Zuri.Jit.Ir.Ranges
