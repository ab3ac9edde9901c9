import Zuri.Jit.Ir.Edit

/-!
Branches whose outcome is already known on the way in.

A block that does nothing but branch on one of its parameters is passed by
along an edge that decides the parameter. What the new destination uses of the
passed block's parameters becomes parameters of the destination. Blocks left
with one jump into them are then folded into the block that jumps.
-/

namespace Graph

variable {α : Type} [DecidableEq α]

/-- Everything reachable around a node: a stack of nodes to look at and the nodes seen so far. The
node to avoid is never entered. -/
def flood (succ : α → List α) (avoid : α) : Nat → List α → List α → Option (List α)
  | 0, _, _ => none
  | _ + 1, [], seen => some seen
  | fuel + 1, b :: stack, seen =>
      if b ≠ avoid ∧ b ∉ seen then
        flood succ avoid fuel ((succ b).reverse ++ stack) (b :: seen)
      else flood succ avoid fuel stack seen

end Graph

namespace Zuri.Jit.Ir

namespace Func

variable (f : Func)

/-- The operation defining `v`, when an operation does. -/
def defInst (v : ValueId) : Option Inst :=
  match (f.values.getD v ⟨.tagged, .inst 0⟩).origin with
  | .inst i => some (f.inst i)
  | .param _ _ => none

def addBlockParam (b : BlockId) (ty : Ty) : Func :=
  let v := f.values.length
  let index := (f.block b).params.length
  { f.setBlock b { f.block b with params := (f.block b).params ++ [v] } with
    values := f.values ++ [⟨ty, .param b index⟩] }

def setTerm (b : BlockId) (term : Terminator) : Func := f.setBlock b { f.block b with term := term }

end Func

/-- Passes one more value along every edge to `target`. -/
def Terminator.pushArg (target : BlockId) (v : ValueId) : Terminator → Terminator
  | jump t args => if t = target then jump t (args ++ [v]) else jump t args
  | branch cond thenBlock thenArgs elseBlock elseArgs =>
      branch cond thenBlock (if thenBlock = target then thenArgs ++ [v] else thenArgs)
        elseBlock (if elseBlock = target then elseArgs ++ [v] else elseArgs)
  | t => t

namespace Thread

/-- What `v`, passed along the `side` edge of a branch on `cond`, is known to
be there. -/
def knownOnEdge (f : Func) (v cond : ValueId) (side : Bool) : Option Bool :=
  if v = cond then some side
  else
    match f.defInst v with
    | some inst =>
        match inst.op with
        | .bNot => if inst.args.head? = some cond then some !side else none
        | .constBool b => some b
        | _ => none
    | none => none

/-- Every block reachable from `start`, itself included, without passing
through `avoid`. Each is entered once and puts two others on the stack at most. -/
def reachableAvoiding (f : Func) (start avoid : BlockId) : List BlockId :=
  (Graph.flood f.succs avoid (3 * f.blocks.length + 2) [start] []).getD []

/-- Whether a block uses a value, its terminator left out for `owner`. -/
def usesIn (f : Func) (v : ValueId) (owner b : BlockId) : Bool :=
  ((f.code b).any fun inst => v ∈ inst.uses) ||
    ((f.block b).fixedRegs.any fun e => e.2 = v) ||
    (b ≠ owner && (v ∈ (f.block b).term.uses : Bool))

/-- The blocks that use `v`, apart from `owner`'s terminator. -/
def useBlocks (f : Func) (v : ValueId) (owner : BlockId) : List BlockId :=
  (List.range f.blocks.length).filter (usesIn f v owner)

/-- A use of `old` becomes a use of `new`. -/
def swap (old new v : ValueId) : ValueId := if v = old then new else v

/-- Replaces `old` with `new` in everything block `b` holds. -/
def renameInBlock (f : Func) (b : BlockId) (old new : ValueId) : Func :=
  let f := { f with
    insts := (f.block b).insts.foldl
      (fun insts i => insts.modify i (Inst.mapUses (swap old new))) f.insts }
  f.setBlock b ((f.block b).mapUses (swap old new))

/-- The blocks that pass values along, what each end of the edge is, and what
has to move. -/
structure Plan where
  block : BlockId
  dest : BlockId
  other : BlockId
  args : List ValueId
  template : List ValueId
  moved : List Nat
deriving DecidableEq, Repr

/-- The parameters of `b` that the destination has to take over, if each can be
served. -/
def movable (f : Func) (doms : List (BlockId × BlockId)) (b s : BlockId) : Option (List Nat) :=
  let reach := reachableAvoiding f s b
  ((f.block b).params.zipIdx.mapM fun e =>
    let used := (useBlocks f e.1 b).filter (· ∈ reach)
    if used.all (dominates doms s) then
      some (if used.isEmpty then [] else [e.2])
    else none).map List.flatten

/-- Whether, and how, the `side` edge of `p`'s branch can pass the block it
leads to. What edges pass is indexed: the function is to be `Fed`. -/
def plan (f : Func) (p : BlockId) (side : Bool) : Option Plan :=
  match (f.block p).term with
  | .branch cond thenBlock thenArgs elseBlock elseArgs =>
      let (b, args, other) := if side then (thenBlock, thenArgs, elseBlock)
        else (elseBlock, elseArgs, thenBlock)
      if b = p ∨ (f.block b).insts ≠ [] then none
      else
        match (f.block b).term with
        | .branch q bt bta be bea =>
            match (f.block b).params.findIdx? (· = q) with
            | some k =>
                match knownOnEdge f (args.getD k 0) cond side with
                | some taken =>
                    let (s, template) := if taken then (bt, bta) else (be, bea)
                    if s = b ∨ s = p ∨ s = other then none
                    else
                      let doms := f.dominators f.reversePostorder
                      match movable f doms b s with
                      | some moved =>
                          if moved ≠ [] ∧ ¬ dominates doms b s then none
                          else some ⟨b, s, other, args, template, moved⟩
                      | none => none
                | none => none
            | none => none
        | _ => none
  | _ => none

/-- What the passed block's parameters stand for along the edge. -/
def Plan.substitute (f : Func) (plan : Plan) (v : ValueId) : ValueId :=
  match (f.block plan.block).params.findIdx? (· = v) with
  | some j => plan.args.getD j 0
  | none => v

/-- The values the new edge passes. -/
def Plan.newArgs (f : Func) (plan : Plan) : List ValueId :=
  plan.template.map (plan.substitute f) ++ plan.moved.map fun j => plan.args.getD j 0

/-- The function with one more parameter of `s`, kept in step with the
registers its parameters carry. -/
def withParam (s : BlockId) (ty : Ty) (reg : Nat) (f : Func) : Func :=
  let f := f.addBlockParam s ty
  if (f.block s).paramRegs.length + 1 = (f.block s).params.length
  then f.setBlock s { f.block s with paramRegs := (f.block s).paramRegs ++ [reg] } else f

/-- Makes `param` a parameter of `s`, passed along every edge into it and used
in the blocks it dominates. -/
def moveParam (s : BlockId) (dominated : List BlockId) (param : ValueId) (reg : Nat) (f : Func) :
    Func :=
  let fresh := f.values.length
  let f := withParam s (f.ty param) reg f
  let f := (f.preds s).foldl
    (fun f pred => f.setTerm pred ((f.block pred).term.pushArg s param)) f
  dominated.foldl (fun f u => renameInBlock f u param fresh) f

/-- Points one side of a branch at `s`. -/
def retarget (side : Bool) (s : BlockId) (args : List ValueId) : Terminator → Terminator
  | .branch cond thenBlock thenArgs elseBlock elseArgs =>
      if side then .branch cond s args elseBlock elseArgs
      else .branch cond thenBlock thenArgs s args
  | t => t

/-- Sends the `side` edge of `p`'s branch past the block it leads to, when that
block only branches on a parameter the edge already decides. -/
def threadEdge (f : Func) (p : BlockId) (side : Bool) : Option Func :=
  (plan f p side).map fun plan =>
    let doms := f.dominators f.reversePostorder
    let dominated := f.reversePostorder.filter (dominates doms plan.dest)
    let block := f.block plan.block
    let moved := plan.moved.foldl (fun f j =>
      moveParam plan.dest dominated (block.params.getD j 0) (block.paramRegs.getD j 0) f) f
    moved.setTerm p (retarget side plan.dest (plan.newArgs f) (moved.block p).term)

/-- The block a merge leaves behind. -/
def emptied (b : Block) : Block :=
  { b with params := [], paramRegs := [], fixedRegs := [], insts := [],
           term := .deopt ⟨0, [], 0, none⟩ }

/-- Folds the block `x` alone jumps to into `x`. -/
def mergeOnce (f : Func) (x : BlockId) : Option Func :=
  match (f.block x).term with
  | .jump y args =>
      if y = x ∨ y = f.entry ∨ y ∈ f.osrEntries.map Prod.snd ∨ (f.preds y).length ≠ 1 then none
      else
        let f := ((f.block y).params.zip args).foldl (fun f e => f.replaceUses e.1 e.2) f
        let from_ := f.block y
        let into := f.block x
        let f := f.setBlock x { into with insts := into.insts ++ from_.insts, term := from_.term }
        some (f.setBlock y (emptied from_))
  | _ => none

/-- Folds into `x` as long as there is something to. -/
def mergeAt (x : BlockId) : Nat → Func × Bool → Option (Func × Bool)
  | 0, _ => none
  | fuel + 1, (f, changed) =>
      match mergeOnce f x with
      | some f => mergeAt x fuel (f, true)
      | none => some (f, changed)

def mergeSingleEntries (f : Func) : Option (Func × Bool) :=
  (List.range f.blocks.length).foldlM
    (fun state x => mergeAt x (f.blocks.length + 1) state) (f, false)

/-- The edges tried in one round. -/
def edgesOf (f : Func) : List (BlockId × Bool) :=
  (List.range f.blocks.length).flatMap fun b => [(b, true), (b, false)]

def tryEdge (state : Func × Bool) (edge : BlockId × Bool) : Func × Bool :=
  match threadEdge state.1 edge.1 edge.2 with
  | some f => (f, true)
  | none => state

/-- One round over every edge, then the folding. -/
def round (f : Func) : Option (Func × Bool) := do
  let (f, threaded) := (edgesOf f).foldl tryEdge (f, false)
  let (f, merged) ← mergeSingleEntries f
  pure (f, threaded || merged)

/-- Rounds until one changes nothing. -/
def rounds : Nat → Func × Bool → Option (Func × Bool)
  | 0, _ => none
  | fuel + 1, (f, changed) => do
      let (f, progress) ← round f
      if progress then rounds fuel (f, true) else pure (f, changed)

/-- Clears every block control cannot reach. -/
def pruneUnreachable (f : Func) : Func :=
  let reachable := f.reversePostorder
  { f with blocks := f.blocks.mapIdx fun i b => if i ∈ reachable then b else emptied b }

/-- The function threaded, and whether anything changed. -/
def run (fuel : Nat) (f : Func) : Option (Func × Bool) := do
  let (f, changed) ← rounds fuel (f, false)
  pure (if changed then pruneUnreachable f else f, changed)

end Thread

end Zuri.Jit.Ir
