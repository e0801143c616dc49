import Unnest.Lower.Branching
import Unnest.Lower.Calls
import Unnest.Lower.Capturing
import Unnest.Lower.Resuming
import Unnest.Lower.Unwinding
import Unnest.Tidy.Constants
import Unnest.Tidy.Prune
import Unnest.Func.Lowered
/-!
# Lowering a function

The first construct at the top level of the body, in layout order, is lowered, and then the first
of what is left, until there is none. A construct reaches the top level when the construct around
it has been lowered, so outer constructs always come first. Dispatches are put off to the end.

The weight of the body bounds the number of constructs that are lowered. A construct weighs one
more than what is nested in it, and a finally counts twice, as it is cloned.
-/

namespace Unnest

namespace Nest

mutual

/-- How many constructs the lowering of the ops meets at most. -/
def Ops.weight (f : Func) : Ops → Nat
  | .nil => 0
  | .cons op regions rest =>
    let own := f.kindIs (fun k => k.isStructured && !k.isDispatch) op
    let copies := if f.kindIs (· == .construct .tryCatch) op then [1, 1, 2] else []
    own.toNat + regions.weight f copies + rest.weight f

/-- The weight of a region's blocks. -/
def Blocks.weight (f : Func) : Blocks → Nat
  | .nil => 0
  | .cons _ ops rest => ops.weight f + rest.weight f

/-- The weights of the regions, each as often as it will be laid out; once where nothing is
said. -/
def Regions.weight (f : Func) (copies : List Nat) : Regions → Nat
  | .nil => 0
  | .cons _ blocks rest => copies.headD 1 * blocks.weight f + rest.weight f copies.tail

end

end Nest

namespace Func

/-- The weight of the body. A body that cannot be read to its end has the weight that no body with
as many nodes exceeds. -/
def weight (f : Func) : Nat :=
  match f.regionNest f.body with
  | .ok nest => nest.weight f
  | .error _ => f.ops.size * Nat.pow 2 f.regions.size

/-- The dispatches among the ops up to the first other construct, and that construct. -/
def scanOps (f : Func) : List OpId → Except Stop (List OpId × Option OpId)
  | [] => return ([], none)
  | op :: rest => do
    let kind ← f.kind op
    if kind.isDispatch then
      let (dispatches, found) ← f.scanOps rest
      return (op :: dispatches, found)
    else if kind.isStructured then
      return ([], some op)
    else
      f.scanOps rest

/-- The dispatches in the blocks up to the first other construct, and that construct with the
number of its block. The blocks are numbered from `index` on. -/
def scanBlocks (f : Func) (index : Nat) :
    List BlockId → Except Stop (List OpId × Option (Nat × OpId))
  | [] => return ([], none)
  | block :: rest => do
    let (dispatches, found) ← f.scanOps (← f.block block).ops
    match found with
    | some op => return (dispatches, some (index, op))
    | none =>
      let (others, found) ← f.scanBlocks (index + 1) rest
      return (dispatches ++ others, found)

end Func

namespace Lower

/-- The first construct at the top level from the given block of the body on, with the number of
its block. The dispatches before it are put off. -/
def nextConstruct (start : Nat) : Lower (Option (Nat × OpId)) := do
  let f ← getFunc
  let (dispatches, found) ← f.scanBlocks start ((← f.bodyBlocks).drop start)
  settle fun b => dispatches.foldl Bindings.defer b
  return found

/-- Lowers one construct. -/
def lowerConstruct (types : TypeTable) (o : LowerOptions) (op : OpId) : Construct → Lower Unit
  | .entry => lowerEntry op
  | .exit => lowerExit op
  | .ret => lowerReturn op
  | .retVal => lowerReturnVal op
  | .yieldVal => lowerYieldVal op
  | .branch => lowerBranch op
  | .whileLoop label => lowerWhile op (.whileLoop label)
  | .doWhile label => lowerDoWhile op (.doWhile label)
  | .forLoop label => lowerFor op (.forLoop label)
  | .switch label => lowerMerging op (.switch label)
  | .labeled label => lowerMerging op (.labeled label)
  | .brk _ | .cont _ => lowerJump op
  | .tryCatch => lowerTry types o.unwind op
  | .catchMark _ => lowerCatch op
  | .throw => lowerThrow op
  | .call callee => lowerCall op (.symbol callee) (.call callee)
  | .callIndirect => lowerCall op .indirect .callIndirect
  | .stateLabel => lowerStateLabel op
  | .capture => lowerCapture o.capture op
  | .switchState _ => throw (.internalAt op .eagerDispatch)
  | .yield => throw (.contractAt op (.outsideConstruct Construct.yield.mnemonic))
  | .condition => throw (.contractAt op (.outsideConstruct Construct.condition.mnemonic))
  | .noCondition => throw (.contractAt op (.outsideConstruct Construct.noCondition.mnemonic))
  | .merge => throw (.contractAt op (.outsideConstruct Construct.merge.mnemonic))

/-- Lowers an op; anything but a construct stays as it is. -/
def lowerOp (types : TypeTable) (o : LowerOptions) (op : OpId) : Lower Unit := do
  let kind ← Edit.getKind op
  count fun s => { s with constructs := s.constructs + 1 }
  match kind with
  | .construct c => lowerConstruct types o op c
  | _ => return ()

/-- Lowers at most the given number of constructs, from the given block of the body on. -/
def flattenFrom (types : TypeTable) (o : LowerOptions) : Nat → Nat → Lower Unit
  | 0, start => do
    match ← nextConstruct start with
    | none => return ()
    | some _ => throw .endless
  | rounds + 1, start => do
    match ← nextConstruct start with
    | none => return ()
    | some (index, op) =>
      lowerOp types o op
      flattenFrom types o rounds index

/-- Lowers every construct of the function. -/
def flatten (types : TypeTable) (o : LowerOptions) : Lower Unit := do
  flattenFrom types o (← getFunc).weight 0
  finishDispatches

/-- Tidies and checks a flat function as the options say. -/
def finish (o : LowerOptions) (stats : LowerStats) : Edit LowerStats := do
  let stats ←
    if o.cleanup then do
      let prunedBlocks ← Tidy.prune
      let relocatedConstants ← if o.relocate then Tidy.gatherConstants else pure 0
      pure { stats with prunedBlocks, relocatedConstants }
    else pure stats
  if o.verify then
    (← get).checkLowered
  return stats

/-- Lowers a function. A lowering that stops leaves the function as far as it got. -/
def lowerFunc (types : TypeTable) (o : LowerOptions) : Edit LowerStats := fun f =>
  match flatten types o { func := f, stats := { function := f.name } } with
  | .ok _ s => finish o s.stats s.func
  | .error e s => .error e s.func

end Lower

end Unnest
