import Unnest.Func.Erase
import Unnest.Func.Nest
import Unnest.Lower.Bindings
import Unnest.Lower.Options
import Unnest.TypeTable
/-!
# The state of a lowering

A lowering edits its function while it keeps its bindings and counts what it does. This module has
the steps that are shared between the constructs.
-/

namespace Unnest

/-- What one lowering did. -/
structure LowerStats where
  function : String
  constructs : Nat := 0
  invokes : Nat := 0
  landingPads : Nat := 0
  cleanupClones : Nat := 0
  stateLabels : Nat := 0
  prunedBlocks : Nat := 0
  relocatedConstants : Nat := 0
  deriving DecidableEq, Inhabited

/-- What the lowering carries: the function, what it has bound, and its counts. -/
structure LowerState where
  func : Func
  bindings : Bindings := {}
  stats : LowerStats
  deriving Inhabited

/-- A part of the lowering, which can stop. -/
abbrev Lower := EStateM Stop LowerState

/-- An edit of the function being lowered. -/
instance : MonadLift Edit Lower where
  monadLift x := fun s =>
    match x s.func with
    | .ok a func => .ok a { s with func }
    | .error e func => .error e { s with func }

namespace Lower

/-- The function as it stands. -/
def getFunc : Lower Func := return (← get).func

/-- The bindings as they stand. -/
def getBindings : Lower Bindings := return (← get).bindings

/-- Enters something in the bindings. -/
def settle (g : Bindings → Bindings) : Lower Unit :=
  modify fun s => { s with bindings := g s.bindings }

/-- Changes the counts. -/
def count (g : LowerStats → LowerStats) : Lower Unit :=
  modify fun s => { s with stats := g s.stats }

/-- The block an op is in. -/
def blockOf (op : OpId) : Lower BlockId := do
  match (← Edit.getOp op).parent with
  | some block => return block
  | none => throw (.internalAt op .opDetached)

/-- Moves what follows an op in its block to a new block, if anything does. -/
def cutRest (op : OpId) : Lower Unit := do
  let block ← blockOf op
  if (← Edit.getBlock block).ops.getLast? ≠ some op then
    let _ ← Edit.splitAfter op

/-- Turns an op into a branch. -/
def makeBranch (op : OpId) (target : BlockId) (args : List ValueId) : Edit Unit := do
  Edit.replaceKind op (.transfer (.br target))
  Edit.setOperands op args

/-- A value as a truth value, with a cast before `anchor` where it is none yet. -/
def truthValue (anchor : OpId) (value : ValueId) : Edit ValueId := do
  if (← Edit.valueTy value) = .bool then
    return value
  else
    let cast ← Edit.emitBefore anchor (.instr .cast) [value] [.bool]
    Edit.result cast

/-- A constant before `anchor`. -/
def numberBefore (anchor : OpId) (value : Int64) : Edit ValueId := do
  let op ← Edit.emitBefore anchor (.instr (.constant (.int value))) [] [.i32]
  Edit.result op

/-- Moves the blocks of a region right before `anchor`. -/
def inlineRegion (region : RegionId) (anchor : BlockId) : Edit (List BlockId) := do
  let blocks ← Edit.takeRegion region
  Edit.spliceBefore anchor blocks
  return blocks

/-- The terminators of the given blocks that are of the given kind. -/
def terminatorsWhere (blocks : List BlockId) (p : OpKind → Bool) : Edit (List OpId) := do
  let ends ← blocks.mapM Edit.terminator
  let f ← get
  return (ends.filterMap id).filter (f.kindIs p)

/-- Erases a construct and ends its block with a branch. -/
def replaceWithBranch (op : OpId) (target : BlockId) (args : List ValueId) : Lower Unit := do
  let before ← blockOf op
  Edit.eraseOp op
  let _ ← Edit.emitAtEnd before (.transfer (.br target)) args []

end Lower

end Unnest
