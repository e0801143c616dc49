import Unnest.Lower.Scope
/-!
# Branches, loops, switches and labelled blocks

All of them are lowered in the same way. The block of the construct is split behind it; the
regions are laid out between the halves; the ends of the regions become branches; and the
construct itself becomes the branch into its first region. The block behind the construct takes
one argument for every result of the construct.
-/

namespace Unnest.Lower

/-- Splits the block behind a construct; the results of the construct become arguments of the new
block. -/
def continuation (op : OpId) : Edit BlockId := do
  let next ← Edit.splitAfter op
  (← Edit.getOp op).results.forM fun result => do
    let arg ← Edit.addBlockArg next (← Edit.valueTy result)
    Edit.replaceAllUses result arg
  return next

/-- The region of an op at a position. -/
def regionOf (op : OpId) (index : Nat) : Edit RegionId := do
  match (← Edit.getOp op).regions[index]? with
  | some region => return region
  | none => throw (.contractAt op (.missingRegion index))

/-- The first block of a region that must not be empty. -/
def entryOf (op : OpId) (blocks : List BlockId) (what : String) : Edit BlockId :=
  match blocks with
  | block :: _ => return block
  | [] => throw (.contractAt op (.emptyRegion what))

/-- Turns the end of a condition region into a conditional branch, which passes the values handed
on to either side. -/
def lowerCondition (thenTo elseTo : BlockId) (term : OpId) : Edit Unit := do
  match (← Edit.getOp term).operands with
  | [] => throw (.contractAt term .conditionWithoutFlag)
  | cond :: args =>
    let flag ← truthValue term cond
    Edit.replaceKind term (.transfer (.condBr thenTo elseTo args.length))
    Edit.setOperands term (flag :: args ++ args)

/-- Turns the yields of a region into branches that pass on what they yield. -/
def yieldsTo (blocks : List BlockId) (target : BlockId) : Edit Unit := do
  (← terminatorsWhere blocks OpKind.isYield).forM fun term => do
    makeBranch term target (← Edit.getOp term).operands

/-- Turns the ends of condition regions into conditional branches. -/
def conditionsTo (blocks : List BlockId) (thenTo elseTo : BlockId) : Edit Unit := do
  (← terminatorsWhere blocks (· == .construct .condition)).forM (lowerCondition thenTo elseTo)

/-- Lowers an if, with or without an else. -/
def lowerBranch (op : OpId) : Lower Unit := do
  let d ← Edit.getOp op
  match d.operands with
  | [] => throw (.contractAt op .branchWithoutCondition)
  | cond :: _ =>
    let thenRegion ← regionOf op 0
    let elseRegion ← regionOf op 1
    let flag ← truthValue op cond
    let next ← continuation op
    let thenBlocks ← inlineRegion thenRegion next
    let elseBlocks ← inlineRegion elseRegion next
    if !d.results.isEmpty && elseBlocks.isEmpty then
      throw (.contractAt op .resultsWithoutElse)
    yieldsTo thenBlocks next
    yieldsTo elseBlocks next
    let before ← blockOf op
    Edit.eraseOp op
    let thenTo := thenBlocks.head?.getD next
    let elseTo := elseBlocks.head?.getD next
    let _ ← Edit.emitAtEnd before (.transfer (.condBr thenTo elseTo 0)) [flag] []

/-- Lowers a loop that tests first. -/
def lowerWhile (op : OpId) (c : Construct) : Lower Unit := do
  let inits := (← Edit.getOp op).operands
  let condRegion ← regionOf op 0
  let bodyRegion ← regionOf op 1
  let next ← continuation op
  let condBlocks ← inlineRegion condRegion next
  let bodyBlocks ← inlineRegion bodyRegion next
  let condEntry ← entryOf op condBlocks "condition"
  let bodyEntry ← entryOf op bodyBlocks "loop body"
  bindJumps c (condBlocks ++ bodyBlocks) { breakTo := next, continueTo := some condEntry }
  conditionsTo condBlocks bodyEntry next
  yieldsTo bodyBlocks condEntry
  replaceWithBranch op condEntry inits

/-- Lowers a loop that tests last. -/
def lowerDoWhile (op : OpId) (c : Construct) : Lower Unit := do
  let inits := (← Edit.getOp op).operands
  let bodyRegion ← regionOf op 0
  let condRegion ← regionOf op 1
  let next ← continuation op
  let bodyBlocks ← inlineRegion bodyRegion next
  let condBlocks ← inlineRegion condRegion next
  let bodyEntry ← entryOf op bodyBlocks "loop body"
  let condEntry ← entryOf op condBlocks "condition"
  bindJumps c (bodyBlocks ++ condBlocks) { breakTo := next, continueTo := some condEntry }
  yieldsTo bodyBlocks condEntry
  conditionsTo condBlocks bodyEntry next
  replaceWithBranch op bodyEntry inits

/-- Turns the end of a condition region of a counted loop into a branch; without a condition it
always goes to the body. -/
def lowerLoopTest (bodyEntry next : BlockId) (term : OpId) : Edit Unit := do
  if (← Edit.getKind term) = .construct .noCondition then
    makeBranch term bodyEntry []
  else
    lowerCondition bodyEntry next term

/-- Lowers a loop with a step after each turn. -/
def lowerFor (op : OpId) (c : Construct) : Lower Unit := do
  let condRegion ← regionOf op 0
  let bodyRegion ← regionOf op 1
  let incrRegion ← regionOf op 2
  let next ← continuation op
  let condBlocks ← inlineRegion condRegion next
  let bodyBlocks ← inlineRegion bodyRegion next
  let incrBlocks ← inlineRegion incrRegion next
  let condEntry ← entryOf op condBlocks "condition"
  let bodyEntry ← entryOf op bodyBlocks "loop body"
  let incrEntry := incrBlocks.head?.getD condEntry
  bindJumps c (condBlocks ++ bodyBlocks ++ incrBlocks)
    { breakTo := next, continueTo := some incrEntry }
  let tests ← terminatorsWhere condBlocks fun k =>
    k == .construct .condition || k == .construct .noCondition
  tests.forM fun term => lowerLoopTest bodyEntry next term
  yieldsTo bodyBlocks incrEntry
  yieldsTo incrBlocks condEntry
  replaceWithBranch op condEntry []

/-- Switches and labelled blocks have one region. A `cont` that names a labelled block starts the
block again. -/
def lowerMerging (op : OpId) (c : Construct) : Lower Unit := do
  let bodyRegion ← regionOf op 0
  let next ← continuation op
  let blocks ← inlineRegion bodyRegion next
  let entry := blocks.head?.getD next
  let continueTo :=
    match c with
    | .labeled _ => some entry
    | _ => none
  bindJumps c blocks { breakTo := next, continueTo }
  (← terminatorsWhere blocks (· == .construct .merge)).forM fun term =>
    (makeBranch term next [] : Edit Unit)
  replaceWithBranch op entry []

end Unnest.Lower
