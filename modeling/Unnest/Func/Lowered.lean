import Unnest.Func.Basic
/-!
# The check of lowered functions

A lowered function is a flat graph: its body is not empty, every block of it is live and ends in
its only terminator, no construct is left, no op owns blocks, every edge leads to a live block of
the body, and branches pass as many values as their targets take. `checkLowered` says what is wrong
first, block by block and op by op.
-/

namespace Unnest.Func

/-- Refuses an edge that leaves the live blocks of the body. -/
def checkEdge (f : Func) (op : OpId) (target : BlockId) : Except Stop Unit := do
  let d ← f.block target
  if !d.live || d.parent ≠ some f.body then
    throw (.internalAt op (.strayEdge target))

/-- Refuses a branch that passes another number of values than its targets take. -/
def checkArguments (f : Func) (op : OpId) (d : Op) : Except Stop Unit := do
  match d.kind with
  | .transfer (.condBr thenTo elseTo thenArgs) =>
    let thenArity := (← f.block thenTo).args.length
    let elseArity := (← f.block elseTo).args.length
    if thenArgs ≠ thenArity ∨ d.operands.length ≠ 1 + thenArity + elseArity then
      throw (.internalAt op (.branchArguments true))
  | .transfer (.br target) =>
    if (← f.block target).args.length ≠ d.operands.length then
      throw (.internalAt op (.branchArguments false))
  | _ => return ()

/-- An op may stand in a lowered function. -/
def checkOp (f : Func) (op : OpId) : Except Stop Unit := do
  let d ← f.op op
  if d.kind.isStructured then
    throw (.internalAt op (.structuredLeft d.kind))
  d.regions.forM fun region => do
    if !(← f.region region).blocks.isEmpty then
      throw (.internalAt op .nestedBlocks)
  d.kind.successors.forM (f.checkEdge op)
  f.checkArguments op d

/-- Refuses a terminator among the ops before the last. -/
def checkInner (f : Func) (block : BlockId) (op : OpId) : Except Stop Unit := do
  if (← f.kind op).isTerminator then
    throw (.internalAt op (.earlyTerminator block))

/-- A block may stand in a lowered function: one terminator, at its end. -/
def checkBlock (f : Func) (block : BlockId) : Except Stop Unit := do
  let d ← f.block block
  if !d.live then
    throw (.internal (.deadBlock block))
  match d.ops.getLast? with
  | none => throw (.internal (.noTerminator block))
  | some last =>
    if !(← f.kind last).isTerminator then
      throw (.internalAt last (.openEnd block))
    d.ops.dropLast.forM (f.checkInner block)
    d.ops.forM f.checkOp

/-- Checks that a function is a flat graph. -/
def checkLowered (f : Func) : Except Stop Unit := do
  let body ← f.bodyBlocks
  if body.isEmpty then
    throw (.internal (.emptyBody f.name))
  body.forM f.checkBlock

end Unnest.Func
