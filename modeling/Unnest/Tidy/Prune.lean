import Unnest.Func.Erase
import Unnest.Func.Flow
/-!
# Pruning

A block of the body other than its entry is pruned when no block leads to it and it is empty or
consists of a branch or an `unreachable` alone. Pruning a block takes its edges away, which may
leave others without predecessors, so it is done in rounds until a round finds nothing.
-/

namespace Unnest

namespace Func

/-- Whether nothing would be lost with a block. -/
def isTrivial (f : Func) (block : BlockId) : Except Stop Bool := do
  match (← f.block block).ops with
  | [] => return true
  | [op] =>
    match ← f.kind op with
    | .transfer (.br _) | .transfer .unreachable => return true
    | _ => return false
  | _ => return false

/-- The blocks to prune in one round. -/
def deadBlocks (f : Func) : Except Stop (List BlockId) := do
  let preds ← f.predecessors
  let entry ← f.entryBlock
  let orphans := (← f.bodyBlocks).filter fun block =>
    some block ≠ entry && ((preds.get? block).getD []).isEmpty
  orphans.filterM f.isTrivial

end Func

namespace Tidy

/-- Prunes for at most the given number of rounds and counts the blocks pruned. -/
def pruneRounds : Nat → Edit Nat
  | 0 => do
    if (← (← get).deadBlocks).isEmpty then return 0 else throw .endless
  | rounds + 1 => do
    let dead ← (← get).deadBlocks
    if dead.isEmpty then
      return 0
    else
      dead.forM Edit.eraseBlock
      return dead.length + (← pruneRounds rounds)

/-- Prunes the body and counts the blocks pruned. Every round but the last takes a block away, so
there are no more rounds than blocks. -/
def prune : Edit Nat := do
  pruneRounds (← (← get).bodyBlocks).length

end Tidy

end Unnest
