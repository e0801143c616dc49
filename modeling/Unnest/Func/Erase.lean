import Unnest.Func.Edit
/-!
# Erasing nodes

An erased node stays in its table, marked dead, and so does everything nested in it. Whatever is
erased is emptied before what was in it is looked at, so a region that has been met once has
nothing left to erase. That is why an erasure ends even where a region lies within itself, and why
it goes no deeper than there are regions.
-/

namespace Unnest.Edit

/-- Marks an op dead, and clears its regions as told. -/
def killOp (clear : RegionId → Edit Unit) (op : OpId) : Edit Unit := do
  modifyOp op fun d => { d with live := false }
  (← getOp op).regions.forM clear

/-- Marks a block dead, takes its ops out and marks them dead too. -/
def killBlock (clear : RegionId → Edit Unit) (block : BlockId) : Edit Unit := do
  setBlockLive block false
  let ops := (← getBlock block).ops
  modifyBlock block fun d => { d with ops := [] }
  ops.forM fun op => do
    setOpParent op none
    killOp clear op

/-- Empties a region and marks dead what was in it, down to the given number of levels. -/
def clearTo : Nat → RegionId → Edit Unit
  | 0, _ => throw .endless
  | levels + 1, region => do
    (← takeRegion region).forM (killBlock (clearTo levels))

/-- Empties a region and marks dead what was in it. Every level above the last holds a region of
its own. -/
def clearRegion (region : RegionId) : Edit Unit := do
  clearTo ((← get).regions.size + 1) region

/-- Takes an op out of its block and marks it dead, with everything nested in it. -/
def eraseOp (op : OpId) : Edit Unit := do
  if (← getOp op).parent.isSome then
    detachOp op
  killOp clearRegion op

/-- Marks blocks without an owner dead, with everything nested in them. -/
def discardBlocks (blocks : List BlockId) : Edit Unit :=
  blocks.forM (killBlock clearRegion)

/-- Takes a block out of its region and marks it dead, with everything nested in it. -/
def eraseBlock (block : BlockId) : Edit Unit := do
  if (← getBlock block).parent.isSome then
    let (region, place) ← placeOfBlock block
    modifyRegion region fun d => { d with blocks := d.blocks.eraseIdx place }
    setBlockParent block none
  killBlock clearRegion block

end Unnest.Edit
