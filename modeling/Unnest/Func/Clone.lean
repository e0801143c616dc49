import Unnest.Func.Edit
import Unnest.Table
/-!
# Cloning regions

A region is cloned in two passes. The first creates a copy of every op and block nested in it and
notes which copy belongs to which node; the second renames the operands and successors of the
copies, so that what pointed inside the region points inside the copy. The copied blocks have no
owner.
-/

namespace Unnest

/-- Which copy belongs to which node. -/
structure CloneMap where
  ops : Table OpId OpId := {}
  blocks : Table BlockId BlockId := {}
  values : Table ValueId ValueId := {}
  deriving Inhabited

namespace CloneMap

/-- The copy of a value, or the value itself when it was not copied. -/
def value (m : CloneMap) (v : ValueId) : ValueId := (m.values.get? v).getD v

/-- The copy of a block, or the block itself when it was not copied. -/
def block (m : CloneMap) (b : BlockId) : BlockId := (m.blocks.get? b).getD b

/-- Notes the copy of an op. -/
def addOp (m : CloneMap) (old new : OpId) : CloneMap := { m with ops := m.ops.insert old new }

/-- Notes the copy of a block. -/
def addBlock (m : CloneMap) (old new : BlockId) : CloneMap :=
  { m with blocks := m.blocks.insert old new }

/-- Notes the copies of values, pair by pair. -/
def addValues (m : CloneMap) (old new : List ValueId) : CloneMap :=
  { m with values := m.values.insertAll (old.zip new) }

end CloneMap

namespace Edit

/-- Copies an op to the end of a block, given how to copy what a region holds to another. -/
def copyOp (copyRegion : CloneMap → RegionId × RegionId → Edit CloneMap) (into : BlockId)
    (m : CloneMap) (op : OpId) : Edit CloneMap := do
  let d ← getOp op
  let tys ← d.results.mapM valueTy
  let copy ← createOp d.kind d.operands tys d.regions.length
  setSpan copy d.span
  let c ← getOp copy
  let m := (m.addOp op copy).addValues d.results c.results
  let m ← (d.regions.zip c.regions).foldlM copyRegion m
  appendOp into copy
  return m

/-- Copies a block, which gets no owner. -/
def copyBlock (copyRegion : CloneMap → RegionId × RegionId → Edit CloneMap) (m : CloneMap)
    (block : BlockId) : Edit (BlockId × CloneMap) := do
  let args := (← getBlock block).args
  let tys ← args.mapM valueTy
  let copy ← newBlock tys
  let m := (m.addBlock block copy).addValues args (← getBlock copy).args
  let m ← (← getBlock block).ops.foldlM (copyOp copyRegion copy) m
  return (copy, m)

/-- Copies what a region holds to the end of another, down to the given number of levels. -/
def copyRegionTo : Nat → CloneMap → RegionId × RegionId → Edit CloneMap
  | 0, _, _ => throw .endless
  | levels + 1, m, (region, into) => do
    (← getRegion region).blocks.foldlM (fun m block => do
      let (copy, m) ← copyBlock (copyRegionTo levels) m block
      appendBlock into copy
      return m) m

/-- Copies blocks, which get no owner. -/
def copyBlocks (levels : Nat) (m : CloneMap) : List BlockId → Edit (List BlockId × CloneMap)
  | [] => return ([], m)
  | block :: rest => do
    let (copy, m) ← copyBlock (copyRegionTo levels) m block
    let (copies, m) ← copyBlocks levels m rest
    return (copy :: copies, m)

/-- Renames the operands and successors of a copied op. -/
def renameCopy (m : CloneMap) (copy : OpId) : Edit Unit :=
  modifyOp copy fun d =>
    { d with operands := d.operands.map m.value, kind := d.kind.mapSuccessors m.block }

/-- Copies a region and everything nested in it; gives the copied blocks in layout order. -/
def cloneRegion (region : RegionId) : Edit (List BlockId × CloneMap) := do
  let levels := (← get).regions.size
  let (copies, m) ← copyBlocks levels {} (← getRegion region).blocks
  m.ops.entries.forM fun p => renameCopy m p.2
  return (copies, m)

end Edit

end Unnest
