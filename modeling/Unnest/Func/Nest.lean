import Unnest.Func.Edit
/-!
# Nests

The nest of a region is the tree of what it holds: blocks, their ops, the regions of those ops, and
so on. It is read off the tables of a function once; everything that walks a region is then a
recursion on the tree. A reading may leave out what is inside some ops; nothing below them is
touched then. A function has as many levels of nesting as it has regions at most, unless a region
lies within itself, so a reading that needs more levels is given up.
-/

namespace Unnest

namespace Nest

mutual

/-- Ops in order, each with the regions below it. -/
inductive Ops where
  | nil
  | cons (op : OpId) (regions : Regions) (rest : Ops)

/-- Blocks in layout order, each with its ops. -/
inductive Blocks where
  | nil
  | cons (block : BlockId) (ops : Ops) (rest : Blocks)

/-- Regions in order, each with its blocks. -/
inductive Regions where
  | nil
  | cons (region : RegionId) (blocks : Blocks) (rest : Regions)

end

instance : Inhabited Ops := ⟨.nil⟩

instance : Inhabited Blocks := ⟨.nil⟩

instance : Inhabited Regions := ⟨.nil⟩

mutual

/-- Every op of a nest, an op before what is nested in it. -/
def Ops.all : Ops → List OpId
  | .nil => []
  | .cons op regions rest => op :: (regions.all ++ rest.all)

/-- The ops under blocks, in order. -/
def Blocks.all : Blocks → List OpId
  | .nil => []
  | .cons _ ops rest => ops.all ++ rest.all

/-- The ops under regions, in order. -/
def Regions.all : Regions → List OpId
  | .nil => []
  | .cons _ blocks rest => blocks.all ++ rest.all

end

end Nest

namespace Func

/-- A reading that leaves nothing out. -/
def everywhere (_ : OpId) : Except Stop Bool := .ok true

/-- The nest below an op, or nothing where the reading does not descend. -/
def nestBelow (f : Func) (descend : OpId → Except Stop Bool)
    (below : List RegionId → Except Stop Nest.Regions) (op : OpId) : Except Stop Nest.Regions := do
  if ← descend op then
    below (← f.op op).regions
  else
    return .nil

/-- The nest of a list of ops, given how to read the regions below them. -/
def nestOps (f : Func) (descend : OpId → Except Stop Bool)
    (below : List RegionId → Except Stop Nest.Regions) : List OpId → Except Stop Nest.Ops
  | [] => .ok .nil
  | op :: rest => do
    let regions ← f.nestBelow descend below op
    return .cons op regions (← f.nestOps descend below rest)

/-- The nest of a list of blocks, given how to read the regions below their ops. -/
def nestBlocks (f : Func) (descend : OpId → Except Stop Bool)
    (below : List RegionId → Except Stop Nest.Regions) : List BlockId → Except Stop Nest.Blocks
  | [] => .ok .nil
  | block :: rest => do
    let ops ← f.nestOps descend below (← f.block block).ops
    return .cons block ops (← f.nestBlocks descend below rest)

/-- The nest of a list of regions, given how to read the regions below their ops. -/
def nestRegions (f : Func) (descend : OpId → Except Stop Bool)
    (below : List RegionId → Except Stop Nest.Regions) : List RegionId → Except Stop Nest.Regions
  | [] => .ok .nil
  | region :: rest => do
    let blocks ← f.nestBlocks descend below (← f.region region).blocks
    return .cons region blocks (← f.nestRegions descend below rest)

/-- The nest of a list of regions that has at most the given number of levels. -/
def nestTo (f : Func) (descend : OpId → Except Stop Bool) :
    Nat → List RegionId → Except Stop Nest.Regions
  | 0 => fun regions => if regions.isEmpty then .ok .nil else .error .endless
  | levels + 1 => f.nestRegions descend (f.nestTo descend levels)

/-- What the listed blocks hold, as far as the reading descends. -/
def readBlocks (f : Func) (descend : OpId → Except Stop Bool) (blocks : List BlockId) :
    Except Stop Nest.Blocks :=
  f.nestBlocks descend (f.nestTo descend f.regions.size) blocks

/-- What the listed blocks hold. -/
def blocksNest (f : Func) (blocks : List BlockId) : Except Stop Nest.Blocks :=
  f.readBlocks everywhere blocks

/-- What a region holds. -/
def regionNest (f : Func) (region : RegionId) : Except Stop Nest.Blocks := do
  f.blocksNest (← f.region region).blocks

/-- The ops nested in a region that are met on a walk that visits an op before what is nested in
it, and looks inside an op only where `descend` says so. -/
def walkRegion (f : Func) (region : RegionId) (descend : OpId → Except Stop Bool) :
    Except Stop (List OpId) := do
  return (← f.readBlocks descend (← f.region region).blocks).all

/-- Every op nested in a region, an op before those inside it. -/
def opsInRegion (f : Func) (region : RegionId) : Except Stop (List OpId) :=
  f.walkRegion region everywhere

/-- The ops of the blocks of a region itself. -/
def shallowOps (f : Func) (region : RegionId) : Except Stop (List OpId) := do
  let blocks ← (← f.region region).blocks.mapM f.block
  return blocks.flatMap (·.ops)

/-- The outermost ops of a given kind nested in a region. -/
def outermost (f : Func) (region : RegionId) (p : OpKind → Bool) : Except Stop (List OpId) := do
  let met ← f.walkRegion region fun op => return !p (← f.kind op)
  return met.filter (f.kindIs p)

end Func

end Unnest
