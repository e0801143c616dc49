import Unnest.Func.Basic
/-!
# Editing functions

An edit changes a function and may stop on the way; a stopped edit leaves the changes it had
already made. The primitives create nodes at the end of their table, place them, move them between
owners and mark them dead. A block or op is placed by writing both sides of the ownership: the
list of the owner and the parent of the node.
-/

namespace Unnest

/-- A change to a function, which can stop. -/
abbrev Edit := EStateM Stop Func

/-- A reading that may stop, as a computation that keeps the state. -/
instance {σ : Type} : MonadLift (Except Stop) (EStateM Stop σ) where
  monadLift x := fun s =>
    match x with
    | .ok a => .ok a s
    | .error e => .error e s

namespace Edit

/-! ## Reading -/

/-- Reads an op. -/
def getOp (id : OpId) : Edit Op := do (← get).op id

/-- Reads a block. -/
def getBlock (id : BlockId) : Edit Block := do (← get).block id

/-- Reads a region. -/
def getRegion (id : RegionId) : Edit Region := do (← get).region id

/-- Reads the kind of an op. -/
def getKind (id : OpId) : Edit OpKind := do (← get).kind id

/-- Reads the type of a value. -/
def valueTy (id : ValueId) : Edit Ty := do (← get).valueTy id

/-- The block a call starts in. -/
def entryBlock : Edit (Option BlockId) := do (← get).entryBlock

/-- The last op of a block. -/
def terminator (id : BlockId) : Edit (Option OpId) := do (← get).terminator id

/-- The first result of an op. -/
def result? (id : OpId) : Edit (Option ValueId) := do
  return (← getOp id).results.head?

/-- The result of an op that must have one. -/
def result (id : OpId) : Edit ValueId := do
  existing (← result? id)

/-! ## Changing a node in place -/

/-- Changes an op in place. -/
def modifyOp (id : OpId) (g : Op → Op) : Edit Unit := fun f =>
  if id.index < f.ops.size then .ok () { f with ops := f.ops.modify id.index g }
  else .error .outOfRange f

/-- Changes a block in place. -/
def modifyBlock (id : BlockId) (g : Block → Block) : Edit Unit := fun f =>
  if id.index < f.blocks.size then .ok () { f with blocks := f.blocks.modify id.index g }
  else .error .outOfRange f

/-- Changes a region in place. -/
def modifyRegion (id : RegionId) (g : Region → Region) : Edit Unit := fun f =>
  if id.index < f.regions.size then .ok () { f with regions := f.regions.modify id.index g }
  else .error .outOfRange f

/-- Sets where in the source an op comes from. -/
def setSpan (id : OpId) (span : Option Span) : Edit Unit :=
  modifyOp id fun d => { d with span }

/-- Changes what an op does; operands, results and place are kept. -/
def replaceKind (id : OpId) (kind : OpKind) : Edit Unit :=
  modifyOp id fun d => { d with kind }

/-- Sets what an op reads. -/
def setOperands (id : OpId) (operands : List ValueId) : Edit Unit :=
  modifyOp id fun d => { d with operands }

/-- Sets what an op makes. -/
def setResults (id : OpId) (results : List ValueId) : Edit Unit :=
  modifyOp id fun d => { d with results }

/-- Sets the regions of an op. -/
def setRegions (id : OpId) (regions : List RegionId) : Edit Unit :=
  modifyOp id fun d => { d with regions }

/-- Sets the block an op says it stands in. -/
def setOpParent (id : OpId) (parent : Option BlockId) : Edit Unit :=
  modifyOp id fun d => { d with parent }

/-- Sets the region a block says it stands in. -/
def setBlockParent (id : BlockId) (parent : Option RegionId) : Edit Unit :=
  modifyBlock id fun d => { d with parent }

/-- Marks a block as live or dead. -/
def setBlockLive (id : BlockId) (live : Bool) : Edit Unit :=
  modifyBlock id fun d => { d with live }

/-! ## Creating nodes -/

/-- A new region with no blocks. -/
def newRegion (parent : Option OpId) : Edit RegionId := do
  let f ← get
  set { f with regions := f.regions.push { parent } }
  return ⟨f.regions.size⟩

/-- A block without an owner, with one argument per type. -/
def newBlock (argTys : List Ty) : Edit BlockId := do
  let f ← get
  let id : BlockId := ⟨f.blocks.size⟩
  let args := (List.range argTys.length).map fun i => ValueId.mk (f.values.size + i)
  let values := argTys.zipIdx.map fun p => ValueInfo.mk p.1 (.blockArg id p.2)
  set { f with blocks := f.blocks.push { args }, values := f.values ++ values.toArray }
  return id

/-- A new argument at the end of a block's arguments. -/
def addBlockArg (block : BlockId) (ty : Ty) : Edit ValueId := do
  let index := (← getBlock block).args.length
  let f ← get
  let id : ValueId := ⟨f.values.size⟩
  set { f with values := f.values.push ⟨ty, .blockArg block index⟩ }
  modifyBlock block fun d => { d with args := d.args ++ [id] }
  return id

/-- An op without an owner, with one fresh result per type and the given number of empty
regions. -/
def createOp (kind : OpKind) (operands : List ValueId) (resultTys : List Ty) (regionCount : Nat) :
    Edit OpId := do
  let f ← get
  let id : OpId := ⟨f.ops.size⟩
  let results := (List.range resultTys.length).map fun i => ValueId.mk (f.values.size + i)
  let values := resultTys.zipIdx.map fun p => ValueInfo.mk p.1 (.opResult id p.2)
  let regions := (List.range regionCount).map fun i => RegionId.mk (f.regions.size + i)
  set { f with
    ops := f.ops.push { kind, operands, results, regions }
    values := f.values ++ values.toArray
    regions := f.regions ++ Array.replicate regionCount (Region.mk [] (some id)) }
  return id

/-! ## Placing blocks -/

/-- Puts a block at the end of a region. -/
def appendBlock (region : RegionId) (block : BlockId) : Edit Unit := do
  setBlockParent block (some region)
  modifyRegion region fun d => { d with blocks := d.blocks ++ [block] }

/-- The region that lists a block, and its place there. -/
def placeOfBlock (block : BlockId) : Edit (RegionId × Nat) := do
  match (← getBlock block).parent with
  | none => throw (.internal (.blockDetached block))
  | some region =>
    match (← getRegion region).blocks.findIdx? (· == block) with
    | none => throw (.internal (.blockMissing block region))
    | some place => return (region, place)

/-- Puts a block right after another, in the other's region. -/
def insertBlockAfter (anchor block : BlockId) : Edit Unit := do
  let (region, place) ← placeOfBlock anchor
  setBlockParent block (some region)
  modifyRegion region fun d => { d with blocks := d.blocks.insertIdx (place + 1) block }

/-- Gives the blocks to a region one after another, and stops at the first that has an owner. -/
def claimBlocks (region : RegionId) : List BlockId → Edit Unit
  | [] => return ()
  | block :: rest => do
    match (← getBlock block).parent with
    | some owner => throw (.internal (.blockStillOwned block owner))
    | none =>
      setBlockParent block (some region)
      claimBlocks region rest

/-- Moves blocks without an owner right before `anchor`. -/
def spliceBefore (anchor : BlockId) (blocks : List BlockId) : Edit Unit := do
  let (region, place) ← placeOfBlock anchor
  claimBlocks region blocks
  modifyRegion region fun d =>
    { d with blocks := d.blocks.take place ++ blocks ++ d.blocks.drop place }

/-- Takes all blocks out of a region. -/
def takeRegion (region : RegionId) : Edit (List BlockId) := do
  let blocks := (← getRegion region).blocks
  modifyRegion region fun d => { d with blocks := [] }
  blocks.forM fun block => setBlockParent block none
  return blocks

/-! ## Placing ops -/

/-- Puts an op at the end of a block. -/
def appendOp (block : BlockId) (op : OpId) : Edit Unit := do
  setOpParent op (some block)
  modifyBlock block fun d => { d with ops := d.ops ++ [op] }

/-- The block that lists an op, and its place there. -/
def placeOfOp (op : OpId) : Edit (BlockId × Nat) := do
  match (← getOp op).parent with
  | none => throw (.internalAt op .opNotAttached)
  | some block =>
    match (← getBlock block).ops.findIdx? (· == op) with
    | none => throw (.internalAt op (.opMissing block))
    | some place => return (block, place)

/-- Puts an op right before another, in the other's block. -/
def insertOpBefore (anchor op : OpId) : Edit Unit := do
  let (block, place) ← placeOfOp anchor
  setOpParent op (some block)
  modifyBlock block fun d => { d with ops := d.ops.insertIdx place op }

/-- Puts an op right after another, in the other's block. -/
def insertOpAfter (anchor op : OpId) : Edit Unit := do
  let (block, place) ← placeOfOp anchor
  setOpParent op (some block)
  modifyBlock block fun d => { d with ops := d.ops.insertIdx (place + 1) op }

/-- Puts an op at the start of a block. -/
def insertOpAtStart (block : BlockId) (op : OpId) : Edit Unit := do
  setOpParent op (some block)
  modifyBlock block fun d => { d with ops := op :: d.ops }

/-- A new op before `anchor`, with its span. -/
def emitBefore (anchor : OpId) (kind : OpKind) (operands : List ValueId) (resultTys : List Ty) :
    Edit OpId := do
  let op ← createOp kind operands resultTys 0
  setSpan op (← getOp anchor).span
  insertOpBefore anchor op
  return op

/-- A new op after `anchor`, with its span. -/
def emitAfter (anchor : OpId) (kind : OpKind) (operands : List ValueId) (resultTys : List Ty) :
    Edit OpId := do
  let op ← createOp kind operands resultTys 0
  setSpan op (← getOp anchor).span
  insertOpAfter anchor op
  return op

/-- A new op at the end of a block. -/
def emitAtEnd (block : BlockId) (kind : OpKind) (operands : List ValueId) (resultTys : List Ty) :
    Edit OpId := do
  let op ← createOp kind operands resultTys 0
  appendOp block op
  return op

/-- Takes an op out of its block and leave it in the table. -/
def detachOp (op : OpId) : Edit Unit := do
  let (block, place) ← placeOfOp op
  modifyBlock block fun d => { d with ops := d.ops.eraseIdx place }
  setOpParent op none

/-- Moves the ops after `op` to a new block, laid out right after the block of `op`. -/
def splitAfter (op : OpId) : Edit BlockId := do
  let (block, place) ← placeOfOp op
  let tail := (← getBlock block).ops.drop (place + 1)
  modifyBlock block fun d => { d with ops := d.ops.take (place + 1) }
  let fresh ← newBlock []
  tail.forM fun moved => setOpParent moved (some fresh)
  modifyBlock fresh fun d => { d with ops := tail }
  insertBlockAfter block fresh
  return fresh

/-- Puts `new` for `old` among the operands of every live op. -/
def replaceAllUses (old new : ValueId) : Edit Unit :=
  modify fun f =>
    { f with
      ops := f.ops.map fun d =>
        if d.live then { d with operands := d.operands.map fun v => if v = old then new else v }
        else d }

end Edit

end Unnest
