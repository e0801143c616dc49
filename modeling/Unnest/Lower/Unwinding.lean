import Unnest.Lower.Leaving
/-!
# Try, catch and finally

A try is laid out between the two halves of its block: its body, the landing pad, the catches,
the finally, the cleanup pad, and a clone of the finally. The body and the catches leave through
the finally. An exception raised in the body goes to the landing pad; one raised in the catches, or
not of the type that is caught, goes to the cleanup pad, which runs the clone of the finally and
passes the exception on.

Jumps and returns out of a try with a finally go through the finally too. Each destination has a
code; the op stores the code in the completion slot of the try, and the end of the finally switches
on it.
-/

namespace Unnest.Lower

/-- How the clone of a finally ends. -/
inductive CleanupExit where
  /-- Hands the exception to the given pad, or lets it leave the function. -/
  | chain (outer : Option BlockId)
  /-- Throws the caught exception again to the given pad. -/
  | rethrow (outer : BlockId)

/-- How the clone of a finally ends under a strategy, given the pad of the enclosing try. -/
def CleanupExit.of : UnwindStrategy → Option BlockId → CleanupExit
  | .rethrow, some outer => rethrow outer
  | _, outer => chain outer

/-- The transfer a cleanup ends in. -/
def CleanupExit.transfer : CleanupExit → Transfer
  | chain outer => .endCleanup outer
  | rethrow outer => .throwTo outer

/-- Whether the clone is entered as a cleanup; otherwise it is entered as a catch of everything. -/
def CleanupExit.isCleanup : CleanupExit → Bool
  | chain _ => true
  | rethrow _ => false

/-- Notes for the outermost tries in a region that they lie there. -/
def encloseTries (tryOp : OpId) (region : RegionId) (placement : Placement) : Lower Unit := do
  let inner ← (← getFunc).outermost region (· == .construct .tryCatch)
  settle fun b => inner.foldl (fun b child => b.setParent child tryOp placement) b

/-- Whether a region holds anything but the ends of its blocks. -/
def hasOps (region : RegionId) : Edit Bool := do
  let f ← get
  (← f.shallowOps region).anyM fun op => return !(← f.kind op).isTerminator

/-- The type a catch clause declares. -/
def caughtType : OpKind → Option Ty
  | .construct (.catchMark type) => type
  | _ => none

/-- The op is a catch clause. -/
def isCatchMark : OpKind → Bool
  | .construct (.catchMark _) => true
  | _ => false

/-- The type that the first of the catch clauses declares, with its token. -/
def catchType (types : TypeTable) (tryOp : OpId) (marks : List OpId) :
    Edit (Option (Ty × TypeToken)) := do
  match marks with
  | [] => return none
  | mark :: _ =>
    match caughtType (← Edit.getKind mark) with
    | none => return none
    | some type =>
      match types.token? type with
      | some token => return some (type, token)
      | none => throw (.contractAt tryOp (.unregisteredType type))

/-- Returns, and the jumps that are already bound to a construct outside. -/
def isEscape (f : Func) (b : Bindings) (op : OpId) : Bool :=
  f.kindIs (fun k =>
    match k with
    | .construct .ret | .construct .retVal => true
    | .construct (.brk _) | .construct (.cont _) => (b.jump? op).isSome
    | _ => false) op

/-- Takes the blocks of a region, and discards them unless they are to be kept. -/
def takeOrDiscard (region : RegionId) (keep : Bool) : Edit (List BlockId) := do
  let blocks ← Edit.takeRegion region
  if keep then
    return blocks
  else
    Edit.discardBlocks blocks
    return []

/-- The pad in front of the clone of a finally; ends the clone as asked. -/
def buildCleanupPad (clone : List BlockId) (entry : BlockId) (exit : CleanupExit) :
    Edit BlockId := do
  let pad ← Edit.newBlock []
  let landing ← Edit.emitAtEnd pad (.instr (.landingPad exit.isCleanup none)) [] [.any]
  let exception ← Edit.result landing
  if exit.isCleanup then
    let _ ← Edit.emitAtEnd pad (.instr .beginCleanup) [] []
  else
    let _ ← Edit.emitAtEnd pad (.instr .beginCatch) [exception] [.any]
  let _ ← Edit.emitAtEnd pad (.transfer (.br entry)) [] []
  (← terminatorsWhere clone OpKind.isYield).forM fun term => do
    Edit.replaceKind term (.transfer exit.transfer)
    Edit.setOperands term [exception]
  return pad

/-- Where an exception of another type goes: to the cleanup pad, else to the enclosing try, else
out of the function. -/
def mismatchTransfer (cleanup outer : Option BlockId) (exception : ValueId) :
    Transfer × List ValueId :=
  match cleanup, outer with
  | some pad, _ => (.br pad, [])
  | none, some unwind => (.throwTo unwind, [exception])
  | none, none => (.throwOut, [exception])

/-- The pad in front of the catches, the blocks it consists of, and the payload it hands to the
catch clauses. -/
def buildLandingPad (entry : BlockId) (type : Option (Ty × TypeToken))
    (cleanup outer : Option BlockId) : Edit (BlockId × List BlockId × ValueId) := do
  let pad ← Edit.newBlock []
  let landing ← Edit.emitAtEnd pad (.instr (.landingPad false (type.map (·.2)))) [] [.any]
  let exception ← Edit.result landing
  match type with
  | none =>
    let begin ← Edit.emitAtEnd pad (.instr .beginCatch) [exception] [.any]
    let payload ← Edit.result begin
    let _ ← Edit.emitAtEnd pad (.transfer (.br entry)) [] []
    return (pad, [pad], payload)
  | some (ty, token) =>
    let test ← Edit.emitAtEnd pad (.instr (.matchType token)) [exception] [.bool]
    let matched ← Edit.result test
    let beginBlock ← Edit.newBlock []
    let begin ← Edit.emitAtEnd beginBlock (.instr .beginCatch) [exception] [ty]
    let payload ← Edit.result begin
    let _ ← Edit.emitAtEnd beginBlock (.transfer (.br entry)) [] []
    let mismatch ← Edit.newBlock []
    let (transfer, operands) := mismatchTransfer cleanup outer exception
    let _ ← Edit.emitAtEnd mismatch (.transfer transfer) operands []
    let _ ← Edit.emitAtEnd pad (.transfer (.condBr beginBlock mismatch 0)) [matched] []
    return (pad, [pad, beginBlock, mismatch], payload)

/-- Sends an escaping op through the finally of a try. Ops with the same destination share a
code. -/
def assignCode (tryOp : OpId) (state : Bindings × List (Int64 × Destination)) (op : OpId) :
    Bindings × List (Int64 × Destination) :=
  let (b, cases) := state
  let previous := (b.jump? op).getD .ret
  match cases.find? (·.2 == previous) with
  | some (code, _) => (b.setJump op (.final tryOp code), cases)
  | none =>
    let code := Int64.ofNat (cases.length + 1)
    (b.setJump op (.final tryOp code), cases ++ [(code, previous)])

/-- Sends the escaping ops through the finally of a try, and allocates its completion slot. -/
def routeThrough (tryOp : OpId) (finalEntry : BlockId) (escapes : List OpId) :
    Lower ValueId := do
  match ← Edit.entryBlock with
  | none => throw (.internalAt tryOp .noEntryBlock)
  | some entry =>
    let op ← Edit.createOp (.instr (.alloc false)) [] [.ref .i32] 0
    Edit.insertOpAtStart entry op
    let slot ← Edit.result op
    let (b, cases) := escapes.foldl (assignCode tryOp) (← getBindings, [])
    settle fun _ => b.setRoute tryOp { slot, entry := finalEntry, cases }
    return slot

/-- Notes in the completion slot, if there is one, that no jump is under way. -/
def completeNormally (slot : Option ValueId) (term : OpId) : Edit Unit := do
  match slot with
  | some slot =>
    let zero ← numberBefore term 0
    let _ ← Edit.emitBefore term (.instr .store) [zero, slot] []
  | none => return ()

/-- Ends the finally: it goes on behind the try, or where the completion slot says. -/
def finishFinal (tryOp : OpId) (slot : Option ValueId) (next : BlockId) (term : OpId) :
    Lower Unit := do
  match slot with
  | none => makeBranch term next []
  | some slot =>
    let load ← Edit.emitBefore term (.instr .load) [slot] [.i32]
    let code ← Edit.result load
    let route ← (← getBindings).route tryOp
    if route.cases.isEmpty then
      throw (.internalAt tryOp .noRoute)
    let cases ← route.cases.mapM fun c => return (c.1, ← blockTo tryOp next c.2)
    Edit.replaceKind term (.transfer (.switchInt next cases))
    Edit.setOperands term [code]

/-- Lets the calls among the given ops unwind to a pad. -/
def unwindTo (ops : List OpId) (pad : BlockId) : Lower Unit := do
  let f ← getFunc
  settle fun b => (ops.filter (f.kindIs OpKind.mayThrow)).foldl (fun b op => b.setUnwind op pad) b

/-- Clones the finally, with what was settled for the ops in it. -/
def cloneFinal (region : RegionId) : Lower (List BlockId) := do
  let (blocks, m) ← Edit.cloneRegion region
  settle (·.copyAll m.ops.entries)
  count fun s => { s with cleanupClones := s.cleanupClones + 1 }
  return blocks

/-- Clones the finally if it is kept. -/
def cloneKept (keep : Bool) (region : RegionId) : Lower (List BlockId) :=
  if keep then cloneFinal region else return []

/-- The pad in front of the clone of a finally, if there is a clone. -/
def padClone (clone : List BlockId) (exit : CleanupExit) : Edit (Option BlockId) :=
  match clone with
  | [] => return none
  | entry :: _ => some <$> buildCleanupPad clone entry exit

/-- Puts a pad in front of the catches, if there are any. Gives the pad that takes the exceptions
raised in the body. -/
def padCatches (next : BlockId) (catches : List BlockId) (type : Option (Ty × TypeToken))
    (marks : List OpId) (cleanup outer : Option BlockId) : Lower (Option BlockId) := do
  match catches with
  | [] => return cleanup
  | entry :: _ =>
    let (pad, padBlocks, payload) ← buildLandingPad entry type cleanup outer
    settle fun b => marks.foldl (fun b mark => b.setPayload mark payload) b
    Edit.spliceBefore next padBlocks
    return some pad

/-- Lays out the clone of a finally behind its pad. -/
def placeClone (next : BlockId) (clone : List BlockId) : Option BlockId → Edit Unit
  | some pad => Edit.spliceBefore next (pad :: clone)
  | none => return ()

/-- Sends what escapes through the finally, if there are both. Gives the completion slot. -/
def routeEscapes (tryOp : OpId) (final : List BlockId) (escapes : List OpId) :
    Lower (Option ValueId) :=
  match final, escapes with
  | entry :: _, _ :: _ => some <$> routeThrough tryOp entry escapes
  | _, _ => return none

/-- Ends the body, the catches and the finally, and enters the body where the try was. -/
def finishTry (op : OpId) (bodyEntry : BlockId) (body catches final : List BlockId)
    (next : BlockId) (slot : Option ValueId) : Lower Unit := do
  let exit := final.head?.getD next
  (← terminatorsWhere body OpKind.isYield).forM fun term => do
    completeNormally slot term
    makeBranch term exit []
  (← terminatorsWhere catches OpKind.isYield).forM fun term => do
    let _ ← Edit.emitBefore term (.instr .endCatch) [] []
    completeNormally slot term
    makeBranch term exit []
  (← terminatorsWhere final OpKind.isYield).forM (finishFinal op slot next)
  replaceWithBranch op bodyEntry []

/-- Lowers a try whose regions are in place. -/
def lowerTryRegions (types : TypeTable) (strategy : UnwindStrategy) (op : OpId)
    (bodyRegion catchesRegion finalRegion : RegionId) : Lower Unit := do
  encloseTries op bodyRegion .body
  encloseTries op catchesRegion .catches
  encloseTries op finalRegion .final
  let catchHasOps ← hasOps catchesRegion
  let finalHasOps ← hasOps finalRegion
  let outer := (← getBindings).outerPad op
  let f ← getFunc
  let marks ← f.outermost catchesRegion isCatchMark
  let type ← catchType types op marks
  let bodyOps ← f.opsInRegion bodyRegion
  let catchesOps ← f.opsInRegion catchesRegion
  let b ← getBindings
  let bodyEscapes := bodyOps.filter (isEscape f b)
  let catchEscapes := catchesOps.filter (isEscape f b)
  settle fun b => catchEscapes.foldl Bindings.enterCatch b
  let next ← Edit.splitAfter op
  let clone ← cloneKept finalHasOps finalRegion
  let bodyBlocks ← inlineRegion bodyRegion next
  match bodyBlocks with
  | [] => throw (.contractAt op .emptyTryBody)
  | bodyEntry :: _ =>
    let catchesBlocks ← takeOrDiscard catchesRegion catchHasOps
    let finalBlocks ← takeOrDiscard finalRegion finalHasOps
    let cleanup ← padClone clone (.of strategy outer)
    let landing ← padCatches next catchesBlocks type marks cleanup outer
    Edit.spliceBefore next catchesBlocks
    Edit.spliceBefore next finalBlocks
    placeClone next clone cleanup
    count fun s =>
      { s with landingPads := s.landingPads + catchHasOps.toNat + cleanup.isSome.toNat }
    landing.forM (unwindTo bodyOps)
    cleanup.forM (unwindTo catchesOps)
    settle (·.setPads op { landing, cleanup })
    let slot ← routeEscapes op finalBlocks (bodyEscapes ++ catchEscapes)
    finishTry op bodyEntry bodyBlocks catchesBlocks finalBlocks next slot

/-- Lowers a try. -/
def lowerTry (types : TypeTable) (strategy : UnwindStrategy) (op : OpId) : Lower Unit := do
  match (← Edit.getOp op).regions with
  | [bodyRegion, catchesRegion, finalRegion] =>
    lowerTryRegions types strategy op bodyRegion catchesRegion finalRegion
  | _ => throw (.contractAt op .tryRegions)

/-- A catch clause saves the payload it is bound to in its variable. -/
def lowerCatch (op : OpId) : Lower Unit := do
  let payload ← (← getBindings).payload op
  match (← Edit.getOp op).operands with
  | [] => throw (.contractAt op .catchWithoutVariable)
  | var :: _ =>
    Edit.replaceKind op (.instr .saveCatch)
    Edit.setOperands op [payload, var]

end Unnest.Lower
