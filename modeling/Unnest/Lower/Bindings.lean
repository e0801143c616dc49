import Unnest.Func.Clone
/-!
# Bindings

While a construct is lowered it settles matters for the ops nested in it, which are lowered later:
where a jump goes, where an exception unwinds to, how many catches a jump leaves, which try
encloses a try, what a catch clause is bound to, how a finally goes on. The tables of `Bindings`
keep what was settled. An entry is always made before the op it is about is lowered, so a missing
one is a broken invariant.
-/

namespace Unnest

/-- Where a jump or return ends up. -/
inductive Destination where
  | block (target : BlockId)
  /-- Through the finally of a try; the code tells it where to go on. -/
  | final (tryOp : OpId) (code : Int64)
  /-- The block that returns from the function. -/
  | ret
  deriving DecidableEq, Inhabited

/-- The region of the enclosing try in which a try lies. -/
inductive Placement where
  | body
  | catches
  | final
  deriving DecidableEq, Inhabited

/-- The pads of a try. -/
structure Pads where
  /-- Where exceptions raised in the body go. -/
  landing : Option BlockId := none
  /-- Where the clone of the finally is entered. -/
  cleanup : Option BlockId := none
  deriving DecidableEq, Inhabited

/-- The pad of an enclosing try that serves what lies in the given region of it. An exception out
of a finally is not the try's own any more. -/
def Pads.serving (p : Pads) : Placement → Option BlockId
  | .body => p.landing
  | .catches => p.cleanup
  | .final => none

/-- How the finally of a try goes on. -/
structure Route where
  /-- Holds the code of the jump that entered the finally, or zero when none did. -/
  slot : ValueId
  entry : BlockId
  cases : List (Int64 × Destination)
  deriving DecidableEq, Inhabited

/-- What the constructs lowered so far have settled for the ops nested in them. -/
structure Bindings where
  jumps : Table OpId Destination := {}
  unwinds : Table OpId BlockId := {}
  catchDepths : Table OpId Nat := {}
  parents : Table OpId (OpId × Placement) := {}
  padsOf : Table OpId Pads := {}
  payloads : Table OpId ValueId := {}
  routes : Table OpId Route := {}
  returnTo : Option BlockId := none
  stateLabels : List BlockId := []
  pending : List OpId := []
  deriving Inhabited

namespace Bindings

/-- Binds where a jump goes. -/
def setJump (b : Bindings) (op : OpId) (dest : Destination) : Bindings :=
  { b with jumps := b.jumps.insert op dest }

/-- Where a jump goes. -/
def jump? (b : Bindings) (op : OpId) : Option Destination := b.jumps.get? op

/-- The destination of a jump that must have one. -/
def jump (b : Bindings) (op : OpId) : Except Stop Destination :=
  match b.jump? op with
  | some dest => .ok dest
  | none => .error (.internalAt op .noJumpTarget)

/-- Binds where an op that throws unwinds to. -/
def setUnwind (b : Bindings) (op : OpId) (pad : BlockId) : Bindings :=
  { b with unwinds := b.unwinds.insert op pad }

/-- Where an op that throws unwinds to. -/
def unwind? (b : Bindings) (op : OpId) : Option BlockId := b.unwinds.get? op

/-- How many catches an op leaves. -/
def catchDepth (b : Bindings) (op : OpId) : Nat := (b.catchDepths.get? op).getD 0

/-- Notes that an op leaves one more catch. -/
def enterCatch (b : Bindings) (op : OpId) : Bindings :=
  { b with catchDepths := b.catchDepths.insert op (b.catchDepth op + 1) }

/-- Binds a try to the one around it. -/
def setParent (b : Bindings) (child parent : OpId) (placement : Placement) : Bindings :=
  { b with parents := b.parents.insert child (parent, placement) }

/-- The try around a try, and the part of it that the inner one stands in. -/
def parent? (b : Bindings) (child : OpId) : Option (OpId × Placement) := b.parents.get? child

/-- Binds the pads of a try. -/
def setPads (b : Bindings) (tryOp : OpId) (pads : Pads) : Bindings :=
  { b with padsOf := b.padsOf.insert tryOp pads }

/-- The pads of a try, none before it is lowered. -/
def pads (b : Bindings) (tryOp : OpId) : Pads := (b.padsOf.get? tryOp).getD {}

/-- The pad that takes an exception leaving a try, looking outward through at most the given number
of enclosing tries. -/
def outerPadWithin (b : Bindings) : Nat → OpId → Option BlockId
  | 0, _ => none
  | limit + 1, op =>
    match b.parent? op with
    | none => none
    | some (parent, placement) =>
      match (b.pads parent).serving placement with
      | some pad => some pad
      | none => b.outerPadWithin limit parent

/-- The pad that takes an exception leaving a try, or none when it leaves the function. -/
def outerPad (b : Bindings) (tryOp : OpId) : Option BlockId :=
  b.outerPadWithin b.parents.entries.length tryOp

/-- Binds the payload of a catch clause. -/
def setPayload (b : Bindings) (catchOp : OpId) (payload : ValueId) : Bindings :=
  { b with payloads := b.payloads.insert catchOp payload }

/-- The payload that a catch clause must be bound to. -/
def payload (b : Bindings) (catchOp : OpId) : Except Stop ValueId :=
  match b.payloads.get? catchOp with
  | some v => .ok v
  | none => .error (.internalAt catchOp .noCatchPayload)

/-- Binds how the finally of a try goes on. -/
def setRoute (b : Bindings) (tryOp : OpId) (route : Route) : Bindings :=
  { b with routes := b.routes.insert tryOp route }

/-- The route of a finally that jumps lead through. -/
def route (b : Bindings) (tryOp : OpId) : Except Stop Route :=
  match b.routes.get? tryOp with
  | some r => .ok r
  | none => .error (.internalAt tryOp .noCompletionSlot)

/-- Binds the block all returns go through. -/
def setReturnBlock (b : Bindings) (block : BlockId) : Bindings :=
  { b with returnTo := some block }

/-- The block that returns from the function, on behalf of an op that needs it. -/
def returnBlock (b : Bindings) (user : OpId) : Except Stop BlockId :=
  match b.returnTo with
  | some block => .ok block
  | none => .error (.contractAt user .noReturnBlock)

/-- Adds the entry of a state. -/
def addStateLabel (b : Bindings) (block : BlockId) : Bindings :=
  { b with stateLabels := b.stateLabels ++ [block] }

/-- Puts a dispatch off until all resume points are known. -/
def defer (b : Bindings) (op : OpId) : Bindings :=
  if op ∈ b.pending then b else { b with pending := b.pending ++ [op] }

/-- The bindings with no dispatch put off. -/
def clearPending (b : Bindings) : Bindings := { b with pending := [] }

/-- Copies the entry of a key to another key, if there is one. -/
def copyEntry {α : Type} (t : Table OpId α) (old new : OpId) : Table OpId α :=
  match t.get? old with
  | some a => t.insert new a
  | none => t

/-- Gives the copy of an op what was settled for the op. -/
def copyOp (b : Bindings) (old new : OpId) : Bindings :=
  { b with
    jumps := copyEntry b.jumps old new
    unwinds := copyEntry b.unwinds old new
    catchDepths := copyEntry b.catchDepths old new
    parents := copyEntry b.parents old new
    payloads := copyEntry b.payloads old new }

/-- Gives all copies what was settled for the ops they were made from. -/
def copyAll (b : Bindings) (copies : List (OpId × OpId)) : Bindings :=
  copies.foldl (fun b p => b.copyOp p.1 p.2) b

end Bindings

end Unnest
