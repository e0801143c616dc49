import Unnest.Lower.Basic
/-!
# Entering and leaving a function

A function has one block that returns; the returns store their value in the return slot and go
there. A return or jump first ends the catches it leaves, and goes through a finally when its
destination says so.
-/

namespace Unnest.Lower

/-- The start of the function becomes its return slot, if it returns a value, and makes the block
that returns. -/
def lowerEntry (op : OpId) : Lower Unit := do
  let slot ← Edit.result? op
  match slot with
  | some _ => Edit.replaceKind op (.instr (.alloc false))
  | none => Edit.eraseOp op
  let block ← Edit.newBlock []
  let f ← getFunc
  Edit.appendBlock f.body block
  match slot with
  | some slot =>
    let load ← Edit.emitAtEnd block (.instr .load) [slot] [f.sig.ret]
    let _ ← Edit.emitAtEnd block (.transfer .ret) [← Edit.result load] []
  | none =>
    let _ ← Edit.emitAtEnd block (.transfer .ret) [] []
  settle (·.setReturnBlock block)

/-- Lowers the end of the function's body. -/
def lowerExit (op : OpId) : Lower Unit := do
  makeBranch op (← (← getBindings).returnBlock op) []

/-- Ends as many catches as an op leaves. -/
def endCatches (op : OpId) : Nat → Edit Unit
  | 0 => return ()
  | count + 1 => do
    let _ ← Edit.emitBefore op (.instr .endCatch) [] []
    endCatches op count

/-- Replaces an op by the transfer to a destination, and cuts off what follows it. -/
def leave (op : OpId) (dest : Destination) : Lower Unit := do
  let b ← getBindings
  endCatches op (b.catchDepth op)
  let target ←
    match dest with
    | .block block => pure block
    | .ret => b.returnBlock op
    | .final tryOp code => do
      let route ← b.route tryOp
      let value ← numberBefore op code
      let _ ← Edit.emitBefore op (.instr .store) [value, route.slot] []
      pure route.entry
  makeBranch op target []
  cutRest op

/-- A block that goes to a destination by itself. -/
def blockTo (user : OpId) (before : BlockId) (dest : Destination) : Lower BlockId := do
  let b ← getBindings
  match dest with
  | .block block => return block
  | .ret => b.returnBlock user
  | .final tryOp code =>
    let route ← b.route tryOp
    let block ← Edit.newBlock []
    let value ← Edit.emitAtEnd block (.instr (.constant (.int code))) [] [.i32]
    let _ ← Edit.emitAtEnd block (.instr .store) [← Edit.result value, route.slot] []
    let _ ← Edit.emitAtEnd block (.transfer (.br route.entry)) [] []
    Edit.spliceBefore before [block]
    return block

/-- Lowers a return without a value. -/
def lowerReturn (op : OpId) : Lower Unit := do
  leave op (((← getBindings).jump? op).getD .ret)

/-- Stores the value of a return in its slot. -/
def storeReturnValue (op : OpId) : Edit Unit := do
  match (← Edit.getOp op).operands with
  | [value, slot] =>
    let _ ← Edit.emitBefore op (.instr .store) [value, slot] []
  | operands => throw (.contractAt op (.returnOperands operands.length))

/-- Lowers a return with a value, which goes through the return slot. -/
def lowerReturnVal (op : OpId) : Lower Unit := do
  storeReturnValue op
  lowerReturn op

/-- Stores the value and suspends through the block that returns; a finally around it is not
run. -/
def lowerYieldVal (op : OpId) : Lower Unit := do
  storeReturnValue op
  makeBranch op (← (← getBindings).returnBlock op) []
  cutRest op

/-- Lowers a break or a continue to the place bound for it. -/
def lowerJump (op : OpId) : Lower Unit := do
  leave op (← (← getBindings).jump op)

end Unnest.Lower
