import Unnest.Func.Edit
import Unnest.Table
/-!
# Building functions

A builder adds ops at its cursor. Constructs take the computations that fill their regions; a
region whose last block is left open is ended as the construct asks: by `yield`, by `condition`
with the flag that the condition computed, or by `merge`.
-/

namespace Unnest

/-- The state of a builder, with the names given to values and blocks so far. -/
structure Builder where
  func : Func
  cursor : BlockId
  retSlot : Option ValueId := none
  span : Option Span := none
  values : Table String ValueId := {}
  blocks : Table String BlockId := {}
  deriving Inhabited

/-- A part of building, which can stop. -/
abbrev Build := EStateM Stop Builder

/-- An edit of the function under construction. -/
instance : MonadLift Edit Build where
  monadLift x := fun b =>
    match x b.func with
    | .ok a func => .ok a { b with func }
    | .error e func => .error e { b with func }

namespace Builder

/-- A builder at the entry block of a new function. -/
def new (name : String) (sig : Signature) : Builder :=
  { func := Func.new name sig, cursor := ⟨0⟩ }

end Builder

namespace Build

/-- An argument of the entry block. -/
def param (index : Nat) : Build ValueId := do
  existing (← (← get).func.params)[index]?

/-- Goes on at the end of a block. -/
def setCursor (cursor : BlockId) : Build Unit :=
  modify fun b => { b with cursor }

/-- The span of the ops built from now on. -/
def setSpan (span : Option Span) : Build Unit :=
  modify fun b => { b with span }

/-- A new empty block at the end of the body. -/
def newBodyBlock : Build BlockId := do
  let block ← Edit.newBlock []
  Edit.appendBlock (← get).func.body block
  return block

/-! ## Ops -/

/-- Adds an op with empty regions at the cursor. -/
def opWithRegions (kind : OpKind) (operands : List ValueId) (resultTys : List Ty) (count : Nat) :
    Build OpId := do
  let op ← Edit.createOp kind operands resultTys count
  Edit.setSpan op (← get).span
  Edit.appendOp (← get).cursor op
  return op

/-- A new op at the cursor. -/
def op (kind : OpKind) (operands : List ValueId) (resultTys : List Ty) : Build OpId :=
  opWithRegions kind operands resultTys 0

/-- Adds an op with the given results, and gives these. -/
def results (kind : OpKind) (operands : List ValueId) (resultTys : List Ty) :
    Build (List ValueId) := do
  let op ← op kind operands resultTys
  return (← Edit.getOp op).results

/-- Adds an op with one result. -/
def valueOp (kind : OpKind) (operands : List ValueId) (ty : Ty) : Build ValueId := do
  let op ← op kind operands [ty]
  Edit.result op

/-- Adds a construct without results or regions. -/
def mark (c : Construct) (operands : List ValueId) : Build Unit := do
  let _ ← op (.construct c) operands []

/-- The start of the function. Gives the slot through which it returns its value, if any. -/
def entry : Build (Option ValueId) := do
  let ret := (← get).func.sig.ret
  let op ← op (.construct .entry) [] (if ret.isVoid then [] else [.ref ret])
  let retSlot ← Edit.result? op
  modify fun b => { b with retSlot }
  return retSlot

/-- A constant at the cursor. -/
def constant (value : Literal) (ty : Ty) : Build ValueId :=
  valueOp (.instr (.constant value)) [] ty

/-- A stack variable, with an initial value if one is given. -/
def allocate (ty : Ty) (init : Option ValueId) : Build ValueId :=
  valueOp (.instr (.alloc false)) init.toList (.ref ty)

/-- Loads through a reference; through anything else the type of the result is unknown. -/
def load (ptr : ValueId) : Build ValueId := do
  let ty := (← Edit.valueTy ptr).pointee?.getD .any
  valueOp (.instr .load) [ptr] ty

/-- A store at the cursor. -/
def store (value ptr : ValueId) : Build Unit := do
  let _ ← op (.instr .store) [value, ptr] []

/-- A binary operation at the cursor, of the type its operator and operands give. -/
def binary (operator : BinOp) (lhs rhs : ValueId) : Build ValueId := do
  let ty := operator.resultTy (← Edit.valueTy lhs)
  valueOp (.instr (.binary operator)) [lhs, rhs] ty

/-- A value and the slot it is returned through. -/
def withSlot (value : ValueId) : Build (List ValueId) := do
  return value :: (← get).retSlot.toList

/-- A return with a value. -/
def retVal (value : ValueId) : Build Unit := do
  mark .retVal (← withSlot value)

/-- A yield with a value. -/
def yieldVal (value : ValueId) : Build Unit := do
  mark .yieldVal (← withSlot value)

/-- A closure environment with the given values; `fields` are the types it stores them at. -/
def capture (values : List ValueId) (fields : List Ty) : Build ValueId :=
  valueOp (.construct .capture) values (.ref (.tuple fields))

/-! ## Regions -/

/-- Fills a region: `body` runs with the cursor in a new first block of it and is given the
arguments of that block. Gives also the block where the cursor was left. -/
def inRegion {α : Type} (op : OpId) (index : Nat) (argTys : List Ty)
    (body : List ValueId → Build α) : Build (α × BlockId) := do
  let region ← existing (← Edit.getOp op).regions[index]?
  let block ← Edit.newBlock argTys
  Edit.appendBlock region block
  let args := (← Edit.getBlock block).args
  let saved := (← get).cursor
  setCursor block
  let a ← body args
  let last := (← get).cursor
  setCursor saved
  return (a, last)

/-- Ends a block that has no terminator yet. -/
def endBlock (block : BlockId) (c : Construct) (operands : List ValueId) : Build Unit := do
  if (← Edit.terminator block).isNone then
    let op ← Edit.emitAtEnd block (.construct c) operands []
    Edit.setSpan op (← get).span

/-- Fills a region that ends without values. -/
def plainRegion (op : OpId) (index : Nat) (ending : Construct) (body : Build Unit) :
    Build Unit := do
  let (_, last) ← inRegion op index [] fun _ => body
  endBlock last ending []

/-- Fills a region that yields the values `body` gives. -/
def yieldRegion (op : OpId) (index : Nat) (argTys : List Ty)
    (body : List ValueId → Build (List ValueId)) : Build Unit := do
  let (values, last) ← inRegion op index argTys body
  endBlock last .yield values

/-- Fills a condition region: `cond` gives the flag and the values handed on. -/
def conditionRegion (op : OpId) (index : Nat) (argTys : List Ty)
    (cond : List ValueId → Build (ValueId × List ValueId)) : Build Unit := do
  let ((flag, forwarded), last) ← inRegion op index argTys cond
  endBlock last .condition (flag :: forwarded)

/-! ## Constructs -/

/-- An if without an else. -/
def ifThen (cond : ValueId) (body : Build Unit) : Build Unit := do
  let op ← opWithRegions (.construct .branch) [cond] [] 2
  plainRegion op 0 .yield body

/-- An if with an else. -/
def ifElse (cond : ValueId) (body alternative : Build Unit) : Build Unit := do
  let op ← opWithRegions (.construct .branch) [cond] [] 2
  plainRegion op 0 .yield body
  plainRegion op 1 .yield alternative

/-- A branch with results: each side gives the values it yields. -/
def ifValues (cond : ValueId) (resultTys : List Ty) (body alternative : Build (List ValueId)) :
    Build (List ValueId) := do
  let op ← opWithRegions (.construct .branch) [cond] resultTys 2
  yieldRegion op 0 [] fun _ => body
  yieldRegion op 1 [] fun _ => alternative
  return (← Edit.getOp op).results

/-- A loop that tests first. -/
def whileLoop (label : Option String) (cond : Build ValueId) (body : Build Unit) :
    Build Unit := do
  let op ← opWithRegions (.construct (.whileLoop label)) [] [] 2
  conditionRegion op 0 [] fun _ => return (← cond, [])
  plainRegion op 1 .yield body

/-- A loop with carried values. `cond` is given the current values and gives the flag with the
values handed on to the body, or to the results at the end; `body` gives the next values. -/
def whileCarried (label : Option String) (inits : List ValueId)
    (cond : List ValueId → Build (ValueId × List ValueId))
    (body : List ValueId → Build (List ValueId)) : Build (List ValueId) := do
  let tys ← inits.mapM fun v => (Edit.valueTy v : Build Ty)
  let op ← opWithRegions (.construct (.whileLoop label)) inits tys 2
  conditionRegion op 0 tys cond
  yieldRegion op 1 tys body
  return (← Edit.getOp op).results

/-- A loop that tests last. -/
def doWhile (label : Option String) (body : Build Unit) (cond : Build ValueId) :
    Build Unit := do
  let op ← opWithRegions (.construct (.doWhile label)) [] [] 2
  plainRegion op 0 .yield body
  conditionRegion op 1 [] fun _ => return (← cond, [])

/-- A loop with an increment. A condition without a flag always holds. -/
def forLoop (label : Option String) (cond : Build (Option ValueId)) (body incr : Build Unit) :
    Build Unit := do
  let op ← opWithRegions (.construct (.forLoop label)) [] [] 3
  let (flag, last) ← inRegion op 0 [] fun _ => cond
  match flag with
  | some flag => endBlock last .condition [flag]
  | none => endBlock last .noCondition []
  plainRegion op 1 .yield body
  plainRegion op 2 .yield incr

/-- A switch whose cases are already spelled out in its body. -/
def switch (label : Option String) (body : Build Unit) : Build Unit := do
  let op ← opWithRegions (.construct (.switch label)) [] [] 1
  plainRegion op 0 .merge body

/-- A labelled body that breaks can leave. -/
def labeled (label : String) (body : Build Unit) : Build Unit := do
  let op ← opWithRegions (.construct (.labeled label)) [] [] 1
  plainRegion op 0 .merge body

/-- A try; a clause without ops is as good as none. -/
def tryCatch (body catches final : Build Unit) : Build Unit := do
  let op ← opWithRegions (.construct .tryCatch) [] [] 3
  plainRegion op 0 .yield body
  plainRegion op 1 .yield catches
  plainRegion op 2 .yield final

end Build

end Unnest
