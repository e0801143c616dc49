import Unnest.Func.Basic
import Unnest.Run.Error
import Unnest.Table
/-!
# Frames

The state of one call: the values defined so far, the exception being handled, and the ops of the
current block that are still to run.
-/

namespace Unnest

/-- How a call ended. -/
inductive Outcome where
  | returned (value : Option Value)
  | threw (thrown : Thrown)
  deriving Inhabited

/-- The state of one call. -/
structure Frame where
  func : Func
  values : Table ValueId Value := {}
  inFlight : Option Thrown := none
  block : BlockId
  rest : List OpId := []

/-- A node that must exist. -/
def RunError.ofNode {α : Type} : Option α → Except RunError α
  | some a => .ok a
  | none => .error .outOfRange

namespace Frame

/-- The value a name stands for. -/
def get (fr : Frame) (v : ValueId) : Except RunError Value :=
  match fr.values.get? v with
  | some value => .ok value
  | none => .error (.undefinedValue v fr.func.name)

/-- The type a value was given when it was built. -/
def typeOf (fr : Frame) (v : ValueId) : Except RunError Ty :=
  (·.ty) <$> RunError.ofNode (fr.func.value? v)

/-- An operand of an op. -/
def operand (fr : Frame) (op : OpId) (d : Op) (index : Nat) : Except RunError Value :=
  match d.operands[index]? with
  | some v => fr.get v
  | none => .error (.missingOperand index op)

/-- The operands of an op from the given one on. -/
def operands (fr : Frame) (d : Op) (start : Nat) : Except RunError (List Value) :=
  (d.operands.drop start).mapM fr.get

/-- The operand of an op at a position, which has to be a pointer. -/
def pointer (fr : Frame) (op : OpId) (d : Op) (index : Nat) : Except RunError Pointer := do
  match ← fr.operand op d index with
  | .ref p => return p
  | other => throw (.notReference other op)

/-- The name of the function that the first operand refers to. -/
def calleeName (fr : Frame) (op : OpId) (d : Op) : Except RunError String := do
  match ← fr.operand op d 0 with
  | .fn name => return name
  | other => throw (.notFunction other op)

/-- The exception that the first operand holds. -/
def exception (fr : Frame) (op : OpId) (d : Op) : Except RunError Thrown := do
  match ← fr.operand op d 0 with
  | .exception ty payload => return { ty, payload }
  | other => throw (.notException other op)

/-- What a throwing op raises: an exception that was caught is raised again as it is, any other
value at the type it was built with. -/
def raised (fr : Frame) (op : OpId) (d : Op) : Except RunError Thrown := do
  match d.operands with
  | [] => throw (.throwWithoutValue op)
  | v :: _ =>
    match ← fr.get v with
    | .exception ty payload => return { ty, payload }
    | payload => return { ty := ← fr.typeOf v, payload }

/-- Defines the result of an op. -/
def define (fr : Frame) (op : OpId) (d : Op) (value : Value) : Except RunError Frame :=
  match d.results with
  | [] => .error (.noResult op)
  | v :: _ => .ok { fr with values := fr.values.insert v value }

/-- Defines the results of a call; those it does not give are undefined. -/
def defineAll (fr : Frame) (d : Op) (values : List Value) : Frame :=
  let padded := values ++ List.replicate (d.results.length - values.length) .undefined
  { fr with values := fr.values.insertAll (d.results.zip padded) }

/-- Goes to the start of a block. -/
def enter (fr : Frame) (block : BlockId) (args : List Value) : Except RunError Frame := do
  let d ← RunError.ofNode (fr.func.block? block)
  if d.args.length ≠ args.length then
    throw (.arity block d.args.length args.length)
  return { fr with values := fr.values.insertAll (d.args.zip args), block, rest := d.ops }

/-- Goes to a pad with an exception. -/
def unwind (fr : Frame) (pad : BlockId) (thrown : Thrown) : Except RunError Frame :=
  { fr with inFlight := some thrown }.enter pad []

/-- The frame of a call at the entry of a function. -/
def start (f : Func) (args : List Value) : Except RunError Frame := do
  let body ← RunError.ofNode (f.region? f.body)
  match body.blocks with
  | [] => throw (.noBody f.name)
  | entry :: _ => Frame.enter { func := f, block := entry } entry args

end Frame

end Unnest
