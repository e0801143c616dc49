import Unnest.Error
import Unnest.Run.Value
/-!
# Failures of runs

Why a run stopped without an outcome. All but two of the reasons are reported as diagnostics of the
stage `interpret`: running out of steps is a plain error, and a node that does not exist has no
report at all.
-/

namespace Unnest

/-- What stops a run. -/
inductive RunError where
  | unknownFunction (name : String)
  | noBody (function : String)
  | arity (block : BlockId) (expected given : Nat)
  | undefinedValue (value : ValueId) (function : String)
  | missingOperand (index : Nat) (op : OpId)
  | noResult (op : OpId)
  | castWithoutResult (op : OpId)
  | throwWithoutValue (op : OpId)
  | notReference (found : Value) (op : OpId)
  | notFunction (found : Value) (op : OpId)
  | notException (found : Value) (op : OpId)
  | undefinedOperation (lhs : Value) (operator : BinOp) (rhs : Value) (op : OpId)
  | notInteger (found : Value) (op : OpId)
  | nothingInFlight (op : OpId)
  | reachedUnreachable (op : OpId)
  | structuredOp (kind : OpKind) (function : String) (op : OpId)
  | fellOff (block : BlockId)
  | dangling (cell : Nat)
  | noField (index : Nat) (inside : Value)
  | noFieldToWrite (index : Nat)
  | notTuple (index : Nat)
  | stepLimit (limit : Nat) (function : String)
  | outOfRange
  deriving Inhabited

namespace RunError

/-- A message about an op. -/
def about (op : OpId) (text : String) : String := text ++ " [" ++ op.text ++ "]"

/-- The text of a run's error. -/
def message : RunError → String
  | unknownFunction name => "no function named " ++ name
  | noBody function => function ++ " has no body"
  | arity block expected given =>
    block.text ++ " expects " ++ toString expected ++ " arguments, got " ++ toString given
  | undefinedValue value function =>
    "use of " ++ value.text ++ " before definition in " ++ function
  | missingOperand index op => about op ("missing operand " ++ toString index)
  | noResult op => about op "op has no result to define"
  | castWithoutResult op => about op "cast without a result"
  | throwWithoutValue op => about op "throw without a value"
  | notReference found op => about op ("expected a reference, found " ++ found.text)
  | notFunction found op => about op ("expected a function, found " ++ found.text)
  | notException found op => about op ("expected an exception, found " ++ found.text)
  | undefinedOperation lhs operator rhs op =>
    about op ("cannot evaluate " ++ lhs.text ++ " " ++ operator.text ++ " " ++ rhs.text)
  | notInteger found op => about op ("switch on non-integer " ++ found.text)
  | nothingInFlight op => about op "landing pad reached without an exception in flight"
  | reachedUnreachable op => about op "reached unreachable code"
  | structuredOp kind function op =>
    about op ("structured op " ++ kind.text ++ " left in " ++ function)
  | fellOff block => block.text ++ " fell off its end"
  | dangling cell => "dangling pointer to cell " ++ toString cell
  | noField index inside => "no field " ++ toString index ++ " in " ++ inside.text
  | noFieldToWrite index => "no field " ++ toString index ++ " in a tuple"
  | notTuple index => "no field " ++ toString index ++ " in a non-tuple cell"
  | stepLimit limit function =>
    "step limit of " ++ toString limit ++ " exceeded in " ++ function
  | outOfRange => ""

/-- How a failed run stops what it was run for. -/
def stop (e : RunError) : Stop :=
  match e with
  | outOfRange => .outOfRange
  | stepLimit _ _ => .failed (.generic e.message)
  | e => .failed (.diagnostic { stage := "interpret", message := e.message })

/-- The record of a failed run. -/
def recorded (e : RunError) : List Diagnostic :=
  match e.stop with
  | .failed (.diagnostic d) => [d]
  | _ => []

end RunError

end Unnest
