import Unnest.Lower.Basic
/-!
# Calls and throws

Inside a try a call has a pad to unwind to. It then ends its block, and what follows is where it
goes on when it returns. Any other call stays where it is.
-/

namespace Unnest.Lower

/-- Lowers a call, given what it becomes outside of every try. -/
def lowerCall (op : OpId) (callee : Callee) (plain : Instr) : Lower Unit := do
  match (← getBindings).unwind? op with
  | none => Edit.replaceKind op (.instr plain)
  | some unwind =>
    let normal ← Edit.splitAfter op
    Edit.replaceKind op (.transfer (.invoke callee normal unwind))
    count fun s => { s with invokes := s.invokes + 1 }

/-- Lowers a throw to the transfer its unwind target asks for. -/
def lowerThrow (op : OpId) : Lower Unit := do
  match (← getBindings).unwind? op with
  | some unwind => Edit.replaceKind op (.transfer (.throwTo unwind))
  | none => Edit.replaceKind op (.transfer .throwOut)
  cutRest op

end Unnest.Lower
