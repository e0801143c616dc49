import Unnest.Lower.Basic
/-!
# Resumable functions

The code after a resume point becomes the entry of its state. Once all of them are known, every
dispatch becomes a switch: state zero is the ordinary start, state `i` the `i`-th resume point, and
any other state returns.
-/

namespace Unnest.Lower

/-- Lowers a resume point: the code after it becomes the entry of its state. -/
def lowerStateLabel (op : OpId) : Lower Unit := do
  let resume ← Edit.splitAfter op
  makeBranch op resume []
  settle (·.addStateLabel resume)
  count fun s => { s with stateLabels := s.stateLabels + 1 }

/-- Replaces a dispatch that is still there. -/
def finishDispatch (op : OpId) : Lower Unit := do
  let d ← Edit.getOp op
  match d.live, d.kind with
  | true, .construct (.switchState start) =>
    let b ← getBindings
    match b.stateLabels, d.operands with
    | [], _ => makeBranch op start []
    | _, [] => throw (.contractAt op .dispatchWithoutState)
    | labels, state :: _ =>
      let default ← b.returnBlock op
      let cases := (start :: labels).zipIdx.map fun p => (Int64.ofNat p.2, p.1)
      Edit.replaceKind op (.transfer (.switchInt default cases))
      Edit.setOperands op [state]
  | _, _ => return ()

/-- Replaces the dispatches that were put off. -/
def finishDispatches : Lower Unit := do
  let pending := (← getBindings).pending
  settle (·.clearPending)
  pending.forM finishDispatch

end Unnest.Lower
