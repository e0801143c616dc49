import Unnest.Lower.Basic
/-!
# Closure environments

A capture becomes a variable that holds a tuple, followed by one store per captured value. A
reference that is captured into a field of the type it points to is loaded first.
-/

namespace Unnest.Lower

/-- Emits the stores of the fields from `index` on, each behind the last op emitted. -/
def storeFields (env : ValueId) (index : Nat) (anchor : OpId) :
    List (ValueId × Ty) → Edit Unit
  | [] => return ()
  | (value, field) :: rest => do
    let (anchor, stored) ←
      if (← Edit.valueTy value).pointee? = some field then do
        let load ← Edit.emitAfter anchor (.instr .load) [value] [field]
        pure (load, ← Edit.result load)
      else pure (anchor, value)
    let ref ← Edit.emitAfter anchor (.instr (.fieldRef index)) [env] [.ref field]
    let store ← Edit.emitAfter ref (.instr .store) [stored, ← Edit.result ref] []
    storeFields env (index + 1) store rest

/-- Lowers a capture of the values its body yields. -/
def lowerCapture (storage : CaptureStorage) (op : OpId) : Lower Unit := do
  let d ← Edit.getOp op
  match d.results with
  | [] => throw (.contractAt op .captureWithoutResult)
  | env :: _ =>
    match (← Edit.valueTy env).pointee? with
    | some (.tuple fields) =>
      if d.operands.length ≠ fields.length then
        throw (.contractAt op (.captureCount d.operands.length fields.length))
      Edit.replaceKind op (.instr (.alloc (storage == .heap)))
      Edit.setOperands op []
      storeFields env 0 op (d.operands.zip fields)
    | _ => throw (.contractAt op .captureNotTuple)

end Unnest.Lower
