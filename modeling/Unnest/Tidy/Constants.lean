import Unnest.Func.Erase
import Unnest.Func.Nest
import Unnest.Table
/-!
# Gathering constants

The constants of the body are moved behind the constants at the start of the entry block, and
constants of one type with one value become one.
-/

namespace Unnest.Tidy

/-- The constants kept so far, by type and value. -/
abbrev Kept := Table (Ty × Literal) ValueId

/-- Erases a constant in favour of an equal one kept before, or keeps it. Gives also whether it was
erased. -/
def mergeConstant (kept : Kept) (op : OpId) : Edit (Bool × Kept) := do
  match ← Edit.getKind op with
  | .instr (.constant value) =>
    let result ← Edit.result op
    let key := (← Edit.valueTy result, value)
    match kept.get? key with
    | some existing =>
      Edit.replaceAllUses result existing
      Edit.eraseOp op
      return (true, kept)
    | none => return (false, kept.insert key result)
  | _ => return (false, kept)

/-- Merges the constants at the start of the entry block and counts those erased. -/
def mergeLeading (kept : Kept) : List OpId → Edit (Nat × Kept)
  | [] => return (0, kept)
  | op :: rest => do
    let (erased, kept) ← mergeConstant kept op
    let (count, kept) ← mergeLeading kept rest
    return (count + erased.toNat, kept)

/-- Merges other constants or moves them before `anchor`. -/
def gather (anchor : OpId) (kept : Kept) : List OpId → Edit Unit
  | [] => return ()
  | op :: rest => do
    let (erased, kept) ← mergeConstant kept op
    if !erased then
      Edit.detachOp op
      Edit.insertOpBefore anchor op
    gather anchor kept rest

/-- The constants at the start of a list of ops. -/
def leadingConstants (f : Func) : List OpId → Except Stop (List OpId)
  | [] => return []
  | op :: rest => do
    if (← f.kind op).isConstant then
      return op :: (← leadingConstants f rest)
    else
      return []

/-- The constants of the body that are not among those at its start. -/
def otherConstants (f : Func) (leading : List OpId) : Except Stop (List OpId) := do
  let others := (← f.shallowOps f.body).filter (· ∉ leading)
  others.filterM fun op => return (← f.kind op).isConstant

/-- Gathers the constants of the body and counts those moved or merged. They are moved before the
op that follows the constants kept at the start; an entry block with nothing but constants is left
at that. -/
def gatherConstants : Edit Nat := do
  match ← Edit.entryBlock with
  | none => return 0
  | some entry =>
    let leading ← leadingConstants (← get) (← Edit.getBlock entry).ops
    let (merged, kept) ← mergeLeading {} leading
    match (← Edit.getBlock entry).ops[kept.entries.length]? with
    | none => return merged
    | some anchor =>
      let others ← otherConstants (← get) leading
      gather anchor kept others
      return merged + others.length

end Unnest.Tidy
