import Unnest.Run.Error
/-!
# The heap

Cells are never freed, so a pointer stays good. Reading and writing follow the fields of the path
from the cell inward.
-/

namespace Unnest

namespace Value

/-- What a path of fields leads to inside a value. -/
def follow (v : Value) : List Nat → Except RunError Value
  | [] => .ok v
  | index :: path =>
    match v with
    | tuple items =>
      match items[index]? with
      | some item => item.follow path
      | none => .error (.noField index v)
    | _ => .error (.noField index v)

/-- The value with what a path of fields leads to replaced. -/
def replace (v new : Value) : List Nat → Except RunError Value
  | [] => .ok new
  | index :: path =>
    match v with
    | tuple items =>
      match items[index]? with
      | some item => (fun item => tuple (items.set index item)) <$> item.replace new path
      | none => .error (.noFieldToWrite index)
    | _ => .error (.notTuple index)

end Value

/-- The cells of a run, never freed. -/
abbrev Heap := Array Value

namespace Heap

/-- Reads through a pointer. -/
def read (h : Heap) (p : Pointer) : Except RunError Value :=
  match h[p.cell]? with
  | some v => v.follow p.path
  | none => .error (.dangling p.cell)

/-- Writes through a pointer. -/
def write (h : Heap) (p : Pointer) (new : Value) : Except RunError Heap :=
  match h[p.cell]? with
  | some v => h.setIfInBounds p.cell <$> v.replace new p.path
  | none => .error (.dangling p.cell)

/-- A new cell with the given contents. -/
def allocate (h : Heap) (v : Value) : Pointer × Heap :=
  ({ cell := h.size }, h.push v)

end Heap

end Unnest
