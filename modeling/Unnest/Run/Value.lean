import Unnest.Literal
/-!
# Runtime values

The values a running function computes with. A pointer names a cell of the heap and, inside the
tuple held there, a path of fields.
-/

namespace Unnest

/-- A cell, and the path of fields to the part of it that is meant. -/
structure Pointer where
  cell : Nat
  path : List Nat := []
  deriving DecidableEq, Inhabited

namespace Pointer

/-- The pointer to a field of what a pointer points to. -/
def field (p : Pointer) (index : Nat) : Pointer :=
  { p with path := p.path ++ [index] }

/-- How a run prints a pointer. -/
def text (p : Pointer) : String :=
  "&cell" ++ toString p.cell ++ String.join (p.path.map fun index => "." ++ toString index)

end Pointer

/-- What a name can stand for in a run. -/
inductive Value where
  | unit
  | bool (value : Bool)
  | int (value : Int64)
  | float (value : Binary64)
  | str (value : String)
  | null
  | undefined
  | ref (pointer : Pointer)
  | tuple (items : List Value)
  | fn (name : String)
  | exception (ty : Ty) (payload : Value)
  deriving Inhabited

/-- An exception on its way. -/
structure Thrown where
  ty : Ty
  payload : Value
  deriving Inhabited

namespace Value

/-- The value of a constant. -/
def ofLiteral : Literal → Value
  | .bool value => bool value
  | .int value => int value
  | .float value => float value
  | .str value => str value
  | .fn name => fn name

mutual

/-- What a new cell of the given type holds: a tuple field by field, anything else undefined. -/
def initial : Ty → Value
  | .tuple fields => tuple (initials fields)
  | _ => undefined

/-- The first values of a tuple's fields. -/
def initials : List Ty → List Value
  | [] => []
  | ty :: rest => initial ty :: initials rest

end

/-- Integers, and truth values as zero and one. -/
def asInt? : Value → Option Int64
  | int value => some value
  | bool value => some (if value then 1 else 0)
  | _ => none

/-- Whether a value counts as true. -/
def truthy : Value → Bool
  | bool value => value
  | int value => value != 0
  | float value => !value.isZero
  | str value => value != ""
  | null | undefined | unit => false
  | ref _ | tuple _ | fn _ | exception _ _ => true

mutual

/-- Equality of values: floats compare as numbers, everything else by its parts. -/
def same : Value → Value → Bool
  | unit, unit => true
  | bool a, bool b => a == b
  | int a, int b => a == b
  | float a, float b => a.same b
  | str a, str b => a == b
  | null, null => true
  | undefined, undefined => true
  | ref a, ref b => a == b
  | tuple as, tuple bs => sameAll as bs
  | fn a, fn b => a == b
  | exception s a, exception t b => s == t && same a b
  | _, _ => false

/-- Two tuples agree field by field. -/
def sameAll : List Value → List Value → Bool
  | [], [] => true
  | a :: as, b :: bs => same a b && sameAll as bs
  | _, _ => false

end

mutual

/-- How a run prints a value. -/
def text : Value → String
  | unit => "()"
  | bool value => toString value
  | int value => toString value.toInt
  | float value => value.text
  | str value => Text.quote value
  | null => "null"
  | undefined => "undef"
  | ref pointer => pointer.text
  | tuple items => "(" ++ commaSeparated (texts items) ++ ")"
  | fn name => "@" ++ name
  | exception ty payload => "exception<" ++ ty.text ++ ">(" ++ text payload ++ ")"

/-- How a run prints the fields of a tuple. -/
def texts : List Value → List String
  | [] => []
  | v :: rest => text v :: texts rest

end

end Value

end Unnest
