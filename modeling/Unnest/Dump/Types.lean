import Unnest.Dump.Tree
import Unnest.Literal
import Unnest.Span
import Unnest.TypeTable
/-!
# Dumps of types, literals and spans

Each kind of thing is written by `toDump` and read back by `ofDump?`. A choice without content is
written as its name, and one with content as a record with its name as the only field.
-/

namespace Unnest

namespace Ty

mutual

/-- The dump of a type. -/
def toDump : Ty → Dump
  | void => .str "Void"
  | bool => .str "Bool"
  | i32 => .str "I32"
  | i64 => .str "I64"
  | f64 => .str "F64"
  | string => .str "String"
  | handle => .str "Opaque"
  | null => .str "Null"
  | any => .str "Any"
  | ref inner => .tagged "Ref" (toDump inner)
  | tuple fields => .tagged "Tuple" (.list (toDumps fields))
  | function params ret =>
    .tagged "Function" (.record [("params", .list (toDumps params)), ("ret", toDump ret)])
  | named name => .tagged "Named" (.str name)

/-- The dumps of a tuple's types. -/
def toDumps : List Ty → List Dump
  | [] => []
  | t :: rest => toDump t :: toDumps rest

end

/-- The types written as their name alone. -/
def ofName? : String → Option Ty
  | "Void" => some void
  | "Bool" => some bool
  | "I32" => some i32
  | "I64" => some i64
  | "F64" => some f64
  | "String" => some string
  | "Opaque" => some handle
  | "Null" => some null
  | "Any" => some any
  | _ => none

mutual

/-- Reads a type back. -/
def ofDump? : Dump → Option Ty
  | .str name => ofName? name
  | .record [("Ref", inner)] => (ofDump? inner).map ref
  | .record [("Tuple", .list fields)] => (ofDumps? fields).map tuple
  | .record [("Function", .record [("params", .list params), ("ret", ret)])] => do
    some (function (← ofDumps? params) (← ofDump? ret))
  | .record [("Named", .str name)] => some (named name)
  | _ => none

/-- Reads a tuple's types back. -/
def ofDumps? : List Dump → Option (List Ty)
  | [] => some []
  | d :: rest => do some ((← ofDump? d) :: (← ofDumps? rest))

end

end Ty

namespace Literal

/-- The dump of a constant. -/
def toDump : Literal → Dump
  | bool value => .tagged "Bool" (.bool value)
  | int value => .tagged "Int" (.int value.toInt)
  | float value => .tagged "Float" (.float value)
  | str value => .tagged "Str" (.str value)
  | fn name => .tagged "FuncRef" (.str name)

/-- Reads a constant back. -/
def ofDump? : Dump → Option Literal
  | .record [("Bool", .bool value)] => some (bool value)
  | .record [("Int", .int value)] => some (int (Int64.ofInt value))
  | .record [("Float", .float value)] => some (float value)
  | .record [("Str", .str value)] => some (str value)
  | .record [("FuncRef", .str name)] => some (fn name)
  | _ => none

end Literal

namespace BinOp

/-- The dump of an operator. -/
def toDump : BinOp → Dump
  | add => .str "Add"
  | sub => .str "Sub"
  | mul => .str "Mul"
  | div => .str "Div"
  | rem => .str "Rem"
  | eq => .str "Eq"
  | ne => .str "Ne"
  | lt => .str "Lt"
  | le => .str "Le"
  | gt => .str "Gt"
  | ge => .str "Ge"
  | and => .str "And"
  | or => .str "Or"

/-- Reads an operator back. -/
def ofDump? : Dump → Option BinOp
  | .str "Add" => some add
  | .str "Sub" => some sub
  | .str "Mul" => some mul
  | .str "Div" => some div
  | .str "Rem" => some rem
  | .str "Eq" => some eq
  | .str "Ne" => some ne
  | .str "Lt" => some lt
  | .str "Le" => some le
  | .str "Gt" => some gt
  | .str "Ge" => some ge
  | .str "And" => some and
  | .str "Or" => some or
  | _ => none

theorem ofDump?_toDump (op : BinOp) : ofDump? op.toDump = some op := by
  cases op <;> rfl

end BinOp

namespace Span

/-- The dump of a span. -/
def toDump (s : Span) : Dump :=
  .record [("file", .ofNat s.file), ("lo", .ofNat s.lo), ("hi", .ofNat s.hi)]

/-- Reads a span back. -/
def ofDump? (d : Dump) : Option Span := do
  some { file := ← (d.field "file").nat?, lo := ← (d.field "lo").nat?, hi := ← (d.field "hi").nat? }

end Span

def OpId.toDump (id : OpId) : Dump := .ofNat id.index

def BlockId.toDump (id : BlockId) : Dump := .ofNat id.index

def RegionId.toDump (id : RegionId) : Dump := .ofNat id.index

def ValueId.toDump (id : ValueId) : Dump := .ofNat id.index

def TypeToken.toDump (id : TypeToken) : Dump := .ofNat id.index

def OpId.ofDump? (d : Dump) : Option OpId := d.nat?.map OpId.mk

def BlockId.ofDump? (d : Dump) : Option BlockId := d.nat?.map BlockId.mk

def RegionId.ofDump? (d : Dump) : Option RegionId := d.nat?.map RegionId.mk

def ValueId.ofDump? (d : Dump) : Option ValueId := d.nat?.map ValueId.mk

def TypeToken.ofDump? (d : Dump) : Option TypeToken := d.nat?.map TypeToken.mk

/-- The dump of a type table. -/
def TypeTable.toDump (t : TypeTable) : Dump :=
  .record [("types", .list (t.types.map Ty.toDump))]

end Unnest
