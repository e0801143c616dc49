import Unnest.Error
import Unnest.Span
/-!
# Functions

A function owns its ops, blocks, regions and values in four tables. Nodes name each other by their
position in these tables and record what owns them: a region's parent is the op it belongs to, a
block's the region that lists it, an op's the block that lists it. Erased nodes stay in their
table, marked dead. The body is the one region without an op.

Reading a node that does not exist is `Stop.outOfRange`.
-/

namespace Unnest

/-- An op: what it does, what it reads and makes, and where it stands. -/
structure Op where
  kind : OpKind
  operands : List ValueId
  results : List ValueId := []
  regions : List RegionId := []
  parent : Option BlockId := none
  span : Option Span := none
  live : Bool := true
  deriving DecidableEq, Inhabited

/-- A block: its arguments and its ops in order. -/
structure Block where
  ops : List OpId := []
  args : List ValueId := []
  parent : Option RegionId := none
  live : Bool := true
  deriving DecidableEq, Inhabited

/-- A region: its blocks in order and the op it belongs to. -/
structure Region where
  blocks : List BlockId := []
  parent : Option OpId := none
  deriving DecidableEq, Inhabited

/-- Where a value comes from: the result of an op or the argument of a block, with its place
among them. -/
inductive Origin where
  | opResult (op : OpId) (index : Nat)
  | blockArg (block : BlockId) (index : Nat)
  deriving DecidableEq, Inhabited

/-- A value: its type and where it comes from. -/
structure ValueInfo where
  ty : Ty
  origin : Origin
  deriving DecidableEq, Inhabited

/-- The types of a function's parameters and of its result. -/
structure Signature where
  params : List Ty
  ret : Ty
  deriving DecidableEq, Inhabited

/-- A function: four tables, each named into by the others, and its outermost region. -/
structure Func where
  name : String
  sig : Signature
  ops : Array Op := #[]
  blocks : Array Block := #[]
  regions : Array Region := #[]
  values : Array ValueInfo := #[]
  body : RegionId := ⟨0⟩
  deriving DecidableEq, Inhabited

/-- A node that must exist. -/
def existing {α : Type} : Option α → Except Stop α
  | some a => .ok a
  | none => .error .outOfRange

namespace Func

/-- The op of a name, if the table has one. -/
def op? (f : Func) (id : OpId) : Option Op := f.ops[id.index]?

/-- The block of a name, if the table has one. -/
def block? (f : Func) (id : BlockId) : Option Block := f.blocks[id.index]?

/-- The region of a name, if the table has one. -/
def region? (f : Func) (id : RegionId) : Option Region := f.regions[id.index]?

/-- The value of a name, if the table has one. -/
def value? (f : Func) (id : ValueId) : Option ValueInfo := f.values[id.index]?

/-- The op of a name, which has to be there. -/
def op (f : Func) (id : OpId) : Except Stop Op := existing (f.op? id)

/-- The block of a name, which has to be there. -/
def block (f : Func) (id : BlockId) : Except Stop Block := existing (f.block? id)

/-- The region of a name, which has to be there. -/
def region (f : Func) (id : RegionId) : Except Stop Region := existing (f.region? id)

/-- The value of a name, which has to be there. -/
def value (f : Func) (id : ValueId) : Except Stop ValueInfo := existing (f.value? id)

/-- The kind of an op, which has to be there. -/
def kind (f : Func) (id : OpId) : Except Stop OpKind := (·.kind) <$> f.op id

/-- The type of a value, which has to be there. -/
def valueTy (f : Func) (id : ValueId) : Except Stop Ty := (·.ty) <$> f.value id

/-- Whether there is such an op and its kind is as asked. -/
def kindIs (f : Func) (p : OpKind → Bool) (id : OpId) : Bool :=
  ((f.op? id).map fun d => p d.kind).getD false

/-- The blocks of the body in layout order. -/
def bodyBlocks (f : Func) : Except Stop (List BlockId) := (·.blocks) <$> f.region f.body

/-- The first block of the body. -/
def entryBlock (f : Func) : Except Stop (Option BlockId) := (·.head?) <$> f.bodyBlocks

/-- The arguments of the entry block. -/
def params (f : Func) : Except Stop (List ValueId) := do
  match ← f.entryBlock with
  | some entry => (·.args) <$> f.block entry
  | none => return []

/-- The last op of a block, if it is a terminator. -/
def terminator (f : Func) (id : BlockId) : Except Stop (Option OpId) := do
  match (← f.block id).ops.getLast? with
  | some last => return if (← f.kind last).isTerminator then some last else none
  | none => return none

/-- A function whose body is one block with the parameters as its arguments. -/
def new (name : String) (sig : Signature) : Func :=
  let entry : BlockId := ⟨0⟩
  let body : RegionId := ⟨0⟩
  { name, sig, body
    blocks := #[{ args := (List.range sig.params.length).map ValueId.mk, parent := some body }]
    regions := #[{ blocks := [entry] }]
    values := (sig.params.zipIdx.map fun p => ⟨p.1, .blockArg entry p.2⟩).toArray }

end Func

end Unnest
