import Unnest.Dump.Kinds
import Unnest.Program
/-!
# Dumps of functions and programs
-/

namespace Unnest

/-- The dump of an op. -/
def Op.toDump (d : Op) : Dump :=
  .record [("kind", d.kind.toDump), ("operands", .list (d.operands.map ValueId.toDump)),
    ("results", .list (d.results.map ValueId.toDump)),
    ("regions", .list (d.regions.map RegionId.toDump)),
    ("parent", .optional BlockId.toDump d.parent), ("span", .optional Span.toDump d.span),
    ("live", .bool d.live)]

/-- The dump of a block. -/
def Block.toDump (d : Block) : Dump :=
  .record [("ops", .list (d.ops.map OpId.toDump)), ("args", .list (d.args.map ValueId.toDump)),
    ("parent", .optional RegionId.toDump d.parent), ("live", .bool d.live)]

/-- The dump of a region. -/
def Region.toDump (d : Region) : Dump :=
  .record [("blocks", .list (d.blocks.map BlockId.toDump)),
    ("parent", .optional OpId.toDump d.parent)]

/-- The dump of where a value comes from. -/
def Origin.toDump : Origin → Dump
  | opResult op index => .tagged "OpResult" (.record [("op", op.toDump), ("index", .ofNat index)])
  | blockArg block index =>
    .tagged "BlockArg" (.record [("block", block.toDump), ("index", .ofNat index)])

/-- The dump of a value. -/
def ValueInfo.toDump (d : ValueInfo) : Dump :=
  .record [("ty", d.ty.toDump), ("def", d.origin.toDump)]

/-- The dump of a signature. -/
def Signature.toDump (s : Signature) : Dump :=
  .record [("params", .list (s.params.map Ty.toDump)), ("ret", s.ret.toDump)]

/-- The dump of a function. -/
def Func.toDump (f : Func) : Dump :=
  .record [("name", .str f.name), ("sig", f.sig.toDump),
    ("ops", .list (f.ops.toList.map Op.toDump)),
    ("blocks", .list (f.blocks.toList.map Block.toDump)),
    ("regions", .list (f.regions.toList.map Region.toDump)),
    ("values", .list (f.values.toList.map ValueInfo.toDump)), ("body", f.body.toDump)]

/-- The dump of a program. -/
def Program.toDump (p : Program) : Dump :=
  .record [("name", .str p.name), ("functions", .list (p.funcs.map Func.toDump)),
    ("rtti", p.types.toDump)]

/-! ## Reading -/

/-- Reads an op back. -/
def Op.ofDump? (d : Dump) : Option Op := do
  some {
    kind := ← OpKind.ofDump? (d.field "kind")
    operands := ← Dump.listOf? ValueId.ofDump? (d.field "operands")
    results := ← Dump.listOf? ValueId.ofDump? (d.field "results")
    regions := ← Dump.listOf? RegionId.ofDump? (d.field "regions")
    parent := ← Dump.optional? BlockId.ofDump? (d.field "parent")
    span := ← Dump.optional? Span.ofDump? (d.field "span")
    live := ← (d.field "live").bool? }

/-- Reads a block back. -/
def Block.ofDump? (d : Dump) : Option Block := do
  some {
    ops := ← Dump.listOf? OpId.ofDump? (d.field "ops")
    args := ← Dump.listOf? ValueId.ofDump? (d.field "args")
    parent := ← Dump.optional? RegionId.ofDump? (d.field "parent")
    live := ← (d.field "live").bool? }

/-- Reads a region back. -/
def Region.ofDump? (d : Dump) : Option Region := do
  some {
    blocks := ← Dump.listOf? BlockId.ofDump? (d.field "blocks")
    parent := ← Dump.optional? OpId.ofDump? (d.field "parent") }

/-- Reads back where a value comes from. -/
def Origin.ofDump? : Dump → Option Origin
  | .record [("OpResult", d)] => do
    some (opResult (← OpId.ofDump? (d.field "op")) (← (d.field "index").nat?))
  | .record [("BlockArg", d)] => do
    some (blockArg (← BlockId.ofDump? (d.field "block")) (← (d.field "index").nat?))
  | _ => none

/-- Reads a value back. -/
def ValueInfo.ofDump? (d : Dump) : Option ValueInfo := do
  some { ty := ← Ty.ofDump? (d.field "ty"), origin := ← Origin.ofDump? (d.field "def") }

/-- Reads a signature back. -/
def Signature.ofDump? (d : Dump) : Option Signature := do
  some {
    params := ← Dump.listOf? Ty.ofDump? (d.field "params")
    ret := ← Ty.ofDump? (d.field "ret") }

/-- Reads a function back. -/
def Func.ofDump? (d : Dump) : Option Func := do
  some {
    name := ← (d.field "name").str?
    sig := ← Signature.ofDump? (d.field "sig")
    ops := (← Dump.listOf? Op.ofDump? (d.field "ops")).toArray
    blocks := (← Dump.listOf? Block.ofDump? (d.field "blocks")).toArray
    regions := (← Dump.listOf? Region.ofDump? (d.field "regions")).toArray
    values := (← Dump.listOf? ValueInfo.ofDump? (d.field "values")).toArray
    body := ← RegionId.ofDump? (d.field "body") }

end Unnest
