import Unnest.Func.Nest
/-!
# Listings

A listing shows a function one op a line, what is nested in an op deeper than the op itself. A
line that would start further to the right than `widestMargin` cannot be written, and a listing
that needs one is refused.
-/

namespace Unnest

/-- What a listing shows beside the ops. -/
structure ListingOptions where
  /-- How many blanks a level of nesting adds. -/
  indent : Nat := 2
  showSpans : Bool := false
  showTypes : Bool := true
  deriving DecidableEq, Inhabited

/-- The most blanks a line can start with. -/
def widestMargin : Nat := 65535

/-- A line of text behind a number of blanks. -/
def listingLine (margin : Nat) (line : String) : Except Stop String :=
  if margin ≤ widestMargin then
    .ok (String.ofList (List.replicate margin ' ') ++ line ++ "\n")
  else
    .error .outOfRange

namespace Func

/-- A value where it is defined. -/
def valueText (f : Func) (o : ListingOptions) (v : ValueId) : Except Stop String := do
  if o.showTypes then return v.text ++ ": " ++ (← f.valueTy v).text else return v.text

/-- The line of a block. -/
def blockText (f : Func) (o : ListingOptions) (block : BlockId) : Except Stop String := do
  match (← f.block block).args with
  | [] => return block.text ++ ":"
  | args => return block.text ++ "(" ++ commaSeparated (← args.mapM (f.valueText o)) ++ "):"

/-- The line of an op. -/
def opText (f : Func) (o : ListingOptions) (op : OpId) : Except Stop String := do
  let d ← f.op op
  let results ← d.results.mapM (f.valueText o)
  let left := if results.isEmpty then "" else commaSeparated results ++ " = "
  let right :=
    if d.operands.isEmpty then "" else "(" ++ commaSeparated (d.operands.map ValueId.text) ++ ")"
  let place :=
    match o.showSpans, d.span with
    | true, some span => " @ " ++ span.text
    | _, _ => ""
  return left ++ d.kind.text ++ right ++ place

mutual

/-- The lines of a block's ops. -/
def listOps (f : Func) (o : ListingOptions) (margin : Nat) : Nest.Ops → Except Stop String
  | .nil => return ""
  | .cons op .nil rest => do
    let line ← listingLine margin (← f.opText o op)
    return line ++ (← listOps f o margin rest)
  | .cons op regions rest => do
    let line ← listingLine margin ((← f.opText o op) ++ " \x7b")
    let inside ← listRegions f o margin regions
    return line ++ inside ++ (← listOps f o margin rest)

/-- The lines of a region's blocks. -/
def listBlocks (f : Func) (o : ListingOptions) (margin : Nat) : Nest.Blocks → Except Stop String
  | .nil => return ""
  | .cons block ops rest => do
    let line ← listingLine margin (← f.blockText o block)
    let inside ← listOps f o (margin + o.indent) ops
    return line ++ inside ++ (← listBlocks f o margin rest)

/-- The regions of an op, each closed by a brace that opens the next. -/
def listRegions (f : Func) (o : ListingOptions) (margin : Nat) : Nest.Regions → Except Stop String
  | .nil => return ""
  | .cons _ blocks .nil => do
    let inside ← listBlocks f o (margin + o.indent) blocks
    return inside ++ (← listingLine margin "\x7d")
  | .cons _ blocks rest => do
    let inside ← listBlocks f o (margin + o.indent) blocks
    let line ← listingLine margin "\x7d \x7b"
    return inside ++ line ++ (← listRegions f o margin rest)

end

/-- The listing of a function. -/
def listing (f : Func) (o : ListingOptions) : Except Stop String := do
  let head :=
    "fn " ++ f.name ++ "(" ++ commaSeparated (f.sig.params.map Ty.text) ++ ") -> " ++ f.sig.ret.text
  let line ← listingLine 0 (head ++ " \x7b")
  let inside ← f.listBlocks o o.indent (← f.regionNest f.body)
  return line ++ inside ++ (← listingLine 0 "\x7d")

end Func

end Unnest
