/-!
# Names of nodes

Every op, block, region and value of a function is named by its position in the function's table
of such nodes, and every registered type by its position in the type table.
-/

namespace Unnest

/-- The name of an op: its place in the op table. -/
structure OpId where
  index : Nat
  deriving DecidableEq, Inhabited

/-- The name of a block: its place in the block table. -/
structure BlockId where
  index : Nat
  deriving DecidableEq, Inhabited

/-- The name of a region: its place in the region table. -/
structure RegionId where
  index : Nat
  deriving DecidableEq, Inhabited

/-- The name of a value: its place in the value table. -/
structure ValueId where
  index : Nat
  deriving DecidableEq, Inhabited

/-- The name of a registered type: its place in the type table. -/
structure TypeToken where
  index : Nat
  deriving DecidableEq, Inhabited

/-- How listings and errors print an op's name. -/
def OpId.text (id : OpId) : String := "op" ++ toString id.index

/-- How listings print a block's name. -/
def BlockId.text (id : BlockId) : String := "bb" ++ toString id.index

/-- How listings print a region's name. -/
def RegionId.text (id : RegionId) : String := "region" ++ toString id.index

/-- How listings print a value's name. -/
def ValueId.text (id : ValueId) : String := "%" ++ toString id.index

/-- How listings print a type token. -/
def TypeToken.text (id : TypeToken) : String := "type#" ++ toString id.index

/-- Texts with `", "` between them. -/
def commaSeparated (texts : List String) : String :=
  String.intercalate ", " texts

end Unnest
