import Unnest.Func.Listing
import Unnest.TypeTable
/-!
# Programs

A program is a named list of functions with the table of the types its catch clauses name.
-/

namespace Unnest

/-- A named list of functions with the table of the types their catch clauses name. -/
structure Program where
  name : String
  funcs : List Func := []
  types : TypeTable := {}
  deriving Inhabited

namespace Program

/-- The first function of the given name. -/
def func? (p : Program) (name : String) : Option Func :=
  p.funcs.find? (·.name == name)

/-- The listing of a program: its name and the listings of its functions. -/
def listing (p : Program) (o : ListingOptions) : Except Stop String := do
  let line ← listingLine 0 ("module " ++ p.name)
  return line ++ String.join (← p.funcs.mapM (·.listing o))

end Program

end Unnest
