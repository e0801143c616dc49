import Unnest.Ty
/-!
# Type tables

A program registers the types that its catch clauses name. The token of a type is its position in
the table; a type is registered once.
-/

namespace Unnest

/-- The registered types, in the order of their tokens. -/
structure TypeTable where
  types : List Ty := []
  deriving DecidableEq, Inhabited

namespace TypeTable

/-- The token of a registered type. -/
def token? (t : TypeTable) (ty : Ty) : Option TypeToken :=
  (t.types.findIdx? (· == ty)).map TypeToken.mk

/-- The type registered under a token. -/
def ty? (t : TypeTable) (token : TypeToken) : Option Ty :=
  t.types[token.index]?

/-- Registers a type, or finds the token it already has. -/
def register (t : TypeTable) (ty : Ty) : TypeToken × TypeTable :=
  match t.token? ty with
  | some token => (token, t)
  | none => (⟨t.types.length⟩, ⟨t.types ++ [ty]⟩)

/-- The table after registering the given types in order. -/
def ofList (types : List Ty) : TypeTable :=
  types.foldl (fun t ty => (t.register ty).2) {}

end TypeTable

end Unnest
