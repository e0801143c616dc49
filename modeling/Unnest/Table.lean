/-!
# Association tables

A table keeps its keys in the order in which they were first entered; entering a key again
replaces what it holds.
-/

namespace Unnest

/-- A finite map, kept as the list of its entries. -/
structure Table (κ α : Type) where
  entries : List (κ × α) := []
  deriving Inhabited

namespace Table

variable {κ α : Type} [DecidableEq κ]

/-- The list with the entry of `k` replaced, or added at the end. -/
def put (k : κ) (a : α) : List (κ × α) → List (κ × α)
  | [] => [(k, a)]
  | (k', a') :: rest => if k' = k then (k, a) :: rest else (k', a') :: put k a rest

/-- What a list of entries holds for `k`. -/
def look (k : κ) : List (κ × α) → Option α
  | [] => none
  | (k', a) :: rest => if k' = k then some a else look k rest

/-- What the table holds for a key. -/
def get? (t : Table κ α) (k : κ) : Option α :=
  look k t.entries

/-- Sets the entry of a key. -/
def insert (t : Table κ α) (k : κ) (a : α) : Table κ α :=
  ⟨put k a t.entries⟩

/-- Enters the pairs from left to right. -/
def insertAll (t : Table κ α) (pairs : List (κ × α)) : Table κ α :=
  pairs.foldl (fun t p => t.insert p.1 p.2) t

theorem look_put (k : κ) (a : α) (l : List (κ × α)) (k' : κ) :
    look k' (put k a l) = if k = k' then some a else look k' l := by
  induction l with
  | nil => simp [put, look]
  | cons p rest ih =>
    obtain ⟨x, b⟩ := p
    by_cases h : x = k
    · subst h; by_cases h' : x = k' <;> simp [put, look, h']
    · by_cases h' : x = k'
      · subst h'; simp [put, look, h, Ne.symm h]
      · simp [put, look, h, h', ih]

theorem get?_insert (t : Table κ α) (k : κ) (a : α) (k' : κ) :
    (t.insert k a).get? k' = if k = k' then some a else t.get? k' :=
  look_put k a t.entries k'

@[simp] theorem get?_insert_self (t : Table κ α) (k : κ) (a : α) :
    (t.insert k a).get? k = some a := by
  simp [get?_insert]

theorem get?_insert_of_ne (t : Table κ α) {k k' : κ} (a : α) (h : k ≠ k') :
    (t.insert k a).get? k' = t.get? k' := by
  simp [get?_insert, h]

@[simp] theorem get?_empty (k : κ) : (({} : Table κ α)).get? k = none := rfl

end Table

end Unnest
