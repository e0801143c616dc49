import Unnest.Id
/-!
# Types

The types of values. References, tuples and functions are seen through; a class or interface is
only a name. Equality of types is decided by `Ty.same`.
-/

namespace Unnest

/-- The types of values. -/
inductive Ty where
  | void
  | bool
  | i32
  | i64
  | f64
  | string
  /-- Exception pads and other handles of the back end. -/
  | handle
  | null
  | any
  | ref (inner : Ty)
  | tuple (fields : List Ty)
  | function (params : List Ty) (ret : Ty)
  | named (name : String)
  deriving Inhabited

namespace Ty

mutual

/-- Whether two types are the same. -/
def same : Ty → Ty → Bool
  | void, void => true
  | bool, bool => true
  | i32, i32 => true
  | i64, i64 => true
  | f64, f64 => true
  | string, string => true
  | handle, handle => true
  | null, null => true
  | any, any => true
  | ref a, ref b => same a b
  | tuple as, tuple bs => sameAll as bs
  | function as a, function bs b => sameAll as bs && same a b
  | named a, named b => a == b
  | _, _ => false

/-- Whether two lists of types are the same. -/
def sameAll : List Ty → List Ty → Bool
  | [], [] => true
  | a :: as, b :: bs => same a b && sameAll as bs
  | _, _ => false

end

mutual

theorem same_refl : ∀ a : Ty, same a a = true
  | void | bool | i32 | i64 | f64 | string | handle | null | any => by simp [same]
  | ref a => by simp [same, same_refl a]
  | tuple as => by simp [same, sameAll_refl as]
  | function as a => by simp [same, sameAll_refl as, same_refl a]
  | named a => by simp [same]

theorem sameAll_refl : ∀ as : List Ty, sameAll as as = true
  | [] => by simp [sameAll]
  | a :: as => by simp [sameAll, same_refl a, sameAll_refl as]

end

mutual

theorem eq_of_same : ∀ a b : Ty, same a b = true → a = b
  | void, b, h | bool, b, h | i32, b, h | i64, b, h | f64, b, h | string, b, h | handle, b, h
  | null, b, h | any, b, h => by cases b <;> simp_all [same]
  | ref a, b, h => by
    cases b with
    | ref b => rw [eq_of_same a b (by simpa [same] using h)]
    | _ => simp [same] at h
  | tuple as, b, h => by
    cases b with
    | tuple bs => rw [eq_of_sameAll as bs (by simpa [same] using h)]
    | _ => simp [same] at h
  | function as a, b, h => by
    cases b with
    | function bs b =>
      simp only [same, Bool.and_eq_true] at h
      rw [eq_of_sameAll as bs h.1, eq_of_same a b h.2]
    | _ => simp [same] at h
  | named a, b, h => by cases b <;> simp_all [same]

theorem eq_of_sameAll : ∀ as bs : List Ty, sameAll as bs = true → as = bs
  | [], bs, h => by cases bs <;> simp_all [sameAll]
  | a :: as, bs, h => by
    cases bs with
    | nil => simp [sameAll] at h
    | cons b bs =>
      simp only [sameAll, Bool.and_eq_true] at h
      rw [eq_of_same a b h.1, eq_of_sameAll as bs h.2]

end

theorem same_iff {a b : Ty} : same a b = true ↔ a = b :=
  ⟨eq_of_same a b, fun h => h ▸ same_refl a⟩

instance : DecidableEq Ty := fun _ _ => decidable_of_iff _ same_iff

/-- No value has the type. -/
def isVoid : Ty → Bool
  | void => true
  | _ => false

/-- The type's values are references. -/
def isRef : Ty → Bool
  | ref _ => true
  | _ => false

/-- What a reference points to. -/
def pointee? : Ty → Option Ty
  | ref inner => some inner
  | _ => none

/-- The type of a field of a tuple. -/
def field? (t : Ty) (index : Nat) : Option Ty :=
  match t with
  | tuple fields => fields[index]?
  | _ => none

mutual

/-- How listings print a type. -/
def text : Ty → String
  | void => "void"
  | bool => "bool"
  | i32 => "i32"
  | i64 => "i64"
  | f64 => "f64"
  | string => "string"
  | handle => "opaque"
  | null => "null"
  | any => "any"
  | ref inner => "ref<" ++ text inner ++ ">"
  | tuple fields => "tuple<" ++ commaSeparated (texts fields) ++ ">"
  | function params ret => "fn(" ++ commaSeparated (texts params) ++ ") -> " ++ text ret
  | named name => name

/-- How listings print the types of a tuple. -/
def texts : List Ty → List String
  | [] => []
  | t :: rest => text t :: texts rest

end

end Ty

end Unnest
