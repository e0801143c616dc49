import Unnest.Proofs.Tables
import Unnest.Run.Machine
/-!
# Pointers to cells

The cells that a value mentions, at any depth, and values that mention existing cells only. What an
operator computes mentions none, reading and writing through a good pointer does not fail for want
of a cell, and what a frame hands out is as good as what it holds (`RunError.Spares`).
-/

namespace Unnest

/-! ## The cells of a value -/

namespace Value

/-- The values directly inside a value. -/
def parts : Value → List Value
  | tuple items => items
  | exception _ payload => [payload]
  | _ => []

theorem sizeOf_parts {v w : Value} (h : w ∈ v.parts) : sizeOf w < sizeOf v := by
  cases v with
  | tuple items =>
    have hlt : sizeOf w < sizeOf items := List.sizeOf_lt_of_mem h
    simp only [tuple.sizeOf_spec]
    omega
  | exception ty payload =>
    rw [List.mem_singleton.mp h]
    simp only [exception.sizeOf_spec]
    omega
  | _ => exact absurd h List.not_mem_nil

/-- A property that every value has if the values inside it have it. -/
theorem inside_out {P : Value → Prop} (h : ∀ v, (∀ w ∈ v.parts, P w) → P v) (v : Value) : P v := by
  induction hn : sizeOf v using Nat.strong_induction_on generalizing v with
  | h n ih =>
    subst hn
    exact h v fun w hw => ih _ (sizeOf_parts hw) w rfl

mutual

/-- The cells that a value mentions, at any depth. -/
@[simp] def cells : Value → List Nat
  | ref pointer => [pointer.cell]
  | tuple items => cellsOfAll items
  | exception _ payload => cells payload
  | _ => []

/-- The cells that the fields of a tuple point to. -/
def cellsOfAll : List Value → List Nat
  | [] => []
  | v :: rest => cells v ++ cellsOfAll rest

end

@[simp] theorem cellsOfAll_eq (items : List Value) : cellsOfAll items = items.flatMap cells := by
  induction items with
  | nil => simp [cellsOfAll]
  | cons v rest ih => simp [cellsOfAll, ih]

theorem initials_eq (fields : List Ty) : initials fields = fields.map initial := by
  induction fields with
  | nil => rw [initials, List.map_nil]
  | cons ty rest ih => rw [initials, ih, List.map_cons]

@[simp] theorem cells_initial (ty : Ty) : (initial ty).cells = [] := by
  induction hn : sizeOf ty using Nat.strong_induction_on generalizing ty with
  | h n ih =>
    subst hn
    cases ty with
    | tuple fields =>
      rw [initial, cells, cellsOfAll_eq, initials_eq, List.flatMap_map, List.flatMap_eq_nil_iff]
      intro field hfield
      have := List.sizeOf_lt_of_mem hfield
      exact ih _ (by simp only [Ty.tuple.sizeOf_spec]; omega) field rfl
    | _ => simp [initial]

@[simp] theorem cells_ofLiteral (value : Literal) : (ofLiteral value).cells = [] := by
  cases value <;> simp [ofLiteral]

theorem cells_cast (v : Value) (ty : Ty) : (v.cast ty).cells ⊆ v.cells := by
  unfold cast
  split <;> simp

end Value

namespace BinOp

variable (op : BinOp)

theorem cells_compareAs (o : Option Ordering) : ∀ v ∈ op.compareAs o, v.cells = [] := by
  intro v hv
  obtain ⟨flag, -, rfl⟩ := Option.map_eq_some_iff.mp hv
  simp

theorem cells_onInts (a b : Int64) : ∀ v ∈ op.onInts a b, v.cells = [] := by
  cases op with
  | div | rem =>
    unfold onInts
    split <;> simp
  | add | sub | mul | and | or => simp [onInts]
  | _ => exact cells_compareAs _ _

theorem cells_onFloats (a b : Binary64) : ∀ v ∈ op.onFloats a b, v.cells = [] := by
  cases op with
  | add | sub | mul | div | rem => simp [onFloats]
  | _ => exact cells_compareAs _ _

theorem cells_onBools (a b : Bool) : ∀ v ∈ op.onBools a b, v.cells = [] := by
  cases op <;> simp [onBools]

theorem cells_onStrings (a b : String) : ∀ v ∈ op.onStrings a b, v.cells = [] := by
  cases op with
  | add => simp [onStrings]
  | _ => exact cells_compareAs _ _

/-- What an operator computes mentions no cells. -/
theorem cells_eval? (a b : Value) : ∀ v ∈ op.eval? a b, v.cells = [] := by
  unfold eval?
  split
  · exact cells_onInts op _ _
  · exact cells_onFloats op _ _
  · exact cells_onBools op _ _
  · exact cells_onStrings op _ _
  · split <;> simp

end BinOp

/-! ## Values that mention existing cells only -/

/-- Every cell that the value mentions is one of the first `n`. -/
def Value.Below (n : Nat) (v : Value) : Prop := ∀ c ∈ v.cells, c < n

namespace Value

variable {n m : Nat}

theorem Below.mono {v : Value} (h : v.Below n) (hm : n ≤ m) : v.Below m :=
  fun c hc => (h c hc).trans_le hm

theorem below_of_cells_nil {v : Value} (h : v.cells = []) : v.Below n := by
  simp [Below, h]

@[simp] theorem below_tuple {items : List Value} :
    (tuple items).Below n ↔ ∀ v ∈ items, v.Below n := by
  simp only [Below, cells, cellsOfAll_eq, List.mem_flatMap]
  grind

@[simp] theorem below_exception {ty : Ty} {payload : Value} :
    (exception ty payload).Below n ↔ payload.Below n := by
  simp [Below]

@[simp] theorem below_ref {pointer : Pointer} : (ref pointer).Below n ↔ pointer.cell < n := by
  simp [Below]

end Value

/-- What a call answers points below a bound only. -/
def CallResult.Below (n : Nat) : CallResult → Prop
  | .ok values => ∀ v ∈ values, v.Below n
  | .error thrown => thrown.payload.Below n

/-- The values of a frame and the exception it handles mention existing cells only. -/
structure Frame.Below (n : Nat) (fr : Frame) : Prop where
  values : ∀ {v : ValueId} {value : Value}, fr.values.get? v = some value → value.Below n
  flight : ∀ {thrown : Thrown}, fr.inFlight = some thrown → thrown.payload.Below n

/-- The cells that an outcome mentions. -/
def Outcome.cells : Outcome → List Nat
  | .returned value => value.toList.flatMap Value.cells
  | .threw thrown => thrown.payload.cells

/-- What a run ends with points below a bound only. -/
def Outcome.Below (n : Nat) (o : Outcome) : Prop := ∀ c ∈ o.cells, c < n

/-- What a block passes on points below a bound only. -/
def Flow.Below (n : Nat) : Flow → Prop
  | .next fr => fr.Below n
  | .call fr _ _ args => fr.Below n ∧ ∀ v ∈ args, v.Below n
  | .done outcome => outcome.Below n

/-- Where a run stands points below a bound only. -/
def Progress.Below (n : Nat) : Progress → Prop
  | .running fr callers => fr.Below n ∧ ∀ c ∈ callers, c.1.Below n
  | .finished outcome => outcome.Below n

theorem Frame.Below.mono {n m : Nat} {fr : Frame} (h : fr.Below n) (hm : n ≤ m) : fr.Below m where
  values hv := (h.values hv).mono hm
  flight hv := (h.flight hv).mono hm

/-- The error is that a pointer has no cell. -/
def RunError.isDangling : RunError → Bool
  | .dangling _ => true
  | _ => false

/-- `x` does not fail on a dangling pointer, and gives what `Q` asks. -/
def RunError.Spares {α : Type} (x : Except RunError α) (Q : α → Prop) : Prop :=
  match x with
  | .ok a => Q a
  | .error e => e.isDangling = false

namespace RunError.Spares

variable {α β : Type} {P Q : α → Prop}

theorem bind {R : β → Prop} {x : Except RunError α} {k : α → Except RunError β} (h : Spares x P)
    (hk : ∀ a, P a → Spares (k a) R) : Spares (x >>= k) R := by
  cases x with
  | ok a => exact hk a h
  | error e => exact h

theorem map {R : β → Prop} {x : Except RunError α} {g : α → β} (h : Spares x P)
    (hg : ∀ a, P a → R (g a)) : Spares (g <$> x) R := by
  cases x with
  | ok a => exact hg a h
  | error e => exact h

end RunError.Spares

open RunError (Spares)

/-! ## Reading and writing cells -/

theorem Value.spares_follow {n : Nat} {v : Value} (h : v.Below n) (path : List Nat) :
    Spares (v.follow path) (Value.Below n) := by
  induction path generalizing v with
  | nil => rwa [follow]
  | cons index path ih =>
    cases v with
    | tuple items =>
      rw [follow]
      cases hi : items[index]? with
      | none => exact rfl
      | some item => exact ih (below_tuple.mp h item (List.mem_of_getElem? hi))
    | _ => exact rfl

theorem Value.spares_replace {n : Nat} {v new : Value} (h : v.Below n) (hnew : new.Below n)
    (path : List Nat) : Spares (v.replace new path) (Value.Below n) := by
  induction path generalizing v with
  | nil => rwa [replace]
  | cons index path ih =>
    cases v with
    | tuple items =>
      rw [replace]
      cases hi : items[index]? with
      | none => exact rfl
      | some item =>
        have hitems := below_tuple.mp h
        refine (ih (hitems item (List.mem_of_getElem? hi))).map fun item' hitem' => ?_
        refine below_tuple.mpr fun w hw => ?_
        rcases List.mem_or_eq_of_mem_set hw with hw | rfl
        · exact hitems w hw
        · exact hitem'
    | _ => exact rfl

namespace Heap

/-- Every cell mentions existing cells only. -/
def Grounded (h : Heap) : Prop := ∀ {c : Nat} {v : Value}, h[c]? = some v → v.Below h.size

theorem spares_read {h : Heap} (hh : h.Grounded) {pointer : Pointer} (hp : pointer.cell < h.size) :
    Spares (h.read pointer) (Value.Below h.size) := by
  unfold read
  rw [Array.getElem?_eq_getElem hp]
  exact Value.spares_follow (hh (Array.getElem?_eq_getElem hp)) _

theorem spares_write {h : Heap} (hh : h.Grounded) {pointer : Pointer} {new : Value}
    (hp : pointer.cell < h.size) (hnew : new.Below h.size) :
    Spares (h.write pointer new) fun h' => h'.size = h.size ∧ h'.Grounded := by
  unfold write
  rw [Array.getElem?_eq_getElem hp]
  refine (Value.spares_replace (hh (Array.getElem?_eq_getElem hp)) hnew _).map fun v hv => ?_
  have hsize : (h.setIfInBounds pointer.cell v).size = h.size := Array.size_setIfInBounds
  refine ⟨hsize, fun {c w} hw => ?_⟩
  rw [Array.getElem?_setIfInBounds] at hw
  rw [hsize]
  grind [Grounded]

theorem grounded_allocate {h : Heap} (hh : h.Grounded) {v : Value} (hv : v.Below h.size) :
    (h.allocate v).2.Grounded := by
  intro c w hw
  have hsize : (h.allocate v).2.size = h.size + 1 := Array.size_push v
  rw [hsize]
  rw [allocate, Array.getElem?_push] at hw
  split at hw
  · cases hw
    exact hv.mono (Nat.le_succ _)
  · exact (hh hw).mono (Nat.le_succ _)

end Heap

/-! ## Frames -/

theorem RunError.spares_ofNode {α : Type} (a : Option α) :
    Spares (RunError.ofNode a) fun _ => True := by
  cases a with
  | some a => trivial
  | none => rfl

namespace Frame

variable {n : Nat} {fr : Frame} {op : OpId} {d : Op}

theorem Below.insertAll (h : fr.Below n) (pairs : List (ValueId × Value))
    (hp : ∀ p ∈ pairs, p.2.Below n) : Below n { fr with values := fr.values.insertAll pairs } where
  values hv := by
    rcases Table.get?_insertAll hv with hv | hv
    · exact hp _ hv
    · exact h.values hv
  flight hv := h.flight hv

theorem spares_get (h : fr.Below n) (v : ValueId) : Spares (fr.get v) (Value.Below n) := by
  unfold get
  cases hv : fr.values.get? v with
  | some value => exact h.values hv
  | none => exact rfl

theorem spares_typeOf (v : ValueId) : Spares (fr.typeOf v) fun _ => True :=
  (RunError.spares_ofNode _).map fun _ _ => trivial

theorem spares_operand (h : fr.Below n) (index : Nat) :
    Spares (fr.operand op d index) (Value.Below n) := by
  unfold operand
  cases d.operands[index]? with
  | some v => exact spares_get h v
  | none => exact rfl

theorem spares_operands (h : fr.Below n) (start : Nat) :
    Spares (fr.operands d start) fun values => ∀ v ∈ values, v.Below n := by
  unfold operands
  induction d.operands.drop start with
  | nil => simp [Spares, pure, Except.pure]
  | cons v rest ih =>
    rw [List.mapM_cons]
    refine (spares_get h v).bind fun value hvalue => ih.bind fun values hvalues => ?_
    intro w hw
    rcases List.mem_cons.mp hw with rfl | hw
    · exact hvalue
    · exact hvalues w hw

theorem spares_pointer (h : fr.Below n) (index : Nat) :
    Spares (fr.pointer op d index) fun pointer => pointer.cell < n := by
  refine (spares_operand h index).bind fun v hv => ?_
  cases v with
  | ref pointer => exact Value.below_ref.mp hv
  | _ => exact rfl

theorem spares_calleeName (h : fr.Below n) : Spares (fr.calleeName op d) fun _ => True := by
  refine (spares_operand h 0).bind fun v _ => ?_
  cases v with
  | fn name => trivial
  | _ => exact rfl

theorem spares_exception (h : fr.Below n) :
    Spares (fr.exception op d) fun thrown => thrown.payload.Below n := by
  refine (spares_operand h 0).bind fun v hv => ?_
  cases v with
  | exception ty payload => exact Value.below_exception.mp hv
  | _ => exact rfl

theorem spares_raised (h : fr.Below n) :
    Spares (fr.raised op d) fun thrown => thrown.payload.Below n := by
  unfold raised
  cases d.operands with
  | nil => exact rfl
  | cons v rest =>
    refine (spares_get h v).bind fun value hvalue => ?_
    cases value with
    | exception ty payload => exact Value.below_exception.mp hvalue
    | _ => exact (spares_typeOf v).bind fun _ _ => hvalue

theorem spares_define (h : fr.Below n) {value : Value} (hv : value.Below n) :
    Spares (fr.define op d value) (Below n) := by
  unfold define
  cases d.results with
  | nil => exact rfl
  | cons v rest => exact h.insertAll [(v, value)] (by simpa using hv)

theorem Below.defineAll (h : fr.Below n) {values : List Value} (hv : ∀ v ∈ values, v.Below n) :
    (fr.defineAll d values).Below n := by
  refine h.insertAll _ fun p hp => ?_
  rcases List.mem_append.mp (List.of_mem_zip hp).2 with hp | hp
  · exact hv _ hp
  · rw [List.eq_of_mem_replicate hp]
    exact Value.below_of_cells_nil (by simp)

theorem spares_enter (h : fr.Below n) (block : BlockId) {args : List Value}
    (ha : ∀ v ∈ args, v.Below n) : Spares (fr.enter block args) (Below n) := by
  refine (RunError.spares_ofNode _).bind fun d _ => ?_
  dsimp only
  split
  · exact rfl
  · have hfr := h.insertAll (d.args.zip args) fun p hp => ha _ (List.of_mem_zip hp).2
    exact ⟨hfr.values, hfr.flight⟩

theorem spares_unwind (h : fr.Below n) (pad : BlockId) {thrown : Thrown}
    (ht : thrown.payload.Below n) : Spares (fr.unwind pad thrown) (Below n) := by
  have hfr : Below n { fr with inFlight := some thrown } := by
    refine ⟨h.values, ?_⟩
    rintro _ ⟨⟩
    exact ht
  exact spares_enter hfr pad (List.forall_mem_nil _)

theorem spares_start (f : Func) {args : List Value} (ha : ∀ v ∈ args, v.Below n) :
    Spares (Frame.start f args) (Below n) := by
  refine (RunError.spares_ofNode _).bind fun body _ => ?_
  cases body.blocks with
  | nil => exact rfl
  | cons entry rest => exact spares_enter ⟨by simp, by simp⟩ entry ha

end Frame

end Unnest
