import Unnest.Proofs.Machine.Cells
/-!
# Shifting cells

Cells have numbers, and nothing that the machine does depends on them but for telling cells apart.
`shift n` adds `n` to the number of every cell that something mentions, and `carry` does so with a
result that may be an error. Each lemma `shift_...` says that a part of the machine that does not
touch the store commutes with shifting.
-/

namespace Unnest

/-! ## Shifting -/

/-- The pointer with its cell moved up. -/
def Pointer.shift (n : Nat) (pointer : Pointer) : Pointer :=
  { pointer with cell := pointer.cell + n }

namespace Value

mutual

/-- The value with the numbers of all cells raised by `n`. -/
@[simp] def shift (n : Nat) : Value → Value
  | ref pointer => ref (pointer.shift n)
  | tuple items => tuple (shiftAll n items)
  | exception ty payload => exception ty (shift n payload)
  | unit => unit
  | bool value => bool value
  | int value => int value
  | float value => float value
  | str value => str value
  | null => null
  | undefined => undefined
  | fn name => fn name

/-- The fields of a tuple with their cells moved up. -/
def shiftAll (n : Nat) : List Value → List Value
  | [] => []
  | v :: rest => shift n v :: shiftAll n rest

end

variable (n : Nat)

@[simp] theorem shiftAll_eq (items : List Value) : shiftAll n items = items.map (shift n) := by
  induction items with
  | nil => rw [shiftAll, List.map_nil]
  | cons v rest ih => rw [shiftAll, ih, List.map_cons]

/-- A value that mentions no cells stays as it is. -/
theorem shift_eq_self {v : Value} (h : v.cells = []) : v.shift n = v := by
  induction v using inside_out with
  | h v ih =>
    cases v with
    | ref pointer => simp at h
    | tuple items =>
      simp only [cells, cellsOfAll_eq, List.flatMap_eq_nil_iff] at h
      simp only [shift, shiftAll_eq, tuple.injEq]
      calc items.map (shift n) = items.map id := List.map_congr_left fun w hw => ih w hw (h w hw)
        _ = items := List.map_id items
    | exception ty payload =>
      simp only [shift, exception.injEq, true_and]
      exact ih payload (List.mem_singleton_self _) h
    | _ => simp

theorem sameAll_shift (as bs : List Value)
    (h : ∀ a ∈ as, ∀ b, same (a.shift n) (b.shift n) = same a b) :
    sameAll (as.map (shift n)) (bs.map (shift n)) = sameAll as bs := by
  induction as generalizing bs with
  | nil => cases bs <;> simp [sameAll]
  | cons a as ih =>
    cases bs with
    | nil => simp [sameAll]
    | cons b bs =>
      obtain ⟨ha, has⟩ := List.forall_mem_cons.mp h
      simp [sameAll, ha, ih _ has]

theorem same_shift (v w : Value) : same (v.shift n) (w.shift n) = same v w := by
  induction v using inside_out generalizing w with
  | h v ih =>
    cases v with
    | ref pointer =>
      cases w with
      | ref pointer' =>
        obtain ⟨c, path⟩ := pointer
        obtain ⟨c', path'⟩ := pointer'
        rw [Bool.eq_iff_iff]
        simp [same, Pointer.shift]
      | _ => simp [same]
    | tuple items =>
      cases w with
      | tuple items' => simpa [same] using sameAll_shift n items items' ih
      | _ => simp [same]
    | exception ty payload =>
      cases w with
      | exception ty' payload' => simp [same, ih payload (List.mem_singleton_self _)]
      | _ => simp [same]
    | _ => cases w <;> simp [same]

theorem truthy_shift (v : Value) : (v.shift n).truthy = v.truthy := by
  cases v <;> simp [truthy]

theorem asInt?_shift (v : Value) : (v.shift n).asInt? = v.asInt? := by
  cases v <;> simp [asInt?]

theorem cast_shift (v : Value) (ty : Ty) : (v.shift n).cast ty = (v.cast ty).shift n := by
  cases v <;> cases ty <;> simp [cast, truthy]

end Value

theorem BinOp.eval?_shift (op : BinOp) (n : Nat) (a b : Value) :
    op.eval? (a.shift n) (b.shift n) = op.eval? a b := by
  have hsame := Value.same_shift n a b
  cases a <;> cases b <;> simp_all [eval?]

/-- The table with every value changed. -/
def Table.mapValues {κ α β : Type} (g : α → β) (t : Table κ α) : Table κ β :=
  ⟨t.entries.map fun e => (e.1, g e.2)⟩

namespace Table

variable {κ α β : Type} [DecidableEq κ] (g : α → β)

theorem get?_mapValues (t : Table κ α) (k : κ) : (t.mapValues g).get? k = (t.get? k).map g := by
  obtain ⟨entries⟩ := t
  unfold mapValues get?
  induction entries with
  | nil => rfl
  | cons e rest ih =>
    by_cases h : e.1 = k
    · simp [look, h]
    · simpa [look, h] using ih

theorem mapValues_insert (t : Table κ α) (k : κ) (a : α) :
    (t.insert k a).mapValues g = (t.mapValues g).insert k (g a) := by
  obtain ⟨entries⟩ := t
  unfold mapValues insert
  rw [Table.mk.injEq]
  induction entries with
  | nil => rfl
  | cons e rest ih =>
    by_cases h : e.1 = k
    · simp [put, h]
    · simpa [put, h] using ih

theorem mapValues_insertAll (t : Table κ α) (pairs : List (κ × α)) :
    (t.insertAll pairs).mapValues g =
      (t.mapValues g).insertAll (pairs.map fun p => (p.1, g p.2)) := by
  induction pairs generalizing t with
  | nil => rfl
  | cons p pairs ih =>
    have hrest := ih (t.insert p.1 p.2)
    rw [mapValues_insert] at hrest
    exact hrest

end Table

/-- The thrown value with its cells moved up. -/
def Thrown.shift (n : Nat) (thrown : Thrown) : Thrown :=
  { thrown with payload := thrown.payload.shift n }

/-- The call's record with its cells moved up. -/
def CallRecord.shift (n : Nat) (r : CallRecord) : CallRecord :=
  { r with args := r.args.map (Value.shift n) }

/-- The call's answer with its cells moved up. -/
def CallResult.shift (n : Nat) : CallResult → CallResult
  | .ok values => .ok (values.map (Value.shift n))
  | .error thrown => .error (thrown.shift n)

/-- The run's end with its cells moved up. -/
def Outcome.shift (n : Nat) : Outcome → Outcome
  | .returned value => .returned (value.map (Value.shift n))
  | .threw thrown => .threw (thrown.shift n)

/-- The frame with its cells moved up. -/
def Frame.shift (n : Nat) (fr : Frame) : Frame :=
  { fr with
    values := fr.values.mapValues (Value.shift n)
    inFlight := fr.inFlight.map (Thrown.shift n) }

/-- What a block passes on with its cells moved up. -/
def Flow.shift (n : Nat) : Flow → Flow
  | .next fr => .next (fr.shift n)
  | .call fr site callee args => .call (fr.shift n) site callee (args.map (Value.shift n))
  | .done outcome => .done (outcome.shift n)

/-- Suspended callers with their frames shifted. -/
def shiftCallers (n : Nat) (callers : List (Frame × CallSite)) : List (Frame × CallSite) :=
  callers.map fun c => (c.1.shift n, c.2)

/-- Where a run stands with its cells moved up. -/
def Progress.shift (n : Nat) : Progress → Progress
  | .running fr callers => .running (fr.shift n) (shiftCallers n callers)
  | .finished outcome => .finished (outcome.shift n)

namespace RunError

/-- The error with the values and cells it mentions shifted. -/
def shift (n : Nat) : RunError → RunError
  | notReference found op => notReference (found.shift n) op
  | notFunction found op => notFunction (found.shift n) op
  | notException found op => notException (found.shift n) op
  | undefinedOperation lhs operator rhs op =>
    undefinedOperation (lhs.shift n) operator (rhs.shift n) op
  | notInteger found op => notInteger (found.shift n) op
  | dangling cell => dangling (cell + n)
  | noField index inside => noField index (inside.shift n)
  | e => e

/-- A result with its error or, by `g`, its value shifted. -/
def carry {α β : Type} (n : Nat) (g : α → β) : Except RunError α → Except RunError β
  | .ok a => .ok (g a)
  | .error e => .error (e.shift n)

variable {α β γ δ : Type} {n : Nat}

theorem carry_bind {g : α → β} {g' : γ → δ} {x : Except RunError α} {y : Except RunError β}
    {k : α → Except RunError γ} {k' : β → Except RunError δ} (h : y = carry n g x)
    (hk : ∀ a, k' (g a) = carry n g' (k a)) : (y >>= k') = carry n g' (x >>= k) := by
  subst h
  cases x with
  | ok a => exact hk a
  | error e => rfl

theorem carry_map {g : α → β} {g' : γ → δ} {x : Except RunError α} {y : Except RunError β}
    {k : α → γ} {k' : β → δ} (h : y = carry n g x) (hk : ∀ a, k' (g a) = g' (k a)) :
    k' <$> y = carry n g' (k <$> x) := by
  subst h
  cases x with
  | ok a => exact congrArg Except.ok (hk a)
  | error e => rfl

theorem ofNode_eq_carry (a : Option α) : ofNode a = carry n id (ofNode a) := by
  cases a with
  | some a => rfl
  | none => rfl

end RunError

open RunError (carry)

/-! ## Cells and frames -/

namespace Value

variable (n : Nat)

theorem shift_follow (v : Value) (path : List Nat) :
    (v.shift n).follow path = carry n (shift n) (v.follow path) := by
  induction path generalizing v with
  | nil => simp [follow, carry]
  | cons index path ih =>
    cases v with
    | tuple items =>
      simp only [shift, shiftAll_eq, follow, List.getElem?_map]
      cases items[index]? with
      | none => simp [carry, RunError.shift]
      | some item => exact ih item
    | _ => simp [follow, carry, RunError.shift]

theorem shift_replace (v new : Value) (path : List Nat) :
    (v.shift n).replace (new.shift n) path = carry n (shift n) (v.replace new path) := by
  induction path generalizing v with
  | nil => simp [replace, carry]
  | cons index path ih =>
    cases v with
    | tuple items =>
      simp only [shift, shiftAll_eq, replace, List.getElem?_map]
      cases items[index]? with
      | none => simp [carry, RunError.shift]
      | some item =>
        refine RunError.carry_map (ih item) fun item' => ?_
        simp [List.map_set]
    | _ => simp [replace, carry, RunError.shift]

end Value

namespace Frame

variable (n : Nat) (fr : Frame) (op : OpId) (d : Op)

theorem shift_get (v : ValueId) : (fr.shift n).get v = carry n (Value.shift n) (fr.get v) := by
  unfold get shift
  rw [Table.get?_mapValues]
  cases fr.values.get? v with
  | some value => rfl
  | none => rfl

theorem shift_typeOf (v : ValueId) : (fr.shift n).typeOf v = carry n id (fr.typeOf v) :=
  RunError.carry_map (RunError.ofNode_eq_carry _) fun _ => rfl

theorem shift_operand (index : Nat) :
    (fr.shift n).operand op d index = carry n (Value.shift n) (fr.operand op d index) := by
  unfold operand
  cases d.operands[index]? with
  | some v => exact shift_get n fr v
  | none => rfl

theorem shift_operands (start : Nat) :
    (fr.shift n).operands d start = carry n (List.map (Value.shift n)) (fr.operands d start) := by
  unfold operands
  induction d.operands.drop start with
  | nil => rfl
  | cons v rest ih =>
    rw [List.mapM_cons, List.mapM_cons]
    exact RunError.carry_bind (shift_get n fr v) fun value =>
      RunError.carry_bind ih fun values => rfl

theorem shift_pointer (index : Nat) :
    (fr.shift n).pointer op d index =
      carry n (Pointer.shift n) (fr.pointer op d index) := by
  refine RunError.carry_bind (shift_operand n fr op d index) fun v => ?_
  cases v with
  | ref pointer => simp [carry, pure, Except.pure]
  | _ => simp [carry, RunError.shift, throw, throwThe, MonadExceptOf.throw]

theorem shift_calleeName : (fr.shift n).calleeName op d = carry n id (fr.calleeName op d) := by
  refine RunError.carry_bind (shift_operand n fr op d 0) fun v => ?_
  cases v with
  | fn name => simp [carry, pure, Except.pure]
  | _ => simp [carry, RunError.shift, throw, throwThe, MonadExceptOf.throw]

theorem shift_exception :
    (fr.shift n).exception op d = carry n (Thrown.shift n) (fr.exception op d) := by
  refine RunError.carry_bind (shift_operand n fr op d 0) fun v => ?_
  cases v with
  | exception ty payload => simp [carry, pure, Except.pure, Thrown.shift]
  | _ => simp [carry, RunError.shift, throw, throwThe, MonadExceptOf.throw]

theorem shift_raised : (fr.shift n).raised op d = carry n (Thrown.shift n) (fr.raised op d) := by
  unfold raised
  cases d.operands with
  | nil => rfl
  | cons v rest =>
    refine RunError.carry_bind (shift_get n fr v) fun value => ?_
    have thrown : ∀ payload : Value, (do
        let ty ← (fr.shift n).typeOf v
        return { ty, payload := payload.shift n } : Except RunError Thrown) =
        carry n (Thrown.shift n) (do let ty ← fr.typeOf v; return { ty, payload }) := fun payload =>
      RunError.carry_bind (shift_typeOf n fr v) fun ty => rfl
    cases value with
    | exception ty payload => simp [carry, pure, Except.pure, Thrown.shift]
    | ref pointer => simpa using thrown (.ref pointer)
    | tuple items => simpa using thrown (.tuple items)
    | unit => exact thrown .unit
    | bool value => exact thrown (.bool value)
    | int value => exact thrown (.int value)
    | float value => exact thrown (.float value)
    | str value => exact thrown (.str value)
    | null => exact thrown .null
    | undefined => exact thrown .undefined
    | fn name => exact thrown (.fn name)

theorem shift_define (value : Value) :
    (fr.shift n).define op d (value.shift n) = carry n (shift n) (fr.define op d value) := by
  unfold define
  cases d.results with
  | nil => rfl
  | cons v rest => simp [carry, shift, Table.mapValues_insert]

theorem map_zip_shift (vs : List ValueId) (values : List Value) :
    vs.zip (values.map (Value.shift n)) =
      (vs.zip values).map fun p => (p.1, p.2.shift n) := by
  rw [List.zip_map_right]
  rfl

theorem shift_defineAll (values : List Value) :
    (fr.shift n).defineAll d (values.map (Value.shift n)) = (fr.defineAll d values).shift n := by
  unfold defineAll shift
  dsimp only
  rw [Table.mapValues_insertAll, ← map_zip_shift]
  simp

theorem shift_enter (block : BlockId) (args : List Value) :
    (fr.shift n).enter block (args.map (Value.shift n)) =
      carry n (shift n) (fr.enter block args) := by
  refine RunError.carry_bind (RunError.ofNode_eq_carry _) fun d => ?_
  simp only [id, List.length_map]
  split
  · rfl
  · simp [carry, shift, Table.mapValues_insertAll, map_zip_shift, pure, Except.pure]

theorem shift_unwind (pad : BlockId) (thrown : Thrown) :
    (fr.shift n).unwind pad (thrown.shift n) = carry n (shift n) (fr.unwind pad thrown) :=
  shift_enter n { fr with inFlight := some thrown } pad []

theorem shift_start (f : Func) (args : List Value) :
    Frame.start f (args.map (Value.shift n)) = carry n (shift n) (Frame.start f args) := by
  refine RunError.carry_bind (RunError.ofNode_eq_carry _) fun body => ?_
  dsimp only [id]
  cases body.blocks with
  | nil => rfl
  | cons entry rest => exact shift_enter n { func := f, block := entry } entry args

end Frame

namespace Machine

theorem shift_initialValue (n : Nat) (fr : Frame) (d : Op) :
    initialValue (fr.shift n) d = carry n (Value.shift n) (initialValue fr d) := by
  unfold initialValue
  cases d.operands with
  | cons init rest => exact Frame.shift_get n fr init
  | nil =>
    cases d.results with
    | nil => simp [carry, pure, Except.pure]
    | cons result rest =>
      refine RunError.carry_bind (Frame.shift_typeOf n fr result) fun ty => ?_
      have hplain : ∀ inner : Option Ty,
          Value.shift n ((inner.map Value.initial).getD .undefined) =
            (inner.map Value.initial).getD .undefined := by
        intro inner
        cases inner with
        | none => simp
        | some inner => exact Value.shift_eq_self n (by simp)
      exact congrArg Except.ok (hplain _).symm

theorem shift_resume (n : Nat) (fr : Frame) (site : CallSite) (result : CallResult) :
    resume (fr.shift n) site (result.shift n) = carry n (Flow.shift n) (resume fr site result) := by
  cases result with
  | ok values =>
    unfold resume
    simp only [CallResult.shift, Frame.shift_defineAll]
    cases site.edges with
    | none => rfl
    | some edges =>
      exact RunError.carry_map (Frame.shift_enter n _ edges.1 []) fun _ => rfl
  | error thrown =>
    unfold resume
    simp only [CallResult.shift]
    cases site.edges with
    | none => rfl
    | some edges => exact RunError.carry_map (Frame.shift_unwind n fr edges.2 thrown) fun _ => rfl

theorem shift_advance (n : Nat) (callers : List (Frame × CallSite)) (flow : Flow) :
    advance (shiftCallers n callers) (flow.shift n) =
      carry n (Progress.shift n) (advance callers flow) := by
  induction callers generalizing flow with
  | nil =>
    cases flow with
    | next fr => rfl
    | call fr site callee args =>
      exact RunError.carry_bind (Frame.shift_start n callee args) fun _ => rfl
    | done outcome => rfl
  | cons caller callers ih =>
    cases flow with
    | next fr => rfl
    | call fr site callee args =>
      exact RunError.carry_bind (Frame.shift_start n callee args) fun _ => rfl
    | done outcome =>
      have hresult : callResult (outcome.shift n) = (callResult outcome).shift n := by
        cases outcome with
        | returned value => cases value <;> rfl
        | threw thrown => rfl
      refine RunError.carry_bind ?_ ih
      rw [← shift_resume, ← hresult]

end Machine

end Unnest
