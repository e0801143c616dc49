import Unnest.Proofs.Results
import Unnest.Run.Machine
/-!
# Failing ops

How the parts of an op can fail. Most failures are due to the values at hand (`RunError.isPlain`);
the others are those of control and a missing node, and only a few readings can end in one of these.
`Fails E x` says that the reading `x` fails as `E` allows, `Yields x Q E` says the same of a
computation on stores and says what it gives. `runInstr_yields` is the case of instructions: they
leave the frame where it is, so what they give and how they fail follows from what defining a
result, asking for a type and calling do.
-/

namespace Unnest

variable {α β : Type}

/-- Control ran off the end of a block, met a construct, or entered a block with the wrong number of
arguments. -/
def RunError.isControl : RunError → Bool
  | .fellOff _ | .structuredOp .. | .arity .. => true
  | _ => false

/-- A failure due to the values at hand: neither control nor a missing node is to blame. -/
def RunError.isPlain : RunError → Bool
  | .fellOff _ | .structuredOp .. | .arity .. | .outOfRange => false
  | _ => true

/-- `x` fails only as `E` allows. -/
def RunError.Fails (E : RunError → Prop) (x : Except RunError α) : Prop := ∀ e, x = .error e → E e

namespace RunError.Fails

variable {E : RunError → Prop}

theorem ok (a : α) : Fails E (.ok a) := fun _ h => by cases h

theorem error {e : RunError} (h : E e) : Fails E (.error e : Except RunError α) :=
  fun _ he => by cases he; exact h

theorem bind {x : Except RunError α} {k : α → Except RunError β} (h : Fails E x)
    (hk : ∀ a, x = .ok a → Fails E (k a)) : Fails E (x >>= k) := by
  cases x with
  | ok a => exact hk a rfl
  | error e => exact error (h e rfl)

theorem map {x : Except RunError α} {g : α → β} (h : Fails E x) : Fails E (g <$> x) := by
  cases x with
  | ok a => exact ok _
  | error e => exact error (h e rfl)

theorem mapM {l : List α} {k : α → Except RunError β} (h : ∀ a, Fails E (k a)) :
    Fails E (l.mapM k) := by
  induction l with
  | nil => exact ok _
  | cons a l ih =>
    rw [List.mapM_cons]
    exact (h a).bind fun _ _ => ih.bind fun _ _ => ok _

/-- Asking for a node fails only if there is none. -/
theorem ofNode {o : Option α} (h : o = none → E .outOfRange) : Fails E (RunError.ofNode o) := by
  cases o with
  | none => exact error (h rfl)
  | some a => exact ok a

end RunError.Fails

open RunError (Fails)

theorem RunError.ofNode_eq_ok {o : Option α} {a : α} (h : RunError.ofNode o = .ok a) :
    o = some a := by
  cases o with
  | none => cases h
  | some b => cases h; rfl

/-! ## Frames -/

namespace Frame

variable {fr : Frame} {b : BlockId} {args : List Value}

theorem eq_of_enter {fr' : Frame} (h : fr.enter b args = .ok fr') :
    ∃ bd, fr.func.block? b = some bd ∧ bd.args.length = args.length ∧
      fr' = { fr with values := fr.values.insertAll (bd.args.zip args), block := b,
                      rest := bd.ops } := by
  unfold enter at h
  obtain ⟨bd, hbd, h⟩ := Except.bind_eq_ok h
  refine ⟨bd, RunError.ofNode_eq_ok hbd, ?_⟩
  split at h
  · cases h
  · rename_i hlen
    cases h
    exact ⟨not_not.mp hlen, rfl⟩

/-- Entering a block fails if there is none or the number of arguments is wrong. -/
theorem enter_error {e : RunError} (h : fr.enter b args = .error e) :
    (fr.func.block? b = none ∧ e = .outOfRange) ∨
      ∃ bd, fr.func.block? b = some bd ∧ bd.args.length ≠ args.length ∧
        e = .arity b bd.args.length args.length := by
  unfold enter at h
  cases hbd : fr.func.block? b with
  | none =>
    rw [hbd] at h
    cases h
    exact .inl ⟨rfl, rfl⟩
  | some bd =>
    rw [hbd] at h
    change (if bd.args.length ≠ args.length then _ else _) = Except.error e at h
    split at h
    · rename_i hne
      cases h
      exact .inr ⟨bd, rfl, hne, rfl⟩
    · cases h

variable {f : Func} {rd : Region}

theorem start_of_none (h : f.region? f.body = none) :
    Frame.start f args = .error .outOfRange := by
  unfold Frame.start
  rw [h]
  rfl

theorem start_of_nil (h : f.region? f.body = some rd) (hb : rd.blocks = []) :
    Frame.start f args = .error (.noBody f.name) := by
  obtain ⟨blocks, parent⟩ := rd
  cases hb
  unfold Frame.start
  rw [h]
  rfl

theorem start_of_cons {rest : List BlockId} (h : f.region? f.body = some rd)
    (hb : rd.blocks = b :: rest) :
    Frame.start f args = Frame.enter { func := f, block := b } b args := by
  obtain ⟨blocks, parent⟩ := rd
  cases hb
  unfold Frame.start
  rw [h]
  rfl

end Frame

section

variable {E : RunError → Prop} (hE : ∀ e, e.isPlain = true → E e)

include hE

namespace Frame

variable (fr : Frame) (op : OpId) (d : Op)

theorem get_fails (v : ValueId) : Fails E (fr.get v) := by
  unfold get
  split
  · exact .ok _
  · exact .error (hE _ rfl)

theorem operand_fails (index : Nat) : Fails E (fr.operand op d index) := by
  unfold operand
  split
  · exact fr.get_fails hE _
  · exact .error (hE _ rfl)

theorem operands_fails (start : Nat) : Fails E (fr.operands d start) := .mapM (fr.get_fails hE)

theorem pointer_fails (index : Nat) : Fails E (fr.pointer op d index) :=
  (fr.operand_fails hE op d index).bind fun v _ => by
    split
    · exact .ok _
    · exact .error (hE _ rfl)

theorem calleeName_fails : Fails E (fr.calleeName op d) :=
  (fr.operand_fails hE op d 0).bind fun v _ => by
    split
    · exact .ok _
    · exact .error (hE _ rfl)

theorem exception_fails : Fails E (fr.exception op d) :=
  (fr.operand_fails hE op d 0).bind fun v _ => by
    split
    · exact .ok _
    · exact .error (hE _ rfl)

/-- Raising a value asks for the type of one that is defined. -/
theorem raised_fails (hty : ∀ v w, fr.values.get? v = some w → Fails E (fr.typeOf v)) :
    Fails E (fr.raised op d) := by
  unfold raised
  split
  · exact .error (hE _ rfl)
  · rename_i v _ _
    refine (fr.get_fails hE v).bind fun w hw => ?_
    have hw : fr.values.get? v = some w := by
      unfold get at hw
      split at hw
      · rename_i h
        cases hw
        exact h
      · cases hw
    split
    · exact .ok _
    · exact (hty v w hw).bind fun _ _ => .ok _

end Frame

theorem Machine.initialValue_fails (fr : Frame) (d : Op)
    (hty : ∀ v ∈ d.results, Fails E (fr.typeOf v)) : Fails E (Machine.initialValue fr d) := by
  unfold Machine.initialValue
  split
  · exact fr.get_fails hE _
  · exact .ok _
  · rename_i v rest _ hresults
    exact (hty v (by simp [hresults])).bind fun _ _ => .ok _

theorem Value.follow_fails (v : Value) (path : List Nat) : Fails E (v.follow path) := by
  induction path generalizing v with
  | nil => exact .ok _
  | cons index path ih =>
    unfold follow
    split
    · split
      · exact ih _
      · exact .error (hE _ rfl)
    · exact .error (hE _ rfl)

theorem Value.replace_fails (v new : Value) (path : List Nat) : Fails E (v.replace new path) := by
  induction path generalizing v with
  | nil => exact .ok _
  | cons index path ih =>
    unfold replace
    split
    · split
      · exact .map (ih _)
      · exact .error (hE _ rfl)
    · exact .error (hE _ rfl)

end

/-! ## Computations on stores -/

/-- From every store, `x` gives what `Q` asks or fails as `E` asks. -/
def Exec.Yields (x : Exec α) (Q : α → Prop) (E : RunError → Prop) : Prop :=
  ∀ s, match x s with
    | .ok a _ => Q a
    | .error e _ => E e

namespace Exec.Yields

variable {Q : α → Prop} {E : RunError → Prop}

theorem pure {a : α} (h : Q a) : Yields (Pure.pure a) Q E := fun _ => h

theorem throw {e : RunError} (h : E e) : Yields (MonadExcept.throw e) Q E := fun _ => h

theorem lift {x : Except RunError α} (hok : ∀ a, x = .ok a → Q a) (herr : Fails E x) :
    Yields (liftM x) Q E := by
  cases x with
  | ok a => exact fun _ => hok a rfl
  | error e => exact fun _ => herr e rfl

theorem bind {x : Exec β} {k : β → Exec α} {P : β → Prop} (h : Yields x P E)
    (hk : ∀ b, P b → Yields (k b) Q E) : Yields (x >>= k) Q E := by
  intro s
  have hs := h s
  cases hx : x s with
  | ok b t =>
    rw [hx] at hs
    rw [bind_of_ok hx]
    exact hk b hs t
  | error e t =>
    rw [hx] at hs
    rw [bind_of_error hx]
    exact hs

/-- A reading, with what it gave. -/
theorem read {x : Except RunError β} {k : β → Exec α} (h : Fails E x)
    (hk : ∀ b, x = .ok b → Yields (k b) Q E) : Yields (liftM x >>= k) Q E :=
  bind (P := fun b => x = .ok b) (lift (fun _ => id) h) hk

end Exec.Yields

namespace Machine

open Exec

variable {E : RunError → Prop} (hE : ∀ e, e.isPlain = true → E e)

include hE

theorem read_yields (pointer : Pointer) : Yields (read pointer) (fun _ => True) E := by
  intro s
  refine Yields.lift (fun _ _ => trivial) (fun e he => ?_) s
  unfold Heap.read at he
  split at he
  · exact Value.follow_fails hE _ _ e he
  · cases he
    exact hE _ rfl

theorem write_yields (pointer : Pointer) (v : Value) :
    Yields (write pointer v) (fun _ => True) E := by
  intro s
  refine Yields.read (Q := fun _ => True) (k := fun heap => modify fun s => { s with heap })
    (fun e he => ?_) (fun _ _ _ => trivial) s
  unfold Heap.write at he
  split at he
  · exact Fails.map (Value.replace_fails hE _ _ _) e he
  · cases he
    exact hE _ rfl

variable {p : Program} {fr : Frame} {op : OpId} {d : Op} {Q : Flow → Prop}

theorem define_yields
    (hset : ∀ v ∈ d.results, ∀ w, Q (.next { fr with values := fr.values.insert v w }))
    (w : Value) :
    Yields (do return .next (← fr.define op d w)) Q E := by
  refine .bind (P := fun fr' => Q (.next fr')) ?_ fun _ h => .pure h
  unfold Frame.define
  split
  · exact .throw (hE _ rfl)
  · rename_i v rest hresults
    exact .pure (hset v (by simp [hresults]) w)

/-- An instruction leaves the frame where it is, up to the value of its result and the exception
being handled. -/
theorem runInstr_yields
    (hset : ∀ v ∈ d.results, ∀ w, Q (.next { fr with values := fr.values.insert v w }))
    (hflight : ∀ inFlight, Q (.next { fr with inFlight }))
    (hty : ∀ v ∈ d.results, Fails E (fr.typeOf v))
    (hcall : ∀ callee args, Yields (call p fr { op := d } callee args) Q E) (i : Instr) :
    Yields (runInstr p fr op d i) Q E := by
  have defined (w : Value) : Yields (do return .next (← fr.define op d w)) Q E :=
    define_yields hE hset w
  cases i with
  | constant | null | undefined => exact defined _
  | alloc =>
    exact .read (initialValue_fails hE fr d hty) fun v _ => .bind (P := fun _ => True)
      (fun _ => trivial) fun _ _ => defined _
  | load =>
    exact .read (fr.pointer_fails hE op d 0) fun pointer _ =>
      .bind (read_yields hE pointer) fun v _ => defined v
  | store | saveCatch =>
    exact .read (fr.operand_fails hE op d 0) fun v _ =>
      .read (fr.pointer_fails hE op d 1) fun pointer _ =>
        .bind (write_yields hE pointer v) fun _ _ => .pure (hflight fr.inFlight)
  | fieldRef index => exact .read (fr.pointer_fails hE op d 0) fun _ _ => defined _
  | cast =>
    refine .read (fr.operand_fails hE op d 0) fun v _ => ?_
    cases hresults : d.results with
    | nil => exact .throw (hE _ rfl)
    | cons result rest =>
      exact .read (hty result (by simp [hresults])) fun _ _ => defined _
  | binary operator =>
    refine .read (fr.operand_fails hE op d 0) fun lhs _ =>
      .read (fr.operand_fails hE op d 1) fun rhs _ => ?_
    cases operator.eval? lhs rhs with
    | some v => exact defined v
    | none => exact .throw (hE _ rfl)
  | call callee => exact .read (fr.operands_fails hE d 0) fun args _ => hcall callee args
  | callIndirect =>
    exact .read (fr.calleeName_fails hE op d) fun callee _ =>
      .read (fr.operands_fails hE d 1) fun args _ => hcall callee args
  | landingPad =>
    unfold runInstr
    cases fr.inFlight with
    | some thrown => exact defined _
    | none => exact .throw (hE _ rfl)
  | matchType | beginCatch => exact .read (fr.exception_fails hE op d) fun _ _ => defined _
  | endCatch => exact .pure (hflight none)
  | beginCleanup => exact .pure (hflight fr.inFlight)

end Machine

end Unnest
