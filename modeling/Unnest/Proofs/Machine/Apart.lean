import Unnest.Proofs.Machine.Grounded
import Unnest.Proofs.Machine.Shift
/-!
# Runs on one machine keep apart

A run from a heap whose first cells are left from before goes as the run from an empty heap does,
with the number of the old cells added to every cell it mentions (`Beside`). The old cells are out
of its reach, as nothing from outside points to them. `Mirrors` says this of two computations, with
one rule for each way to compose them; `runOp_mirrors` is the case of an op, and `run_apart` that of
calls from outside.
-/

namespace Unnest

open RunError (carry)

/-- A function of a host that returns or throws always the same, without pointers, or returns its
arguments. -/
def HostFn.Plain (f : HostFn) : Prop :=
  (∃ values : List Value, (∀ v ∈ values, v.cells = []) ∧
    f.answer = (HostFn.returning values).answer) ∨
  (∃ thrown : Thrown, thrown.payload.cells = [] ∧ f.answer = (HostFn.throwing thrown).answer) ∨
  f.answer = HostFn.echo.answer

/-- All functions of the host are plain. -/
def Host.Plain (h : Host) : Prop := ∀ name f, h.functions.get? name = some f → f.Plain

theorem HostFn.Plain.shift {f : HostFn} (h : f.Plain) (n : Nat) (past past' : Array (List Value))
    (args : List Value) :
    f.answer past' (args.map (Value.shift n)) = (f.answer past args).shift n := by
  obtain ⟨values, hvalues, hf⟩ | ⟨thrown, hthrown, hf⟩ | hf := h
  · have hsame : values.map (Value.shift n) = values.map id :=
      List.map_congr_left fun v hv => Value.shift_eq_self n (hvalues v hv)
    rw [List.map_id] at hsame
    rw [hf]
    exact congrArg Except.ok hsame.symm
  · have hsame : thrown.shift n = thrown := by
      unfold Thrown.shift
      rw [Value.shift_eq_self n hthrown]
    rw [hf]
    exact congrArg Except.error hsame.symm
  · rw [hf]
    rfl

theorem Host.Plain.of_alike {h h' : Host} (hplain : h.Plain) (halike : h.Alike h') : h'.Plain := by
  intro name f hf
  have hname := halike name
  rw [hf] at hname
  obtain ⟨g, hg, hfg⟩ := Option.map_eq_some_iff.mp hname
  have hplain' := hplain name g hg
  unfold HostFn.Plain at *
  rwa [hfg] at hplain'

/-! ## Two stores -/

/-- The store `t` is `s` with everything shifted behind what `old` holds. The log of `s` started
with that of `fresh`. -/
structure Beside (fresh : Host) (old s t : Store) : Prop where
  heap : t.heap = old.heap ++ s.heap.map (Value.shift old.heap.size)
  log : ∃ new, s.host.log = fresh.log ++ new ∧
    t.host.log = old.host.log ++ new.map (CallRecord.shift old.heap.size)
  steps : t.steps = s.steps
  alike : s.host.Alike t.host
  plain : s.host.Plain

namespace Beside

variable {fresh : Host} {old s t : Store}

theorem getElem?_heap (h : Beside fresh old s t) (c : Nat) :
    t.heap[c + old.heap.size]? = s.heap[c]?.map (Value.shift old.heap.size) := by
  rw [h.heap, Array.getElem?_append_right (Nat.le_add_left _ _), Nat.add_sub_cancel,
    Array.getElem?_map]

theorem size_heap (h : Beside fresh old s t) : t.heap.size = s.heap.size + old.heap.size := by
  rw [h.heap, Array.size_append, Array.size_map, Nat.add_comm]

theorem counted (h : Beside fresh old s t) :
    Beside fresh old (Machine.counted s) (Machine.counted t) :=
  ⟨h.heap, h.log, congrArg (· + 1) h.steps, h.alike, h.plain⟩

theorem allocates (h : Beside fresh old s t) (v : Value) :
    Beside fresh old { s with heap := (s.heap.allocate v).2 }
      { t with heap := (t.heap.allocate (v.shift old.heap.size)).2 } := by
  refine ⟨?_, h.log, h.steps, h.alike, h.plain⟩
  change t.heap.push _ = old.heap ++ (s.heap.push v).map _
  rw [h.heap, Array.map_push, Array.append_push]

theorem shift_read (h : Beside fresh old s t) (pointer : Pointer) :
    t.heap.read (pointer.shift old.heap.size) =
      carry old.heap.size (Value.shift old.heap.size) (s.heap.read pointer) := by
  unfold Heap.read
  rw [show (pointer.shift old.heap.size).cell = pointer.cell + old.heap.size from rfl,
    h.getElem?_heap]
  cases s.heap[pointer.cell]? with
  | none => rfl
  | some v => exact Value.shift_follow old.heap.size v pointer.path

theorem shift_write (h : Beside fresh old s t) (pointer : Pointer) (v : Value) :
    t.heap.write (pointer.shift old.heap.size) (v.shift old.heap.size) =
      carry old.heap.size (fun heap : Heap => old.heap ++ heap.map (Value.shift old.heap.size))
        (s.heap.write pointer v) := by
  unfold Heap.write
  rw [show (pointer.shift old.heap.size).cell = pointer.cell + old.heap.size from rfl,
    h.getElem?_heap]
  cases s.heap[pointer.cell]? with
  | none => rfl
  | some held =>
    refine RunError.carry_map (Value.shift_replace old.heap.size held v pointer.path) fun new => ?_
    rw [h.heap, Array.setIfInBounds_append_right (Nat.le_add_left _ _), Nat.add_sub_cancel,
      Array.map_setIfInBounds]

theorem asks (h : Beside fresh old s t) (callee : String) (args : List Value) :
    (t.host.call callee (args.map (Value.shift old.heap.size))).1 =
        (s.host.call callee args).1.shift old.heap.size ∧
      Beside fresh old { s with host := (s.host.call callee args).2 }
        { t with host := (t.host.call callee (args.map (Value.shift old.heap.size))).2 } := by
  have hanswer : (t.host.call callee (args.map (Value.shift old.heap.size))).1 =
      (s.host.call callee args).1.shift old.heap.size := by
    have hname := h.alike callee
    cases hf : s.host.functions.get? callee with
    | none =>
      rw [hf, Option.map_none, eq_comm, Option.map_eq_none_iff] at hname
      rw [Host.call_of_none hf, Host.call_of_none hname]
      rfl
    | some f =>
      rw [hf, Option.map_some, eq_comm] at hname
      obtain ⟨g, hg, hfg⟩ := Option.map_eq_some_iff.mp hname
      rw [Host.call_of_some hf, Host.call_of_some hg, hfg]
      exact (h.plain callee f hf).shift old.heap.size f.past g.past args
  have halike : ∀ callee args, s.host.Alike (s.host.call callee args).2 :=
    Host.alike_call s.host
  refine ⟨hanswer, h.heap, ?_, h.steps, fun name => ?_, h.plain.of_alike (halike callee args)⟩
  · obtain ⟨new, hs, ht⟩ := h.log
    refine ⟨new.push ⟨callee, args⟩, ?_, ?_⟩
    · rw [Host.log_call, hs, Array.append_push]
    · rw [Host.log_call, ht, Array.map_push, Array.append_push]
      rfl
  · exact ((halike callee args name).symm.trans (h.alike name)).trans
      (Host.alike_call t.host callee _ name)

end Beside

/-! ## Two computations -/

namespace Exec

variable {α β γ δ : Type} {fresh : Host} {old : Store}

/-- From stores side by side, `y` does what `x` does, shifted. -/
def Mirrors (fresh : Host) (old : Store) (g : α → β) (x : Exec α) (y : Exec β) : Prop :=
  ∀ s t, Beside fresh old s t →
    (∃ a s' t', x s = .ok a s' ∧ y t = .ok (g a) t' ∧ Beside fresh old s' t') ∨
    ∃ e s' t', x s = .error e s' ∧ y t = .error (e.shift old.heap.size) t' ∧
      Beside fresh old s' t'

namespace Mirrors

theorem pure {g : α → β} {a : α} {b : β} (h : b = g a) :
    Mirrors fresh old g (Pure.pure a) (Pure.pure b) := by
  intro s t hst
  exact .inl ⟨a, s, t, rfl, congrArg (EStateM.Result.ok · t) h, hst⟩

theorem throw {g : α → β} {e e' : RunError} (h : e' = e.shift old.heap.size) :
    Mirrors fresh old g (MonadExcept.throw e) (MonadExcept.throw e') := by
  intro s t hst
  exact .inr ⟨e, s, t, rfl, congrArg (EStateM.Result.error · t) h, hst⟩

theorem lift {g : α → β} {x : Except RunError α} {y : Except RunError β}
    (h : y = carry old.heap.size g x) :
    Mirrors fresh old g (liftM x) (liftM y) := by
  intro s t hst
  subst h
  cases x with
  | ok a => exact .inl ⟨a, s, t, rfl, rfl, hst⟩
  | error e => exact .inr ⟨e, s, t, rfl, rfl, hst⟩

theorem bind {g : α → β} {g' : γ → δ} {x : Exec α} {y : Exec β} {k : α → Exec γ} {k' : β → Exec δ}
    (h : Mirrors fresh old g x y) (hk : ∀ a, Mirrors fresh old g' (k a) (k' (g a))) :
    Mirrors fresh old g' (x >>= k) (y >>= k') := by
  intro s t hst
  change (∃ c s' t', EStateM.bind x k s = _ ∧ EStateM.bind y k' t = _ ∧ _) ∨
    ∃ e s' t', EStateM.bind x k s = _ ∧ EStateM.bind y k' t = _ ∧ _
  unfold EStateM.bind
  obtain ⟨a, s', t', hx, hy, hst'⟩ | ⟨e, s', t', hx, hy, hst'⟩ := h s t hst
  · rw [hx, hy]
    exact hk a s' t' hst'
  · rw [hx, hy]
    exact .inr ⟨e, s', t', rfl, rfl, hst'⟩

/-- A step that reads the store. -/
theorem of_get {g : α → β} {k : Store → Exec α} {k' : Store → Exec β}
    (h : ∀ s t, Beside fresh old s t →
      (∃ a s' t', k s s = .ok a s' ∧ k' t t = .ok (g a) t' ∧ Beside fresh old s' t') ∨
      ∃ e s' t', k s s = .error e s' ∧ k' t t = .error (e.shift old.heap.size) t' ∧
        Beside fresh old s' t') :
    Mirrors fresh old g (get >>= k) (get >>= k') := h

end Mirrors

end Exec

namespace Machine

open Exec

variable {p : Program} {fresh : Host} {old : Store} {fr : Frame} {op : OpId} {d : Op}

theorem call_mirrors {site : CallSite} {callee : String} {args : List Value} :
    Mirrors fresh old (Flow.shift old.heap.size) (call p fr site callee args)
      (call p (fr.shift old.heap.size) site callee (args.map (Value.shift old.heap.size))) := by
  unfold call
  cases p.func? callee with
  | some f => exact .pure rfl
  | none =>
    refine .of_get fun s t hst => ?_
    obtain ⟨hanswer, hasked⟩ := hst.asks callee args
    have hresume := shift_resume old.heap.size fr site (s.host.call callee args).1
    rw [← hanswer] at hresume
    exact Mirrors.lift hresume _ _ hasked

theorem allocate_mirrors (v : Value) :
    Mirrors fresh old (Pointer.shift old.heap.size) (allocate v)
      (allocate (v.shift old.heap.size)) := by
  refine .of_get fun s t hst => .inl ⟨{ cell := s.heap.size }, _, _, rfl, ?_, hst.allocates v⟩
  have hcell : Pointer.shift old.heap.size { cell := s.heap.size } = { cell := t.heap.size } := by
    rw [hst.size_heap]
    rfl
  rw [hcell]
  rfl

theorem read_mirrors (pointer : Pointer) :
    Mirrors fresh old (Value.shift old.heap.size) (read pointer)
      (read (pointer.shift old.heap.size)) :=
  .of_get fun s t hst => Mirrors.lift (hst.shift_read pointer) s t hst

theorem write_mirrors (pointer : Pointer) (v : Value) :
    Mirrors fresh old id (write pointer v)
      (write (pointer.shift old.heap.size) (v.shift old.heap.size)) := by
  refine .of_get fun s t hst => ?_
  have hwrite := hst.shift_write pointer v
  rw [hwrite]
  cases hw : s.heap.write pointer v with
  | ok heap =>
    exact .inl ⟨(), _, _, rfl, rfl, rfl, hst.log, hst.steps, hst.alike, hst.plain⟩
  | error e => exact .inr ⟨e, _, _, rfl, rfl, hst⟩

theorem runInstr_mirrors (i : Instr) :
    Mirrors fresh old (Flow.shift old.heap.size) (runInstr p fr op d i)
      (runInstr p (fr.shift old.heap.size) op d i) := by
  have defined : ∀ {v w : Value}, w = v.shift old.heap.size →
      Mirrors fresh old (Flow.shift old.heap.size)
        (do return .next (← fr.define op d v) : Exec Flow)
        (do return .next (← (fr.shift old.heap.size).define op d w) : Exec Flow) := by
    rintro v w rfl
    exact .bind (.lift (Frame.shift_define _ fr op d v)) fun _ => .pure rfl
  have plain : ∀ {v : Value}, v.cells = [] → v = v.shift old.heap.size := fun h =>
    (Value.shift_eq_self _ h).symm
  cases i with
  | constant value => exact defined (plain (by simp))
  | null => exact defined (plain (by simp))
  | undefined => exact defined (plain (by simp))
  | alloc heap =>
    exact .bind (.lift (shift_initialValue _ fr d)) fun v =>
      .bind (allocate_mirrors v) fun pointer => defined (by simp)
  | load =>
    exact .bind (.lift (Frame.shift_pointer _ fr op d 0)) fun pointer =>
      .bind (read_mirrors pointer) fun v => defined rfl
  | store | saveCatch =>
    exact .bind (.lift (Frame.shift_operand _ fr op d 0)) fun v =>
      .bind (.lift (Frame.shift_pointer _ fr op d 1)) fun pointer =>
        .bind (write_mirrors pointer v) fun _ => .pure rfl
  | fieldRef index =>
    exact .bind (.lift (Frame.shift_pointer _ fr op d 0)) fun base =>
      defined (by simp [Pointer.shift, Pointer.field])
  | cast =>
    refine .bind (.lift (Frame.shift_operand _ fr op d 0)) fun v => ?_
    cases d.results with
    | nil => exact .throw rfl
    | cons result rest =>
      exact .bind (.lift (Frame.shift_typeOf _ fr result)) fun ty =>
        defined (Value.cast_shift _ v ty)
  | binary operator =>
    refine .bind (.lift (Frame.shift_operand _ fr op d 0)) fun lhs => ?_
    refine .bind (.lift (Frame.shift_operand _ fr op d 1)) fun rhs => ?_
    rw [BinOp.eval?_shift]
    cases hv : operator.eval? lhs rhs with
    | some v => exact defined (plain (operator.cells_eval? lhs rhs v hv))
    | none => exact .throw rfl
  | call callee =>
    exact .bind (.lift (Frame.shift_operands _ fr d 0)) fun args => call_mirrors
  | callIndirect =>
    exact .bind (.lift (Frame.shift_calleeName _ fr op d)) fun callee =>
      .bind (.lift (Frame.shift_operands _ fr d 1)) fun args => call_mirrors
  | landingPad cleanup catches =>
    unfold runInstr
    rw [show (fr.shift old.heap.size).inFlight =
      fr.inFlight.map (Thrown.shift old.heap.size) from rfl]
    cases fr.inFlight with
    | some thrown =>
      have hw : Value.exception thrown.ty (thrown.payload.shift old.heap.size) =
          (Value.exception thrown.ty thrown.payload).shift old.heap.size := by simp
      exact defined hw
    | none => exact .throw rfl
  | matchType token =>
    exact .bind (.lift (Frame.shift_exception _ fr op d)) fun thrown => defined rfl
  | beginCatch =>
    exact .bind (.lift (Frame.shift_exception _ fr op d)) fun thrown => defined rfl
  | endCatch => exact .pure rfl
  | beginCleanup => exact .pure rfl

theorem runTransfer_mirrors (t : Transfer) :
    Mirrors fresh old (Flow.shift old.heap.size) (runTransfer p fr op d t)
      (runTransfer p (fr.shift old.heap.size) op d t) := by
  have entered : ∀ {target : BlockId} {args given : List Value},
      given = args.map (Value.shift old.heap.size) →
      Mirrors fresh old (Flow.shift old.heap.size)
        (do return .next (← fr.enter target args) : Exec Flow)
        (do return .next (← (fr.shift old.heap.size).enter target given) : Exec Flow) := by
    rintro target args _ rfl
    exact .bind (.lift (Frame.shift_enter _ fr target args)) fun _ => .pure rfl
  have unwound : ∀ {pad : BlockId} {thrown : Thrown},
      Mirrors fresh old (Flow.shift old.heap.size)
        (do return .next (← fr.unwind pad thrown) : Exec Flow)
        (do return .next (← (fr.shift old.heap.size).unwind pad (thrown.shift old.heap.size)) :
          Exec Flow) := by
    intro pad thrown
    exact .bind (.lift (Frame.shift_unwind _ fr pad thrown)) fun _ => .pure rfl
  cases t with
  | br target => exact .bind (.lift (Frame.shift_operands _ fr d 0)) fun args => entered rfl
  | condBr thenTo elseTo thenArgs =>
    refine .bind (.lift (Frame.shift_operand _ fr op d 0)) fun flag => ?_
    refine .bind (.lift (Frame.shift_operands _ fr d 1)) fun args => ?_
    rw [Value.truthy_shift]
    split
    · exact entered List.map_take.symm
    · exact entered List.map_drop.symm
  | switchInt default cases =>
    refine .bind (.lift (Frame.shift_operand _ fr op d 0)) fun v => ?_
    rw [Value.asInt?_shift]
    cases v.asInt? with
    | some n => exact entered rfl
    | none => exact .throw rfl
  | invoke callee normal unwind =>
    cases callee with
    | symbol callee =>
      exact .bind (.lift (Frame.shift_operands _ fr d 0)) fun args => call_mirrors
    | indirect =>
      exact .bind (.lift (Frame.shift_calleeName _ fr op d)) fun callee =>
        .bind (.lift (Frame.shift_operands _ fr d 1)) fun args => call_mirrors
  | throwTo unwind => exact .bind (.lift (Frame.shift_raised _ fr op d)) fun thrown => unwound
  | throwOut => exact .bind (.lift (Frame.shift_raised _ fr op d)) fun thrown => .pure rfl
  | endCleanup outer =>
    refine .bind (.lift (Frame.shift_raised _ fr op d)) fun thrown => ?_
    cases outer with
    | some unwind => exact unwound
    | none => exact .pure rfl
  | ret =>
    unfold runTransfer
    cases d.operands with
    | nil => exact .pure rfl
    | cons v rest => exact .bind (.lift (Frame.shift_get _ fr v)) fun value => .pure rfl
  | unreachable => exact .throw rfl

/-- An op does the same whatever the heap holds besides. -/
theorem runOp_mirrors :
    Mirrors fresh old (Flow.shift old.heap.size) (runOp p fr op)
      (runOp p (fr.shift old.heap.size) op) := by
  refine .bind (.lift (RunError.ofNode_eq_carry _)) fun d => ?_
  dsimp only [id]
  cases d.kind with
  | instr i => exact runInstr_mirrors i
  | transfer t => exact runTransfer_mirrors t
  | construct c => exact .throw rfl

theorem step_mirrors {callers : List (Frame × CallSite)} :
    Mirrors fresh old (Progress.shift old.heap.size) (step p fr callers op)
      (step p (fr.shift old.heap.size) (shiftCallers old.heap.size callers) op) :=
  .bind runOp_mirrors fun flow => .lift (shift_advance _ callers flow)

theorem runWithin_mirrors (limit budget : Nat) (fr : Frame) (callers : List (Frame × CallSite)) :
    Mirrors fresh old (Outcome.shift old.heap.size) (runWithin p limit budget fr callers)
      (runWithin p limit budget (fr.shift old.heap.size) (shiftCallers old.heap.size callers)) := by
  induction budget generalizing fr callers with
  | zero =>
    intro s t hst
    cases hr : fr.rest with
    | nil =>
      have hr' : (fr.shift old.heap.size).rest = [] := hr
      exact .inr ⟨_, _, _, runWithin_nil hr, runWithin_nil hr', hst⟩
    | cons op rest =>
      have hr' : (fr.shift old.heap.size).rest = op :: rest := hr
      exact .inr ⟨_, _, _, runWithin_zero hr, runWithin_zero hr', hst.counted⟩
  | succ budget ih =>
    intro s t hst
    cases hr : fr.rest with
    | nil =>
      have hr' : (fr.shift old.heap.size).rest = [] := hr
      exact .inr ⟨_, _, _, runWithin_nil hr, runWithin_nil hr', hst⟩
    | cons op rest =>
      have hr' : (fr.shift old.heap.size).rest = op :: rest := hr
      have hstep : Mirrors fresh old (Progress.shift old.heap.size)
          (step p { fr with rest } callers op)
          (step p { fr.shift old.heap.size with rest } (shiftCallers old.heap.size callers) op) :=
        step_mirrors
      rw [runWithin_succ hr, runWithin_succ hr']
      refine Mirrors.bind hstep (fun progress => ?_) _ _ hst.counted
      cases progress with
      | finished outcome => exact .pure rfl
      | running fr' callers' => exact ih fr' callers'

/-- Calls from outside that are given no pointers, with a plain host, do not depend on what earlier
calls left in the heap: the call fails or has an outcome as on a new machine, and its outcome or
error, its cells and what it asked the host are those of a new machine, shifted behind the old
cells, which stay as they are. -/
theorem run_apart (p : Program) (limit : Nat) (host : Host) (s : Store) (name : String)
    (args : List Value) (hplain : host.Plain) (halike : host.Alike s.host)
    (hargs : ∀ v ∈ args, v.cells = []) :
    (∃ outcome t t', run p limit name args { host } = .ok outcome t ∧
      run p limit name args s = .ok (outcome.shift s.heap.size) t' ∧ t'.steps = t.steps ∧
      t'.heap = s.heap ++ t.heap.map (Value.shift s.heap.size) ∧
      ∃ new, t.host.log = host.log ++ new ∧
        t'.host.log = s.host.log ++ new.map (CallRecord.shift s.heap.size)) ∨
    ∃ e t t', run p limit name args { host } = .error e t ∧
      run p limit name args s = .error (e.shift s.heap.size) t' ∧
      t'.heap = s.heap ++ t.heap.map (Value.shift s.heap.size) ∧
      ∃ new, t.host.log = host.log ++ new ∧
        t'.host.log = s.host.log ++ new.map (CallRecord.shift s.heap.size) := by
  have hargs' : args.map (Value.shift s.heap.size) = args := by
    calc args.map (Value.shift s.heap.size)
      _ = args.map id := List.map_congr_left fun v hv => Value.shift_eq_self _ (hargs v hv)
      _ = args := List.map_id args
  cases hf : p.func? name with
  | none =>
    exact .inr ⟨_, _, _, run_of_none hf, run_of_none hf, by simp, #[], by simp, by simp⟩
  | some f =>
    have hstart := Frame.shift_start s.heap.size f args
    rw [hargs'] at hstart
    cases hfr : Frame.start f args with
    | error e =>
      rw [hfr] at hstart
      have he : e = e.shift s.heap.size := Except.error.inj hstart
      refine .inr ⟨e, _, { s with steps := 0 }, run_of_start_error hf hfr, ?_, by simp, #[],
        by simp, by simp⟩
      rw [← he]
      exact run_of_start_error hf hfr
    | ok fr =>
      rw [hfr] at hstart
      have hshift : fr = fr.shift s.heap.size := Except.ok.inj hstart
      have hst : Beside host s { host } { s with steps := 0 } :=
        ⟨by simp, ⟨#[], by simp, by simp⟩, rfl, halike, hplain⟩
      have hmirror := runWithin_mirrors (p := p) limit limit fr [] _ _ hst
      rw [← hshift] at hmirror
      rw [run_of_start_ok hf hfr, run_of_start_ok hf hfr]
      obtain ⟨outcome, t, t', hx, hy, hst'⟩ | ⟨e, t, t', hx, hy, hst'⟩ := hmirror
      · exact .inl ⟨outcome, t, t', hx, hy, hst'.steps, hst'.heap, hst'.log⟩
      · exact .inr ⟨e, t, t', hx, hy, hst'.heap, hst'.log⟩

/-- After a call that made a cell, another makes one behind it. -/
theorem run_apart_boxes :
    acknowledging.Plain ∧
    ∃ outcome t', run boxes 9 "box" []
      (afterCalls boxes 9 { host := acknowledging } [("box", [])]) =
      .ok (Outcome.shift 1 outcome) t' ∧ outcome.cells = [0] := by
  have hplain : acknowledging.Plain := by
    intro name f hf
    simp only [acknowledging, Host.register, Table.get?_insert, Table.get?_empty] at hf
    split at hf
    · cases hf
      exact .inl ⟨[.int 1], by simp, rfl⟩
    · cases hf
  have halike : acknowledging.Alike
      (afterCalls boxes 9 { host := acknowledging } [("box", [])]).host :=
    (worked_afterCalls boxes 9 { host := acknowledging } [("box", [])]).alike
  refine ⟨hplain, ?_⟩
  obtain ⟨outcome, t, t', hfirst, hsecond, -⟩ | ⟨e, t, t', hfirst, -⟩ :=
    run_apart boxes 9 acknowledging _ "box" [] hplain halike (List.forall_mem_nil _)
  · refine ⟨outcome, t', hsecond, ?_⟩
    have hbox : ∃ t, run boxes 9 "box" [] { host := acknowledging } =
        .ok (.returned (some (.ref { cell := 0 }))) t := ⟨_, rfl⟩
    obtain ⟨t₀, hbox⟩ := hbox
    rw [hbox] at hfirst
    cases hfirst
    simp [Outcome.cells]
  · have hbox : ∃ o t, run boxes 9 "box" [] { host := acknowledging } = .ok o t := ⟨_, _, rfl⟩
    obtain ⟨o, t₀, hbox⟩ := hbox
    rw [hbox] at hfirst
    cases hfirst

end Machine

end Unnest
