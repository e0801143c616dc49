import Mathlib
import Unnest.Run.Machine
/-!
# The budget of steps

`Executes` says what a run is without a budget: ops run one after another, over all calls together,
and the only bound is that the counter of steps is compared with the limit before each op. No rule
of it recurses on a number, so that such a run has an end is something to prove. An op touches the
heap and the host and nothing else (`runOp_touches`), so a run that goes on has one step less before
the limit, and `runWithin`, which counts the steps left, is at each op as far from its end as the
counter is from the limit (`executes_runWithin`). `calls_run` and `steps_afterCalls_le` say what
follows for calls from outside.
-/

namespace Unnest

namespace Store

/-- The changes that ops make to a store, one after another: a new cell, a write to a cell, a call
of the host. -/
inductive Touched : Store → Store → Prop
  | refl (s : Store) : Touched s s
  | allocates {s t : Store} (h : Touched s t) (v : Value) :
      Touched s { t with heap := (t.heap.allocate v).2 }
  | writes {s t : Store} {pointer : Pointer} {v : Value} {heap : Heap} (h : Touched s t)
      (hw : t.heap.write pointer v = .ok heap) : Touched s { t with heap }
  | asks {s t : Store} (h : Touched s t) (callee : String) (args : List Value) :
      Touched s { t with host := (t.host.call callee args).2 }

namespace Touched

variable {s t u : Store}

theorem trans (h : Touched s t) (h' : Touched t u) : Touched s u := by
  induction h' with
  | refl => exact h
  | allocates _ v ih => exact ih.allocates v
  | writes _ hw ih => exact ih.writes hw
  | asks _ callee args ih => exact ih.asks callee args

theorem steps_eq (h : Touched s t) : t.steps = s.steps := by
  induction h with
  | refl => rfl
  | allocates _ v ih => exact ih
  | writes _ hw ih => exact ih
  | asks _ callee args ih => exact ih

end Touched

end Store

namespace Exec

/-- The store that a run leaves. -/
def after {α : Type} (x : Exec α) (s : Store) : Store :=
  match x s with
  | .ok _ s' | .error _ s' => s'

/-- `x` changes the store as ops do. -/
def Touches {α : Type} (x : Exec α) : Prop :=
  ∀ s, Store.Touched s (x.after s)

namespace Touches

variable {α β : Type}

theorem pure (a : α) : Touches (Pure.pure a : Exec α) := fun s => .refl s

theorem throw (e : RunError) : Touches (MonadExcept.throw e : Exec α) := fun s => .refl s

theorem lift (x : Except RunError α) : Touches (liftM x : Exec α) := by
  intro s
  cases x with
  | ok a => exact .refl s
  | error e => exact .refl s

theorem bind {x : Exec α} {k : α → Exec β} (h : Touches x) (hk : ∀ a, Touches (k a)) :
    Touches (x >>= k) := by
  intro s
  have hs := h s
  have hbind : (x >>= k) s = EStateM.bind x k s := rfl
  unfold after at hs ⊢
  rw [hbind, EStateM.bind]
  cases hx : x s with
  | ok a s' =>
    rw [hx] at hs
    exact hs.trans (hk a s')
  | error e s' =>
    rw [hx] at hs
    exact hs

/-- A step that reads the store and changes it. -/
theorem update {k : Store → Exec α} (h : ∀ s, Store.Touched s ((k s).after s)) :
    Touches (get >>= k) := h

end Touches

end Exec

namespace Machine

open Exec

/-! ## What an op does to the store -/

variable {p : Program} {fr : Frame} {args : List Value}

theorem call_touches {site : CallSite} {callee : String} :
    Touches (call p fr site callee args) := by
  unfold call
  cases p.func? callee with
  | some f => exact .pure _
  | none =>
    refine .update fun s => ?_
    exact ((Store.Touched.refl s).asks callee args).trans
      (Touches.lift (resume fr site (s.host.call callee args).1) _)

theorem allocate_touches (v : Value) : Touches (allocate v) :=
  .update fun s => (Store.Touched.refl s).allocates v

theorem read_touches (pointer : Pointer) : Touches (read pointer) :=
  .update fun _ => Touches.lift _ _

theorem write_touches (pointer : Pointer) (v : Value) : Touches (write pointer v) := by
  refine .update fun s => ?_
  cases hw : s.heap.write pointer v with
  | ok heap => exact (Store.Touched.refl s).writes hw
  | error e => exact .refl s

variable {op : OpId}

theorem runInstr_touches {d : Op} (i : Instr) : Touches (runInstr p fr op d i) := by
  have defined : ∀ {v : Value}, Touches (do return .next (← fr.define op d v) : Exec Flow) :=
    .bind (.lift _) fun _ => .pure _
  cases i with
  | constant value => exact defined
  | null => exact defined
  | undefined => exact defined
  | alloc heap =>
    exact .bind (.lift _) fun v => .bind (allocate_touches v) fun _ => defined
  | load => exact .bind (.lift _) fun pointer => .bind (read_touches pointer) fun _ => defined
  | store | saveCatch =>
    exact .bind (.lift _) fun v => .bind (.lift _) fun pointer =>
      .bind (write_touches pointer v) fun _ => .pure _
  | fieldRef index => exact .bind (.lift _) fun _ => defined
  | cast =>
    refine .bind (.lift _) fun v => ?_
    cases d.results with
    | nil => exact .throw _
    | cons result rest => exact .bind (.lift _) fun _ => .bind (.lift _) fun _ => .pure _
  | binary operator =>
    refine .bind (.lift _) fun lhs => .bind (.lift _) fun rhs => ?_
    cases operator.eval? lhs rhs with
    | some v => exact defined
    | none => exact .throw _
  | call callee => exact .bind (.lift _) fun args => call_touches
  | callIndirect => exact .bind (.lift _) fun callee => .bind (.lift _) fun args => call_touches
  | landingPad cleanup catches =>
    unfold runInstr
    cases fr.inFlight with
    | some thrown => exact defined
    | none => exact .throw _
  | matchType token => exact .bind (.lift _) fun _ => defined
  | beginCatch => exact .bind (.lift _) fun _ => defined
  | endCatch => exact .pure _
  | beginCleanup => exact .pure _

theorem runTransfer_touches {d : Op} (t : Transfer) : Touches (runTransfer p fr op d t) := by
  have entered : ∀ {target : BlockId} {args : List Value},
      Touches (do return .next (← fr.enter target args) : Exec Flow) :=
    .bind (.lift _) fun _ => .pure _
  cases t with
  | br target => exact .bind (.lift _) fun _ => entered
  | condBr thenTo elseTo thenArgs =>
    refine .bind (.lift _) fun flag => .bind (.lift _) fun args => ?_
    split
    · exact entered
    · exact entered
  | switchInt default cases =>
    refine .bind (.lift _) fun v => ?_
    cases v.asInt? with
    | some n => exact entered
    | none => exact .throw _
  | invoke callee normal unwind =>
    cases callee with
    | symbol callee => exact .bind (.lift _) fun args => call_touches
    | indirect => exact .bind (.lift _) fun callee => .bind (.lift _) fun args => call_touches
  | throwTo unwind => exact .bind (.lift _) fun _ => .bind (.lift _) fun _ => .pure _
  | throwOut => exact .bind (.lift _) fun _ => .pure _
  | endCleanup outer =>
    refine .bind (.lift _) fun thrown => ?_
    cases outer with
    | some unwind => exact .bind (.lift _) fun _ => .pure _
    | none => exact .pure _
  | ret =>
    unfold runTransfer
    cases d.operands with
    | nil => exact .pure _
    | cons v rest => exact .bind (.lift _) fun _ => .pure _
  | unreachable => exact .throw _

theorem runOp_touches : Touches (runOp p fr op) := by
  refine .bind (.lift _) fun d => ?_
  cases d.kind with
  | instr i => exact runInstr_touches i
  | transfer t => exact runTransfer_touches t
  | construct c => exact .throw _

/-- Runs an op that has been counted and carries on after it. -/
def step (p : Program) (fr : Frame) (callers : List (Frame × CallSite)) (op : OpId) :
    Exec Progress := do
  advance callers (← runOp p fr op)

theorem step_touches {callers : List (Frame × CallSite)} : Touches (step p fr callers op) :=
  .bind runOp_touches fun _ => .lift _

/-! ## Runs without a budget -/

/-- The store with one more step counted. -/
def counted (s : Store) : Store := { s with steps := s.steps + 1 }

section

variable {p : Program} {fr : Frame} {callers : List (Frame × CallSite)} {op : OpId} {s s' : Store}

theorem touched_of_step_ok {progress : Progress} (h : step p fr callers op s = .ok progress s') :
    s.Touched s' := by
  have htouch : s.Touched ((step p fr callers op).after s) := step_touches s
  rwa [after, h] at htouch

theorem touched_of_step_error {e : RunError} (h : step p fr callers op s = .error e s') :
    s.Touched s' := by
  have htouch : s.Touched ((step p fr callers op).after s) := step_touches s
  rwa [after, h] at htouch

theorem steps_of_step_ok {progress : Progress}
    (h : step p fr callers op (counted s) = .ok progress s') : s'.steps = s.steps + 1 :=
  (touched_of_step_ok h).steps_eq

theorem steps_of_step_error {e : RunError}
    (h : step p fr callers op (counted s) = .error e s') : s'.steps = s.steps + 1 :=
  (touched_of_step_error h).steps_eq

end

/-- From a frame and its suspended callers, `n` ops run and then the run ends with `r`. Before each
op the counter is raised and compared with the limit. -/
inductive Executes (p : Program) (limit : Nat) : Frame → List (Frame × CallSite) → Store → Nat →
    EStateM.Result RunError Store Outcome → Prop
  | fellOff {fr : Frame} {callers : List (Frame × CallSite)} {s : Store} :
      fr.rest = [] → Executes p limit fr callers s 0 (.error (.fellOff fr.block) s)
  | exceeds {fr : Frame} {callers : List (Frame × CallSite)} {s : Store} {op : OpId}
      {rest : List OpId} : fr.rest = op :: rest → limit < s.steps + 1 →
      Executes p limit fr callers s 0 (.error (.stepLimit limit fr.func.name) (counted s))
  | fails {fr : Frame} {callers : List (Frame × CallSite)} {s s' : Store} {op : OpId}
      {rest : List OpId} {e : RunError} : fr.rest = op :: rest → s.steps + 1 ≤ limit →
      step p { fr with rest } callers op (counted s) = .error e s' →
      Executes p limit fr callers s 1 (.error e s')
  | ends {fr : Frame} {callers : List (Frame × CallSite)} {s s' : Store} {op : OpId}
      {rest : List OpId} {outcome : Outcome} : fr.rest = op :: rest → s.steps + 1 ≤ limit →
      step p { fr with rest } callers op (counted s) = .ok (.finished outcome) s' →
      Executes p limit fr callers s 1 (.ok outcome s')
  | goesOn {fr fr' : Frame} {callers callers' : List (Frame × CallSite)} {s s' : Store} {op : OpId}
      {rest : List OpId} {n : Nat} {r : EStateM.Result RunError Store Outcome} :
      fr.rest = op :: rest → s.steps + 1 ≤ limit →
      step p { fr with rest } callers op (counted s) = .ok (.running fr' callers') s' →
      Executes p limit fr' callers' s' n r → Executes p limit fr callers s (n + 1) r

/-- A call from outside: the counter starts at zero once the function is found. -/
inductive Calls (p : Program) (limit : Nat) (name : String) (args : List Value) (s : Store) :
    Nat → EStateM.Result RunError Store Outcome → Prop
  | unknown : p.func? name = none → Calls p limit name args s 0 (.error (.unknownFunction name) s)
  | refused {f : Func} {e : RunError} : p.func? name = some f → Frame.start f args = .error e →
      Calls p limit name args s 0 (.error e { s with steps := 0 })
  | started {f : Func} {fr : Frame} {n : Nat} {r : EStateM.Result RunError Store Outcome} :
      p.func? name = some f → Frame.start f args = .ok fr →
      Executes p limit fr [] { s with steps := 0 } n r → Calls p limit name args s n r

namespace Executes

variable {p : Program} {limit : Nat} {fr : Frame} {callers : List (Frame × CallSite)} {s : Store}
  {n m : Nat} {r q : EStateM.Result RunError Store Outcome}

/-- A run without a budget has one course. -/
theorem unique (h : Executes p limit fr callers s n r) (h' : Executes p limit fr callers s m q) :
    m = n ∧ q = r := by
  induction h generalizing m q with
  | fellOff hr => cases h' <;> simp_all
  | exceeds hr hl =>
    cases h' <;> simp_all
    all_goals omega
  | fails hr hl hx =>
    cases h' <;> simp_all
    omega
  | ends hr hl hx =>
    cases h' <;> simp_all
    omega
  | goesOn hr hl hx _ ih =>
    cases h' with
    | fellOff hr' => simp_all
    | exceeds hr' hl' => omega
    | fails hr' _ hx' => simp_all
    | ends hr' _ hx' => simp_all
    | goesOn hr' _ hx' h' =>
      obtain ⟨rfl, rfl⟩ := List.cons.inj (hr.symm.trans hr')
      obtain ⟨⟨rfl, rfl⟩, rfl⟩ : (_ ∧ _) ∧ _ := by simpa using hx.symm.trans hx'
      obtain ⟨rfl, rfl⟩ := ih h'
      exact ⟨rfl, rfl⟩

/-- A run that ends has counted its ops, and one that fails at most one more than the limit. -/
theorem steps_eq (h : Executes p limit fr callers s n r) :
    (∀ outcome s', r = .ok outcome s' → s'.steps = s.steps + n) ∧
      ∀ e s', r = .error e s' → s'.steps ≤ max (s.steps + 1) (limit + 1) := by
  induction h with
  | fellOff hr =>
    refine ⟨by simp, ?_⟩
    rintro e s' ⟨⟩
    omega
  | exceeds hr hl =>
    refine ⟨by simp, ?_⟩
    rintro e s' ⟨⟩
    exact le_max_left _ _
  | fails hr hl hx =>
    refine ⟨by simp, ?_⟩
    rintro e s' ⟨⟩
    exact (steps_of_step_error hx).le.trans (le_max_left _ _)
  | ends hr hl hx =>
    refine ⟨?_, by simp⟩
    rintro outcome s' ⟨⟩
    exact steps_of_step_ok hx
  | goesOn hr hl hx _ ih =>
    have hs := steps_of_step_ok hx
    refine ⟨fun outcome s' hok => ?_, fun e s' herr => ?_⟩
    · have := ih.1 outcome s' hok
      omega
    · have := ih.2 e s' herr
      omega

end Executes

/-! ## The budget -/

/-- What is left of a run with a budget after an op. -/
def carryOn (p : Program) (limit budget : Nat) : Progress → Exec Outcome
  | .finished outcome => pure outcome
  | .running fr callers => runWithin p limit budget fr callers

section

variable {p : Program} {limit budget : Nat} {fr : Frame} {callers : List (Frame × CallSite)}
  {s : Store} {op : OpId} {rest : List OpId}

theorem runWithin_nil (hr : fr.rest = []) :
    runWithin p limit budget fr callers s = .error (.fellOff fr.block) s := by
  rw [runWithin.eq_def, hr]
  rfl

theorem runWithin_zero (hr : fr.rest = op :: rest) :
    runWithin p limit 0 fr callers s =
      .error (.stepLimit limit fr.func.name) (counted s) := by
  rw [runWithin.eq_def, hr]
  rfl

theorem runWithin_succ (hr : fr.rest = op :: rest) :
    runWithin p limit (budget + 1) fr callers s =
      (step p { fr with rest } callers op >>= carryOn p limit budget) (counted s) := by
  rw [step, bind_assoc, runWithin.eq_def, hr]
  rfl

end

/-- With as many steps left as the counter is away from the limit, the run with a budget is the one
without. -/
theorem executes_runWithin (p : Program) (limit budget : Nat) (fr : Frame)
    (callers : List (Frame × CallSite)) (s : Store) (hs : s.steps + budget = limit) :
    ∃ n ≤ budget, Executes p limit fr callers s n (runWithin p limit budget fr callers s) := by
  induction budget generalizing fr callers s with
  | zero =>
    refine ⟨0, le_rfl, ?_⟩
    cases hr : fr.rest with
    | nil =>
      rw [runWithin_nil hr]
      exact .fellOff hr
    | cons op rest =>
      rw [runWithin_zero hr]
      exact .exceeds hr (by omega)
  | succ budget ih =>
    cases hr : fr.rest with
    | nil =>
      rw [runWithin_nil hr]
      exact ⟨0, Nat.zero_le _, .fellOff hr⟩
    | cons op rest =>
      rw [runWithin_succ hr]
      cases hx : step p { fr with rest } callers op (counted s) with
      | error e s' =>
        have hrun : (step p { fr with rest } callers op >>= carryOn p limit budget) (counted s) =
            .error e s' := by
          change EStateM.bind _ _ _ = _
          rw [EStateM.bind, hx]
        rw [hrun]
        exact ⟨1, by omega, .fails hr (by omega) hx⟩
      | ok progress s' =>
        have hrun : (step p { fr with rest } callers op >>= carryOn p limit budget) (counted s) =
            carryOn p limit budget progress s' := by
          change EStateM.bind _ _ _ = _
          rw [EStateM.bind, hx]
        rw [hrun]
        cases progress with
        | finished outcome => exact ⟨1, by omega, .ends hr (by omega) hx⟩
        | running fr' callers' =>
          obtain ⟨n, hn, hrest⟩ := ih fr' callers' s' (by rw [steps_of_step_ok hx]; omega)
          exact ⟨n + 1, by omega, .goesOn hr (by omega) hx hrest⟩

/-! ## Calls -/

variable {limit : Nat} {name : String} {s : Store} {f : Func}

theorem run_of_some (hf : p.func? name = some f) : run p limit name args s =
      (liftM (Frame.start f args) >>= fun fr => runWithin p limit limit fr [])
        { s with steps := 0 } := by
  rw [run, hf]
  rfl

theorem run_of_none (hf : p.func? name = none) :
    run p limit name args s = .error (.unknownFunction name) s := by
  rw [run, hf]
  rfl

theorem run_of_start_error {e : RunError} (hf : p.func? name = some f)
    (hfr : Frame.start f args = .error e) :
    run p limit name args s = .error e { s with steps := 0 } := by
  rw [run_of_some hf, hfr]
  rfl

theorem run_of_start_ok (hf : p.func? name = some f) (hfr : Frame.start f args = .ok fr) :
    run p limit name args s = runWithin p limit limit fr [] { s with steps := 0 } := by
  rw [run_of_some hf, hfr]
  rfl

theorem calls_run (p : Program) (limit : Nat) (name : String) (args : List Value) (s : Store) :
    ∃ n ≤ limit, Calls p limit name args s n (run p limit name args s) := by
  cases hf : p.func? name with
  | none =>
    rw [run_of_none hf]
    exact ⟨0, Nat.zero_le _, .unknown hf⟩
  | some f =>
    cases hfr : Frame.start f args with
    | error e =>
      rw [run_of_start_error hf hfr]
      exact ⟨0, Nat.zero_le _, .refused hf hfr⟩
    | ok fr =>
      rw [run_of_start_ok hf hfr]
      obtain ⟨n, hn, hexec⟩ := executes_runWithin p limit limit fr [] { s with steps := 0 }
        (Nat.zero_add _)
      exact ⟨n, hn, .started hf hfr hexec⟩

namespace Calls

variable {p : Program} {limit : Nat} {name : String} {args : List Value} {s : Store} {n m : Nat}
  {r q : EStateM.Result RunError Store Outcome}

theorem unique (h : Calls p limit name args s n r) (h' : Calls p limit name args s m q) :
    m = n ∧ q = r := by
  cases h with
  | unknown hf => cases h' <;> simp_all
  | refused hf hfr => cases h' <;> simp_all
  | started hf hfr hx =>
    cases h' with
    | unknown hf' => simp_all
    | refused hf' hfr' => simp_all
    | started hf' hfr' hx' =>
      obtain rfl := Option.some.inj (hf.symm.trans hf')
      obtain rfl := Except.ok.inj (hfr.symm.trans hfr')
      exact hx.unique hx'

theorem steps_eq (h : Calls p limit name args s n r) :
    (∀ outcome s', r = .ok outcome s' → s'.steps = n) ∧
      ∀ e s', r = .error e s' → s'.steps ≤ max s.steps (limit + 1) := by
  cases h with
  | unknown hf =>
    refine ⟨by simp, ?_⟩
    rintro e s' ⟨⟩
    exact le_max_left _ _
  | refused hf hfr =>
    refine ⟨by simp, ?_⟩
    rintro e s' ⟨⟩
    exact Nat.zero_le _
  | started hf hfr hx =>
    obtain ⟨hok, herr⟩ := hx.steps_eq
    refine ⟨fun outcome s' h => by simpa using hok outcome s' h, fun e s' h => ?_⟩
    have := herr e s' h
    simp only at this
    omega

end Calls

/-- The store after several calls from outside. -/
def afterCalls (p : Program) (limit : Nat) (s : Store) (calls : List (String × List Value)) :
    Store :=
  calls.foldl (fun s c => (run p limit c.1 c.2).after s) s

theorem steps_afterCalls_le (p : Program) (limit : Nat) (s : Store)
    (calls : List (String × List Value)) (hs : s.steps ≤ limit + 1) :
    (afterCalls p limit s calls).steps ≤ limit + 1 := by
  induction calls generalizing s with
  | nil => exact hs
  | cons c calls ih =>
    refine ih ((run p limit c.1 c.2).after s) ?_
    obtain ⟨n, hn, hcalls⟩ := calls_run p limit c.1 c.2 s
    obtain ⟨hok, herr⟩ := hcalls.steps_eq
    unfold after
    cases hr : run p limit c.1 c.2 s with
    | ok outcome s' =>
      have := hok outcome s' hr
      show s'.steps ≤ limit + 1
      omega
    | error e s' =>
      have := herr e s' hr
      show s'.steps ≤ limit + 1
      omega

end Machine

end Unnest
