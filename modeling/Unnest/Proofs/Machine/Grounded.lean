import Unnest.Proofs.Machine.Cells
import Unnest.Proofs.Machine.Limit
/-!
# No dangling pointers

A pointer is good while its cell is below the size of the heap, and the heap never shrinks. What an
op computes mentions no cells but those of its operands, of the cells it reads and of the cell it
allocates (`runOp_safe`), so if what comes from outside is good at that moment, everything stays
good: the values of all frames, the exceptions in flight, the cells and the log
(`Moment.Grounded`). `run_never_dangles` says so for every moment of a sequence of calls.
-/

namespace Unnest

open RunError (Spares)

/-! ## Ops -/

namespace Store

/-- The cells mention existing cells only, and so does the log behind its first `past` records. -/
structure Grounded (past : Nat) (s : Store) : Prop where
  heap : s.heap.Grounded
  log : ∀ r ∈ s.host.log.toList.drop past, ∀ v ∈ r.args, v.Below s.heap.size

theorem Grounded.asks {past : Nat} {s : Store} (h : s.Grounded past) {callee : String}
    {args : List Value} (ha : ∀ v ∈ args, v.Below s.heap.size) :
    Grounded past { s with host := (s.host.call callee args).2 } := by
  refine ⟨h.heap, fun r hr => ?_⟩
  have hlog : (s.host.call callee args).2.log.toList.drop past =
      (s.host.log.toList ++ [CallRecord.mk callee args]).drop past := by
    rw [Host.log_call, Array.toList_push]
  change r ∈ (s.host.call callee args).2.log.toList.drop past at hr
  rw [hlog, List.drop_append] at hr
  rcases List.mem_append.mp hr with hr | hr
  · exact h.log r hr
  · obtain rfl := List.mem_singleton.mp (List.mem_of_mem_drop hr)
    exact ha

end Store

namespace Exec

variable {α β : Type} {past : Nat} {s : Store}

theorem after_lift (x : Except RunError α) : (liftM x : Exec α).after s = s := by
  cases x with
  | ok a => rfl
  | error e => rfl

/-- From `s` on, `x` leaves a store that mentions existing cells only, does not fail on a dangling
pointer, and gives what `Q` asks of a heap of that size. -/
def Safe (past : Nat) (s : Store) (x : Exec α) (Q : Nat → α → Prop) : Prop :=
  s.heap.size ≤ (x.after s).heap.size ∧ (x.after s).Grounded past ∧
    match x s with
    | .ok a t => Q t.heap.size a
    | .error e _ => e.isDangling = false

/-- If `x`, run from `s`, asks the host, the answer mentions existing cells only. -/
def AnsweredFrom (s : Store) (x : Exec α) : Prop :=
  ∀ callee args, (x.after s).host.log = s.host.log.push ⟨callee, args⟩ →
    CallResult.Below s.heap.size (s.host.call callee args).1

namespace Safe

variable {Q : Nat → β → Prop}

theorem of_spares (hs : s.Grounded past) {x : Except RunError β} (h : Spares x (Q s.heap.size)) :
    Safe past s (liftM x) Q := by
  cases x with
  | ok b => exact ⟨le_rfl, hs, h⟩
  | error e => exact ⟨le_rfl, hs, h⟩

theorem of_get {k : Store → Exec β} (h : Safe past s (k s) Q) : Safe past s (get >>= k) Q := h

theorem lift_bind (hs : s.Grounded past) {x : Except RunError α} {k : α → Exec β} {P : α → Prop}
    (h : Spares x P) (hk : ∀ a, x = .ok a → P a → Safe past s (k a) Q) :
    Safe past s (liftM x >>= k) Q := by
  cases x with
  | ok a => exact hk a rfl h
  | error e => exact ⟨le_rfl, hs, h⟩

theorem bind {x : Exec α} {k : α → Exec β} {P : Nat → α → Prop} (h : Safe past s x P)
    (hk : ∀ a t, s.heap.size ≤ t.heap.size → t.Grounded past → P t.heap.size a →
      Safe past t (k a) Q) : Safe past s (x >>= k) Q := by
  obtain ⟨hsize, hground, hres⟩ := h
  have hbind : (x >>= k) s = EStateM.bind x k s := rfl
  unfold Safe after at *
  rw [hbind, EStateM.bind]
  cases hx : x s with
  | ok a t =>
    rw [hx] at hsize hground hres
    obtain ⟨hsize', hk'⟩ := hk a t hsize hground hres
    exact ⟨hsize.trans hsize', hk'⟩
  | error e t =>
    rw [hx] at hsize hground hres
    exact ⟨hsize, hground, hres⟩

end Safe

theorem AnsweredFrom.of_bind {x : Except RunError α} {k : α → Exec β} {a : α}
    (h : AnsweredFrom s (liftM x >>= k)) (hx : x = .ok a) : AnsweredFrom s (k a) := by
  subst hx
  exact h

end Exec

namespace Machine

open Exec

variable {p : Program} {past : Nat} {s : Store} {fr : Frame} {op : OpId} {d : Op}

variable {n : Nat}

theorem spares_resume (h : fr.Below n) (site : CallSite) {result : CallResult}
    (hr : CallResult.Below n result) : Spares (resume fr site result) (Flow.Below n) := by
  cases result with
  | ok values =>
    unfold resume
    cases site.edges with
    | none => exact h.defineAll hr
    | some edges =>
      exact (Frame.spares_enter (h.defineAll hr) edges.1 (List.forall_mem_nil _)).map fun _ h => h
  | error thrown =>
    unfold resume
    cases site.edges with
    | none => exact hr
    | some edges => exact (Frame.spares_unwind h edges.2 hr).map fun _ h => h

theorem call_safe (hs : s.Grounded past) (h : fr.Below s.heap.size) {site : CallSite}
    {callee : String} {args : List Value} (ha : ∀ v ∈ args, v.Below s.heap.size)
    (hhost : AnsweredFrom s (call p fr site callee args)) :
    Safe past s (call p fr site callee args) fun n flow => flow.Below n := by
  unfold call at *
  cases hf : p.func? callee with
  | some f => exact ⟨le_rfl, hs, h, ha⟩
  | none =>
    rw [hf] at hhost
    have hafter : ∀ x : Except RunError Flow,
        ((liftM x : Exec Flow).after { s with host := (s.host.call callee args).2 }).host.log =
          s.host.log.push ⟨callee, args⟩ := by
      intro x
      rw [after_lift]
      exact Host.log_call s.host callee args
    have hanswer : CallResult.Below s.heap.size (s.host.call callee args).1 :=
      hhost callee args (hafter _)
    exact Safe.of_spares (s := { s with host := (s.host.call callee args).2 }) (hs.asks ha)
      (spares_resume h site hanswer)

theorem allocate_safe (hs : s.Grounded past) {v : Value} (hv : v.Below s.heap.size) :
    Safe past s (allocate v) fun n pointer => pointer.cell < n := by
  have hsize : (s.heap.allocate v).2.size = s.heap.size + 1 := Array.size_push v
  refine ⟨?_, ⟨Heap.grounded_allocate hs.heap hv, fun r hr w hw => ?_⟩, ?_⟩
  · exact hsize ▸ Nat.le_succ _
  · exact (hs.log r hr w hw).mono (hsize ▸ Nat.le_succ _)
  · change s.heap.size < (s.heap.allocate v).2.size
    omega

theorem read_safe (hs : s.Grounded past) {pointer : Pointer} (hp : pointer.cell < s.heap.size) :
    Safe past s (read pointer) fun n v => v.Below n :=
  Safe.of_spares hs (Heap.spares_read hs.heap hp)

theorem write_safe (hs : s.Grounded past) {pointer : Pointer} (hp : pointer.cell < s.heap.size)
    {v : Value} (hv : v.Below s.heap.size) :
    Safe past s (write pointer v) fun n _ => n = s.heap.size := by
  have hwrite := Heap.spares_write hs.heap hp hv
  refine .of_get (.lift_bind hs hwrite fun heap _ hheap => ?_)
  refine ⟨hheap.1.ge, ⟨hheap.2, fun r hr w hw => ?_⟩, hheap.1⟩
  exact (hs.log r hr w hw).mono hheap.1.ge

theorem spares_initialValue (h : fr.Below n) : Spares (initialValue fr d) (Value.Below n) := by
  have plain : ∀ {v : Value}, v.cells = [] → v.Below n := Value.below_of_cells_nil
  unfold initialValue
  cases d.operands with
  | cons init rest => exact Frame.spares_get h init
  | nil =>
    cases d.results with
    | nil => exact plain (by simp)
    | cons result rest =>
      refine (Frame.spares_typeOf result).bind fun ty _ => plain ?_
      cases ty.pointee? with
      | none => simp
      | some inner => simp

theorem runInstr_safe (hs : s.Grounded past) (h : fr.Below s.heap.size) (i : Instr)
    (hhost : AnsweredFrom s (runInstr p fr op d i)) :
    Safe past s (runInstr p fr op d i) fun n flow => flow.Below n := by
  have defined : ∀ {t : Store} {v : Value}, s.heap.size ≤ t.heap.size → t.Grounded past →
      v.Below t.heap.size →
      Safe past t (do return .next (← fr.define op d v) : Exec Flow) fun n flow =>
        flow.Below n := by
    intro t v hsize ht hv
    exact .lift_bind ht (Frame.spares_define (h.mono hsize) hv) fun fr' _ hfr' => ⟨le_rfl, ht, hfr'⟩
  have plain : ∀ {v : Value}, v.cells = [] → v.Below s.heap.size := Value.below_of_cells_nil
  cases i with
  | constant value => exact defined le_rfl hs (plain (by simp))
  | null => exact defined le_rfl hs (plain (by simp))
  | undefined => exact defined le_rfl hs (plain (by simp))
  | alloc heap =>
    refine .lift_bind hs (spares_initialValue h) fun v _ hv => ?_
    exact (allocate_safe hs hv).bind fun pointer t hsize ht hp =>
      defined hsize ht (Value.below_ref.mpr hp)
  | load =>
    refine .lift_bind hs (Frame.spares_pointer h 0) fun pointer _ hp => ?_
    exact (read_safe hs hp).bind fun v t hsize ht hv => defined hsize ht hv
  | store | saveCatch =>
    refine .lift_bind hs (Frame.spares_operand h 0) fun v _ hv => ?_
    refine .lift_bind hs (Frame.spares_pointer h 1) fun pointer _ hp => ?_
    exact (write_safe hs hp hv).bind fun _ t hsize ht _ => ⟨le_rfl, ht, h.mono hsize⟩
  | fieldRef index =>
    refine .lift_bind hs (Frame.spares_pointer h 0) fun base _ hbase => ?_
    exact defined le_rfl hs (Value.below_ref.mpr hbase)
  | cast =>
    refine .lift_bind hs (Frame.spares_operand h 0) fun v _ hv => ?_
    cases d.results with
    | nil => exact ⟨le_rfl, hs, rfl⟩
    | cons result rest =>
      refine .lift_bind hs (Frame.spares_typeOf result) fun ty _ _ => ?_
      exact defined le_rfl hs fun c hc => hv c (Value.cells_cast v ty hc)
  | binary operator =>
    refine .lift_bind hs (Frame.spares_operand h 0) fun lhs _ _ => ?_
    refine .lift_bind hs (Frame.spares_operand h 1) fun rhs _ _ => ?_
    cases hv : operator.eval? lhs rhs with
    | some v => exact defined le_rfl hs (plain (operator.cells_eval? lhs rhs v hv))
    | none => exact ⟨le_rfl, hs, rfl⟩
  | call callee =>
    refine .lift_bind hs (Frame.spares_operands h 0) fun args hargs ha => ?_
    exact call_safe hs h ha (hhost.of_bind hargs)
  | callIndirect =>
    refine .lift_bind hs (Frame.spares_calleeName h) fun callee hcallee _ => ?_
    refine .lift_bind hs (Frame.spares_operands h 1) fun args hargs ha => ?_
    exact call_safe hs h ha ((hhost.of_bind hcallee).of_bind hargs)
  | landingPad cleanup catches =>
    unfold runInstr
    cases hflight : fr.inFlight with
    | some thrown => exact defined le_rfl hs (Value.below_exception.mpr (h.flight hflight))
    | none => exact ⟨le_rfl, hs, rfl⟩
  | matchType token =>
    refine .lift_bind hs (Frame.spares_exception h) fun thrown _ _ => ?_
    exact defined le_rfl hs (plain (by simp))
  | beginCatch =>
    refine .lift_bind hs (Frame.spares_exception h) fun thrown _ ht => ?_
    exact defined le_rfl hs ht
  | endCatch => exact ⟨le_rfl, hs, h.values, by simp⟩
  | beginCleanup => exact ⟨le_rfl, hs, h⟩

theorem runTransfer_safe (hs : s.Grounded past) (h : fr.Below s.heap.size) (t : Transfer)
    (hhost : AnsweredFrom s (runTransfer p fr op d t)) :
    Safe past s (runTransfer p fr op d t) fun n flow => flow.Below n := by
  have entered : ∀ {target : BlockId} {args : List Value}, (∀ v ∈ args, v.Below s.heap.size) →
      Safe past s (do return .next (← fr.enter target args) : Exec Flow)
        fun n flow => flow.Below n := fun ha =>
    .lift_bind hs (Frame.spares_enter h _ ha) fun fr' _ hfr' => ⟨le_rfl, hs, hfr'⟩
  have unwound : ∀ {pad : BlockId} {thrown : Thrown}, thrown.payload.Below s.heap.size →
      Safe past s (do return .next (← fr.unwind pad thrown) : Exec Flow)
        fun n flow => flow.Below n := fun ht =>
    .lift_bind hs (Frame.spares_unwind h _ ht) fun fr' _ hfr' => ⟨le_rfl, hs, hfr'⟩
  cases t with
  | br target =>
    exact .lift_bind hs (Frame.spares_operands h 0) fun args _ ha => entered ha
  | condBr thenTo elseTo thenArgs =>
    refine .lift_bind hs (Frame.spares_operand h 0) fun flag _ _ => ?_
    refine .lift_bind hs (Frame.spares_operands h 1) fun args _ ha => ?_
    split
    · exact entered fun v hv => ha v (List.mem_of_mem_take hv)
    · exact entered fun v hv => ha v (List.mem_of_mem_drop hv)
  | switchInt default cases =>
    refine .lift_bind hs (Frame.spares_operand h 0) fun v _ _ => ?_
    cases v.asInt? with
    | some n => exact entered (List.forall_mem_nil _)
    | none => exact ⟨le_rfl, hs, rfl⟩
  | invoke callee normal unwind =>
    cases callee with
    | symbol callee =>
      refine .lift_bind hs (Frame.spares_operands h 0) fun args hargs ha => ?_
      exact call_safe hs h ha (hhost.of_bind hargs)
    | indirect =>
      refine .lift_bind hs (Frame.spares_calleeName h) fun callee hcallee _ => ?_
      refine .lift_bind hs (Frame.spares_operands h 1) fun args hargs ha => ?_
      exact call_safe hs h ha ((hhost.of_bind hcallee).of_bind hargs)
  | throwTo unwind =>
    exact .lift_bind hs (Frame.spares_raised h) fun thrown _ ht => unwound ht
  | throwOut =>
    exact .lift_bind hs (Frame.spares_raised h) fun thrown _ ht => ⟨le_rfl, hs, ht⟩
  | endCleanup outer =>
    refine .lift_bind hs (Frame.spares_raised h) fun thrown _ ht => ?_
    cases outer with
    | some unwind => exact unwound ht
    | none => exact ⟨le_rfl, hs, ht⟩
  | ret =>
    unfold runTransfer
    cases d.operands with
    | nil => exact ⟨le_rfl, hs, List.forall_mem_nil _⟩
    | cons v rest =>
      refine .lift_bind hs (Frame.spares_get h v) fun value _ hvalue => ⟨le_rfl, hs, fun c hc => ?_⟩
      exact hvalue c (by simpa [Outcome.cells] using hc)
  | unreachable => exact ⟨le_rfl, hs, rfl⟩

/-- An op gives good pointers from good ones, provided the host answers with good ones. -/
theorem runOp_safe (hs : s.Grounded past) (h : fr.Below s.heap.size)
    (hhost : AnsweredFrom s (runOp p fr op)) :
    Safe past s (runOp p fr op) fun n flow => flow.Below n := by
  unfold runOp at *
  refine .lift_bind hs (RunError.spares_ofNode _) fun d hd _ => ?_
  replace hhost := hhost.of_bind hd
  cases hk : d.kind with
  | instr i =>
    rw [hk] at hhost
    exact runInstr_safe hs h i hhost
  | transfer t =>
    rw [hk] at hhost
    exact runTransfer_safe hs h t hhost
  | construct c => exact ⟨le_rfl, hs, rfl⟩

theorem spares_advance {callers : List (Frame × CallSite)} {flow : Flow}
    (hc : ∀ c ∈ callers, c.1.Below n) (h : flow.Below n) :
    Spares (advance callers flow) (Progress.Below n) := by
  induction callers generalizing flow with
  | nil =>
    cases flow with
    | next fr => exact ⟨h, hc⟩
    | call fr site callee args =>
      refine (Frame.spares_start callee h.2).bind fun fr' hfr' => ⟨hfr', ?_⟩
      simpa using h.1
    | done outcome => exact h
  | cons caller callers ih =>
    cases flow with
    | next fr => exact ⟨h, hc⟩
    | call fr site callee args =>
      refine (Frame.spares_start callee h.2).bind fun fr' hfr' => ⟨hfr', ?_⟩
      exact List.forall_mem_cons.mpr ⟨h.1, hc⟩
    | done outcome =>
      have hresult : CallResult.Below n (callResult outcome) := by
        cases outcome with
        | returned value =>
          intro v hv c hc
          exact h c (List.mem_flatMap.mpr ⟨v, hv, hc⟩)
        | threw thrown => exact h
      obtain ⟨hfr, hrest⟩ := List.forall_mem_cons.mp hc
      exact (spares_resume hfr caller.2 hresult).bind fun flow' hflow' => ih hrest hflow'

theorem step_safe {callers : List (Frame × CallSite)} (hs : s.Grounded past)
    (h : fr.Below s.heap.size) (hc : ∀ c ∈ callers, c.1.Below s.heap.size)
    (hhost : AnsweredFrom s (runOp p fr op)) :
    Safe past s (step p fr callers op) fun n progress => progress.Below n :=
  (runOp_safe hs h hhost).bind fun _ _ hsize ht hflow =>
    .of_spares ht (spares_advance (fun c hmem => (hc c hmem).mono hsize) hflow)

end Machine

theorem Heap.read_ne_dangling {h : Heap} {pointer : Pointer} {cell : Nat}
    (hp : pointer.cell < h.size) : h.read pointer ≠ .error (.dangling cell) := by
  obtain ⟨n, hn⟩ : ∃ n, Value.Below n h[pointer.cell] :=
    ⟨h[pointer.cell].cells.sum + 1, fun c hc => Nat.lt_succ_of_le (List.le_sum_of_mem hc)⟩
  have hfollow := Value.spares_follow hn pointer.path
  unfold read
  rw [Array.getElem?_eq_getElem hp]
  intro hread
  dsimp only at hread
  rw [hread] at hfollow
  cases hfollow

theorem Heap.size_write {h h' : Heap} {pointer : Pointer} {v : Value}
    (hw : h.write pointer v = .ok h') : h'.size = h.size := by
  unfold write at hw
  cases hc : h[pointer.cell]? with
  | none => simp [hc] at hw
  | some old =>
    rw [hc] at hw
    cases hv : old.replace v pointer.path with
    | error e => simp [hv] at hw
    | ok new =>
      simp only [hv] at hw
      cases hw
      exact Array.size_setIfInBounds

variable {s t : Store}

theorem Store.Touched.size_le (h : Touched s t) : s.heap.size ≤ t.heap.size := by
  induction h with
  | refl => exact le_rfl
  | allocates _ v ih => exact ih.trans ((Array.size_push v).symm ▸ Nat.le_succ _)
  | writes _ hw ih => exact ih.trans (Heap.size_write hw).ge
  | asks _ callee args ih => exact ih

theorem Store.Worked.size_le (h : Worked s t) : s.heap.size ≤ t.heap.size := by
  induction h with
  | refl => exact le_rfl
  | sets _ steps ih => exact ih
  | touches _ htouch ih => exact ih.trans htouch.size_le

/-- The two hosts have the same functions, whatever was asked of them before. -/
def Host.Alike (h h' : Host) : Prop :=
  ∀ name, (h.functions.get? name).map (·.answer) = (h'.functions.get? name).map (·.answer)

theorem Host.alike_call (h : Host) (callee : String) (args : List Value) :
    h.Alike (h.call callee args).2 := by
  intro name
  cases hf : h.functions.get? callee with
  | none => rw [call_of_none hf]
  | some f =>
    rw [call_of_some hf]
    by_cases hname : callee = name
    · subst hname
      simp [hf]
    · simp [Table.get?_insert_of_ne _ _ hname]

theorem Store.Touched.alike (h : Touched s t) : s.host.Alike t.host := by
  induction h with
  | refl => exact fun _ => rfl
  | allocates _ v ih => exact ih
  | writes _ hw ih => exact ih
  | asks _ callee args ih => exact fun name => (ih name).trans (Host.alike_call _ callee args name)

theorem Store.Worked.alike (h : Worked s t) : s.host.Alike t.host := by
  induction h with
  | refl => exact fun _ => rfl
  | sets _ steps ih => exact ih
  | touches _ htouch ih => exact fun name => (ih name).trans (htouch.alike name)

/-! ## Runs -/

/-- A run under way before an op. -/
structure Moment where
  frame : Frame
  callers : List (Frame × CallSite)
  store : Store

/-- Every value of a frame, of the heap and of the log behind its first `past` records mentions
existing cells only. -/
structure Moment.Grounded (past : Nat) (m : Moment) : Prop where
  store : m.store.Grounded past
  frame : m.frame.Below m.store.heap.size
  callers : ∀ c ∈ m.callers, c.1.Below m.store.heap.size

namespace Machine

open Exec

variable {p : Program} {limit : Nat}

/-- From one moment of a run to a later one. -/
inductive Passes (p : Program) (limit : Nat) : Moment → Moment → Prop
  | here (m : Moment) : Passes p limit m m
  | goesOn {m m' : Moment} {op : OpId} {rest : List OpId} {fr : Frame}
      {callers : List (Frame × CallSite)} {s : Store} : m.frame.rest = op :: rest →
      m.store.steps + 1 ≤ limit →
      step p { m.frame with rest } m.callers op (counted m.store) = .ok (.running fr callers) s →
      Passes p limit ⟨fr, callers, s⟩ m' → Passes p limit m m'

/-- The moments of a call from outside. -/
def Visits (p : Program) (limit : Nat) (name : String) (args : List Value) (s : Store)
    (m : Moment) : Prop :=
  ∃ f fr, p.func? name = some f ∧ Frame.start f args = .ok fr ∧
    Passes p limit ⟨fr, [], { s with steps := 0 }⟩ m

/-- If the next op runs and asks the host, the answer mentions existing cells only. -/
def Answered (p : Program) (limit : Nat) (m : Moment) : Prop :=
  ∀ op rest, m.frame.rest = op :: rest → m.store.steps + 1 ≤ limit →
    AnsweredFrom (counted m.store) (runOp p { m.frame with rest } op)

section

variable {past : Nat} {m m' : Moment} {op : OpId} {rest : List OpId}

theorem next_safe (hm : m.Grounded past) (hr : m.frame.rest = op :: rest)
    (hl : m.store.steps + 1 ≤ limit) (hhost : Answered p limit m) :
    Safe past (counted m.store) (step p { m.frame with rest } m.callers op)
      fun n progress => progress.Below n :=
  step_safe (s := counted m.store) ⟨hm.store.heap, hm.store.log⟩
    ⟨hm.frame.values, hm.frame.flight⟩ hm.callers (hhost op rest hr hl)

theorem grounded_of_next (hm : m.Grounded past) (hr : m.frame.rest = op :: rest)
    (hl : m.store.steps + 1 ≤ limit) (hhost : Answered p limit m) {fr : Frame}
    {callers : List (Frame × CallSite)} {s : Store}
    (hx : step p { m.frame with rest } m.callers op (counted m.store) =
      .ok (.running fr callers) s) : Moment.Grounded past ⟨fr, callers, s⟩ := by
  obtain ⟨-, hs, hprogress⟩ := next_safe hm hr hl hhost
  rw [after, hx] at hs
  rw [hx] at hprogress
  exact ⟨hs, hprogress.1, hprogress.2⟩

theorem Passes.grounded (h : Passes p limit m m') (hm : m.Grounded past)
    (hhost : ∀ m', Passes p limit m m' → Answered p limit m') : m'.Grounded past := by
  induction h with
  | here => exact hm
  | goesOn hr hl hx _ ih =>
    exact ih (grounded_of_next hm hr hl (hhost _ (.here _)) hx)
      fun m' hm' => hhost m' (.goesOn hr hl hx hm')

/-- A run that starts with good pointers and is answered with good pointers ends so, and not for
want of a cell. -/
theorem runWithin_safe (budget : Nat) (hb : m.store.steps + budget = limit) (hm : m.Grounded past)
    (hhost : ∀ m', Passes p limit m m' → Answered p limit m') :
    Safe past m.store (runWithin p limit budget m.frame m.callers) fun n o => o.Below n := by
  induction budget generalizing m with
  | zero =>
    unfold Safe after
    cases hr : m.frame.rest with
    | nil =>
      rw [runWithin_nil hr]
      exact ⟨le_rfl, hm.store, rfl⟩
    | cons op rest =>
      rw [runWithin_zero hr]
      exact ⟨le_rfl, ⟨hm.store.heap, hm.store.log⟩, rfl⟩
  | succ budget ih =>
    cases hr : m.frame.rest with
    | nil =>
      unfold Safe after
      rw [runWithin_nil hr]
      exact ⟨le_rfl, hm.store, rfl⟩
    | cons op rest =>
      obtain ⟨hsize, hs, hprogress⟩ := next_safe hm hr (by omega) (hhost m (.here m))
      unfold after at hsize hs
      unfold Safe after
      obtain ⟨e, t, hx, hrun⟩ | ⟨progress, t, hx, hrun⟩ := runWithin_cons (p := p) (s := m.store) hr
      · rw [hx] at hsize hs hprogress
        rw [hrun]
        exact ⟨hsize, hs, hprogress⟩
      · rw [hx] at hsize hs hprogress
        rw [hrun]
        cases progress with
        | finished outcome => exact ⟨hsize, hs, hprogress⟩
        | running fr callers =>
          obtain ⟨hsize', hrest⟩ := ih (m := ⟨fr, callers, t⟩)
            (by have := steps_of_step_ok hx; dsimp only; omega)
            ⟨hs, hprogress.1, hprogress.2⟩
            fun m' hm' => hhost m' (.goesOn hr (by omega) hx hm')
          exact ⟨hsize.trans hsize', hrest⟩

end

section

variable {past : Nat} {name : String} {args : List Value} {s : Store}

theorem grounded_of_visits {m : Moment} (hs : s.Grounded past)
    (ha : ∀ v ∈ args, v.Below s.heap.size)
    (hhost : ∀ m, Visits p limit name args s m → Answered p limit m)
    (h : Visits p limit name args s m) : m.Grounded past := by
  obtain ⟨f, fr, hf, hfr, hpass⟩ := h
  have hstart := Frame.spares_start f ha
  rw [hfr] at hstart
  exact hpass.grounded ⟨⟨hs.heap, hs.log⟩, hstart, List.forall_mem_nil _⟩
    fun m' hm' => hhost m' ⟨f, fr, hf, hfr, hm'⟩

theorem run_safe (hs : s.Grounded past) (ha : ∀ v ∈ args, v.Below s.heap.size)
    (hhost : ∀ m, Visits p limit name args s m → Answered p limit m) :
    Safe past s (run p limit name args) fun n o => o.Below n := by
  unfold Safe after
  cases hf : p.func? name with
  | none =>
    rw [run_of_none hf]
    exact ⟨le_rfl, hs, rfl⟩
  | some f =>
    have hstart := Frame.spares_start f ha
    cases hfr : Frame.start f args with
    | error e =>
      rw [hfr] at hstart
      rw [run_of_start_error hf hfr]
      exact ⟨le_rfl, ⟨hs.heap, hs.log⟩, hstart⟩
    | ok fr =>
      rw [hfr] at hstart
      rw [run_of_start_ok hf hfr]
      exact runWithin_safe (m := ⟨fr, [], { s with steps := 0 }⟩) limit (Nat.zero_add _)
        ⟨⟨hs.heap, hs.log⟩, hstart, List.forall_mem_nil _⟩
        fun m' hm' => hhost m' ⟨f, fr, hf, hfr, hm'⟩

end

theorem worked_run (p : Program) (limit : Nat) (name : String) (args : List Value) (s : Store) :
    Store.Worked s ((run p limit name args).after s) := by
  have restarts : Store.Worked s { s with steps := 0 } := (Store.Worked.refl s).sets 0
  unfold after
  cases hf : p.func? name with
  | none =>
    rw [run_of_none hf]
    exact .refl s
  | some f =>
    cases hfr : Frame.start f args with
    | error e =>
      rw [run_of_start_error hf hfr]
      exact restarts
    | ok fr =>
      rw [run_of_start_ok hf hfr]
      exact restarts.trans (worked_runWithin p limit limit fr [] { s with steps := 0 })

theorem worked_afterCalls (p : Program) (limit : Nat) (s : Store)
    (calls : List (String × List Value)) : Store.Worked s (afterCalls p limit s calls) := by
  induction calls generalizing s with
  | nil => exact .refl s
  | cons c calls ih => exact (worked_run p limit c.1 c.2 s).trans (ih _)

variable {calls : List (String × List Value)}

theorem afterCalls_take_succ (p : Program) (limit : Nat) (s : Store) {k : Nat} {name : String}
    {args : List Value} (hk : calls[k]? = some (name, args)) :
    afterCalls p limit s (calls.take (k + 1)) =
      (run p limit name args).after (afterCalls p limit s (calls.take k)) := by
  rw [List.take_add_one, hk]
  simp [afterCalls]

/-- What calls from outside are given and what the host answers mentions only cells that exist at
that moment. -/
structure Honest (p : Program) (limit : Nat) (host : Host)
    (calls : List (String × List Value)) : Prop where
  args : ∀ k name args, calls[k]? = some (name, args) →
    ∀ v ∈ args, Value.Below (afterCalls p limit { host } (calls.take k)).heap.size v
  answers : ∀ k name args m, calls[k]? = some (name, args) →
    Visits p limit name args (afterCalls p limit { host } (calls.take k)) m → Answered p limit m

theorem grounded_afterCalls {host : Host} (h : Honest p limit host calls) {k : Nat}
    (hk : k ≤ calls.length) :
    (afterCalls p limit { host } (calls.take k)).Grounded host.log.size := by
  induction k with
  | zero =>
    refine ⟨by simp [Heap.Grounded, afterCalls], fun r hr => ?_⟩
    have hnone : r ∈ host.log.toList.drop host.log.toList.length := hr
    rw [List.drop_length] at hnone
    exact absurd hnone List.not_mem_nil
  | succ k ih =>
    have hget : calls[k]? = some (calls[k].1, calls[k].2) := List.getElem?_eq_getElem hk
    rw [afterCalls_take_succ p limit { host } hget]
    exact (run_safe (ih (Nat.le_of_succ_le hk)) (h.args _ _ _ hget)
      fun m hm => h.answers _ _ _ m hget hm).2.1

/-- No dangling pointers, for any sequence of calls from outside: at every moment of a call and
after it everything mentions existing cells only, the call does not fail on a dangling pointer, and
neither does reading a pointer of its outcome, then or after further calls. -/
theorem run_never_dangles (p : Program) (limit : Nat) (host : Host)
    (calls : List (String × List Value)) (h : Honest p limit host calls) (k : Nat) (name : String)
    (args : List Value) (hk : calls[k]? = some (name, args)) :
    (∀ m, Visits p limit name args (afterCalls p limit { host } (calls.take k)) m →
      m.Grounded host.log.size) ∧
    (afterCalls p limit { host } (calls.take (k + 1))).Grounded host.log.size ∧
    (∀ cell t, run p limit name args (afterCalls p limit { host } (calls.take k)) ≠
      .error (.dangling cell) t) ∧
    ∀ outcome t, run p limit name args (afterCalls p limit { host } (calls.take k)) =
        .ok outcome t →
      ∀ more, outcome.Below (afterCalls p limit t more).heap.size ∧
        ∀ pointer cell, pointer.cell ∈ outcome.cells →
          (afterCalls p limit t more).heap.read pointer ≠ .error (.dangling cell) := by
  have hs := grounded_afterCalls h (List.getElem?_eq_some_iff.mp hk).1.le
  have ha := h.args k name args hk
  have hhost := fun m => h.answers k name args m hk
  obtain ⟨-, hafter, hresult⟩ := run_safe hs ha hhost
  refine ⟨fun m hm => grounded_of_visits hs ha hhost hm, ?_, fun cell t ht => ?_,
    fun outcome t ht more => ?_⟩
  · rw [afterCalls_take_succ p limit { host } hk]
    exact hafter
  · rw [ht] at hresult
    cases hresult
  · rw [ht] at hresult
    have hlater : outcome.Below (afterCalls p limit t more).heap.size := fun c hc =>
      (hresult c hc).trans_le (worked_afterCalls p limit t more).size_le
    refine ⟨hlater, fun pointer cell hp hread => ?_⟩
    exact Heap.read_ne_dangling (hlater _ hp) hread

theorem Passes.worked {m m' : Moment} (h : Passes p limit m m') : m.store.Worked m'.store := by
  induction h with
  | here => exact .refl _
  | goesOn hr hl hx _ ih =>
    exact (((Store.Worked.refl _).sets _).touches (touched_of_step_ok hx)).trans ih

theorem alike_of_visits {host : Host} {name : String} {args : List Value} {m : Moment}
    (h : Visits p limit name args (afterCalls p limit { host } calls) m) :
    host.Alike m.store.host := by
  obtain ⟨f, fr, -, -, hpass⟩ := h
  exact (((worked_afterCalls p limit { host } calls).sets 0).trans hpass.worked).alike

/-- A program that makes a cell, and one that notes a pointer with the host. -/
def boxes : Program where
  name := "boxes"
  funcs := [
    { name := "box"
      sig := { params := [], ret := .ref .i32 }
      ops := #[
        { kind := .instr (.alloc true), operands := [], results := [⟨0⟩], parent := some ⟨0⟩ },
        { kind := .transfer .ret, operands := [⟨0⟩], parent := some ⟨0⟩ }]
      blocks := #[{ ops := [⟨0⟩, ⟨1⟩], parent := some ⟨0⟩ }]
      regions := #[{ blocks := [⟨0⟩] }]
      values := #[⟨.ref .i32, .opResult ⟨0⟩ 0⟩] },
    { name := "peek"
      sig := { params := [.ref .i32], ret := .i32 }
      ops := #[
        { kind := .instr (.call "note"), operands := [⟨0⟩], parent := some ⟨0⟩ },
        { kind := .instr .load, operands := [⟨0⟩], results := [⟨1⟩], parent := some ⟨0⟩ },
        { kind := .transfer .ret, operands := [⟨1⟩], parent := some ⟨0⟩ }]
      blocks := #[{ ops := [⟨0⟩, ⟨1⟩, ⟨2⟩], args := [⟨0⟩], parent := some ⟨0⟩ }]
      regions := #[{ blocks := [⟨0⟩] }]
      values := #[⟨.ref .i32, .blockArg ⟨0⟩ 0⟩, ⟨.i32, .opResult ⟨1⟩ 0⟩] }]

/-- A host that acknowledges a note. -/
def acknowledging : Host := ({} : Host).register "note" (.returning [.int 1])

/-- The pointer that the first call gives may be passed to the second, which does not fail on it. -/
theorem run_never_dangles_boxes :
    Honest boxes 9 acknowledging [("box", []), ("peek", [.ref { cell := 0 }])] ∧
    ∀ cell t, run boxes 9 "peek" [.ref { cell := 0 }]
      (afterCalls boxes 9 { host := acknowledging } [("box", [])]) ≠ .error (.dangling cell) t := by
  have honest : Honest boxes 9 acknowledging [("box", []), ("peek", [.ref { cell := 0 }])] := by
    refine ⟨fun k name args hk v hv => ?_,
      fun k name args m hk hm op rest hr _ callee given _ => ?_⟩
    · have hk2 : k < 2 := (List.getElem?_eq_some_iff.mp hk).1
      interval_cases k
      · cases hk
        exact absurd hv List.not_mem_nil
      · cases hk
        rw [List.mem_singleton.mp hv, Value.below_ref]
        decide
    · have halike := alike_of_visits hm callee
      change CallResult.Below _ (m.store.host.call callee given).1
      cases hf : m.store.host.functions.get? callee with
      | none =>
        rw [Host.call_of_none hf]
        exact List.forall_mem_nil _
      | some f =>
        have hfun : f.answer = fun _ _ => .ok [.int 1] := by
          rw [hf] at halike
          simp only [acknowledging, Host.register, Table.get?_insert, Table.get?_empty] at halike
          split at halike
          · exact (Option.some.inj halike).symm
          · cases halike
        rw [Host.call_of_some hf, hfun]
        simp [CallResult.Below, Value.Below]
  exact ⟨honest, (run_never_dangles boxes 9 acknowledging _ honest 1 "peek" _ rfl).2.2.1⟩

end Machine

end Unnest
