import Unnest.Proofs.Machine.Limit
/-!
# Runs that follow others

A run follows another if it has the same outcome and leaves the same heap and host whenever the
other has an outcome at all; it may need more steps. It follows it strictly if it also fails as the
other does and counts the same steps. `Exec.Follows` says this of two computations, with one rule
for each way to compose them. `runOp_follows` says that one op follows another that has the same
kind and finds the same operands (`Frame.Repeats`), and `Simulates.run` that a run follows another
if each of its ops does, up to ops that only move one of the two.
-/

namespace Unnest

/-- The stores hold the same. Only strictly need they have counted the same number of steps. -/
def Store.Alike (strict : Prop) (s t : Store) : Prop :=
  t.heap = s.heap ∧ t.host = s.host ∧ (strict → t = s)

theorem Store.Alike.refl {strict : Prop} (s : Store) : s.Alike strict s := ⟨rfl, rfl, fun _ => rfl⟩

variable {α β γ δ : Type} {strict : Prop}

/-- Whenever the first has a result, so has the second, and the two are related. Strictly, the
second has the errors of the first too. -/
inductive Follows (strict : Prop) (Q : α → β → Prop) :
    Except RunError α → Except RunError β → Prop
  | ok {a : α} {b : β} : Q a b → Follows strict Q (.ok a) (.ok b)
  | stop {e : RunError} {y : Except RunError β} : (strict → y = .error e) →
    Follows strict Q (.error e) y

namespace Follows

variable {Q : α → β → Prop} {S : γ → δ → Prop}

theorem error (e : RunError) : Follows strict Q (.error e) (.error e) := .stop fun _ => rfl

theorem bind {x : Except RunError α} {y : Except RunError β} {k : α → Except RunError γ}
    {k' : β → Except RunError δ} (h : Follows strict Q x y)
    (hk : ∀ a b, Q a b → Follows strict S (k a) (k' b)) :
    Follows strict S (x >>= k) (y >>= k') := by
  cases h with
  | ok hab => exact hk _ _ hab
  | stop he => exact .stop fun hs => by rw [he hs]; rfl

theorem map {x : Except RunError α} {y : Except RunError β} {g : α → γ} {g' : β → δ}
    (h : Follows strict Q x y) (hg : ∀ a b, Q a b → S (g a) (g' b)) :
    Follows strict S (g <$> x) (g' <$> y) := by
  cases h with
  | ok hab => exact .ok (hg _ _ hab)
  | stop he => exact .stop fun hs => by rw [he hs]; rfl

theorem of_ok {a : α} {y : Except RunError β} (h : Follows strict Q (.ok a) y) :
    ∃ b, y = .ok b ∧ Q a b := by
  cases h with
  | ok hab => exact ⟨_, rfl, hab⟩

theorem mono {R : α → β → Prop} {x : Except RunError α} {y : Except RunError β}
    (h : Follows strict Q x y) (hQ : ∀ a b, Q a b → R a b) : Follows strict R x y := by
  cases h with
  | ok hab => exact .ok (hQ _ _ hab)
  | stop he => exact .stop he

theorem refl {Q : α → α → Prop} (hQ : ∀ a, Q a a) (x : Except RunError α) :
    Follows strict Q x x := by
  cases x with
  | ok a => exact .ok (hQ a)
  | error e => exact .error e

/-- A first step with the same result. -/
theorem bindEq {x y : Except RunError α} {k : α → Except RunError γ} {k' : α → Except RunError δ}
    (h : Follows strict Eq x y) (hk : ∀ a, Follows strict S (k a) (k' a)) :
    Follows strict S (x >>= k) (y >>= k') :=
  .bind h fun a _ hab => hab ▸ hk a

end Follows

namespace Exec

/-- The second result follows the first. -/
inductive ResultFollows (strict : Prop) (Q : α → β → Prop) :
    EStateM.Result RunError Store α → EStateM.Result RunError Store β → Prop
  | ok {a : α} {b : β} {s t : Store} : s.Alike strict t → Q a b →
    ResultFollows strict Q (.ok a s) (.ok b t)
  | stop {e : RunError} {s : Store} {y : EStateM.Result RunError Store β} :
    (strict → y = .error e s) → ResultFollows strict Q (.error e s) y

theorem ResultFollows.of_ok {Q : α → β → Prop} {a : α} {s : Store}
    {y : EStateM.Result RunError Store β} (h : ResultFollows strict Q (.ok a s) y) :
    ∃ b t, y = .ok b t ∧ s.Alike strict t ∧ Q a b := by
  cases h with
  | ok hst hab => exact ⟨_, _, rfl, hst, hab⟩

/-- From stores that hold the same, whenever `x` has a result, so has `y`, the two are related, and
the stores hold the same again. -/
def Follows (strict : Prop) (Q : α → β → Prop) (x : Exec α) (y : Exec β) : Prop :=
  ∀ s t, s.Alike strict t → ResultFollows strict Q (x s) (y t)

namespace Follows

variable {Q : α → β → Prop} {S : γ → δ → Prop}

theorem pure {a : α} {b : β} (h : Q a b) : Follows strict Q (Pure.pure a) (Pure.pure b) :=
  fun _ _ hst => .ok hst h

theorem throw (e : RunError) :
    Follows strict Q (MonadExcept.throw e) (MonadExcept.throw e) :=
  fun _ _ hst => .stop fun hs => by rw [hst.2.2 hs]; rfl

theorem lift {x : Except RunError α} {y : Except RunError β} (h : Unnest.Follows strict Q x y) :
    Follows strict Q (liftM x) (liftM y) := by
  intro s t hst
  cases h with
  | ok hab => exact .ok hst hab
  | stop he => exact .stop fun hs => by rw [he hs, hst.2.2 hs]; rfl

theorem bind {x : Exec α} {y : Exec β} {k : α → Exec γ} {k' : β → Exec δ} (h : Follows strict Q x y)
    (hk : ∀ a b, Q a b → Follows strict S (k a) (k' b)) :
    Follows strict S (x >>= k) (y >>= k') := by
  intro s t hst
  have hxy := h s t hst
  change ResultFollows strict S (EStateM.bind x k s) (EStateM.bind y k' t)
  unfold EStateM.bind
  generalize x s = r, y t = r' at hxy
  cases hxy with
  | ok hst hab => exact hk _ _ hab _ _ hst
  | stop he => exact .stop fun hs => by rw [he hs]

/-- A first step that gives the same. -/
theorem bindEq {x y : Except RunError α} {k : α → Exec γ} {k' : α → Exec δ}
    (h : Unnest.Follows strict Eq x y) (hk : ∀ a, Follows strict S (k a) (k' a)) :
    Follows strict S (liftM x >>= k) (liftM y >>= k') :=
  .bind (.lift h) fun a _ hab => hab ▸ hk a

end Follows

end Exec

/-! ## Frames -/

/-- The frame with results given to an op; those without a value are left out. -/
def Frame.given (fr : Frame) (results : List ValueId) (values : List Value) : Frame :=
  { fr with values := fr.values.insertAll (results.zip values) }

variable {fr : Frame}

theorem Frame.define_eq {op : OpId} {d : Op} {v : ValueId} {vs : List ValueId}
    (hd : d.results = v :: vs) (x : Value) : fr.define op d x = .ok (fr.given d.results [x]) := by
  unfold define given
  rw [hd, List.zip_cons_cons, List.zip_nil_right]
  rfl

theorem Frame.defineAll_eq (fr : Frame) (d : Op) (values : List Value) :
    fr.defineAll d values = fr.given d.results
      (values ++ List.replicate (d.results.length - values.length) .undefined) := rfl

/-- `v'` has in one frame the type and the value that `v` has in the other. -/
structure Frame.Supplies (strict : Prop) (fr fr' : Frame) (v v' : ValueId) : Prop where
  get : Follows strict Eq (fr.get v) (fr'.get v')
  type : Follows strict Eq (fr.typeOf v) (fr'.typeOf v')

/-- The two ops do the same in the two frames: they have one kind, find the same operands and define
the same values, and the frames stay related by `R` where they go on. -/
structure Frame.Repeats (strict : Prop) (R : Frame → Frame → Prop) (fr : Frame) (d : Op)
    (fr' : Frame) (d' : Op) : Prop where
  kind : d'.kind = d.kind
  name : strict → fr'.func.name = fr.func.name
  operands : List.Forall₂ (Supplies strict fr fr') d.operands d'.operands
  results : d'.results = d.results
  types : ∀ v ∈ d.results, Follows strict Eq (fr.typeOf v) (fr'.typeOf v)
  inFlight : fr'.inFlight = fr.inFlight
  frames : R fr fr'
  landed : R { fr with inFlight := none } { fr' with inFlight := none }
  given (values : List Value) : R (fr.given d.results values) (fr'.given d.results values)
  enter {b : BlockId} (args : List Value) : b ∈ d.kind.successors →
    Follows strict R (fr.enter b args) (fr'.enter b args)
  unwind {b : BlockId} (thrown : Thrown) : b ∈ d.kind.successors →
    Follows strict R (fr.unwind b thrown) (fr'.unwind b thrown)
  returned {b : BlockId} (values : List Value) : b ∈ d.kind.successors →
    Follows strict R ((fr.given d.results values).enter b [])
      ((fr'.given d.results values).enter b [])

namespace Machine

open Exec

/-- What comes after a call in the two runs. -/
inductive Goes (R : Frame → Frame → Prop) : Flow → Flow → Prop
  | next {fr fr' : Frame} : R fr fr' → Goes R (.next fr) (.next fr')
  | done {outcome : Outcome} : Goes R (.done outcome) (.done outcome)

/-- The second caller goes on after its call as the first one does. -/
def Awaits (strict : Prop) (R : Frame → Frame → Prop) (c c' : Frame × CallSite) : Prop :=
  ∀ result, Follows strict (Goes R) (resume c.1 c.2 result) (resume c'.1 c'.2 result)

/-- What an op leads to in the two runs. Functions that are called are related by `C`. -/
inductive FlowFollows (strict : Prop) (R : Frame → Frame → Prop) (C : Func → Func → Prop) :
    Flow → Flow → Prop
  | goes {flow flow' : Flow} : Goes R flow flow' → FlowFollows strict R C flow flow'
  | call {fr fr' : Frame} {site site' : CallSite} {f f' : Func} {args : List Value} :
      Awaits strict R (fr, site) (fr', site') → C f f' →
      FlowFollows strict R C (.call fr site f args) (.call fr' site' f' args)

/-- Where the two runs are after an op. -/
inductive ProgressFollows (strict : Prop) (R : Frame → Frame → Prop) : Progress → Progress → Prop
  | running {fr fr' : Frame} {callers callers' : List (Frame × CallSite)} : R fr fr' →
      List.Forall₂ (Awaits strict R) callers callers' →
      ProgressFollows strict R (.running fr callers) (.running fr' callers')
  | finished {outcome : Outcome} :
      ProgressFollows strict R (.finished outcome) (.finished outcome)

/-- Programs with the same types and related functions. -/
structure Counterparts (C : Func → Func → Prop) (p p' : Program) : Prop where
  types : p'.types = p.types
  func? (name : String) : Option.Rel C (p.func? name) (p'.func? name)

end Machine

namespace Frame.Repeats

variable {R : Frame → Frame → Prop} {fr fr' : Frame} {op : OpId} {d d' : Op}
  (h : Repeats strict R fr d fr' d')

include h

theorem operand (index : Nat) :
    Follows strict Eq (fr.operand op d index) (fr'.operand op d' index) := by
  unfold Frame.operand
  have hlen := h.operands.length_eq
  cases hv : d.operands[index]? with
  | none =>
    rw [List.getElem?_eq_none_iff, hlen, ← List.getElem?_eq_none_iff] at hv
    rw [hv]
    exact .error _
  | some v =>
    obtain ⟨hi, rfl⟩ := List.getElem?_eq_some_iff.mp hv
    have hi' : index < d'.operands.length := hlen ▸ hi
    rw [List.getElem?_eq_getElem hi']
    exact (h.operands.get hi hi').get

theorem operandsFrom (start : Nat) :
    Follows strict Eq (fr.operands d start) (fr'.operands d' start) := by
  have hvs := List.forall₂_drop start h.operands
  unfold Frame.operands
  generalize d.operands.drop start = vs, d'.operands.drop start = vs' at hvs
  induction hvs with
  | nil => exact .refl (fun _ => rfl) _
  | cons hv _ ih =>
    rw [List.mapM_cons, List.mapM_cons]
    exact .bindEq hv.get fun x => .bindEq ih fun xs => .ok rfl

theorem pointer (index : Nat) :
    Follows strict Eq (fr.pointer op d index) (fr'.pointer op d' index) :=
  .bindEq (h.operand index) fun _ => .refl (fun _ => rfl) _

theorem calleeName : Follows strict Eq (fr.calleeName op d) (fr'.calleeName op d') :=
  .bindEq (h.operand 0) fun _ => .refl (fun _ => rfl) _

theorem exception : Follows strict Eq (fr.exception op d) (fr'.exception op d') :=
  .bindEq (h.operand 0) fun _ => .refl (fun _ => rfl) _

theorem raised : Follows strict Eq (fr.raised op d) (fr'.raised op d') := by
  unfold Frame.raised
  generalize d.operands = vs, d'.operands = vs', h.operands = hvs
  cases hvs with
  | nil => exact .error _
  | cons hv _ =>
    refine .bindEq hv.get fun x => ?_
    cases x with
    | exception ty payload => exact .ok rfl
    | _ => exact .bindEq hv.type fun ty => .ok rfl

theorem initialValue :
    Follows strict Eq (Machine.initialValue fr d) (Machine.initialValue fr' d') := by
  have htypes := h.types
  unfold Machine.initialValue
  rw [h.results]
  generalize d.operands = vs, d'.operands = vs', h.operands = hvs
  cases hvs with
  | nil =>
    cases hresults : d.results with
    | nil => exact .ok rfl
    | cons v rest => exact .bindEq (htypes v (by simp [hresults])) fun ty => .ok rfl
  | cons hv _ => exact hv.get

theorem define (x : Value) : Follows strict R (fr.define op d x) (fr'.define op d' x) := by
  cases hresults : d.results with
  | nil =>
    unfold Frame.define
    rw [h.results, hresults]
    exact .error _
  | cons v rest =>
    rw [define_eq hresults, define_eq (h.results.trans hresults), h.results]
    exact .ok (h.given [x])

/-- Both go on after a call. -/
theorem awaits (edges : Option (BlockId × BlockId))
    (hedges : ∀ normal unwind, edges = some (normal, unwind) →
      normal ∈ d.kind.successors ∧ unwind ∈ d.kind.successors) :
    Machine.Awaits strict R (fr, { op := d, edges }) (fr', { op := d', edges }) := by
  intro result
  cases result with
  | ok values =>
    simp only [Machine.resume, defineAll_eq, h.results]
    cases edges with
    | none => exact .ok (.next (h.given _))
    | some edges => exact .map (h.returned _ (hedges edges.1 edges.2 rfl).1) fun _ _ => .next
  | error thrown =>
    cases edges with
    | none => exact .ok .done
    | some edges => exact .map (h.unwind thrown (hedges edges.1 edges.2 rfl).2) fun _ _ => .next

end Frame.Repeats

namespace Machine

open Exec

section

variable {R : Frame → Frame → Prop} {C : Func → Func → Prop} {p p' : Program} {fr fr' : Frame}
  {op : OpId} {d d' : Op}

theorem call_follows (hp : Counterparts C p p') {site site' : CallSite}
    (h : Awaits strict R (fr, site) (fr', site')) (callee : String) (args : List Value) :
    Exec.Follows strict (FlowFollows strict R C) (call p fr site callee args)
      (call p' fr' site' callee args) := by
  have hf := hp.func? callee
  unfold call
  generalize p.func? callee = f, p'.func? callee = f' at hf
  cases hf with
  | some hff' => exact .pure (.call h hff')
  | none =>
    intro s t hst
    have hasked : Store.Alike strict { s with host := (s.host.call callee args).2 }
        { t with host := (t.host.call callee args).2 } :=
      ⟨hst.1, by rw [hst.2.1], fun hs => by rw [hst.2.2 hs]⟩
    have hresume := h (s.host.call callee args).1
    nth_rewrite 2 [← hst.2.1] at hresume
    exact Follows.lift (hresume.mono fun _ _ => .goes) _ _ hasked

theorem allocate_follows (v : Value) : Exec.Follows strict Eq (allocate v) (allocate v) :=
  fun s t hst => .ok ⟨by rw [hst.1], hst.2.1, fun hs => by rw [hst.2.2 hs]⟩ (by rw [hst.1])

theorem read_follows (pointer : Pointer) :
    Exec.Follows strict Eq (read pointer) (read pointer) := by
  intro s t hst
  change ResultFollows _ _ ((liftM (s.heap.read pointer) : Exec Value) s)
    ((liftM (t.heap.read pointer) : Exec Value) t)
  rw [hst.1]
  exact Follows.lift (.refl (fun _ => rfl) _) s t hst

theorem write_follows (pointer : Pointer) (v : Value) :
    Exec.Follows strict Eq (write pointer v) (write pointer v) := by
  intro s t hst
  change ResultFollows _ _ ((liftM (s.heap.write pointer v) >>= fun heap => modify fun s =>
    { s with heap } : Exec Unit) s) ((liftM (t.heap.write pointer v) >>= fun heap => modify fun s =>
    { s with heap } : Exec Unit) t)
  rw [hst.1]
  refine Exec.Follows.bindEq (.refl (fun _ => rfl) _) (fun heap => ?_) s t hst
  intro s t hst
  exact .ok ⟨rfl, hst.2.1, fun hs => by rw [hst.2.2 hs]⟩ rfl

/-- One instruction follows another of the same kind that finds the same operands. -/
theorem runInstr_follows (hp : Counterparts C p p') (h : Frame.Repeats strict R fr d fr' d')
    (i : Instr) :
    Exec.Follows strict (FlowFollows strict R C) (runInstr p fr op d i)
      (runInstr p' fr' op d' i) := by
  have defined (x : Value) : Exec.Follows strict (FlowFollows strict R C)
      (do return .next (← fr.define op d x) : Exec Flow)
      (do return .next (← fr'.define op d' x) : Exec Flow) :=
    .bind (.lift (h.define x)) fun _ _ hfr => .pure (.goes (.next hfr))
  have site : Awaits strict R (fr, { op := d }) (fr', { op := d' }) := h.awaits none (by simp)
  cases i with
  | constant value => exact defined (.ofLiteral value)
  | null => exact defined .null
  | undefined => exact defined .undefined
  | alloc heap =>
    refine .bindEq h.initialValue fun v => .bind (allocate_follows v) fun pointer q hq => ?_
    subst hq
    exact defined (.ref pointer)
  | load =>
    refine .bindEq (h.pointer 0) fun pointer => .bind (read_follows pointer) fun v w hv => ?_
    subst hv
    exact defined v
  | store | saveCatch =>
    exact .bindEq (h.operand 0) fun v => .bindEq (h.pointer 1) fun pointer =>
      .bind (write_follows pointer v) fun _ _ _ => .pure (.goes (.next h.frames))
  | fieldRef index => exact .bindEq (h.pointer 0) fun base => defined (.ref (base.field index))
  | cast =>
    refine .bindEq (h.operand 0) fun v => ?_
    rw [h.results]
    cases hresults : d.results with
    | nil => exact .throw _
    | cons result rest =>
      exact .bindEq (h.types result (by simp [hresults])) fun ty => defined (v.cast ty)
  | binary operator =>
    refine .bindEq (h.operand 0) fun lhs => .bindEq (h.operand 1) fun rhs => ?_
    cases operator.eval? lhs rhs with
    | some v => exact defined v
    | none => exact .throw _
  | call callee => exact .bindEq (h.operandsFrom 0) fun args => call_follows hp site callee args
  | callIndirect =>
    exact .bindEq h.calleeName fun callee => .bindEq (h.operandsFrom 1) fun args =>
      call_follows hp site callee args
  | landingPad cleanup catches =>
    unfold runInstr
    rw [h.inFlight]
    cases fr.inFlight with
    | some thrown => exact defined (.exception thrown.ty thrown.payload)
    | none => exact .throw _
  | matchType token =>
    refine .bindEq h.exception fun thrown => ?_
    rw [hp.types]
    exact defined _
  | beginCatch => exact .bindEq h.exception fun thrown => defined thrown.payload
  | endCatch => exact .pure (.goes (.next h.landed))
  | beginCleanup => exact .pure (.goes (.next h.frames))

/-- One transfer follows another of the same kind that finds the same operands. -/
theorem runTransfer_follows (hp : Counterparts C p p') (h : Frame.Repeats strict R fr d fr' d')
    {t : Transfer} (ht : d.kind = .transfer t) :
    Exec.Follows strict (FlowFollows strict R C) (runTransfer p fr op d t)
      (runTransfer p' fr' op d' t) := by
  have hsucc : d.kind.successors = t.successors := by rw [ht]; rfl
  have entered {target : BlockId} (hb : target ∈ t.successors) (args : List Value) :
      Exec.Follows strict (FlowFollows strict R C)
        (do return .next (← fr.enter target args) : Exec Flow)
        (do return .next (← fr'.enter target args) : Exec Flow) :=
    .bind (.lift (h.enter args (hsucc ▸ hb))) fun _ _ hfr => .pure (.goes (.next hfr))
  have unwound {pad : BlockId} (hb : pad ∈ t.successors) (thrown : Thrown) :
      Exec.Follows strict (FlowFollows strict R C)
        (do return .next (← fr.unwind pad thrown) : Exec Flow)
        (do return .next (← fr'.unwind pad thrown) : Exec Flow) :=
    .bind (.lift (h.unwind thrown (hsucc ▸ hb))) fun _ _ hfr => .pure (.goes (.next hfr))
  cases t with
  | br target =>
    exact .bindEq (h.operandsFrom 0) fun args => entered (by simp [Transfer.successors]) args
  | condBr thenTo elseTo thenArgs =>
    refine .bindEq (h.operand 0) fun flag => .bindEq (h.operandsFrom 1) fun args => ?_
    cases flag.truthy with
    | true => exact entered (by simp [Transfer.successors]) _
    | false => exact entered (by simp [Transfer.successors]) _
  | switchInt default cases =>
    refine .bindEq (h.operand 0) fun v => ?_
    cases v.asInt? with
    | some n =>
      refine entered ?_ []
      cases hfind : cases.find? (·.1 == n) with
      | none => simp [Transfer.successors]
      | some c =>
        exact List.mem_cons_of_mem _ (List.mem_map_of_mem (List.mem_of_find?_eq_some hfind))
    | none => exact .throw _
  | invoke callee normal unwind =>
    have site := h.awaits (some (normal, unwind)) (by rw [hsucc]; simp [Transfer.successors])
    cases callee with
    | symbol callee => exact .bindEq (h.operandsFrom 0) fun args => call_follows hp site callee args
    | indirect =>
      exact .bindEq h.calleeName fun callee => .bindEq (h.operandsFrom 1) fun args =>
        call_follows hp site callee args
  | throwTo pad =>
    exact .bindEq h.raised fun thrown => unwound (by simp [Transfer.successors]) thrown
  | throwOut => exact .bindEq h.raised fun thrown => .pure (.goes .done)
  | endCleanup outer =>
    refine .bindEq h.raised fun thrown => ?_
    cases outer with
    | some pad => exact unwound (by simp [Transfer.successors]) thrown
    | none => exact .pure (.goes .done)
  | ret =>
    unfold runTransfer
    generalize d.operands = vs, d'.operands = vs', h.operands = hvs
    cases hvs with
    | nil => exact .pure (.goes .done)
    | cons hv _ => exact .bindEq hv.get fun v => .pure (.goes .done)
  | unreachable => exact .throw _

theorem runOp_none (hd : fr.func.op? op = none) : runOp p fr op = throw .outOfRange := by
  unfold runOp
  rw [hd]
  rfl

theorem runOp_instr {i : Instr} (hd : fr.func.op? op = some d) (hk : d.kind = .instr i) :
    runOp p fr op = runInstr p fr op d i := by
  cases d
  subst hk
  unfold runOp
  rw [hd]
  rfl

theorem runOp_transfer {t : Transfer} (hd : fr.func.op? op = some d) (hk : d.kind = .transfer t) :
    runOp p fr op = runTransfer p fr op d t := by
  cases d
  subst hk
  unfold runOp
  rw [hd]
  rfl

theorem runOp_construct {c : Construct} (hd : fr.func.op? op = some d)
    (hk : d.kind = .construct c) :
    runOp p fr op = throw (.structuredOp (.construct c) fr.func.name op) := by
  cases d
  subst hk
  unfold runOp
  rw [hd]
  rfl

theorem runOp_follows (hp : Counterparts C p p') (hd : fr.func.op? op = some d)
    (hd' : fr'.func.op? op = some d') (h : Frame.Repeats strict R fr d fr' d') :
    Exec.Follows strict (FlowFollows strict R C) (runOp p fr op) (runOp p' fr' op) := by
  cases hk : d.kind with
  | instr i =>
    rw [runOp_instr hd hk, runOp_instr hd' (h.kind.trans hk)]
    exact runInstr_follows hp h i
  | transfer t =>
    rw [runOp_transfer hd hk, runOp_transfer hd' (h.kind.trans hk)]
    exact runTransfer_follows hp h hk
  | construct c =>
    rw [runOp_construct hd hk, runOp_construct hd' (h.kind.trans hk)]
    exact fun s t hst => .stop fun hs => by rw [h.name hs, hst.2.2 hs]; rfl

/-- What follows an op follows what follows the other. -/
theorem advance_follows
    (hstart : ∀ f f' args, C f f' → Follows strict R (Frame.start f args) (Frame.start f' args))
    {callers callers' : List (Frame × CallSite)}
    (hc : List.Forall₂ (Awaits strict R) callers callers') {flow flow' : Flow}
    (h : FlowFollows strict R C flow flow') :
    Follows strict (ProgressFollows strict R) (advance callers flow) (advance callers' flow') := by
  induction hc generalizing flow flow' with
  | nil =>
    obtain (hfr | _) | ⟨hcall, hff'⟩ := h
    · exact .ok (.running hfr .nil)
    · exact .ok .finished
    · exact .bind (hstart _ _ _ hff') fun _ _ hfr => .ok (.running hfr (.cons hcall .nil))
  | cons hcaller hcallers ih =>
    obtain (hfr | _) | ⟨hcall, hff'⟩ := h
    · exact .ok (.running hfr (.cons hcaller hcallers))
    · exact .bind (hcaller _) fun _ _ hflow => ih (.goes hflow)
    · exact .bind (hstart _ _ _ hff') fun _ _ hfr =>
        .ok (.running hfr (.cons hcall (.cons hcaller hcallers)))

end

/-! ## Runs -/

/-- From one frame the machine comes to the other without touching heap or host. -/
inductive Slides (p : Program) : Frame → Frame → Prop
  | refl (fr : Frame) : Slides p fr fr
  | step {fr fr' fr'' : Frame} {op : OpId} {rest : List OpId} : fr.rest = op :: rest →
      (∀ s, runOp p { fr with rest } op s = .ok (.next fr') s) → Slides p fr' fr'' →
      Slides p fr fr''

variable {p p' : Program}

variable {fr : Frame} {callers : List (Frame × CallSite)} {op : OpId} {s s' : Store}
  {progress : Progress}

theorem step_eq_ok (h : step p fr callers op s = .ok progress s') :
    ∃ flow, runOp p fr op s = .ok flow s' ∧ advance callers flow = .ok progress := by
  unfold step at h
  change EStateM.bind _ _ _ = _ at h
  unfold EStateM.bind at h
  cases hop : runOp p fr op s with
  | error e s₁ => rw [hop] at h; cases h
  | ok flow s₁ =>
    rw [hop] at h
    change (liftM (advance callers flow) : Exec Progress) s₁ = _ at h
    cases hadvance : advance callers flow with
    | error e => rw [hadvance] at h; cases h
    | ok progress' =>
      rw [hadvance] at h
      cases h
      exact ⟨flow, rfl, hadvance⟩

theorem step_of_ok {flow : Flow} (hop : runOp p fr op s = .ok flow s')
    (h : advance callers flow = .ok progress) : step p fr callers op s = .ok progress s' := by
  unfold step
  change EStateM.bind _ _ _ = _
  rw [EStateM.bind, hop]
  change (liftM (advance callers flow) : Exec Progress) s' = _
  rw [h]
  rfl

theorem advance_next (callers : List (Frame × CallSite)) (fr : Frame) :
    advance callers (.next fr) = .ok (.running fr callers) := by
  cases callers <;> rfl

theorem Slides.runWithin {fr' : Frame} (h : Slides p fr fr') :
    ∃ n, ∀ limit budget callers s, Machine.runWithin p limit (budget + n) fr callers s =
      Machine.runWithin p limit budget fr' callers { s with steps := s.steps + n } := by
  induction h with
  | refl fr => exact ⟨0, fun _ _ _ _ => rfl⟩
  | @step fr fr₁ fr' op rest hrest hop _ ih =>
    obtain ⟨n, ih⟩ := ih
    refine ⟨n + 1, fun limit budget callers s => ?_⟩
    have hstep : Machine.step p { fr with rest } callers op (counted s) =
        .ok (.running fr₁ callers) (counted s) :=
      step_of_ok (hop _) (advance_next callers fr₁)
    rw [← Nat.add_assoc, runWithin_succ hrest]
    change EStateM.bind _ _ _ = _
    rw [EStateM.bind, hstep]
    change Machine.runWithin p limit (budget + n) fr₁ callers (counted s) = _
    rw [ih]
    congr 1
    change ({ s with steps := s.steps + 1 + n } : Store) = { s with steps := s.steps + (n + 1) }
    rw [Nat.add_assoc, Nat.add_comm 1 n]

/-- What a relation of frames needs for one run to follow another: wherever the first is at an op,
the second can come to an op that follows it, or the op only moves the first. -/
structure Simulates (R : Frame → Frame → Prop) (C : Func → Func → Prop) (p p' : Program) :
    Prop where
  start (f f' : Func) (args : List Value) : C f f' →
    Follows False R (Frame.start f args) (Frame.start f' args)
  programs : Counterparts C p p'
  step {fr fr' : Frame} {op : OpId} {rest : List OpId} : R fr fr' → fr.rest = op :: rest →
    ∃ fr'', Slides p' fr' fr'' ∧
      ((∀ s flow s', runOp p { fr with rest } op s = .ok flow s' →
          s' = s ∧ ∃ fr₁, flow = .next fr₁ ∧ R fr₁ fr'') ∨
        ∃ op' rest', fr''.rest = op' :: rest' ∧
          Exec.Follows False (FlowFollows False R C) (runOp p { fr with rest } op)
            (runOp p' { fr'' with rest := rest' } op'))

namespace Simulates

variable {R : Frame → Frame → Prop} {C : Func → Func → Prop}

variable {limit : Nat} {s s' : Store} {outcome : Outcome}

theorem runWithin (h : Simulates R C p p') {budget : Nat} {fr fr' : Frame}
    {callers callers' : List (Frame × CallSite)} {t : Store} (hfr : R fr fr')
    (hc : List.Forall₂ (Awaits False R) callers callers') (hst : s.Alike False t)
    (hrun : Machine.runWithin p limit budget fr callers s = .ok outcome s') :
    ∃ n t', s'.Alike False t' ∧
      ∀ limit', Machine.runWithin p' limit' n fr' callers' t = .ok outcome t' := by
  induction budget generalizing fr fr' callers callers' s t with
  | zero =>
    cases hrest : fr.rest with
    | nil => rw [runWithin_nil hrest] at hrun; cases hrun
    | cons op rest => rw [runWithin_zero hrest] at hrun; cases hrun
  | succ budget ih =>
    cases hrest : fr.rest with
    | nil => rw [runWithin_nil hrest] at hrun; cases hrun
    | cons op rest =>
      obtain ⟨e, s₁, -, hstops⟩ | ⟨progress, s₁, hstep, hgoes⟩ :=
        @runWithin_cons p fr callers s op rest hrest
      · rw [hstops] at hrun
        cases hrun
      rw [hgoes] at hrun
      obtain ⟨flow, hop, hadvance⟩ := step_eq_ok hstep
      obtain ⟨fr'', hslides, hcase⟩ := h.step hfr hrest
      obtain ⟨n, hslide⟩ := hslides.runWithin
      have hcounted : (counted s).Alike False { t with steps := t.steps + n } :=
        ⟨hst.1, hst.2.1, False.elim⟩
      obtain hsilent | ⟨op', rest', hrest', hfollows⟩ := hcase
      · -- the op only moves the first run
        obtain ⟨rfl, fr₁, rfl, hfr₁⟩ := hsilent _ _ _ hop
        rw [advance_next] at hadvance
        cases hadvance
        obtain ⟨m, t', ht', hm⟩ := ih hfr₁ hc hcounted hrun
        exact ⟨m + n, t', ht', fun limit' => (hslide limit' m callers' t).trans (hm limit')⟩
      · -- the two runs take one step each
        have hops := hfollows (counted s) (counted { t with steps := t.steps + n })
          ⟨hst.1, hst.2.1, False.elim⟩
        rw [hop] at hops
        obtain ⟨flow', t₁, hop', hst₁, hflow⟩ := hops.of_ok
        have hgoes' := advance_follows h.start hc hflow
        rw [hadvance] at hgoes'
        obtain ⟨progress', hadvance', hprogress⟩ := hgoes'.of_ok
        have hstep' := step_of_ok hop' hadvance'
        have hgo (limit' m : Nat) : Machine.runWithin p' limit' (m + 1 + n) fr' callers' t =
            carryOn p' limit' m progress' t₁ := by
          rw [hslide, runWithin_succ hrest']
          change EStateM.bind _ _ _ = _
          rw [EStateM.bind, hstep']
        cases hprogress with
        | finished =>
          cases hrun
          exact ⟨0 + 1 + n, t₁, hst₁, fun limit' => hgo limit' 0⟩
        | running hfr₁ hc₁ =>
          obtain ⟨m, t', ht', hm⟩ := ih hfr₁ hc₁ hst₁ hrun
          exact ⟨m + 1 + n, t', ht', fun limit' => (hgo limit' m).trans (hm limit')⟩

/-- Whenever a call from outside has an outcome, the other program's has it too, if the limit is
large enough, and leaves the same heap and host. -/
theorem run (h : Simulates R C p p') {name : String} {args : List Value}
    (hrun : Machine.run p limit name args s = .ok outcome s') :
    ∃ n, ∀ limit' ≥ n, ∃ t', s'.Alike False t' ∧
      Machine.run p' limit' name args s = .ok outcome t' := by
  have hf := h.programs.func? name
  generalize hp : p.func? name = f, hp' : p'.func? name = f' at hf
  cases hf with
  | none => rw [run_of_none hp] at hrun; cases hrun
  | @some f f' hff' =>
    cases hstart : Frame.start f args with
    | error e => rw [run_of_start_error hp hstart] at hrun; cases hrun
    | ok fr =>
      rw [run_of_start_ok hp hstart] at hrun
      obtain ⟨fr', hstart', hfr⟩ := (hstart ▸ h.start f f' args hff').of_ok
      obtain ⟨n, t', ht', hn⟩ := h.runWithin hfr .nil (.refl _) hrun
      refine ⟨n, fun limit' hle => ⟨t', ht', ?_⟩⟩
      rw [run_of_start_ok hp' hstart', ← hn 0]
      exact runWithin_of_not_cut hle (by rw [hn 0]; rfl)

end Simulates

/-- A call that is not cut is the same under a higher limit. -/
theorem run_of_not_cut {limit limit' : Nat} {name : String} {args : List Value}
    (hle : limit ≤ limit') (hcut : isCut (run p limit name args s) = false) :
    run p limit' name args s = run p limit name args s := by
  cases hf : p.func? name with
  | none => rw [run_of_none hf, run_of_none hf]
  | some f =>
    cases hfr : Frame.start f args with
    | error e => rw [run_of_start_error hf hfr, run_of_start_error hf hfr]
    | ok fr =>
      rw [run_of_start_ok hf hfr] at hcut
      rw [run_of_start_ok hf hfr, run_of_start_ok hf hfr]
      exact runWithin_of_not_cut hle hcut

end Machine

end Unnest
