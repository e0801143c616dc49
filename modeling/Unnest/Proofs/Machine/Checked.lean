import Unnest.Proofs.Machine.Failing
import Unnest.Proofs.Machine.Grounded
import Unnest.Proofs.Machine.Lockstep
import Unnest.Proofs.Ownership.Reachable
/-!
# Runs of checked functions

The check of lowered functions looks at one block and one op at a time. What it finds is enough for
the machine: in a function that passes it and whose nodes are owned, control stays in the blocks of
the body, each of which ends in its only terminator, so that it neither runs off the end of a block
nor meets a construct (`Frame.Placed`, carried from moment to moment by `Passes.placed`).

Branches enter their targets with as many values as those take. The other edges, those of switches,
invokes, throws and cleanups, pass nothing, and the check does not ask whether their targets take
nothing. A failure of that kind is the only one of control that the check leaves possible
(`Func.Spared`).
-/

namespace Unnest

open RunError (Fails)

/-! ## Frames of a checked function -/

/-- The kinds of op whose edges pass nothing. -/
def OpKind.entersBare : OpKind → Bool
  | .transfer (.br _) | .transfer (.condBr ..) => false
  | _ => true

/-- An edge that passes nothing leads to the block. -/
def Func.EnteredBare (f : Func) (b : BlockId) : Prop :=
  ∃ c ∈ f.blocksIn f.body, ∃ x ∈ f.opsIn c, ∃ d, f.op? x = some d ∧ d.kind.entersBare = true ∧
    b ∈ d.kind.successors

/-- A failure of control only by an edge that passes nothing to a block that takes something. -/
def Func.Spared (f : Func) (e : RunError) : Prop :=
  e.isControl = true → ∃ b d, f.EnteredBare b ∧ f.block? b = some d ∧ d.args ≠ [] ∧
    e = .arity b d.args.length 0

namespace Func

/-- The op is there, and something may follow it in its block. -/
def Runs (f : Func) (x : OpId) : Prop := f.kindIs (fun k => !k.isTerminator) x = true

/-- The op is there, and nothing may follow it. -/
def Ends (f : Func) (x : OpId) : Prop := f.kindIs OpKind.isTerminator x = true

/-- The block has one terminator, its last op. -/
def EndsOnce (f : Func) (b : BlockId) : Prop :=
  ∃ init last, f.opsIn b = init ++ [last] ∧ (∀ x ∈ init, f.Runs x) ∧ f.Ends last

end Func

/-- What the check finds. -/
structure Func.Checked (f : Func) : Prop where
  ends {b : BlockId} : b ∈ f.blocksIn f.body → f.EndsOnce b
  op {b : BlockId} {x : OpId} {d : Op} : b ∈ f.blocksIn f.body → x ∈ f.opsIn b →
    f.op? x = some d → d.kind.isStructured = false ∧
      (∀ c ∈ d.kind.successors, c ∈ f.blocksIn f.body) ∧ f.checkArguments x d = .ok ()

namespace Func

variable {f : Func} {b : BlockId} {x : OpId} {d : Op}

theorem existing_eq_ok {o : Option α} {a : α} (h : existing o = .ok a) : o = some a := by
  cases o with
  | none => cases h
  | some a' => cases h; rfl

theorem kindIs_of_kind {k : OpKind} (h : f.kind x = .ok k) (p : OpKind → Bool) :
    f.kindIs p x = p k := by
  unfold kind op at h
  cases hd : f.op? x with
  | none => simp [hd, existing, Functor.map, Except.map] at h
  | some d =>
    simp only [hd, existing, Functor.map, Except.map, Except.ok.injEq] at h
    simp [kindIs, hd, h]

/-- A guard that lets the check go on. -/
theorem of_guard {c : Prop} [Decidable c] {e : Stop} {k : Unit → Except Stop β} {r : β}
    (h : (if c then (throw e >>= k : Except Stop β) else k ()) = .ok r) : ¬ c ∧ k () = .ok r := by
  split at h
  · cases h
  · exact ⟨‹_›, h⟩

theorem of_checkBlock (h : f.checkBlock b = .ok ()) :
    f.EndsOnce b ∧ ∀ x ∈ f.opsIn b, f.checkOp x = .ok () := by
  obtain ⟨bd, hbd, h⟩ := Except.bind_eq_ok h
  have hops : f.opsIn b = bd.ops := by simp [opsIn, existing_eq_ok hbd]
  obtain ⟨-, h⟩ := of_guard h
  dsimp only at h
  split at h
  · cases h
  rename_i last hlast
  obtain ⟨k, hk, h⟩ := Except.bind_eq_ok h
  obtain ⟨hterm, h⟩ := of_guard h
  obtain ⟨⟨⟩, hinner, hcheck⟩ := Except.bind_eq_ok h
  refine ⟨⟨bd.ops.dropLast, last, ?_, fun x hx => ?_, ?_⟩, fun x hx => ?_⟩
  · rw [hops, List.dropLast_append_getLast? last hlast]
  · obtain ⟨k', hk', h'⟩ := Except.bind_eq_ok (forM_eq_ok_iff.mp hinner x hx)
    split at h'
    · cases h'
    · rename_i hinner'
      simpa [Runs, kindIs_of_kind hk'] using hinner'
  · simpa [Ends, kindIs_of_kind hk] using hterm
  · exact forM_eq_ok_iff.mp hcheck x (hops ▸ hx)

theorem of_checkOp (hf : f.Owned) (hd : f.op? x = some d) (h : f.checkOp x = .ok ()) :
    d.kind.isStructured = false ∧ (∀ c ∈ d.kind.successors, c ∈ f.blocksIn f.body) ∧
      f.checkArguments x d = .ok () := by
  obtain ⟨d', hd', h⟩ := Except.bind_eq_ok h
  cases hd.symm.trans (existing_eq_ok hd')
  obtain ⟨hkind, h⟩ := of_guard h
  obtain ⟨⟨⟩, -, h⟩ := Except.bind_eq_ok h
  obtain ⟨⟨⟩, hedges, hargs⟩ := Except.bind_eq_ok h
  refine ⟨by simpa using hkind, fun c hc => ?_, hargs⟩
  obtain ⟨bd, hbd, h⟩ := Except.bind_eq_ok (forM_eq_ok_iff.mp hedges c hc)
  split at h
  · cases h
  rename_i hlive
  have hparent : bd.live = true ∧ bd.parent = some f.body := by simpa using hlive
  rw [hf.blocks, ownerOfBlock, existing_eq_ok hbd]
  exact hparent.2

/-- A branch that passes the check gives its target what that takes. -/
theorem args_of_br {c : BlockId} {bd : Block} (h : f.checkArguments x d = .ok ())
    (hd : d.kind = .transfer (.br c)) (hbd : f.block? c = some bd) :
    bd.args.length = d.operands.length := by
  unfold checkArguments at h
  simp only [hd, block, hbd, existing] at h
  obtain ⟨bd', hbd', h⟩ := Except.bind_eq_ok h
  cases hbd'
  split at h
  · cases h
  · rename_i heq
    simpa using heq

theorem args_of_condBr {c c' : BlockId} {n : Nat} (h : f.checkArguments x d = .ok ())
    (hd : d.kind = .transfer (.condBr c c' n)) :
    (∀ bd, f.block? c = some bd → bd.args.length = n ∧ n + 1 ≤ d.operands.length) ∧
      ∀ bd, f.block? c' = some bd → bd.args.length = d.operands.length - 1 - n := by
  unfold checkArguments at h
  simp only [hd] at h
  obtain ⟨bd₁, hbd₁, h⟩ := Except.bind_eq_ok h
  obtain ⟨bd₂, hbd₂, h⟩ := Except.bind_eq_ok h
  split at h
  · cases h
  rename_i heq
  have hlen : n = bd₁.args.length ∧ d.operands.length = 1 + bd₁.args.length + bd₂.args.length := by
    simpa using heq
  refine ⟨fun bd hbd => ?_, fun bd hbd => ?_⟩
  · cases hbd.symm.trans (existing_eq_ok hbd₁)
    omega
  · cases hbd.symm.trans (existing_eq_ok hbd₂)
    omega

theorem checked_of_checkLowered (hf : f.Owned) (h : f.checkLowered = .ok ()) : f.Checked := by
  obtain ⟨l, hl, h⟩ := Except.bind_eq_ok h
  have hbody : f.blocksIn f.body = l := by
    unfold bodyBlocks region at hl
    cases hr : f.region? f.body with
    | none => simp [hr, existing, Functor.map, Except.map] at hl
    | some rd =>
      simp only [hr, existing, Functor.map, Except.map, Except.ok.injEq] at hl
      simp [blocksIn, hr, hl]
  obtain ⟨-, h⟩ := of_guard h
  have hblock {b : BlockId} (hb : b ∈ f.blocksIn f.body) :=
    of_checkBlock (forM_eq_ok_iff.mp h b (hbody ▸ hb))
  exact ⟨fun hb => (hblock hb).1,
    fun hb hx hd => of_checkOp hf hd ((hblock hb).2 _ hx)⟩

theorem EnteredBare.mem (h : f.EnteredBare b) (hf : f.Checked) : b ∈ f.blocksIn f.body := by
  obtain ⟨c, hc, x, hx, d, hd, -, hb⟩ := h
  exact (hf.op hc hx hd).2.1 b hb

end Func

/-- A frame of `f` has ops left to run, at the end of a block of the body. -/
def Frame.Placed (f : Func) (fr : Frame) : Prop :=
  fr.func = f → fr.rest ≠ [] ∧ ∃ b ∈ f.blocksIn f.body, fr.rest <:+ f.opsIn b

/-- A suspended caller in `f` has ops left to run, or edges to blocks of the body. -/
def Frame.Awaits (f : Func) (fr : Frame) (site : CallSite) : Prop :=
  match site.edges with
  | none => fr.Placed f
  | some (normal, unwind) => fr.func = f → f.EnteredBare normal ∧ f.EnteredBare unwind

/-- Where an op leads. -/
def Flow.Placed (f : Func) : Flow → Prop
  | .next fr => fr.Placed f
  | .call fr site _ _ => fr.Awaits f site
  | .done _ => True

/-- Where a run stands. -/
def Progress.Placed (f : Func) : Progress → Prop
  | .running fr callers => fr.Placed f ∧ ∀ c ∈ callers, c.1.Awaits f c.2
  | .finished _ => True

/-- Where a run is. -/
def Moment.Placed (f : Func) (m : Moment) : Prop :=
  m.frame.Placed f ∧ ∀ c ∈ m.callers, c.1.Awaits f c.2

namespace Frame

open Exec

variable {f : Func} {fr : Frame} {op : OpId} {d : Op} {b : BlockId}

/-- Entering a block of the body. -/
theorem enter_placed (hf : f.Checked) (hb : fr.func = f → b ∈ f.blocksIn f.body)
    {args : List Value} {fr' : Frame} (h : fr.enter b args = .ok fr') : fr'.Placed f := by
  obtain ⟨bd, hbd, -, rfl⟩ := eq_of_enter h
  intro hfunc
  have hfunc : fr.func = f := hfunc
  have hops : f.opsIn b = bd.ops := by simp [Func.opsIn, ← hfunc, hbd]
  refine ⟨?_, b, hb hfunc, hops ▸ List.suffix_refl _⟩
  obtain ⟨init, last, hends, -⟩ := hf.ends (hb hfunc)
  simp [← hops, hends]

/-- Entering a block fails on control only for the number of arguments. -/
theorem arity_of_enter {args : List Value} {e : RunError} (h : fr.enter b args = .error e)
    (he : e.isControl = true) : ∃ bd, fr.func.block? b = some bd ∧ bd.args.length ≠ args.length ∧
      e = .arity b bd.args.length args.length := by
  obtain ⟨-, rfl⟩ | h := enter_error h
  · simp [RunError.isControl] at he
  · exact h

/-- An edge that passes nothing. -/
theorem enter_bare (hb : fr.func = f → f.EnteredBare b) {e : RunError}
    (h : fr.enter b [] = .error e) (hfr : fr.func = f) : f.Spared e := by
  intro he
  obtain ⟨bd, hbd, hne, rfl⟩ := arity_of_enter h he
  exact ⟨b, bd, hb hfr, hfr ▸ hbd, by simpa using hne, rfl⟩

theorem length_operands {start : Nat} {vs : List Value} (h : fr.operands d start = .ok vs) :
    vs.length = d.operands.length - start := by
  have hlen : ∀ {l : List ValueId} {vs : List Value}, l.mapM fr.get = .ok vs →
      vs.length = l.length := by
    intro l
    induction l with
    | nil =>
      intro vs h
      cases h
      rfl
    | cons v l ih =>
      intro vs h
      rw [List.mapM_cons] at h
      cases hv : fr.get v with
      | error e => simp [hv, bind, Except.bind] at h
      | ok w =>
        cases hl : l.mapM fr.get with
        | error e => simp [hv, hl, bind, Except.bind] at h
        | ok ws =>
          simp only [hv, hl, bind, Except.bind, pure, Except.pure, Except.ok.injEq] at h
          simp [← h, ih hl]
  simpa using hlen h

end Frame

namespace Machine

open Exec

variable {f : Func} {p : Program} {fr : Frame} {op : OpId} {d : Op}

variable {site : CallSite}

/-- Going on after a call, in a caller that waits for it. -/
theorem resume_placed (hf : f.Checked) (h : fr.Awaits f site) (result : CallResult) :
    (∀ flow, resume fr site result = .ok flow → flow.Placed f) ∧
      ∀ e, resume fr site result = .error e → fr.func = f → f.Spared e := by
  obtain ⟨sop, edges⟩ := site
  have henter {fr' : Frame} {b : BlockId} (hfr : fr'.func = fr.func)
      (hb : fr.func = f → f.EnteredBare b) :
      (∀ flow, Flow.next <$> fr'.enter b [] = .ok flow → flow.Placed f) ∧
        ∀ e, Flow.next <$> fr'.enter b [] = .error e → fr.func = f → f.Spared e := by
    cases hx : fr'.enter b [] with
    | ok fr₁ =>
      refine ⟨fun flow hflow => ?_, fun e he => (by cases he)⟩
      cases hflow
      exact Frame.enter_placed hf (fun hfr' => (hb (hfr ▸ hfr')).mem hf) hx
    | error e =>
      refine ⟨fun flow hflow => (by cases hflow), fun e' he hfr' => ?_⟩
      cases he
      exact Frame.enter_bare (fun _ => hb hfr') hx (hfr ▸ hfr')
  cases result with
  | ok values =>
    cases edges with
    | none =>
      refine ⟨fun flow hflow => ?_, fun e he => (by cases he)⟩
      cases hflow
      exact h
    | some p => exact henter rfl fun hfr => (h hfr).1
  | error thrown =>
    cases edges with
    | none =>
      refine ⟨fun flow hflow => ?_, fun e he => (by cases he)⟩
      cases hflow
      trivial
    | some p => exact henter rfl fun hfr => (h hfr).2

theorem call_yields (hf : f.Checked) (h : fr.Awaits f site) (callee : String) (args : List Value) :
    Yields (call p fr site callee args) (Flow.Placed f) fun e => fr.func = f → f.Spared e := by
  intro s
  unfold call
  cases p.func? callee with
  | some g => exact h
  | none =>
    have hresume := resume_placed hf h (s.host.call callee args).1
    exact Yields.lift hresume.1 hresume.2 { s with host := (s.host.call callee args).2 }

/-- What is not due to control is allowed. -/
theorem spared_of_not_isControl {e : RunError} (h : e.isControl = false) : f.Spared e :=
  fun hc => by simp [h] at hc

theorem spared_of_isPlain (e : RunError) (h : e.isPlain = true) : f.Spared e :=
  spared_of_not_isControl (by cases e <;> first | rfl | cases h)

/-- A transfer of a function that passed the check. -/
theorem runTransfer_yields (hf : f.Checked) (t : Transfer) (hd : d.kind = .transfer t)
    (hop : fr.func = f → ∃ c ∈ f.blocksIn f.body, op ∈ f.opsIn c ∧ f.op? op = some d) :
    Yields (runTransfer p fr op d t) (Flow.Placed f) fun e => fr.func = f → f.Spared e := by
  have plain (e : RunError) (he : e.isPlain = true) : fr.func = f → f.Spared e :=
    fun _ => spared_of_isPlain e he
  have raised : Fails (fun e => fr.func = f → f.Spared e) (fr.raised op d) :=
    fr.raised_fails plain op d fun _ _ _ => .map (.ofNode fun _ _ => spared_of_not_isControl rfl)
  have target (b : BlockId) (hb : b ∈ t.successors) (hfr : fr.func = f) :
      b ∈ f.blocksIn f.body := by
    obtain ⟨c, hc, hx, hopd⟩ := hop hfr
    exact (hf.op hc hx hopd).2.1 b (by simpa [hd, OpKind.successors] using hb)
  have bare (ht : (OpKind.transfer t).entersBare = true) (b : BlockId) (hb : b ∈ t.successors)
      (hfr : fr.func = f) : f.EnteredBare b := by
    obtain ⟨c, hc, hx, hopd⟩ := hop hfr
    exact ⟨c, hc, op, hx, d, hopd, hd ▸ ht, by simpa [hd, OpKind.successors] using hb⟩
  have passing (b : BlockId) (args : List Value) (hb : b ∈ t.successors)
      (hargs : fr.func = f → ∀ bd, f.block? b = some bd → bd.args.length = args.length) :
      Yields (do return .next (← fr.enter b args)) (Flow.Placed f)
        fun e => fr.func = f → f.Spared e := by
    refine .bind (P := fun fr' => fr'.Placed f) (.lift (fun fr' hfr' => ?_) fun e he hfr hc => ?_)
      fun _ h' => .pure h'
    · exact Frame.enter_placed hf (target b hb) hfr'
    · obtain ⟨bd, hbd, hne, -⟩ := Frame.arity_of_enter he hc
      exact (hne (hargs hfr bd (hfr ▸ hbd))).elim
  have empty {fr' : Frame} (b : BlockId) (hfr' : fr'.func = fr.func) (hb : b ∈ t.successors)
      (ht : (OpKind.transfer t).entersBare = true) :
      Yields (do return .next (← fr'.enter b [])) (Flow.Placed f)
        fun e => fr.func = f → f.Spared e :=
    .bind (P := fun fr' => fr'.Placed f) (.lift
      (fun _ hx => Frame.enter_placed hf (fun h => target b hb (hfr' ▸ h)) hx)
      fun e he hfr => Frame.enter_bare (fun _ => bare ht b hb hfr) he (hfr' ▸ hfr))
      fun _ h' => .pure h'
  have checked (hfr : fr.func = f) : f.checkArguments op d = .ok () := by
    obtain ⟨c, hc, hx, hopd⟩ := hop hfr
    exact (hf.op hc hx hopd).2.2
  cases t with
  | br b =>
    refine .read (fr.operands_fails plain d 0) fun args hargs =>
      passing b args (by simp [Transfer.successors]) fun hfr bd hbd => ?_
    rw [Frame.length_operands hargs]
    exact Func.args_of_br (checked hfr) hd hbd
  | condBr b c n =>
    refine .read (fr.operand_fails plain op d 0) fun flag _ =>
      .read (fr.operands_fails plain d 1) fun args hargs => ?_
    have hlen := Frame.length_operands hargs
    split
    · refine passing b _ (by simp [Transfer.successors]) fun hfr bd hbd => ?_
      have := (Func.args_of_condBr (checked hfr) hd).1 bd hbd
      rw [List.length_take]
      omega
    · refine passing c _ (by simp [Transfer.successors]) fun hfr bd hbd => ?_
      have := (Func.args_of_condBr (checked hfr) hd).2 bd hbd
      rw [List.length_drop]
      omega
  | switchInt default cases =>
    refine .read (fr.operand_fails plain op d 0) fun v _ => ?_
    dsimp only
    cases v.asInt? with
    | none => exact .throw (plain _ rfl)
    | some n =>
      refine empty _ rfl ?_ rfl
      cases hfind : cases.find? (·.1 == n) with
      | none => simp [Transfer.successors]
      | some c =>
        have := List.mem_of_find?_eq_some hfind
        simp only [Transfer.successors, Option.map_some, Option.getD_some, List.mem_cons,
          List.mem_map]
        exact .inr ⟨c, this, rfl⟩
  | invoke callee normal unwind =>
    have hwait : fr.Awaits f { op := d, edges := some (normal, unwind) } := fun hfr =>
      ⟨bare rfl normal (by simp [Transfer.successors]) hfr,
        bare rfl unwind (by simp [Transfer.successors]) hfr⟩
    cases callee with
    | symbol callee =>
      exact .read (fr.operands_fails plain d 0) fun args _ => call_yields hf hwait callee args
    | indirect =>
      exact .read (fr.calleeName_fails plain op d) fun callee _ =>
        .read (fr.operands_fails plain d 1) fun args _ => call_yields hf hwait callee args
  | throwTo unwind =>
    exact .read raised fun thrown _ =>
      empty unwind rfl (by simp [Transfer.successors]) rfl
  | throwOut => exact .read raised fun _ _ => .pure trivial
  | endCleanup outer =>
    refine .read raised fun thrown _ => ?_
    cases outer with
    | none => exact .pure trivial
    | some unwind => exact empty unwind rfl (by simp [Transfer.successors]) rfl
  | ret =>
    simp only [runTransfer]
    split
    · exact .pure trivial
    · exact .read (fr.get_fails plain _) fun _ _ => .pure trivial
  | unreachable => exact .throw (plain _ rfl)

/-- The next op of a frame. -/
theorem runOp_yields (hf : f.Checked) {rest : List OpId} (h : fr.Placed f)
    (hrest : fr.rest = op :: rest) :
    Yields (runOp p { fr with rest } op) (Flow.Placed f) fun e => fr.func = f → f.Spared e := by
  refine .read (.ofNode fun _ _ => spared_of_not_isControl rfl) fun d hd => ?_
  have hd : fr.func.op? op = some d := RunError.ofNode_eq_ok hd
  have hop (hfr : fr.func = f) : ∃ c ∈ f.blocksIn f.body, op ∈ f.opsIn c ∧ f.op? op = some d := by
    obtain ⟨-, c, hc, hsuffix⟩ := h hfr
    exact ⟨c, hc, hsuffix.subset (by simp [hrest]), hfr ▸ hd⟩
  dsimp only
  split
  · -- the last op of a block is a terminator, so there are ops left
    rename_i i hkind
    have hplaced : Frame.Placed f { fr with rest } := by
      intro hfr
      obtain ⟨-, c, hc, hsuffix⟩ := h hfr
      rw [hrest] at hsuffix
      refine ⟨?_, c, hc, (List.suffix_cons op rest).trans hsuffix⟩
      rintro (rfl : rest = [])
      obtain ⟨init, last, hends, -, hlast⟩ := hf.ends hc
      have heq : last = op := by
        obtain ⟨l, hl⟩ := hsuffix
        rw [hends] at hl
        simpa using (List.append_inj' hl rfl).2.symm
      obtain ⟨-, -, -, hopd⟩ := hop hfr
      simp [Func.Ends, Func.kindIs, heq, hopd, hkind, OpKind.isTerminator] at hlast
    have hawaits : Frame.Awaits f { fr with rest } { op := d } := hplaced
    exact runInstr_yields (fun e he _ => spared_of_isPlain e he) (fun _ _ _ => hplaced)
      (fun _ => hplaced) (fun _ _ => .map (.ofNode fun _ _ => spared_of_not_isControl rfl))
      (call_yields hf hawaits) i
  · exact runTransfer_yields hf _ ‹_› hop
  · rename_i c hkind
    refine .throw fun hfr => ?_
    obtain ⟨b, hb, hx, hopd⟩ := hop hfr
    simpa [hkind, OpKind.isStructured] using (hf.op hb hx hopd).1

/-- A call starts at the entry. -/
theorem start_placed (hf : f.Checked) {g : Func} {args : List Value}
    (h : Frame.start g args = .ok fr) : fr.Placed f := by
  cases hr : g.region? g.body with
  | none => simp [Frame.start_of_none hr] at h
  | some rd =>
    cases hblocks : rd.blocks with
    | nil => simp [Frame.start_of_nil hr hblocks] at h
    | cons b rest =>
      rw [Frame.start_of_cons hr hblocks] at h
      refine Frame.enter_placed hf (fun hg => ?_) h
      have hg : g = f := hg
      simp [Func.blocksIn, ← hg, hr, hblocks]

variable {callers : List (Frame × CallSite)}

theorem advance_placed (hf : f.Checked) {flow : Flow} {progress : Progress}
    (hc : ∀ c ∈ callers, c.1.Awaits f c.2) (hflow : flow.Placed f)
    (h : advance callers flow = .ok progress) : progress.Placed f := by
  induction callers generalizing flow with
  | nil =>
    cases flow with
    | next fr => cases h; exact ⟨hflow, hc⟩
    | call fr site g args =>
      obtain ⟨fr', hfr', h⟩ := Except.bind_eq_ok h
      cases h
      exact ⟨start_placed hf hfr', List.forall_mem_cons.mpr ⟨hflow, hc⟩⟩
    | done outcome => cases h; trivial
  | cons c callers ih =>
    cases flow with
    | next fr => cases h; exact ⟨hflow, hc⟩
    | call fr site g args =>
      obtain ⟨fr', hfr', h⟩ := Except.bind_eq_ok h
      cases h
      exact ⟨start_placed hf hfr', List.forall_mem_cons.mpr ⟨hflow, hc⟩⟩
    | done outcome =>
      obtain ⟨hawaits, hrest⟩ := List.forall_mem_cons.mp hc
      obtain ⟨flow', hflow', h⟩ := Except.bind_eq_ok h
      exact ih hrest ((resume_placed hf hawaits _).1 _ hflow') h

theorem resume_ne_call {site' : CallSite} {result : CallResult} {fr' : Frame} {g : Func}
    {args : List Value} : resume fr site result ≠ .ok (.call fr' site' g args) := by
  have hnext (x : Except RunError Frame) :
      (Flow.next <$> x : Except RunError Flow) ≠ .ok (.call fr' site' g args) := by
    cases x <;> intro h <;> cases h
  obtain ⟨sop, _ | edges⟩ := site <;> cases result
  · intro h
    cases h
  · intro h
    cases h
  · exact hnext _
  · exact hnext _

variable {e : RunError}

/-- Carrying on fails in the function that is called, which is not entered, or in a caller. -/
theorem advance_error {flow : Flow} (h : advance callers flow = .error e) :
    (∃ fr site g args, flow = .call fr site g args ∧ Frame.start g args = .error e) ∨
      ∃ c ∈ callers, ∃ result, resume c.1 c.2 result = .error e := by
  induction callers generalizing flow with
  | nil =>
    cases flow with
    | next | done => cases h
    | call fr site g args =>
      obtain hx | ⟨fr', -, h⟩ := Except.bind_eq_error h
      · exact .inl ⟨fr, site, g, args, rfl, hx⟩
      · cases h
  | cons c callers ih =>
    cases flow with
    | next => cases h
    | call fr site g args =>
      obtain hx | ⟨fr', -, h⟩ := Except.bind_eq_error h
      · exact .inl ⟨fr, site, g, args, rfl, hx⟩
      · cases h
    | done outcome =>
      obtain hx | ⟨flow', hflow', h⟩ := Except.bind_eq_error h
      · exact .inr ⟨c, by simp, _, hx⟩
      · obtain ⟨fr, site, g, args, rfl, -⟩ | ⟨c', hc', hresult⟩ := ih h
        · exact (resume_ne_call hflow').elim
        · exact .inr ⟨c', by simp [hc'], hresult⟩

/-! ## Runs -/

/-- The failure `e` at a moment of a run is due to the code of `f`: a block of it has no op left, an
op of it fails, or a call that it made cannot go on in it. -/
inductive Blames (p : Program) (m : Moment) : Func → RunError → Prop
  | fellOff : m.frame.rest = [] → Blames p m m.frame.func (.fellOff m.frame.block)
  | op {op : OpId} {rest : List OpId} {e : RunError} {s : Store} : m.frame.rest = op :: rest →
      runOp p { m.frame with rest } op (counted m.store) = .error e s → Blames p m m.frame.func e
  | back {c : Frame × CallSite} {result : CallResult} {e : RunError} : c ∈ m.callers →
      resume c.1 c.2 result = .error e → Blames p m c.1.func e

/-- The next op calls a function that cannot be entered with the arguments it gives. -/
def Refuses (p : Program) (m : Moment) (e : RunError) : Prop :=
  ∃ op rest fr site g args s, m.frame.rest = op :: rest ∧
    runOp p { m.frame with rest } op (counted m.store) = .ok (.call fr site g args) s ∧
    Frame.start g args = .error e

variable {limit : Nat} {m m' : Moment}

theorem Passes.placed (hf : f.Checked) (h : Passes p limit m m') (hm : m.Placed f) :
    m'.Placed f := by
  induction h with
  | here => exact hm
  | @goesOn m _ op rest fr callers s hr _ hx _ ih =>
    obtain ⟨flow, t, hrun, hadvance⟩ := bind_eq_ok hx
    have hflow := runOp_yields (p := p) hf hm.1 hr (counted m.store)
    rw [hrun] at hflow
    have hrunning : advance m.callers flow = .ok (.running fr callers) := by
      cases hp : advance m.callers flow with
      | ok progress =>
        rw [hp] at hadvance
        cases hadvance
        rfl
      | error e =>
        rw [hp] at hadvance
        cases hadvance
    exact ih (advance_placed hf hm.2 hflow hrunning)

/-- Nothing in a function that passed the check fails on control, edges that pass nothing apart. -/
theorem Blames.spared (h : Blames p m f e) (hf : f.Checked) (hm : m.Placed f) : f.Spared e := by
  cases h with
  | fellOff hr => exact ((hm.1 rfl).1 hr).elim
  | op hr hx =>
    have := runOp_yields (p := p) hf hm.1 hr (counted m.store)
    rw [hx] at this
    exact this rfl
  | back hc hx => exact (resume_placed hf (hm.2 _ hc) _).2 _ hx rfl

/-- A run that fails has run out of steps, was refused a call, or fails in a function under way. -/
theorem Executes.blames {s t : Store} {n : Nat} {r : EStateM.Result RunError Store Outcome}
    (h : Executes p limit fr callers s n r) (hr : r = .error e t) :
    ∃ m, Passes p limit ⟨fr, callers, s⟩ m ∧
      (e = .stepLimit limit m.frame.func.name ∨ Refuses p m e ∨ ∃ g, Blames p m g e) := by
  induction h with
  | @fellOff fr callers s hrest =>
    cases hr
    exact ⟨_, .here _, .inr (.inr ⟨_, .fellOff (m := ⟨fr, callers, _⟩) hrest⟩)⟩
  | exceeds =>
    cases hr
    exact ⟨_, .here _, .inl rfl⟩
  | @fails fr callers s _ op rest _ hrest hl hx =>
    cases hr
    refine ⟨_, .here ⟨fr, callers, s⟩, .inr ?_⟩
    cases hrun : runOp p { fr with rest } op (counted s) with
    | error e' t' =>
      rw [step, bind_of_error hrun] at hx
      cases hx
      exact .inr ⟨_, .op hrest hrun⟩
    | ok flow t' =>
      rw [step, bind_of_ok hrun] at hx
      cases hp : advance callers flow with
      | ok progress =>
        rw [hp] at hx
        cases hx
      | error e' =>
        rw [hp] at hx
        cases hx
        obtain ⟨fr', site, g, args, rfl, hstart⟩ | ⟨c, hc, result, hresume⟩ := advance_error hp
        · exact .inl ⟨op, rest, fr', site, g, args, _, hrest, hrun, hstart⟩
        · exact .inr ⟨_, .back (m := ⟨fr, callers, s⟩) hc hresume⟩
  | ends => cases hr
  | goesOn hrest hl hx _ ih =>
    obtain ⟨m, hm, h⟩ := ih hr
    exact ⟨m, .goesOn hrest hl hx hm, h⟩

/-- Whatever program a function that passed the check is part of and whatever is called: no failure
that is due to its code is one of control, but for edges of switches, invokes, throws and cleanups
into blocks that take arguments. Every run that fails has run out of steps, was refused a call, or
fails by the code of some function. -/
theorem run_checked (hf : f.Owned) (hcheck : f.checkLowered = .ok ()) (p : Program) (limit : Nat)
    (name : String) (args : List Value) (s : Store) :
    (∀ m e, Visits p limit name args s m → Blames p m f e → f.Spared e) ∧
    ∀ e t, run p limit name args s = .error e t →
      e = .unknownFunction name ∨
      (∃ g, p.func? name = some g ∧ Frame.start g args = .error e) ∨
      ∃ m, Visits p limit name args s m ∧
        (e = .stepLimit limit m.frame.func.name ∨ Refuses p m e ∨ ∃ g, Blames p m g e) := by
  have hchecked := Func.checked_of_checkLowered hf hcheck
  refine ⟨?_, fun e t hrun => ?_⟩
  · rintro m e ⟨g, fr, -, hstart, hm⟩ hblames
    exact hblames.spared hchecked (hm.placed hchecked ⟨start_placed hchecked hstart, by simp⟩)
  · obtain ⟨n, -, hcalls⟩ := calls_run p limit name args s
    rw [hrun] at hcalls
    cases hcalls with
    | unknown => exact .inl rfl
    | refused hg hstart => exact .inr (.inl ⟨_, hg, hstart⟩)
    | started hg hstart hx =>
      obtain ⟨m, hm, h⟩ := hx.blames rfl
      exact .inr (.inr ⟨m, ⟨_, _, hg, hstart, hm⟩, h⟩)

/-- A switch to a block that takes an argument. -/
def bareSwitch : Func :=
  left (Edit.Call.addBlockArg ⟨1⟩ .i32).run (Source.built "f" ⟨[], .i32⟩
    [.newBlock (some "next"), .constant (.int 1) .i32 (some "one"),
      .op (.transfer (.switchInt ⟨1⟩ [])) [.named "one"] [] [], .cursor (.named "next"),
      .op (.transfer .ret) [] [] []])

theorem bareSwitch_owned : bareSwitch.Owned :=
  (Func.Reachable.edited (.addBlockArg ⟨1⟩ .i32)
    (.built "f" ⟨[], .i32⟩ _ (leaves_left (by decide +kernel))) trivial
    (leaves_left (by decide +kernel))).sound.owned

theorem run_checked_bareSwitch : bareSwitch.Owned ∧ bareSwitch.checkLowered = .ok () ∧
    ∀ m e, Visits { name := "m", funcs := [bareSwitch] } 9 "f" [] {} m →
      Blames { name := "m", funcs := [bareSwitch] } m bareSwitch e → bareSwitch.Spared e :=
  have hcheck : bareSwitch.checkLowered = .ok () := by decide +kernel
  ⟨bareSwitch_owned, hcheck, (run_checked bareSwitch_owned hcheck _ 9 "f" [] {}).1⟩

/-- Whether a run fails on the number of arguments given to a block. -/
def failsOnArity (b : BlockId) (expected given : Nat) :
    EStateM.Result RunError Store Outcome → Bool
  | .error (.arity b' expected' given') _ => b' = b ∧ expected' = expected ∧ given' = given
  | _ => false

theorem eq_of_failsOnArity {b : BlockId} {expected given : Nat}
    {r : EStateM.Result RunError Store Outcome} (h : failsOnArity b expected given r = true) :
    ∃ t, r = .error (.arity b expected given) t := by
  unfold failsOnArity at h
  split at h
  · obtain ⟨rfl, rfl, rfl⟩ := of_decide_eq_true h
    exact ⟨_, rfl⟩
  · cases h

/-- The switch passes nothing to a block that takes an argument, and the check does not see it. -/
theorem checked_run_fails_on_arity : bareSwitch.Owned ∧ bareSwitch.checkLowered = .ok () ∧
    ∃ t, run { name := "m", funcs := [bareSwitch] } 9 "f" [] {} = .error (.arity ⟨1⟩ 1 0) t :=
  ⟨bareSwitch_owned, by decide +kernel, eq_of_failsOnArity (by decide +kernel)⟩

end Machine

end Unnest
