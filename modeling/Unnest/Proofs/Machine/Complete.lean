import Unnest.Proofs.Budget
import Unnest.Proofs.Machine.Failing
import Unnest.Proofs.Statements
import Unnest.Proofs.Tables
/-!
# Runs that miss no node

Asking for a node that does not exist is the one failure that a run does not report. Whether it can
happen is seen from the code that control can come to (`Func.Reaches`): if the body exists and that
code names existing nodes only, the function is complete (`Func.Complete`). A frame of a complete
function has such code before it and values at existing ids only (`Frame.Held`), and every op keeps
it so; runs of complete programs therefore report whatever goes wrong. `run_within_limit` puts this
beside the bounds on steps, which hold for all programs.
-/

namespace Unnest

open RunError (Fails)

/-- Control can come to a block: it is the entry, or an op of such a block leads to it. -/
inductive Func.Reaches (f : Func) : BlockId → Prop
  | entry {rd : Region} {b : BlockId} {rest : List BlockId} : f.region? f.body = some rd →
      rd.blocks = b :: rest → Reaches f b
  | edge {b c : BlockId} {x : OpId} {d : Op} : Reaches f b → x ∈ f.opsIn b → f.op? x = some d →
      c ∈ d.kind.successors → Reaches f c

/-- All that control can come to exists: the body, the blocks and their ops, and the values that
these define. -/
structure Func.Complete (f : Func) : Prop where
  body : (f.region? f.body).isSome
  block {b : BlockId} : f.Reaches b →
    ∃ bd, f.block? b = some bd ∧ ∀ v ∈ bd.args, (f.value? v).isSome
  op {b : BlockId} {x : OpId} : f.Reaches b → x ∈ f.opsIn b →
    ∃ d, f.op? x = some d ∧ ∀ v ∈ d.results, (f.value? v).isSome

/-- The functions of a program are complete. -/
def Program.Complete (p : Program) : Prop := ∀ name f, p.func? name = some f → f.Complete

/-- A frame of a complete function, with code before it that control can come to and values at
existing ids. -/
structure Frame.Held (fr : Frame) : Prop where
  complete : fr.func.Complete
  rest {x : OpId} : x ∈ fr.rest → ∃ b, fr.func.Reaches b ∧ x ∈ fr.func.opsIn b
  values {v : ValueId} {w : Value} : fr.values.get? v = some w → (fr.func.value? v).isSome

/-- A suspended caller, whose results and edges exist. -/
structure Frame.Waits (fr : Frame) (site : CallSite) : Prop where
  held : fr.Held
  results {v : ValueId} : v ∈ site.op.results → (fr.func.value? v).isSome
  edges {normal unwind : BlockId} : site.edges = some (normal, unwind) →
    fr.func.Reaches normal ∧ fr.func.Reaches unwind

/-- The frames that an op leads to hold what they need. -/
def Flow.Held : Flow → Prop
  | .next fr => fr.Held
  | .call fr site callee _ => fr.Waits site ∧ callee.Complete
  | .done _ => True

/-- The frames of a run hold what they need. -/
def Progress.Held : Progress → Prop
  | .running fr callers => fr.Held ∧ ∀ c ∈ callers, c.1.Waits c.2
  | .finished _ => True

/-- Failures that are reported. -/
def RunError.Reported : RunError → Prop
  | .outOfRange => False
  | _ => True

theorem RunError.reported_of_isPlain (e : RunError) (h : e.isPlain = true) : e.Reported := by
  cases e with
  | outOfRange => cases h
  | _ => trivial

namespace Frame

variable {fr : Frame} {f : Func}

theorem typeOf_reported {v : ValueId} (h : (fr.func.value? v).isSome) :
    Fails RunError.Reported (fr.typeOf v) :=
  .map (.ofNode fun hnone => by simp [hnone] at h)

namespace Held

theorem insert (h : fr.Held) {v : ValueId} (hv : (fr.func.value? v).isSome) (w : Value) :
    Held { fr with values := fr.values.insert v w } where
  complete := h.complete
  rest := h.rest
  values {u} _ hu := by
    rw [Table.get?_insert] at hu
    split at hu
    · subst_vars
      exact hv
    · exact h.values hu

theorem insertAll (h : fr.Held) {vs : List ValueId} (hvs : ∀ v ∈ vs, (fr.func.value? v).isSome)
    (ws : List Value) : Held { fr with values := fr.values.insertAll (vs.zip ws) } where
  complete := h.complete
  rest := h.rest
  values hu := by
    obtain hu | hu := Table.get?_insertAll hu
    · exact hvs _ (List.of_mem_zip hu).1
    · exact h.values hu

/-- A block that control can come to can be entered, up to the number of arguments. -/
theorem enter (h : fr.Held) {b : BlockId} (hb : fr.func.Reaches b) (args : List Value) :
    (∀ fr', fr.enter b args = .ok fr' → fr'.Held) ∧ Fails RunError.Reported (fr.enter b args) := by
  obtain ⟨bd, hbd, hargs⟩ := h.complete.block hb
  refine ⟨fun fr' hfr' => ?_, fun e he => ?_⟩
  · obtain ⟨bd', hbd', -, rfl⟩ := eq_of_enter hfr'
    obtain rfl := Option.some.inj (hbd.symm.trans hbd')
    refine ⟨h.complete, fun {x} hx => ⟨b, hb, ?_⟩, (h.insertAll hargs args).values⟩
    have hx : x ∈ bd.ops := hx
    simpa [Func.opsIn, hbd] using hx
  · obtain ⟨hnone, -⟩ | ⟨bd', -, -, rfl⟩ := enter_error he
    · simp [hbd] at hnone
    · trivial

theorem inFlight (h : fr.Held) (inFlight : Option Thrown) : Held { fr with inFlight } where
  complete := h.complete
  rest := h.rest
  values := h.values

end Held

/-- A complete function can be entered, unless it has no blocks or takes other arguments. -/
theorem start_held (hf : f.Complete) (args : List Value) :
    (∀ fr, Frame.start f args = .ok fr → fr.Held) ∧
      Fails RunError.Reported (Frame.start f args) := by
  obtain ⟨rd, hrd⟩ := Option.isSome_iff_exists.mp hf.body
  cases hblocks : rd.blocks with
  | nil =>
    rw [start_of_nil hrd hblocks]
    exact ⟨fun fr h => (by cases h), .error trivial⟩
  | cons b rest =>
    rw [start_of_cons hrd hblocks]
    have hheld : Held { func := f, block := b } :=
      ⟨hf, fun hx => (by cases hx), fun hv => (by cases hv)⟩
    exact hheld.enter (.entry hrd hblocks) args

end Frame

namespace Machine

open Exec

variable {p : Program} {fr : Frame} {op : OpId} {d : Op} {site : CallSite}

theorem resume_held (h : fr.Waits site) (result : CallResult) :
    (∀ flow, resume fr site result = .ok flow → flow.Held) ∧
      Fails RunError.Reported (resume fr site result) := by
  obtain ⟨sop, edges⟩ := site
  have henter {fr' : Frame} {b : BlockId} (hfr' : fr'.Held) (hb : fr'.func.Reaches b) :
      (∀ flow, Flow.next <$> fr'.enter b [] = .ok flow → flow.Held) ∧
        Fails RunError.Reported (Flow.next <$> fr'.enter b []) := by
    obtain ⟨hok, herr⟩ := hfr'.enter hb []
    refine ⟨fun flow hflow => ?_, herr.map⟩
    cases hx : fr'.enter b [] with
    | error e => rw [hx] at hflow; cases hflow
    | ok fr₁ =>
      rw [hx] at hflow
      cases hflow
      exact hok fr₁ hx
  have hdefined (values : List Value) : (fr.defineAll sop values).Held :=
    h.held.insertAll (fun v hv => h.results hv) _
  cases result with
  | ok values =>
    cases edges with
    | none =>
      refine ⟨fun flow hflow => ?_, .ok _⟩
      cases hflow
      exact hdefined values
    | some edges => exact henter (hdefined values) (h.edges rfl).1
  | error thrown =>
    cases edges with
    | none =>
      refine ⟨fun flow hflow => ?_, .ok _⟩
      cases hflow
      trivial
    | some edges => exact henter (h.held.inFlight _) (h.edges rfl).2

theorem call_held (hp : p.Complete) (h : fr.Waits site) (callee : String) (args : List Value) :
    Yields (call p fr site callee args) Flow.Held RunError.Reported := by
  intro s
  unfold call
  cases hf : p.func? callee with
  | some f => exact ⟨h, hp callee f hf⟩
  | none =>
    have hresume := resume_held h (s.host.call callee args).1
    exact Yields.lift hresume.1 hresume.2 { s with host := (s.host.call callee args).2 }

theorem runTransfer_held (hp : p.Complete) (h : fr.Held) (t : Transfer)
    (hresults : ∀ v ∈ d.results, (fr.func.value? v).isSome)
    (ht : ∀ b ∈ t.successors, fr.func.Reaches b) :
    Yields (runTransfer p fr op d t) Flow.Held RunError.Reported := by
  have plain := RunError.reported_of_isPlain
  have raised : Fails RunError.Reported (fr.raised op d) :=
    fr.raised_fails plain op d fun v w hv => Frame.typeOf_reported (h.values hv)
  have entering {fr' : Frame} (h' : fr'.Held) {b : BlockId} (hb : fr'.func.Reaches b)
      (args : List Value) :
      Yields (do return .next (← fr'.enter b args)) Flow.Held RunError.Reported :=
    .bind (P := Frame.Held) (.lift (h'.enter hb args).1 (h'.enter hb args).2) fun _ h'' => .pure h''
  cases t with
  | br b =>
    exact .read (fr.operands_fails plain d 0) fun args _ =>
      entering h (ht b (by simp [Transfer.successors])) args
  | condBr b c n =>
    refine .read (fr.operand_fails plain op d 0) fun flag _ =>
      .read (fr.operands_fails plain d 1) fun args _ => ?_
    split
    · exact entering h (ht b (by simp [Transfer.successors])) _
    · exact entering h (ht c (by simp [Transfer.successors])) _
  | switchInt default cases =>
    refine .read (fr.operand_fails plain op d 0) fun v _ => ?_
    dsimp only
    cases v.asInt? with
    | none => exact .throw (plain _ rfl)
    | some n =>
      refine entering h (ht _ ?_) []
      cases hfind : cases.find? (·.1 == n) with
      | none => simp [Transfer.successors]
      | some c =>
        have hc := List.mem_of_find?_eq_some hfind
        simp only [Transfer.successors, Option.map_some, Option.getD_some, List.mem_cons,
          List.mem_map]
        exact .inr ⟨c, hc, rfl⟩
  | invoke callee normal unwind =>
    have hwaits : fr.Waits { op := d, edges := some (normal, unwind) } := by
      refine ⟨h, fun hv => hresults _ hv, ?_⟩
      rintro _ _ ⟨⟩
      exact ⟨ht normal (by simp [Transfer.successors]), ht unwind (by simp [Transfer.successors])⟩
    cases callee with
    | symbol callee =>
      exact .read (fr.operands_fails plain d 0) fun args _ => call_held hp hwaits callee args
    | indirect =>
      exact .read (fr.calleeName_fails plain op d) fun callee _ =>
        .read (fr.operands_fails plain d 1) fun args _ => call_held hp hwaits callee args
  | throwTo unwind =>
    exact .read raised fun thrown _ =>
      entering (h.inFlight (some thrown)) (ht unwind (by simp [Transfer.successors])) []
  | throwOut => exact .read raised fun _ _ => .pure trivial
  | endCleanup outer =>
    refine .read raised fun thrown _ => ?_
    cases outer with
    | none => exact .pure trivial
    | some unwind =>
      exact entering (h.inFlight (some thrown)) (ht unwind (by simp [Transfer.successors])) []
  | ret =>
    simp only [runTransfer]
    split
    · exact .pure trivial
    · exact .read (fr.get_fails plain _) fun _ _ => .pure trivial
  | unreachable => exact .throw (plain _ rfl)

/-- The next op of a frame. -/
theorem runOp_held (hp : p.Complete) (h : fr.Held) {rest : List OpId}
    (hrest : fr.rest = op :: rest) :
    Yields (runOp p { fr with rest } op) Flow.Held RunError.Reported := by
  have hnext : Frame.Held { fr with rest } :=
    ⟨h.complete, fun hx => h.rest (hrest ▸ List.mem_cons_of_mem op hx), h.values⟩
  obtain ⟨b, hb, hx⟩ := h.rest (hrest ▸ List.mem_cons_self)
  obtain ⟨d, hd, hresults⟩ := h.complete.op hb hx
  refine .read (.ofNode fun hnone => ?_) fun d' hd' => ?_
  · simp [hd] at hnone
  obtain rfl := Option.some.inj (hd.symm.trans (RunError.ofNode_eq_ok hd'))
  dsimp only
  split
  · have hwaits : Frame.Waits { fr with rest } { op := d } :=
      ⟨hnext, fun hv => hresults _ hv, fun h => (by cases h)⟩
    refine runInstr_yields RunError.reported_of_isPlain ?_ ?_ ?_ ?_ _
    · exact fun v hv w => hnext.insert (hresults v hv) w
    · exact hnext.inFlight
    · exact fun v hv => Frame.typeOf_reported (hresults v hv)
    · exact call_held hp hwaits
  · rename_i t hkind
    refine runTransfer_held hp hnext t hresults fun c hc => .edge hb hx hd ?_
    rw [hkind]
    exact hc
  · exact .throw trivial

/-- A call suspends the frame that makes it. -/
theorem advance_call_held {callers : List (Frame × CallSite)} {callee : Func} {args : List Value}
    (hc : ∀ c ∈ callers, c.1.Waits c.2) (h : Flow.Held (.call fr site callee args)) :
    (∀ progress, advance callers (.call fr site callee args) = .ok progress → progress.Held) ∧
      Fails RunError.Reported (advance callers (.call fr site callee args)) := by
  obtain ⟨hok, herr⟩ := Frame.start_held h.2 args
  have heq : advance callers (.call fr site callee args) = (do
      return .running (← Frame.start callee args) ((fr, site) :: callers)) := by
    cases callers <;> rfl
  rw [heq]
  refine ⟨fun progress hp => ?_, herr.bind fun _ _ => .ok _⟩
  obtain ⟨fr', hfr', hp⟩ := Except.bind_eq_ok hp
  cases hp
  exact ⟨hok fr' hfr', List.forall_mem_cons.mpr ⟨h.1, hc⟩⟩

theorem advance_held {callers : List (Frame × CallSite)} {flow : Flow}
    (hc : ∀ c ∈ callers, c.1.Waits c.2) (hflow : flow.Held) :
    (∀ progress, advance callers flow = .ok progress → progress.Held) ∧
      Fails RunError.Reported (advance callers flow) := by
  induction callers generalizing flow with
  | nil =>
    cases flow with
    | next fr =>
      refine ⟨fun progress h => ?_, .ok _⟩
      cases h
      exact ⟨hflow, hc⟩
    | call fr site callee args => exact advance_call_held hc hflow
    | done outcome =>
      refine ⟨fun progress h => ?_, .ok _⟩
      cases h
      trivial
  | cons c callers ih =>
    cases flow with
    | next fr =>
      refine ⟨fun progress h => ?_, .ok _⟩
      cases h
      exact ⟨hflow, hc⟩
    | call fr site callee args => exact advance_call_held hc hflow
    | done outcome =>
      obtain ⟨hwaits, hrest⟩ := List.forall_mem_cons.mp hc
      obtain ⟨hok, herr⟩ := resume_held hwaits (callResult outcome)
      refine ⟨fun progress h => ?_, herr.bind fun flow' h => (ih hrest (hok flow' h)).2⟩
      obtain ⟨flow', hflow', h⟩ := Except.bind_eq_ok h
      exact (ih hrest (hok flow' hflow')).1 progress h

/-- A run under way in complete functions reports its failures. -/
theorem runWithin_reported (hp : p.Complete) (limit budget : Nat)
    {callers : List (Frame × CallSite)} (h : fr.Held) (hc : ∀ c ∈ callers, c.1.Waits c.2) :
    Yields (runWithin p limit budget fr callers) (fun _ => True) RunError.Reported := by
  induction budget generalizing fr callers with
  | zero =>
    unfold runWithin
    split
    · exact .throw trivial
    · exact .bind (P := fun _ => True) (fun _ => trivial) fun _ _ => .throw trivial
  | succ budget ih =>
    unfold runWithin
    split
    · exact .throw trivial
    · rename_i op rest hrest
      refine .bind (P := fun _ => True) (fun _ => trivial) fun _ _ =>
        .bind (runOp_held hp h hrest) fun flow hflow => ?_
      obtain ⟨hok, herr⟩ := advance_held hc hflow
      refine .bind (P := Progress.Held) (.lift hok herr) fun progress hprogress => ?_
      cases progress with
      | finished outcome => exact .pure trivial
      | running fr' callers' => exact ih hprogress.1 hprogress.2

theorem run_reported (hp : p.Complete) (limit : Nat) (name : String) (args : List Value) :
    Yields (run p limit name args) (fun _ => True) RunError.Reported := by
  unfold run
  cases hf : p.func? name with
  | none => exact .throw trivial
  | some f =>
    obtain ⟨hok, herr⟩ := Frame.start_held (hp name f hf) args
    exact .bind (P := fun _ => True) (fun _ => trivial) fun _ _ =>
      .read herr fun fr hfr => runWithin_reported hp limit limit (hok fr hfr) (by simp)


/-- Every call from outside ends, as the run without a budget does, after at most `limit` ops over
all calls it makes; if it has an outcome, the counter holds their number. Whatever was called before
on a new store, the counter is at most one above the limit. A call in a complete program gives an
outcome or reports why there is none. -/
theorem run_within_limit (p : Program) (limit : Nat) :
    (∀ name args s, ∃ n ≤ limit,
      Calls p limit name args s n (run p limit name args s) ∧
      (∀ m r, Calls p limit name args s m r → m = n ∧ r = run p limit name args s) ∧
      ∀ outcome s', run p limit name args s = .ok outcome s' → s'.steps = n ∧ s'.steps ≤ limit) ∧
    (∀ host calls, (afterCalls p limit { host } calls).steps ≤ limit + 1) ∧
    (p.Complete → ∀ name args s s', run p limit name args s ≠ .error .outOfRange s') := by
  refine ⟨fun name args s => ?_, fun host calls => ?_, fun hp name args s s' hrun => ?_⟩
  · obtain ⟨n, hn, hcalls⟩ := calls_run p limit name args s
    refine ⟨n, hn, hcalls, fun m r h => hcalls.unique h, fun outcome s' hok => ?_⟩
    have hs := hcalls.steps_eq.1 outcome s' hok
    exact ⟨hs, hs ▸ hn⟩
  · exact steps_afterCalls_le p limit { host } calls (Nat.zero_le _)
  · have h := run_reported hp limit name args s
    rw [hrun] at h
    exact h

/-- A program that branches from the entry of its function to a block. -/
def branching (target : BlockId) : Program where
  name := "m"
  funcs := [Source.built "f" ⟨[], .void⟩ [.op (.transfer (.br target)) [] [] []]]

theorem branching_complete : (branching ⟨0⟩).Complete := by
  intro name f hf
  obtain rfl : f = Source.built "f" ⟨[], .void⟩ [.op (.transfer (.br ⟨0⟩)) [] [] []] := by
    have hmem : f ∈ (branching ⟨0⟩).funcs := List.mem_of_find?_eq_some hf
    simpa [branching] using hmem
  generalize hg : Source.built "f" ⟨[], .void⟩ [.op (.transfer (.br ⟨0⟩)) [] [] []] = g
  have hbody : g.region? g.body = some { blocks := [⟨0⟩] } := hg ▸ by decide +kernel
  have hblock : g.block? ⟨0⟩ = some { ops := [⟨0⟩], parent := some ⟨0⟩ } := hg ▸ by decide +kernel
  have hop : g.op? ⟨0⟩ = some { kind := .transfer (.br ⟨0⟩), operands := [], parent := some ⟨0⟩ } :=
    hg ▸ by decide +kernel
  have hops : g.opsIn ⟨0⟩ = [⟨0⟩] := by simp [Func.opsIn, hblock]
  have hreaches {b : BlockId} (h : g.Reaches b) : b = ⟨0⟩ := by
    induction h with
    | entry hrd hblocks => simp_all
    | edge _ hx hd hc ih =>
      subst ih
      obtain rfl := by simpa [hops] using hx
      obtain rfl := Option.some.inj (hop.symm.trans hd)
      simpa [OpKind.successors, Transfer.successors] using hc
  refine ⟨by simp [hbody], fun h => ?_, fun h hx => ?_⟩
  · obtain rfl := hreaches h
    exact ⟨_, hblock, by simp⟩
  · obtain rfl := hreaches h
    obtain rfl := by simpa [hops] using hx
    exact ⟨_, hop, by simp⟩

theorem run_within_limit_branching :
    (branching ⟨0⟩).Complete ∧
      (∃ n ≤ 5, Calls (branching ⟨0⟩) 5 "f" [] {} n (run (branching ⟨0⟩) 5 "f" [] {})) ∧
      ∀ s', run (branching ⟨0⟩) 5 "f" [] {} ≠ .error .outOfRange s' := by
  obtain ⟨hcalls, -, hreported⟩ := run_within_limit (branching ⟨0⟩) 5
  obtain ⟨n, hn, h, -⟩ := hcalls "f" [] {}
  exact ⟨branching_complete, ⟨n, hn, h⟩, hreported branching_complete "f" [] {}⟩

/-- Whether a run misses a node. -/
def missesNode : EStateM.Result RunError Store Outcome → Bool
  | .error .outOfRange _ => true
  | _ => false

theorem eq_of_missesNode {r : EStateM.Result RunError Store Outcome} (h : missesNode r = true) :
    ∃ t, r = .error .outOfRange t := by
  unfold missesNode at h
  split at h
  · exact ⟨_, rfl⟩
  · cases h

/-- A branch to a block that does not exist leaves the run without a result. -/
theorem run_misses_block : ∃ t, run (branching ⟨99⟩) 5 "f" [] {} = .error .outOfRange t :=
  eq_of_missesNode (by decide +kernel)

end Machine

end Unnest
