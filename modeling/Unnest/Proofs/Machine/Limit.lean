import Unnest.Proofs.Budget
/-!
# Runs under different limits

A limit only cuts runs short. The step that an op makes does not look at the limit, so two runs from
one state go through the same states up to the end of the one with the smaller budget. Either that
one ends by itself, and then so does the other, in the same state (`runWithin_of_not_cut`), or it is
cut, and then what the host had been asked by then is the beginning of what the other asks it
(`cut_of_le`). `run_limit_only_cuts` puts the two together for calls from outside.
-/

namespace Unnest

namespace Host

theorem call_of_none {h : Host} {callee : String} (hf : h.functions.get? callee = none)
    (args : List Value) :
    h.call callee args = (.ok [], { h with log := h.log.push ⟨callee, args⟩ }) := by
  simp only [call, hf]

theorem call_of_some {h : Host} {callee : String} {f : HostFn}
    (hf : h.functions.get? callee = some f) (args : List Value) :
    h.call callee args = (f.answer f.past args,
      { functions := h.functions.insert callee { f with past := f.past.push args }
        log := h.log.push ⟨callee, args⟩ }) := by
  simp only [call, hf]

theorem log_call (h : Host) (callee : String) (args : List Value) :
    (h.call callee args).2.log = h.log.push ⟨callee, args⟩ := by
  cases hf : h.functions.get? callee with
  | none => rw [call_of_none hf]
  | some f => rw [call_of_some hf]

theorem log_le_call (h : Host) (callee : String) (args : List Value) :
    h.log.toList <+: (h.call callee args).2.log.toList := by
  simp [log_call]

end Host

theorem Store.Touched.log_le {s t : Store} (h : Touched s t) :
    s.host.log.toList <+: t.host.log.toList := by
  induction h with
  | refl => exact List.prefix_rfl
  | allocates _ v ih => exact ih
  | writes _ hw ih => exact ih
  | asks _ callee args ih => exact ih.trans (Host.log_le_call _ callee args)

namespace Store

/-- What whole runs do to a store: what their ops do, and the counter is set. -/
inductive Worked : Store → Store → Prop
  | refl (s : Store) : Worked s s
  | sets {s t : Store} (h : Worked s t) (steps : Nat) : Worked s { t with steps }
  | touches {s t u : Store} (h : Worked s t) (h' : Touched t u) : Worked s u

namespace Worked

variable {s t u : Store}

theorem trans (h : Worked s t) (h' : Worked t u) : Worked s u := by
  induction h' with
  | refl => exact h
  | sets _ steps ih => exact ih.sets steps
  | touches _ htouch ih => exact ih.touches htouch

theorem log_le (h : Worked s t) : s.host.log.toList <+: t.host.log.toList := by
  induction h with
  | refl => exact List.prefix_rfl
  | sets _ steps ih => exact ih
  | touches _ htouch ih => exact ih.trans htouch.log_le

end Worked

end Store

namespace Machine

open Exec

section

variable {p : Program} {limit limit' budget budget' : Nat} {fr : Frame}
  {callers : List (Frame × CallSite)} {s : Store} {op : OpId} {rest : List OpId}

/-- One op fails, or the run goes on after it. Neither looks at the budget. -/
theorem runWithin_cons (hr : fr.rest = op :: rest) :
    (∃ e s', step p { fr with rest } callers op (counted s) = .error e s' ∧
      ∀ limit budget, runWithin p limit (budget + 1) fr callers s = .error e s') ∨
    ∃ progress s', step p { fr with rest } callers op (counted s) = .ok progress s' ∧
      ∀ limit budget,
        runWithin p limit (budget + 1) fr callers s = carryOn p limit budget progress s' := by
  cases hx : step p { fr with rest } callers op (counted s) with
  | error e s' =>
    refine .inl ⟨e, s', rfl, fun limit budget => ?_⟩
    rw [runWithin_succ hr]
    change EStateM.bind _ _ _ = _
    rw [EStateM.bind, hx]
  | ok progress s' =>
    refine .inr ⟨progress, s', rfl, fun limit budget => ?_⟩
    rw [runWithin_succ hr]
    change EStateM.bind _ _ _ = _
    rw [EStateM.bind, hx]

/-- Whether a result is that of a run cut short by the limit. -/
def isCut : EStateM.Result RunError Store Outcome → Bool
  | .error (.stepLimit _ _) _ => true
  | _ => false

theorem eq_stepLimit_of_isCut {r : EStateM.Result RunError Store Outcome} (h : isCut r = true) :
    ∃ limit func t, r = .error (.stepLimit limit func) t := by
  cases r with
  | ok outcome t => simp [isCut] at h
  | error e t => cases e <;> simp_all [isCut]

/-- A run that is not cut is the same with a larger budget. -/
theorem runWithin_of_not_cut (hb : budget ≤ budget')
    (hcut : isCut (runWithin p limit budget fr callers s) = false) :
    runWithin p limit' budget' fr callers s = runWithin p limit budget fr callers s := by
  induction budget generalizing budget' fr callers s with
  | zero =>
    cases hr : fr.rest with
    | nil => rw [runWithin_nil hr, runWithin_nil hr]
    | cons op rest =>
      rw [runWithin_zero hr] at hcut
      simp [isCut] at hcut
  | succ budget ih =>
    obtain ⟨budget', rfl⟩ : ∃ b, budget' = b + 1 := ⟨budget' - 1, by omega⟩
    cases hr : fr.rest with
    | nil => rw [runWithin_nil hr, runWithin_nil hr]
    | cons op rest =>
      obtain ⟨e, s', -, hrun⟩ | ⟨progress, s', -, hrun⟩ := runWithin_cons (p := p) (s := s) hr
      · rw [hrun, hrun]
      · rw [hrun] at hcut ⊢
        rw [hrun]
        cases progress with
        | finished outcome => rfl
        | running fr' callers' => exact ih (Nat.le_of_succ_le_succ hb) hcut

/-- Whatever its budget, a run does to the store what ops do. -/
theorem worked_runWithin (p : Program) (limit budget : Nat) (fr : Frame)
    (callers : List (Frame × CallSite)) (s : Store) :
    Store.Worked s ((runWithin p limit budget fr callers).after s) := by
  have counts : ∀ {s : Store}, Store.Worked s (counted s) := (Store.Worked.refl _).sets _
  induction budget generalizing fr callers s with
  | zero =>
    unfold after
    cases hr : fr.rest with
    | nil =>
      rw [runWithin_nil hr]
      exact .refl s
    | cons op rest =>
      rw [runWithin_zero hr]
      exact counts
  | succ budget ih =>
    unfold after
    cases hr : fr.rest with
    | nil =>
      rw [runWithin_nil hr]
      exact .refl s
    | cons op rest =>
      obtain ⟨e, s', hx, hrun⟩ | ⟨progress, s', hx, hrun⟩ := runWithin_cons (p := p) (s := s) hr
      · rw [hrun]
        exact counts.touches (touched_of_step_error hx)
      · have hworked := counts.touches (touched_of_step_ok hx)
        rw [hrun]
        cases progress with
        | finished outcome => exact hworked
        | running fr' callers' => exact hworked.trans (ih fr' callers' s')

/-- A run that is cut is cut also with a smaller budget, and the host has been asked less by
then. -/
theorem cut_of_le {l : Nat} {func : String} {t : Store} (hb : budget ≤ budget')
    (hcut : runWithin p limit' budget' fr callers s = .error (.stepLimit l func) t) :
    ∃ l' func' t', runWithin p limit budget fr callers s = .error (.stepLimit l' func') t' ∧
      t'.host.log.toList <+: t.host.log.toList := by
  induction budget generalizing budget' fr callers s with
  | zero =>
    have hlog := (worked_runWithin p limit' budget' fr callers s).log_le
    rw [after, hcut] at hlog
    cases hr : fr.rest with
    | nil =>
      rw [runWithin_nil hr] at hcut
      cases hcut
    | cons op rest => exact ⟨limit, fr.func.name, counted s, runWithin_zero hr, hlog⟩
  | succ budget ih =>
    obtain ⟨budget', rfl⟩ : ∃ b, budget' = b + 1 := ⟨budget' - 1, by omega⟩
    cases hr : fr.rest with
    | nil =>
      rw [runWithin_nil hr] at hcut
      cases hcut
    | cons op rest =>
      obtain ⟨e, s', -, hrun⟩ | ⟨progress, s', -, hrun⟩ := runWithin_cons (p := p) (s := s) hr
      · rw [hrun] at hcut
        cases hcut
        exact ⟨l, func, t, hrun _ _, List.prefix_rfl⟩
      · rw [hrun] at hcut
        rw [hrun]
        cases progress with
        | finished outcome => cases hcut
        | running fr' callers' => exact ih (Nat.le_of_succ_le_succ hb) hcut

end

/-- Under a higher limit a call that was not cut gives the same result and leaves the same store. A
call that is cut is cut under every lower limit, with a log that is the beginning of the one it has
now. -/
theorem run_limit_only_cuts (p : Program) (name : String) (args : List Value) (s : Store)
    {low high : Nat} (h : low ≤ high) :
    ((∀ limit func t, run p low name args s ≠ .error (.stepLimit limit func) t) →
      run p high name args s = run p low name args s) ∧
    ∀ limit func t, run p high name args s = .error (.stepLimit limit func) t →
      ∃ limit' func' t', run p low name args s = .error (.stepLimit limit' func') t' ∧
        t'.host.log.toList <+: t.host.log.toList := by
  cases hf : p.func? name with
  | none =>
    rw [run_of_none hf, run_of_none hf]
    exact ⟨fun _ => rfl, fun limit func t ht => by cases ht⟩
  | some f =>
    cases hfr : Frame.start f args with
    | error e =>
      rw [run_of_start_error hf hfr, run_of_start_error hf hfr]
      exact ⟨fun _ => rfl, fun limit func t ht => ⟨limit, func, t, ht, List.prefix_rfl⟩⟩
    | ok fr =>
      rw [run_of_start_ok hf hfr, run_of_start_ok hf hfr]
      refine ⟨fun hcut => runWithin_of_not_cut h ?_, fun limit func t ht => cut_of_le h ht⟩
      rw [← Bool.not_eq_true]
      intro hx
      obtain ⟨limit, func, t, ht⟩ := eq_stepLimit_of_isCut hx
      exact hcut limit func t ht

/-- A function that asks the host for the time again and again. -/
def ticking : Program where
  name := "clocks"
  funcs := [{
    name := "tick"
    sig := { params := [], ret := .void }
    ops := #[
      { kind := .instr (.call "clock"), operands := [], parent := some ⟨0⟩ },
      { kind := .transfer (.br ⟨0⟩), operands := [], parent := some ⟨0⟩ }]
    blocks := #[{ ops := [⟨0⟩, ⟨1⟩], parent := some ⟨0⟩ }]
    regions := #[{ blocks := [⟨0⟩] }] }]

/-- Cut after three ops, the clock has been read twice; cut after one, no more than that. -/
theorem run_limit_only_cuts_ticking :
    1 ≤ 3 ∧ ∃ limit func t, run ticking 1 "tick" [] {} = .error (.stepLimit limit func) t ∧
      t.host.log.toList <+: [⟨"clock", []⟩, ⟨"clock", []⟩] := by
  refine ⟨by decide, ?_⟩
  have hcut : ∃ t, run ticking 3 "tick" [] {} = .error (.stepLimit 3 "tick") t ∧
      t.host.log.toList = [⟨"clock", []⟩, ⟨"clock", []⟩] := ⟨_, rfl, rfl⟩
  obtain ⟨t, ht, hlog⟩ := hcut
  rw [← hlog]
  exact (run_limit_only_cuts ticking "tick" [] {} (by decide : 1 ≤ 3)).2 3 "tick" t ht

end Machine

end Unnest
