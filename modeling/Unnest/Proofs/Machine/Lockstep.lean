import Unnest.Proofs.Machine.Failing
import Unnest.Proofs.Machine.Following
import Unnest.Proofs.Ownership.Basic
/-!
# Runs in lockstep

Two functions that agree on a set of blocks which holds the entry and every block that its blocks
name run alike: the blocks outside are never entered (`Func.Agrees`). Frames of such functions that
hold the same are in step, so that an op of one repeats that of the other (`InStep.repeats`) and the
runs follow each other strictly. `run_eq` is the case of calls from outside, which are the same in
all they give and leave.
-/

namespace Unnest

/-- The functions agree on the blocks of `on`, which control never leaves. -/
structure Func.Agrees (f f' : Func) (on : BlockId → Prop) : Prop where
  name : f'.name = f.name
  value? (v : ValueId) : f'.value? v = f.value? v
  start : (f'.region? f'.body).map (·.blocks.head?) = (f.region? f.body).map (·.blocks.head?)
  entry {b : BlockId} : (f.blocksIn f.body).head? = some b → on b
  block? {b : BlockId} : on b → f'.block? b = f.block? b
  op? {b : BlockId} {x : OpId} : on b → x ∈ f.opsIn b → f'.op? x = f.op? x
  closed {b c : BlockId} {x : OpId} {d : Op} : on b → x ∈ f.opsIn b → f.op? x = some d →
    c ∈ d.kind.successors → on c

theorem Func.Agrees.refl (f : Func) : f.Agrees f fun _ => True where
  name := rfl
  value? _ := rfl
  start := rfl
  entry _ := trivial
  block? _ := rfl
  op? _ _ := rfl
  closed _ _ _ _ := trivial

/-! ## Frames in step -/

/-- The frames hold the same, and their functions agree on what is left to run. -/
structure InStep (on : BlockId → Prop) (fr fr' : Frame) : Prop where
  agrees : fr.func.Agrees fr'.func on
  values : fr'.values = fr.values
  inFlight : fr'.inFlight = fr.inFlight
  block : fr'.block = fr.block
  rest : fr'.rest = fr.rest
  listed {x : OpId} : x ∈ fr.rest → ∃ b, on b ∧ x ∈ fr.func.opsIn b

/-- The frames are in step on some set of blocks. -/
def Aligned (fr fr' : Frame) : Prop := ∃ on, InStep on fr fr'

namespace InStep

variable {on : BlockId → Prop} {fr fr' : Frame} (h : InStep on fr fr')

include h

theorem get_eq : fr'.get = fr.get := by
  funext v
  unfold Frame.get
  rw [h.values, h.agrees.name]

theorem typeOf_eq : fr'.typeOf = fr.typeOf := by
  funext v
  unfold Frame.typeOf
  rw [h.agrees.value?]

theorem given (results : List ValueId) (values : List Value) :
    InStep on (fr.given results values) (fr'.given results values) where
  agrees := h.agrees
  values := by rw [Frame.given, Frame.given, h.values]
  inFlight := h.inFlight
  block := h.block
  rest := h.rest
  listed := h.listed

theorem fly (thrown : Option Thrown) :
    InStep on { fr with inFlight := thrown } { fr' with inFlight := thrown } where
  agrees := h.agrees
  values := h.values
  inFlight := rfl
  block := h.block
  rest := h.rest
  listed := h.listed

/-- A block that both functions have is entered. -/
theorem enter {b : BlockId} (hb : on b) (args : List Value) :
    Follows True (InStep on) (fr.enter b args) (fr'.enter b args) := by
  unfold Frame.enter
  rw [h.agrees.block? hb, h.values]
  cases hbd : fr.func.block? b with
  | none => exact .error _
  | some bd =>
    change Follows _ _ (if bd.args.length ≠ args.length then _ else _)
      (if bd.args.length ≠ args.length then _ else _)
    split
    · exact .error _
    · exact .ok ⟨h.agrees, rfl, h.inFlight, rfl, rfl, fun {x} hx =>
        ⟨b, hb, by rw [Func.opsIn, hbd]; exact hx⟩⟩

theorem unwind {b : BlockId} (hb : on b) (thrown : Thrown) :
    Follows True (InStep on) (fr.unwind b thrown) (fr'.unwind b thrown) :=
  (h.fly (some thrown)).enter hb []

/-- An op whose successors are all agreed on does the same in both. -/
theorem repeats {d : Op} (hd : ∀ b ∈ d.kind.successors, on b) :
    Frame.Repeats True Aligned fr d fr' d where
  kind := rfl
  name _ := h.agrees.name
  operands := by
    refine List.forall₂_same.mpr fun v _ => ⟨?_, ?_⟩
    · rw [h.get_eq]
      exact .refl (fun _ => rfl) _
    · rw [h.typeOf_eq]
      exact .refl (fun _ => rfl) _
  results := rfl
  types v _ := by rw [h.typeOf_eq]; exact .refl (fun _ => rfl) _
  inFlight := h.inFlight
  frames := ⟨on, h⟩
  landed := ⟨on, h.fly none⟩
  given values := ⟨on, h.given _ values⟩
  enter args hb := (h.enter (hd _ hb) args).mono fun _ _ hfr => ⟨on, hfr⟩
  unwind thrown hb := (h.unwind (hd _ hb) thrown).mono fun _ _ hfr => ⟨on, hfr⟩
  returned values hb := ((h.given _ values).enter (hd _ hb) []).mono fun _ _ hfr => ⟨on, hfr⟩

end InStep

/-! How a call starts. -/

theorem Func.Agrees.start_follows {f f' : Func} {on : BlockId → Prop} (h : f.Agrees f' on)
    (args : List Value) :
    Follows True (InStep on) (Frame.start f args) (Frame.start f' args) := by
  have hstart := h.start
  cases hrd : f.region? f.body with
  | none =>
    rw [hrd, Option.map_none, Option.map_eq_none_iff] at hstart
    rw [Frame.start_of_none hrd, Frame.start_of_none hstart]
    exact .error _
  | some rd =>
    rw [hrd, Option.map_some] at hstart
    obtain ⟨rd', hrd', hhead⟩ := Option.map_eq_some_iff.mp hstart
    cases hblocks : rd.blocks with
    | nil =>
      rw [hblocks, List.head?_nil, List.head?_eq_none_iff] at hhead
      rw [Frame.start_of_nil hrd hblocks, Frame.start_of_nil hrd' hhead, h.name]
      exact .error _
    | cons b rest =>
      rw [hblocks, List.head?_cons] at hhead
      obtain ⟨rest', hblocks'⟩ := List.head?_eq_some_iff.mp hhead
      rw [Frame.start_of_cons hrd hblocks, Frame.start_of_cons hrd' hblocks']
      have hfr : InStep on { func := f, block := b } { func := f', block := b } :=
        ⟨h, rfl, rfl, rfl, rfl, by simp⟩
      exact hfr.enter (h.entry (by simp [Func.blocksIn, hrd, hblocks])) args

namespace Machine

open Exec

theorem Counterparts.mono {C D : Func → Func → Prop} {p p' : Program} (h : Counterparts C p p')
    (hCD : ∀ f f', C f f' → D f f') : Counterparts D p p' := by
  refine ⟨h.types, fun name => ?_⟩
  have hf := h.func? name
  generalize p.func? name = g, p'.func? name = g' at hf
  cases hf with
  | some hC => exact .some (hCD _ _ hC)
  | none => exact .none

/-- Functions that agree on some set of blocks. -/
def Alike (f f' : Func) : Prop := ∃ on, f.Agrees f' on

variable {p p' : Program} {limit budget : Nat} {name : String} {args : List Value} {s : Store}

/-- An op on which the functions agree does the same in both. -/
theorem runOp_aligned {on : BlockId → Prop} {fr fr' : Frame} {op : OpId}
    (h : InStep on fr fr') (hp : Counterparts Alike p p') {b : BlockId} (hb : on b)
    (hop : op ∈ fr.func.opsIn b) :
    Exec.Follows True (FlowFollows True Aligned Alike) (runOp p fr op) (runOp p' fr' op) := by
  have hsame := h.agrees.op? hb hop
  cases hd : fr.func.op? op with
  | none =>
    rw [runOp_none hd, runOp_none (hsame.trans hd)]
    exact .throw _
  | some d =>
    exact Machine.runOp_follows hp hd (hsame.trans hd)
      (h.repeats fun c hc => h.agrees.closed hb hop hd hc)

/-- Runs from frames in step are the same. -/
theorem runWithin_eq (hp : Counterparts Alike p p') {fr fr' : Frame}
    {callers callers' : List (Frame × CallSite)} (h : Aligned fr fr')
    (hc : List.Forall₂ (Awaits True Aligned) callers callers') :
    runWithin p' limit budget fr' callers' s = runWithin p limit budget fr callers s := by
  induction budget generalizing fr fr' callers callers' s with
  | zero =>
    obtain ⟨on, h⟩ := h
    cases hr : fr.rest with
    | nil => rw [runWithin_nil hr, runWithin_nil (h.rest.trans hr), h.block]
    | cons op rest => rw [runWithin_zero hr, runWithin_zero (h.rest.trans hr), h.agrees.name]
  | succ budget ih =>
    obtain ⟨on, h⟩ := h
    cases hr : fr.rest with
    | nil => rw [runWithin_nil hr, runWithin_nil (h.rest.trans hr), h.block]
    | cons op rest =>
      rw [runWithin_succ hr, runWithin_succ (h.rest.trans hr)]
      obtain ⟨b, hb, hop⟩ := h.listed (x := op) (by simp [hr])
      have hfr : InStep on { fr with rest } { fr' with rest } :=
        ⟨h.agrees, h.values, h.inFlight, h.block, rfl, fun {x} hx => h.listed (by simp [hr, hx])⟩
      have hstart (f f' : Func) (args : List Value) (hf : Alike f f') :
          Follows True Aligned (Frame.start f args) (Frame.start f' args) := by
        obtain ⟨on, hf⟩ := hf
        exact (hf.start_follows args).mono fun _ _ hfr => ⟨on, hfr⟩
      have hstep : Exec.Follows True (ProgressFollows True Aligned)
          (step p { fr with rest } callers op) (step p' { fr' with rest } callers' op) :=
        .bind (runOp_aligned hfr hp hb hop) fun _ _ hflow =>
          .lift (advance_follows hstart hc hflow)
      have hresult := hstep (counted s) (counted s) (.refl _)
      change EStateM.bind _ _ _ = EStateM.bind _ _ _
      unfold EStateM.bind
      generalize step p { fr with rest } callers op (counted s) = r,
        step p' { fr' with rest } callers' op (counted s) = r' at hresult
      cases hresult with
      | stop he => rw [he trivial]
      | ok hst hprogress =>
        obtain rfl := hst.2.2 trivial
        cases hprogress with
        | running hfr hc => exact ih hfr hc
        | finished => rfl

/-- Calls of programs whose functions agree are the same, in what they give and in what they
leave. -/
theorem run_eq (hp : Counterparts Alike p p') :
    run p' limit name args s = run p limit name args s := by
  have hf := hp.func? name
  generalize hg : p.func? name = g, hg' : p'.func? name = g' at hf
  cases hf with
  | none => rw [run_of_none hg, run_of_none hg']
  | @some f f' hff' =>
    obtain ⟨on, hff'⟩ := hff'
    have hstart := hff'.start_follows args
    generalize hfr : Frame.start f args = r, hfr' : Frame.start f' args = r' at hstart
    cases hstart with
    | ok hstep =>
      rw [run_of_start_ok hg hfr, run_of_start_ok hg' hfr']
      exact runWithin_eq hp ⟨on, hstep⟩ .nil
    | stop he => rw [run_of_start_error hg hfr, run_of_start_error hg' (hfr'.trans (he trivial))]

end Machine

end Unnest
