import Unnest.Lower.Batch
import Unnest.Proofs.Ownership.Reachable
/-!
# Sharing out the functions of a program

However the functions are cut into runs of neighbours, a lowering that is shared out ends like the
one that takes the functions in turn, as long as no worker breaks off. `lowerInShares_eq` says what
the shares come to when they are put together: each function as its own lowering leaves it, and the
first of the results that is an error. `lowerAll_result` finds the same result in the lowering that
stops early, and `lowerAll_of_failsFirst` where it stops.
-/

namespace Unnest

namespace Lower

variable {types : TypeTable} {o : LowerOptions}

/-- What one function's lowering reports. -/
def verdict (types : TypeTable) (o : LowerOptions) (f : Func) : Except Stop LowerStats :=
  match lowerFunc types o f with
  | .ok stats _ => .ok stats
  | .error e _ => .error e

/-- If the lowering of the function stops, it does so with an error. -/
def NeverBreaksOff (types : TypeTable) (o : LowerOptions) (f : Func) : Prop :=
  ∀ e f', lowerFunc types o f = .error e f' → ∃ cause, e = .failed cause

/-- Whether the lowering stops without an error. -/
def breaksOff (types : TypeTable) (o : LowerOptions) (f : Func) : Bool :=
  match lowerFunc types o f with
  | .error (.failed _) _ | .ok .. => false
  | .error .. => true

theorem neverBreaksOff_iff {f : Func} :
    NeverBreaksOff types o f ↔ breaksOff types o f = false := by
  unfold NeverBreaksOff breaksOff
  cases lowerFunc types o f with
  | ok stats f' => simp
  | error e f' => cases e <;> simp

instance (f : Func) : Decidable (NeverBreaksOff types o f) :=
  decidable_of_iff _ neverBreaksOff_iff.symm

/-- The first function whose lowering stops stands behind `done` others, and stops with `e` at
`after`. -/
def FailsFirst (types : TypeTable) (o : LowerOptions) (funcs : List Func) (done : Nat) (e : Stop)
    (after : Func) : Prop :=
  ∃ pre f rest, funcs = pre ++ f :: rest ∧ pre.length = done ∧
    (∀ g ∈ pre, ∃ stats g', lowerFunc types o g = .ok stats g') ∧
    lowerFunc types o f = .error e after

theorem verdict_of_ok {f f' : Func} {stats : LowerStats} (h : lowerFunc types o f = .ok stats f') :
    verdict types o f = .ok stats ∧ left (lowerFunc types o) f = f' := by
  simp [verdict, left, h]

theorem verdict_of_error {f f' : Func} {e : Stop} (h : lowerFunc types o f = .error e f') :
    verdict types o f = .error e ∧ left (lowerFunc types o) f = f' := by
  simp [verdict, left, h]

/-! ## One share -/

theorem lowerShare_eq (funcs : List Func) (h : ∀ f ∈ funcs, NeverBreaksOff types o f) :
    (lowerShare types o funcs).funcs = funcs.map (left (lowerFunc types o)) ∧
      (lowerShare types o funcs).result = some (funcs.map (verdict types o)) := by
  induction funcs with
  | nil => exact ⟨rfl, rfl⟩
  | cons f rest ih =>
    obtain ⟨hfuncs, hresult⟩ := ih fun g hg => h g (by simp [hg])
    cases hf : lowerFunc types o f with
    | ok stats f' =>
      obtain ⟨hv, hl⟩ := verdict_of_ok hf
      simp [lowerShare, hf, hfuncs, hresult, hv, hl]
    | error e f' =>
      obtain ⟨cause, rfl⟩ := h f (by simp) e f' hf
      obtain ⟨hv, hl⟩ := verdict_of_error hf
      simp [lowerShare, hf, hfuncs, hresult, hv, hl]

/-! ## All shares -/

theorem flatten_shares {α : Type} {size : Nat} (hsize : 0 < size) (count : Nat) (l : List α)
    (hl : l.length ≤ count) : (shares size count l).flatten = l := by
  induction count generalizing l with
  | zero => simpa [shares] using (List.length_eq_zero_iff.mp (Nat.le_zero.mp hl)).symm
  | succ count ih =>
    cases l with
    | nil => rfl
    | cons a l =>
      rw [shares, List.flatten_cons, ih _ (by simp at hl ⊢; omega), List.take_append_drop]
      simp

theorem lowerInShares_eq {size : Nat} (hsize : 0 < size) (funcs : List Func)
    (h : ∀ f ∈ funcs, NeverBreaksOff types o f) :
    (lowerInShares types o size funcs).funcs = funcs.map (left (lowerFunc types o)) ∧
      (lowerInShares types o size funcs).result = (funcs.map (verdict types o)).mapM id := by
  have hflat := flatten_shares hsize funcs.length funcs le_rfl
  have hshare : ∀ share ∈ shares size funcs.length funcs,
      (lowerShare types o share).funcs = share.map (left (lowerFunc types o)) ∧
        (lowerShare types o share).result = some (share.map (verdict types o)) := by
    intro share hs
    refine lowerShare_eq share fun f hf => h f ?_
    rw [← hflat]
    exact List.mem_flatten_of_mem hs hf
  constructor
  · calc (lowerInShares types o size funcs).funcs
        _ = (shares size funcs.length funcs).flatMap fun share =>
              (lowerShare types o share).funcs := List.flatMap_map ..
        _ = (shares size funcs.length funcs).flatMap
              (List.map (left (lowerFunc types o))) :=
            List.flatMap_congr fun share hs => (hshare share hs).1
        _ = funcs.map (left (lowerFunc types o)) := by
            rw [List.flatMap_def, ← List.map_flatten, hflat]
  · have hresults : ((shares size funcs.length funcs).map (lowerShare types o)).flatMap
        (fun share => shareResults share.result) = funcs.map (verdict types o) := by
      calc ((shares size funcs.length funcs).map (lowerShare types o)).flatMap
            (fun share => shareResults share.result)
          _ = (shares size funcs.length funcs).flatMap fun share =>
                shareResults (lowerShare types o share).result := List.flatMap_map ..
          _ = (shares size funcs.length funcs).flatMap (List.map (verdict types o)) :=
              List.flatMap_congr fun share hs => by rw [(hshare share hs).2]; rfl
          _ = funcs.map (verdict types o) := by
              rw [List.flatMap_def, ← List.map_flatten, hflat]
    rw [← hresults]
    rfl

/-! ## One function after another -/

theorem lowerAll_result (funcs : List Func) :
    (lowerAll types o funcs).result = (funcs.map (verdict types o)).mapM id := by
  induction funcs with
  | nil => rfl
  | cons f rest ih =>
    rw [List.map_cons, List.mapM_cons, ← ih]
    cases hf : lowerFunc types o f with
    | ok stats f' =>
      rw [(verdict_of_ok hf).1]
      simp only [lowerAll, hf]
      cases (lowerAll types o rest).result <;> rfl
    | error e f' =>
      rw [(verdict_of_error hf).1]
      simp only [lowerAll, hf]
      rfl

/-- The functions up to the first whose lowering stops are left as their own lowerings leave
them. -/
theorem lowerAll_of_failsFirst {pre rest : List Func} {f after : Func} {e : Stop}
    (hpre : ∀ g ∈ pre, ∃ stats g', lowerFunc types o g = .ok stats g')
    (hf : lowerFunc types o f = .error e after) :
    (lowerAll types o (pre ++ f :: rest)).funcs =
        pre.map (left (lowerFunc types o)) ++ after :: rest ∧
      (lowerAll types o (pre ++ f :: rest)).result = .error e := by
  induction pre with
  | nil => simp [lowerAll, hf]
  | cons g pre ih =>
    obtain ⟨stats, g', hg⟩ := hpre g (by simp)
    obtain ⟨hfuncs, hresult⟩ := ih fun g hg => hpre g (by simp [hg])
    simp [lowerAll, hg, hfuncs, hresult, (verdict_of_ok hg).2]

/-- A lowering of all functions that succeeds has each function's own. -/
theorem lowerAll_of_ok {funcs : List Func} {stats : List LowerStats}
    (h : (lowerAll types o funcs).result = .ok stats) :
    List.Forall₂ (fun f done => lowerFunc types o f = .ok done.1 done.2) funcs
        (stats.zip (lowerAll types o funcs).funcs) ∧
      (lowerAll types o funcs).funcs = funcs.map (left (lowerFunc types o)) := by
  induction funcs generalizing stats with
  | nil => simp [lowerAll]
  | cons f rest ih =>
    cases hf : lowerFunc types o f with
    | ok one f' =>
      simp only [lowerAll, hf] at h ⊢
      cases hrest : (lowerAll types o rest).result with
      | error e => simp [hrest] at h
      | ok others =>
        obtain ⟨hall, hfuncs⟩ := ih hrest
        obtain rfl : one :: others = stats := by simpa [hrest] using h
        exact ⟨.cons hf hall, by rw [List.map_cons, (verdict_of_ok hf).2, ← hfuncs]⟩
    | error e f' => simp [lowerAll, hf] at h

theorem exists_failsFirst {funcs : List Func} {e : Stop}
    (h : (lowerAll types o funcs).result = .error e) :
    ∃ done after, FailsFirst types o funcs done e after := by
  induction funcs with
  | nil => simp [lowerAll] at h
  | cons f rest ih =>
    cases hf : lowerFunc types o f with
    | ok stats f' =>
      have hrest : (lowerAll types o rest).result = .error e := by
        cases hr : (lowerAll types o rest).result <;> simp_all [lowerAll]
      obtain ⟨done, after, pre, g, tail, rfl, rfl, hpre, hg⟩ := ih hrest
      refine ⟨pre.length + 1, after, f :: pre, g, tail, rfl, rfl, ?_, hg⟩
      intro x hx
      obtain rfl | hx := List.mem_cons.mp hx
      · exact ⟨stats, f', hf⟩
      · exact hpre x hx
    | error d f' =>
      obtain rfl : d = e := by simpa [lowerAll, hf] using h
      exact ⟨0, f', [], f, rest, rfl, rfl, by simp, hf⟩

end Lower

namespace Program

open Lower

/-- Two lowerings of a program agree: they have the same result, which is that of every function in
turn or of the first that fails, and they leave the same functions, up to the one that fails. -/
structure Agree (p : Program) (o : LowerOptions)
    (shared alone : Program × Except Stop (List LowerStats) × List Diagnostic) : Prop where
  result : shared.2.1 = alone.2.1
  done : ∀ stats, alone.2.1 = .ok stats → shared.1 = alone.1 ∧
    List.Forall₂ (fun f done => lowerFunc p.types o f = .ok done.1 done.2) p.funcs
      (stats.zip shared.1.funcs)
  failed : ∀ e, alone.2.1 = .error e → ∃ done after, FailsFirst p.types o p.funcs done e after ∧
    shared.1.funcs.take (done + 1) = alone.1.funcs.take (done + 1)

theorem agree_lowerInShares (p : Program) (o : LowerOptions)
    (h : ∀ f ∈ p.funcs, NeverBreaksOff p.types o f) {size : Nat} (hsize : 0 < size) :
    p.Agree o (p.withBatch (lowerInShares p.types o size p.funcs)) (p.lower o none) := by
  obtain ⟨hfuncs, hresult⟩ := lowerInShares_eq hsize p.funcs h
  refine ⟨hresult.trans (lowerAll_result p.funcs).symm, ?_, ?_⟩
  · intro stats hstats
    obtain ⟨hall, hdone⟩ := lowerAll_of_ok hstats
    have hsame := hfuncs.trans hdone.symm
    refine ⟨congrArg (fun funcs => { p with funcs }) hsame, ?_⟩
    rw [withBatch, hsame]
    exact hall
  · intro e he
    obtain ⟨done, after, hfirst⟩ := exists_failsFirst he
    refine ⟨done, after, hfirst, ?_⟩
    obtain ⟨pre, f, rest, heq, rfl, hpre, hf⟩ := hfirst
    have halone : (p.lower o none).1.funcs =
      pre.map (left (lowerFunc p.types o)) ++ after :: rest := by
      rw [← (lowerAll_of_failsFirst hpre hf).1, ← heq]
      rfl
    have hshared : (p.withBatch (lowerInShares p.types o size p.funcs)).1.funcs =
        pre.map (left (lowerFunc p.types o)) ++ after :: rest.map (left (lowerFunc p.types o)) := by
      rw [withBatch, hfuncs, heq, List.map_append, List.map_cons, (verdict_of_error hf).2]
    rw [halone, hshared, List.take_append, List.take_append]
    simp

/-- A lowering that is shared out agrees with one that takes the functions in turn, for every size
of the shares and every number of workers. -/
theorem lower_shared_agrees (p : Program) (o : LowerOptions)
    (h : ∀ f ∈ p.funcs, NeverBreaksOff p.types o f) :
    (∀ size, 0 < size →
      p.Agree o (p.withBatch (lowerInShares p.types o size p.funcs)) (p.lower o none)) ∧
    ∀ workers, p.Agree o (p.lower o (some workers)) (p.lower o none) :=
  ⟨fun _ hsize => agree_lowerInShares p o h hsize,
    fun _ => agree_lowerInShares p o h (Nat.lt_of_lt_of_le Nat.zero_lt_one (Nat.le_max_left ..))⟩

/-- Three functions, of which the second has a jump without a target. -/
def strayJump : Program where
  name := "jumps"
  funcs := [Source.built "first" ⟨[], .void⟩ Source.cleanedCall,
    Source.built "second" ⟨[], .void⟩ [.entry none, .brk none, .exit],
    Source.built "third" ⟨[], .void⟩ Source.cleanedCall]

theorem lower_shared_agrees_strayJump :
    (∀ f ∈ strayJump.funcs, NeverBreaksOff strayJump.types default f) ∧
      strayJump.Agree default (strayJump.lower default (some 2)) (strayJump.lower default none) ∧
      (strayJump.lower default (some 2)).2.1 =
        .error (.internalAt ⟨1⟩ .noJumpTarget) := by
  have h : ∀ f ∈ strayJump.funcs, NeverBreaksOff strayJump.types default f := by decide +kernel
  exact ⟨h, (lower_shared_agrees strayJump default h).2 2, by decide +kernel⟩

end Program

end Unnest
