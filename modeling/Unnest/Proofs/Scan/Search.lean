import Unnest.Proofs.Lowering.Flat
import Unnest.Proofs.Scan.Rewriting
import Unnest.Proofs.Tidy.Pruned
/-!
# The search misses nothing

The search from where the last construct was found finds the first construct of the whole body, and
every dispatch on the way has been put off (`LowerState.Swept.nextConstruct`). The next search goes
on from there (`Lower.Rounds.swept`), and when one finds nothing, only dispatches that have been put
off are left (`Lower.flattenFrom_swept`).
-/

namespace Unnest

open Func

namespace Func

variable {f : Func}

/-- The dispatches before the first other construct. -/
def dispatchesBefore (f : Func) (l : List OpId) : List OpId :=
  (l.takeWhile fun x => !f.kindIs OpKind.isPending x).filter (f.kindIs OpKind.isDispatch)

theorem scanOps_eq {l : List OpId} (hl : ∀ x ∈ l, ∃ d, f.op? x = some d) :
    f.scanOps l = .ok (f.dispatchesBefore l, l.find? (f.kindIs OpKind.isPending)) := by
  induction l with
  | nil => rfl
  | cons x l ih =>
    obtain ⟨d, hd⟩ := hl x (by simp)
    have hrest := ih fun y hy => hl y (by simp [hy])
    have hpending : f.kindIs OpKind.isPending x = d.kind.isPending := by simp [kindIs, hd]
    have hdispatch : f.kindIs OpKind.isDispatch x = d.kind.isDispatch := by simp [kindIs, hd]
    unfold scanOps
    rw [kind_of_eq hd, hrest]
    by_cases h₁ : d.kind.isDispatch = true
    · simp [dispatchesBefore, hpending, hdispatch, OpKind.isPending, h₁, bind, Except.bind, pure,
        Except.pure]
    · by_cases h₂ : d.kind.isStructured = true
      · simp [dispatchesBefore, hpending, OpKind.isPending, h₁, h₂, bind, Except.bind, pure,
          Except.pure]
      · simp [dispatchesBefore, hpending, hdispatch, OpKind.isPending, h₁, h₂, bind, Except.bind]

/-- The blocks are there, with their ops. -/
def Readable (f : Func) (bs : List BlockId) : Prop :=
  ∀ b ∈ bs, (∃ d, f.block? b = some d) ∧ ∀ x ∈ f.opsIn b, ∃ d, f.op? x = some d

theorem dispatchesBefore_append {l l' : List OpId}
    (h : l.find? (f.kindIs OpKind.isPending) = none) :
    f.dispatchesBefore (l ++ l') = f.dispatchesBefore l ++ f.dispatchesBefore l' := by
  have hall : ∀ x ∈ l, (!f.kindIs OpKind.isPending x) = true := by
    simpa [List.find?_eq_none] using h
  unfold dispatchesBefore
  rw [List.takeWhile_append_of_pos hall, List.filter_append, List.takeWhile_eq_self_iff.mpr hall]

theorem dispatchesBefore_append_of_some {l l' : List OpId} {x : OpId}
    (h : l.find? (f.kindIs OpKind.isPending) = some x) :
    f.dispatchesBefore (l ++ l') = f.dispatchesBefore l := by
  obtain ⟨hx, pre, post, rfl, hpre⟩ := List.find?_eq_some_iff_append.mp h
  unfold dispatchesBefore
  rw [List.append_assoc, List.takeWhile_append_of_pos hpre, List.takeWhile_append_of_pos hpre,
    List.cons_append, List.takeWhile_cons_of_neg (by simp [hx]),
    List.takeWhile_cons_of_neg (by simp [hx])]

/-- What a search finds, with the number of its block. -/
theorem scanBlocks_eq {bs : List BlockId} (hbs : f.Readable bs) (index : Nat) :
    ∃ found, f.scanBlocks index bs = .ok (f.dispatchesBefore (bs.flatMap f.opsIn), found) ∧
      found.map (·.2) = (bs.flatMap f.opsIn).find? (f.kindIs OpKind.isPending) ∧
      ∀ p, found = some p → index ≤ p.1 ∧
        ∀ b ∈ bs.take (p.1 - index), ∀ x ∈ f.opsIn b, f.kindIs OpKind.isPending x = false := by
  induction bs generalizing index with
  | nil => exact ⟨none, rfl, rfl, by simp⟩
  | cons b bs ih =>
    obtain ⟨⟨bd, hbd⟩, hops⟩ := hbs b (by simp)
    have hopsIn : f.opsIn b = bd.ops := by simp [opsIn, hbd]
    rw [hopsIn] at hops
    obtain ⟨found, hfound, hmap, hindex⟩ := ih (fun c hc => hbs c (by simp [hc])) (index + 1)
    unfold scanBlocks
    rw [block_of_eq hbd, List.flatMap_cons, hopsIn, List.find?_append]
    cases hfind : bd.ops.find? (f.kindIs OpKind.isPending) with
    | some x =>
      refine ⟨some (index, x), ?_, rfl, ?_⟩
      · rw [dispatchesBefore_append_of_some hfind]
        simp [scanOps_eq hops, hfind, bind, Except.bind, pure, Except.pure]
      · rintro _ ⟨⟩
        simp
    | none =>
      refine ⟨found, ?_, hmap, fun p hp => ?_⟩
      · rw [dispatchesBefore_append hfind]
        simp [scanOps_eq hops, hfind, hfound, bind, Except.bind, pure, Except.pure]
      · obtain ⟨hle, hbefore⟩ := hindex p hp
        refine ⟨by omega, fun c hc x hx => ?_⟩
        rw [show p.1 - index = p.1 - (index + 1) + 1 by omega, List.take_succ_cons,
          List.mem_cons] at hc
        obtain rfl | hc := hc
        · have := List.find?_eq_none.mp hfind x (hopsIn ▸ hx)
          simpa using this
        · exact hbefore c hc x hx

end Func

theorem Bindings.mem_pending_foldl_defer {l : List OpId} {b : Bindings} {x : OpId} :
    x ∈ (l.foldl Bindings.defer b).pending ↔ x ∈ b.pending ∨ x ∈ l := by
  induction l generalizing b with
  | nil => simp
  | cons y l ih =>
    have hdefer : x ∈ (b.defer y).pending ↔ x ∈ b.pending ∨ x = y := by
      unfold Bindings.defer
      split
      · exact ⟨.inl, fun h => h.elim id fun h => h ▸ ‹_›⟩
      · simp
    rw [List.foldl_cons, ih, hdefer, List.mem_cons, or_assoc]

variable {i : Nat} {s s' : LowerState}

namespace Func.Swept

variable {f : Func} {D : List OpId}

theorem readable (h : f.Swept i D fun _ => False) : f.Readable (f.blocksIn f.body) := by
  intro b hb
  refine ⟨h.block hb, fun x hx => ?_⟩
  obtain ⟨d, hd, -⟩ := h.filed.op hx
  exact ⟨d, hd⟩

/-- There is nothing to find before the `i`th block. -/
theorem not_pending (h : f.Swept i D fun _ => False) {b : BlockId} {x : OpId}
    (hb : b ∈ (f.blocksIn f.body).take i) (hx : x ∈ f.opsIn b) :
    f.kindIs OpKind.isPending x = false := by
  obtain ⟨d, hd, -⟩ := h.filed.op hx
  have hclear := h.cleared hb x hx d hd
  cases hs : d.kind.isStructured with
  | false => simp [kindIs, hd, OpKind.isPending, hs]
  | true => simp [kindIs, hd, OpKind.isPending, hclear hs]

end Func.Swept

/-- What is cleared but for some dispatches. -/
theorem Func.Cleared.mono {f : Func} {D D' : List OpId} {b : BlockId} (h : f.Cleared D b)
    (hD : ∀ x ∈ D, x ∈ D') : f.Cleared D' b := fun x hx d hd hs =>
  ⟨(h x hx d hd hs).1, hD x (h x hx d hd hs).2⟩

theorem Func.find?_eq_none_of_blocks {f : Func} {bs : List BlockId}
    (h : ∀ b ∈ bs, ∀ x ∈ f.opsIn b, f.kindIs OpKind.isPending x = false) :
    (bs.flatMap f.opsIn).find? (f.kindIs OpKind.isPending) = none := by
  rw [List.find?_eq_none]
  intro x hx
  obtain ⟨b, hb, hx⟩ := List.mem_flatMap.mp hx
  simp [h b hb x hx]

/-- In blocks without other constructs every dispatch comes before the first. -/
theorem Func.mem_dispatchesBefore {f : Func} {bs : List BlockId} {b : BlockId} {x : OpId} {d : Op}
    (bs' : List BlockId) (h : ∀ b ∈ bs, ∀ x ∈ f.opsIn b, f.kindIs OpKind.isPending x = false)
    (hb : b ∈ bs) (hx : x ∈ f.opsIn b) (hd : f.op? x = some d)
    (hdispatch : d.kind.isDispatch = true) :
    x ∈ f.dispatchesBefore ((bs ++ bs').flatMap f.opsIn) := by
  have hnone := find?_eq_none_of_blocks h
  rw [List.flatMap_append, dispatchesBefore_append hnone, List.mem_append]
  left
  have hall : ∀ y ∈ bs.flatMap f.opsIn, (!f.kindIs OpKind.isPending y) = true := fun y hy => by
    simpa using List.find?_eq_none.mp hnone y hy
  unfold dispatchesBefore
  rw [List.takeWhile_eq_self_iff.mpr hall, List.mem_filter]
  exact ⟨List.mem_flatMap.mpr ⟨b, hb, hx⟩, by simp [kindIs, hd, hdispatch]⟩

/-- The search from the `i`th block finds the first construct of the whole body. All dispatches
before it have been put off then, and it goes on from the block of the construct. -/
theorem LowerState.Swept.nextConstruct {D : List OpId} (h : s.Swept i D fun _ => False) :
    ∃ found s', Lower.nextConstruct i s = .ok found s' ∧ s'.func = s.func ∧
      found.map (·.2) = s.func.bodyOps.find? (s.func.kindIs OpKind.isPending) ∧
      (∀ x ∈ s.func.dispatchesBefore s.func.bodyOps, x ∈ s'.bindings.pending) ∧
      ∀ p, found = some p → s'.Swept p.1 s'.bindings.pending fun _ => False := by
  obtain ⟨hf, hD⟩ := h
  set f := s.func
  set body := f.blocksIn f.body with hbody
  have hreadable : f.Readable (body.drop i) := fun b hb => hf.readable b (List.mem_of_mem_drop hb)
  have hsplit : body.take i ++ body.drop i = body := List.take_append_drop i body
  have hswept : ∀ b ∈ body.take i, ∀ x ∈ f.opsIn b, f.kindIs OpKind.isPending x = false :=
    fun b hb x hx => hf.not_pending hb hx
  obtain ⟨found, hscan, hmap, hindex⟩ := scanBlocks_eq hreadable i
  set ds := f.dispatchesBefore ((body.drop i).flatMap f.opsIn)
  have hmem (x : OpId) : x ∈ (ds.foldl Bindings.defer s.bindings).pending ↔ x ∈ D ∨ x ∈ ds := by
    rw [Bindings.mem_pending_foldl_defer, hD]
  refine ⟨found, { s with bindings := ds.foldl Bindings.defer s.bindings }, ?_, rfl, ?_, ?_, ?_⟩
  · exact (bind_of_ok (x := Lower.getFunc) rfl).trans
      ((bind_of_ok (read_of_ok (bodyBlocks_eq hf.body) s)).trans
        (bind_of_ok (read_of_ok hscan s)))
  · rw [hmap, bodyOps, ← hbody, ← hsplit, List.flatMap_append, List.find?_append,
      find?_eq_none_of_blocks hswept]
    simp [hsplit]
  · intro x hx
    rw [hmem]
    rw [bodyOps, ← hbody, ← hsplit, List.flatMap_append,
      dispatchesBefore_append (find?_eq_none_of_blocks hswept), List.mem_append] at hx
    refine hx.imp_left fun hx => ?_
    obtain ⟨hx, hdispatch⟩ := List.mem_filter.mp hx
    obtain ⟨b, hb, hx⟩ := List.mem_flatMap.mp (List.takeWhile_subset _ hx)
    obtain ⟨d, hd, -⟩ := hf.filed.op hx
    refine (hf.cleared hb x hx d hd (OpKind.isStructured_of_isDispatch ?_)).2
    simpa [kindIs, hd] using hdispatch
  · intro p hp
    obtain ⟨hle, hbefore⟩ := hindex p hp
    refine ⟨⟨hf.filed, hf.body, hf.block, fun {b} hb => ?_, fun hb => hb.elim⟩, rfl⟩
    change b ∈ body.take p.1 at hb
    rw [← Nat.add_sub_cancel' hle, List.take_add, List.mem_append] at hb
    obtain hb | hb := hb
    · exact (hf.cleared hb).mono fun x hx => (hmem x).mpr (.inl hx)
    · intro x hx d hd hs
      change f.op? x = some d at hd
      have hdispatch : d.kind.isDispatch = true := by
        have := hbefore b hb x hx
        simpa [kindIs, hd, OpKind.isPending, hs] using this
      refine ⟨hdispatch, (hmem x).mpr (.inr ?_)⟩
      have := mem_dispatchesBefore ((body.drop i).drop (p.1 - i)) hbefore hb hx hd hdispatch
      rwa [List.take_append_drop] at this

/-- If there is nothing to find, what is left are dispatches that have been put off. -/
theorem Func.Swept.of_find?_eq_none {f : Func} {D D' : List OpId} (h : f.Swept i D fun _ => False)
    (hnone : f.bodyOps.find? (f.kindIs OpKind.isPending) = none)
    (hD : ∀ x ∈ f.dispatchesBefore f.bodyOps, x ∈ D') (j : Nat) : f.Swept j D' fun _ => False := by
  have hpending : ∀ b ∈ f.blocksIn f.body, ∀ x ∈ f.opsIn b, f.kindIs OpKind.isPending x = false :=
    fun b hb x hx => by
      simpa using List.find?_eq_none.mp hnone x (List.mem_flatMap.mpr ⟨b, hb, hx⟩)
  refine ⟨h.filed, h.body, h.block, fun {b} hb x hx d hd hs => ?_, fun hb => hb.elim⟩
  have hb := List.mem_of_mem_take hb
  have hdispatch : d.kind.isDispatch = true := by
    simpa [kindIs, hd, OpKind.isPending, hs] using hpending b hb x hx
  have hx := mem_dispatchesBefore [] hpending hb hx hd hdispatch
  rw [List.append_nil] at hx
  exact ⟨hdispatch, hD x hx⟩

/-- The search that finds nothing is the last. -/
theorem LowerState.Swept.of_nextConstruct_eq_none (h : s.Swept i s.bindings.pending fun _ => False)
    (hnext : Lower.nextConstruct i s = .ok none s') (j : Nat) :
    s'.func.Swept j s'.bindings.pending fun _ => False := by
  obtain ⟨found, s₁, hnext', hfunc, hfound, hdispatches, -⟩ := h.nextConstruct
  cases hnext.symm.trans hnext'
  exact hfunc ▸ h.1.of_find?_eq_none hfound.symm hdispatches j

/-! ## Rounds -/

namespace Lower

variable {types : TypeTable} {o : LowerOptions} {f : Func}

/-- What holds whenever the search goes on. -/
theorem Rounds.swept {p q : Nat × LowerState} (h : Rounds types o p q)
    (hp : p.2.Swept p.1 p.2.bindings.pending fun _ => False) :
    q.2.Swept q.1 q.2.bindings.pending fun _ => False := by
  induction h with
  | refl => exact hp
  | tail _ hstep ih =>
    obtain ⟨op, s, hnext, hlower⟩ := hstep
    obtain ⟨found, s', hnext', -, -, -, hswept⟩ := ih.nextConstruct
    cases hnext.symm.trans hnext'
    have hs' := lowerOp_swept (hswept _ rfl) hlower
    exact ⟨hs'.2.symm ▸ hs'.1, rfl⟩

/-- When the search ends, what is left are dispatches that have been put off. -/
theorem flattenFrom_swept {rounds start : Nat}
    (hs : s.Swept start s.bindings.pending fun _ => False)
    (h : flattenFrom types o rounds start s = .ok () s') (j : Nat) :
    s'.func.Swept j s'.bindings.pending fun _ => False := by
  induction rounds generalizing start s with
  | zero =>
    obtain ⟨found, s₁, hnext, h⟩ := bind_eq_ok h
    cases found with
    | none =>
      cases h
      exact hs.of_nextConstruct_eq_none hnext j
    | some p => cases h
  | succ rounds ih =>
    obtain ⟨found, s₁, hnext, h⟩ := bind_eq_ok h
    cases found with
    | none =>
      cases h
      exact hs.of_nextConstruct_eq_none hnext j
    | some p =>
      obtain ⟨⟨⟩, s₂, hlower, h⟩ := bind_eq_ok h
      have hround : Rounds types o (start, s) (p.1, s₂) := .single ⟨p.2, s₁, hnext, hlower⟩
      exact ih (hround.swept hs) h

end Lower

end Unnest
