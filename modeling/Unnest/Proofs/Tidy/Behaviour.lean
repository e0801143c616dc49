import Unnest.Proofs.Machine.Following
import Unnest.Proofs.Tidy.Gathering
/-!
# Gathered constants and runs

A run of a function whose constants have been gathered follows a run of the function before
(`Gathered.simulates`). Where an op used an erased constant it uses the one kept, which has the same
value by then: all constants kept are defined as soon as the entry block has been started, and the
constants that the run before passes on its way have been moved out of the way.
-/

namespace Unnest

/-- A call starts in the first block of the body. -/
theorem Frame.start_eq {f : Func} {entry : BlockId} {blocks : List BlockId}
    (hentry : f.blocksIn f.body = entry :: blocks) (args : List Value) :
    Frame.start f args = Frame.enter { func := f, block := entry } entry args := by
  obtain ⟨⟨-, parent⟩, hrd, rfl⟩ := Tidy.exists_region hentry
  unfold Frame.start
  rw [hrd]
  rfl

namespace Tidy

/-- Two tables of values agree when the first is read under other names. -/
def Agree (σ : ValueId → ValueId) (t t' : Table ValueId Value) : Prop :=
  ∀ v x, t.get? v = some x → t'.get? (σ v) = some x

/-- What the two runs have in common: an erased constant is known in the second by the name of the
one kept for it, and constants have their values. -/
structure Common (kept gone : List Const) (σ : ValueId → ValueId) (f f' : Func) (fr fr' : Frame) :
    Prop where
  func : fr.func = f
  func' : fr'.func = f'
  inFlight : fr'.inFlight = fr.inFlight
  agree : Agree σ fr.values fr'.values
  constants : ∀ c ∈ kept ++ gone, ∀ x, fr.values.get? c.value = some x → x = .ofLiteral c.key.2

/-- The two runs are in the same block, and the constants in `todo` are still to be defined in the
second. -/
structure Abreast (kept gone : List Const) (σ : ValueId → ValueId) (f f' : Func)
    (todo : List Const) (fr fr' : Frame) : Prop extends Common kept gone σ f f' fr fr' where
  listed : ∀ x ∈ fr.rest, ∃ b, x ∈ f.opsIn b
  rest : fr'.rest = opsOf todo ++ fr.rest.filter (· ∉ opsOf kept ++ opsOf gone)
  todo_le : ∀ c ∈ todo, c ∈ kept
  defined : ∀ c ∈ kept, c ∉ todo → fr'.values.get? c.value = some (.ofLiteral c.key.2)

/-- No constant that has been gone through defines the value. -/
def Foreign (kept gone : List Const) (v : ValueId) : Prop := ∀ c ∈ kept ++ gone, v ≠ c.value

/-- Frames of a function before and after its constants have been gathered, where those kept may be
still to be defined, or the same frame. -/
def Entered (kept gone : List Const) (σ : ValueId → ValueId) (f f' : Func) (fr fr' : Frame) :
    Prop :=
  fr' = fr ∨ ∃ todo, Abreast kept gone σ f f' todo fr fr'

variable {f f' : Func} {entry : BlockId} {kept gone todo : List Const} {σ : ValueId → ValueId}
  {fr fr' : Frame} {p : Program}

theorem Abreast.fly (ha : Abreast kept gone σ f f' todo fr fr') (thrown : Option Thrown) :
    Abreast kept gone σ f f' todo { fr with inFlight := thrown }
      { fr' with inFlight := thrown } :=
  ⟨⟨ha.func, ha.func', rfl, ha.agree, ha.constants⟩, ha.listed, ha.rest, ha.todo_le, ha.defined⟩

theorem runOp_constant (fr : Frame) (hplain : fr.func.PlainConstants) {c : Const}
    (hc : fr.func.Defines c) (s : Store) :
    Machine.runOp p fr c.op s = .ok (.next (fr.given [c.value] [.ofLiteral c.key.2])) s := by
  obtain ⟨d, hd, hkind, hhead, -⟩ := hc
  have hresults : d.results = [c.value] := by
    obtain ⟨v, hv⟩ := List.length_eq_one_iff.mp
      (hplain c.op d hd (by rw [hkind]; rfl)).1
    rw [hv] at hhead ⊢
    exact congrArg (fun u => [u]) (Option.some.inj hhead)
  rw [Machine.runOp_instr hd hkind]
  change (do return .next (← fr.define c.op d (.ofLiteral c.key.2)) : Exec Flow) s = _
  rw [Frame.define_eq hresults, hresults]
  rfl

namespace Gathered

variable (h : Gathered f entry kept gone σ f') (hf : f.Owned)

include h hf

variable {c : Const}

/-- A value has one key. -/
theorem key_eq {c' : Const} (hc : c ∈ kept ++ gone) (hc' : c' ∈ kept ++ gone)
    (hv : c.value = c'.value) : c.key = c'.key := by
  have hop := hf.op_eq_of_value (h.defines c hc) (h.defines c' hc') hv
  obtain ⟨d, hd, hkind, -, -, info, hinfo, hty⟩ := h.defines c hc
  obtain ⟨d', hd', hkind', -, -, info', hinfo', hty'⟩ := h.defines c' hc'
  rw [hop, hd', Option.some.injEq] at hd
  rw [hv, hinfo', Option.some.injEq] at hinfo
  subst hd hinfo
  exact Prod.ext (hty.symm.trans hty') (by simpa [hkind] using hkind')

variable {v : ValueId}

/-- The values known by the name of a constant that is kept. -/
theorem of_map_eq {k : Const} (hk : k ∈ kept) (hv : σ v = k.value) :
    ∃ c ∈ kept ++ gone, v = c.value ∧ c.key = k.key := by
  by_cases hgone : ∃ c ∈ gone, v = c.value
  · obtain ⟨c, hc, rfl⟩ := hgone
    obtain ⟨k', hk', hkey, hval⟩ := h.same c hc
    refine ⟨c, by simp [hc], rfl, ?_⟩
    rw [← hkey]
    exact h.key_eq hf (by simp [hk']) (by simp [hk]) (hval.symm.trans hv)
  · have hσ : σ v = v := h.other v fun c hc hvc => hgone ⟨c, hc, hvc⟩
    exact ⟨k, by simp [hk], hσ.symm.trans hv, rfl⟩

/-- A constant is known by the name of one that is kept. -/
theorem map_of_mem (hc : c ∈ kept ++ gone) : ∃ k ∈ kept, σ c.value = k.value ∧ k.key = c.key := by
  by_cases hgone : ∃ g ∈ gone, c.value = g.value
  · obtain ⟨g, hg, hv⟩ := hgone
    obtain ⟨k, hk, hkey, hval⟩ := h.same g hg
    exact ⟨k, hk, by rw [hv, hval], hkey.trans (h.key_eq hf (by simp [hg]) hc hv.symm)⟩
  · have hkept : c ∈ kept := by
      refine (List.mem_append.mp hc).resolve_right fun hmem => hgone ⟨c, hmem, rfl⟩
    exact ⟨c, hkept, h.other _ fun g hg hv => hgone ⟨g, hg, hv⟩, rfl⟩

omit hf in
theorem map_of_foreign (hv : Foreign kept gone v) : σ v = v :=
  h.other v fun c hc => hv c (by simp [hc])

omit hf in
theorem of_map_foreign {w : ValueId} (hw : Foreign kept gone w) (hv : σ v = w) : v = w := by
  by_cases hgone : ∃ c ∈ gone, v = c.value
  · obtain ⟨c, hc, rfl⟩ := hgone
    obtain ⟨k, hk, -, hval⟩ := h.same c hc
    exact absurd (hv.symm.trans hval) (hw k (by simp [hk]))
  · exact (h.other v fun c hc hvc => hgone ⟨c, hc, hvc⟩).symm.trans hv

variable {t t' : Table ValueId Value}

omit hf in
/-- A value that no constant defines is given to both. -/
theorem agree_insert (hagree : Agree σ t t') (hv : Foreign kept gone v) (x : Value) :
    Agree σ (t.insert v x) (t'.insert v x) := by
  intro u y hu
  rw [Table.get?_insert] at hu ⊢
  by_cases huv : v = u
  · subst huv
    rw [if_pos rfl] at hu
    rw [h.map_of_foreign hv, if_pos rfl, hu]
  · rw [if_neg huv] at hu
    rw [if_neg fun hσ => huv (h.of_map_foreign hv hσ.symm).symm]
    exact hagree u y hu

omit hf in
/-- Results of an op, or arguments of a block, that no constant defines are given to both. -/
theorem insertAll {pairs : List (ValueId × Value)} (hpairs : ∀ q ∈ pairs, Foreign kept gone q.1)
    (hagree : Agree σ t t') : Agree σ (t.insertAll pairs) (t'.insertAll pairs) ∧
      ∀ c ∈ kept ++ gone, (t.insertAll pairs).get? c.value = t.get? c.value ∧
        (t'.insertAll pairs).get? c.value = t'.get? c.value := by
  induction pairs generalizing t t' with
  | nil => exact ⟨hagree, fun _ _ => ⟨rfl, rfl⟩⟩
  | cons q pairs ih =>
    obtain ⟨hq, hpairs⟩ := List.forall_mem_cons.mp hpairs
    obtain ⟨hagree', hkeep⟩ := ih hpairs (h.agree_insert hagree hq q.2)
    refine ⟨hagree', fun c hc => ?_⟩
    obtain ⟨h₁, h₂⟩ := hkeep c hc
    exact ⟨h₁.trans (t.get?_insert_of_ne q.2 (hq c hc)),
      h₂.trans (t'.get?_insert_of_ne q.2 (hq c hc))⟩

variable {x : OpId} {d : Op}

/-- The result of an op that has not been gone through. -/
theorem foreign_result (hd : f.op? x = some d) (hx : x ∉ opsOf kept ++ opsOf gone)
    (hv : v ∈ d.results) : Foreign kept gone v := by
  rintro c hc rfl
  obtain ⟨i, hi⟩ := List.mem_iff_getElem?.mp hv
  have horigin := hf.origin_of_defines (h.defines c hc)
  rw [hf.result x d i c.value hd hi, Option.some.injEq, Origin.opResult.injEq] at horigin
  refine hx ?_
  rw [horigin.1, ← opsOf_append]
  exact List.mem_map_of_mem hc

theorem foreign_arg {b : BlockId} {d : Block} (hd : f.block? b = some d) (hv : v ∈ d.args) :
    Foreign kept gone v := by
  rintro c hc rfl
  obtain ⟨i, hi⟩ := List.mem_iff_getElem?.mp hv
  have horigin := hf.origin_of_defines (h.defines c hc)
  rw [hf.arg b d i c.value hd hi] at horigin
  simp at horigin

variable {vs : List ValueId}

omit hf in
/-- What stays when values are given to both that no constant defines. -/
theorem common_given (hc : Common kept gone σ f f' fr fr') (hvs : ∀ v ∈ vs, Foreign kept gone v)
    (xs : List Value) : Common kept gone σ f f' (fr.given vs xs) (fr'.given vs xs) := by
  have hpairs : ∀ q ∈ vs.zip xs, Foreign kept gone q.1 := fun q hq => hvs q.1 (List.of_mem_zip hq).1
  obtain ⟨hagree, hkeep⟩ := h.insertAll hpairs hc.agree
  exact ⟨hc.func, hc.func', hc.inFlight, hagree, fun c hmem x hx =>
    hc.constants c hmem x ((hkeep c hmem).1.symm.trans hx)⟩

omit hf in
theorem abreast_given (ha : Abreast kept gone σ f f' [] fr fr')
    (hvs : ∀ v ∈ vs, Foreign kept gone v) (xs : List Value) :
    Abreast kept gone σ f f' [] (fr.given vs xs) (fr'.given vs xs) := by
  have hpairs : ∀ q ∈ vs.zip xs, Foreign kept gone q.1 := fun q hq => hvs q.1 (List.of_mem_zip hq).1
  obtain ⟨-, hkeep⟩ := h.insertAll hpairs ha.agree
  exact ⟨h.common_given ha.toCommon hvs xs, ha.listed, ha.rest, ha.todo_le, fun c hc hnot =>
    (hkeep c (by simp [hc])).2.trans (ha.defined c hc hnot)⟩

/-- Both runs enter a block. Where it is not the entry, the constants have been defined before. -/
theorem enter_follows (hc : Common kept gone σ f f' fr fr') (b : BlockId) (args : List Value)
    (hdef : b ≠ entry → ∀ c ∈ kept, fr'.values.get? c.value = some (.ofLiteral c.key.2)) :
    Follows False (Entered kept gone σ f f') (fr.enter b args) (fr'.enter b args) := by
  unfold Frame.enter
  rw [hc.func, hc.func', h.block?]
  cases hb : f.block? b with
  | none => exact .error _
  | some d =>
    have hargs : ∀ v ∈ d.args, Foreign kept gone v := fun v hv => h.foreign_arg hf hb hv
    have hpairs : ∀ q ∈ d.args.zip args, Foreign kept gone q.1 :=
      fun q hq => hargs q.1 (List.of_mem_zip hq).1
    obtain ⟨hagree, hkeep⟩ := h.insertAll hpairs hc.agree
    change Follows _ _ (if d.args.length ≠ args.length then _ else _)
      (if d.args.length ≠ args.length then _ else _)
    split
    · exact .error _
    · refine .ok (.inr ⟨if b = entry then kept else [], ⟨⟨rfl, rfl, hc.inFlight, hagree, ?_⟩,
        ?_, ?_, ?_, ?_⟩⟩)
      · exact fun c hmem x hx => hc.constants c hmem x ((hkeep c hmem).1.symm.trans hx)
      · exact fun x hx => ⟨b, by rw [Func.opsIn, hb]; exact hx⟩
      · split <;> rfl
      · intro c hmem
        split at hmem
        · exact hmem
        · simp at hmem
      · intro c hmem hnot
        refine (hkeep c (by simp [hmem])).2.trans (hdef (fun hentry => ?_) c hmem)
        rw [if_pos hentry] at hnot
        exact hnot hmem

theorem enter_abreast (ha : Abreast kept gone σ f f' [] fr fr') (b : BlockId) (args : List Value) :
    Follows False (Entered kept gone σ f f') (fr.enter b args) (fr'.enter b args) :=
  h.enter_follows hf ha.toCommon b args fun _ c hc => ha.defined c hc List.not_mem_nil

omit hf in
theorem plainConstants (hplain : f.PlainConstants) : f'.PlainConstants := by
  intro x d' hd' hkind
  by_cases hx : x ∈ opsOf gone
  · obtain ⟨d, operands, hd, hd''⟩ := h.erased x hx
    obtain rfl := Option.some.inj (hd''.symm.trans hd')
    exact ⟨(hplain x d hd hkind).1, h.outline.bare (hplain x d hd hkind).2⟩
  · obtain ⟨d, hd, rfl⟩ := Option.map_eq_some_iff.mp ((h.op? x hx).symm.trans hd')
    have hplain := hplain x d hd (by simpa using hkind)
    exact ⟨(congrArg _ (renamed_results σ d)).trans hplain.1,
      h.outline.bare (bare_renamed hplain.2)⟩

/-- The second run defines the constants that are still to be defined. -/
theorem slides (hplain : f.PlainConstants) (ha : Abreast kept gone σ f f' todo fr fr') :
    ∃ fr'', Machine.Slides p fr' fr'' ∧ Abreast kept gone σ f f' [] fr fr'' := by
  induction todo generalizing fr' with
  | nil => exact ⟨fr', .refl fr', ha⟩
  | cons c todo ih =>
    have hc : c ∈ kept := ha.todo_le c List.mem_cons_self
    have hdefines : fr'.func.Defines c := ha.func' ▸ h.defines_kept hc
    obtain ⟨rest, hrest⟩ : ∃ rest, rest =
        opsOf todo ++ fr.rest.filter (· ∉ opsOf kept ++ opsOf gone) := ⟨_, rfl⟩
    have hnext : Abreast kept gone σ f f' todo fr
        (Frame.given { fr' with rest } [c.value] [.ofLiteral c.key.2]) := by
      have hget (v : ValueId) : (fr'.values.insertAll [(c.value, .ofLiteral c.key.2)]).get? v =
          if c.value = v then some (.ofLiteral c.key.2) else fr'.values.get? v :=
        Table.get?_insert ..
      refine ⟨⟨ha.func, ha.func', ha.inFlight, fun v x hx => ?_, ha.constants⟩, ha.listed, hrest,
        fun c' hc' => ha.todo_le c' (List.mem_cons_of_mem _ hc'), fun c' hc' hnot => ?_⟩
      · refine (hget (σ v)).trans ?_
        split
        case isTrue hv =>
          obtain ⟨g, hg, rfl, hkey⟩ := h.of_map_eq hf hc hv.symm
          rw [ha.constants g hg x hx, hkey]
        case isFalse => exact ha.agree v x hx
      · refine (hget c'.value).trans ?_
        split
        case isTrue hv => rw [h.key_eq hf (by simp [hc]) (by simp [hc']) hv]
        case isFalse hv =>
          refine ha.defined c' hc' fun hmem => ?_
          obtain rfl | hmem := List.mem_cons.mp hmem
          · exact hv rfl
          · exact hnot hmem
    obtain ⟨fr'', hslides, hdone⟩ := ih hnext
    have hrun (s : Store) : Machine.runOp p { fr' with rest } c.op s =
        .ok (.next (Frame.given { fr' with rest } [c.value] [.ofLiteral c.key.2])) s :=
      runOp_constant { fr' with rest } (ha.func'.symm ▸ h.plainConstants hplain) hdefines s
    exact ⟨fr'', .step (ha.rest.trans (by rw [hrest]; rfl)) hrun hslides, hdone⟩

/-- An op that has not been gone through does the same in both runs. -/
theorem repeats (ha : Abreast kept gone σ f f' [] fr fr') (hd : f.op? x = some d)
    (hx : x ∉ opsOf kept ++ opsOf gone) : Frame.Repeats False (Entered kept gone σ f f') fr d fr'
      { d with operands := d.operands.map σ } where
  kind := rfl
  name := False.elim
  operands := by
    refine List.forall₂_map_right_iff.mpr (List.forall₂_same.mpr fun v _ => ⟨?_, ?_⟩)
    · unfold Frame.get
      cases hv : fr.values.get? v with
      | none => exact .stop False.elim
      | some x => rw [ha.agree v x hv]; exact .ok rfl
    unfold Frame.typeOf
    rw [ha.func, ha.func', h.outline.value?]
    by_cases hgone : ∃ c ∈ gone, v = c.value
    · obtain ⟨c, hc, rfl⟩ := hgone
      obtain ⟨k, hk, hkey, hval⟩ := h.same c hc
      obtain ⟨-, -, -, -, -, info, hinfo, hty⟩ := h.defines c (by simp [hc])
      obtain ⟨-, -, -, -, -, info', hinfo', hty'⟩ := h.defines k (by simp [hk])
      rw [hval, hinfo, hinfo']
      exact .ok (hty.trans ((congrArg Prod.fst hkey.symm).trans hty'.symm))
    · rw [h.other v fun c hc hv => hgone ⟨c, hc, hv⟩]
      exact .refl (fun _ => rfl) _
  results := rfl
  types v _ := by
    unfold Frame.typeOf
    rw [ha.func, ha.func', h.outline.value?]
    exact .refl (fun _ => rfl) _
  inFlight := ha.inFlight
  frames := .inr ⟨[], ha⟩
  landed := .inr ⟨[], ha.fly none⟩
  given xs := .inr ⟨[], h.abreast_given ha (fun v hv => h.foreign_result hf hd hx hv) xs⟩
  enter args _ := h.enter_abreast hf ha _ args
  unwind thrown _ := h.enter_abreast hf (ha.fly (some thrown)) _ []
  returned xs _ :=
    h.enter_abreast hf (h.abreast_given ha (fun v hv => h.foreign_result hf hd hx hv) xs) _ []

/-- An op that has been gone through only moves the first run. -/
theorem abreast_of_taken (ha : Abreast kept gone σ f f' [] fr fr') (hc : c ∈ kept ++ gone)
    {rest : List OpId} (hrest : fr.rest = c.op :: rest) :
    Abreast kept gone σ f f' [] (Frame.given { fr with rest } [c.value] [.ofLiteral c.key.2])
      fr' := by
  have hget (v : ValueId) : (fr.values.insertAll [(c.value, .ofLiteral c.key.2)]).get? v =
      if c.value = v then some (.ofLiteral c.key.2) else fr.values.get? v := Table.get?_insert ..
  refine ⟨⟨ha.func, ha.func', ha.inFlight, fun v x hx => ?_, fun c' hc' x hx => ?_⟩,
    fun x hx => ha.listed x (hrest ▸ List.mem_cons_of_mem _ hx), ?_, ha.todo_le, ha.defined⟩
  · replace hx := (hget v).symm.trans hx
    split at hx
    case isTrue hv =>
      obtain ⟨k, hk, hval, hkey⟩ := h.map_of_mem hf hc
      rw [← hv, hval, ha.defined k hk List.not_mem_nil, hkey]
      exact hx
    case isFalse => exact ha.agree v x hx
  · replace hx := (hget c'.value).symm.trans hx
    split at hx
    case isTrue hv => rw [← h.key_eq hf hc hc' hv, ← Option.some.inj hx]
    case isFalse => exact ha.constants c' hc' x hx
  · have hmem : c.op ∈ opsOf kept ++ opsOf gone := by
      rw [← opsOf_append]
      exact List.mem_map_of_mem hc
    have hfilter := ha.rest
    rwa [hrest, List.filter_cons_of_neg (by rw [decide_eq_true_iff, not_not]; exact hmem)]
      at hfilter

omit h hf in
/-- The same op of the same frame. -/
theorem repeats_self (fr : Frame) (d : Op) :
    Frame.Repeats False (Entered kept gone σ f f') fr d fr d where
  kind := rfl
  name _ := rfl
  operands := List.forall₂_same.mpr fun _ _ => ⟨.refl (fun _ => rfl) _, .refl (fun _ => rfl) _⟩
  results := rfl
  types _ _ := .refl (fun _ => rfl) _
  inFlight := rfl
  frames := .inl rfl
  landed := .inl rfl
  given _ := .inl rfl
  enter _ _ := .refl (fun _ => .inl rfl) _
  unwind _ _ := .refl (fun _ => .inl rfl) _
  returned _ _ := .refl (fun _ => .inl rfl) _

end Gathered

/-- A function after its constants have been gathered, or the same function. -/
def Retouched (f f' g g' : Func) : Prop := g' = g ∨ g = f ∧ g' = f'

/-- Runs of a program follow those of the program in which the constants of one function have not
been gathered. -/
theorem Gathered.simulates (h : Gathered f entry kept gone σ f') (hf : f.Owned)
    (hplain : f.PlainConstants) {blocks : List BlockId}
    (hentry : f.blocksIn f.body = entry :: blocks) {p' : Program}
    (hp : Machine.Counterparts (Retouched f f') p p') :
    Machine.Simulates (Entered kept gone σ f f') (Retouched f f') p p' where
  programs := hp
  start g g' args hg := by
    obtain rfl | ⟨rfl, rfl⟩ := hg
    · exact .refl (fun _ => .inl rfl) _
    · rw [Frame.start_eq hentry, Frame.start_eq (by rw [h.outline.body, h.blocksIn, hentry])]
      have hcommon : Common kept gone σ g g' { func := g, block := entry }
          { func := g', block := entry } :=
        ⟨rfl, rfl, rfl, fun _ _ hx => by simp at hx, fun _ _ _ hx => by simp at hx⟩
      exact h.enter_follows hf hcommon entry args fun hne => absurd rfl hne
  step := by
    intro fr fr' op rest hfr hrest
    obtain rfl | ⟨todo, ha⟩ := hfr
    · refine ⟨fr', .refl fr', .inr ⟨op, rest, hrest, ?_⟩⟩
      cases hd : fr'.func.op? op with
      | none =>
        have hd' : ({ fr' with rest } : Frame).func.op? op = none := hd
        rw [Machine.runOp_none hd', Machine.runOp_none hd']
        exact .throw _
      | some d => exact Machine.runOp_follows hp hd hd (repeats_self _ d)
    · obtain ⟨fr'', hslides, ha⟩ := h.slides hf hplain ha
      refine ⟨fr'', hslides, ?_⟩
      by_cases hop : op ∈ opsOf kept ++ opsOf gone
      · left
        rw [← opsOf_append] at hop
        obtain ⟨c, hc, rfl⟩ := List.mem_map.mp hop
        intro s flow s' hrun
        rw [runOp_constant _ (ha.func.symm ▸ hplain) (ha.func ▸ h.defines c hc)] at hrun
        cases hrun
        exact ⟨rfl, _, rfl, .inr ⟨[], h.abreast_of_taken hf ha hc hrest⟩⟩
      · right
        obtain ⟨b, hb⟩ := ha.listed op (hrest ▸ List.mem_cons_self)
        obtain ⟨bd, hbd, hlisted⟩ : ∃ bd, f.block? b = some bd ∧ op ∈ bd.ops := by
          unfold Func.opsIn at hb
          cases hbd : f.block? b with
          | none => simp [hbd] at hb
          | some bd => exact ⟨bd, rfl, by simpa [hbd] using hb⟩
        have hnot := hop
        rw [List.mem_append, not_or] at hnot
        obtain ⟨d, hd, hlive, -, hd'⟩ := h.op?_of_listed hf hbd hlisted hnot.1 hnot.2
        have hkeep : op :: rest.filter (· ∉ opsOf kept ++ opsOf gone) =
            (op :: rest).filter (· ∉ opsOf kept ++ opsOf gone) :=
          (List.filter_cons_of_pos (by rw [decide_eq_true_iff]; exact hop)).symm
        have hrest'' := ha.rest
        rw [hrest, ← hkeep] at hrest''
        have ha' : Abreast kept gone σ f f' [] { fr with rest }
            { fr'' with rest := rest.filter (· ∉ opsOf kept ++ opsOf gone) } :=
          ⟨⟨ha.func, ha.func', ha.inFlight, ha.agree, ha.constants⟩,
            fun x hx => ha.listed x (hrest ▸ List.mem_cons_of_mem _ hx), rfl, ha.todo_le,
            ha.defined⟩
        refine ⟨op, _, hrest'', Machine.runOp_follows hp (ha.func.symm ▸ hd) ?_
          (h.repeats hf ha' hd hop)⟩
        rw [show fr''.func.op? op = _ from ha.func'.symm ▸ hd', renamed, if_pos hlive]

end Tidy

end Unnest
