import Unnest.Proofs.Lowering.Counting
import Unnest.Proofs.Tidy.Again
/-!
# Pads in the finished function

When the rounds are over, the dispatches become branches, blocks of no use are pruned and constants
are gathered. None of it touches an op that raises or takes exceptions (`Func.loud`), comes between
a pad and the start of its block or changes where a pad leads (`Func.pads`). So what was counted in
the rounds describes the function that is left.
-/

namespace Unnest

instance (k : OpKind) : Decidable k.Calm := inferInstanceAs (Decidable (_ ∧ _))

namespace Func

/-- The kind of an op that raises or takes exceptions. -/
def loudAt (f : Func) (x : OpId) : Option OpKind :=
  (f.op? x).bind fun d => if d.kind.Calm then none else some d.kind

/-- The kinds of the ops of the body that raise or take exceptions. -/
def loud (f : Func) : List OpKind := f.bodyOps.filterMap f.loudAt

/-- A block of the body that starts with a landing pad. -/
def IsPad (f : Func) (b : BlockId) : Prop :=
  b ∈ f.blocksIn f.body ∧ ∃ x ∈ (f.opsIn b).head?, f.kindIs OpKind.isLandingPad x = true

/-- A block of the body, but not its entry, that starts with a landing pad. -/
def Lands (f : Func) (b : BlockId) : Prop := f.IsPad b ∧ (f.blocksIn f.body).head? ≠ some b

/-- A block that starts with a landing pad, with the blocks that it leads to. -/
def padAt (f : Func) (b : BlockId) : Option (BlockId × List BlockId) :=
  if (f.opsIn b).head?.any (f.kindIs OpKind.isLandingPad) then some (b, f.leadsTo b) else none

/-- The blocks of the body that start with a landing pad, with the blocks that they lead to. -/
def pads (f : Func) : List (BlockId × List BlockId) := (f.blocksIn f.body).filterMap f.padAt

/-- A landing pad stands at the start of a block, but not of the entry, and what it starts leads
somewhere. -/
structure PadsPlaced (f : Func) : Prop where
  behind : ∀ b ∈ f.blocksIn f.body, ∀ x ∈ (f.opsIn b).tail, f.kindIs OpKind.isLandingPad x = false
  entry : ∀ b ∈ (f.blocksIn f.body).head?, f.padAt b = none
  leads : ∀ p ∈ f.pads, p.2 ≠ []

variable {f f' : Func}

theorem padAt_eq_some {b : BlockId} {p : BlockId × List BlockId} : f.padAt b = some p ↔
    (∃ x ∈ (f.opsIn b).head?, f.kindIs OpKind.isLandingPad x = true) ∧ p = (b, f.leadsTo b) := by
  unfold padAt
  cases (f.opsIn b).head? with
  | none => simp
  | some x => cases hx : f.kindIs OpKind.isLandingPad x <;> simp [hx, eq_comm (a := p)]

theorem mem_pads {p : BlockId × List BlockId} :
    p ∈ f.pads ↔ f.IsPad p.1 ∧ p.2 = f.leadsTo p.1 := by
  obtain ⟨b, l⟩ := p
  simp only [pads, List.mem_filterMap, padAt_eq_some, IsPad, Prod.mk.injEq]
  constructor
  · rintro ⟨_, hb, hx, rfl, hl⟩
    exact ⟨⟨hb, hx⟩, hl⟩
  · rintro ⟨⟨hb, hx⟩, hl⟩
    exact ⟨b, hb, hx, rfl, hl⟩

/-- Pads are counted by where they lead. -/
theorem ncard_isPad (hf : (f.blocksIn f.body).Nodup) (p : List BlockId → Prop) [DecidablePred p] :
    {b | f.IsPad b ∧ p (f.leadsTo b)}.ncard = f.pads.countP fun q => p q.2 := by
  have hset : {b | f.IsPad b ∧ p (f.leadsTo b)} =
      (((f.pads.filter fun q => p q.2).map (·.1)).toFinset : Set BlockId) := by
    ext b
    simp only [Set.mem_ofPred_eq, List.coe_toFinset, List.mem_map, List.mem_filter, mem_pads,
      decide_eq_true_eq]
    constructor
    · rintro ⟨hb, hp⟩
      exact ⟨(b, f.leadsTo b), ⟨⟨hb, rfl⟩, hp⟩, rfl⟩
    · rintro ⟨q, ⟨⟨hb, hq⟩, hp⟩, rfl⟩
      exact ⟨hb, hq ▸ hp⟩
  have hnodup : f.pads.Nodup := hf.filterMap fun b b' q hb hb' => by
    rw [Option.mem_def, padAt_eq_some] at hb hb'
    exact (Prod.mk.inj (hb.2.symm.trans hb'.2)).1
  have honce : ((f.pads.filter fun q => p q.2).map (·.1)).Nodup := by
    refine (hnodup.filter _).map_on fun q hq r hr hqr => Prod.ext hqr ?_
    rw [(mem_pads.mp (List.mem_of_mem_filter hq)).2,
      (mem_pads.mp (List.mem_of_mem_filter hr)).2, hqr]
  rw [hset, Set.ncard_coe_finset, List.toFinset_card_of_nodup honce, List.length_map,
    List.countP_eq_length_filter]

theorem PadsPlaced.lands (h : f.PadsPlaced) {b : BlockId} (hb : f.IsPad b) : f.Lands b := by
  refine ⟨hb, fun hentry => ?_⟩
  have hpad : f.padAt b = some (b, f.leadsTo b) := padAt_eq_some.mpr ⟨hb.2, rfl⟩
  simp [h.entry b hentry] at hpad

theorem loudAt_of_op? {x : OpId} {d : Op} (h : f.op? x = some d) (hd : d.kind.Calm) :
    f.loudAt x = none := by
  simp [loudAt, h, hd]

theorem countP_loud {p : OpKind → Bool} (hp : ∀ k : OpKind, k.Calm → p k = false) :
    f.bodyOps.countP (f.kindIs p) = f.loud.countP p := by
  rw [loud, List.countP_filterMap]
  refine List.countP_congr fun x _ => ?_
  unfold kindIs loudAt
  cases f.op? x with
  | none => simp
  | some d => by_cases hd : d.kind.Calm <;> simp [hd, hp]

theorem mem_loud {x : OpId} {d : Op} {u : BlockId} (hx : x ∈ f.bodyOps) (hd : f.op? x = some d)
    (hu : d.kind.unwind? = some u) : d.kind ∈ f.loud := by
  have hloud : ¬d.kind.Calm := fun hcalm => by simp [hcalm.2] at hu
  exact List.mem_filterMap.mpr ⟨x, hx, by simp [loudAt, hd, hloud]⟩

end Func

/-! ## Tidying -/

namespace Tidy

variable {f f' : Func}

theorem calm_of_isStub {k : OpKind} (h : k.isStub = true) : k.Calm := by
  cases k with
  | construct c => exact OpKind.calm_construct c
  | instr i => cases h
  | transfer t => cases t <;> simp_all [OpKind.isStub]

namespace Pruned

variable {gone : List BlockId} (h : Pruned f gone f')

include h

theorem loudAt (x : OpId) : f'.loudAt x = f.loudAt x := by
  unfold Func.loudAt
  rw [h.op?]
  cases f.op? x with
  | none => rfl
  | some d => by_cases hx : x ∈ gone.flatMap f.opsIn <;> simp [hx, Op.dead]

/-- What is pruned has nothing to do with exceptions. -/
theorem calm_of_gone {b : BlockId} (hb : b ∈ gone) {x : OpId} (hx : x ∈ f.opsIn b) {d : Op}
    (hd : f.op? x = some d) : d.kind.Calm := by
  have ht := h.trivial b hb
  unfold Func.trivialAt at ht
  split at ht
  · rename_i hops
    simp [hops] at hx
  · rename_i y hops
    cases (by simpa [hops] using hx : x = y)
    exact calm_of_isStub (by simpa [Func.kindIs, hd] using ht)
  · cases ht

theorem loud_eq : f'.loud = f.loud := by
  have hgone : ∀ b ∈ gone, (f.opsIn b).filterMap f.loudAt = [] := fun b hb =>
    List.filterMap_eq_nil_iff.mpr fun x hx => by
      cases hd : f.op? x with
      | none => simp [Func.loudAt, hd]
      | some d => exact Func.loudAt_of_op? hd (h.calm_of_gone hb hx hd)
  have hfilter : ∀ blocks : List BlockId,
      ((blocks.filter (· ∉ gone)).flatMap f'.opsIn).filterMap f.loudAt =
        (blocks.flatMap f.opsIn).filterMap f.loudAt := by
    intro blocks
    induction blocks with
    | nil => rfl
    | cons b blocks ih =>
      rw [List.flatMap_cons, List.filterMap_append, ← ih]
      by_cases hb : b ∈ gone
      · rw [List.filter_cons_of_neg (by simpa using hb), hgone b hb, List.nil_append]
      · rw [List.filter_cons_of_pos (by simpa using hb), List.flatMap_cons, List.filterMap_append,
          h.opsIn hb]
  rw [Func.loud, Func.bodyOps, h.blocksIn_body, funext h.loudAt]
  exact hfilter _

theorem padAt_of_gone {b : BlockId} (hb : b ∈ gone) : f.padAt b = none := by
  refine Option.eq_none_iff_forall_ne_some.mpr fun p hp => ?_
  obtain ⟨⟨x, hx, hpad⟩, -⟩ := Func.padAt_eq_some.mp hp
  cases hd : f.op? x with
  | none => simp [Func.kindIs, hd] at hpad
  | some d =>
    have hcalm := h.calm_of_gone hb (List.mem_of_mem_head? hx) hd
    simp [Func.kindIs, hd, hcalm.1] at hpad

theorem padAt_eq (hf : f.Owned) {b : BlockId} (hb : b ∉ gone) : f'.padAt b = f.padAt b := by
  unfold Func.padAt
  rw [h.opsIn hb, h.leadsTo hf hb]
  cases hx : (f.opsIn b).head? with
  | none => rfl
  | some x =>
    have hkind : f'.kindIs OpKind.isLandingPad x = f.kindIs OpKind.isLandingPad x := by
      rw [Func.kindIs, Func.kindIs, h.op?_of_mem hf hb (List.mem_of_mem_head? hx)]
    rw [Option.any_some, Option.any_some, hkind]

theorem pads_eq (hf : f.Owned) : f'.pads = f.pads := by
  rw [Func.pads, Func.pads, h.blocksIn_body, List.filterMap_filter]
  refine List.filterMap_congr fun b _ => ?_
  by_cases hb : b ∈ gone
  · simp [hb, h.padAt_of_gone hb]
  · simpa [hb] using h.padAt_eq hf hb

theorem padsPlaced (hf : f.Owned) (hp : f.PadsPlaced) : f'.PadsPlaced where
  behind b hb x hx := by
    obtain ⟨hb, hkept⟩ := h.mem_blocksIn.mp hb
    rw [h.opsIn hkept] at hx
    rw [Func.kindIs, h.op?_of_mem hf hkept (List.mem_of_mem_tail hx)]
    exact hp.behind b hb x hx
  entry b hb := by
    rw [h.head?_blocksIn] at hb
    rw [h.padAt_eq hf (h.entry b hb)]
    exact hp.entry b hb
  leads := h.pads_eq hf ▸ hp.leads

end Pruned

namespace Gathered

variable {home : BlockId} {kept gone : List Const} {σ : ValueId → ValueId}
  (h : Gathered f home kept gone σ f')

include h

theorem kind_eq (x : OpId) : (f'.op? x).map (·.kind) = (f.op? x).map (·.kind) := by
  by_cases hx : x ∈ opsOf gone
  · obtain ⟨d, operands, hd, hd'⟩ := h.erased x hx
    rw [hd, hd']
    rfl
  · rw [h.op? x hx]
    cases f.op? x with
    | none => rfl
    | some d => simp

theorem loudAt (x : OpId) : f'.loudAt x = f.loudAt x := by
  have hloud (g : Func) : g.loudAt x =
      ((g.op? x).map (·.kind)).bind fun k => if k.Calm then none else some k := by
    cases hx : g.op? x <;> simp [Func.loudAt, hx]
  rw [hloud, hloud, h.kind_eq]

theorem loudAt_constant {x : OpId} (hx : x ∈ opsOf kept ++ opsOf gone) : f.loudAt x = none := by
  rw [← opsOf_append] at hx
  obtain ⟨c, hc, rfl⟩ := List.mem_map.mp hx
  obtain ⟨d, hd, hkind, -⟩ := h.defines c hc
  exact Func.loudAt_of_op? hd (by rw [hkind]; simp)

theorem loud_eq (hf : f.Owned) : f'.loud = f.loud := by
  have hblock : ∀ b ∈ f.blocksIn f.body,
      (f'.opsIn b).filterMap f.loudAt = (f.opsIn b).filterMap f.loudAt := by
    intro b hb
    obtain ⟨bd, hbd⟩ := hf.exists_block hb
    rw [h.opsIn hbd, List.filterMap_append, List.filterMap_filter]
    have hkept : (if b = home then opsOf kept else []).filterMap f.loudAt = [] := by
      split
      · exact List.filterMap_eq_nil_iff.mpr fun x hx => h.loudAt_constant (by simp [hx])
      · rfl
    rw [hkept, List.nil_append]
    refine List.filterMap_congr fun x _ => ?_
    by_cases hx : x ∈ opsOf kept ++ opsOf gone
    · simp [hx, h.loudAt_constant hx]
    · simp [hx]
  rw [Func.loud, Func.loud, Func.bodyOps, Func.bodyOps, h.outline.body, h.blocksIn, funext h.loudAt,
    List.filterMap_flatMap, List.filterMap_flatMap]
  exact List.flatMap_congr hblock

theorem kindIs_eq (p : OpKind → Bool) (x : OpId) : f'.kindIs p x = f.kindIs p x := by
  have hkind (g : Func) : g.kindIs p x = (((g.op? x).map (·.kind)).map p).getD false := by
    rw [Func.kindIs, Option.map_map]
    rfl
  rw [hkind, hkind, h.kind_eq]

theorem kindIs_constant {p : OpKind → Bool} (hp : ∀ l, p (.instr (.constant l)) = false) {x : OpId}
    (hx : x ∈ opsOf kept ++ opsOf gone) : f.kindIs p x = false := by
  rw [← opsOf_append] at hx
  obtain ⟨c, hc, rfl⟩ := List.mem_map.mp hx
  obtain ⟨d, hd, hkind, -⟩ := h.defines c hc
  simp [Func.kindIs, hd, hkind, hp]

/-- A pad is a pad still, without the constants in it; a block that is not a pad has no landing pad
in it. -/
theorem pad_cases (hf : f.Owned) (hp : f.PadsPlaced)
    (hhome : (f.blocksIn f.body).head? = some home) {b : BlockId} (hb : b ∈ f.blocksIn f.body) :
    f.padAt b = none ∧ (∀ x ∈ f'.opsIn b, f.kindIs OpKind.isLandingPad x = false) ∨
      ∃ x ops, f.opsIn b = x :: ops ∧ f.kindIs OpKind.isLandingPad x = true ∧
        f.padAt b = some (b, f.leadsTo b) ∧ x ∉ opsOf kept ++ opsOf gone ∧
        f'.opsIn b = (x :: ops).filter (· ∉ opsOf kept ++ opsOf gone) := by
  obtain ⟨bd, hbd⟩ := hf.exists_block hb
  have hconst {x : OpId} (hx : x ∈ opsOf kept ++ opsOf gone) :
      f.kindIs OpKind.isLandingPad x = false := h.kindIs_constant (fun _ => rfl) hx
  cases hpad : f.padAt b with
  | none =>
    refine .inl ⟨rfl, fun x hx => ?_⟩
    rw [h.opsIn hbd, List.mem_append] at hx
    obtain hx | hx := hx
    · split at hx
      · exact hconst (List.mem_append_left _ hx)
      · simp at hx
    · by_contra hx'
      obtain ⟨y, ops, hops⟩ := List.exists_cons_of_ne_nil
        (List.ne_nil_of_mem (List.mem_of_mem_filter hx))
      obtain rfl | hmem := List.mem_cons.mp (hops ▸ List.mem_of_mem_filter hx)
      · have := Func.padAt_eq_some.mpr
          ⟨⟨x, by simp [hops], by simpa using hx'⟩, (rfl : (b, f.leadsTo b) = _)⟩
        simp [hpad] at this
      · exact hx' (hp.behind b hb x (by simp [hops, hmem]))
  | some p =>
    obtain ⟨⟨x, hx, hkind⟩, rfl⟩ := Func.padAt_eq_some.mp hpad
    obtain ⟨ops, hops⟩ := List.head?_eq_some_iff.mp hx
    have hne : b ≠ home := by
      rintro rfl
      simp [hp.entry b hhome] at hpad
    have hx : x ∉ opsOf kept ++ opsOf gone := fun hx => by simp [hconst hx] at hkind
    exact .inr ⟨x, ops, hops, hkind, rfl, hx, by
      rw [h.opsIn hbd, if_neg hne, hops, List.nil_append]⟩

theorem padAt_eq (hf : f.Owned) (hp : f.PadsPlaced) (hhome : (f.blocksIn f.body).head? = some home)
    {b : BlockId} (hb : b ∈ f.blocksIn f.body) : f'.padAt b = f.padAt b := by
  obtain ⟨hnone, hno⟩ | ⟨x, ops, hops, hkind, hpad, hx, hops'⟩ := h.pad_cases hf hp hhome hb
  · rw [hnone]
    refine Option.eq_none_iff_forall_ne_some.mpr fun p hp => ?_
    obtain ⟨⟨x, hx, hpad⟩, -⟩ := Func.padAt_eq_some.mp hp
    simp [h.kindIs_eq, hno x (List.mem_of_mem_head? hx)] at hpad
  · have hleads : f'.leadsTo b = f.leadsTo b := by
      have hkinds (g : Func) : g.leadsTo b =
          (((g.opsIn b).getLast?.bind fun x => (g.op? x).map (·.kind)).map
            (·.successors)).getD [] := by
        unfold Func.leadsTo
        cases (g.opsIn b).getLast? with
        | none => rfl
        | some x => cases hx : g.op? x <;> simp [hx]
      have hne : f.leadsTo b ≠ [] := hp.leads (b, f.leadsTo b)
        (List.mem_filterMap.mpr ⟨b, hb, hpad⟩)
      obtain ⟨init, y, hlast⟩ := (List.eq_nil_or_concat (x :: ops)).resolve_left (by simp)
      rw [List.concat_eq_append] at hlast
      -- the last op names blocks, so it is not a constant
      have hy : y ∉ opsOf kept ++ opsOf gone := fun hy => by
        have := h.kindIs_constant (p := fun k => k.successors ≠ []) (fun _ => rfl) hy
        rw [hkinds, hops, hlast, List.getLast?_concat] at hne
        cases hd : f.op? y with
        | none => simp [hd] at hne
        | some d => simp_all [Func.kindIs]
      have hfilter : f'.opsIn b = init.filter (· ∉ opsOf kept ++ opsOf gone) ++ [y] := by
        rw [hops', hlast, List.filter_append, List.filter_cons_of_pos (by simpa using hy),
          List.filter_nil]
      rw [hkinds, hkinds, hfilter, hops, hlast, List.getLast?_concat, List.getLast?_concat,
        Option.bind_some, Option.bind_some, h.kind_eq]
    rw [hpad, Func.padAt_eq_some, hleads]
    have hfirst : x ∈ (f'.opsIn b).head? := by
      rw [hops', List.filter_cons_of_pos (by simpa using hx)]
      rfl
    exact ⟨⟨x, hfirst, by rwa [h.kindIs_eq]⟩, rfl⟩

theorem pads_eq (hf : f.Owned) (hp : f.PadsPlaced)
    (hhome : (f.blocksIn f.body).head? = some home) : f'.pads = f.pads := by
  rw [Func.pads, Func.pads, h.outline.body, h.blocksIn]
  exact List.filterMap_congr fun b hb => h.padAt_eq hf hp hhome hb

theorem padsPlaced (hf : f.Owned) (hp : f.PadsPlaced)
    (hhome : (f.blocksIn f.body).head? = some home) : f'.PadsPlaced where
  behind b hb x hx := by
    rw [h.outline.body, h.blocksIn] at hb
    rw [h.kindIs_eq]
    obtain ⟨-, hno⟩ | ⟨y, ops, hops, -, -, hy, hops'⟩ := h.pad_cases hf hp hhome hb
    · exact hno x (List.mem_of_mem_tail hx)
    · rw [hops', List.filter_cons_of_pos (by simpa using hy), List.tail_cons] at hx
      exact hp.behind b hb x (by simpa [hops] using List.mem_of_mem_filter hx)
  entry b hb := by
    rw [h.outline.body, h.blocksIn] at hb
    rw [h.padAt_eq hf hp hhome (List.mem_of_mem_head? hb)]
    exact hp.entry b hb
  leads := h.pads_eq hf hp hhome ▸ hp.leads

end Gathered

/-- The function is flat, and so much is known about its exceptions. -/
structure Landed (kinds : List OpKind) (pads : List (BlockId × List BlockId)) (f : Func) :
    Prop where
  sound : f.Sound
  listed : f.Listed
  flat : f.FlatBody
  loud : f.loud = kinds
  pads : f.pads = pads
  placed : f.PadsPlaced

variable {kinds : List OpKind} {pads : List (BlockId × List BlockId)} {n : Nat}

theorem Landed.prune (h : Landed kinds pads f) (hrun : Tidy.prune f = .ok n f') :
    Landed kinds pads f' := by
  obtain ⟨gone, f₁, hrun₁, hp, -⟩ := prune_pruned h.sound.owned h.listed.body h.flat.bareStubs
  cases hrun.symm.trans hrun₁
  exact ⟨(prune_keeps h.sound).ok hrun, hp.isListed h.sound.owned h.listed.body,
    hp.flatBody h.sound.owned h.flat, hp.loud_eq.trans h.loud,
    (hp.pads_eq h.sound.owned).trans h.pads, hp.padsPlaced h.sound.owned h.placed⟩

theorem Landed.gatherConstants (h : Landed kinds pads f) (hrun : gatherConstants f = .ok n f') :
    Landed kinds pads f' := by
  obtain ⟨-, hflat, hlisted, -⟩ := gatherConstants_tidied h.sound.owned h.listed.body h.flat hrun
  have hsound : f'.Sound := (gatherConstants_keeps h.sound).ok hrun
  cases hblocks : f.blocksIn f.body with
  | nil =>
    cases hrun.symm.trans (gatherConstants_of_empty h.listed.body hblocks)
    exact h
  | cons entry blocks =>
    obtain ⟨x, -, -, -, e, f₁, hstuck⟩ | ⟨ks, gs, ks', gs', n', σ, f₁, hrun', hg, -⟩ :=
      gatherConstants_cases h.sound.owned (fun x hx d hd _ => h.flat x hx d hd) hblocks
    · cases hrun.symm.trans hstuck
    cases hrun.symm.trans hrun'
    have hhome : (f.blocksIn f.body).head? = some entry := by rw [hblocks]; rfl
    exact ⟨hsound, hlisted, hflat, (hg.loud_eq h.sound.owned).trans h.loud,
      (hg.pads_eq h.sound.owned h.placed hhome).trans h.pads,
      hg.padsPlaced h.sound.owned h.placed hhome⟩

end Tidy

/-- Finishing a function does not change what is known about its exceptions. -/
theorem Lower.finish_landed {o : LowerOptions} {stats₀ stats : LowerStats} {f f' : Func}
    {kinds : List OpKind} {pads : List (BlockId × List BlockId)} (h : Tidy.Landed kinds pads f)
    (hrun : finish o stats₀ f = .ok stats f') : Tidy.Landed kinds pads f' ∧
      stats.invokes = stats₀.invokes ∧ stats.landingPads = stats₀.landingPads ∧
        stats.cleanupClones = stats₀.cleanupClones := by
  unfold finish at hrun
  cases hc : o.cleanup with
  | false =>
    rw [hc, if_neg (by simp)] at hrun
    obtain ⟨_, f₁, hpure, hrun⟩ := bind_eq_ok hrun
    cases hpure
    obtain ⟨rfl, rfl⟩ := eq_of_checked hrun
    exact ⟨h, rfl, rfl, rfl⟩
  | true =>
    rw [if_pos hc] at hrun
    obtain ⟨k, f₁, hprune, hrun⟩ := bind_eq_ok hrun
    have h₁ := h.prune hprune
    dsimp only at hrun
    split at hrun
    · obtain ⟨n, f₂, hgather, hrun⟩ := bind_eq_ok hrun
      obtain ⟨_, f₃, hstats, hrun⟩ := bind_eq_ok hrun
      cases hstats
      obtain ⟨rfl, rfl⟩ := eq_of_checked hrun
      exact ⟨h₁.gatherConstants hgather, rfl, rfl, rfl⟩
    · obtain ⟨n, f₂, hgather, hrun⟩ := bind_eq_ok hrun
      cases hgather
      obtain ⟨_, f₃, hstats, hrun⟩ := bind_eq_ok hrun
      cases hstats
      obtain ⟨rfl, rfl⟩ := eq_of_checked hrun
      exact ⟨h₁, rfl, rfl, rfl⟩

/-! ## The flat body -/

/-- The kinds of the ops that raise or take exceptions. -/
def loudKinds (ops : List OpTree) : List OpKind := (ops.map (·.kind)).filter (¬·.Calm)

theorem countP_loudKinds {p : OpKind → Bool} (hp : ∀ k : OpKind, k.Calm → p k = false)
    (ops : List OpTree) : (loudKinds ops).countP p = ops.countP (p ·.kind) := by
  rw [loudKinds, List.countP_filter, List.countP_map]
  refine List.countP_congr fun n _ => ?_
  by_cases hn : n.kind.Calm <;> simp [hn, hp]

section

variable {f : Func} {T T' : List BlockTree}

theorem Func.Holds.opsIn (hf : f.Holds T 0) {C : BlockTree} (hC : C ∈ T) :
    f.opsIn C.id = C.ops.map (·.id) := by
  rw [Func.opsIn, hf.block? hC]
  rfl

theorem Func.Holds.loud (hf : f.Holds T 0) : f.loud = loudKinds (T.flatMap (·.ops)) := by
  have hops : f.bodyOps = (T.flatMap (·.ops)).map (·.id) := by
    rw [Func.bodyOps, hf.blocksIn_body, List.flatMap_map, List.map_flatMap]
    exact List.flatMap_congr fun C hC => hf.opsIn hC
  rw [Func.loud, hops, List.filterMap_map, loudKinds, ← List.filterMap_eq_filter,
    List.filterMap_map]
  refine List.filterMap_congr fun n hn => ?_
  obtain ⟨C, hC, hn⟩ := List.mem_flatMap.mp hn
  obtain ⟨d, hd, hk, -⟩ := hf.op? (path_nil.mpr ⟨C, hC, hn⟩)
  by_cases hcalm : n.kind.Calm <;> simp [Func.loudAt, hd, hk, hcalm, Option.guard]

theorem Func.Holds.padAt (hf : f.Holds T 0) {C : BlockTree} (hC : C ∈ T) :
    f.padAt C.id =
      if C.ops.head?.any (·.kind.isLandingPad) then some (C.id, C.leadsTo) else none := by
  have hkind {n : OpTree} (hn : n ∈ C.ops) : ∃ d, f.op? n.id = some d ∧ d.kind = n.kind := by
    obtain ⟨d, hd, hk, -⟩ := hf.op? (path_nil.mpr ⟨C, hC, hn⟩)
    exact ⟨d, hd, hk⟩
  have hfirst : (f.opsIn C.id).head?.any (f.kindIs OpKind.isLandingPad) =
      C.ops.head?.any (·.kind.isLandingPad) := by
    rw [hf.opsIn hC, List.head?_map]
    cases hn : C.ops.head? with
    | none => rfl
    | some n =>
      obtain ⟨d, hd, hk⟩ := hkind (List.mem_of_mem_head? hn)
      simp [Func.kindIs, hd, hk]
  have hleads : f.leadsTo C.id = C.leadsTo := by
    unfold Func.leadsTo BlockOf.leadsTo
    rw [hf.opsIn hC, List.getLast?_map]
    cases hn : C.ops.getLast? with
    | none => rfl
    | some n =>
      obtain ⟨d, hd, hk⟩ := hkind (List.mem_of_mem_getLast? hn)
      simp [hd, hk]
  rw [Func.padAt, hfirst, hleads]

theorem Func.Holds.pads (hf : f.Holds T 0) : f.pads = padsIn T := by
  rw [Func.pads, hf.blocksIn_body, List.filterMap_map]
  exact List.filterMap_congr fun C hC => hf.padAt hC

theorem Func.Holds.padsPlaced (hf : f.Holds T 0) (hT : WellPadded T)
    (hl : ∀ p ∈ padsIn T, p.2 ≠ []) : f.PadsPlaced where
  behind b hb x hx := by
    rw [hf.blocksIn_body] at hb
    obtain ⟨C, hC, rfl⟩ := List.mem_map.mp hb
    rw [hf.opsIn hC, ← List.map_tail] at hx
    obtain ⟨n, hn, rfl⟩ := List.mem_map.mp hx
    obtain ⟨d, hd, hk, -⟩ := hf.op? (path_nil.mpr ⟨C, hC, List.mem_of_mem_tail hn⟩)
    simpa [Func.kindIs, hd, hk] using (hT.1 C hC).1 n hn
  entry b hb := by
    rw [hf.blocksIn_body, List.head?_map] at hb
    obtain ⟨C, hC, rfl⟩ := Option.mem_map.mp hb
    rw [hf.padAt (List.mem_of_mem_head? hC)]
    exact if_neg (mt BlockOf.isPad_iff.mpr (hT.2 C hC))
  leads := hf.pads ▸ hl

/-- Dispatches have nothing to do with exceptions, before and after. -/
theorem Finished.calm {B : Bindings} {n m : OpTree} (h : Finished B [] n m) :
    m.kind = n.kind ∨ n.kind.Calm ∧ m.kind.Calm := by
  cases h with
  | kept => exact .inl rfl
  | changed hd =>
    obtain ⟨start, hk⟩ := OpKind.isDispatch_iff.mp hd.isDispatch.1
    refine .inr ⟨by rw [OpTree.kind, hk]; exact OpKind.calm_construct _, ?_⟩
    cases hd <;> simp [OpTree.kind]

theorem FinishedBlocks.loudKinds {B : Bindings} (h : FinishedBlocks B [] T T') :
    loudKinds (T'.flatMap (·.ops)) = loudKinds (T.flatMap (·.ops)) := by
  have hops {ops ops' : List OpTree} (h : List.Forall₂ (Finished B []) ops ops') :
      Unnest.loudKinds ops' = Unnest.loudKinds ops := by
    induction h with
    | nil => rfl
    | cons h _ ih =>
      simp only [Unnest.loudKinds, List.map_cons] at ih ⊢
      obtain hk | ⟨hn, hm⟩ := h.calm
      · rw [hk, List.filter_cons, List.filter_cons, ih]
      · rw [List.filter_cons_of_neg (by simpa using hm),
          List.filter_cons_of_neg (by simpa using hn),
          ih]
  induction h with
  | nil => rfl
  | cons hC _ ih =>
    simp only [Unnest.loudKinds, List.flatMap_cons, List.map_append, List.filter_append] at ih ⊢
    rw [ih]
    exact congrArg (· ++ _) (hops hC.2.2)

/-- There are no dispatches in a pad, and no pads in a block that is not one. -/
theorem FinishedBlocks.pads {B : Bindings} (h : FinishedBlocks B [] T T') (hT : WellPadded T) :
    WellPadded T' ∧ padsIn T' = padsIn T := by
  have hblock {C D : BlockTree} (hC : C.Formed) (hid : D.id = C.id) (ha : D.args = C.args)
      (hops : List.Forall₂ (Finished B []) C.ops D.ops) :
      D = C ∨ Padless C.ops ∧ Padless D.ops := by
    by_cases hpad : C.IsPad
    · have hsame {ops ops' : List OpTree} (h : List.Forall₂ (Finished B []) ops ops')
          (hflat : ∀ n ∈ ops, n.kind.isStructured = false) : ops' = ops := by
        induction h with
        | nil => rfl
        | cons hn _ ih =>
          obtain ⟨hflat, hrest⟩ := List.forall_mem_cons.mp hflat
          rw [ih hrest]
          cases hn with
          | kept => rfl
          | changed hd =>
            obtain ⟨start, hk⟩ := OpKind.isDispatch_iff.mp hd.isDispatch.1
            simp [OpTree.kind, hk, OpKind.isStructured] at hflat
      obtain ⟨id, args, ops⟩ := C
      obtain ⟨id', args', ops'⟩ := D
      exact .inl (BlockOf.mk.injEq .. ▸ ⟨hid, ha, hsame hops (hC.2 hpad)⟩)
    · refine .inr ⟨hC.padless hpad, fun m hm => ?_⟩
      obtain ⟨n, hn, hnm⟩ := forall₂_mem_right hops hm
      obtain hk | ⟨-, hcalm⟩ := hnm.calm
      · rw [hk]
        exact hC.padless hpad n hn
      · exact hcalm.1
  have hall : (∀ D ∈ T', D.Formed) ∧ padsIn T' = padsIn T := by
    have hformed := hT.1
    clear hT
    induction h with
    | nil => simp
    | @cons C D T T' hCD _ ih =>
      obtain ⟨hC, hformed⟩ := List.forall_mem_cons.mp hformed
      obtain ⟨hD, hpads⟩ := ih hformed
      obtain rfl | ⟨hn, hn'⟩ := hblock hC hCD.1 hCD.2.1 hCD.2.2
      · refine ⟨List.forall_mem_cons.mpr ⟨hC, hD⟩, ?_⟩
        rw [← List.singleton_append, padsIn_append, hpads, ← padsIn_append, List.singleton_append]
      · refine ⟨List.forall_mem_cons.mpr ⟨.of_padless hn', hD⟩, ?_⟩
        rw [padsIn_cons_of_padless hn', padsIn_cons_of_padless hn, hpads]
  refine ⟨⟨hall.1, ?_⟩, hall.2⟩
  cases h with
  | nil => simp
  | @cons C D T T' hCD _ =>
    rintro _ ⟨⟩
    obtain rfl | ⟨-, hn⟩ := hblock (hT.1 C (by simp)) hCD.1 hCD.2.1 hCD.2.2
    · exact hT.2 D rfl
    · exact BlockOf.not_isPad hn

end

/-! ## Whole lowerings -/

theorem counted_start {f : Func} {T : List BlockTree} (h : Everywhere (·.kind.Calm) T) :
    Counted [] (.start f) T := by
  have hcalm {C : BlockTree} (hC : C ∈ T) : Padless C.ops := AllCalm.padless (h.eachOp hC)
  have hnone : padsIn T = [] := padsIn_of_padless fun C hC => hcalm hC
  refine ⟨.of_allCalm fun n hn m hm => ?_, fun _ _ hu => ?_, fun _ _ hp => ?_,
    ⟨fun C hC => .of_padless (hcalm hC),
      fun C hC => BlockOf.not_isPad (hcalm (List.mem_of_mem_head? hC))⟩, ?_, ?_, ?_⟩
  · obtain ⟨B, hB, hn⟩ := List.mem_flatMap.mp hn
    exact h.eachOp hB n hn m hm
  · cases hu
  · cases hp
  · simp [hnone]
  · rintro e ⟨t, ht, -⟩
    simp at ht
  · simp [hnone, LowerState.start]

theorem Counted.of_raising {turns : List (Func × OpId)} {s s' : LowerState} {T : List BlockTree}
    (h : Counted turns s T) (hr : s'.raising = s.raising) : Counted turns s' T := by
  simp only [LowerState.raising, Prod.mk.injEq] at hr
  obtain ⟨hu, hp, hi, hl, hc⟩ := hr
  exact ⟨hi ▸ hl ▸ h.raises, hu ▸ h.unwinds, hp ▸ h.tries, h.wellPadded, h.leads, h.entries,
    hc ▸ h.clones⟩

theorem Counted.putOff {turns : List (Func × OpId)} {s : LowerState} {T : List BlockTree}
    (h : Counted turns s T) (ds : List OpId) : Counted turns (s.putOff ds) T := by
  obtain ⟨pending, hp, -⟩ := Bindings.foldl_defer ds s.bindings
  refine h.of_raising ?_
  rw [LowerState.raising, LowerState.putOff, hp]
  rfl

/-- What was counted about exceptions describes the function that is left: so many invokes and
landing pads are in its body, so many of its pads lead into a clone that was made of a finally, and
an exception that does not leave the function goes to a block that starts with a landing pad. -/
theorem lowerFunc_counts {name : String} {sig : Signature} {body : List Source.Stmt} {b : Builder}
    {types : TypeTable} {o : LowerOptions} {stats : LowerStats} {f : Func}
    (hbuild : Source.buildAll body (.new name sig) = .ok () b)
    (hcalm : ∀ d ∈ b.func.ops, d.kind.Calm)
    (hlower : Lower.lowerFunc types o b.func = .ok stats f) :
    f.bodyOps.countP (f.kindIs OpKind.isInvoke) = stats.invokes ∧
      f.bodyOps.countP (f.kindIs OpKind.isLandingPad) = stats.landingPads ∧
      (∃ turns, Lower.Turns types o b.func turns ∧
        {u | f.IsPad u ∧ ∃ e ∈ f.leadsTo u, Lower.Cloned turns e}.ncard = stats.cleanupClones) ∧
      ∀ x ∈ f.bodyOps, ∀ d, f.op? x = some d → ∀ u, d.kind.unwind? = some u → f.Lands u := by
  classical
  have hbuilding : b.func.Building fun _ => False :=
    ((Source.buildAll_builds body _ _ (Source.building_new name sig)).ok hbuild).1
  obtain ⟨s, hflatten, hfinish⟩ := Lower.exists_flatten hlower
  have hsound : s.func.Sound :=
    (Lower.flatten_keeps (s := .start b.func) hbuilding.sound types o).ok hflatten
  have hstart : Everywhere (·.kind.Calm) b.func.bodyTree := by
    intro n hn
    by_contra hloud
    have hkind := hbuilding.holds.kindIs hn fun k => decide ¬k.Calm
    rw [decide_eq_true hloud, Func.kindIs] at hkind
    cases hd : b.func.op? n.id with
    | none => simp [hd] at hkind
    | some d => simp [hd, hcalm d (Array.mem_of_getElem? hd)] at hkind
  obtain ⟨turns, s₁, T₁, T, hturns, hcount, hT, hflat, hfin, hstats⟩ := Stage.flatten
    (I := Counted) (fun ds h => h.putOff ds) (fun h => h.of_raising rfl) (fun hr h => h.round hr)
    hbuilding.stage (counted_start hstart) hflatten
  obtain ⟨hwell, hpads⟩ := hfin.pads hcount.wellPadded
  have hlanded : Tidy.Landed (loudKinds (T₁.flatMap (·.ops))) (padsIn T₁) s.func :=
    ⟨hsound, hsound.owned.listed ⟨_, Arena.region? hT⟩, hT.flatBody hflat,
      hT.loud.trans hfin.loudKinds, hT.pads.trans hpads,
      hT.padsPlaced hwell fun p hp => (hcount.leads p (hpads ▸ hp)).1⟩
  obtain ⟨hf, hinvokes, hlandingPads, hclones⟩ := Lower.finish_landed hlanded hfinish
  have hcounted {p : OpKind → Bool} (hp : ∀ k : OpKind, k.Calm → p k = false) :
      f.bodyOps.countP (f.kindIs p) = (T₁.flatMap (·.ops)).countP (p ·.kind) := by
    rw [Func.countP_loud hp, hf.loud, countP_loudKinds hp]
  refine ⟨?_, ?_, ⟨turns, hturns, ?_⟩, ?_⟩
  · rw [hcounted fun k hk => hk.isInvoke, hcount.raises.invokes, hinvokes, hstats]
  · rw [hcounted fun k hk => hk.1, hcount.raises.pads, hlandingPads, hstats]
  · rw [hclones, hstats, ← hcount.clones, ← hf.pads]
    exact Func.ncard_isPad (hf.sound.owned.blocksOnce f.body) fun l => ∃ e ∈ l, Lower.Cloned turns e
  · intro x hx d hd u hu
    have hk := Func.mem_loud hx hd hu
    rw [hf.loud] at hk
    obtain ⟨n, hn, hkind⟩ := List.mem_map.mp (List.mem_of_mem_filter hk)
    obtain ⟨l, hl⟩ := hcount.raises.targets n hn u (hkind ▸ hu)
    rw [← hf.pads, Func.mem_pads] at hl
    exact hf.placed.lands hl.1

/-- A finally in a finally: its clone is cloned with the finally around it. -/
theorem lowerFunc_counts_guardedClose : ∃ stats f,
    Lower.lowerFunc {} .tidying (Source.built "main" ⟨[], .void⟩ Source.guardedClose) =
      .ok stats f ∧ stats.invokes = 3 ∧ stats.landingPads = 3 ∧ stats.cleanupClones = 3 ∧
      f.bodyOps.countP (f.kindIs OpKind.isInvoke) = 3 ∧
      f.bodyOps.countP (f.kindIs OpKind.isLandingPad) = 3 ∧
      ∃ turns, Lower.Turns {} .tidying (Source.built "main" ⟨[], .void⟩ Source.guardedClose) turns ∧
        {u | f.IsPad u ∧ ∃ e ∈ f.leadsTo u, Lower.Cloned turns e}.ncard = 3 := by
  obtain ⟨_, hbuild⟩ := ok_left (x := Source.buildAll Source.guardedClose)
    (s := .new "main" ⟨[], .void⟩) (by decide +kernel)
  have hrun : (resultOf (Lower.lowerFunc {} .tidying)
      (Source.built "main" ⟨[], .void⟩ Source.guardedClose)).map
        (fun s => (s.invokes, s.landingPads, s.cleanupClones)) = some (3, 3, 3) := by
    decide +kernel
  obtain ⟨stats, hstats, hcounts⟩ := Option.map_eq_some_iff.mp hrun
  simp only [Prod.mk.injEq] at hcounts
  have hlower := ok_of_resultOf hstats
  obtain ⟨hinvokes, hpads, ⟨turns, hturns, hclones⟩, -⟩ :=
    lowerFunc_counts hbuild (by decide +kernel) hlower
  exact ⟨stats, _, hlower, hcounts.1, hcounts.2.1, hcounts.2.2, hinvokes.trans hcounts.1,
    hpads.trans hcounts.2.1, turns, hturns, hclones.trans hcounts.2.2⟩

end Unnest
