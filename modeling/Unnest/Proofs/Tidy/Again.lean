import Unnest.Proofs.Lowering.Flat
import Unnest.Proofs.Statements
import Unnest.Proofs.Tidy.Pruned
import Unnest.Proofs.Tree.Built
/-!
# Tidying a second time

Constants that have been gathered stay gathered: a second gathering changes nothing, also when
blocks have been pruned in between (`Pruned.tidied`). A second pruning can find more than the first,
as gathering takes constants out of blocks that were kept for them. Where nothing was gathered it
finds nothing, and after it there is nothing left to do (`lowerFunc_tidied`).
-/

namespace Unnest

open Tidy

/-- Nothing is nested in the ops of the body. -/
def Func.FlatBody (f : Func) : Prop := ∀ x ∈ f.bodyOps, ∀ d, f.op? x = some d → f.Bare d

theorem Func.FlatBody.bareStubs {f : Func} (h : f.FlatBody) : f.BareStubs :=
  fun b hb x hx d hd => h x (Func.mem_bodyOps.mpr ⟨b, hb.mem, hx⟩) d hd

namespace Tidy

variable {f f' : Func} {entry : BlockId} {cs kept gone : List Const} {σ : ValueId → ValueId}
  {dead : List BlockId} {n : Nat}

/-- Nothing is left to gather. -/
def Tidied (f : Func) : Prop := f.blocksIn f.body = [] ∨ ∃ entry cs, Settled f entry cs

theorem gatherConstants_of_empty (hbody : ∃ d, f.region? f.body = some d)
    (hempty : f.blocksIn f.body = []) : gatherConstants f = .ok 0 f := by
  have hentry : Edit.entryBlock f = .ok none f := by
    have hblock : f.entryBlock = .ok none := by
      rw [Func.entryBlock, Func.bodyBlocks_eq hbody, hempty]
      rfl
    exact read_of_ok hblock f
  rw [gatherConstants, bind_of_ok hentry]
  rfl

theorem Tidied.gatherConstants (h : Tidied f) (hf : f.Listed) :
    Tidy.gatherConstants f = .ok 0 f := by
  obtain hempty | ⟨entry, cs, hs⟩ := h
  · exact gatherConstants_of_empty hf.body hempty
  · exact hs.gatherConstants hf

/-! ## After gathering -/

namespace Gathered

variable (h : Gathered f entry kept gone σ f')

include h

theorem flatBody (hf : f.Owned) (hflat : f.FlatBody) : f'.FlatBody := by
  intro x hx d hd
  obtain ⟨b, hb, hx⟩ := Func.mem_bodyOps.mp hx
  rw [h.outline.body, h.blocksIn] at hb
  obtain ⟨bd, hbd⟩ := hf.exists_block hb
  rw [h.opsIn hbd, List.mem_append] at hx
  obtain hx | hx := hx
  · split at hx
    · obtain ⟨c, hc, rfl⟩ := List.mem_map.mp hx
      obtain ⟨d', hd', -, -, hbare, -⟩ := h.defines_kept hc
      cases hd.symm.trans hd'
      exact hbare
    · simp at hx
  · rw [List.mem_filter, decide_eq_true_iff, List.mem_append, not_or] at hx
    obtain ⟨hx, -, hgone⟩ := hx
    rw [h.op? x hgone, Option.map_eq_some_iff] at hd
    obtain ⟨d₀, hd₀, rfl⟩ := hd
    exact h.outline.bare (bare_renamed (hflat x (Func.mem_bodyOps.mpr ⟨b, hb, hx⟩) d₀ hd₀))

end Gathered

/-- What a gathering leaves. -/
theorem gatherConstants_tidied (hf : f.Owned) (hbody : ∃ d, f.region? f.body = some d)
    (hflat : f.FlatBody) (hrun : gatherConstants f = .ok n f') :
    Tidied f' ∧ f'.FlatBody ∧ f'.Listed ∧ (n = 0 → f' = f) := by
  cases hblocks : f.blocksIn f.body with
  | nil =>
    cases hrun.symm.trans (gatherConstants_of_empty hbody hblocks)
    exact ⟨.inl hblocks, hflat, hf.listed hbody, fun _ => rfl⟩
  | cons entry blocks =>
    have hmem : entry ∈ f.blocksIn f.body := by simp [hblocks]
    obtain ⟨bd, hbd⟩ := hf.exists_block hmem
    obtain ⟨x, -, -, -, e, f₁, hstuck⟩ | ⟨ks, gs, ks', gs', n', σ, f₁, hrun', h, hlead, hcase⟩ :=
      gatherConstants_cases hf (fun x hx d hd _ => hflat x hx d hd) hblocks
    · cases hrun.symm.trans hstuck
    cases hrun.symm.trans hrun'
    have htaken : (∀ x ∈ f.opsIn entry, x ∈ opsOf (ks ++ ks') ++ opsOf (gs ++ gs')) ∨
        ∀ x ∈ f.bodyOps, f.constantAt x = true → x ∈ opsOf (ks ++ ks') ++ opsOf (gs ++ gs') := by
      obtain ⟨-, rfl, rfl, hall⟩ | ⟨-, hscattered, -⟩ := hcase
      · left
        intro x hx
        rw [← hall] at hx
        simpa using hlead.mem_iff.mpr hx
      · exact .inr fun x hx hconst => mem_taken hlead hscattered hx hconst
    have hentry : ∀ x ∈ f.opsIn entry, f.constantAt x = true →
        x ∈ opsOf (ks ++ ks') ++ opsOf (gs ++ gs') := by
      intro x hx hconst
      obtain htaken | htaken := htaken
      · exact htaken x hx
      · exact htaken x (Func.mem_bodyOps.mpr ⟨entry, hmem, hx⟩) hconst
    refine ⟨.inr ⟨entry, _, h.settled hf hblocks hbd hentry htaken⟩, h.flatBody hf hflat,
      h.isListed hf hbody, ?_⟩
    rintro rfl
    -- nothing was erased and nothing stood elsewhere
    obtain ⟨rfl, hothers⟩ : gs = [] ∧ ((f.opsIn entry).length ≤ ks.length ∨
        f.scattered (f.leading (f.opsIn entry)) = []) := by
      obtain ⟨hn, -, -, hall⟩ | ⟨hn, -, -⟩ := hcase
      · refine ⟨List.eq_nil_of_length_eq_zero hn.symm, .inl ?_⟩
        have hlength := hlead.length_eq
        rw [hall] at hlength
        simp only [opsOf, List.length_append, List.length_map] at hlength
        omega
      · exact ⟨List.eq_nil_of_length_eq_zero (by omega),
          .inr (List.eq_nil_of_length_eq_zero (by omega))⟩
    rw [show opsOf ([] : List Const) = [] from rfl, List.append_nil] at hlead
    obtain ⟨cs, hcs, hperm⟩ : (Relation.Comp (· = opsOf ·) List.Perm)
      (f.leading (f.opsIn entry)) ks := by
      rw [show opsOf = List.map Const.op from rfl, List.eq_map_comp_perm]
      exact hlead.symm
    have hsettled : Settled f entry cs := by
      refine ⟨by rw [hblocks, List.head?_cons], hcs, fun c hc => h.defines c ?_, ?_, ?_⟩
      · simp [hperm.mem_iff.mp hc]
      · have hkeys := h.keys
        rw [List.map_append] at hkeys
        exact (hperm.map _).nodup_iff.mpr (List.nodup_append.mp hkeys).1
      · rw [← hcs, hperm.length_eq]
        exact hothers
    cases hrun.symm.trans (hsettled.gatherConstants (hf.listed hbody))
    rfl

/-! ## After pruning -/

namespace Pruned

variable (h : Pruned f dead f') (hf : f.Owned)

include h hf

theorem flatBody (hflat : f.FlatBody) : f'.FlatBody := by
  intro x hx d hd
  obtain ⟨b, hb, hx⟩ := Func.mem_bodyOps.mp hx
  obtain ⟨hb, hdead⟩ := h.mem_blocksIn.mp hb
  rw [h.opsIn hdead] at hx
  rw [h.op?_of_mem hf hdead hx] at hd
  exact h.bare (hflat x (Func.mem_bodyOps.mpr ⟨b, hb, hx⟩) d hd)

/-- Pruning does not scatter constants. -/
theorem tidied (ht : Tidied f) : Tidied f' := by
  obtain hempty | ⟨entry, cs, hs⟩ := ht
  · left
    rw [h.blocksIn_body, hempty, List.filter_nil]
  · have hentry : entry ∉ dead := h.entry entry hs.first
    have hmem : entry ∈ f.blocksIn f.body := List.mem_of_head? hs.first
    have hconst {b : BlockId} (hb : b ∉ dead) {x : OpId} (hx : x ∈ f.opsIn b) :
        f'.constantAt x = f.constantAt x := by
      unfold Func.constantAt Func.kindIs
      rw [h.op?_of_mem hf hb hx]
    have hops : f'.opsIn entry = f.opsIn entry := h.opsIn hentry
    refine .inr ⟨entry, cs, by rw [h.head?_blocksIn, hs.first], ?_, ?_, hs.keys, ?_⟩
    · rw [← hs.leading, hops]
      exact takeWhile_congr fun x hx => hconst hentry hx
    · intro c hc
      obtain ⟨d, hd, hkind, hresult, hbare, info, hinfo, hty⟩ := hs.defines c hc
      have hlisted : c.op ∈ f.opsIn entry := by
        have : c.op ∈ opsOf cs := List.mem_map_of_mem hc
        rw [← hs.leading] at this
        exact (List.takeWhile_sublist _).subset this
      exact ⟨d, (h.op?_of_mem hf hentry hlisted).trans hd, hkind, hresult, h.bare hbare,
        info, (h.value? _).trans hinfo, hty⟩
    · rw [hops]
      refine hs.others.imp_right fun hnone => List.eq_nil_iff_forall_not_mem.mpr fun x hx => ?_
      obtain ⟨hx, hnot, hx'⟩ := Func.mem_scattered.mp hx
      obtain ⟨b, hb, hx⟩ := Func.mem_bodyOps.mp hx
      obtain ⟨hb, hdead⟩ := h.mem_blocksIn.mp hb
      rw [h.opsIn hdead] at hx
      rw [hconst hdead hx] at hx'
      exact List.eq_nil_iff_forall_not_mem.mp hnone x
        (Func.mem_scattered.mpr ⟨Func.mem_bodyOps.mpr ⟨b, hb, hx⟩, hnot, hx'⟩)

end Pruned

/-- A second pruning ends with nothing left to do. -/
theorem Tidied.prune (ht : Tidied f) (hf : f.Owned) (hlisted : f.Listed) (hflat : f.FlatBody) :
    ∃ k f', Tidy.prune f = .ok k f' ∧ Tidy.gatherConstants f' = .ok 0 f' ∧
      Tidy.prune f' = .ok 0 f' ∧ f'.deadBlocks = .ok [] := by
  obtain ⟨dead, f', hrun, h, -, -, hdead⟩ := prune_pruned hf hlisted.body hflat.bareStubs
  have hlisted' := h.isListed hf hlisted.body
  exact ⟨dead.length, f', hrun, (h.tidied hf ht).gatherConstants hlisted',
    prune_of_deadBlocks hlisted'.body hdead, hdead⟩

end Tidy

/-! ## Lowered functions -/

theorem Func.Holds.flatBody {f : Func} {T : List BlockTree} (hf : f.Holds T 0) (hT : AllFlat T) :
    f.FlatBody := by
  intro x hx d hd
  obtain ⟨b, hb, hx⟩ := Func.mem_bodyOps.mp hx
  rw [Func.blocksIn, Arena.region? hf] at hb
  obtain ⟨B, hB, rfl⟩ := List.mem_map.mp hb
  have hblock := (Arena.left (Arena.right hf)).of_mem hB
  rw [BlockOf.entries_eq] at hblock
  rw [Func.opsIn, hblock.block?] at hx
  obtain ⟨n, hn, rfl⟩ := List.mem_map.mp hx
  have hop := hblock.right.of_mem hn
  rw [OpTree.entries_eq] at hop
  cases hd.symm.trans hop.op?
  exact Func.bare_of_nil (by simp [OpTree.toOp, (hT B hB n hn).1])

namespace Lower

variable {types : TypeTable} {o : LowerOptions} {stats : LowerStats} {f f₁ : Func}

/-- What is checked at the end does not change the function. -/
theorem eq_of_checked {stats₀ : LowerStats} (h : (do
      if o.verify then (← get).checkLowered
      return stats₀ : Edit LowerStats) f = .ok stats f₁) : stats₀ = stats ∧ f = f₁ := by
  dsimp only at h
  split at h
  · obtain ⟨g, f₂, hget, h⟩ := bind_eq_ok h
    cases hget
    obtain ⟨_, f₃, hcheck, h⟩ := bind_eq_ok h
    cases h
    obtain ⟨_, hread⟩ | ⟨e, hread⟩ := Reads.lift (σ := Func) f.checkLowered f
    · cases hcheck.symm.trans hread
      exact ⟨rfl, rfl⟩
    · cases hcheck.symm.trans hread
  · cases h
    exact ⟨rfl, rfl⟩

/-- The function while it is tidied. -/
theorem exists_tidy {stats₀ : LowerStats} (hcleanup : o.cleanup = true)
    (hrelocate : o.relocate = true) (h : finish o stats₀ f = .ok stats f₁) :
    ∃ k f', Tidy.prune f = .ok k f' ∧ gatherConstants f' = .ok stats.relocatedConstants f₁ := by
  unfold finish at h
  rw [if_pos hcleanup] at h
  obtain ⟨k, f', hprune, h⟩ := bind_eq_ok h
  dsimp only at h
  rw [if_pos hrelocate] at h
  obtain ⟨n, f₂, hgather, h⟩ := bind_eq_ok h
  obtain ⟨stats₁, f₃, hstats, h⟩ := bind_eq_ok h
  cases hstats
  obtain ⟨rfl, rfl⟩ := eq_of_checked h
  exact ⟨k, f', hprune, hgather⟩

end Lower

/-- A function that was lowered and tidied has its constants gathered. Another pruning may find
blocks that gathering has emptied; where nothing was gathered there are none, and after that pruning
there is nothing left to do. -/
theorem lowerFunc_tidied {name : String} {sig : Signature} {body : List Source.Stmt} {b : Builder}
    {types : TypeTable} {o : LowerOptions} {stats : LowerStats} {f : Func}
    (hbuild : Source.buildAll body (.new name sig) = .ok () b) (hcleanup : o.cleanup = true)
    (hrelocate : o.relocate = true) (hlower : Lower.lowerFunc types o b.func = .ok stats f) :
    gatherConstants f = .ok 0 f ∧
      (stats.relocatedConstants = 0 → prune f = .ok 0 f ∧ f.deadBlocks = .ok []) ∧
      ∃ k f', prune f = .ok k f' ∧ gatherConstants f' = .ok 0 f' ∧ prune f' = .ok 0 f' ∧
        f'.deadBlocks = .ok [] := by
  have hbuilding : b.func.Building fun _ => False :=
    ((Source.buildAll_builds body _ _ (Source.building_new name sig)).ok hbuild).1
  obtain ⟨s, hflatten, hfinish⟩ := Lower.exists_flatten hlower
  obtain ⟨k, f', hprune, hgather⟩ := Lower.exists_tidy hcleanup hrelocate hfinish
  -- the flat body, before it is tidied
  have hsound : s.func.Sound :=
    (Lower.flatten_keeps (s := .start b.func) hbuilding.sound types o).ok hflatten
  obtain ⟨-, -, -, T, -, -, hT, hflat, -⟩ := hbuilding.stage.flatten (I := fun _ _ _ => True)
    (fun _ _ => trivial) (fun _ => trivial) (fun _ _ => trivial) trivial hflatten
  have hbody : ∃ d, s.func.region? s.func.body = some d := ⟨_, Arena.region? hT⟩
  -- after the pruning
  obtain ⟨dead, f₁, hprune₁, h₁, -, -, hdead⟩ :=
    prune_pruned hsound.owned hbody (hT.flatBody hflat).bareStubs
  cases hprune.symm.trans hprune₁
  have hsound₁ : f'.Sound := (prune_keeps hsound).ok hprune
  have hlisted₁ := h₁.isListed hsound.owned hbody
  have hflat₁ := h₁.flatBody hsound.owned (hT.flatBody hflat)
  -- after the gathering
  have hsound₂ : f.Sound := (gatherConstants_keeps hsound₁).ok hgather
  obtain ⟨htidied, hflat₂, hlisted₂, hzero⟩ :=
    gatherConstants_tidied hsound₁.owned hlisted₁.body hflat₁ hgather
  refine ⟨htidied.gatherConstants hlisted₂, fun hnone => ?_,
    htidied.prune hsound₂.owned hlisted₂ hflat₂⟩
  rw [hzero hnone]
  exact ⟨prune_of_deadBlocks hlisted₁.body hdead, hdead⟩

/-- A constant behind a return, alone in a block that nothing leads to. -/
def Source.strayConstant : List Source.Stmt :=
  [.entry none, .ret, .constant (.int 1) .i32 none, .exit]

/-- The constant kept its block from being pruned, and was gathered after that. One more pruning is
enough. -/
theorem lowerFunc_tidied_strayConstant : ∃ stats f k f',
    Lower.lowerFunc {} .tidying (Source.built "f" ⟨[], .void⟩ Source.strayConstant) =
      .ok stats f ∧ gatherConstants f = .ok 0 f ∧ prune f = .ok k f' ∧ prune f' = .ok 0 f' := by
  obtain ⟨_, hbuild⟩ := ok_left (x := Source.buildAll Source.strayConstant)
    (s := .new "f" ⟨[], .void⟩) (by decide +kernel)
  obtain ⟨stats, hlower⟩ := ok_left (x := Lower.lowerFunc {} .tidying)
    (s := Source.built "f" ⟨[], .void⟩ Source.strayConstant) (by decide +kernel)
  obtain ⟨hgather, -, k, f', hprune, -, hagain, -⟩ := lowerFunc_tidied hbuild rfl rfl hlower
  exact ⟨stats, _, k, f', hlower, hgather, hprune, hagain⟩

/-- Gathering leaves a block for the next pruning. -/
theorem prune_finds_gathered_block : ∃ stats f f',
    Lower.lowerFunc {} .tidying (Source.built "f" ⟨[], .void⟩ Source.strayConstant) =
      .ok stats f ∧ prune f = .ok 1 f' ∧ f.deadAt ⟨2⟩ = true := by
  obtain ⟨stats, hlower⟩ := ok_left (x := Lower.lowerFunc {} .tidying)
    (s := Source.built "f" ⟨[], .void⟩ Source.strayConstant) (by decide +kernel)
  exact ⟨stats, _, _, hlower, ok_of_resultOf (by decide +kernel), by decide +kernel⟩

end Unnest
