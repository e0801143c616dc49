import Unnest.Proofs.Lowering.Jumps
import Unnest.Proofs.Lowering.Layout
/-!
# What a round keeps

A round takes up one construct. Every op outside of it stays where it is, and every op in its
regions comes one step nearer to the top level, unless it is the end of a region. `Round.keeps` says
so for the paths, up to the names of the values that are used. Of a try that is not true: what is
below a catch or a finally without ops is dropped.
-/

namespace Unnest

section

variable {L R T : List BlockTree} {b : BlockId} {args : List ValueId} {pre post : List OpTree}
  {x e : OpTree} {p : Trail}

theorem Trail.rename_uses_uses (σ τ : ValueId → ValueId) (p : Trail) :
    (p.rename (.uses σ)).rename (.uses τ) = p.rename (.uses (τ ∘ σ)) := by
  simp [Trail.rename, OpTree.rename_uses_uses, Function.comp_def]

/-- An op is found outside of an op at the top level, or it is that op or below it. -/
theorem path_around : Path (L ++ ⟨b, args, pre ++ x :: post⟩ :: R) p e ↔
    Path (L ++ ⟨b, args, pre ++ post⟩ :: R) p e ∨ e.At [x] p := by
  have hx : e.At (x :: post) p ↔ e.At [x] p ∨ e.At post p := OpTree.at_cons_left
  simp only [path_append, path_cons_left, OpTree.at_append, hx]
  tauto

theorem path_atStart_of_path {ops : List OpTree} (h : Path T p e) : Path (atStart ops T) p e := by
  cases T with
  | nil => exact h
  | cons B Bs =>
    rw [path_cons_left] at h
    rw [atStart, path_cons_left, OpTree.at_append]
    exact h.imp_left .inr

/-- What is outside of the construct stays. -/
theorem Layout.keeps (c : Layout) (h : Path (L ++ ⟨b, args, pre ++ post⟩ :: R) p e) :
    Path (c.tree L R b args pre post) (p.rename (.uses c.names)) (e.rename (.uses c.names)) := by
  have h := h.rename (ρ := .uses c.names)
  refine path_atStart_of_path ?_
  simp only [List.map_append, List.map_cons, path_append, path_cons_left, BlockOf.ops_rename,
    OpTree.at_append] at h ⊢
  refine h.imp_right fun h => ?_
  unfold Layout.behind
  split
  · simp only [path_append, path_cons_left, OpTree.at_append]
    tauto
  · simp only [path_append, path_cons_left, OpTree.at_append]
    tauto

/-- What is not the end of a region stays. -/
theorem EndChanged.keeps {B B' : BlockTree} (h : EndChanged B B') (he : e.At B.ops p)
    (hend : e.kind.endsRegion = false) : e.At B'.ops p := by
  obtain ⟨-, -, rfl | ⟨ops, t, mids, t', ho, ho', ht, hr, -⟩⟩ := h
  · exact he
  · rw [ho, OpTree.at_append] at he
    rw [ho', OpTree.at_append, OpTree.at_append]
    refine .inl (.inl (he.resolve_right fun he => ?_))
    obtain ⟨-, rfl⟩ | ⟨i, q, r, -, hr', -⟩ := OpTree.at_singleton.mp he
    · simp [hend] at ht
    · simp [hr] at hr'

theorem path_of_forall₂_endChanged {Bs Bs' : List BlockTree} (h : List.Forall₂ EndChanged Bs Bs')
    (he : Path Bs p e) (hend : e.kind.endsRegion = false) : Path Bs' p e := by
  obtain ⟨B, hB, he⟩ := he
  obtain ⟨B', hB', hBB'⟩ : ∃ B' ∈ Bs', EndChanged B B' := forall₂_mem_right h.flip hB
  exact ⟨B', hB', hBB'.keeps he hend⟩

end

/-- No op is a try. -/
def TryFree (T : List BlockTree) : Prop := Everywhere (fun n => n.kind ≠ .construct .tryCatch) T

section

variable {types : TypeTable} {o : LowerOptions} {s s' : LowerState} {T' L R : List BlockTree}
  {x : OpTree} {b : BlockId} {args : List ValueId} {pre post : List OpTree}

theorem Lays.keeps_inside {c : Layout} (hl : Lays types o s s' x c)
    (htry : x.kind ≠ .construct .tryCatch) {i : Nat} {r : RegionTree} {p : Trail} {e : OpTree}
    (hr : x.regions[i]? = some r) (he : Path r.blocks p e) (hend : e.kind.endsRegion = false) :
    Path (c.tree L R b args pre post) (p.rename (.uses c.names)) (e.rename (.uses c.names)) := by
  cases hl with
  | placed | thrown | called | resumed => simp at hr
  | tried hk => exact absurd hk htry
  | @opened _ c₀ σ mid inner next news hk hcon hσ hm hi =>
    have hblocks : Path (x.regions.flatMap (·.blocks)) p e :=
      he.mono fun B hB => List.mem_flatMap.mpr ⟨r, List.mem_of_getElem? hr, hB⟩
    have hinner := path_of_forall₂_endChanged hi (hblocks.rename (ρ := .uses σ)) (by
      simpa using hend)
    refine path_atStart_of_path ?_
    simp only [Layout.behind, path_append, path_cons_left]
    exact .inr (.inr (.inl hinner))

namespace Round

variable (h : Round types o s s' L R b args pre post x T')
include h

/-- The ops outside of the construct and in its regions, under the same new names. -/
theorem keeps (htry : x.kind ≠ .construct .tryCatch) : ∃ σ : ValueId → ValueId,
    (∀ p e, Path (L ++ ⟨b, args, pre ++ post⟩ :: R) p e →
      Path T' (p.rename (.uses σ)) (e.rename (.uses σ))) ∧
    ∀ (i : Nat) (r : RegionTree) p e, x.regions[i]? = some r → Path r.blocks p e →
      e.kind.endsRegion = false → Path T' (p.rename (.uses σ)) (e.rename (.uses σ)) := by
  obtain ⟨c, rfl, hl⟩ := h.lowered.lays h.fitsWithin
  exact ⟨c.names, fun p e he => c.keeps he,
    fun i r p e hr he hend => hl.keeps_inside htry hr he hend⟩

/-- A round makes no tries. -/
theorem tryFree (hT : TryFree (L ++ ⟨b, args, pre ++ x :: post⟩ :: R)) : TryFree T' := by
  intro n hn
  obtain ⟨p, hp⟩ := hn.path
  cases h.traced hp with
  | code hc =>
    intro hk
    have hflat := hc.2
    rw [hk] at hflat
    cases hflat
  | outside he => simpa using hT _ (path_around.mpr (.inl he)).inBlocks
  | inside hr he => simpa using hT _ (path_of_region hr he).inBlocks
  | copied hk => exact absurd hk.1 (hT x OpTree.inBlocks_here)

end Round

end

end Unnest
