import Unnest.Proofs.Ownership.Rewriting
import Unnest.Proofs.Rewriting.Constructs
/-!
# A lowering keeps ownership

Lowering as a whole keeps ownership, whether it succeeds or fails, and so do the two passes that
tidy a flat function. The body only changes where the construct being lowered stands, which is at
the top level.
-/

namespace Unnest

open Func

variable {f : Func} {α : Type}

/-- The state in which the lowering of a function starts. -/
def LowerState.start (f : Func) : LowerState := { func := f, stats := { function := f.name } }

/-- The options of a lowering that neither tidies nor checks. -/
def LowerOptions.bare : LowerOptions where
  capture := .heap
  unwind := .chain
  verify := false
  cleanup := false
  relocate := false

/-- The options of a lowering that tidies and checks. -/
def LowerOptions.tidying : LowerOptions where
  capture := .heap
  unwind := .chain
  verify := true
  cleanup := true
  relocate := true

/-- The function of a lowering owns its nodes. -/
abbrev LowerState.Sound (s : LowerState) : Prop := s.func.Sound

namespace Lower

open Edit

variable {s : LowerState}

theorem flatten_keeps (hs : s.Sound) (types : TypeTable) (o : LowerOptions) :
    Keeps LowerState.Sound (flatten types o) s fun _ s' => s'.Sound :=
  (flatten_upholds (I := Hand.Owns) (.of_sound hs) types o).mono fun _ _ h => h.sound

end Lower

/-! ## Tidying -/

namespace Tidy

open Edit

theorem pruneRounds_keeps (h : f.Sound) (rounds : Nat) :
    Keeps Sound (pruneRounds rounds) f fun _ f' => f'.Sound := by
  induction rounds generalizing f with
  | zero =>
    refine .get (.read (.lift _) h fun dead _ => ?_)
    split
    · exact .pure h
    · exact .stop (by simp)
  | succ rounds ih =>
    refine .get (.read (.lift _) h fun dead _ => ?_)
    split
    · exact .pure h
    · refine .bind (.forM (m := fun _ f' => f'.Sound) h fun b _ f₁ h₁ => eraseBlock_keeps h₁ b)
        fun _ f₁ h₁ => ?_
      exact .bind (ih h₁) fun _ f₂ h₂ => .pure h₂

theorem prune_keeps (h : f.Sound) : Keeps Sound prune f fun _ f' => f'.Sound :=
  .get (.read (.lift _) h fun _ _ => pruneRounds_keeps h _)

theorem mergeConstant_keeps (h : f.Sound) (kept : Kept) (op : OpId) :
    Keeps Sound (mergeConstant kept op) f fun _ f' => f'.Sound := by
  refine .read (getKind_reads op) h fun kind _ => ?_
  split
  · refine .read (result_reads op) h fun v _ => .read (valueTy_reads v) h fun ty _ => ?_
    dsimp only
    split
    · refine .bind (replaceAllUses_keeps h ..) ?_
      rintro _ f₁ ⟨h₁, _⟩
      refine .bind (eraseOp_keeps h₁ op) ?_
      rintro _ f₂ ⟨h₂, _⟩
      exact .pure h₂
    · exact .pure h
  · exact .pure h

theorem mergeLeading_keeps (h : f.Sound) (kept : Kept) (ops : List OpId) :
    Keeps Sound (mergeLeading kept ops) f fun _ f' => f'.Sound := by
  induction ops generalizing f kept with
  | nil => exact .pure h
  | cons op ops ih =>
    exact .bind (mergeConstant_keeps h kept op) fun p f₁ h₁ =>
      .bind (ih h₁ p.2) fun _ f₂ h₂ => .pure h₂

theorem gather_keeps (h : f.Sound) (anchor : OpId) (kept : Kept) (ops : List OpId) :
    Keeps Sound (gather anchor kept ops) f fun _ f' => f'.Sound := by
  induction ops generalizing f kept with
  | nil => exact .pure h
  | cons op ops ih =>
    refine .bind (mergeConstant_keeps h kept op) fun p f₁ h₁ => ?_
    dsimp only
    split
    · refine .bind (detachOp_keeps h₁ op) ?_
      rintro _ f₂ ⟨h₂, _, l₂⟩
      refine .bind (insertOpBefore_keeps h₂ l₂) ?_
      rintro _ f₃ ⟨h₃, _⟩
      exact ih h₃ p.2
    · exact ih h₁ p.2

theorem gatherConstants_keeps (h : f.Sound) :
    Keeps Sound gatherConstants f fun _ f' => f'.Sound := by
  refine .read entryBlock_reads h fun entry _ => ?_
  split
  · exact .pure h
  refine .get (.getBlock fun d _ => .read (.lift _) h fun leading _ => ?_)
  refine .bind (mergeLeading_keeps h {} leading) fun p f₁ h₁ => .getBlock fun d₁ _ => ?_
  split
  · exact .pure h₁
  · refine .get (.read (.lift _) h₁ fun others _ => ?_)
    exact .bind (gather_keeps h₁ ..) fun _ f₂ h₂ => .pure h₂

end Tidy

namespace Lower

theorem finish_keeps (h : f.Sound) (o : LowerOptions) (stats : LowerStats) :
    Keeps Sound (finish o stats) f fun _ f' => f'.Sound := by
  have check : ∀ {f : Func} (stats : LowerStats), f.Sound → Keeps Sound (do
      if o.verify then (← get).checkLowered
      return stats) f fun _ f' => f'.Sound := by
    intro f stats h
    dsimp only
    split
    · exact .get (.read (.lift _) h fun _ _ => .pure h)
    · exact .pure h
  unfold finish
  dsimp only
  split
  · refine .bind (Tidy.prune_keeps h) fun _ f₁ h₁ => ?_
    split
    · exact .bind (Tidy.gatherConstants_keeps h₁) fun _ f₂ h₂ => check _ h₂
    · exact check _ h₁
  · exact check _ h

/-- A lowering leaves a function that owns its nodes, also when it fails. -/
theorem lowerFunc_keeps (h : f.Sound) (types : TypeTable) (o : LowerOptions) :
    Keeps Sound (lowerFunc types o) f fun _ f' => f'.Sound := by
  have hf := flatten_keeps (s := { func := f, stats := { function := f.name } }) h types o
  unfold Keeps lowerFunc
  unfold Keeps at hf
  cases hx : flatten types o { func := f, stats := { function := f.name } } with
  | ok a s =>
    rw [hx] at hf
    exact finish_keeps hf o s.stats
  | error e s =>
    rw [hx] at hf
    exact hf

variable {types : TypeTable} {o : LowerOptions} {stats : LowerStats} {f₁ : Func}

/-- The function before it is tidied. -/
theorem exists_flatten (h : lowerFunc types o f = .ok stats f₁) :
    ∃ s, flatten types o (.start f) = .ok () s ∧ finish o s.stats s.func = .ok stats f₁ := by
  unfold lowerFunc at h
  cases hs : flatten types o (.start f) with
  | ok a s =>
    rw [LowerState.start] at hs
    rw [hs] at h
    exact ⟨s, rfl, h⟩
  | error e s =>
    rw [LowerState.start] at hs
    rw [hs] at h
    cases h

end Lower

end Unnest
