import Unnest.Proofs.Tree.Reading
import Unnest.Proofs.Tree.Rename
/-!
# What holds of every op

A property of ops holds everywhere in some blocks if it holds of the ops of the blocks and of all
that lie below them. A renaming takes the ops of a tree to the ops of the renamed tree, so a
property that renamings keep holds everywhere in the renamed tree too.
-/

namespace Unnest

/-- Every op in the blocks, however deep, is as `P` says. -/
def Everywhere (P : OpTree → Prop) (Bs : List BlockTree) : Prop := ∀ n, n.InBlocks Bs → P n

/-- Every one of the ops, and everything below it, is as `P` says. -/
def EachOp (P : OpTree → Prop) (ops : List OpTree) : Prop := ∀ n ∈ ops, ∀ m, m.Within n → P m

variable {m : OpTree}

theorem OpTree.within_mk {h : Head} {rs : List RegionTree} :
    m.Within (.mk h rs) ↔ m = .mk h rs ∨ ∃ r ∈ rs, m.InBlocks r.blocks := by
  constructor
  · intro hm
    cases hm with
    | here => exact .inl rfl
    | deeper hr hb hn hm => exact .inr ⟨_, hr, _, hb, _, hn, hm⟩
  · rintro (rfl | ⟨r, hr, b, hb, n, hn, hm⟩)
    · exact .here
    · exact .deeper hr hb hn hm

variable {n : OpTree}

theorem OpTree.within_iff : m.Within n ↔ m = n ∨ ∃ r ∈ n.regions, m.InBlocks r.blocks := by
  cases n
  exact within_mk

theorem OpTree.Within.trans {k : OpTree} (h : m.Within n) (h' : n.Within k) : m.Within k := by
  induction h' with
  | here => exact h
  | deeper hr hb hn _ ih => exact .deeper hr hb hn ih

variable {Bs : List BlockTree}

theorem OpTree.InBlocks.below (h : m.Within n) (h' : n.InBlocks Bs) : m.InBlocks Bs := by
  obtain ⟨B, hB, k, hk, hn⟩ := h'
  exact ⟨B, hB, k, hk, h.trans hn⟩

theorem OpTree.inBlocks_of_mem {B : BlockTree} (hB : B ∈ Bs) (hn : n ∈ B.ops) : n.InBlocks Bs :=
  ⟨B, hB, n, hn, .here⟩

/-- What is below an op of some blocks is in the blocks. -/
theorem OpTree.InBlocks.deeper {r : RegionTree} (hr : r ∈ n.regions) (hm : m.InBlocks r.blocks)
    (hn : n.InBlocks Bs) : m.InBlocks Bs :=
  .below (OpTree.within_iff.mpr (.inr ⟨r, hr, hm⟩)) hn

@[simp] theorem OpTree.inBlocks_nil : ¬n.InBlocks [] := by
  simp [InBlocks]

theorem OpTree.inBlocks_append {L R : List BlockTree} :
    n.InBlocks (L ++ R) ↔ n.InBlocks L ∨ n.InBlocks R := by
  simp [InBlocks, or_and_right, exists_or]

section

variable {P Q : OpTree → Prop} {L R Bs : List BlockTree} {ops post : List OpTree}

@[simp] theorem everywhere_nil : Everywhere P [] := by
  simp [Everywhere]

@[simp] theorem everywhere_append : Everywhere P (L ++ R) ↔ Everywhere P L ∧ Everywhere P R := by
  simp [Everywhere, OpTree.inBlocks_append, or_imp, forall_and]

variable {B : BlockTree}

@[simp] theorem everywhere_cons : Everywhere P (B :: Bs) ↔ EachOp P B.ops ∧ Everywhere P Bs := by
  simp only [Everywhere, EachOp, OpTree.InBlocks]
  constructor
  · intro h
    exact ⟨fun n hn m hm => h m ⟨B, by simp, n, hn, hm⟩,
      fun m hm => h m (by
        obtain ⟨C, hC, hm⟩ := hm
        exact ⟨C, by simp [hC], hm⟩)⟩
  · rintro ⟨h, h'⟩ m ⟨C, hC, n, hn, hm⟩
    rcases List.mem_cons.mp hC with rfl | hC
    · exact h n hn m hm
    · exact h' m ⟨C, hC, n, hn, hm⟩

@[simp] theorem eachOp_nil : EachOp P [] := by
  simp [EachOp]

@[simp] theorem eachOp_append : EachOp P (ops ++ post) ↔ EachOp P ops ∧ EachOp P post := by
  simp [EachOp, or_imp, forall_and]

variable {n : OpTree}

@[simp] theorem eachOp_cons : EachOp P (n :: ops) ↔ (∀ m, m.Within n → P m) ∧ EachOp P ops := by
  simp [EachOp]

theorem within_mk_iff {h : Head} {rs : List RegionTree} :
    (∀ m, m.Within (.mk h rs) → P m) ↔ P (.mk h rs) ∧ ∀ r ∈ rs, Everywhere P r.blocks := by
  simp only [OpTree.within_mk, Everywhere]
  constructor
  · exact fun h => ⟨h _ (.inl rfl), fun r hr m hm => h m (.inr ⟨r, hr, hm⟩)⟩
  · rintro ⟨h, h'⟩ m (rfl | ⟨r, hr, hm⟩)
    · exact h
    · exact h' r hr m hm

theorem Everywhere.eachOp (h : Everywhere P Bs) (hB : B ∈ Bs) : EachOp P B.ops :=
  fun n hn m hm => h m ⟨B, hB, n, hn, hm⟩

/-- What is below an op of some blocks. -/
theorem Everywhere.below {r : RegionTree} (h : Everywhere P Bs) (hn : n.InBlocks Bs)
    (hr : r ∈ n.regions) : Everywhere P r.blocks :=
  fun _ hm => h _ (.deeper hr hm hn)

end

/-! ## Renaming -/

section

variable {ρ : Renaming} {P : OpTree → Prop}

variable {m : OpTree}

theorem OpTree.within_rename {n : OpTree} :
    m.Within (n.rename ρ) ↔ ∃ m₀ : OpTree, m₀.Within n ∧ m = m₀.rename ρ := by
  induction n using OpTree.induct generalizing m with
  | step h rs ih =>
    rw [rename_mk, within_mk]
    constructor
    · rintro (rfl | ⟨r', hr', B', hB', n', hn', hm⟩)
      · exact ⟨.mk h rs, .here, (rename_mk ρ h rs).symm⟩
      · obtain ⟨r, hr, rfl⟩ := List.mem_map.mp hr'
        obtain ⟨B, hB, rfl⟩ := List.mem_map.mp hB'
        obtain ⟨n, hn, rfl⟩ := List.mem_map.mp hn'
        obtain ⟨m₀, hm₀, rfl⟩ := (ih r hr B hB n hn).mp hm
        exact ⟨m₀, .deeper hr hB hn hm₀, rfl⟩
    · rintro ⟨m₀, hm₀, rfl⟩
      rcases within_mk.mp hm₀ with rfl | ⟨r, hr, B, hB, n, hn, hm₀⟩
      · exact .inl (rename_mk ρ h rs)
      · exact .inr ⟨r.rename ρ, List.mem_map_of_mem hr, B.rename ρ, List.mem_map_of_mem hB,
          n.rename ρ, List.mem_map_of_mem hn, (ih r hr B hB n hn).mpr ⟨m₀, hm₀, rfl⟩⟩

variable {Bs : List BlockTree}

theorem OpTree.inBlocks_rename : m.InBlocks (Bs.map (BlockOf.rename ρ)) ↔
      ∃ m₀ : OpTree, m₀.InBlocks Bs ∧ m = m₀.rename ρ := by
  constructor
  · rintro ⟨B', hB', n', hn', hm⟩
    obtain ⟨B, hB, rfl⟩ := List.mem_map.mp hB'
    obtain ⟨n, hn, rfl⟩ := List.mem_map.mp hn'
    obtain ⟨m₀, hm₀, rfl⟩ := within_rename.mp hm
    exact ⟨m₀, ⟨B, hB, n, hn, hm₀⟩, rfl⟩
  · rintro ⟨m₀, ⟨B, hB, n, hn, hm₀⟩, rfl⟩
    exact ⟨B.rename ρ, List.mem_map_of_mem hB, n.rename ρ, List.mem_map_of_mem hn,
      within_rename.mpr ⟨m₀, hm₀, rfl⟩⟩

theorem everywhere_rename :
    Everywhere P (Bs.map (BlockOf.rename ρ)) ↔ Everywhere (fun n => P (n.rename ρ)) Bs := by
  constructor
  · exact fun h n hn => h _ (OpTree.inBlocks_rename.mpr ⟨n, hn, rfl⟩)
  · intro h m hm
    obtain ⟨n, hn, rfl⟩ := OpTree.inBlocks_rename.mp hm
    exact h n hn

theorem eachOp_rename {ops : List OpTree} :
    EachOp P (ops.map (OpTree.rename ρ)) ↔ EachOp (fun n => P (n.rename ρ)) ops := by
  constructor
  · exact fun h n hn m hm =>
      h _ (List.mem_map_of_mem hn) _ (OpTree.within_rename.mpr ⟨m, hm, rfl⟩)
  · intro h n' hn' m' hm'
    obtain ⟨n, hn, rfl⟩ := List.mem_map.mp hn'
    obtain ⟨m, hm, rfl⟩ := OpTree.within_rename.mp hm'
    exact h n hn m hm

end

end Unnest
