import Unnest.Proofs.Tables
import Unnest.Proofs.Tree.Reading
import Unnest.Proofs.Tree.Rename
/-!
# The clone of a region

A clone is the tree of the region under other names. While it is made, the clone map notes for
every node copied so far the name of its copy; the names of the copied regions are not noted there,
so the proof keeps them beside it. `Notes` says which nodes have been copied and which are the
copies. The first pass gives the new names to the nodes themselves, the second to what they use.
-/

namespace Unnest

/-! ## Names -/

/-- The names of ops, blocks, regions and values. -/
abbrev Names := Multiset OpId × Multiset BlockId × Multiset RegionId × Multiset ValueId

/-- An op with its results. -/
def Names.ofOp (id : OpId) (results : List ValueId) : Names := ({id}, 0, 0, ↑results)

/-- A block with its arguments. -/
def Names.ofBlock (id : BlockId) (args : List ValueId) : Names := (0, {id}, 0, ↑args)

/-- Names of regions only. -/
def Names.ofRegions (ids : List RegionId) : Names := (0, 0, ↑ids, 0)

@[simp] theorem Names.ofRegions_nil : ofRegions [] = 0 := rfl

theorem Names.ofRegions_cons (id : RegionId) (ids : List RegionId) :
    ofRegions (id :: ids) = ofRegions [id] + ofRegions ids := by
  simp [ofRegions]

/-- No name comes twice. -/
def Names.Nodup (N : Names) : Prop :=
  N.1.Nodup ∧ N.2.1.Nodup ∧ N.2.2.1.Nodup ∧ N.2.2.2.Nodup

variable {N N' : Names}

theorem Names.Nodup.left (h : (N + N').Nodup) : N.Nodup :=
  ⟨(Multiset.nodup_add.mp h.1).1, (Multiset.nodup_add.mp h.2.1).1,
    (Multiset.nodup_add.mp h.2.2.1).1, (Multiset.nodup_add.mp h.2.2.2).1⟩

theorem Names.Nodup.as (h : N.Nodup) (hN : N = N') : N'.Nodup := hN ▸ h

namespace Entries

/-- The names that entries are about. -/
def names (e : Entries) : Names :=
  (e.1.map Prod.fst, e.2.1.map Prod.fst, e.2.2.1.map Prod.fst, e.2.2.2.map Prod.fst)

@[simp] theorem names_add (e e' : Entries) : (e + e').names = e.names + e'.names := by
  simp [names]

@[simp] theorem names_zero : (0 : Entries).names = 0 := rfl

@[simp] theorem names_sum (l : List Entries) : l.sum.names = (l.map names).sum := by
  induction l with
  | nil => rfl
  | cons e l ih => simp [ih]

@[simp] theorem names_op (id : OpId) (d : Op) : (op id d).names = .ofOp id d.results := by
  simp [names, Names.ofOp, op, resultsOf, List.map_map, Function.comp_def]

@[simp] theorem names_block (id : BlockId) (d : Block) :
    (block id d).names = .ofBlock id d.args := by
  simp [names, Names.ofBlock, block, argsOf, List.map_map, Function.comp_def]

@[simp] theorem names_region (id : RegionId) (d : Region) :
    (region id d).names = .ofRegions [id] := rfl

end Entries

variable {f : Func} {e : Entries}

theorem Arena.names_nodup (h : Arena f e) : e.names.Nodup :=
  ⟨h.ops.nodup, h.blocks.nodup, h.regions.nodup, h.values.nodup⟩

theorem layout_names (l : List BlockTree) (r r' : Option RegionId) :
    (layout r l).names = (layout r' l).names := by
  induction l with
  | nil => rfl
  | cons B l ih =>
    simp only [layout_cons, Entries.names_add, ih, BlockOf.entries_eq, Entries.names_block]
    rfl

/-! ## What the clone map notes -/

/-- Pairs whose first parts are the names of `A` and whose second parts are those of `A'`. -/
structure Pairs {κ : Type} (l : List (κ × κ)) (A A' : Multiset κ) : Prop where
  old : (↑(l.map Prod.fst) : Multiset κ) = A
  new : (↑(l.map Prod.snd) : Multiset κ) = A'

variable {κ : Type}

theorem Pairs.append {l l' : List (κ × κ)} {A A' C C' : Multiset κ} (h : Pairs l A A')
    (h' : Pairs l' C C') : Pairs (l ++ l') (A + C) (A' + C') :=
  ⟨by rw [List.map_append, ← Multiset.coe_add, h.old, h'.old],
    by rw [List.map_append, ← Multiset.coe_add, h.new, h'.new]⟩

theorem Pairs.zip {l l' : List κ} (h : l.length = l'.length) : Pairs (l.zip l') l l' :=
  ⟨by rw [List.map_fst_zip h.le], by rw [List.map_snd_zip h.ge]⟩

/-- The copies of `N` are `N'`, as noted in `m` and, for the regions, in `rs`. Ops and values of the
copies are new since `f₀`, and a value has the type of the one it was copied from. -/
structure Notes (f₀ f : Func) (m : CloneMap) (rs : List (RegionId × RegionId)) (N N' : Names) :
    Prop where
  ops : Pairs m.ops.entries N.1 N'.1
  blocks : Pairs m.blocks.entries N.2.1 N'.2.1
  regions : Pairs rs N.2.2.1 N'.2.2.1
  values : Pairs m.values.entries N.2.2.2 N'.2.2.2
  freshOps : ∀ p ∈ m.ops.entries, f₀.ops.size ≤ p.2.index
  freshValues : ∀ p ∈ m.values.entries, f₀.values.size ≤ p.2.index
  types : ∀ p ∈ m.values.entries, SameType f₀ f p.1 p.2
  grows : f₀.GrowsTo f

/-- The pairs noted before are still noted. -/
structure CloneMap.Extends (m m' : CloneMap) (rs rs' : List (RegionId × RegionId)) : Prop where
  ops : m.ops.entries ⊆ m'.ops.entries
  blocks : m.blocks.entries ⊆ m'.blocks.entries
  regions : rs ⊆ rs'
  values : m.values.entries ⊆ m'.values.entries

/-- A renaming that names the copies as noted. -/
structure Renaming.Follows (ρ : Renaming) (m : CloneMap) (rs : List (RegionId × RegionId)) :
    Prop where
  op : ∀ p ∈ m.ops.entries, ρ.op p.1 = p.2
  block : ∀ p ∈ m.blocks.entries, ρ.block p.1 = p.2
  region : ∀ p ∈ rs, ρ.region p.1 = p.2
  result : ∀ p ∈ m.values.entries, ρ.result p.1 = p.2

/-- A renaming of the nodes themselves. -/
def Renaming.defs (ρ : Renaming) : Renaming :=
  { ρ with use := fun v => v, target := fun b => b }

section

variable {f₀ f f' : Func} {m m' m'' : CloneMap} {rs rs' rs'' : List (RegionId × RegionId)}
  {N N' : Names} {ρ : Renaming}

theorem CloneMap.Extends.refl (m : CloneMap) (rs : List (RegionId × RegionId)) :
    m.Extends m rs rs := ⟨List.Subset.refl _, List.Subset.refl _, List.Subset.refl _,
      List.Subset.refl _⟩

theorem CloneMap.Extends.trans (h : m.Extends m' rs rs') (h' : m'.Extends m'' rs' rs'') :
    m.Extends m'' rs rs'' :=
  ⟨List.Subset.trans h.ops h'.ops, List.Subset.trans h.blocks h'.blocks,
    List.Subset.trans h.regions h'.regions, List.Subset.trans h.values h'.values⟩

theorem Renaming.Follows.anti (h : ρ.Follows m' rs') (hm : m.Extends m' rs rs') : ρ.Follows m rs :=
  ⟨fun p hp => h.op p (hm.ops hp), fun p hp => h.block p (hm.blocks hp),
    fun p hp => h.region p (hm.regions hp), fun p hp => h.result p (hm.values hp)⟩

theorem Notes.mono (h : Notes f₀ f m rs N N') (g : f.GrowsTo f') : Notes f₀ f' m rs N N' :=
  { h with types := fun p hp => (h.types p hp).mono (.refl f₀) g, grows := h.grows.trans g }

theorem Notes.as {C C' : Names} (h : Notes f₀ f m rs N N') (hN : N = C) (hN' : N' = C') :
    Notes f₀ f m rs C C' := hN ▸ hN' ▸ h

/-- Pairs that are entered under keys not used before come at the end. -/
theorem Pairs.insertAll {κ : Type} [DecidableEq κ] {t : Table κ κ} {A A' : Multiset κ}
    {l l' : List κ}
    (h : Pairs t.entries A A') (hl : l.length = l'.length) (hn : (A + ↑l).Nodup) :
    (t.insertAll (l.zip l')).entries = t.entries ++ l.zip l' := by
  refine t.entries_insertAll _ ?_
  rw [List.map_fst_zip hl.le]
  rw [← h.old, Multiset.coe_add] at hn
  exact hn

theorem Notes.addOp {op : OpId} (copy : OpId) {results results' : List ValueId}
    {regions regions' : List RegionId} (h : Notes f₀ f m rs N N')
    (hN : (N + (.ofOp op results + .ofRegions regions) : Names).Nodup)
    (hq : regions.length = regions'.length)
    (ho : f₀.ops.size ≤ copy.index) (hv : ∀ v ∈ results', f₀.values.size ≤ v.index)
    (hty : List.Forall₂ (SameType f₀ f) results results') :
    Notes f₀ f ((m.addOp op copy).addValues results results') (rs ++ regions.zip regions')
      (N + (.ofOp op results + .ofRegions regions))
      (N' + (.ofOp copy results' + .ofRegions regions')) ∧
    m.Extends ((m.addOp op copy).addValues results results') rs (rs ++ regions.zip regions') ∧
    ∀ ρ : Renaming, ρ.Follows ((m.addOp op copy).addValues results results')
      (rs ++ regions.zip regions') →
      ρ.op op = copy ∧ results.map ρ.result = results' ∧ regions.map ρ.region = regions' := by
  simp only [Names.ofOp, Names.ofRegions, Prod.mk_add_mk, add_zero, zero_add] at hN ⊢
  have hops : (m.ops.insert op copy).entries = m.ops.entries ++ [(op, copy)] := by
    refine m.ops.entries_insert copy fun hm => ?_
    have := hN.1
    simp only [Prod.fst_add, ← h.ops.old] at this
    exact (Multiset.disjoint_left.mp (Multiset.nodup_add.mp this).2.2) hm (by simp)
  have hvals := h.values.insertAll hty.length_eq hN.2.2.2
  refine ⟨⟨?_, ?_, h.regions.append (.zip hq), ?_, ?_, ?_, ?_, h.grows⟩, ⟨?_, ?_, ?_, ?_⟩,
    fun ρ hρ => ⟨hρ.op (op, copy) ?_, map_eq_of_zip hty.length_eq fun p hp => hρ.result p ?_,
      map_eq_of_zip hq fun p hp => hρ.region p ?_⟩⟩
  · simp only [CloneMap.addValues, CloneMap.addOp, hops]
    exact h.ops.append ⟨rfl, rfl⟩
  · simpa [CloneMap.addValues, CloneMap.addOp] using h.blocks
  · simp only [CloneMap.addValues, CloneMap.addOp, hvals]
    exact h.values.append (.zip hty.length_eq)
  · simp only [CloneMap.addValues, CloneMap.addOp, hops]
    intro p hp
    rcases List.mem_append.mp hp with hp | hp
    · exact h.freshOps p hp
    · obtain rfl := List.mem_singleton.mp hp
      exact ho
  · simp only [CloneMap.addValues, CloneMap.addOp, hvals]
    intro p hp
    rcases List.mem_append.mp hp with hp | hp
    · exact h.freshValues p hp
    · exact hv _ (List.of_mem_zip hp).2
  · simp only [CloneMap.addValues, CloneMap.addOp, hvals]
    intro p hp
    rcases List.mem_append.mp hp with hp | hp
    · exact h.types p hp
    · exact (List.forall₂_iff_zip.mp hty).2 hp
  · simp [CloneMap.addValues, CloneMap.addOp, hops]
  · simp [CloneMap.addValues, CloneMap.addOp]
  · simp
  · simp [CloneMap.addValues, CloneMap.addOp, hvals]
  · simp [CloneMap.addValues, CloneMap.addOp, hops]
  · simp [CloneMap.addValues, CloneMap.addOp, hvals, hp]
  · simp [hp]

theorem Notes.addBlock {block : BlockId} (copy : BlockId) {args args' : List ValueId}
    (h : Notes f₀ f m rs N N') (hN : (N + .ofBlock block args : Names).Nodup)
    (hv : ∀ v ∈ args', f₀.values.size ≤ v.index) (hty : List.Forall₂ (SameType f₀ f) args args') :
    Notes f₀ f ((m.addBlock block copy).addValues args args') rs (N + .ofBlock block args)
      (N' + .ofBlock copy args') ∧
    m.Extends ((m.addBlock block copy).addValues args args') rs rs ∧
    ∀ ρ : Renaming, ρ.Follows ((m.addBlock block copy).addValues args args') rs →
      ρ.block block = copy ∧ args.map ρ.result = args' := by
  simp only [Names.ofBlock] at hN ⊢
  have hblocks : (m.blocks.insert block copy).entries = m.blocks.entries ++ [(block, copy)] := by
    refine m.blocks.entries_insert copy fun hm => ?_
    have := hN.2.1
    simp only [Prod.snd_add, Prod.fst_add, ← h.blocks.old] at this
    exact (Multiset.disjoint_left.mp (Multiset.nodup_add.mp this).2.2) hm (by simp)
  have hvals := h.values.insertAll hty.length_eq hN.2.2.2
  refine ⟨⟨?_, ?_, ?_, ?_, ?_, ?_, ?_, h.grows⟩, ⟨?_, ?_, ?_, ?_⟩, fun ρ hρ =>
    ⟨hρ.block (block, copy) ?_, map_eq_of_zip hty.length_eq fun p hp => hρ.result p ?_⟩⟩
  · simpa [CloneMap.addValues, CloneMap.addBlock] using h.ops
  · simp only [CloneMap.addValues, CloneMap.addBlock, hblocks]
    exact h.blocks.append ⟨rfl, rfl⟩
  · simpa using h.regions
  · simp only [CloneMap.addValues, CloneMap.addBlock, hvals]
    exact h.values.append (.zip hty.length_eq)
  · simpa [CloneMap.addValues, CloneMap.addBlock] using h.freshOps
  · simp only [CloneMap.addValues, CloneMap.addBlock, hvals]
    intro p hp
    rcases List.mem_append.mp hp with hp | hp
    · exact h.freshValues p hp
    · exact hv _ (List.of_mem_zip hp).2
  · simp only [CloneMap.addValues, CloneMap.addBlock, hvals]
    intro p hp
    rcases List.mem_append.mp hp with hp | hp
    · exact h.types p hp
    · exact (List.forall₂_iff_zip.mp hty).2 hp
  · simp [CloneMap.addValues, CloneMap.addBlock]
  · simp [CloneMap.addValues, CloneMap.addBlock, hblocks]
  · simp
  · simp [CloneMap.addValues, CloneMap.addBlock, hvals]
  · simp [CloneMap.addValues, CloneMap.addBlock, hblocks]
  · simp [CloneMap.addValues, CloneMap.addBlock, hvals, hp]

end

/-! ## Types of values -/

/-- The values exist and are of the given types. -/
def Typed (f : Func) (vs : List ValueId) (tys : List Ty) : Prop :=
  List.Forall₂ (fun v ty => ∃ o, f.value? v = some ⟨ty, o⟩) vs tys

section

variable {f₀ f f' : Func} {vs vs' : List ValueId} {tys : List Ty}

theorem valueTys (vs : List ValueId) (h : ∀ v ∈ vs, f.value? v ≠ none) :
    ∃ tys, vs.mapM Edit.valueTy f = .ok tys f ∧ Typed f vs tys := by
  induction vs with
  | nil => exact ⟨[], rfl, .nil⟩
  | cons v vs ih =>
    obtain ⟨tys, htys, hty⟩ := ih fun u hu => h u (by simp [hu])
    obtain ⟨⟨ty, o⟩, hd⟩ := Option.ne_none_iff_exists'.mp (h v (by simp))
    refine ⟨ty :: tys, ?_, .cons ⟨o, hd⟩ hty⟩
    rw [List.mapM_cons]
    change EStateM.bind _ _ f = _
    rw [EStateM.bind, valueTy_eq hd]
    change EStateM.bind _ _ f = _
    rw [EStateM.bind, htys]
    rfl

/-- New values have the types they were made with. -/
theorem Typed.fresh {o : Nat → Origin}
    (g : f.Grows f' (tys.zipIdx.map fun p => ⟨p.1, o p.2⟩)) :
    Typed f' (f.freshValues tys.length) tys := by
  refine List.forall₂_iff_get.mpr ⟨by simp [Func.freshValues], fun i h₁ h₂ => ⟨o i, ?_⟩⟩
  simp [Func.freshValues, Func.value?, g.values, h₂]

theorem Typed.sameType (h : Typed f vs tys) (h' : Typed f' vs' tys) (g : f₀.GrowsTo f) :
    List.Forall₂ (SameType f₀ f') vs vs' := by
  induction h generalizing vs' with
  | nil => cases h'; exact .nil
  | cons hv _ ih =>
    cases h' with
    | cons hv' h' =>
      obtain ⟨o, hv⟩ := hv
      obtain ⟨o', hv'⟩ := hv'
      refine .cons (fun d hd => ⟨_, hv', ?_⟩) (ih h')
      rw [g.value?_of_some hd] at hv
      cases hv
      rfl

end

/-! ## The first pass -/

/-- The nodes `C` have been copied to `C'`, and `P` holds of every renaming that names the copies as
they are. -/
structure Copied (f₀ f f' : Func) (m m' : CloneMap) (rs rs' : List (RegionId × RegionId))
    (N N' C C' : Names) (P : Renaming → Prop) : Prop where
  notes : Notes f₀ f' m' rs' (N + C) (N' + C')
  keeps : m.Extends m' rs rs'
  named : ∀ ρ : Renaming, ρ.Follows m' rs' → P ρ
  grows : f.GrowsTo f'

/-- `copy` copies what a region holds. -/
def CopiesRegion (stop : Prop) (f₀ : Func)
    (copy : CloneMap → RegionId × RegionId → Edit CloneMap) (r : RegionTree) : Prop :=
  ∀ ⦃f : Func⦄ ⦃m : CloneMap⦄ ⦃rs : List (RegionId × RegionId)⦄ ⦃N N' : Names⦄ ⦃e : Entries⦄
    ⦃o o' : Option OpId⦄ ⦃into : RegionId⦄, Notes f₀ f m rs N N' →
    (N + (layout none r.blocks).names).Nodup →
    Arena f (r.entries o + (.region into ⟨[], o'⟩ + e)) →
    Meets stop (copy m (r.id, into)) f fun m' f' => ∃ rs' Bs',
      Copied f₀ f f' m m' rs rs' N N' (layout none r.blocks).names (layout none Bs').names
        (fun ρ => Bs' = r.blocks.map (BlockOf.rename ρ.defs)) ∧
      Arena f' (r.entries o + (RegionOf.entries o' ⟨into, Bs'⟩ + e))

/-- The names below some regions. -/
def below (l : List RegionTree) : Names := (l.map fun r => (layout none r.blocks).names).sum

section

variable {stop : Prop} {f₀ f : Func} {m : CloneMap} {rs : List (RegionId × RegionId)}
  {N N' : Names} {e : Entries} {copy : CloneMap → RegionId × RegionId → Edit CloneMap}

variable {l : List RegionTree}

theorem CopiesRegion.all {o o' : Option OpId} {ids : List RegionId}
    (hc : ∀ r ∈ l, CopiesRegion stop f₀ copy r) (hl : l.length = ids.length)
    (hm : Notes f₀ f m rs N N') (hN : (N + below l).Nodup)
    (h : Arena f ((l.map (RegionOf.entries o)).sum +
      ((ids.map fun q => .region q ⟨[], o'⟩).sum + e))) :
    Meets stop (((l.map (·.id)).zip ids).foldlM copy m) f fun m' f' => ∃ rs' l',
      l'.map (·.id) = ids ∧ Copied f₀ f f' m m' rs rs' N N' (below l) (below l')
        (fun ρ => l'.map (·.blocks) = l.map fun r => r.blocks.map (BlockOf.rename ρ.defs)) ∧
      Arena f' ((l.map (RegionOf.entries o)).sum + ((l'.map (RegionOf.entries o')).sum + e)) := by
  induction l generalizing f m rs N N' ids e with
  | nil =>
    obtain rfl := List.length_eq_zero_iff.mp hl.symm
    exact .pure ⟨rs, [], rfl, ⟨hm.as (by simp [below]) (by simp [below]), .refl m rs, by simp,
      .refl f⟩, h⟩
  | cons r l ih =>
    cases ids with
    | nil => simp at hl
    | cons q ids =>
      have hbelow : below (r :: l) = (layout none r.blocks).names + below l := by simp [below]
      rw [hbelow] at hN
      have h₀ := h.as (d := r.entries o + (.region q ⟨[], o'⟩ +
        ((l.map (RegionOf.entries o)).sum + ((ids.map fun q => .region q ⟨[], o'⟩).sum + e))))
        (by simp only [List.map_cons, List.sum_cons]; abel)
      have hN₀ : (N + (layout none r.blocks).names).Nodup :=
        Names.Nodup.left (hN.as (add_assoc _ _ _).symm)
      rw [List.map_cons, List.zip_cons_cons, List.foldlM_cons]
      refine .bind (hc r (by simp) hm hN₀ h₀) ?_
      rintro m₁ f₁ ⟨rs₁, Bs', hcop, h₁⟩
      have h₁' := h₁.as (d := (l.map (RegionOf.entries o)).sum +
        ((ids.map fun q => .region q ⟨[], o'⟩).sum +
          (r.entries o + (RegionOf.entries o' ⟨q, Bs'⟩ + e)))) (by abel)
      refine (ih (fun r' hr' => hc r' (by simp [hr'])) (by simpa using hl) hcop.notes
        (hN.as (add_assoc _ _ _).symm) h₁').mono ?_
      rintro m₂ f₂ ⟨rs₂, l', hids, hcop', h₂⟩
      refine ⟨rs₂, ⟨q, Bs'⟩ :: l', by simp [hids], ⟨hcop'.notes.as ?_ ?_,
            hcop.keeps.trans hcop'.keeps, fun ρ hρ => ?_, hcop.grows.trans hcop'.grows⟩, h₂.as ?_⟩
      · rw [hbelow, add_assoc]
      · simp [below, add_assoc]
      · simp [← hcop'.named ρ hρ, ← hcop.named ρ (hρ.anti hcop'.keeps)]
      · simp only [List.map_cons, List.sum_cons]
        abel

theorem sum_names_regions (l : List RegionTree) (o : Option OpId) :
    (l.map (RegionOf.entries o)).sum.names = .ofRegions (l.map (·.id)) + below l := by
  induction l with
  | nil => rfl
  | cons r l ih =>
    have hb : below (r :: l) = (layout none r.blocks).names + below l := by simp [below]
    rw [List.map_cons, List.sum_cons, Entries.names_add, ih, RegionOf.entries_eq,
      Entries.names_add, Entries.names_region, layout_names r.blocks (some r.id) none, hb,
      List.map_cons, Names.ofRegions_cons r.id (l.map (·.id))]
    abel

theorem OpTree.names_eq (n : OpTree) (b : BlockId) : (n.entries b).names =
    .ofOp n.id n.head.results + .ofRegions (n.regions.map (·.id)) + below n.regions := by
  rw [OpTree.entries_eq, Entries.names_add, Entries.names_op, OpTree.inner, sum_names_regions,
    add_assoc]
  rfl

theorem regions_ext {l' : List RegionTree} (hi : l.map (·.id) = l'.map (·.id))
    (hb : l.map (·.blocks) = l'.map (·.blocks)) : l = l' := by
  induction l generalizing l' with
  | nil => simpa using hi.symm
  | cons r l ih =>
    cases l' with
    | nil => simp at hi
    | cons r' l' =>
      obtain ⟨q, Bs⟩ := r
      obtain ⟨q', Bs'⟩ := r'
      simp only [List.map_cons, List.cons.injEq] at hi hb
      rw [hi.1, hb.1, ih hi.2 hb.2]

variable {b : BlockId} {blk : Block}

/-- An op is copied to the end of a block. -/
theorem Arena.copyOp {n : OpTree} {into : BlockId}
    (hc : ∀ r ∈ n.regions, CopiesRegion stop f₀ copy r) (hm : Notes f₀ f m rs N N')
    (hN : (N + (n.entries b).names).Nodup) (h : Arena f (n.entries b + (.block into blk + e))) :
    Meets stop (Edit.copyOp copy into m n.id) f fun m' f' => ∃ rs' n',
      Copied f₀ f f' m m' rs rs' N N' (n.entries b).names (n'.entries into).names
        (fun ρ => n' = n.rename ρ.defs) ∧
      Arena f' (n.entries b + (.block into { blk with ops := blk.ops ++ [n'.id] } +
        (n'.entries into + e))) := by
  have hop := h.as (d := .op n.id (n.toOp b) + (n.inner + (.block into blk + e)))
    (by rw [OpTree.entries_eq, add_assoc])
  refine .step hop.getOp ?_
  simp only [OpTree.toOp]
  obtain ⟨tys, htys, hty⟩ := valueTys n.head.results hop.results_exist
  refine .step htys ?_
  refine .bind (Meets.and hop.createOp Arena.createOp_id) ?_
  rintro new f₁ ⟨⟨h₁, g₁⟩, hid⟩
  have h₁' := h₁.as (d := .op new _ + (((f.freshRegions n.regions.length).map fun q =>
    .region q ⟨[], some new⟩).sum + (n.entries b + (.block into blk + e))))
    (by rw [OpTree.entries_eq, List.length_map]; simp only [OpTree.toOp]; abel)
  refine .bind (h₁'.modifyOp rfl) ?_
  rintro _ f₂ ⟨h₂, g₂⟩
  refine .step h₂.getOp ?_
  have hlen : n.regions.length = (f.freshRegions n.regions.length).length := by
    simp [Func.freshRegions]
  have g : f.GrowsTo f₂ := g₁.growsTo.trans g₂.growsTo
  have hty₂ : List.Forall₂ (SameType f₀ f₂) n.head.results (f.freshValues tys.length) :=
    (hty.sameType (.fresh g₁) hm.grows).imp fun _ _ h => h.mono (.refl f₀) g₂.growsTo
  have hnew : ∀ v ∈ f.freshValues tys.length, f₀.values.size ≤ v.index := by
    intro v hv
    obtain ⟨i, -, rfl⟩ := List.mem_map.mp hv
    exact hm.grows.size_le.trans (Nat.le_add_right _ _)
  rw [OpTree.names_eq, ← add_assoc] at hN
  obtain ⟨hm₂, hext₂, hnames₂⟩ := (hm.mono g).addOp new
    (Names.Nodup.left hN) (by simpa using hlen) (by rw [hid]; exact hm.grows.ops_le) hnew hty₂
  have h₂' := h₂.as (d := (n.regions.map (RegionOf.entries (some n.id))).sum +
    (((f.freshRegions n.regions.length).map fun q => .region q ⟨[], some new⟩).sum +
      (.op new ⟨n.kind, n.head.operands, f.freshValues tys.length,
        f.freshRegions n.regions.length, none, n.head.span, true⟩ +
        (.op n.id (n.toOp b) + (.block into blk + e)))))
    (by rw [OpTree.entries_eq, OpTree.inner]; simp only; abel)
  refine .bind (CopiesRegion.all hc hlen hm₂ hN h₂') ?_
  rintro m₃ f₃ ⟨rs₃, l', hids, hcop, h₃⟩
  have h₃' := h₃.as (d := .op new ⟨n.kind, n.head.operands, f.freshValues tys.length,
    f.freshRegions n.regions.length, none, n.head.span, true⟩ + (.block into blk +
      (n.entries b + ((l'.map (RegionOf.entries (some new))).sum + e))))
    (by rw [OpTree.entries_eq, OpTree.inner]; abel)
  refine .bind h₃'.appendOp ?_
  rintro _ f₄ ⟨h₄, g₄⟩
  refine .pure ?_
  refine ⟨rs₃, .mk ⟨new, n.kind, n.head.operands, f.freshValues tys.length, n.head.span⟩ l',
    ⟨(hcop.notes.mono g₄.growsTo).as ?_ ?_, hext₂.trans hcop.keeps, fun ρ hρ => ?_,
      (g.trans hcop.grows).trans g₄.growsTo⟩, h₄.as ?_⟩
  · rw [OpTree.names_eq, add_assoc, add_assoc]
  · rw [OpTree.names_eq, OpTree.regions_mk, hids]
    simp only [OpTree.id_mk, OpTree.head_mk]
    abel
  · obtain ⟨hop, hres, hreg⟩ := hnames₂ ρ (hρ.anti hcop.keeps)
    have hblocks := hcop.named ρ hρ
    have hl' : l' = n.regions.map (RegionOf.rename ρ.defs) := by
      refine regions_ext ?_ (hblocks.trans ?_)
      · rw [hids, ← hreg, List.map_map, List.map_map]
        rfl
      · rw [List.map_map]
        rfl
    obtain ⟨h, l⟩ := n
    rw [OpTree.rename_mk, hl']
    simp only [OpTree.regions_mk, OpTree.head_mk, OpTree.kind_mk, OpTree.id_mk] at hop hres ⊢
    simp [Head.rename, Renaming.defs, hop, hres]
  · simp only [OpTree.entries_eq, OpTree.inner, OpTree.toOp, OpTree.id_mk, OpTree.kind_mk,
      OpTree.head_mk, OpTree.regions_mk, hids]
    abel

theorem Arena.copyOps {l : List OpTree} {into : BlockId}
    (hc : ∀ n ∈ l, ∀ r ∈ n.regions, CopiesRegion stop f₀ copy r) (hm : Notes f₀ f m rs N N')
    (hN : (N + (nodes b l).names).Nodup) (h : Arena f (nodes b l + (.block into blk + e))) :
    Meets stop ((l.map (·.id)).foldlM (Edit.copyOp copy into) m) f fun m' f' => ∃ rs' l',
      Copied f₀ f f' m m' rs rs' N N' (nodes b l).names (nodes into l').names
        (fun ρ => l' = l.map (OpTree.rename ρ.defs)) ∧
      Arena f' (nodes b l + (.block into { blk with ops := blk.ops ++ l'.map (·.id) } +
        (nodes into l' + e))) := by
  induction l generalizing f m rs N N' blk e with
  | nil =>
    exact .pure ⟨rs, [], ⟨hm.as (by simp) (by simp), .refl m rs, by simp, .refl f⟩,
      by simpa using h⟩
  | cons n l ih =>
    rw [nodes_cons, Entries.names_add, ← add_assoc] at hN
    have h₀ := h.as (d := n.entries b + (.block into blk + (nodes b l + e)))
      (by rw [nodes_cons]; abel)
    rw [List.map_cons, List.foldlM_cons]
    refine .bind (h₀.copyOp (hc n (by simp)) hm hN.left) ?_
    rintro m₁ f₁ ⟨rs₁, n', hcop, h₁⟩
    have h₁' := h₁.as (d := nodes b l + (.block into { blk with ops := blk.ops ++ [n'.id] } +
      (n.entries b + (n'.entries into + e)))) (by abel)
    refine (ih (fun n' hn' => hc n' (by simp [hn'])) hcop.notes hN h₁').mono ?_
    rintro m₂ f₂ ⟨rs₂, l', hcop', h₂⟩
    refine ⟨rs₂, n' :: l', ⟨hcop'.notes.as ?_ ?_,
        hcop.keeps.trans hcop'.keeps, fun ρ hρ => ?_, hcop.grows.trans hcop'.grows⟩, h₂.as ?_⟩
    · rw [nodes_cons, Entries.names_add, add_assoc]
    · rw [nodes_cons, Entries.names_add, add_assoc]
    · rw [List.map_cons, ← hcop'.named ρ hρ, ← hcop.named ρ (hρ.anti hcop'.keeps)]
    · simp only [nodes_cons, List.map_cons, List.append_assoc, List.singleton_append]
      abel

variable {B : BlockTree}

/-- A block is copied. -/
theorem Arena.copyBlock {r : Option RegionId}
    (hc : ∀ n ∈ B.ops, ∀ r ∈ n.regions, CopiesRegion stop f₀ copy r) (hm : Notes f₀ f m rs N N')
    (hN : (N + (B.entries r).names).Nodup) (h : Arena f (B.entries r + e)) :
    Meets stop (Edit.copyBlock copy m B.id) f fun a f' => ∃ rs' B', a.1 = B'.id ∧
      Copied f₀ f f' m a.2 rs rs' N N' (B.entries r).names (B'.entries none).names
        (fun ρ => B' = B.rename ρ.defs) ∧
      Arena f' (B.entries r + (B'.entries none + e)) := by
  have h₀ := h.as (d := .block B.id (B.toBlock r) + (nodes B.id B.ops + e))
    (by rw [BlockOf.entries_eq, add_assoc])
  refine .step h₀.getBlock ?_
  simp only [BlockOf.toBlock]
  obtain ⟨tys, htys, hty⟩ := valueTys B.args h₀.args_exist
  refine .step htys (.bind h₀.newBlock ?_)
  rintro new f₁ ⟨h₁, g₁⟩
  refine .step h₁.getBlock ?_
  have hty₁ : List.Forall₂ (SameType f₀ f₁) B.args (f.freshValues tys.length) :=
    hty.sameType (.fresh g₁) hm.grows
  have hnew : ∀ v ∈ f.freshValues tys.length, f₀.values.size ≤ v.index := by
    intro v hv
    obtain ⟨i, -, rfl⟩ := List.mem_map.mp hv
    exact hm.grows.size_le.trans (Nat.le_add_right _ _)
  rw [BlockOf.entries_eq, Entries.names_add, ← add_assoc, Entries.names_block] at hN
  obtain ⟨hm₁, hext₁, hnames₁⟩ := (hm.mono g₁.growsTo).addBlock new hN.left hnew hty₁
  have h₁' := h₁.as (d := .block B.id (B.toBlock r) + (nodes B.id B.ops +
    (.block new { args := f.freshValues tys.length } + e))) (by abel)
  refine .step h₁'.getBlock ?_
  have h₁'' := h₁'.as (d := nodes B.id B.ops + (.block new { args := f.freshValues tys.length } +
    (.block B.id (B.toBlock r) + e))) (by abel)
  refine .bind (h₁''.copyOps hc hm₁ hN) ?_
  rintro m₂ f₂ ⟨rs₂, l', hcop, h₂⟩
  refine .pure ?_
  refine ⟨rs₂, ⟨new, f.freshValues tys.length, l'⟩, rfl, ⟨hcop.notes.as ?_ ?_,
    hext₁.trans hcop.keeps, fun ρ hρ => ?_, g₁.growsTo.trans hcop.grows⟩, h₂.as ?_⟩
  · rw [BlockOf.entries_eq, Entries.names_add, Entries.names_block, add_assoc]
  · rw [BlockOf.entries_eq, Entries.names_add, Entries.names_block, add_assoc]
    rfl
  · obtain ⟨hb, ha⟩ := hnames₁ ρ (hρ.anti hcop.keeps)
    have ha : B.args.map ρ.result = f.freshValues tys.length := ha
    rw [BlockOf.rename, hcop.named ρ hρ]
    simp [Renaming.defs, hb, ha]
  · simp only [BlockOf.entries_eq, BlockOf.toBlock, List.nil_append]
    abel

variable {into : RegionId} {q : Option RegionId} {reg : Region}

/-- A block is copied to the end of a region. -/
theorem Arena.copyBlockInto (hc : ∀ n ∈ B.ops, ∀ r ∈ n.regions, CopiesRegion stop f₀ copy r)
    (hm : Notes f₀ f m rs N N') (hN : (N + (B.entries q).names).Nodup)
    (h : Arena f (B.entries q + (.region into reg + e))) : Meets stop (do
      let (copy, m) ← Edit.copyBlock copy m B.id
      Edit.appendBlock into copy
      return m) f fun m' f' => ∃ rs' B',
        Copied f₀ f f' m m' rs rs' N N' (B.entries q).names (B'.entries none).names
          (fun ρ => B' = B.rename ρ.defs) ∧
        Arena f' (B.entries q + (.region into { reg with blocks := reg.blocks ++ [B'.id] } +
          (B'.entries (some into) + e))) := by
  refine .bind (h.copyBlock hc hm hN) ?_
  rintro ⟨_, m₁⟩ f₁ ⟨rs₁, B', rfl, hcop, h₁⟩
  have h₁' := h₁.as (d := .block B'.id (B'.toBlock none) + (.region into reg +
    (nodes B'.id B'.ops + (B.entries q + e)))) (by rw [B'.entries_eq none]; abel)
  refine .bind h₁'.appendBlock ?_
  rintro _ f₂ ⟨h₂, g₂⟩
  refine .pure ⟨rs₁, B', ⟨hcop.notes.mono g₂.growsTo,
    hcop.keeps, hcop.named, hcop.grows.trans g₂.growsTo⟩, h₂.as ?_⟩
  rw [B'.entries_eq (some into)]
  simp only [BlockOf.toBlock]
  abel

variable {Bs : List BlockTree}

/-- Blocks are copied to the end of a region. -/
theorem Arena.copyInto (hc : ∀ B ∈ Bs, ∀ n ∈ B.ops, ∀ r ∈ n.regions, CopiesRegion stop f₀ copy r)
    (hm : Notes f₀ f m rs N N') (hN : (N + (layout q Bs).names).Nodup)
    (h : Arena f (layout q Bs + (.region into reg + e))) :
    Meets stop ((Bs.map (·.id)).foldlM (fun m block => do
      let (copy, m) ← Edit.copyBlock copy m block
      Edit.appendBlock into copy
      return m) m) f fun m' f' => ∃ rs' Bs',
        Copied f₀ f f' m m' rs rs' N N' (layout q Bs).names (layout none Bs').names
          (fun ρ => Bs' = Bs.map (BlockOf.rename ρ.defs)) ∧
        Arena f' (layout q Bs + (.region into { reg with blocks := reg.blocks ++ Bs'.map (·.id) } +
          (layout (some into) Bs' + e))) := by
  induction Bs generalizing f m rs N N' reg e with
  | nil =>
    exact .pure ⟨rs, [], ⟨hm.as (by simp) (by simp), .refl m rs, by simp, .refl f⟩,
      by simpa using h⟩
  | cons B Bs ih =>
    rw [layout_cons, Entries.names_add, ← add_assoc] at hN
    have h₀ := h.as (d := B.entries q + (.region into reg + (layout q Bs + e)))
      (by rw [layout_cons]; abel)
    rw [List.map_cons, List.foldlM_cons]
    refine .bind (h₀.copyBlockInto (hc B (by simp)) hm hN.left) ?_
    rintro m₁ f₁ ⟨rs₁, B', hcop, h₁⟩
    have h₁' := h₁.as (d := layout q Bs + (.region into { reg with
      blocks := reg.blocks ++ [B'.id] } + (B.entries q + (B'.entries (some into) + e)))) (by abel)
    refine (ih (fun B' hB' => hc B' (by simp [hB'])) hcop.notes hN h₁').mono ?_
    rintro m₂ f₂ ⟨rs₂, Bs', hcop', h₂⟩
    refine ⟨rs₂, B' :: Bs', ⟨hcop'.notes.as ?_ ?_,
        hcop.keeps.trans hcop'.keeps, fun ρ hρ => ?_, hcop.grows.trans hcop'.grows⟩, h₂.as ?_⟩
    · rw [layout_cons, Entries.names_add, add_assoc]
    · rw [layout_cons, Entries.names_add, add_assoc]
    · rw [List.map_cons, ← hcop'.named ρ hρ, ← hcop.named ρ (hρ.anti hcop'.keeps)]
    · simp only [layout_cons, List.map_cons, List.append_assoc, List.singleton_append]
      abel

/-- A copy has levels enough if there are no more regions. -/
theorem copiesRegion_copyRegionTo (levels : Nat) {r : RegionTree}
    (hl : (r.entries none).regionCount ≤ levels) :
    CopiesRegion stop f₀ (Edit.copyRegionTo levels) r := by
  induction levels generalizing r with
  | zero =>
    have : (Entries.region r.id (r.toRegion none)).regionCount = 1 := rfl
    rw [RegionOf.entries_eq, Entries.regionCount_add] at hl
    omega
  | succ levels ih =>
    intro f m rs N N' e o o' into hm hN h
    have h₀ := h.as (d := .region r.id (r.toRegion o) + (layout (some r.id) r.blocks +
      (.region into ⟨[], o'⟩ + e))) (by rw [RegionOf.entries_eq, add_assoc])
    refine .step h₀.getRegion ?_
    have h₁ := h₀.as (d := layout (some r.id) r.blocks + (.region into ⟨[], o'⟩ +
      (.region r.id (r.toRegion o) + e))) (by abel)
    refine (h₁.copyInto (fun B hB n hn r' hr' => ih ?_) hm
      (hN.as (by rw [layout_names r.blocks none]))).mono ?_
    · have h₁ := OpTree.regionCount_inner_lt (o := none) hB hn
      have h₂ := Entries.regionCount_le_sum (RegionOf.entries (some n.id)) hr'
      have h₃ : (r'.entries none).regionCount = (r'.entries (some n.id)).regionCount := by
        rw [RegionOf.entries_eq, RegionOf.entries_eq, Entries.regionCount_add,
          Entries.regionCount_add]
        rfl
      rw [OpTree.inner] at h₁
      omega
    · rintro m' f' ⟨rs', Bs', hcop, h'⟩
      refine ⟨rs', Bs', ?_, h'.as ?_⟩
      · rwa [layout_names r.blocks (some r.id) none] at hcop
      · simp only [RegionOf.entries_eq, RegionOf.toRegion, List.nil_append]
        abel

theorem Arena.copyBlocks {levels : Nat}
    (hl : ∀ B ∈ Bs, ∀ n ∈ B.ops, ∀ r ∈ n.regions, (RegionOf.entries none r).regionCount ≤ levels)
    (hm : Notes f₀ f m rs N N') (hN : (N + (layout q Bs).names).Nodup)
    (h : Arena f (layout q Bs + e)) :
    Meets stop (Edit.copyBlocks levels m (Bs.map (·.id))) f fun a f' => ∃ rs' Bs',
      a.1 = Bs'.map (·.id) ∧
        Copied f₀ f f' m a.2 rs rs' N N' (layout q Bs).names (layout none Bs').names
          (fun ρ => Bs' = Bs.map (BlockOf.rename ρ.defs)) ∧
        Arena f' (layout q Bs + (layout none Bs' + e)) := by
  induction Bs generalizing f m rs N N' e with
  | nil =>
    exact .pure ⟨rs, [], rfl, ⟨hm.as (by simp) (by simp), .refl m rs, by simp, .refl f⟩,
      by simpa using h⟩
  | cons B Bs ih =>
    rw [layout_cons, Entries.names_add, ← add_assoc] at hN
    have h₀ := h.as (d := B.entries q + (layout q Bs + e)) (by rw [layout_cons]; abel)
    have hB : Meets stop _ _ _ := h₀.copyBlock
      (fun n hn r hr => copiesRegion_copyRegionTo levels (hl B (by simp) n hn r hr)) hm hN.left
    refine .bind hB ?_
    rintro ⟨_, m₁⟩ f₁ ⟨rs₁, B', rfl, hcop, h₁⟩
    have h₁' := h₁.as (d := layout q Bs + (B.entries q + (B'.entries none + e))) (by abel)
    refine .bind (ih (fun B' hB' => hl B' (by simp [hB'])) hcop.notes hN h₁') ?_
    rintro ⟨_, m₂⟩ f₂ ⟨rs₂, Bs', rfl, hcop', h₂⟩
    refine .pure ⟨rs₂, B' :: Bs', rfl, ⟨hcop'.notes.as ?_ ?_, hcop.keeps.trans hcop'.keeps,
      fun ρ hρ => ?_, hcop.grows.trans hcop'.grows⟩, h₂.as ?_⟩
    · rw [layout_cons, Entries.names_add, add_assoc]
    · rw [layout_cons, Entries.names_add, add_assoc]
    · rw [List.map_cons, ← hcop'.named ρ hρ, ← hcop.named ρ (hρ.anti hcop'.keeps)]
    · simp only [layout_cons]
      abel

/-! ## The second pass -/

/-- The ops of some entries are changed one after another. -/
theorem Arena.modifyOps {c : Entries} {g : Op → Op} (l : List (OpId × OpId))
    (hl : (↑(l.map Prod.snd) : Multiset OpId) = c.1.map Prod.fst) (h : Arena f (c + e)) :
    Meets stop (l.forM fun p => Edit.modifyOp p.2 g) f fun _ f' =>
      Arena f' (c.mapOps g + e) ∧ f.GrowsTo f' := by
  induction l generalizing f c e with
  | nil =>
    have hc : c.1 = 0 := by simpa using hl.symm
    refine .pure ⟨h.as ?_, .refl f⟩
    rw [Entries.mapOps, hc, Multiset.map_zero, ← hc]
  | cons p l ih =>
    obtain ⟨⟨id, d⟩, hd, hid⟩ : ∃ q ∈ c.1, q.1 = p.2 := by
      have : p.2 ∈ c.1.map Prod.fst := by rw [← hl]; simp
      simpa using this
    obtain ⟨r, hr⟩ := Multiset.exists_cons_of_mem hd
    simp only at hid
    subst hid
    have hc : c = (({(p.2, d)}, 0, 0, 0) : Entries) + (r, c.2) :=
      Prod.ext (hr.trans (Multiset.singleton_add _ _).symm) (zero_add c.2).symm
    have h₀ := h.as (d := ({(p.2, d)}, 0, 0, 0) + ((r, c.2) + e)) (by rw [← add_assoc, ← hc])
    refine .bind h₀.modifyEntry ?_
    rintro _ f₁ ⟨h₁, g₁⟩
    have hl₁ : (↑(l.map Prod.snd) : Multiset OpId) = r.map Prod.fst := by
      rw [hr, List.map_cons, ← Multiset.cons_coe, Multiset.map_cons] at hl
      exact (Multiset.cons_inj_right _).mp hl
    refine (ih (c := (r, c.2)) hl₁ (h₁.as (add_left_comm _ _ _))).mono ?_
    rintro _ f₂ ⟨h₂, g₂⟩
    refine ⟨h₂.as ?_, g₁.growsTo.trans g₂⟩
    rw [hc, Entries.mapOps_add, add_left_comm, add_assoc]
    simp [Entries.mapOps]

end

/-- Under new names for the nodes and then for what they use. -/
theorem OpTree.rename_defs_used (ρ : Renaming) (n : OpTree) :
    (n.rename ρ.defs).rename (.used ρ.use ρ.target) = n.rename ρ := by
  induction n using OpTree.induct with
  | step h rs ih =>
    rw [OpTree.rename_mk, OpTree.rename_mk, OpTree.rename_mk, List.map_map]
    have hh : (h.rename ρ.defs).rename (.used ρ.use ρ.target) = h.rename ρ := by
      simp [Head.rename, Renaming.defs]
    rw [hh]
    refine congrArg _ (List.map_congr_left fun r hr => ?_)
    simp only [Function.comp_def, RegionOf.rename, List.map_map, Renaming.used_region]
    refine congrArg _ (List.map_congr_left fun b hb => ?_)
    simp only [Function.comp_def, BlockOf.rename, List.map_map, Renaming.used_block,
      Renaming.used_result]
    exact congrArg _ (List.map_congr_left fun n hn => ih r hr b hb n hn)

theorem BlockOf.rename_defs_used (ρ : Renaming) (B : BlockTree) :
    (B.rename ρ.defs).rename (.used ρ.use ρ.target) = B.rename ρ := by
  simp only [Function.comp_def, BlockOf.rename, List.map_map, Renaming.used_block,
    Renaming.used_result]
  exact congrArg _ (List.map_congr_left fun n _ => n.rename_defs_used ρ)

/-- The renaming that a clone map notes. -/
def CloneMap.renaming (m : CloneMap) (rs : List (RegionId × RegionId)) : Renaming where
  op id := (m.ops.get? id).getD id
  block := m.block
  region id := ((Table.mk rs).get? id).getD id
  result := m.value
  use := m.value
  target := m.block

theorem Notes.follows {f₀ : Func} {m : CloneMap} {rs : List (RegionId × RegionId)}
    (h : Notes f₀ f m rs N N') (hN : N.Nodup) : (m.renaming rs).Follows m rs := by
  obtain ⟨h₁, h₂, h₃, h₄⟩ := hN
  rw [← h.ops.old, Multiset.coe_nodup] at h₁
  rw [← h.blocks.old, Multiset.coe_nodup] at h₂
  rw [← h.regions.old, Multiset.coe_nodup] at h₃
  rw [← h.values.old, Multiset.coe_nodup] at h₄
  refine ⟨fun p hp => ?_, fun p hp => ?_, fun p hp => ?_, fun p hp => ?_⟩
  · simp [CloneMap.renaming, Table.get?_of_mem h₁ hp]
  · simp [CloneMap.renaming, CloneMap.block, Table.get?_of_mem h₂ hp]
  · simp [CloneMap.renaming, Table.get?_of_mem (t := ⟨rs⟩) h₃ hp]
  · simp [CloneMap.renaming, CloneMap.value, Table.get?_of_mem h₄ hp]

/-- The blocks `Bs` have been cloned under the renaming `ρ`, which gives new names to what they
define and keeps all others, as the clone map says. -/
structure Clone (f f' : Func) (m : CloneMap) (Bs : List BlockTree) (ρ : Renaming) : Prop where
  notes : ∃ rs, ρ = m.renaming rs ∧ Notes f f' m rs (layout none Bs).names
    (layout none (Bs.map (BlockOf.rename ρ))).names
  old : (layout none Bs).names.Nodup
  new : (layout none (Bs.map (BlockOf.rename ρ))).names.Nodup
  below : ∀ p ∈ m.ops.entries, p.2.index < f'.ops.size

variable {Bs : List BlockTree}

/-- No region below some blocks has more regions in it than there are. -/
theorem Arena.regionCount_le {q : Option RegionId} (h : Arena f (layout q Bs)) {B : BlockTree}
    (hB : B ∈ Bs) {n : OpTree} (hn : n ∈ B.ops) {r : RegionTree} (hr : r ∈ n.regions) :
    (r.entries none).regionCount ≤ f.regions.size := by
  have h₁ := Entries.regionCount_le_sum (BlockOf.entries q) hB
  have h₂ := Entries.regionCount_le_sum (OpTree.entries B.id) hn
  have h₃ := Entries.regionCount_le_sum (RegionOf.entries (some n.id)) hr
  have h₄ : (r.entries none).regionCount = (r.entries (some n.id)).regionCount := by
    rw [RegionOf.entries_eq, RegionOf.entries_eq, Entries.regionCount_add,
      Entries.regionCount_add]
    rfl
  rw [BlockOf.entries_eq, Entries.regionCount_add] at h₁
  rw [OpTree.entries_eq, Entries.regionCount_add] at h₂
  have h₅ : (layout q Bs).regionCount ≤ f.regions.size := h.card_regions_le
  rw [layout] at h₅
  rw [nodes] at h₁
  rw [OpTree.inner] at h₂
  omega

/-- A region is cloned. -/
theorem Arena.cloneRegion {stop : Prop} {q : RegionId} {o : Option OpId}
    (h : Arena f (RegionOf.entries o ⟨q, Bs⟩ + e)) :
    Meets stop (Edit.cloneRegion q) f fun a f' => ∃ ρ, Clone f f' a.2 Bs ρ ∧
      a.1 = (Bs.map (BlockOf.rename ρ)).map (·.id) ∧
      Arena f' (RegionOf.entries o ⟨q, Bs⟩ + (layout none (Bs.map (BlockOf.rename ρ)) + e)) := by
  have h₀ := h.as (d := layout (some q) Bs + (.region q (RegionOf.toRegion ⟨q, Bs⟩ o) + e))
    (by rw [RegionOf.entries_eq, add_assoc, add_left_comm])
  refine .get (.step (h₀.as (add_left_comm _ _ _)).getRegion ?_)
  have hm₀ : Notes f f {} [] 0 0 :=
    ⟨⟨rfl, rfl⟩, ⟨rfl, rfl⟩, ⟨rfl, rfl⟩, ⟨rfl, rfl⟩, by simp, by simp,
    by simp, .refl f⟩
  have hN : (0 + (layout (some q) Bs).names).Nodup := by
    rw [zero_add]
    exact h₀.left.names_nodup
  refine .bind (h₀.copyBlocks (fun B hB n hn r hr => h₀.left.regionCount_le hB hn hr) hm₀ hN) ?_
  rintro ⟨_, m⟩ f₁ ⟨rs, Bs', rfl, hcop, h₁⟩
  have hBs := hcop.named _ (hcop.notes.follows hN)
  have hnotes : Notes f f₁ m rs (layout none Bs).names (layout none Bs').names :=
    hcop.notes.as (by rw [zero_add, layout_names Bs (some q) none]) (zero_add _)
  -- the second pass goes over the copies, whose ops are those that the map notes
  have hcopies : Bs'.map (BlockOf.rename (.used m.value m.block)) =
      Bs.map (BlockOf.rename (m.renaming rs)) := by
    rw [hBs, List.map_map]
    exact List.map_congr_left fun B _ => B.rename_defs_used (m.renaming rs)
  have hg : Op.Renames m.value m.block fun d : Op =>
      { d with operands := d.operands.map m.value, kind := d.kind.mapSuccessors m.block } :=
    ⟨fun _ => rfl, fun _ _ => rfl⟩
  refine .bind (Arena.modifyOps m.ops.entries hnotes.ops.new (h₁.as (add_left_comm _ _ _))) ?_
  rintro _ f₂ ⟨h₂, g₂⟩
  have h₃ : Arena f₂ (RegionOf.entries o ⟨q, Bs⟩ +
      (layout none (Bs.map (BlockOf.rename (m.renaming rs))) + e)) := by
    refine h₂.as ?_
    rw [← hcopies, layout_used hg, RegionOf.entries_eq]
    abel
  have hnotes₂ : Notes f f₂ m rs (layout none Bs).names
      (layout none (Bs.map (BlockOf.rename (m.renaming rs)))).names := by
    refine (hnotes.mono g₂).as rfl ?_
    rw [← hcopies, layout_used hg]
    simp [Entries.names, Entries.mapOps]
  refine .pure ⟨m.renaming rs, ⟨⟨rs, rfl, hnotes₂⟩, ?_, h₃.right.left.names_nodup, ?_⟩, ?_, h₃⟩
  · rw [layout_names Bs none (some q)]
    exact h₀.left.names_nodup
  · intro p hp
    have hmem : p.2 ∈ (↑(m.ops.entries.map Prod.snd) : Multiset OpId) :=
      Multiset.mem_coe.mpr (List.mem_map_of_mem hp)
    rw [hnotes₂.ops.new] at hmem
    obtain ⟨d, hd, heq⟩ := Multiset.mem_map.mp hmem
    have := h₃.right.left.ops.holds d hd
    exact heq ▸ (Array.getElem?_eq_some_iff.mp this).1
  · rw [← hcopies]
    simp [Function.comp_def]

end Unnest
