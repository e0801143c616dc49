import Unnest.Proofs.Ownership.Basic
import Unnest.Proofs.Tree.Everywhere
/-!
# Paths

An op of a tree is found on a path: the ops around it from the outermost to the innermost, each with
the number of its region that the path goes through. In a tree that the tables of a function hold
there is only one op with a given position, and one path to it (`Path.unique`).
-/

namespace Unnest

/-- The ops around an op, outermost first, each with the number of the region the op is in. -/
abbrev Trail := List (OpTree × Nat)

/-- `e` lies at the end of the trail from the ops. -/
def OpTree.At (e : OpTree) (ops : List OpTree) : Trail → Prop
  | [] => e ∈ ops
  | (n, i) :: p => n ∈ ops ∧ ∃ r, n.regions[i]? = some r ∧ ∃ B ∈ r.blocks, OpTree.At e B.ops p

/-- The trail leads from the blocks to the op `e`. -/
def Path (Bs : List BlockTree) (p : Trail) (e : OpTree) : Prop := ∃ B ∈ Bs, e.At B.ops p

section

variable {Bs L R : List BlockTree} {p : Trail} {e n : OpTree} {i : Nat} {ops post : List OpTree}

@[simp] theorem OpTree.at_nil : e.At ops [] ↔ e ∈ ops := Iff.rfl

theorem OpTree.at_cons :
    e.At ops ((n, i) :: p) ↔ n ∈ ops ∧ ∃ r, n.regions[i]? = some r ∧ Path r.blocks p e := Iff.rfl

theorem path_nil : Path Bs [] e ↔ ∃ B ∈ Bs, e ∈ B.ops := Iff.rfl

theorem path_cons : Path Bs ((n, i) :: p) e ↔
    ∃ B ∈ Bs, n ∈ B.ops ∧ ∃ r, n.regions[i]? = some r ∧ Path r.blocks p e := Iff.rfl

@[simp] theorem OpTree.not_at_nil : ¬e.At [] p := by
  cases p with
  | nil => simp
  | cons q p =>
    obtain ⟨n, i⟩ := q
    simp [at_cons]

@[simp] theorem OpTree.at_append : e.At (ops ++ post) p ↔ e.At ops p ∨ e.At post p := by
  cases p with
  | nil => simp
  | cons q p =>
    obtain ⟨n, i⟩ := q
    simp [at_cons, or_and_right]

theorem OpTree.at_cons_left :
    e.At (n :: ops) p ↔ e.At [n] p ∨ e.At ops p := by
  rw [← List.singleton_append, at_append]

/-- From a single op: it itself, or what lies below it. -/
theorem OpTree.at_singleton : e.At [n] p ↔ p = [] ∧ e = n ∨
    ∃ i q r, p = (n, i) :: q ∧ n.regions[i]? = some r ∧ Path r.blocks q e := by
  cases p with
  | nil => simp
  | cons q p =>
    obtain ⟨m, i⟩ := q
    simp only [at_cons, List.mem_singleton, reduceCtorEq, false_and, false_or]
    constructor
    · rintro ⟨rfl, r, hr, hp⟩
      exact ⟨i, p, r, rfl, hr, hp⟩
    · rintro ⟨j, q, r, h, hr, hp⟩
      cases h
      exact ⟨rfl, r, hr, hp⟩

@[simp] theorem OpTree.at_leaf {h : Head} : e.At [.leaf h] p ↔ p = [] ∧ e = .leaf h := by
  simp [at_singleton]

/-- From ops without regions. -/
theorem OpTree.at_of_bare (hb : ∀ n ∈ ops, n.regions = []) (h : e.At ops p) :
    p = [] ∧ e ∈ ops := by
  cases p with
  | nil => exact ⟨rfl, h⟩
  | cons q p =>
    obtain ⟨n, i⟩ := q
    obtain ⟨hn, r, hr, -⟩ := h
    simp [hb n hn] at hr

@[simp] theorem not_path_nil : ¬Path [] p e := by
  simp [Path]

@[simp] theorem path_append : Path (L ++ R) p e ↔ Path L p e ∨ Path R p e := by
  simp [Path, or_and_right, exists_or]

@[simp] theorem path_cons_left {B : BlockTree} :
    Path (B :: Bs) p e ↔ e.At B.ops p ∨ Path Bs p e := by
  simp [Path]

theorem Path.mono (h : Path L p e) (hs : L ⊆ R) : Path R p e := by
  obtain ⟨B, hB, h⟩ := h
  exact ⟨B, hs hB, h⟩

theorem Path.inBlocks (h : Path Bs p e) : e.InBlocks Bs := by
  induction p generalizing Bs with
  | nil =>
    obtain ⟨B, hB, he⟩ := h
    exact OpTree.inBlocks_of_mem hB he
  | cons q p ih =>
    obtain ⟨n, i⟩ := q
    obtain ⟨B, hB, hn, r, hr, h⟩ := path_cons.mp h
    exact .deeper (List.mem_of_getElem? hr) (ih h) (OpTree.inBlocks_of_mem hB hn)

theorem OpTree.Within.at_trail (h : e.Within n) : ∃ p, e.At [n] p := by
  induction h with
  | here => exact ⟨[], by simp⟩
  | @deeper h rs r b m hr hb hm _ ih =>
    obtain ⟨p, hp⟩ := ih
    obtain ⟨i, hi⟩ := List.getElem?_of_mem hr
    have hp' : e.At b.ops p := by
      obtain ⟨l₁, l₂, hl⟩ := List.append_of_mem hm
      rw [hl, at_append, at_cons_left]
      exact .inr (.inl hp)
    exact ⟨(.mk h rs, i) :: p, at_cons.mpr ⟨by simp, r, hi, b, hb, hp'⟩⟩

theorem OpTree.InBlocks.path (h : e.InBlocks Bs) : ∃ p, Path Bs p e := by
  obtain ⟨B, hB, n, hn, h⟩ := h
  obtain ⟨p, hp⟩ := h.at_trail
  refine ⟨p, B, hB, ?_⟩
  obtain ⟨l₁, l₂, hl⟩ := List.append_of_mem hn
  rw [hl, at_append, at_cons_left]
  exact .inr (.inl hp)

end

/-! ## Renaming -/

/-- The trail under other names. -/
def Trail.rename (ρ : Renaming) (p : Trail) : Trail := p.map fun q => (q.1.rename ρ, q.2)

@[simp] theorem Trail.rename_nil (ρ : Renaming) : Trail.rename ρ [] = [] := rfl

@[simp] theorem Trail.rename_cons (ρ : Renaming) (n : OpTree) (i : Nat) (p : Trail) :
    Trail.rename ρ ((n, i) :: p) = (n.rename ρ, i) :: Trail.rename ρ p := rfl

section

variable {ρ : Renaming} {p : Trail} {e : OpTree}

theorem Path.rename {Bs : List BlockTree} (h : Path Bs p e) :
    Path (Bs.map (BlockOf.rename ρ)) (p.rename ρ) (e.rename ρ) := by
  induction p generalizing Bs with
  | nil =>
    obtain ⟨B, hB, he⟩ := h
    exact ⟨B.rename ρ, List.mem_map_of_mem hB, List.mem_map_of_mem he⟩
  | cons q p ih =>
    obtain ⟨n, i⟩ := q
    obtain ⟨B, hB, hn, r, hr, h⟩ := path_cons.mp h
    refine path_cons.mpr ⟨B.rename ρ, List.mem_map_of_mem hB, List.mem_map_of_mem hn, r.rename ρ,
      ?_, ih h⟩
    rw [OpTree.regions_rename, List.getElem?_map, hr]
    rfl

/-- The paths of a renamed tree are the paths of the tree. -/
theorem path_rename {Bs : List BlockTree} : Path (Bs.map (BlockOf.rename ρ)) p e ↔
    ∃ p₀ e₀, Path Bs p₀ e₀ ∧ p = p₀.rename ρ ∧ e = e₀.rename ρ := by
  constructor
  · intro h
    induction p generalizing Bs with
    | nil =>
      obtain ⟨B', hB', he'⟩ := h
      obtain ⟨B, hB, rfl⟩ := List.mem_map.mp hB'
      obtain ⟨e₀, he, rfl⟩ := List.mem_map.mp he'
      exact ⟨[], e₀, ⟨B, hB, he⟩, rfl, rfl⟩
    | cons q p ih =>
      obtain ⟨n', i⟩ := q
      obtain ⟨B', hB', hn', r', hr', h⟩ := path_cons.mp h
      obtain ⟨B, hB, rfl⟩ := List.mem_map.mp hB'
      obtain ⟨n, hn, rfl⟩ := List.mem_map.mp hn'
      rw [OpTree.regions_rename, List.getElem?_map] at hr'
      obtain ⟨r, hr, rfl⟩ := Option.map_eq_some_iff.mp hr'
      obtain ⟨p₀, e₀, hp, rfl, rfl⟩ := ih h
      exact ⟨(n, i) :: p₀, e₀, path_cons.mpr ⟨B, hB, hn, r, hr, hp⟩, rfl, rfl⟩
  · rintro ⟨p₀, e₀, h, rfl, rfl⟩
    exact h.rename

theorem OpTree.at_rename {ops : List OpTree} : e.At (ops.map (OpTree.rename ρ)) p ↔
    ∃ p₀ e₀, OpTree.At e₀ ops p₀ ∧ p = p₀.rename ρ ∧ e = e₀.rename ρ := by
  let Bs : List BlockTree := [⟨⟨0⟩, [], ops⟩]
  have h : Path (Bs.map (BlockOf.rename ρ)) p e ↔ _ := path_rename
  simpa [Bs, BlockOf.rename] using h

end

/-! ## Jumps to a construct -/

/-- What is hidden at the end of a trail below a construct with the given label. -/
def Shadow.along (label : Option String) (s : Shadow) (p : Trail) : Shadow :=
  p.foldl (fun s q => s.enter q.1.kind label) s

/-- The jumps to a construct above some blocks are those that refer to it past what is on the
way. -/
theorem mem_blockJumps {c : Construct} {s : Shadow} {Bs : List BlockTree} {n : OpTree} :
    n ∈ blockJumps c s Bs ↔ ∃ p, Path Bs p n ∧ c.isNamedBy (s.along c.label? p) n.kind = true := by
  constructor
  · intro h₀
    obtain ⟨B, hB, h₁⟩ := List.mem_flatMap.mp h₀
    obtain ⟨m, hm, h⟩ := List.mem_flatMap.mp h₁
    clear h₀ h₁
    induction m using OpTree.induct generalizing s Bs B with
    | step hd rs ih =>
      rw [OpTree.jumpsTo_eq, List.mem_append] at h
      obtain h | h := h
      · split at h
        case isTrue hc =>
          rw [List.mem_singleton] at h
          subst h
          exact ⟨[], ⟨B, hB, hm⟩, hc⟩
        case isFalse => cases h
      · obtain ⟨r, hr, h⟩ := List.mem_flatMap.mp h
        obtain ⟨B', hB', h⟩ := List.mem_flatMap.mp h
        obtain ⟨m', hm', h⟩ := List.mem_flatMap.mp h
        obtain ⟨p, hp, hc⟩ := ih r hr B' hB' m' hm' B' hB' hm' h
        obtain ⟨i, hi⟩ := List.getElem?_of_mem hr
        exact ⟨(.mk hd rs, i) :: p, path_cons.mpr ⟨B, hB, hm, r, hi, hp⟩, hc⟩
  · rintro ⟨p, hp, hc⟩
    induction p generalizing s Bs with
    | nil =>
      obtain ⟨B, hB, hn⟩ := hp
      refine List.mem_flatMap.mpr ⟨B, hB, List.mem_flatMap.mpr ⟨n, hn, ?_⟩⟩
      rw [OpTree.jumpsTo_eq, if_pos (show c.isNamedBy s n.kind = true from hc)]
      simp
    | cons q p ih =>
      obtain ⟨m, i⟩ := q
      obtain ⟨B, hB, hm, r, hr, hp⟩ := path_cons.mp hp
      refine List.mem_flatMap.mpr ⟨B, hB, List.mem_flatMap.mpr ⟨m, hm, ?_⟩⟩
      rw [OpTree.jumpsTo_eq, List.mem_append]
      exact .inr (List.mem_flatMap.mpr ⟨r, List.mem_of_getElem? hr, ih hp hc⟩)

theorem blockJumps_branch (s : Shadow) (Bs : List BlockTree) : blockJumps .branch s Bs = [] := by
  refine List.eq_nil_iff_forall_not_mem.mpr fun n hn => ?_
  obtain ⟨p, -, hc⟩ := mem_blockJumps.mp hn
  revert hc
  generalize n.kind = k
  unfold Construct.isNamedBy
  split <;> simp [Construct.isBreakable, Construct.isLoop, Construct.label?]

/-! ## One path -/

/-- All positions in some blocks. -/
def idsIn (Bs : List BlockTree) : List OpId := (walkBlocks (fun _ => true) Bs).map (·.id)

section

variable {f : Func} {Bs : List BlockTree} {p q : Trail} {e e' n : OpTree}

/-- The positions of an op and of what is below it. -/
def OpTree.ids (n : OpTree) : List OpId := (n.walk fun _ => true).map (·.id)

theorem idsIn_eq (Bs : List BlockTree) :
    idsIn Bs = Bs.flatMap fun B => B.ops.flatMap OpTree.ids := by
  simp only [idsIn, walkBlocks, List.map_flatMap]
  rfl

theorem OpTree.ids_eq (n : OpTree) : n.ids = n.id :: n.regions.flatMap fun r => idsIn r.blocks := by
  simp only [ids, walk_eq, walkRegions, if_true, List.map_cons, List.map_flatMap]
  rfl

theorem OpTree.id_mem_ids (n : OpTree) : n.id ∈ n.ids := by
  rw [ids_eq]
  exact List.mem_cons_self

theorem OpTree.mem_ids_of_region {r : RegionTree} {id : OpId} (hr : r ∈ n.regions)
    (h : id ∈ idsIn r.blocks) : id ∈ n.ids := by
  rw [ids_eq]
  exact List.mem_cons_of_mem _ (List.mem_flatMap.mpr ⟨r, hr, h⟩)

theorem mem_idsIn {B : BlockTree} {id : OpId} (hB : B ∈ Bs) (hn : n ∈ B.ops) (h : id ∈ n.ids) :
    id ∈ idsIn Bs := by
  rw [idsIn_eq]
  exact List.mem_flatMap.mpr ⟨B, hB, List.mem_flatMap.mpr ⟨n, hn, h⟩⟩

theorem Path.id_mem (h : Path Bs p e) : e.id ∈ idsIn Bs := by
  induction p generalizing Bs with
  | nil =>
    obtain ⟨B, hB, he⟩ := h
    exact mem_idsIn hB he e.id_mem_ids
  | cons q p ih =>
    obtain ⟨n, i⟩ := q
    obtain ⟨B, hB, hn, r, hr, h⟩ := path_cons.mp h
    exact mem_idsIn hB hn (OpTree.mem_ids_of_region (List.mem_of_getElem? hr) (ih h))

/-- The op through which a position is reached. -/
theorem eq_of_mem_ids (hn : (idsIn Bs).Nodup) {B B' : BlockTree} {m : OpTree} {id : OpId}
    (hB : B ∈ Bs) (hm : m ∈ B.ops) (hB' : B' ∈ Bs) (hn' : n ∈ B'.ops) (h : id ∈ m.ids)
    (h' : id ∈ n.ids) : m = n := by
  rw [idsIn_eq] at hn
  obtain rfl := eq_of_nodup_flatMap hn hB hB' (List.mem_flatMap.mpr ⟨m, hm, h⟩)
    (List.mem_flatMap.mpr ⟨n, hn', h'⟩)
  exact eq_of_nodup_flatMap ((List.nodup_flatMap.mp hn).1 B hB) hm hn' h h'

theorem nodup_ids (hn : (idsIn Bs).Nodup) {B : BlockTree} (hB : B ∈ Bs) (hm : n ∈ B.ops) :
    n.ids.Nodup := by
  rw [idsIn_eq] at hn
  exact (List.nodup_flatMap.mp ((List.nodup_flatMap.mp hn).1 B hB)).1 n hm

theorem OpTree.nodup_regions (h : n.ids.Nodup) :
    n.id ∉ n.regions.flatMap (fun r => idsIn r.blocks) ∧
      (n.regions.flatMap fun r => idsIn r.blocks).Nodup := by
  rw [ids_eq] at h
  exact List.nodup_cons.mp h

/-- In blocks without repetitions there is one op with a given position, and one path to it. -/
theorem Path.unique (hn : (idsIn Bs).Nodup) (hp : Path Bs p e) (hq : Path Bs q e')
    (he : e.id = e'.id) : p = q ∧ e = e' := by
  induction p generalizing Bs q with
  | nil =>
    obtain ⟨B, hB, hm⟩ := hp
    cases q with
    | nil =>
      obtain ⟨B', hB', hm'⟩ := hq
      exact ⟨rfl, eq_of_mem_ids hn hB hm hB' hm' e.id_mem_ids (he ▸ e'.id_mem_ids)⟩
    | cons k q =>
      -- The op itself does not lie below itself.
      obtain ⟨n, i⟩ := k
      obtain ⟨B', hB', hn', r, hr, hq⟩ := path_cons.mp hq
      have hr' := List.mem_of_getElem? hr
      have hbelow : e.id ∈ idsIn r.blocks := he ▸ hq.id_mem
      obtain rfl := eq_of_mem_ids hn hB hm hB' hn' e.id_mem_ids
        (OpTree.mem_ids_of_region hr' hbelow)
      exact absurd (List.mem_flatMap.mpr ⟨r, hr', hbelow⟩)
        (OpTree.nodup_regions (nodup_ids hn hB hm)).1
  | cons k p ih =>
    obtain ⟨m, i⟩ := k
    obtain ⟨B, hB, hm, r, hr, hp⟩ := path_cons.mp hp
    have hr' := List.mem_of_getElem? hr
    have hbelow := hp.id_mem
    cases q with
    | nil =>
      obtain ⟨B', hB', hm'⟩ := hq
      obtain rfl := eq_of_mem_ids hn hB hm hB' hm' (OpTree.mem_ids_of_region hr' hbelow)
        (he ▸ e'.id_mem_ids)
      exact absurd (List.mem_flatMap.mpr ⟨r, hr', he ▸ hbelow⟩)
        (OpTree.nodup_regions (nodup_ids hn hB hm)).1
    | cons k' q =>
      obtain ⟨n, j⟩ := k'
      obtain ⟨B', hB', hn', r', hq', hq⟩ := path_cons.mp hq
      have hbelow' : e.id ∈ idsIn r'.blocks := he ▸ hq.id_mem
      obtain rfl := eq_of_mem_ids hn hB hm hB' hn' (OpTree.mem_ids_of_region hr' hbelow)
        (OpTree.mem_ids_of_region (List.mem_of_getElem? hq') hbelow')
      have hnd := (OpTree.nodup_regions (nodup_ids hn hB hm)).2
      obtain rfl := index_eq_of_nodup_flatMap hnd hr hq' hbelow hbelow'
      obtain rfl := Option.some.inj (hr.symm.trans hq')
      obtain ⟨rfl, rfl⟩ := ih ((List.nodup_flatMap.mp hnd).1 r hr') hp hq
      exact ⟨rfl, rfl⟩

theorem Func.Holds.nodup_idsIn {E : Entries} (hf : f.Holds Bs E) : (idsIn Bs).Nodup :=
  hf.arena.left.nodup_walkBlocks _

theorem Func.Holds.index_lt {E : Entries} (hf : f.Holds Bs E) (hp : Path Bs p e) :
    e.id.index < f.ops.size := by
  refine hf.arena.left.index_lt_of_mem_opIds ?_
  have := Multiset.mem_of_le (walkBlocks_le_opIds (fun _ => true) (some f.body) Bs) (a := e.id)
  exact this (Multiset.mem_coe.mpr hp.id_mem)

/-! ## Looking up what the tables hold -/

theorem Func.Holds.blocksIn_body {E : Entries} (hf : f.Holds Bs E) :
    f.blocksIn f.body = Bs.map (·.id) := by
  rw [Func.blocksIn, Arena.region? hf]

theorem Func.Holds.block? {E : Entries} (hf : f.Holds Bs E) {B : BlockTree} (hB : B ∈ Bs) :
    f.block? B.id = some (B.toBlock (some f.body)) := by
  obtain ⟨L, R, rfl⟩ := List.append_of_mem hB
  exact hf.arena.at_block.block?

theorem Func.Holds.op? {E : Entries} (hf : f.Holds Bs E) (hn : Path Bs [] n) :
    ∃ d, f.op? n.id = some d ∧ d.kind = n.kind ∧ d.operands = n.head.operands := by
  obtain ⟨⟨b, args, ops⟩, hB, hmem⟩ := path_nil.mp hn
  obtain ⟨L, R, rfl⟩ := List.append_of_mem hB
  obtain ⟨pre, post, rfl⟩ := List.append_of_mem hmem
  exact ⟨_, hf.arena.at_op.op?, rfl, rfl⟩

end

end Unnest
