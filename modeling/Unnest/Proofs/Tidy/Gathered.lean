import Unnest.Proofs.Arena.Erasing
import Unnest.Proofs.Ownership.Basic
import Unnest.Proofs.Tables
import Unnest.Tidy.Constants
/-!
# Constants gone through

Constants are gone through one after another, first those at the start of the entry block and then
the others. Each is kept, behind those kept before, or erased because one with its type and value
has been kept, whose result is used for its own from then on. `Gathered` is the state in between:
the constants kept so far stand at the start of the entry block, the other blocks have lost what was
kept or erased, and all else has changed at most in the operands. `Gathered.erase`, `Gathered.keep`
and `Gathered.move` are the three things that can happen to the next constant, and
`Gathered.mergeLeading` and `Gathered.gather` the two loops over them.
-/

namespace Unnest

namespace Func

variable {f : Func} {x : OpId} {d : Op} {b : BlockId} {bd : Block}

/-- Nothing but ops and blocks differ. -/
def SameOutline (f f' : Func) : Prop := f' = { f with ops := f'.ops, blocks := f'.blocks }

namespace SameOutline

variable {f' f'' : Func}

theorem refl (f : Func) : f.SameOutline f := rfl

theorem trans (h : f.SameOutline f') (h' : f'.SameOutline f'') : f.SameOutline f'' := by
  unfold SameOutline at *
  rw [h'] at *
  rw [h]

theorem name (h : f.SameOutline f') : f'.name = f.name := by rw [h]

theorem body (h : f.SameOutline f') : f'.body = f.body := by rw [h]

theorem region? (h : f.SameOutline f') (r : RegionId) : f'.region? r = f.region? r := by
  rw [h]
  rfl

theorem value? (h : f.SameOutline f') (v : ValueId) : f'.value? v = f.value? v := by
  rw [h]
  rfl

end SameOutline

/-- Nothing is nested in the op: its regions are there, and hold no blocks. -/
def Bare (f : Func) (d : Op) : Prop := ∀ r ∈ d.regions, (f.region? r).map (·.blocks) = some []

theorem bare_of_nil {d : Op} (h : d.regions = []) : f.Bare d := by
  simp [Bare, h]

theorem SameOutline.bare {f' : Func} {d : Op} (h : f.SameOutline f') (hd : f.Bare d) : f'.Bare d :=
  fun r hr => (congrArg _ (h.region? r)).trans (hd r hr)

end Func

variable {ε σ α β : Type}

namespace Edit

variable {f : Func} {x : OpId} {d : Op} {b : BlockId} {bd : Block}

theorem modifyOp_eq (hd : f.op? x = some d) (g : Op → Op) :
    modifyOp x g f = .ok () (f.atOp x g) := by
  unfold modifyOp
  rw [if_pos (f.op?_size hd)]
  rfl

theorem modifyBlock_eq (hb : f.block? b = some bd) (g : Block → Block) :
    modifyBlock b g f = .ok () (f.atBlock b g) := by
  unfold modifyBlock
  rw [if_pos (f.block?_size hb)]
  rfl

theorem getOp_eq (hd : f.op? x = some d) : getOp x f = .ok d f := by
  change (liftM (f.op x) : Edit Op) f = _
  unfold Func.op
  rw [hd]
  rfl

theorem getBlock_eq (hb : f.block? b = some bd) : getBlock b f = .ok bd f := by
  change (liftM (f.block b) : Edit Block) f = _
  unfold Func.block
  rw [hb]
  rfl

theorem getKind_eq (hd : f.op? x = some d) : getKind x f = .ok d.kind f := by
  change (liftM (f.kind x) : Edit OpKind) f = _
  unfold Func.kind Func.op
  rw [hd]
  rfl

variable {v : ValueId}

theorem result_eq (hd : f.op? x = some d) (hv : d.results.head? = some v) :
    result x f = .ok v f := by
  have hread : result? x f = .ok d.results.head? f := bind_of_ok (getOp_eq hd)
  refine (bind_of_ok hread).trans ?_
  rw [hv]
  rfl

theorem valueTy_eq {info : ValueInfo} (hv : f.value? v = some info) :
    valueTy v f = .ok info.ty f := by
  change (liftM (f.valueTy v) : Edit Ty) f = _
  unfold Func.valueTy Func.value
  rw [hv]
  rfl

theorem placeOfOp_eq (hd : f.op? x = some d) (hp : d.parent = some b) (hb : f.block? b = some bd)
    (hx : x ∈ bd.ops) : placeOfOp x f = .ok (b, bd.ops.idxOf x) f := by
  have hidx : bd.ops.findIdx? (· == x) = some (bd.ops.idxOf x) :=
    List.findIdx?_eq_some_iff_findIdx_eq.mpr ⟨List.idxOf_lt_length_iff.mpr hx, rfl⟩
  unfold placeOfOp
  refine (bind_of_ok (getOp_eq hd)).trans ?_
  simp only [hp]
  refine (bind_of_ok (getBlock_eq hb)).trans ?_
  simp only [hidx]
  rfl

/-- An op is taken out of the block that lists it. -/
theorem detachOp_gives (hd : f.op? x = some d) (hp : d.parent = some b)
    (hb : f.block? b = some bd) (hx : x ∈ bd.ops) :
    ∃ f', detachOp x f = .ok () f' ∧ f.SameOutline f' ∧
      (∀ y, f'.op? y = if y = x then some { d with parent := none } else f.op? y) ∧
      ∀ c, f'.block? c = if c = b then some { bd with ops := bd.ops.erase x } else f.block? c := by
  refine ⟨(f.atBlock b fun d => { d with ops := d.ops.eraseIdx (bd.ops.idxOf x) }).atOp x
    fun d => { d with parent := none }, ?_, ?_, ?_, ?_⟩
  · refine (bind_of_ok (placeOfOp_eq hd hp hb hx)).trans ?_
    refine (bind_of_ok (modifyBlock_eq hb _)).trans ?_
    exact modifyOp_eq (by simpa using hd) _
  · rfl
  · intro y
    rw [Func.op?_atOp, Func.op?_atBlock]
    by_cases hy : y = x
    · subst hy
      simp [hd]
    · simp [hy]
  · intro c
    rw [Func.block?_atOp, Func.block?_atBlock]
    by_cases hc : c = b
    · subst hc
      rw [if_pos rfl, if_pos rfl, hb, Option.map_some, List.erase_eq_eraseIdx_of_idxOf rfl]
    · simp [hc]

/-- An op without an owner is put before another. -/
theorem insertOpBefore_gives {anchor : OpId} {ad : Op} {pre post : List OpId}
    (ha : f.op? anchor = some ad) (hp : ad.parent = some b) (hb : f.block? b = some bd)
    (hops : bd.ops = pre ++ anchor :: post) (hpre : anchor ∉ pre) (hd : f.op? x = some d) :
    ∃ f', insertOpBefore anchor x f = .ok () f' ∧ f.SameOutline f' ∧
      (∀ y, f'.op? y = if y = x then some { d with parent := some b } else f.op? y) ∧
      ∀ c, f'.block? c =
        if c = b then some { bd with ops := pre ++ x :: anchor :: post } else f.block? c := by
  have hidx : bd.ops.idxOf anchor = pre.length := by
    rw [hops, List.idxOf_append_of_notMem hpre, List.idxOf_cons_self, Nat.add_zero]
  refine ⟨(f.atOp x fun d => { d with parent := some b }).atBlock b
    fun d => { d with ops := d.ops.insertIdx pre.length x }, ?_, ?_, ?_, ?_⟩
  · refine (bind_of_ok (placeOfOp_eq ha hp hb (by simp [hops]))).trans ?_
    rw [hidx]
    refine (bind_of_ok (modifyOp_eq hd _)).trans ?_
    exact modifyBlock_eq (by simpa using hb) _
  · rfl
  · intro y
    rw [Func.op?_atBlock, Func.op?_atOp]
    by_cases hy : y = x
    · subst hy
      simp [hd]
    · simp [hy]
  · intro c
    rw [Func.block?_atBlock, Func.block?_atOp]
    by_cases hc : c = b
    · subst hc
      simp [hb, hops, Arena.insertIdx_append]
    · simp [hc]

theorem replaceAllUses_gives (old new : ValueId) (f : Func) :
    ∃ f', replaceAllUses old new f = .ok () f' ∧ f.SameOutline f' ∧
      (∀ y, f'.op? y = (f.op? y).map (Op.replaceUse old new)) ∧
      ∀ c, f'.block? c = f.block? c := by
  refine ⟨_, rfl, rfl, fun y => ?_, fun c => rfl⟩
  exact Array.getElem?_map ..

theorem modifyRegion_eq (hr : f.region? r = some rd) (g : Region → Region) :
    modifyRegion r g f = .ok () (f.atRegion r g) :=
  if_pos (Array.getElem?_eq_some_iff.mp hr).1

theorem getRegion_eq (hr : f.region? r = some rd) : getRegion r f = .ok rd f := by
  change (liftM (f.region r) : Edit Region) f = _
  unfold Func.region
  rw [hr]
  rfl

/-- A region that holds nothing is cleared already. -/
theorem clearRegion_of_empty (hr : (f.region? r).map (·.blocks) = some []) :
    clearRegion r f = .ok () f := by
  obtain ⟨rd, hrd, hblocks⟩ := Option.map_eq_some_iff.mp hr
  have hsame : f.atRegion r (fun d => { d with blocks := [] }) = f := by
    obtain ⟨hlt, hget⟩ := Array.getElem?_eq_some_iff.mp hrd
    unfold Func.atRegion
    congr 1
    refine Array.ext (by simp) fun i _ _ => ?_
    rw [Array.getElem_modify]
    split
    case isTrue heq =>
      subst heq
      rw [hget, ← hblocks]
    case isFalse => rfl
  have htake : takeRegion r f = .ok [] f := by
    refine (bind_of_ok (getRegion_eq hrd)).trans ?_
    refine (bind_of_ok (modifyRegion_eq hrd _)).trans ?_
    rw [hsame, hblocks]
    rfl
  refine (bind_of_ok (x := get) rfl).trans ?_
  exact (bind_of_ok htake).trans rfl

theorem clearAll_of_empty {l : List RegionId}
    (hl : ∀ r ∈ l, (f.region? r).map (·.blocks) = some []) : l.forM clearRegion f = .ok () f := by
  induction l with
  | nil => rfl
  | cons r l ih =>
    obtain ⟨hr, hl⟩ := List.forall_mem_cons.mp hl
    exact (bind_of_ok (clearRegion_of_empty hr)).trans (ih hl)

/-- An op with nothing below it dies. -/
theorem eraseOp_gives (hd : f.op? x = some d) (hbare : f.Bare d) (hp : d.parent = some b)
    (hb : f.block? b = some bd) (hx : x ∈ bd.ops) :
    ∃ f', eraseOp x f = .ok () f' ∧ f.SameOutline f' ∧
      (∀ y, f'.op? y = if y = x then some { d with parent := none, live := false } else f.op? y) ∧
      ∀ c, f'.block? c = if c = b then some { bd with ops := bd.ops.erase x } else f.block? c := by
  obtain ⟨f₁, hf₁, houtline, hops, hblocks⟩ := detachOp_gives hd hp hb hx
  have hd₁ : f₁.op? x = some { d with parent := none } := by simp [hops]
  have hd₂ : (f₁.atOp x fun d => { d with live := false }).op? x =
      some { d with parent := none, live := false } := by simp [Func.op?_atOp, hd₁]
  refine ⟨f₁.atOp x fun d => { d with live := false }, ?_, houtline.trans rfl, ?_, ?_⟩
  · unfold eraseOp
    refine (bind_of_ok (getOp_eq hd)).trans ?_
    simp only [hp, Option.isSome_some, if_true]
    refine (bind_of_ok hf₁).trans ?_
    refine (bind_of_ok (modifyOp_eq hd₁ _)).trans ?_
    refine (bind_of_ok (getOp_eq hd₂)).trans ?_
    exact clearAll_of_empty (houtline.bare hbare)
  · intro y
    rw [Func.op?_atOp, hops]
    by_cases hy : y = x
    · subst hy
      simp
    · simp [hy]
  · exact hblocks

end Edit

namespace Tidy

/-- A constant of a function: its op, its type and value, and its first result. -/
structure Const where
  op : OpId
  key : Ty × Literal
  value : ValueId

end Tidy

open Tidy

namespace Func

/-- The op defines the constant, and nothing is nested in it. -/
def Defines (f : Func) (c : Const) : Prop :=
  ∃ d, f.op? c.op = some d ∧ d.kind = .instr (.constant c.key.2) ∧
    d.results.head? = some c.value ∧ f.Bare d ∧
    ∃ info, f.value? c.value = some info ∧ info.ty = c.key.1

variable {f : Func} {c : Const}

/-- Reading a constant. -/
theorem Defines.reads (hc : f.Defines c) :
    Edit.getKind c.op f = .ok (.instr (.constant c.key.2)) f ∧
      Edit.result c.op f = .ok c.value f ∧ Edit.valueTy c.value f = .ok c.key.1 f := by
  obtain ⟨d, hd, hkind, hresults, -, info, hinfo, hty⟩ := hc
  refine ⟨?_, Edit.result_eq hd hresults, ?_⟩
  · rw [Edit.getKind_eq hd, hkind]
  · rw [Edit.valueTy_eq hinfo, hty]

theorem Owned.origin_of_defines (h : f.Owned) (hc : f.Defines c) :
    (f.value? c.value).map (·.origin) = some (.opResult c.op 0) := by
  obtain ⟨d, hd, -, hresults, -⟩ := hc
  exact h.result c.op d 0 c.value hd (by rw [← List.head?_eq_getElem?, hresults])

theorem Owned.op_eq_of_value (h : f.Owned) {c' : Const} (hc : f.Defines c) (hc' : f.Defines c')
    (hv : c.value = c'.value) : c.op = c'.op := by
  have horigin := h.origin_of_defines hc
  rw [hv, h.origin_of_defines hc', Option.some.injEq, Origin.opResult.injEq] at horigin
  exact horigin.1.symm

variable {f : Func} {x : OpId} {b b' : BlockId} {bd bd' : Block}

theorem Owned.owner_of_mem (h : f.Owned) (hb : f.block? b = some bd) (hx : x ∈ bd.ops) :
    f.ownerOfOp x = some b := by
  rw [← h.ops, opsIn, hb]
  exact hx

theorem Owned.notMem_of_ne (h : f.Owned) (hb : f.block? b = some bd) (hx : x ∈ bd.ops)
    (hb' : f.block? b' = some bd') (hne : b' ≠ b) : x ∉ bd'.ops := by
  intro hx'
  have howner := h.owner_of_mem hb' hx'
  rw [h.owner_of_mem hb hx, Option.some.injEq] at howner
  exact hne howner.symm

theorem Owned.nodup_ops (h : f.Owned) (hb : f.block? b = some bd) : bd.ops.Nodup := by
  have honce := h.opsOnce b
  rwa [opsIn, hb] at honce

/-- Leaving out one op more changes the block that lists it. -/
theorem Owned.filter_notMem (h : f.Owned) (hb : f.block? b = some bd) (hx : x ∈ bd.ops)
    (hb' : f.block? b' = some bd') (l : List OpId) :
    bd'.ops.filter (· ∉ l ++ [x]) =
      if b' = b then (bd'.ops.filter (· ∉ l)).erase x else bd'.ops.filter (· ∉ l) := by
  split
  case isTrue heq =>
    rw [((h.nodup_ops hb').filter _).erase_eq_filter, List.filter_filter]
    exact List.filter_congr fun y _ => by simp [Bool.and_comm, bne, BEq.beq]
  case isFalse hne =>
    refine List.filter_congr fun y hy => ?_
    have hyx : y ≠ x := fun hyx => h.notMem_of_ne hb hx hb' hne (hyx ▸ hy)
    simp [hyx]

end Func

namespace Tidy

/-- The ops of constants. -/
def opsOf (cs : List Const) : List OpId := cs.map (·.op)

/-- The table of the constants kept. -/
def tableOf (kept : List Const) : Kept := ⟨kept.map fun c => (c.key, c.value)⟩

/-- What has become of an op that is not erased, when uses are renamed by `σ`. -/
def renamed (σ : ValueId → ValueId) (d : Op) : Op :=
  if d.live then { d with operands := d.operands.map σ } else d

/-- The constants in `kept` and `gone` have been gone through. Those kept have different keys and
stand at the start of the block `home`; for each erased one, `σ` gives the result of the one kept
with its key. -/
structure Gathered (f : Func) (home : BlockId) (kept gone : List Const) (σ : ValueId → ValueId)
    (f' : Func) : Prop where
  outline : f.SameOutline f'
  defines : ∀ c ∈ kept ++ gone, f.Defines c
  once : (opsOf kept ++ opsOf gone).Nodup
  keys : (kept.map (·.key)).Nodup
  same : ∀ c ∈ gone, ∃ k ∈ kept, k.key = c.key ∧ σ c.value = k.value
  other : ∀ v, (∀ c ∈ gone, v ≠ c.value) → σ v = v
  block? (b : BlockId) : f'.block? b = (f.block? b).map fun d => { d with
    ops := (if b = home then opsOf kept else []) ++ d.ops.filter (· ∉ opsOf kept ++ opsOf gone) }
  op? (x : OpId) : x ∉ opsOf gone → f'.op? x = (f.op? x).map fun d => { renamed σ d with
    parent := if x ∈ opsOf kept then some home else d.parent }
  erased (x : OpId) : x ∈ opsOf gone → ∃ d operands, f.op? x = some d ∧
    f'.op? x = some { d with operands, parent := none, live := false }

@[simp] theorem opsOf_append (cs cs' : List Const) : opsOf (cs ++ cs') = opsOf cs ++ opsOf cs' :=
  List.map_append

@[simp] theorem opsOf_singleton (c : Const) : opsOf [c] = [c.op] := rfl

theorem perm_opsOf (kept gone : List Const) (c : Const) :
    (opsOf (kept ++ [c]) ++ opsOf gone).Perm (opsOf kept ++ opsOf gone ++ [c.op]) := by
  rw [opsOf_append, opsOf_singleton, List.append_assoc, List.append_assoc]
  exact List.Perm.append_left _ List.perm_append_comm

theorem filter_keep (kept gone : List Const) (c : Const) (l : List OpId) :
    l.filter (· ∉ opsOf (kept ++ [c]) ++ opsOf gone) =
      l.filter (· ∉ opsOf kept ++ opsOf gone ++ [c.op]) :=
  List.filter_congr fun x _ => by simp only [(perm_opsOf kept gone c).mem_iff]

@[simp] theorem renamed_live (σ : ValueId → ValueId) (d : Op) : (renamed σ d).live = d.live := by
  unfold renamed
  split <;> rfl

@[simp] theorem renamed_results (σ : ValueId → ValueId) (d : Op) :
    (renamed σ d).results = d.results := by
  unfold renamed
  split <;> rfl

@[simp] theorem renamed_kind (σ : ValueId → ValueId) (d : Op) : (renamed σ d).kind = d.kind := by
  unfold renamed
  split <;> rfl

@[simp] theorem renamed_regions (σ : ValueId → ValueId) (d : Op) :
    (renamed σ d).regions = d.regions := by
  unfold renamed
  split <;> rfl

theorem bare_renamed {f : Func} {σ : ValueId → ValueId} {d : Op} (h : f.Bare d) :
    f.Bare (renamed σ d) :=
  fun r hr => h r (renamed_regions σ d ▸ hr)

/-- Renaming one more value. -/
theorem replaceUse_renamed (σ : ValueId → ValueId) (d : Op) (old new : ValueId)
    (parent : Option BlockId) :
    Op.replaceUse old new { renamed σ d with parent } =
      { renamed (fun v => if σ v = old then new else σ v) d with parent } := by
  unfold Op.replaceUse renamed
  cases hl : d.live <;> simp [hl, Function.comp_def]

/-- A constant with a new key is kept. -/
theorem mergeConstant_of_notMem {f : Func} {kept : List Const} {c : Const} (hc : f.Defines c)
    (hkey : c.key ∉ kept.map (·.key)) :
    mergeConstant (tableOf kept) c.op f = .ok (false, tableOf (kept ++ [c])) f := by
  obtain ⟨hkind, hresult, hty⟩ := hc.reads
  have hentries : (tableOf kept).entries.map Prod.fst = kept.map (·.key) := by
    simp [tableOf, Function.comp_def]
  have hnone : (tableOf kept).get? c.key = none := Table.get?_eq_none (hentries ▸ hkey)
  have hinsert : (tableOf kept).insert c.key c.value = tableOf (kept ++ [c]) := by
    refine congrArg Table.mk ((Table.entries_insert _ _ (hentries ▸ hkey)).trans ?_)
    simp [tableOf]
  unfold mergeConstant
  refine (bind_of_ok hkind).trans ?_
  refine (bind_of_ok hresult).trans ?_
  refine (bind_of_ok hty).trans ?_
  simp only [hnone, hinsert]
  rfl

namespace Gathered

variable {f f' : Func} {home : BlockId} {kept gone : List Const} {σ : ValueId → ValueId}
  {c : Const} {b : BlockId} {bd : Block}

/-- Before the first constant. -/
theorem start (f : Func) (home : BlockId) : Gathered f home [] [] id f where
  outline := .refl f
  defines := by simp
  once := by simp [opsOf]
  keys := by simp
  same := by simp
  other v _ := rfl
  block? b := by
    cases hb : f.block? b <;> simp [opsOf]
  op? x _ := by
    cases hx : f.op? x with
    | none => rfl
    | some d =>
      unfold renamed
      rw [Option.map_some, if_neg (show x ∉ opsOf [] from List.not_mem_nil)]
      split <;> simp
  erased x hx := by simp [opsOf] at hx

/-- An op of a block that has not been gone through. -/
theorem op?_of_listed (h : Gathered f home kept gone σ f') (hf : f.Owned) {x : OpId}
    (hb : f.block? b = some bd) (hlisted : x ∈ bd.ops) (hkept : x ∉ opsOf kept)
    (hgone : x ∉ opsOf gone) :
    ∃ d, f.op? x = some d ∧ d.live = true ∧ d.parent = some b ∧
      f'.op? x = some (renamed σ d) := by
  have howner := hf.owner_of_mem hb hlisted
  cases hd : f.op? x with
  | none => simp [Func.ownerOfOp, hd] at howner
  | some d =>
    have hparent : d.parent = some b := by simpa [Func.ownerOfOp, hd] using howner
    have hlive : d.live = true := by
      by_contra hdead
      have := (hf.deadOp x d hd (by simpa using hdead)).1
      simp [hparent] at this
    refine ⟨d, rfl, hlive, hparent, ?_⟩
    rw [h.op? x hgone, hd, Option.map_some, if_neg hkept]
    unfold renamed
    split <;> rfl

section

variable (h : Gathered f home kept gone σ f') (hf : f.Owned) (hc : f.Defines c)
  (hkept : c.op ∉ opsOf kept) (hgone : c.op ∉ opsOf gone) (hb : f.block? b = some bd)
  (hlisted : c.op ∈ bd.ops)

include h hf hc hgone in
/-- A constant that has not been erased keeps its name. -/
theorem map_value : σ c.value = c.value :=
  h.other c.value fun g hg hv => hgone
    (List.mem_map.mpr ⟨g, hg, hf.op_eq_of_value (h.defines g (by simp [hg])) hc hv.symm⟩)

include h hf hc hkept hgone hb hlisted

theorem op?_of_fresh : ∃ d, f.op? c.op = some d ∧ d.kind = .instr (.constant c.key.2) ∧
    d.results.head? = some c.value ∧ f.Bare d ∧ d.live = true ∧ d.parent = some b ∧
    f'.op? c.op = some (renamed σ d) := by
  obtain ⟨d, hd, hlive, hparent, hd'⟩ := h.op?_of_listed hf hb hlisted hkept hgone
  obtain ⟨d₀, hd₀, hkind, hresults, hbare, -⟩ := hc
  obtain rfl : d = d₀ := by simpa [hd] using hd₀
  exact ⟨d, hd, hkind, hresults, hbare, hlive, hparent, hd'⟩

omit hc hgone in
/-- The blocks when one more op has been taken out of its block. -/
theorem block?_of_erase {f₁ : Func}
    (hblocks : ∀ b', f₁.block? b' = if b' = b then some { bd with
        ops := ((if b = home then opsOf kept else []) ++
          bd.ops.filter (· ∉ opsOf kept ++ opsOf gone)).erase c.op }
      else f'.block? b') (b' : BlockId) :
    f₁.block? b' = (f.block? b').map fun d => { d with
      ops := (if b' = home then opsOf kept else []) ++
        d.ops.filter (· ∉ opsOf kept ++ opsOf gone ++ [c.op]) } := by
  rw [hblocks]
  split
  case isTrue heq =>
    subst heq
    rw [hb, Option.map_some, hf.filter_notMem hb hlisted hb, if_pos rfl, List.erase_append_right]
    split
    · exact hkept
    · exact List.not_mem_nil
  case isFalse hne =>
    rw [h.block?]
    cases hb' : f.block? b' with
    | none => rfl
    | some bd' =>
      rw [Option.map_some, Option.map_some, hf.filter_notMem hb hlisted hb', if_neg hne]

variable {k : Const}

/-- One more constant is erased in favour of one kept before. -/
theorem erase (hk : k ∈ kept) (hkey : k.key = c.key) :
    ∃ f₁ f₂ σ', Edit.replaceAllUses c.value k.value f' = .ok () f₁ ∧
      Edit.eraseOp c.op f₁ = .ok () f₂ ∧ Gathered f home kept (gone ++ [c]) σ' f₂ := by
  obtain ⟨d, hd, -, -, hbare, hlive, hparent, hd'⟩ :=
    h.op?_of_fresh hf hc hkept hgone hb hlisted
  obtain ⟨f₁, hrun₁, houtline₁, hops₁, hblocks₁⟩ := Edit.replaceAllUses_gives c.value k.value f'
  let σ' : ValueId → ValueId := fun v => if σ v = c.value then k.value else σ v
  have hd₁ : f₁.op? c.op = some { d with operands := d.operands.map σ' } := by
    rw [hops₁, hd', Option.map_some]
    simp [Op.replaceUse, renamed, hlive, σ', Function.comp_def]
  have hmem : c.op ∈ bd.ops.filter (· ∉ opsOf kept ++ opsOf gone) := by
    simp [hlisted, hkept, hgone]
  obtain ⟨f₂, hrun₂, houtline₂, hops₂, hblocks₂⟩ := Edit.eraseOp_gives hd₁
    ((h.outline.trans houtline₁).bare hbare) hparent
    ((hblocks₁ b).trans (by rw [h.block?, hb]; rfl)) (List.mem_append_right _ hmem)
  refine ⟨f₁, f₂, σ', hrun₁, hrun₂, ?_⟩
  have hvalue := h.map_value hf hc hgone
  refine ⟨h.outline.trans (houtline₁.trans houtline₂), ?_, ?_, h.keys, ?_, ?_, ?_, ?_, ?_⟩
  · intro c' hc'
    rw [← List.append_assoc, List.mem_append, List.mem_singleton] at hc'
    obtain hc' | rfl := hc'
    · exact h.defines c' hc'
    · exact hc
  · rw [opsOf_append, ← List.append_assoc, opsOf_singleton]
    exact h.once.append (List.nodup_singleton _) (by simp [hkept, hgone])
  · intro g hg
    rw [List.mem_append, List.mem_singleton] at hg
    obtain hg | rfl := hg
    · obtain ⟨k', hk', hkey', hval'⟩ := h.same g hg
      have hne : k'.value ≠ c.value := fun hv => hkept (List.mem_map.mpr
        ⟨k', hk', hf.op_eq_of_value (h.defines k' (by simp [hk'])) hc hv⟩)
      exact ⟨k', hk', hkey', by simp [σ', hval', hne]⟩
    · exact ⟨k, hk, hkey, by simp [σ', hvalue]⟩
  · intro v hv
    have hσ : σ v = v := h.other v fun g hg => hv g (by simp [hg])
    simp [σ', hσ, hv c (by simp)]
  · rw [opsOf_append, ← List.append_assoc]
    refine h.block?_of_erase hf hkept hb hlisted fun b' => ?_
    rw [hblocks₂, hblocks₁]
  · intro x hx
    rw [opsOf_append, opsOf_singleton, List.mem_append, List.mem_singleton, not_or] at hx
    rw [hops₂, if_neg hx.2, hops₁, h.op? x hx.1, Option.map_map]
    exact congrArg (Option.map · (f.op? x)) (funext fun d => replaceUse_renamed ..)
  · intro x hx
    rw [opsOf_append, opsOf_singleton, List.mem_append, List.mem_singleton] at hx
    by_cases hxc : x = c.op
    · subst hxc
      exact ⟨d, d.operands.map σ', hd, by rw [hops₂, if_pos rfl]⟩
    · obtain ⟨d₀, operands, hd₀, hd₀'⟩ := h.erased x (hx.resolve_right hxc)
      refine ⟨d₀, operands, hd₀, ?_⟩
      rw [hops₂, if_neg hxc, hops₁, hd₀']
      rfl

omit hf hlisted hb in
/-- One more constant is kept, at the end of those kept before. -/
theorem add {f'' : Func} (hkey : c.key ∉ kept.map (·.key)) (houtline : f'.SameOutline f'')
    (hblocks : ∀ b', f''.block? b' = (f.block? b').map fun d => { d with
      ops := (if b' = home then opsOf kept ++ [c.op] else []) ++
        d.ops.filter (· ∉ opsOf kept ++ opsOf gone ++ [c.op]) })
    (hops : ∀ x, f''.op? x =
      if x = c.op then (f'.op? x).map fun d => { d with parent := some home } else f'.op? x) :
    Gathered f home (kept ++ [c]) gone σ f'' := by
  have hperm := perm_opsOf kept gone c
  refine ⟨h.outline.trans houtline, ?_, ?_, ?_, ?_, h.other, ?_, ?_, ?_⟩
  · intro c' hc'
    simp only [List.mem_append, List.mem_singleton] at hc'
    obtain (hc' | rfl) | hc' := hc'
    · exact h.defines c' (by simp [hc'])
    · exact hc
    · exact h.defines c' (by simp [hc'])
  · rw [hperm.nodup_iff]
    exact h.once.append (List.nodup_singleton _) (by simp [hkept, hgone])
  · rw [List.map_append]
    exact h.keys.append (List.nodup_singleton _) (by simpa using hkey)
  · intro g hg
    obtain ⟨k, hk, hsame⟩ := h.same g hg
    exact ⟨k, by simp [hk], hsame⟩
  · intro b'
    rw [hblocks]
    exact congrArg (Option.map · (f.block? b')) (funext fun d => by rw [filter_keep]; simp)
  · intro x hx
    rw [hops, h.op? x hx, opsOf_append, opsOf_singleton]
    split
    case isTrue heq =>
      subst heq
      simp [Option.map_map, Function.comp_def]
    case isFalse hne => simp [hne]
  · intro x hx
    have hxc : x ≠ c.op := fun hxc => hgone (hxc ▸ hx)
    rw [hops, if_neg hxc]
    exact h.erased x hx

/-- The next constant of the entry block is kept where it is. -/
theorem keep (hkey : c.key ∉ kept.map (·.key)) (hhome : b = home) {rest : List OpId}
    (hrest : bd.ops.filter (· ∉ opsOf kept ++ opsOf gone) = c.op :: rest) :
    Gathered f home (kept ++ [c]) gone σ f' := by
  subst hhome
  obtain ⟨d, hd, -, -, -, hlive, hparent, hd'⟩ := h.op?_of_fresh hf hc hkept hgone hb hlisted
  refine h.add hc hkept hgone hkey (.refl _) (fun b' => ?_) fun x => ?_
  · rw [h.block?]
    cases hb' : f.block? b' with
    | none => rfl
    | some bd' =>
      rw [Option.map_some, Option.map_some, hf.filter_notMem hb hlisted hb']
      split
      case isTrue heq =>
        subst heq
        obtain rfl : bd = bd' := by simpa [hb] using hb'
        rw [hrest]
        simp
      case isFalse hne => rfl
  · split
    case isTrue heq =>
      subst heq
      rw [hd']
      simp [renamed, hlive, ← hparent]
    case isFalse hne => rfl

/-- One more constant is moved behind those kept before. -/
theorem move (hkey : c.key ∉ kept.map (·.key)) {anchor : OpId} {hbd : Block}
    {post : List OpId} (hhome : f.block? home = some hbd)
    (hanchor : hbd.ops.filter (· ∉ opsOf kept ++ opsOf gone) = anchor :: post)
    (hne : anchor ≠ c.op) :
    ∃ f₁ f₂, Edit.detachOp c.op f' = .ok () f₁ ∧ Edit.insertOpBefore anchor c.op f₁ = .ok () f₂ ∧
      Gathered f home (kept ++ [c]) gone σ f₂ := by
  obtain ⟨d, -, -, -, -, hlive, hparent, hd'⟩ := h.op?_of_fresh hf hc hkept hgone hb hlisted
  have hanchorMem : anchor ∈ hbd.ops.filter (· ∉ opsOf kept ++ opsOf gone) := by
    rw [hanchor]
    exact List.mem_cons_self
  obtain ⟨hanchorListed, hanchorFresh⟩ := List.mem_filter.mp hanchorMem
  rw [decide_eq_true_iff, List.mem_append, not_or] at hanchorFresh
  obtain ⟨ad, -, halive, haparent, had⟩ :=
    h.op?_of_listed hf hhome hanchorListed hanchorFresh.1 hanchorFresh.2
  have renamed_parent (d : Op) : (renamed σ d).parent = d.parent := by
    unfold renamed
    split <;> rfl
  have hmem : c.op ∈ bd.ops.filter (· ∉ opsOf kept ++ opsOf gone) := by
    simp [hlisted, hkept, hgone]
  obtain ⟨f₁, hrun₁, houtline₁, hops₁, hblocks₁⟩ := Edit.detachOp_gives hd'
    ((renamed_parent d).trans hparent) (by rw [h.block?, hb]; rfl) (List.mem_append_right _ hmem)
  have hblocks := h.block?_of_erase hf hkept hb hlisted hblocks₁
  -- the anchor is still the first op behind those kept
  obtain ⟨post', hpost⟩ : ∃ post', hbd.ops.filter (· ∉ opsOf kept ++ opsOf gone ++ [c.op]) =
      anchor :: post' := by
    rw [hf.filter_notMem hb hlisted hhome, hanchor]
    split
    · exact ⟨post.erase c.op, List.erase_cons_tail (by simpa using hne)⟩
    · exact ⟨post, rfl⟩
  obtain ⟨f₂, hrun₂, houtline₂, hops₂, hblocks₂⟩ := Edit.insertOpBefore_gives
    ((hops₁ anchor).trans ((if_neg hne).trans had)) ((renamed_parent ad).trans haparent)
    ((hblocks home).trans (by rw [hhome]; rfl))
    (show _ = opsOf kept ++ anchor :: post' by simp only [if_true, hpost])
    hanchorFresh.1 ((hops₁ c.op).trans (if_pos rfl))
  refine ⟨f₁, f₂, hrun₁, hrun₂, h.add hc hkept hgone hkey (houtline₁.trans houtline₂)
    (fun b' => ?_) fun x => ?_⟩
  · rw [hblocks₂]
    split
    case isTrue heq =>
      rw [heq, hhome, Option.map_some, if_pos rfl, hpost]
      simp
    case isFalse hne => rw [hblocks, if_neg hne]
  · rw [hops₂, hops₁]
    split
    case isTrue heq =>
      subst heq
      rw [hd']
      rfl
    case isFalse hne => rfl

/-- A constant that has not been gone through is still defined. -/
theorem defines_of_fresh : f'.Defines c := by
  obtain ⟨d, -, hkind, hresults, hbare, -, -, hd'⟩ :=
    h.op?_of_fresh hf hc hkept hgone hb hlisted
  obtain ⟨-, -, -, -, -, info, hinfo, hty⟩ := hc
  exact ⟨renamed σ d, hd', (renamed_kind σ d).trans hkind,
    (congrArg _ (renamed_results σ d)).trans hresults, h.outline.bare (bare_renamed hbare), info,
    (h.outline.value? _).trans hinfo, hty⟩

theorem mergeConstant_of_mem (hk : k ∈ kept) (hkey : k.key = c.key) :
    ∃ f₁ σ', mergeConstant (tableOf kept) c.op f' = .ok (true, tableOf kept) f₁ ∧
      Gathered f home kept (gone ++ [c]) σ' f₁ := by
  obtain ⟨f₁, f₂, σ', hrun₁, hrun₂, hg⟩ := h.erase hf hc hkept hgone hb hlisted hk hkey
  obtain ⟨hkind, hresult, hty⟩ := (h.defines_of_fresh hf hc hkept hgone hb hlisted).reads
  have hfound : (tableOf kept).get? c.key = some k.value := by
    have hentry : (k.key, k.value) ∈ (tableOf kept).entries := List.mem_map_of_mem hk
    rw [← hkey]
    exact Table.get?_of_mem (by simpa [tableOf, Function.comp_def] using h.keys) hentry
  refine ⟨f₂, σ', ?_, hg⟩
  unfold mergeConstant
  refine (bind_of_ok hkind).trans ?_
  refine (bind_of_ok hresult).trans ?_
  refine (bind_of_ok hty).trans ?_
  simp only [hfound]
  refine (bind_of_ok hrun₁).trans ?_
  exact bind_of_ok hrun₂

end

/-- Going through the constants at the start of the entry block. -/
theorem mergeLeading (hf : f.Owned) (hhome : f.block? home = some bd) (cs : List Const)
    {rest : List OpId} (hcs : ∀ c ∈ cs, f.Defines c) (h : Gathered f home kept gone σ f')
    (hrest : bd.ops.filter (· ∉ opsOf kept ++ opsOf gone) = opsOf cs ++ rest) :
    ∃ ks gs σ' f'', Tidy.mergeLeading (tableOf kept) (opsOf cs) f' =
        .ok (gs.length, tableOf (kept ++ ks)) f'' ∧
      Gathered f home (kept ++ ks) (gone ++ gs) σ' f'' ∧ (ks ++ gs).Perm cs := by
  induction cs generalizing kept gone σ f' with
  | nil => exact ⟨[], [], σ, f', by simp [Tidy.mergeLeading, opsOf]; rfl, by simpa using h, .refl _⟩
  | cons c cs ih =>
    obtain ⟨hc, hcs⟩ := List.forall_mem_cons.mp hcs
    have hmem : c.op ∈ bd.ops.filter (· ∉ opsOf kept ++ opsOf gone) := by
      rw [hrest]
      exact List.mem_cons_self
    obtain ⟨hlisted, hfresh⟩ := List.mem_filter.mp hmem
    rw [decide_eq_true_iff, List.mem_append, not_or] at hfresh
    have hnext : bd.ops.filter (· ∉ opsOf kept ++ opsOf gone ++ [c.op]) = opsOf cs ++ rest := by
      rw [hf.filter_notMem hhome hlisted hhome, if_pos rfl, hrest]
      exact List.erase_cons_head c.op (opsOf cs ++ rest)
    by_cases hkey : c.key ∈ kept.map (·.key)
    · obtain ⟨k, hk, hkey⟩ := List.mem_map.mp hkey
      obtain ⟨f₁, σ₁, hrun₁, h₁⟩ :=
        h.mergeConstant_of_mem hf hc hfresh.1 hfresh.2 hhome hlisted hk hkey
      obtain ⟨ks, gs, σ₂, f₂, hrun₂, h₂, hperm⟩ := ih hcs h₁ (by
        rw [opsOf_append, ← List.append_assoc]
        exact hnext)
      refine ⟨ks, c :: gs, σ₂, f₂, ?_, by simpa using h₂, ?_⟩
      · refine (bind_of_ok hrun₁).trans ?_
        exact bind_of_ok hrun₂
      · exact List.perm_middle.trans (hperm.cons c)
    · have hrun₁ := mergeConstant_of_notMem
        (h.defines_of_fresh hf hc hfresh.1 hfresh.2 hhome hlisted) hkey
      obtain ⟨ks, gs, σ₂, f₂, hrun₂, h₂, hperm⟩ :=
        ih hcs (h.keep hf hc hfresh.1 hfresh.2 hhome hlisted hkey rfl hrest) (by
          rw [filter_keep]
          exact hnext)
      refine ⟨c :: ks, gs, σ₂, f₂, ?_, by simpa using h₂, hperm.cons c⟩
      refine (bind_of_ok hrun₁).trans ?_
      refine (bind_of_ok hrun₂).trans ?_
      simp
      rfl

/-- Going through the other constants. -/
theorem gather (hf : f.Owned) {hbd : Block} (hhome : f.block? home = some hbd) {anchor : OpId}
    (cs : List Const) {post : List OpId} (hcs : ∀ c ∈ cs, f.Defines c)
    (hplaced : ∀ c ∈ cs, ∃ b bd, f.block? b = some bd ∧ c.op ∈ bd.ops) (honce : (opsOf cs).Nodup)
    (hne : anchor ∉ opsOf cs) (h : Gathered f home kept gone σ f')
    (hfresh : ∀ c ∈ cs, c.op ∉ opsOf kept ∧ c.op ∉ opsOf gone)
    (hanchor : hbd.ops.filter (· ∉ opsOf kept ++ opsOf gone) = anchor :: post) :
    ∃ ks gs σ' f'', Tidy.gather anchor (tableOf kept) (opsOf cs) f' = .ok () f'' ∧
      Gathered f home (kept ++ ks) (gone ++ gs) σ' f'' ∧ (ks ++ gs).Perm cs := by
  induction cs generalizing kept gone σ f' post with
  | nil => exact ⟨[], [], σ, f', rfl, by simpa using h, .refl _⟩
  | cons c cs ih =>
    obtain ⟨hc, hcs⟩ := List.forall_mem_cons.mp hcs
    obtain ⟨⟨b, bd, hb, hlisted⟩, hplaced⟩ := List.forall_mem_cons.mp hplaced
    obtain ⟨⟨hkept, hgone⟩, hfresh⟩ := List.forall_mem_cons.mp hfresh
    obtain ⟨hnot, honce⟩ := List.nodup_cons.mp honce
    obtain ⟨hnec, hne⟩ : anchor ≠ c.op ∧ anchor ∉ opsOf cs := by
      simpa [opsOf] using hne
    have hnew : ∀ c' ∈ cs, c'.op ≠ c.op := fun c' hc' heq =>
      hnot (List.mem_map.mpr ⟨c', hc', heq⟩)
    obtain ⟨post', hnext⟩ : ∃ post', hbd.ops.filter (· ∉ opsOf kept ++ opsOf gone ++ [c.op]) =
        anchor :: post' := by
      rw [hf.filter_notMem hb hlisted hhome, hanchor]
      split
      · exact ⟨post.erase c.op, List.erase_cons_tail (by simpa using hnec)⟩
      · exact ⟨post, rfl⟩
    by_cases hkey : c.key ∈ kept.map (·.key)
    · obtain ⟨k, hk, hkey⟩ := List.mem_map.mp hkey
      obtain ⟨f₁, σ₁, hrun₁, h₁⟩ := h.mergeConstant_of_mem hf hc hkept hgone hb hlisted hk hkey
      obtain ⟨ks, gs, σ₂, f₂, hrun₂, h₂, hperm⟩ := ih hcs hplaced honce hne h₁
        (fun c' hc' => ⟨(hfresh c' hc').1, by simp [(hfresh c' hc').2, hnew c' hc']⟩) (by
          rw [opsOf_append, ← List.append_assoc]
          exact hnext)
      refine ⟨ks, c :: gs, σ₂, f₂, ?_, by simpa using h₂, List.perm_middle.trans (hperm.cons c)⟩
      exact (bind_of_ok hrun₁).trans hrun₂
    · have hrun₁ :=
        mergeConstant_of_notMem (h.defines_of_fresh hf hc hkept hgone hb hlisted) hkey
      obtain ⟨f₁, f₂, hdetach, hinsert, h₂⟩ :=
        h.move hf hc hkept hgone hb hlisted hkey hhome hanchor hnec
      obtain ⟨ks, gs, σ₃, f₃, hrun₃, h₃, hperm⟩ := ih hcs hplaced honce hne h₂
        (fun c' hc' => ⟨by simp [(hfresh c' hc').1, hnew c' hc'], (hfresh c' hc').2⟩) (by
          rw [filter_keep]
          exact hnext)
      refine ⟨c :: ks, gs, σ₃, f₃, ?_, by simpa using h₃, hperm.cons c⟩
      refine (bind_of_ok hrun₁).trans ?_
      refine (bind_of_ok hdetach).trans ?_
      exact (bind_of_ok hinsert).trans hrun₃

end Gathered

/-! ## Constants without a result -/

section

variable {f f₁ : Func} {table table₁ : Kept} {x : OpId} {d : Op} {e : Stop} {n : Nat}

/-- A constant without a result cannot be merged. -/
theorem mergeConstant_of_bare (hd : f.op? x = some d) {literal : Literal}
    (hkind : d.kind = .instr (.constant literal)) (hnone : d.results = []) (table : Kept) :
    mergeConstant table x f = .error .outOfRange f := by
  have hread : Edit.result? x f = .ok d.results.head? f := bind_of_ok (Edit.getOp_eq hd)
  have hresult : Edit.result x f = .error .outOfRange f := by
    refine (bind_of_ok hread).trans ?_
    rw [hnone]
    rfl
  refine (bind_of_ok (Edit.getKind_eq hd)).trans ?_
  rw [hkind]
  exact bind_of_error hresult

variable {l : List OpId}

theorem mergeLeading_of_error (rest : List OpId) (hl : mergeLeading table l f = .ok (n, table₁) f₁)
    (hx : mergeConstant table₁ x f₁ = .error e f₁) :
    mergeLeading table (l ++ x :: rest) f = .error e f₁ := by
  induction l generalizing table n f with
  | nil =>
    cases hl
    exact bind_of_error hx
  | cons y l ih =>
    obtain ⟨⟨erased, kept⟩, f', hy, hl⟩ := bind_eq_ok hl
    obtain ⟨⟨count, kept'⟩, f'', hl, hend⟩ := bind_eq_ok hl
    cases hend
    exact (bind_of_ok hy).trans (bind_of_error (ih hl))

theorem gather_of_error {anchor : OpId} (rest : List OpId)
    (hl : gather anchor table l f = .ok () f₁)
    (hx : ∀ table, mergeConstant table x f₁ = .error e f₁) :
    gather anchor table (l ++ x :: rest) f = .error e f₁ := by
  induction l generalizing table f with
  | nil =>
    cases hl
    exact bind_of_error (hx table)
  | cons y l ih =>
    obtain ⟨⟨erased, kept⟩, f', hy, hl⟩ := bind_eq_ok hl
    refine (bind_of_ok hy).trans ?_
    cases erased with
    | true => exact ih hl
    | false =>
      obtain ⟨_, f₂, hdetach, hl⟩ := bind_eq_ok hl
      obtain ⟨_, f₃, hinsert, hl⟩ := bind_eq_ok hl
      refine (bind_of_ok hdetach).trans ?_
      exact (bind_of_ok hinsert).trans (ih hl)

end

end Tidy

end Unnest
