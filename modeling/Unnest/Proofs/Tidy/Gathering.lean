import Unnest.Proofs.Tidy.Gathered
/-!
# Gathering the constants of a body

What the gathering of constants leaves behind (`gatherConstants_gathered`): the constants that were
at the start of the entry block and, if anything follows them there, all others of the body have
been gone through. There is nothing left to gather then (`Gathered.settled`).
-/

namespace Unnest

open Tidy

namespace Func

variable {f : Func}

/-- Every constant has one result, and nothing is nested in it. -/
def PlainConstants (f : Func) : Prop :=
  ∀ x d, f.op? x = some d → d.kind.isConstant = true → d.results.length = 1 ∧ f.Bare d

/-- The ops of the blocks of the body, in order. -/
def bodyOps (f : Func) : List OpId := (f.blocksIn f.body).flatMap f.opsIn

/-- Whether an op is a constant. -/
abbrev constantAt (f : Func) (x : OpId) : Bool := f.kindIs OpKind.isConstant x

/-- The constants at the start of the list. -/
def leading (f : Func) (l : List OpId) : List OpId := l.takeWhile f.constantAt

theorem leadingConstants_eq {l : List OpId} (hl : ∀ x ∈ l, ∃ d, f.op? x = some d) :
    leadingConstants f l = .ok (f.leading l) := by
  induction l with
  | nil => rfl
  | cons x l ih =>
    obtain ⟨⟨d, hd⟩, hl⟩ := List.forall_mem_cons.mp hl
    have hkind : f.kind x = .ok d.kind := by
      unfold kind op
      rw [hd]
      rfl
    have hat : f.constantAt x = d.kind.isConstant := by
      unfold constantAt kindIs
      rw [hd]
      rfl
    unfold leadingConstants leading
    rw [hkind, ih hl, List.takeWhile_cons, hat]
    change (if d.kind.isConstant = true then _ else _) = _
    cases d.kind.isConstant <;> rfl

theorem shallowOps_body (hbody : ∃ d, f.region? f.body = some d)
    (hblocks : ∀ b ∈ f.blocksIn f.body, ∃ d, f.block? b = some d) :
    f.shallowOps f.body = .ok f.bodyOps := by
  obtain ⟨rd, hrd⟩ := hbody
  have hmap (l : List BlockId) (hl : ∀ b ∈ l, ∃ d, f.block? b = some d) :
      ∃ ds : List Block, l.mapM f.block = .ok ds ∧ ds.flatMap (·.ops) = l.flatMap f.opsIn := by
    induction l with
    | nil => exact ⟨[], rfl, rfl⟩
    | cons b l ih =>
      obtain ⟨⟨d, hd⟩, hl⟩ := List.forall_mem_cons.mp hl
      obtain ⟨ds, hds, hops⟩ := ih hl
      refine ⟨d :: ds, ?_, ?_⟩
      · rw [List.mapM_cons, hds]
        unfold block
        rw [hd]
        rfl
      · rw [List.flatMap_cons, List.flatMap_cons, hops, opsIn, hd]
  have hlist : f.blocksIn f.body = rd.blocks := by rw [blocksIn, hrd]
  obtain ⟨ds, hds, hops⟩ := hmap _ hblocks
  unfold shallowOps region bodyOps
  rw [hrd, ← hops]
  rw [hlist] at hds
  change (do let blocks ← rd.blocks.mapM f.block; _) = _
  rw [hds]
  rfl

theorem otherConstants_eq {lead : List OpId} (hbody : ∃ d, f.region? f.body = some d)
    (hblocks : ∀ b ∈ f.blocksIn f.body, ∃ d, f.block? b = some d)
    (hops : ∀ x ∈ f.bodyOps, ∃ d, f.op? x = some d) :
    otherConstants f lead = .ok ((f.bodyOps.filter (· ∉ lead)).filter f.constantAt) := by
  unfold otherConstants
  rw [shallowOps_body hbody hblocks]
  refine filterM_of_ok fun x hx => ?_
  obtain ⟨d, hd⟩ := hops x (List.mem_of_mem_filter hx)
  unfold kind op constantAt kindIs
  rw [hd]
  rfl

/-- The constants of the body that are not at its start. -/
def scattered (f : Func) (lead : List OpId) : List OpId :=
  (f.bodyOps.filter (· ∉ lead)).filter f.constantAt

theorem mem_scattered {lead : List OpId} {x : OpId} :
    x ∈ f.scattered lead ↔ x ∈ f.bodyOps ∧ x ∉ lead ∧ f.constantAt x = true := by
  unfold scattered
  rw [List.mem_filter, List.mem_filter, decide_eq_true_iff, and_assoc]

theorem mem_bodyOps {x : OpId} : x ∈ f.bodyOps ↔ ∃ b ∈ f.blocksIn f.body, x ∈ f.opsIn b :=
  List.mem_flatMap

namespace Owned

theorem nodup_bodyOps (h : f.Owned) : f.bodyOps.Nodup := by
  refine List.nodup_flatMap.mpr ⟨fun b _ => h.opsOnce b, ?_⟩
  refine (h.blocksOnce f.body).pairwise_of_forall_ne fun b _ b' _ hne x hx hx' => hne ?_
  have howner := (h.ops b x).mp hx
  rw [(h.ops b' x).mp hx', Option.some.injEq] at howner
  exact howner.symm

theorem exists_op (h : f.Owned) {b : BlockId} {x : OpId} (hx : x ∈ f.opsIn b) :
    ∃ d, f.op? x = some d := by
  have howner := (h.ops b x).mp hx
  unfold ownerOfOp at howner
  cases hd : f.op? x with
  | none => simp [hd] at howner
  | some d => exact ⟨d, rfl⟩

theorem exists_block (h : f.Owned) {r : RegionId} {b : BlockId} (hb : b ∈ f.blocksIn r) :
    ∃ d, f.block? b = some d := by
  have howner := (h.blocks r b).mp hb
  unfold ownerOfBlock at howner
  cases hd : f.block? b with
  | none => simp [hd] at howner
  | some d => exact ⟨d, rfl⟩

/-- Constants with their keys and results, up to the first that has no result. -/
theorem exists_defines (h : f.Owned) {l : List OpId}
    (hl : ∀ x ∈ l, ∃ d, f.op? x = some d ∧ d.kind.isConstant = true ∧ f.Bare d) :
    ∃ (cs : List Const) (more : List OpId), l = opsOf cs ++ more ∧ (∀ c ∈ cs, f.Defines c) ∧
      ∀ x ∈ more.head?, ∃ d literal, f.op? x = some d ∧ d.kind = .instr (.constant literal) ∧
        d.results = [] := by
  induction l with
  | nil => exact ⟨[], [], rfl, by simp, by simp⟩
  | cons x l ih =>
    obtain ⟨⟨d, hd, hkind, hbare⟩, hl⟩ := List.forall_mem_cons.mp hl
    obtain ⟨literal, hliteral⟩ : ∃ literal, d.kind = .instr (.constant literal) := by
      unfold OpKind.isConstant at hkind
      split at hkind
      · exact ⟨_, ‹_›⟩
      · cases hkind
    cases hresults : d.results with
    | nil =>
      refine ⟨[], x :: l, rfl, by simp, fun y hy => ?_⟩
      obtain rfl : x = y := by simpa using hy
      exact ⟨d, literal, hd, hliteral, hresults⟩
    | cons v vs =>
      obtain ⟨cs, more, rfl, hcs, hmore⟩ := ih hl
      obtain ⟨info, hinfo, -⟩ :=
        Option.map_eq_some_iff.mp (h.result x d 0 v hd (by simp [hresults]))
      refine ⟨⟨x, (info.ty, literal), v⟩ :: cs, more, rfl,
        List.forall_mem_cons.mpr ⟨?_, hcs⟩, hmore⟩
      exact ⟨d, hd, hliteral, by simp [hresults], hbare, info, hinfo, rfl⟩

end Owned

/-- Everything that is listed is there. -/
structure Listed (f : Func) : Prop where
  body : ∃ d, f.region? f.body = some d
  blocks : ∀ b ∈ f.blocksIn f.body, ∃ d, f.block? b = some d
  ops : ∀ b ∈ f.blocksIn f.body, ∀ x ∈ f.opsIn b, ∃ d, f.op? x = some d

theorem Owned.listed (h : f.Owned) (hbody : ∃ d, f.region? f.body = some d) : f.Listed :=
  ⟨hbody, fun _ hb => h.exists_block hb, fun _ _ _ hx => h.exists_op hx⟩

end Func

namespace Tidy

variable {f f' : Func} {entry : BlockId} {blocks : List BlockId} {kept gone : List Const}
  {σ : ValueId → ValueId}

theorem exists_region {r : RegionId} (hblocks : f.blocksIn r = entry :: blocks) :
    ∃ d, f.region? r = some d ∧ d.blocks = entry :: blocks := by
  unfold Func.blocksIn at hblocks
  cases hr : f.region? r with
  | none => simp [hr] at hblocks
  | some rd => exact ⟨rd, rfl, by simpa [hr] using hblocks⟩

theorem entryBlock_eq (hentry : f.blocksIn f.body = entry :: blocks) :
    Edit.entryBlock f = .ok (some entry) f := by
  obtain ⟨rd, hrd, hblocks⟩ := exists_region hentry
  refine read_of_ok ?_ f
  unfold Func.entryBlock Func.bodyBlocks Func.region
  rw [hrd]
  change Except.ok rd.blocks.head? = _
  rw [hblocks]
  rfl

section

variable {f₁ f₂ : Func} {bd bd₁ : Block} {lead others : List OpId} {n : Nat} {table : Kept}
  (hentry : f.blocksIn f.body = entry :: blocks) (hbd : f.block? entry = some bd)
  (hlead : leadingConstants f bd.ops = .ok lead)
  (hmerge : mergeLeading {} lead f = .ok (n, table) f₁) (hbd₁ : f₁.block? entry = some bd₁)

include hentry hbd hlead

omit hmerge hbd₁ in
theorem gatherConstants_of_mergeLeading {e : Stop} (hmerge : mergeLeading {} lead f = .error e f₁) :
    gatherConstants f = .error e f₁ := by
  refine (bind_of_ok (entryBlock_eq hentry)).trans ?_
  dsimp only
  refine (bind_of_ok (x := get) rfl).trans ?_
  refine (bind_of_ok (Edit.getBlock_eq hbd)).trans ?_
  refine (bind_of_ok (read_of_ok hlead f)).trans ?_
  exact bind_of_error hmerge

include hmerge hbd₁

theorem gatherConstants_of_none (hanchor : bd₁.ops[table.entries.length]? = none) :
    gatherConstants f = .ok n f₁ := by
  refine (bind_of_ok (entryBlock_eq hentry)).trans ?_
  dsimp only
  refine (bind_of_ok (x := get) rfl).trans ?_
  refine (bind_of_ok (Edit.getBlock_eq hbd)).trans ?_
  refine (bind_of_ok (read_of_ok hlead f)).trans ?_
  refine (bind_of_ok hmerge).trans ?_
  refine (bind_of_ok (Edit.getBlock_eq hbd₁)).trans ?_
  simp only [hanchor]
  rfl

/-- What follows when the constants at the start have been gone through. -/
theorem gatherConstants_eq {anchor : OpId} (hanchor : bd₁.ops[table.entries.length]? = some anchor)
    (hothers : otherConstants f₁ lead = .ok others) :
    gatherConstants f =
      (do gather anchor table others; return n + others.length : Edit Nat) f₁ := by
  refine (bind_of_ok (entryBlock_eq hentry)).trans ?_
  dsimp only
  refine (bind_of_ok (x := get) rfl).trans ?_
  refine (bind_of_ok (Edit.getBlock_eq hbd)).trans ?_
  refine (bind_of_ok (read_of_ok hlead f)).trans ?_
  refine (bind_of_ok hmerge).trans ?_
  refine (bind_of_ok (Edit.getBlock_eq hbd₁)).trans ?_
  simp only [hanchor]
  refine (bind_of_ok (x := get) rfl).trans ?_
  exact bind_of_ok (read_of_ok hothers f₁)

theorem gatherConstants_of_some {anchor : OpId}
    (hanchor : bd₁.ops[table.entries.length]? = some anchor)
    (hothers : otherConstants f₁ lead = .ok others)
    (hgather : gather anchor table others f₁ = .ok () f₂) :
    gatherConstants f = .ok (n + others.length) f₂ :=
  (gatherConstants_eq hentry hbd hlead hmerge hbd₁ hanchor hothers).trans (bind_of_ok hgather)

end

namespace Gathered

theorem blocksIn (h : Gathered f entry kept gone σ f') (r : RegionId) :
    f'.blocksIn r = f.blocksIn r := by
  unfold Func.blocksIn
  rw [h.outline.region?]

theorem opsIn (h : Gathered f entry kept gone σ f') {b : BlockId} {bd : Block}
    (hb : f.block? b = some bd) : f'.opsIn b =
      (if b = entry then opsOf kept else []) ++
        (f.opsIn b).filter (· ∉ opsOf kept ++ opsOf gone) := by
  unfold Func.opsIn
  rw [h.block?, hb]
  rfl

theorem constantAt (h : Gathered f entry kept gone σ f') (x : OpId) :
    f'.constantAt x = f.constantAt x := by
  unfold Func.constantAt Func.kindIs
  by_cases hx : x ∈ opsOf gone
  · obtain ⟨d, operands, hd, hd'⟩ := h.erased x hx
    rw [hd, hd']
    rfl
  · rw [h.op? x hx]
    cases f.op? x with
    | none => rfl
    | some d => simp

theorem exists_op (h : Gathered f entry kept gone σ f') {x : OpId}
    (hx : ∃ d, f.op? x = some d) : ∃ d, f'.op? x = some d := by
  by_cases hgone : x ∈ opsOf gone
  · obtain ⟨d, operands, -, hd'⟩ := h.erased x hgone
    exact ⟨_, hd'⟩
  · obtain ⟨d, hd⟩ := hx
    exact ⟨_, by rw [h.op? x hgone, hd]; rfl⟩

theorem exists_block (h : Gathered f entry kept gone σ f') {b : BlockId}
    (hb : ∃ d, f.block? b = some d) : ∃ d, f'.block? b = some d := by
  obtain ⟨d, hd⟩ := hb
  exact ⟨_, by rw [h.block?, hd]; rfl⟩

/-- The ops that are listed now were listed before. -/
theorem exists_of_mem_bodyOps (h : Gathered f entry kept gone σ f') (hf : f.Owned) {x : OpId}
    (hx : x ∈ f'.bodyOps) : ∃ d, f'.op? x = some d := by
  obtain ⟨b, hb, hx⟩ := List.mem_flatMap.mp hx
  rw [h.outline.body, h.blocksIn] at hb
  obtain ⟨bd, hbd⟩ := hf.exists_block hb
  rw [h.opsIn hbd, List.mem_append] at hx
  refine h.exists_op ?_
  obtain hx | hx := hx
  · split at hx
    · obtain ⟨c, hc, rfl⟩ := List.mem_map.mp hx
      obtain ⟨d, hd, -⟩ := h.defines c (by simp [hc])
      exact ⟨d, hd⟩
    · simp at hx
  · exact hf.exists_op (List.mem_of_mem_filter hx)

/-- Constants that have not been gone through are scattered as before. -/
theorem scattered (h : Gathered f entry kept gone σ f') (hf : f.Owned) {lead : List OpId}
    (hlead : ∀ x ∈ opsOf kept ++ opsOf gone, x ∈ lead) : f'.scattered lead = f.scattered lead := by
  have hblock : ∀ b ∈ f.blocksIn f.body,
      (f'.opsIn b).filter (· ∉ lead) = (f.opsIn b).filter (· ∉ lead) := by
    intro b hb
    obtain ⟨bd, hbd⟩ := hf.exists_block hb
    have hkept : (if b = entry then opsOf kept else []).filter (· ∉ lead) = [] := by
      refine List.filter_eq_nil_iff.mpr fun x hx => ?_
      split at hx
      · simpa using hlead x (List.mem_append_left _ hx)
      · simp at hx
    rw [h.opsIn hbd, List.filter_append, hkept, List.nil_append, List.filter_filter]
    refine List.filter_congr fun x _ => ?_
    by_cases hx : x ∈ lead
    · simp [hx]
    · have hnot : x ∉ opsOf kept ++ opsOf gone := fun hmem => hx (hlead x hmem)
      simp only [hx, hnot, not_false_eq_true, decide_true, Bool.and_self]
  have hbody : f'.bodyOps.filter (· ∉ lead) = f.bodyOps.filter (· ∉ lead) := by
    unfold Func.bodyOps
    rw [List.filter_flatMap, List.filter_flatMap, h.outline.body, h.blocksIn,
      List.flatMap_congr hblock]
  unfold Func.scattered
  rw [hbody]
  exact List.filter_congr fun x _ => h.constantAt x

end Gathered

/-- What is left of the entry block without the constants at its start. -/
theorem filter_leading {l taken : List OpId} (hl : l.Nodup) (htaken : taken.Perm (f.leading l)) :
    l.filter (· ∉ taken) = l.dropWhile f.constantAt := by
  have hsplit : f.leading l ++ l.dropWhile f.constantAt = l := List.takeWhile_append_dropWhile
  have hdisjoint := List.disjoint_of_nodup_append (hsplit.symm ▸ hl)
  calc l.filter (· ∉ taken)
      = (f.leading l ++ l.dropWhile f.constantAt).filter (· ∉ taken) := by rw [hsplit]
    _ = [] ++ l.dropWhile f.constantAt := by
        rw [List.filter_append]
        congr 1
        · exact List.filter_eq_nil_iff.mpr fun x hx => by simpa using htaken.mem_iff.mpr hx
        · refine List.filter_eq_self.mpr fun x hx => ?_
          simpa using fun hmem => hdisjoint (htaken.mem_iff.mp hmem) hx

/-- A constant that has been met has no result, so the gathering stops. -/
def Stuck (f : Func) : Prop :=
  ∃ x ∈ f.bodyOps, f.constantAt x = true ∧ (∃ d, f.op? x = some d ∧ d.results = []) ∧
    ∃ e f', gatherConstants f = .error e f'

/-- What gathering the constants of a body does, if they own nothing. With nothing but constants in
the entry block, those in other blocks are left alone. -/
theorem gatherConstants_cases (hf : f.Owned)
    (hbare : ∀ x ∈ f.bodyOps, ∀ d, f.op? x = some d → d.kind.isConstant = true → f.Bare d)
    (hentry : f.blocksIn f.body = entry :: blocks) :
    Stuck f ∨ ∃ ks gs ks' gs' n σ f', gatherConstants f = .ok n f' ∧
      Gathered f entry (ks ++ ks') (gs ++ gs') σ f' ∧
      (opsOf ks ++ opsOf gs).Perm (f.leading (f.opsIn entry)) ∧
      (n = gs.length ∧ ks' = [] ∧ gs' = [] ∧ f.leading (f.opsIn entry) = f.opsIn entry ∨
        n = gs.length + (f.scattered (f.leading (f.opsIn entry))).length ∧
          (opsOf ks' ++ opsOf gs').Perm (f.scattered (f.leading (f.opsIn entry))) ∧
          f.leading (f.opsIn entry) ≠ f.opsIn entry) := by
  have hmem : entry ∈ f.blocksIn f.body := by simp [hentry]
  obtain ⟨bd, hbd⟩ := hf.exists_block hmem
  have hops : f.opsIn entry = bd.ops := by rw [Func.opsIn, hbd]
  have hexists : ∀ x ∈ bd.ops, ∃ d, f.op? x = some d := fun x hx => hf.exists_op (hops ▸ hx)
  have hconstant : ∀ x ∈ f.bodyOps, f.constantAt x = true →
      ∃ d, f.op? x = some d ∧ d.kind.isConstant = true ∧ f.Bare d := by
    intro x hx hconst
    obtain ⟨b, -, hb⟩ := Func.mem_bodyOps.mp hx
    obtain ⟨d, hd⟩ := hf.exists_op hb
    have hkind : d.kind.isConstant = true := by
      simpa [Func.constantAt, Func.kindIs, hd] using hconst
    exact ⟨d, hd, hkind, hbare x hx d hd hkind⟩
  have hleading : ∀ x ∈ f.leading bd.ops, x ∈ f.bodyOps ∧ f.constantAt x = true := fun x hx =>
    ⟨Func.mem_bodyOps.mpr ⟨entry, hmem, hops ▸ List.takeWhile_subset _ hx⟩,
      List.mem_takeWhile_imp hx⟩
  obtain ⟨cs, more, hsplit, hcs, hmore⟩ := hf.exists_defines (l := f.leading bd.ops)
    fun x hx => hconstant x (hleading x hx).1 (hleading x hx).2
  -- the constants at the start
  have hparts : opsOf cs ++ (more ++ bd.ops.dropWhile f.constantAt) = bd.ops := by
    rw [← List.append_assoc, ← hsplit]
    exact List.takeWhile_append_dropWhile
  have hlead : leadingConstants f bd.ops = .ok (opsOf cs ++ more) :=
    hsplit ▸ Func.leadingConstants_eq hexists
  obtain ⟨ks, gs, σ₁, f₁, hmerge, h₁, hperm₁⟩ := (Gathered.start f entry).mergeLeading hf hbd cs hcs
    (by rw [hparts]; simp [opsOf])
  rw [List.nil_append, List.nil_append] at h₁
  cases more with
  | cons x more =>
    left
    obtain ⟨d, literal, hd, hkind, hnone⟩ := hmore x rfl
    have hx : x ∈ f.leading bd.ops := by simp [hsplit]
    have hfresh : x ∉ opsOf ks ∧ x ∉ opsOf gs := by
      have hnodup : (opsOf cs ++ x :: more).Nodup :=
        hsplit ▸ (hf.nodup_ops hbd).sublist (List.takeWhile_sublist _)
      have hnot : x ∉ opsOf cs := fun hx =>
        List.disjoint_of_nodup_append hnodup hx List.mem_cons_self
      rw [← not_or, ← List.mem_append, ← opsOf_append]
      exact fun hx => hnot ((hperm₁.map (·.op)).mem_iff.mp hx)
    obtain ⟨d', hd', -, -, hnow⟩ :=
      h₁.op?_of_listed hf hbd (List.takeWhile_subset _ hx) hfresh.1 hfresh.2
    obtain rfl : d = d' := by simpa [hd] using hd'
    refine ⟨x, (hleading x hx).1, (hleading x hx).2, ⟨d, hd, hnone⟩, _, _,
      gatherConstants_of_mergeLeading hentry hbd hlead (mergeLeading_of_error more hmerge
        (mergeConstant_of_bare hnow ((renamed_kind σ₁ d).trans hkind)
          ((renamed_results σ₁ d).trans hnone) _))⟩
  | nil =>
  rw [List.append_nil] at hsplit hlead
  rw [List.nil_append] at hparts
  have htaken : (opsOf ks ++ opsOf gs).Perm (f.leading bd.ops) := by
    rw [hsplit, ← opsOf_append]
    exact hperm₁.map _
  have hleft := filter_leading (hf.nodup_ops hbd) htaken
  have hbd₁ : f₁.block? entry = some { bd with
      ops := opsOf ks ++ bd.ops.dropWhile f.constantAt } := by
    rw [h₁.block?, hbd, Option.map_some, if_pos rfl, hleft]
  have hanchor : (opsOf ks ++ bd.ops.dropWhile f.constantAt)[(tableOf ks).entries.length]? =
      (bd.ops.dropWhile f.constantAt).head? := by
    have hlength : (tableOf ks).entries.length = (opsOf ks).length := by simp [tableOf, opsOf]
    rw [hlength, List.getElem?_append_right le_rfl, Nat.sub_self, List.head?_eq_getElem?]
  rw [hops]
  cases hrest : bd.ops.dropWhile f.constantAt with
  | nil =>
    rw [hrest] at hanchor
    have hall : f.leading bd.ops = bd.ops := by
      rw [hsplit, ← hparts, hrest, List.append_nil]
    exact .inr ⟨ks, gs, [], [], gs.length, σ₁, f₁,
      gatherConstants_of_none hentry hbd hlead hmerge hbd₁ (by rw [hrest]; exact hanchor),
      by simpa using h₁, htaken, .inl ⟨rfl, rfl, rfl, hall⟩⟩
  | cons anchor post =>
    rw [hrest] at hanchor hleft
    have hnotConst : f.constantAt anchor = false := by
      have := List.head?_dropWhile_not f.constantAt bd.ops
      simpa [hrest] using this
    -- the other constants
    obtain ⟨cs', more', hsplit', hcs', hmore'⟩ := hf.exists_defines
      (l := f.scattered (f.leading bd.ops)) fun x hx =>
        hconstant x (Func.mem_scattered.mp hx).1 (Func.mem_scattered.mp hx).2.2
    have hplaced : ∀ x ∈ f.scattered (f.leading bd.ops),
        ∃ b bd, f.block? b = some bd ∧ x ∈ bd.ops := by
      intro x hx
      obtain ⟨hx, -⟩ := Func.mem_scattered.mp hx
      obtain ⟨b, hb, hx⟩ := Func.mem_bodyOps.mp hx
      obtain ⟨bd, hbd⟩ := hf.exists_block hb
      exact ⟨b, bd, hbd, by rwa [Func.opsIn, hbd] at hx⟩
    have honce : (f.scattered (f.leading bd.ops)).Nodup := (hf.nodup_bodyOps.filter _).filter _
    have hfresh : ∀ x ∈ f.scattered (f.leading bd.ops), x ∉ opsOf ks ∧ x ∉ opsOf gs := by
      intro x hx
      have hnot := (Func.mem_scattered.mp hx).2.1
      rw [← htaken.mem_iff, List.mem_append, not_or] at hnot
      exact hnot
    have hmem' : ∀ c ∈ cs', c.op ∈ f.scattered (f.leading bd.ops) := fun c hc => by
      rw [hsplit']
      exact List.mem_append_left _ (List.mem_map_of_mem hc)
    obtain ⟨ks', gs', σ₂, f₂, hgather, h₂, hperm₂⟩ :=
      h₁.gather hf hbd cs' hcs' (fun c hc => hplaced c.op (hmem' c hc))
        (hsplit' ▸ honce).of_append_left
        (fun hx => by
          obtain ⟨c, hc, rfl⟩ := List.mem_map.mp hx
          simpa [hnotConst] using (Func.mem_scattered.mp (hmem' c hc)).2.2)
        (fun c hc => hfresh c.op (hmem' c hc)) hleft
    have hothers : otherConstants f₁ (opsOf cs) = .ok (opsOf cs' ++ more') := by
      have hbody : ∃ d, f₁.region? f₁.body = some d := by
        obtain ⟨d, hd, -⟩ := exists_region hentry
        exact ⟨d, by rw [h₁.outline.region?, h₁.outline.body, hd]⟩
      rw [Func.otherConstants_eq hbody ?_ ?_, ← hsplit, ← hsplit']
      · exact congrArg Except.ok (h₁.scattered hf fun x hx => htaken.mem_iff.mp hx)
      · intro b hb
        rw [h₁.outline.body, h₁.blocksIn] at hb
        exact h₁.exists_block (hf.exists_block hb)
      · exact fun x hx => h₁.exists_of_mem_bodyOps hf hx
    have hnext : ({ bd with ops := opsOf ks ++ bd.ops.dropWhile f.constantAt } : Block).ops[
        (tableOf ks).entries.length]? = some anchor := by rw [hrest]; exact hanchor
    cases more' with
    | cons x more' =>
      left
      obtain ⟨d, literal, hd, hkind, hnone⟩ := hmore' x rfl
      have hx : x ∈ f.scattered (f.leading bd.ops) := by simp [hsplit']
      obtain ⟨b, bd', hb, hlisted⟩ := hplaced x hx
      have hnot : x ∉ opsOf ks' ++ opsOf gs' := by
        rw [← opsOf_append]
        exact fun hx => List.disjoint_of_nodup_append (hsplit' ▸ honce)
          ((hperm₂.map (·.op)).mem_iff.mp hx) List.mem_cons_self
      rw [List.mem_append, not_or] at hnot
      obtain ⟨d', hd', -, -, hnow⟩ := h₂.op?_of_listed hf hb hlisted
        (by simpa using ⟨(hfresh x hx).1, hnot.1⟩) (by simpa using ⟨(hfresh x hx).2, hnot.2⟩)
      obtain rfl : d = d' := by simpa [hd] using hd'
      have hstops := gather_of_error more' hgather (mergeConstant_of_bare hnow
        ((renamed_kind σ₂ d).trans hkind) ((renamed_results σ₂ d).trans hnone))
      exact ⟨x, (Func.mem_scattered.mp hx).1, (Func.mem_scattered.mp hx).2.2, ⟨d, hd, hnone⟩, _, _,
        (gatherConstants_eq hentry hbd hlead hmerge hbd₁ hnext hothers).trans
          (bind_of_error hstops)⟩
    | nil =>
      right
      rw [List.append_nil] at hsplit' hothers
      refine ⟨ks, gs, ks', gs', gs.length + (opsOf cs').length, σ₂, f₂,
        gatherConstants_of_some hentry hbd hlead hmerge hbd₁ hnext hothers hgather, h₂, htaken,
        .inr ⟨by rw [hsplit'], ?_, fun hall => ?_⟩⟩
      · rw [hsplit', ← opsOf_append]
        exact hperm₂.map _
      · have : anchor ∈ f.leading bd.ops := by
          rw [hall, ← hparts, hrest]
          simp
        rw [List.mem_takeWhile_imp this] at hnotConst
        cases hnotConst

/-- Constants with a result each are gathered. -/
theorem gatherConstants_gathered (hf : f.Owned) (hplain : f.PlainConstants)
    (hentry : f.blocksIn f.body = entry :: blocks) :
    ∃ ks gs ks' gs' n σ f', gatherConstants f = .ok n f' ∧
      Gathered f entry (ks ++ ks') (gs ++ gs') σ f' ∧
      (opsOf ks ++ opsOf gs).Perm (f.leading (f.opsIn entry)) ∧
      (n = gs.length ∧ ks' = [] ∧ gs' = [] ∧ f.leading (f.opsIn entry) = f.opsIn entry ∨
        n = gs.length + (f.scattered (f.leading (f.opsIn entry))).length ∧
          (opsOf ks' ++ opsOf gs').Perm (f.scattered (f.leading (f.opsIn entry))) ∧
          f.leading (f.opsIn entry) ≠ f.opsIn entry) := by
  refine (gatherConstants_cases hf (fun x _ d hd hkind => (hplain x d hd hkind).2)
    hentry).resolve_left ?_
  rintro ⟨x, -, hconst, ⟨d, hd, hnone⟩, -⟩
  have hkind : d.kind.isConstant = true := by simpa [Func.constantAt, Func.kindIs, hd] using hconst
  simpa [hnone] using (hplain x d hd hkind).1

/-- The constants that have been gone through are those of the body. -/
theorem mem_taken {ks gs ks' gs' : List Const} {lead : List OpId}
    (hlead : (opsOf ks ++ opsOf gs).Perm lead)
    (hscattered : (opsOf ks' ++ opsOf gs').Perm (f.scattered lead)) {x : OpId}
    (hx : x ∈ f.bodyOps) (hconst : f.constantAt x = true) :
    x ∈ opsOf (ks ++ ks') ++ opsOf (gs ++ gs') := by
  simp only [opsOf_append, List.mem_append]
  by_cases hx' : x ∈ lead
  · obtain hx' | hx' := List.mem_append.mp (hlead.mem_iff.mpr hx')
    · exact .inl (.inl hx')
    · exact .inr (.inl hx')
  · obtain hx' | hx' := List.mem_append.mp
      (hscattered.mem_iff.mpr (Func.mem_scattered.mpr ⟨hx, hx', hconst⟩))
    · exact .inl (.inr hx')
    · exact .inr (.inr hx')

/-! ## A second time -/

/-- Constants with different keys are all kept. -/
theorem mergeLeading_of_nodup (cs : List Const) {kept : List Const} (hcs : ∀ c ∈ cs, f.Defines c)
    (hkeys : ((kept ++ cs).map (·.key)).Nodup) :
    mergeLeading (tableOf kept) (opsOf cs) f = .ok (0, tableOf (kept ++ cs)) f := by
  induction cs generalizing kept with
  | nil => rw [List.append_nil]; rfl
  | cons c cs ih =>
    obtain ⟨hc, hcs⟩ := List.forall_mem_cons.mp hcs
    have hkey : c.key ∉ kept.map (·.key) := by
      rw [List.map_append, List.map_cons] at hkeys
      exact (List.nodup_middle.mp hkeys).notMem ∘ List.mem_append_left _
    rw [List.append_cons] at hkeys
    refine (bind_of_ok (mergeConstant_of_notMem hc hkey)).trans ?_
    refine (bind_of_ok (ih hcs hkeys)).trans ?_
    rw [← List.append_cons]
    rfl

/-- The constants `cs` stand at the start of the entry block and have different keys. If anything
follows them there, the body has no others. -/
structure Settled (f : Func) (entry : BlockId) (cs : List Const) : Prop where
  first : (f.blocksIn f.body).head? = some entry
  leading : f.leading (f.opsIn entry) = opsOf cs
  defines : ∀ c ∈ cs, f.Defines c
  keys : (cs.map (·.key)).Nodup
  others : (f.opsIn entry).length ≤ cs.length ∨ f.scattered (opsOf cs) = []

/-- Nothing is left to gather then. -/
theorem Settled.gatherConstants {cs : List Const} (h : Settled f entry cs) (hf : f.Listed) :
    Tidy.gatherConstants f = .ok 0 f := by
  obtain ⟨blocks, hentry⟩ := List.head?_eq_some_iff.mp h.first
  have hmem : entry ∈ f.blocksIn f.body := by simp [hentry]
  obtain ⟨bd, hbd⟩ := hf.blocks entry hmem
  have hops : f.opsIn entry = bd.ops := by rw [Func.opsIn, hbd]
  have hlead : leadingConstants f bd.ops = .ok (opsOf cs) := by
    rw [Func.leadingConstants_eq fun x hx => hf.ops entry hmem x (hops ▸ hx), ← hops, h.leading]
  have hmerge : mergeLeading (tableOf []) (opsOf cs) f = .ok (0, tableOf ([] ++ cs)) f :=
    mergeLeading_of_nodup cs h.defines (by simpa using h.keys)
  rw [List.nil_append] at hmerge
  have hlength : (tableOf cs).entries.length = cs.length := by simp [tableOf]
  cases hanchor : bd.ops[(tableOf cs).entries.length]? with
  | none => exact gatherConstants_of_none hentry hbd hlead hmerge hbd hanchor
  | some anchor =>
    obtain ⟨hlt, -⟩ := List.getElem?_eq_some_iff.mp hanchor
    obtain hle | hnone := h.others
    · rw [hops] at hle
      omega
    · have hothers : otherConstants f (opsOf cs) = .ok [] := by
        rw [Func.otherConstants_eq hf.body hf.blocks fun x hx => ?_]
        · exact congrArg Except.ok hnone
        · obtain ⟨b, hb, hx⟩ := Func.mem_bodyOps.mp hx
          exact hf.ops b hb x hx
      exact gatherConstants_of_some hentry hbd hlead hmerge hbd hanchor hothers rfl

namespace Gathered

variable {bd : Block} (h : Gathered f entry kept gone σ f') (hf : f.Owned)

include h

theorem defines_kept {c : Const} (hc : c ∈ kept) : f'.Defines c := by
  have hgone : c.op ∉ opsOf gone := fun hmem =>
    List.disjoint_of_nodup_append h.once (List.mem_map_of_mem hc) hmem
  obtain ⟨d, hd, hkind, hresults, hbare, info, hinfo, hty⟩ := h.defines c (by simp [hc])
  have hd' := h.op? c.op hgone
  rw [hd, Option.map_some] at hd'
  exact ⟨_, hd', (renamed_kind σ d).trans hkind,
    (congrArg _ (renamed_results σ d)).trans hresults, h.outline.bare (bare_renamed hbare), info,
    (h.outline.value? _).trans hinfo, hty⟩

theorem constantAt_kept {x : OpId} (hx : x ∈ opsOf kept) : f'.constantAt x = true := by
  obtain ⟨c, hc, rfl⟩ := List.mem_map.mp hx
  obtain ⟨d, hd, hkind, -⟩ := h.defines_kept hc
  simp [Func.constantAt, Func.kindIs, hd, hkind, OpKind.isConstant]

/-- The constants kept are those at the start of the entry block, if no other one is left there. -/
theorem leading_kept (hbd : f.block? entry = some bd)
    (hall : ∀ x ∈ f.opsIn entry, f.constantAt x = true → x ∈ opsOf kept ++ opsOf gone) :
    f'.leading (f'.opsIn entry) = opsOf kept := by
  unfold Func.leading
  rw [h.opsIn hbd, if_pos rfl, List.takeWhile_append_of_pos fun x hx => h.constantAt_kept hx,
    List.takeWhile_eq_nil_iff.mpr, List.append_nil]
  intro hlt hconst
  obtain ⟨hmem, hnot⟩ := List.mem_filter.mp (List.getElem_mem hlt)
  rw [h.constantAt] at hconst
  exact of_decide_eq_true hnot (hall _ hmem hconst)

include hf

/-- Everything that is listed is there. -/
theorem isListed (hbody : ∃ d, f.region? f.body = some d) : f'.Listed where
  body := by rwa [h.outline.body, h.outline.region?]
  blocks b hb := by
    rw [h.outline.body, h.blocksIn] at hb
    exact h.exists_block (hf.exists_block hb)
  ops b hb x hx := h.exists_of_mem_bodyOps hf (Func.mem_bodyOps.mpr ⟨b, hb, hx⟩)

/-- Nothing is left to gather, if all constants of the body have been gone through or the entry
block has nothing but constants. -/
theorem settled (hentry : f.blocksIn f.body = entry :: blocks) (hbd : f.block? entry = some bd)
    (hall : ∀ x ∈ f.opsIn entry, f.constantAt x = true → x ∈ opsOf kept ++ opsOf gone)
    (hbody : (∀ x ∈ f.opsIn entry, x ∈ opsOf kept ++ opsOf gone) ∨
      ∀ x ∈ f.bodyOps, f.constantAt x = true → x ∈ opsOf kept ++ opsOf gone) :
    Settled f' entry kept where
  first := by rw [h.outline.body, h.blocksIn, hentry, List.head?_cons]
  leading := h.leading_kept hbd hall
  defines c hc := h.defines_kept hc
  keys := h.keys
  others := by
    obtain hfull | hbody := hbody
    · left
      rw [h.opsIn hbd, if_pos rfl, List.filter_eq_nil_iff.mpr]
      · simp [opsOf]
      · intro x hx
        rw [decide_eq_true_iff, not_not]
        exact hfull x hx
    · right
      refine List.eq_nil_iff_forall_not_mem.mpr fun x hx => ?_
      obtain ⟨hx, hnot, hconst⟩ := Func.mem_scattered.mp hx
      obtain ⟨b, hb, hx⟩ := Func.mem_bodyOps.mp hx
      rw [h.outline.body, h.blocksIn] at hb
      obtain ⟨bd₁, hbd₁⟩ := hf.exists_block hb
      rw [h.opsIn hbd₁, List.mem_append] at hx
      obtain hx | hx := hx
      · split at hx
        · exact hnot hx
        · simp at hx
      · rw [List.mem_filter, decide_eq_true_iff] at hx
        rw [h.constantAt] at hconst
        exact hx.2 (hbody x (Func.mem_bodyOps.mpr ⟨b, hb, hx.1⟩) hconst)

end Gathered

end Tidy

end Unnest
