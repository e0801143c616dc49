import Unnest.Proofs.Arena.Entries
import Unnest.Proofs.Meets
/-!
# What the primitive edits do to the entries

Each primitive changes the entries of the nodes it names and keeps all others. A new node gets the
position at the end of its table, which no entry has.
-/

namespace Unnest

variable {stop : Prop} {f : Func} {e : Entries}

/-- The values that are made next. -/
def Func.freshValues (f : Func) (count : Nat) : List ValueId :=
  (List.range count).map fun i => ⟨f.values.size + i⟩

/-- The regions that are made next. -/
def Func.freshRegions (f : Func) (count : Nat) : List RegionId :=
  (List.range count).map fun i => ⟨f.regions.size + i⟩

@[simp] theorem Func.freshValues_zero (f : Func) : f.freshValues 0 = [] := rfl

@[simp] theorem Func.freshRegions_zero (f : Func) : f.freshRegions 0 = [] := rfl

theorem Func.zipIdx_freshValues {α : Type} (f : Func) (count : Nat) (g : ValueId → Nat → α) :
    ((f.freshValues count).zipIdx.map fun p => g p.1 p.2) =
      (List.range count).map fun i => g ⟨f.values.size + i⟩ i := by
  apply List.ext_getElem
  · simp [freshValues]
  · simp [freshValues]

/-- New values are entered with their origins. -/
theorem Facts.freshOrigins {m : Multiset (ValueId × Origin)} (tys : List Ty)
    (origin : Nat → Origin) (h : Facts (fun v => f.values[v.index]?.map (·.origin)) m) :
    Facts
      (fun v => (f.values ++ (tys.zipIdx.map fun p =>
        ValueInfo.mk p.1 (origin p.2)).toArray)[v.index]?.map (·.origin))
      (↑((f.freshValues tys.length).zipIdx.map fun p => (p.1, origin p.2)) + m) := by
  rw [f.zipIdx_freshValues tys.length fun v i => (v, origin i)]
  refine h.insertAll _ ?_ (fun p hp => ?_) (fun p hp => ?_) fun x hx => ?_
  · rw [List.map_map]
    exact List.nodup_range.map fun _ _ h => by simpa using h
  · obtain ⟨i, -, rfl⟩ := List.mem_map.mp hp
    simp
  · obtain ⟨i, hi, rfl⟩ := List.mem_map.mp hp
    simp [List.mem_range.mp hi]
  · have hlt : x.index < f.values.size := by simpa using hx
    simp [Array.getElem?_append_left hlt]

namespace Arena

/-! ## Reading -/

variable {id : OpId} {d : Op}

theorem op_eq (h : Arena f (.op id d + e)) : f.op id = .ok d := by
  simp [Func.op, existing, h.op?]

theorem block_eq {id : BlockId} {d : Block} (h : Arena f (.block id d + e)) :
    f.block id = .ok d := by
  simp [Func.block, existing, h.block?]

theorem region_eq {id : RegionId} {d : Region} (h : Arena f (.region id d + e)) :
    f.region id = .ok d := by
  simp [Func.region, existing, h.region?]

theorem getOp (h : Arena f (.op id d + e)) : Edit.getOp id f = .ok d f := by
  change (liftM (f.op id) : Edit Op) f = _
  rw [h.op_eq]
  rfl

theorem getBlock {id : BlockId} {d : Block} (h : Arena f (.block id d + e)) :
    Edit.getBlock id f = .ok d f := by
  change (liftM (f.block id) : Edit Block) f = _
  rw [h.block_eq]
  rfl

theorem getRegion {id : RegionId} {d : Region} (h : Arena f (.region id d + e)) :
    Edit.getRegion id f = .ok d f := by
  change (liftM (f.region id) : Edit Region) f = _
  rw [h.region_eq]
  rfl

theorem kind_eq (h : Arena f (.op id d + e)) : f.kind id = .ok d.kind := by
  rw [Func.kind, h.op_eq]
  rfl

theorem getKind (h : Arena f (.op id d + e)) : Edit.getKind id f = .ok d.kind f := by
  change (liftM (f.kind id) : Edit OpKind) f = _
  rw [h.kind_eq]
  rfl

theorem result? (h : Arena f (.op id d + e)) : Edit.result? id f = .ok d.results.head? f := by
  change (Edit.getOp id >>= fun d => pure d.results.head?) f = _
  change EStateM.bind _ _ f = _
  rw [EStateM.bind, h.getOp]
  rfl

/-- The result of an op that has one. -/
theorem result {v : ValueId} {vs : List ValueId} (h : Arena f (.op id d + e))
    (hd : d.results = v :: vs) : Edit.result id f = .ok v f := by
  change EStateM.bind (Edit.result? id) _ f = _
  rw [EStateM.bind, h.result?, hd]
  rfl

/-! ## Changing a node in place -/

theorem block_index_lt {id : BlockId} {d : Block} (h : Arena f (.block id d + e)) :
    id.index < f.blocks.size :=
  (Array.getElem?_eq_some_iff.mp h.block?).1

theorem region_index_lt {id : RegionId} {d : Region} (h : Arena f (.region id d + e)) :
    id.index < f.regions.size :=
  (Array.getElem?_eq_some_iff.mp h.region?).1

/-- The entry of an op alone, without its results. -/
theorem modifyEntry {g : Op → Op} (h : Arena f ((({(id, d)}, 0, 0, 0) : Entries) + e)) :
    Meets stop (Edit.modifyOp id g) f fun _ f' =>
      Arena f' ((({(id, g d)}, 0, 0, 0) : Entries) + e) ∧ f.Grows f' [] := by
  have hid : f.ops[id.index]? = some d := h.ops.holds (id, d) (by simp)
  have hlt : id.index < f.ops.size := (Array.getElem?_eq_some_iff.mp hid).1
  exact .of_ok (a := ()) (t := { f with ops := f.ops.modify id.index g })
    (by simp [Edit.modifyOp, hlt])
    ⟨⟨Facts.modify OpId.index_injective h.ops, h.blocks, h.regions, h.values⟩,
      rfl, rfl, rfl, by simp, by simp⟩

theorem modifyOp {g : Op → Op} (h : Arena f (.op id d + e)) (hg : (g d).results = d.results) :
    Meets stop (Edit.modifyOp id g) f fun _ f' => Arena f' (.op id (g d) + e) ∧ f.Grows f' [] := by
  have hop : ∀ d' : Op, Entries.op id d' + e = (({(id, d')}, 0, 0, 0) : Entries) +
      ((0, 0, 0, Entries.resultsOf id d'.results) + e) := fun d' => by
    rw [← add_assoc]
    simp [Entries.op]
  refine (h.as (hop d)).modifyEntry.mono ?_
  rintro _ f' ⟨h', g'⟩
  exact ⟨h'.as (by rw [hop, hg]), g'⟩

theorem modifyBlockArgs {id : BlockId} {d : Block} {g : Block → Block}
    (h : Arena f (.block id d + e))
    (hv : Facts (fun v => f.values[v.index]?.map (·.origin))
      (Entries.argsOf id (g d).args + e.2.2.2)) :
    Meets stop (Edit.modifyBlock id g) f fun _ f' =>
      Arena f' (.block id (g d) + e) ∧ f.Grows f' [] :=
  .of_ok (a := ()) (t := { f with blocks := f.blocks.modify id.index g })
    (by simp [Edit.modifyBlock, h.block_index_lt])
    ⟨⟨h.ops, Facts.modify BlockId.index_injective h.blocks, h.regions, hv⟩,
      rfl, rfl, rfl, by simp, le_refl _⟩

theorem modifyBlock {id : BlockId} {d : Block} {g : Block → Block}
    (h : Arena f (.block id d + e)) (hg : (g d).args = d.args) :
    Meets stop (Edit.modifyBlock id g) f fun _ f' =>
      Arena f' (.block id (g d) + e) ∧ f.Grows f' [] :=
  h.modifyBlockArgs (by rw [hg]; exact h.values)

theorem modifyRegion {id : RegionId} {d : Region} {g : Region → Region}
    (h : Arena f (.region id d + e)) :
    Meets stop (Edit.modifyRegion id g) f fun _ f' =>
      Arena f' (.region id (g d) + e) ∧ f.Grows f' [] :=
  .of_ok (a := ()) (t := { f with regions := f.regions.modify id.index g })
    (by simp [Edit.modifyRegion, h.region_index_lt])
    ⟨⟨h.ops, h.blocks, Facts.modify RegionId.index_injective h.regions, h.values⟩,
      rfl, rfl, rfl, by simp, le_refl _⟩

/-! ## Creating nodes -/

theorem newBlock {argTys : List Ty} (h : Arena f e) :
    Meets stop (Edit.newBlock argTys) f fun id f' =>
      Arena f' (.block id { args := f.freshValues argTys.length } + e) ∧
        f.Grows f' (argTys.zipIdx.map fun p => ⟨p.1, .blockArg id p.2⟩) := by
  refine .of_ok (a := ⟨f.blocks.size⟩) rfl ⟨⟨?_, Facts.push rfl h.blocks, ?_, ?_⟩,
    rfl, rfl, rfl, rfl, le_refl _⟩
  · simpa using h.ops
  · simpa using h.regions
  · exact h.values.freshOrigins _ _

theorem addBlockArg {id : BlockId} {d : Block} {ty : Ty} (h : Arena f (.block id d + e)) :
    Meets stop (Edit.addBlockArg id ty) f fun v f' =>
      v = ⟨f.values.size⟩ ∧ Arena f' (.block id { d with args := d.args ++ [v] } + e) ∧
        f.Grows f' [⟨ty, .blockArg id d.args.length⟩] := by
  let f₁ : Func := { f with values := f.values.push ⟨ty, .blockArg id d.args.length⟩ }
  have hv : Facts (fun v => f₁.values[v.index]?.map (·.origin))
      ((⟨f.values.size⟩, Origin.blockArg id d.args.length) ::ₘ
        (Entries.argsOf id d.args + e.2.2.2)) := by
    have := h.values.freshOrigins [ty] fun _ => .blockArg id d.args.length
    simpa [Func.freshValues, f₁] using this
  have h₁ : Arena f₁ (.block id d + e) :=
    ⟨h.ops, h.blocks, h.regions, (hv.as (Multiset.singleton_add _ _).symm).right⟩
  unfold Edit.addBlockArg
  refine .step h.getBlock (.get (.step (t := f₁) rfl ?_))
  refine .bind (h₁.modifyBlockArgs ?_) ?_
  · rw [Entries.argsOf_append, Multiset.cons_add]
    exact hv
  · rintro _ f' ⟨hf, hg⟩
    refine .pure ⟨rfl, hf, ?_⟩
    exact ⟨hg.name, hg.sig, hg.body, by simp [hg.values, f₁], hg.ops⟩

theorem createOp {kind : OpKind} {operands : List ValueId} {resultTys : List Ty} {count : Nat}
    (h : Arena f e) :
    Meets stop (Edit.createOp kind operands resultTys count) f fun id f' =>
      Arena f' (.op id ⟨kind, operands, f.freshValues resultTys.length, f.freshRegions count,
          none, none, true⟩ +
        ((f.freshRegions count).map fun r => .region r ⟨[], some id⟩).sum + e) ∧
        f.Grows f' (resultTys.zipIdx.map fun p => ⟨p.1, .opResult id p.2⟩) := by
  refine .of_ok (a := ⟨f.ops.size⟩) rfl ⟨⟨?_, ?_, ?_, ?_⟩, rfl, rfl, rfl, rfl, by simp⟩
  · simp only [Prod.fst_add, Entries.op_ops, Entries.sum_region, add_zero]
    exact Facts.push (i := OpId.index) rfl h.ops
  · simpa [Entries.sum_region] using h.blocks
  · have := h.regions.append (n := Array.replicate count (Region.mk [] (some ⟨f.ops.size⟩)))
      (l := (f.freshRegions count).map fun r => (r, Region.mk [] (some ⟨f.ops.size⟩))) ?_ ?_
    · simpa [Entries.sum_region] using this
    · rw [List.map_map, Func.freshRegions, List.map_map]
      exact List.nodup_range.map fun _ _ h => by simpa using h
    · intro p hp
      obtain ⟨r, hr, rfl⟩ := List.mem_map.mp hp
      obtain ⟨i, hi, rfl⟩ := List.mem_map.mp hr
      simp [List.mem_range.mp hi]
  · have := h.values.freshOrigins resultTys (.opResult ⟨f.ops.size⟩)
    simpa [Entries.sum_region, Entries.resultsOf] using this

theorem createOp_id {kind : OpKind} {operands : List ValueId} {resultTys : List Ty} {count : Nat} :
    Meets stop (Edit.createOp kind operands resultTys count) f fun id _ => id = ⟨f.ops.size⟩ :=
  .of_ok (a := ⟨f.ops.size⟩) rfl rfl

/-! ## Placing nodes -/

variable {α : Type}

theorem findIdx?_append_cons [DecidableEq α] {a : α} {pre post : List α} (h : a ∉ pre) :
    (pre ++ a :: post).findIdx? (· == a) = some pre.length := by
  induction pre with
  | nil => simp [List.findIdx?_cons]
  | cons x pre ih =>
    have hx : x ≠ a := fun hxa => h (by simp [hxa])
    simp [List.findIdx?_cons, hx, ih (fun hm => h (by simp [hm]))]

theorem insertIdx_append {a : α} (pre post : List α) :
    (pre ++ post).insertIdx pre.length a = pre ++ a :: post := by
  induction pre with
  | nil => simp
  | cons x pre ih => simp [List.insertIdx_succ_cons, ih]

theorem insertIdx_append_cons {a x : α} (pre post : List α) :
    (pre ++ x :: post).insertIdx (pre.length + 1) a = pre ++ x :: a :: post := by
  simpa using insertIdx_append (a := a) (pre ++ [x]) post

theorem placeOfOp {b : BlockId} {blk : Block} {pre post : List OpId}
    (h : Arena f (.op id d + (.block b blk + e))) (hd : d.parent = some b)
    (hb : blk.ops = pre ++ id :: post) (hn : id ∉ pre) :
    Edit.placeOfOp id f = .ok (b, pre.length) f := by
  change EStateM.bind (Edit.getOp id) _ f = _
  rw [EStateM.bind, h.getOp]
  simp only [hd]
  change EStateM.bind (Edit.getBlock b) _ f = _
  rw [EStateM.bind, h.right.getBlock]
  simp only [hb, findIdx?_append_cons hn]
  rfl

variable {r : RegionId} {reg : Region}

theorem placeOfBlock {id : BlockId} {d : Block} {pre post : List BlockId}
    (h : Arena f (.block id d + (.region r reg + e))) (hd : d.parent = some r)
    (hb : reg.blocks = pre ++ id :: post) (hn : id ∉ pre) :
    Edit.placeOfBlock id f = .ok (r, pre.length) f := by
  change EStateM.bind (Edit.getBlock id) _ f = _
  rw [EStateM.bind, h.getBlock]
  simp only [hd]
  change EStateM.bind (Edit.getRegion r) _ f = _
  rw [EStateM.bind, h.right.getRegion]
  simp only [hb, findIdx?_append_cons hn]
  rfl

theorem appendBlock {id : BlockId} {d : Block} (h : Arena f (.block id d + (.region r reg + e))) :
    Meets stop (Edit.appendBlock r id) f fun _ f' =>
      Arena f' (.block id { d with parent := some r } +
        (.region r { reg with blocks := reg.blocks ++ [id] } + e)) ∧ f.Grows f' [] := by
  refine .bind (h.modifyBlock rfl) ?_
  rintro _ f₁ ⟨h₁, g₁⟩
  refine ((h₁.as (add_left_comm _ _ _)).modifyRegion).mono ?_
  rintro _ f₂ ⟨h₂, g₂⟩
  exact ⟨h₂.as (add_left_comm _ _ _), by simpa using g₁.trans g₂⟩

theorem insertBlockAfter {id anchor : BlockId} {d ad : Block} {pre post : List BlockId}
    (h : Arena f (.block anchor ad + (.region r reg + (.block id d + e)))) (ha : ad.parent = some r)
    (hr : reg.blocks = pre ++ anchor :: post) (hn : anchor ∉ pre) :
    Meets stop (Edit.insertBlockAfter anchor id) f fun _ f' =>
      Arena f' (.block anchor ad + (.region r { reg with blocks := pre ++ anchor :: id :: post } +
        (.block id { d with parent := some r } + e))) ∧ f.Grows f' [] := by
  refine .step (h.placeOfBlock ha hr hn) ?_
  have h₀ : Arena _ (.block id d + (.region r reg + (.block anchor ad + e))) := h.as (by abel)
  refine .bind (h₀.modifyBlock rfl) ?_
  rintro _ f₁ ⟨h₁, g₁⟩
  refine ((h₁.as (add_left_comm _ _ _)).modifyRegion).mono ?_
  rintro _ f₂ ⟨h₂, g₂⟩
  refine ⟨h₂.as ?_, by simpa using g₁.trans g₂⟩
  rw [hr, insertIdx_append_cons]
  abel

/-- Every block of a list gets the same owner. -/
theorem setBlockParents {parent : Option RegionId} (l : List (BlockId × Block))
    (h : Arena f ((l.map fun p => .block p.1 p.2).sum + e)) :
    Meets stop ((l.map Prod.fst).forM fun b => Edit.setBlockParent b parent) f fun _ f' =>
      Arena f' ((l.map fun p => .block p.1 { p.2 with parent }).sum + e) ∧ f.Grows f' [] := by
  induction l generalizing f e with
  | nil => exact .pure ⟨h, .refl f⟩
  | cons p l ih =>
    simp only [List.map_cons, List.sum_cons, add_assoc] at h ⊢
    refine .bind (h.modifyBlock rfl) ?_
    rintro _ f₁ ⟨h₁, g₁⟩
    refine (ih (h₁.as (add_left_comm _ _ _))).mono ?_
    rintro _ f₂ ⟨h₂, g₂⟩
    exact ⟨h₂.as (add_left_comm _ _ _), by simpa using g₁.trans g₂⟩

theorem setOpParents {parent : Option BlockId} (l : List (OpId × Op))
    (h : Arena f ((l.map fun p => .op p.1 p.2).sum + e)) :
    Meets stop ((l.map Prod.fst).forM fun o => Edit.setOpParent o parent) f fun _ f' =>
      Arena f' ((l.map fun p => .op p.1 { p.2 with parent }).sum + e) ∧ f.Grows f' [] := by
  induction l generalizing f e with
  | nil => exact .pure ⟨h, .refl f⟩
  | cons p l ih =>
    simp only [List.map_cons, List.sum_cons, add_assoc] at h ⊢
    refine .bind (h.modifyOp rfl) ?_
    rintro _ f₁ ⟨h₁, g₁⟩
    refine (ih (h₁.as (add_left_comm _ _ _))).mono ?_
    rintro _ f₂ ⟨h₂, g₂⟩
    exact ⟨h₂.as (add_left_comm _ _ _), by simpa using g₁.trans g₂⟩

theorem claimBlocks (l : List (BlockId × Block)) (hl : ∀ p ∈ l, p.2.parent = none)
    (h : Arena f ((l.map fun p => .block p.1 p.2).sum + e)) :
    Meets stop (Edit.claimBlocks r (l.map Prod.fst)) f fun _ f' =>
      Arena f' ((l.map fun p => .block p.1 { p.2 with parent := some r }).sum + e) ∧
        f.Grows f' [] := by
  induction l generalizing f e with
  | nil => exact .pure ⟨h, .refl f⟩
  | cons p l ih =>
    simp only [List.map_cons, List.sum_cons, add_assoc] at h ⊢
    unfold Edit.claimBlocks
    refine .step h.getBlock ?_
    rw [hl p (by simp)]
    refine .bind (h.modifyBlock rfl) ?_
    rintro _ f₁ ⟨h₁, g₁⟩
    refine (ih (fun q hq => hl q (by simp [hq])) (h₁.as (add_left_comm _ _ _))).mono ?_
    rintro _ f₂ ⟨h₂, g₂⟩
    exact ⟨h₂.as (add_left_comm _ _ _), by simpa using g₁.trans g₂⟩

end Arena

end Unnest
