import Unnest.Proofs.Lowering.Provenance
/-!
# What is settled for an op

A round lowers one op of the tree and moves the others. Those outside of the lowered op and those in
its regions keep their positions, and the ops that the lowering copies get new ones. So what is
settled for an op that was there before can be told apart from what is settled for a copy: the
copies get what the ops had that they were made from, and where a jump goes is changed only for ops
in the regions of the lowered op.
-/

namespace Unnest

/-! ## Positions -/

section

variable {T L R Bs : List BlockTree} {b : BlockId} {args : List ValueId} {pre post : List OpTree}
  {x e : OpTree} {p : Trail} {i : Nat} {r : RegionTree}

theorem mem_walkBlocks_all {n : OpTree} : n ∈ walkBlocks (fun _ => true) Bs ↔ n.InBlocks Bs := by
  refine ⟨inBlocks_of_mem_walkBlocks, ?_⟩
  rintro ⟨B, hB, m, hm, hn⟩
  induction m using OpTree.induct generalizing Bs B with
  | step h rs ih =>
    refine List.mem_flatMap.mpr ⟨B, hB, List.mem_flatMap.mpr ⟨_, hm, ?_⟩⟩
    rw [OpTree.walk_eq, if_pos rfl]
    rcases OpTree.within_mk.mp hn with rfl | ⟨r, hr, C, hC, k, hk, hn⟩
    · exact List.mem_cons_self
    · exact List.mem_cons_of_mem _ (List.mem_flatMap.mpr ⟨r, hr, ih r hr C hC k hk C hC hk hn⟩)

/-- The positions outside of an op, and those of the op and of what is below it. -/
theorem nodup_around (hn : (idsIn (L ++ ⟨b, args, pre ++ x :: post⟩ :: R)).Nodup) :
    x.ids.Disjoint (idsIn (L ++ ⟨b, args, pre ++ post⟩ :: R)) := by
  simp only [idsIn_eq, List.flatMap_append, List.flatMap_cons, List.append_assoc] at hn ⊢
  intro id hx hrest
  rw [← List.append_assoc, List.nodup_append] at hn
  obtain ⟨-, hright, hne⟩ := hn
  rw [List.nodup_append] at hright
  simp only [List.mem_append] at hrest hne
  rcases hrest with h | h | h | h
  · exact hne id (.inl h) id (.inl hx) rfl
  · exact hne id (.inr h) id (.inl hx) rfl
  · exact hright.2.2 id hx id (by simp [h]) rfl
  · exact hright.2.2 id hx id (by simp [h]) rfl

/-- What is outside of an op is at other positions than the op and what is below it. -/
theorem Path.not_mem_ids (hn : (idsIn (L ++ ⟨b, args, pre ++ x :: post⟩ :: R)).Nodup)
    (he : Path (L ++ ⟨b, args, pre ++ post⟩ :: R) p e) : e.id ∉ x.ids :=
  fun hx => nodup_around hn hx he.id_mem

theorem Path.mem_ids (hr : x.regions[i]? = some r) (he : Path r.blocks p e) : e.id ∈ x.ids :=
  OpTree.mem_ids_of_region (List.mem_of_getElem? hr) he.id_mem

/-- What is below an op is at another position. -/
theorem Path.id_ne (hn : x.ids.Nodup) (hr : x.regions[i]? = some r) (he : Path r.blocks p e) :
    e.id ≠ x.id := by
  intro hid
  refine (OpTree.nodup_regions hn).1 ?_
  rw [← hid]
  exact List.mem_flatMap.mpr ⟨r, List.mem_of_getElem? hr, he.id_mem⟩

theorem path_of_region (hr : x.regions[i]? = some r) (he : Path r.blocks p e) :
    Path (L ++ ⟨b, args, pre ++ x :: post⟩ :: R) ((x, i) :: p) e :=
  path_cons.mpr ⟨⟨b, args, pre ++ x :: post⟩, by simp, by simp, r, hr, he⟩

theorem nodup_ids_of_mem (hn : (idsIn (L ++ ⟨b, args, pre ++ x :: post⟩ :: R)).Nodup) :
    x.ids.Nodup :=
  nodup_ids (B := ⟨b, args, pre ++ x :: post⟩) hn (by simp) (by simp)

end

/-! ## Copies -/

section

variable {f f' : Func} {Bf : BlockTree} {τ : Renaming} {ρ : Option Renaming}
  {copies : List (OpId × OpId)} {p : Trail} {e : OpTree}

theorem CopiedAs.mem (h : CopiedAs f f' Bf (some τ) copies) (he : Path [Bf] p e) :
    (e.id, τ.op e.id) ∈ copies := by
  cases h with
  | present hc =>
    obtain ⟨rs, rfl, hn⟩ := hc.notes
    have hmem : e.id ∈ (layout none [Bf]).names.1 :=
      Multiset.mem_of_le (walkBlocks_le_opIds (fun _ => true) none [Bf])
        (Multiset.mem_coe.mpr he.id_mem)
    rw [← hn.ops.old] at hmem
    obtain ⟨q, hq, heq⟩ := List.mem_map.mp (Multiset.mem_coe.mp hmem)
    rw [← heq, (hn.follows hc.old).op q hq]
    exact hq

theorem CopiedAs.fresh (h : CopiedAs f f' Bf ρ copies) :
    ∀ q ∈ copies, f.ops.size ≤ q.2.index ∧ q.2.index < f'.ops.size := by
  cases h with
  | absent => simp
  | present hc =>
    obtain ⟨rs, rfl, hn⟩ := hc.notes
    exact fun q hq => ⟨hn.freshOps q hq, hc.below q hq⟩

theorem CopiedAs.nodup (h : CopiedAs f f' Bf ρ copies) : (copies.map Prod.snd).Nodup := by
  cases h with
  | absent => simp
  | present hc =>
    obtain ⟨rs, rfl, hn⟩ := hc.notes
    have := hc.new.1
    rwa [← hn.ops.new, Multiset.coe_nodup] at this

end

namespace Bindings

/-- The table with the entries of ops copied to their copies. -/
def copyEntries {α : Type} (copies : List (OpId × OpId)) (t : Table OpId α) : Table OpId α :=
  copies.foldl (fun t p => copyEntry t p.1 p.2) t

section

variable {α : Type} {copies : List (OpId × OpId)} {t : Table OpId α} {id : OpId} {n : Nat}

theorem get?_copyEntry_self (t : Table OpId α) (old new : OpId) :
    (copyEntry t old new).get? new = (t.get? old).or (t.get? new) := by
  unfold copyEntry
  cases h : t.get? old <;> simp

theorem get?_copyEntries_of_not_mem (h : id ∉ copies.map Prod.snd) :
    (copyEntries copies t).get? id = t.get? id := by
  unfold copyEntries
  induction copies generalizing t with
  | nil => rfl
  | cons q copies ih =>
    simp only [List.map_cons, List.mem_cons, not_or] at h
    rw [List.foldl_cons, ih h.2, get?_copyEntry_of_ne t (Ne.symm h.1)]

/-- A copy gets what the op has that it was made from. -/
theorem get?_copyEntries_of_mem {old new : OpId} (hn : (copies.map Prod.snd).Nodup)
    (hold : ∀ q ∈ copies, old ≠ q.2) (hmem : (old, new) ∈ copies) :
    (copyEntries copies t).get? new = (t.get? old).or (t.get? new) := by
  unfold copyEntries
  induction copies generalizing t with
  | nil => cases hmem
  | cons q copies ih =>
    simp only [List.map_cons, List.nodup_cons] at hn
    rw [List.foldl_cons]
    rcases List.mem_cons.mp hmem with rfl | hmem
    · have := get?_copyEntries_of_not_mem (t := copyEntry t old new) hn.1
      rw [copyEntries] at this
      rw [this, get?_copyEntry_self]
    · have hne : q.2 ≠ new := fun h => hn.1 (h ▸ List.mem_map_of_mem (f := Prod.snd) hmem)
      rw [ih hn.2 (fun q' hq' => hold q' (List.mem_cons_of_mem _ hq')) hmem,
        get?_copyEntry_of_ne t hne, get?_copyEntry_of_ne t (Ne.symm (hold q List.mem_cons_self))]

end

theorem copyAll_eq (copies : List (OpId × OpId)) (B : Bindings) :
    B.copyAll copies = { B with
      jumps := copyEntries copies B.jumps
      unwinds := copyEntries copies B.unwinds
      catchDepths := copyEntries copies B.catchDepths
      parents := copyEntries copies B.parents
      payloads := copyEntries copies B.payloads } := by
  unfold copyAll copyEntries
  induction copies generalizing B with
  | nil => rfl
  | cons q copies ih => rw [List.foldl_cons, ih]; rfl

/-- What every step leaves as it is, all of them do. -/
theorem foldl_keeps {α β : Type} (part : Bindings → β) {step : Bindings → α → Bindings}
    (h : ∀ B a, part (step B a) = part B) (l : List α) (B : Bindings) :
    part (l.foldl step B) = part B := by
  induction l generalizing B with
  | nil => rfl
  | cons a l ih => rw [List.foldl_cons, ih, h]

theorem jumps_surround (op : OpId) (Bb Bc Bf : BlockTree) (B : Bindings) :
    (B.surround op Bb Bc Bf).jumps = B.jumps := by
  have henclose (placement : Placement) (Bs : List BlockTree) (B : Bindings) :
      (B.enclose op placement Bs).jumps = B.jumps := foldl_keeps jumps (by intros; rfl) _ B
  simp [surround, henclose]

theorem jumps_unwindAll (ops : List OpTree) (pad : BlockId) (B : Bindings) :
    (B.unwindAll ops pad).jumps = B.jumps := foldl_keeps jumps (by intros; rfl) _ B

/-- Laying out a try settles where the copies go. -/
theorem jumps_layOut (op : OpId) (Bb Bc Bf : BlockTree) (c : TryCode) (B : Bindings) :
    (B.layOut op Bb Bc Bf c).jumps = copyEntries c.copies B.jumps := by
  have hcatch (ids : List OpId) (B : Bindings) : (ids.foldl enterCatch B).jumps = B.jumps :=
    foldl_keeps jumps (by intros; rfl) ids B
  have hmarks (payload : ValueId) (ms : List OpTree) (B : Bindings) :
      (ms.foldl (fun b m => b.setPayload m.id payload) B).jumps = B.jumps :=
    foldl_keeps jumps (by intros; rfl) ms B
  unfold layOut
  cases c.payload <;> cases c.landing <;> cases c.cleanup <;>
    simp [setPads, jumps_unwindAll, hmarks, copyAll_eq, hcatch, jumps_surround]

end Bindings

/-! ## What leaves a try -/

section

variable {types : TypeTable} {strategy : UnwindStrategy} {s s' : LowerState} {h : Head}
  {Bb Bc Bf : BlockTree} {c : TryCode} {L R : List BlockTree} {b : BlockId} {args : List ValueId}
  {pre post : List OpTree} {q₁ q₂ q₃ : RegionId} {id : OpId}

theorem mem_tryEscapes {B : Bindings} {op : OpId} : id ∈ tryEscapes op Bb Bc Bf B ↔
    ∃ e : OpTree, (e.InBlocks [Bb] ∨ e.InBlocks [Bc]) ∧ e.escapes B = true ∧ e.id = id := by
  have hesc (e : OpTree) : e.escapes (B.surround op Bb Bc Bf) = e.escapes B := by
    simp only [OpTree.escapes, Bindings.jump?, Bindings.jumps_surround]
  simp only [tryEscapes, escapesOf, List.map_append, List.mem_append, List.mem_map,
    List.mem_filter, mem_walkBlocks_all, hesc]
  constructor
  · rintro (⟨e, ⟨he, hx⟩, rfl⟩ | ⟨e, ⟨he, hx⟩, rfl⟩)
    · exact ⟨e, .inl he, hx, rfl⟩
    · exact ⟨e, .inr he, hx, rfl⟩
  · rintro ⟨e, he | he, hx, rfl⟩
    · exact .inl ⟨e, ⟨he, hx⟩, rfl⟩
    · exact .inr ⟨e, ⟨he, hx⟩, rfl⟩

/-- What leaves a try does so once and is at a position of the table. -/
theorem Func.Holds.tryEscapes {f : Func} (op : OpId) (B : Bindings) (hf : f.Holds (L ++ ⟨b, args,
    pre ++ .mk h [⟨q₁, [Bb]⟩, ⟨q₂, [Bc]⟩, ⟨q₃, [Bf]⟩] :: post⟩ :: R) 0) :
    (tryEscapes op Bb Bc Bf B).Nodup ∧ ∀ id ∈ tryEscapes op Bb Bc Bf B, id.index < f.ops.size := by
  obtain ⟨E, hE⟩ := exists_tryRegions f.body L R b args pre post h ⟨q₁, [Bb]⟩ ⟨q₂, [Bc]⟩ ⟨q₃, [Bf]⟩
  have ha : Arena f _ := Arena.as hf hE
  have ha : Arena f (layout (some q₁) [Bb] + (layout (some q₂) [Bc] + (Entries.region q₁
      (RegionOf.toRegion ⟨q₁, [Bb]⟩ (some h.id)) + (Entries.region q₂
        (RegionOf.toRegion ⟨q₂, [Bc]⟩ (some h.id)) + (RegionOf.entries (some h.id) ⟨q₃, [Bf]⟩ +
          E))))) := ha.as (by simp only [RegionOf.entries_eq]; abel)
  exact ⟨ha.nodup_tryEscapes op Bf B, fun _ => ha.index_lt_of_mem_tryEscapes⟩

theorem Bindings.destinations_congr {B B' : Bindings} {ops : List OpId}
    (h : ∀ id ∈ ops, B'.previous id = B.previous id) :
    B'.destinations ops = B.destinations ops := by
  unfold destinations
  rw [List.map_congr_left h]

theorem Bindings.bindCodes_congr {B B' : Bindings} {op : OpId} {ds : List Destination}
    {ops : List OpId} (h : ∀ id ∈ ops, B'.previous id = B.previous id) :
    B'.bindCodes op ds ops = { B' with
      jumps := ops.foldl (fun t id => t.insert id (.final op (codeOf ds (B.previous id))))
        B'.jumps } := by
  unfold bindCodes
  congr 1
  generalize B'.jumps = t
  induction ops generalizing t with
  | nil => rfl
  | cons id ops ih =>
    simp only [List.foldl_cons]
    rw [h id List.mem_cons_self, ih fun id hid => h id (List.mem_cons_of_mem _ hid)]

/-- How the lowering of a try settles where the ops go that leave it: nothing leaves it through its
finally, or there is a route for the destinations that they had. -/
inductive TryRoute (s s' : LowerState) (h : Head) (Bb Bc Bf : BlockTree) (c : TryCode)
    (cases : List (Int64 × Destination)) : Prop
  | absent (hs : c.slot = none) (ho : c.slotOps = [])
      (hn : Bf.holdsOps = false ∨ tryEscapes h.id Bb Bc Bf s.bindings = [])
      (hb : s'.bindings = s.bindings.layOut h.id Bb Bc Bf c)
  | present {slot : ValueId} {i : OpId} (hs : c.slot = some slot)
      (ho : c.slotOps = [.leaf ⟨i, .instr (.alloc false), [], [slot], none⟩])
      (hnew : s.func.values.size ≤ slot.index) (hk : Bf.holdsOps = true)
      (hne : tryEscapes h.id Bb Bc Bf s.bindings ≠ [])
      (hc : cases = numbered (s.bindings.destinations (tryEscapes h.id Bb Bc Bf s.bindings)))
      (hb : s'.bindings = { s.bindings.layOut h.id Bb Bc Bf c with
        jumps := (tryEscapes h.id Bb Bc Bf s.bindings).foldl (fun t id => t.insert id (.final h.id
          (codeOf (s.bindings.destinations (tryEscapes h.id Bb Bc Bf s.bindings))
            (s.bindings.previous id)))) (s.bindings.layOut h.id Bb Bc Bf c).jumps
        routes := s.bindings.routes.insert h.id ⟨slot, Bf.id, cases⟩ })

section

variable (hl : LoweredTry types strategy s s' h Bb Bc Bf c) (hf : s.func.Holds (L ++ ⟨b, args,
  pre ++ .mk h [⟨q₁, [Bb]⟩, ⟨q₂, [Bc]⟩, ⟨q₃, [Bf]⟩] :: post⟩ :: R) 0)

include hl hf

theorem LoweredTry.tryRoute : ∃ cases, TryRoute s s' h Bb Bc Bf c cases ∧
    FinalCode s.func.values.size s'.func s'.bindings c.next cases Bf c.slot c.finals c.made := by
  refine ⟨_, ?_, hl.finals⟩
  obtain ⟨hnd, hlt⟩ := hf.tryEscapes h.id s.bindings
  have hways : s.bindings.SameWays s.func.ops.size (s.bindings.layOut h.id Bb Bc Bf c) :=
    Bindings.sameWays_layOut h.id Bb Bc Bf hl.clone.fresh
  have hprev (id : OpId) (hid : id ∈ tryEscapes h.id Bb Bc Bf s.bindings) :
      (s.bindings.layOut h.id Bb Bc Bf c).previous id = s.bindings.previous id :=
    hways.previous (hlt id hid)
  have hr := hl.route
  rw [foldl_assignCode _ _ hnd, Bindings.destinations_congr hprev]
  generalize hB : s'.bindings = B' at hr
  generalize hslot : c.slot = slot at hr
  generalize hops : c.slotOps = ops at hr
  cases hr with
  | absent hn => exact .absent hslot hops hn hB
  | present hk hne hs =>
    refine .present hslot hops hs hk hne rfl (hB.trans ?_)
    rw [foldl_assignCode _ _ hnd, Bindings.destinations_congr hprev,
      Bindings.bindCodes_congr hprev, Bindings.setRoute]
    simp only [hways.routes]

/-- Where the ops go that are not copies. -/
theorem LoweredTry.jump?_eq (hid : id ∉ c.copies.map Prod.snd) : s'.bindings.jump? id =
    if Bf.holdsOps = true ∧ id ∈ tryEscapes h.id Bb Bc Bf s.bindings then
      some (.final h.id (codeOf (s.bindings.destinations (tryEscapes h.id Bb Bc Bf s.bindings))
        (s.bindings.previous id)))
    else s.bindings.jump? id := by
  obtain ⟨cases, hr, -⟩ := hl.tryRoute hf
  have hlay : (s.bindings.layOut h.id Bb Bc Bf c).jumps.get? id = s.bindings.jump? id := by
    rw [Bindings.jumps_layOut, Bindings.get?_copyEntries_of_not_mem hid]
    rfl
  cases hr with
  | absent _ _ hn hb =>
    rw [hb, Bindings.jump?, hlay, if_neg]
    rintro ⟨hk, hmem⟩
    rcases hn with hn | hn
    · exact absurd hk (by simp [hn])
    · exact absurd hmem (by simp [hn])
  | present _ _ _ hk _ _ hb =>
    rw [hb, Bindings.jump?, Table.get?_foldl_insert, hlay]
    simp only [hk, true_and]

/-- A copy goes where the op goes that it was made from. -/
theorem LoweredTry.jump?_copy {ρ : Option Renaming} (hρ : CopiedAs s.func s'.func Bf ρ c.copies)
    {old new : OpId} (hold : old.index < s.func.ops.size) (hmem : (old, new) ∈ c.copies) :
    s'.bindings.jump? new = (s.bindings.jump? old).or (s.bindings.jump? new) := by
  obtain ⟨cases, hr, -⟩ := hl.tryRoute hf
  have hfresh : s.func.ops.size ≤ new.index := (hρ.fresh _ hmem).1
  have hne : ∀ q ∈ c.copies, old ≠ q.2 := fun q hq h => by
    have := (hρ.fresh q hq).1
    rw [← h] at this
    omega
  have hlay : (s.bindings.layOut h.id Bb Bc Bf c).jumps.get? new =
      (s.bindings.jump? old).or (s.bindings.jump? new) := by
    rw [Bindings.jumps_layOut, Bindings.get?_copyEntries_of_mem hρ.nodup hne hmem]
    rfl
  cases hr with
  | absent _ _ _ hb => rw [hb, Bindings.jump?, hlay]
  | present _ _ _ _ _ _ hb =>
    rw [hb, Bindings.jump?, Table.get?_foldl_insert, hlay, if_neg]
    intro hesc
    have := (hf.tryEscapes h.id s.bindings).2 new hesc
    omega

end

end

end Unnest
