import Unnest.Proofs.Lowering.Codes
import Unnest.Proofs.Lowering.Unwinding
/-!
# A try as a whole

The lowering of a try is the laying out of its parts one after another (`Func.Holds.lowerTry`). What
leaves the try is known before anything is laid out, and what is settled on the way does not change
where these ops go; so the codes are given out for the destinations that they had before. A clause
without ops is discarded, and its ends are known as dead ops afterwards.
-/

namespace Unnest

/-! ## What is settled while a try is laid out -/

/-- The bindings agree on the finallys and the block that returns, and on where the ops with numbers
below `n` go. -/
structure Bindings.SameWays (n : Nat) (B B' : Bindings) : Prop where
  jump? : ∀ id : OpId, id.index < n → B'.jump? id = B.jump? id
  routes : B'.routes = B.routes
  returnTo : B'.returnTo = B.returnTo

namespace Bindings.SameWays

variable {n : Nat} {B B' B'' : Bindings}

theorem refl (n : Nat) (B : Bindings) : SameWays n B B := ⟨fun _ _ => rfl, rfl, rfl⟩

theorem trans (h : SameWays n B B') (h' : SameWays n B' B'') : SameWays n B B'' :=
  ⟨fun id hid => (h'.1 id hid).trans (h.1 id hid), h'.2.trans h.2, h'.3.trans h.3⟩

variable {α : Type}

theorem foldl {g : Bindings → α → Bindings} {l : List α} (hg : ∀ B, ∀ a ∈ l, SameWays n B (g B a)) :
    SameWays n B (l.foldl g B) := by
  induction l generalizing B with
  | nil => exact refl n B
  | cons a l ih => exact (hg B a (by simp)).trans (ih fun B c hc => hg B c (by simp [hc]))

theorem elim {o : Option α} {g : α → Bindings} (h : SameWays n B B')
    (hg : ∀ a ∈ o, SameWays n B (g a)) : SameWays n B (o.elim B' g) := by
  cases o with
  | none => exact h
  | some a => exact hg a rfl

theorem previous (h : SameWays n B B') {id : OpId} (hid : id.index < n) :
    B'.previous id = B.previous id := by
  rw [Bindings.previous, h.jump? id hid, Bindings.previous]

theorem reaches (h : SameWays n B B') (d : Destination) : B'.Reaches d ↔ B.Reaches d := by
  cases d <;> simp [Bindings.Reaches, h.routes, h.returnTo]

end Bindings.SameWays

section

variable {n : Nat} {B : Bindings}

theorem Bindings.sameWays_enclose (op : OpId) (placement : Placement) (Bs : List BlockTree) :
    SameWays n B (B.enclose op placement Bs) :=
  .foldl fun _ _ _ => ⟨fun _ _ => rfl, rfl, rfl⟩

theorem Bindings.sameWays_surround (op : OpId) (Bb Bc Bf : BlockTree) :
    SameWays n B (B.surround op Bb Bc Bf) :=
  ((sameWays_enclose op _ _).trans (sameWays_enclose op _ _)).trans (sameWays_enclose op _ _)

theorem Bindings.sameWays_unwindAll (ops : List OpTree) (pad : BlockId) :
    SameWays n B (B.unwindAll ops pad) :=
  .foldl fun _ _ _ => ⟨fun _ _ => rfl, rfl, rfl⟩

theorem get?_copyEntry_of_ne {α : Type} (t : Table OpId α) {old new id : OpId} (h : new ≠ id) :
    (Bindings.copyEntry t old new).get? id = t.get? id := by
  unfold Bindings.copyEntry
  split
  · exact t.get?_insert_of_ne _ h
  · rfl

/-- What is settled for copies does not touch what is settled for other ops. -/
theorem Bindings.sameWays_copyAll {copies : List (OpId × OpId)}
    (h : ∀ p ∈ copies, n ≤ p.2.index) : SameWays n B (B.copyAll copies) :=
  .foldl fun B p hp => ⟨fun id hid => get?_copyEntry_of_ne B.jumps (by
    rintro rfl
    exact absurd (h p hp) (by omega)), rfl, rfl⟩

theorem Bindings.sameWays_layOut (op : OpId) (Bb Bc Bf : BlockTree) {c : TryCode}
    (h : ∀ p ∈ c.copies, n ≤ p.2.index) : SameWays n B (B.layOut op Bb Bc Bf c) := by
  have h₁ : SameWays n B (B.surround op Bb Bc Bf) := sameWays_surround op Bb Bc Bf
  have h₂ := h₁.trans (.foldl (l := (escapesOf (B.surround op Bb Bc Bf) [Bc]).map (·.id))
    (g := Bindings.enterCatch) fun _ _ _ => ⟨fun _ _ => rfl, rfl, rfl⟩)
  have h₃ := h₂.trans (sameWays_copyAll h)
  have h₄ := h₃.elim (o := c.payload) fun payload _ => h₃.trans
    (.foldl (l := marksOf [Bc]) (g := fun b m => b.setPayload m.id payload) fun _ _ _ =>
      ⟨fun _ _ => rfl, rfl, rfl⟩)
  have h₅ := h₄.elim (o := c.landing) fun pad _ => h₄.trans
    (sameWays_unwindAll (walkBlocks (fun _ => true) [Bb]) pad)
  have h₆ := h₅.elim (o := c.cleanup) fun pad _ => h₅.trans
    (sameWays_unwindAll (walkBlocks (fun _ => true) [Bc]) pad)
  exact h₆.trans ⟨fun _ _ => rfl, rfl, rfl⟩

end

section

variable {stop : Prop} {f : Func} {s : LowerState} {L R : List BlockTree} {b : BlockId}
  {args : List ValueId} {pre post : List OpTree} {h : Head} {e : Entries} {q₁ q₂ q₃ : RegionId}
  {Bb Bc Bf : BlockTree}

theorem tryEscapes_sublist (op : OpId) (Bb Bc Bf : BlockTree) (B : Bindings) :
    List.Sublist (tryEscapes op Bb Bc Bf B) ((walkBlocks (fun _ => true) [Bb]).map (·.id) ++
      (walkBlocks (fun _ => true) [Bc]).map (·.id)) := by
  rw [tryEscapes, List.map_append]
  exact (List.filter_sublist.map _).append (List.filter_sublist.map _)

variable {r₁ r₂ : Option RegionId}

/-- Every op that leaves a try does so once. -/
theorem Arena.nodup_tryEscapes (op : OpId) (Bf : BlockTree) (B : Bindings)
    (ha : Arena f (layout r₁ [Bb] + (layout r₂ [Bc] + e))) : (tryEscapes op Bb Bc Bf B).Nodup := by
  refine (tryEscapes_sublist op Bb Bc Bf B).nodup (Multiset.coe_nodup.mp ?_)
  rw [← Multiset.coe_add]
  refine Multiset.nodup_of_le ?_ ha.ops.nodup
  change _ ≤ Entries.opIds _
  rw [Entries.opIds_add, Entries.opIds_add, ← add_assoc]
  exact (add_le_add (walkBlocks_le_opIds _ r₁ [Bb]) (walkBlocks_le_opIds _ r₂ [Bc])).trans
    (Multiset.le_add_right _ _)

variable {id : OpId}

variable {op : OpId} {B : Bindings}

theorem Arena.index_lt_of_mem_tryEscapes (ha : Arena f (layout r₁ [Bb] + (layout r₂ [Bc] + e)))
    (hid : id ∈ tryEscapes op Bb Bc Bf B) : id.index < f.ops.size := by
  refine ha.index_lt_of_mem_opIds ?_
  rw [Entries.opIds_add, Entries.opIds_add, ← add_assoc]
  have := (tryEscapes_sublist op Bb Bc Bf B).subset hid
  refine Multiset.mem_of_le (Multiset.le_add_right _ _) ?_
  refine Multiset.mem_of_le (add_le_add (walkBlocks_le_opIds (fun _ => true) r₁ [Bb])
    (walkBlocks_le_opIds (fun _ => true) r₂ [Bc])) ?_
  rwa [Multiset.coe_add, Multiset.mem_coe]

/-- What a try needs to be lowered: the type that its first catch clause declares is known, and what
leaves it has somewhere to go. -/
structure TryReady (types : TypeTable) (B : Bindings) (op : OpId) (Bb Bc Bf : BlockTree) :
    Prop where
  type : ∀ m ∈ (marksOf [Bc]).head?, ∀ ty ∈ Lower.caughtType m.kind, types.token? ty ≠ none
  reaches : ∀ id ∈ tryEscapes op Bb Bc Bf B, B.Reaches (B.previous id)

variable {f' : Func} {cleanup : Option BlockId}

variable {exit : Lower.CleanupExit} {K : List BlockTree} {copies : List (OpId × OpId)}

theorem CleanupCode.fresh (hc : CleanupCode f f' exit Bf cleanup K copies) :
    ∀ p ∈ copies, f.ops.size ≤ p.2.index := by
  cases hc with
  | absent => simp
  | present _ hc =>
    obtain ⟨rs, -, hn⟩ := hc.notes
    exact hn.freshOps

/-- The regions of a try among the entries of the body. -/
theorem exists_tryRegions (q : RegionId) (L R : List BlockTree) (b : BlockId) (args : List ValueId)
    (pre post : List OpTree) (h : Head) (r₁ r₂ r₃ : RegionTree) :
    ∃ E : Entries, .region q ⟨(L ++ ⟨b, args, pre ++ .mk h [r₁, r₂, r₃] :: post⟩ :: R).map
      (·.id), none⟩ + (layout (some q) (L ++ ⟨b, args, pre ++ .mk h [r₁, r₂, r₃] :: post⟩ :: R) +
        0) = r₁.entries (some h.id) + (r₂.entries (some h.id) + (r₃.entries (some h.id) + E)) := by
  refine ⟨.op h.id ((OpTree.mk h [r₁, r₂, r₃]).toOp b) + (.block b (BlockOf.toBlock
    ⟨b, args, pre ++ .mk h [r₁, r₂, r₃] :: post⟩ (some q)) + (nodes b pre + nodes b post +
        (layout (some q) L + (layout (some q) R + .region q ⟨(L ++ ⟨b, args, pre ++
          .mk h [r₁, r₂, r₃] :: post⟩ :: R).map (·.id), none⟩)))), ?_⟩
  simp only [layout_append, layout_cons, BlockOf.entries_eq, nodes_append, nodes_cons,
    OpTree.entries_eq, OpTree.inner, OpTree.regions_mk, OpTree.id_mk, List.map_cons, List.map_nil,
    List.sum_cons, List.sum_nil]
  abel

variable {n : OpTree} {Bs : List BlockTree}

theorem OpTree.InBlocks.mono {Bs' : List BlockTree} (hn : n.InBlocks Bs) (hs : Bs ⊆ Bs') :
    n.InBlocks Bs' := by
  obtain ⟨B, hB, m, hm, hn⟩ := hn
  exact ⟨B, hs hB, m, hm, hn⟩

variable {T : List BlockTree}

/-- Nodes besides the tree may be left out. -/
theorem Func.Holds.alone (hf : f.Holds T e) : f.Holds T 0 := by
  have h : Arena f (_ + e) := Arena.as hf (by rw [← add_assoc])
  exact Arena.as h.left (by rw [add_zero])

theorem Func.Holds.kindIs (hf : f.Holds T e) (hn : n.InBlocks T) (p : OpKind → Bool) :
    f.kindIs p n.id = p n.kind :=
  hf.arena.left.kind_of_inBlocks hn p

/-- A walk through blocks whose ops have no regions meets these ops. -/
theorem mem_of_mem_walkBlocks {down : OpKind → Bool} (hb : ∀ B ∈ Bs, ∀ n ∈ B.ops, n.regions = [])
    (hn : n ∈ walkBlocks down Bs) : ∃ B ∈ Bs, n ∈ B.ops := by
  obtain ⟨B, hB, hn⟩ := List.mem_flatMap.mp hn
  obtain ⟨m, hm, hn⟩ := List.mem_flatMap.mp hn
  rw [OpTree.walk_eq, hb B hB m hm, ite_self] at hn
  obtain rfl : n = m := by simpa [walkRegions] using hn
  exact ⟨B, hB, hm⟩

theorem Entries.mem_ops_sum {l : List Entries} {a : Entries} {x : OpId × Op} (ha : a ∈ l)
    (hx : x ∈ a.1) : x ∈ l.sum.1 := by
  induction l with
  | nil => simp at ha
  | cons c l ih =>
    rw [List.sum_cons, Prod.fst_add, Multiset.mem_add]
    rcases List.mem_cons.mp ha with rfl | ha
    · exact .inl hx
    · exact .inr (ih ha)

theorem Arena.kindIs_dead {B : BlockTree} (ha : Arena f (deadOps Bs + e)) (hB : B ∈ Bs)
    (hn : n ∈ B.ops) (p : OpKind → Bool) : f.kindIs p n.id = p n.kind := by
  have hmem : (n.id, { n.toOp B.id with parent := none, live := false }) ∈ (deadOps Bs).1 :=
    Entries.mem_ops_sum (List.mem_flatMap.mpr ⟨B, hB, List.mem_map_of_mem hn⟩)
      (Multiset.mem_singleton_self _)
  have := ha.left.ops.holds _ hmem
  simp only at this
  rw [Func.kindIs, Func.op?, this]
  rfl

/-- The ops of the catches are known, whether the catches are kept or not. -/
theorem Func.Holds.kindIs_kept {B : BlockTree}
    (hf : f.Holds T (deadOps (bif B.holdsOps then [] else [B]) + e))
    (hT : (bif B.holdsOps then [B] else []) ⊆ T)
    (hB : B.holdsOps = false → ∀ n ∈ B.ops, n.regions = [])
    (hn : n ∈ walkBlocks (fun _ => true) [B]) (p : OpKind → Bool) : f.kindIs p n.id = p n.kind := by
  cases hk : B.holdsOps with
  | true =>
    rw [hk] at hT
    exact hf.kindIs ((inBlocks_of_mem_walkBlocks hn).mono hT) p
  | false =>
    obtain ⟨B', hB', hop⟩ := mem_of_mem_walkBlocks (by simpa using hB hk) hn
    obtain rfl := List.mem_singleton.mp hB'
    rw [hk] at hf
    exact hf.arena.right.right.kindIs_dead (List.mem_singleton_self B') hop p

variable {ops : List OpTree}

variable {landing : Option BlockId}

theorem Lower.forM_unwindTo (hk : ∀ n ∈ ops, s.func.kindIs OpKind.mayThrow n.id = n.kind.mayThrow) :
    landing.forM (Lower.unwindTo (ops.map (·.id))) s = .ok () { s with
      bindings := landing.elim s.bindings fun pad => s.bindings.unwindAll ops pad } := by
  cases landing with
  | none => rfl
  | some pad => exact Lower.unwindTo_eq hk

variable {escapes : List OpId} {B' : Bindings} {slot : Option ValueId}

theorem RouteCode.slot_eq_none {n : Nat} (hr : RouteCode n op Bf escapes B slot B' ops)
    (hB : Bf.holdsOps = false) : slot = none := by
  cases hr with
  | absent => rfl
  | present hyes => simp [hB] at hyes

theorem RouteCode.weaken {n m : Nat} (hr : RouteCode n op Bf escapes B slot B' ops) (hm : m ≤ n) :
    RouteCode m op Bf escapes B slot B' ops := by
  cases hr with
  | absent hno => exact .absent hno
  | present hyes hne hs => exact .present hyes hne (hm.trans hs)

variable {f₀ : Func}

theorem CleanupCode.mono (hk : CleanupCode f₀ f exit Bf cleanup K copies) (g : f.GrowsTo f') :
    CleanupCode f₀ f' exit Bf cleanup K copies := by
  cases hk with
  | absent hno => exact .absent hno
  | present hyes hm he hp => exact .present hyes (hm.mono (.refl _) g) he hp

theorem CatchCode.mono {type : Option (Ty × TypeToken)} {outer : Option BlockId}
    {payload : Option ValueId} {pads : List BlockTree}
    (hk : CatchCode f₀ f Bc type cleanup outer landing payload pads) :
    CatchCode f₀ f' Bc type cleanup outer landing payload pads := by
  cases hk with
  | absent hno => exact .absent hno
  | present hyes hl hp => exact .present hyes (hl.mono le_rfl) hp

/-- What is cloned stands behind the pad of the clone, if there is one. -/
theorem clonesFinal_iff {op : OpId} {d : Op} {q₁ q₂ q₃ : RegionId} {next : BlockId} {f₁ f₂ : Func}
    {Cl : List BlockTree} (hd : f.op? op = some d) (hk : d.kind = .construct .tryCatch)
    (hr : d.regions = [q₁, q₂, q₃]) (hops : Lower.hasOps q₃ f = .ok Bf.holdsOps f)
    (hsplit : Edit.splitAfter op f = .ok next f₁) (hCl : KeptClone f₁ f₂ Bf Cl copies)
    (hcloned : Bf.holdsOps = true → ∃ m f', Edit.cloneRegion q₃ f₁ = .ok (Cl.map (·.id), m) f')
    (hK : ∀ pad ∈ cleanup, K.map (·.id) = pad :: Cl.map (·.id)) (hnone : cleanup = none → K = [])
    (hsome : cleanup.isSome = Bf.holdsOps) (entry : BlockId) :
    Lower.ClonesFinal f op entry ↔ ∃ C ∈ K.tail, C.id = entry := by
  have htail : K.tail.map (·.id) = Cl.map (·.id) := by
    cases hCl with
    | absent hno =>
      rw [hno, Option.isSome_eq_false_iff, Option.isNone_iff_eq_none] at hsome
      simp [hnone hsome]
    | present hyes hc =>
      rw [hyes] at hsome
      obtain ⟨pad, hpad⟩ := Option.isSome_iff_exists.mp hsome
      rw [List.map_tail, hK pad hpad, List.tail_cons]
  have hiff : (∃ C ∈ K.tail, C.id = entry) ↔ entry ∈ Cl.map (·.id) := by
    rw [← htail, List.mem_map]
  rw [hiff]
  constructor
  · rintro ⟨d', _, _, _, _, f₁', rest, m, f', hd', -, hr', hops', hsplit', hclone⟩
    cases hd.symm.trans hd'
    cases hr.symm.trans hr'
    cases hsplit.symm.trans hsplit'
    obtain ⟨m', f'', hrun⟩ := hcloned (EStateM.Result.ok.inj (hops.symm.trans hops')).1
    have := (EStateM.Result.ok.inj (hrun.symm.trans hclone)).1
    rw [(Prod.mk.inj this).1]
    exact List.mem_cons_self
  · intro hentry
    cases hCl with
    | absent => simp at hentry
    | @present m ρ hyes hc =>
      obtain ⟨m', f', hrun⟩ := hcloned hyes
      obtain rfl : entry = (Bf.rename ρ).id := by simpa using hentry
      exact ⟨d, q₁, q₂, q₃, next, f₁, [], m', f', hd, hk, hr, hyes ▸ hops, hsplit, hrun⟩

theorem Func.Holds.lowerTryRegions (types : TypeTable) (strategy : UnwindStrategy)
    (hf : s.func.Holds
      (L ++ ⟨b, args, pre ++ .mk h [⟨q₁, [Bb]⟩, ⟨q₂, [Bc]⟩, ⟨q₃, [Bf]⟩] :: post⟩ :: R) 0)
    (hc : ∀ B ∈ [Bc, Bf], B.holdsOps = false → ∀ n ∈ B.ops, n.regions = [])
    (hr : ¬TryReady types s.bindings h.id Bb Bc Bf → stop) :
    Meets stop (Lower.lowerTryRegions types strategy h.id q₁ q₂ q₃) s fun _ s' => ∃ c,
      s'.func.Holds (c.tree L R b args pre post) 0 ∧
        LoweredTry types strategy s s' h Bb Bc Bf c := by
  obtain ⟨E, hE⟩ := exists_tryRegions s.func.body L R b args pre post h ⟨q₁, [Bb]⟩ ⟨q₂, [Bc]⟩
    ⟨q₃, [Bf]⟩
  have hall : Arena s.func _ := Arena.as hf hE
  have hbody := hall
  have hcatches := hall.right
  have hfinal := hall.right.right
  have hBb : Arena s.func (layout (some q₁) [Bb]) := by
    have := hbody.left
    rw [RegionOf.entries_eq] at this
    exact this.right
  have hBc : Arena s.func (layout (some q₂) [Bc]) := by
    have := hcatches.left
    rw [RegionOf.entries_eq] at this
    exact this.right
  have hboth : Arena s.func (layout (some q₁) [Bb] + (layout (some q₂) [Bc] +
      (.region q₁ ⟨[Bb.id], some h.id⟩ + (.region q₂ ⟨[Bc.id], some h.id⟩ +
        (RegionOf.entries (some h.id) ⟨q₃, [Bf]⟩ + E))))) := by
    refine hall.as ?_
    rw [RegionOf.entries_eq (some h.id) ⟨q₁, [Bb]⟩, RegionOf.entries_eq (some h.id) ⟨q₂, [Bc]⟩]
    simp only [RegionOf.toRegion, List.map_cons, List.map_nil]
    abel
  unfold Lower.lowerTryRegions
  let s₁ : LowerState := { s with bindings := s.bindings.surround h.id Bb Bc Bf }
  have he₁ := hbody.encloseTries h.id .body
  have he₂ := Arena.encloseTries (s := { s with bindings := s.bindings.enclose h.id .body [Bb] })
    h.id .catches hcatches
  have he₃ := Arena.encloseTries (s := { s with
    bindings := (s.bindings.enclose h.id .body [Bb]).enclose h.id .catches [Bc] })
    h.id .final hfinal
  refine .step he₁ (.step he₂ (.step he₃ ?_))
  change Meets stop _ s₁ _
  refine .editStep (s := s₁) hcatches.hasOps (.editStep (s := s₁) hfinal.hasOps ?_)
  simp only [List.any_cons, List.any_nil, Bool.or_false]
  refine .step (s := s₁) rfl (.step (s := s₁) rfl ?_)
  have hmarks : (liftM (s.func.outermost q₂ Lower.isCatchMark) : Lower (List OpId)) s₁ =
      .ok ((marksOf [Bc]).map (·.id)) s₁ := by
    rw [hcatches.outermost]
    rfl
  refine .step hmarks ?_
  have htype : Meets stop _ s₁.func _ := hBc.catchType types h.id
    fun m hm ty hty hnone => hr fun hready => hready.type m hm ty hty hnone
  refine .editBind (s := s₁) htype ?_
  rintro _ f₁ ⟨rfl, rfl⟩
  have hbodyOps : (liftM (s.func.opsInRegion q₁) : Lower (List OpId)) s₁ =
      .ok ((walkBlocks (fun _ => true) [Bb]).map (·.id)) s₁ := by
    rw [hbody.opsInRegion]
    rfl
  have hcatchesOps : (liftM (s.func.opsInRegion q₂) : Lower (List OpId)) s₁ =
      .ok ((walkBlocks (fun _ => true) [Bc]).map (·.id)) s₁ := by
    rw [hcatches.opsInRegion]
    rfl
  refine .step hbodyOps (.step hcatchesOps (.step (s := s₁) rfl ?_))
  change Meets stop (Lower.settle (fun b =>
    (((walkBlocks (fun _ => true) [Bc]).map (·.id)).filter
      (Lower.isEscape s.func s₁.bindings)).foldl Bindings.enterCatch b) >>= _) s₁ _
  rw [hBc.filter_isEscape, hBb.filter_isEscape]
  refine .step rfl ?_
  let s₂ : LowerState := { s₁ with
    bindings := ((escapesOf s₁.bindings [Bc]).map (·.id)).foldl Bindings.enterCatch s₁.bindings }
  change Meets stop _ s₂ _
  have hsplit : Meets stop _ s₂.func _ := hf.splitAfter
  refine .editBind (s := s₂) hsplit.withRun ?_
  rintro next f₂ ⟨⟨hf₂, g₂⟩, hsplit⟩
  have hclone : Meets stop _ { s₂ with func := f₂ } _ :=
    Func.Holds.cloneKept (s := { s₂ with func := f₂ }) (a := [⟨q₁, [Bb]⟩, ⟨q₂, [Bc]⟩]) (c := []) hf₂
  refine .bind hclone ?_
  rintro _ s₃ ⟨Cl, copies, hCl, rfl, hcloned, hf₃, hb₃, hst₃, g₃⟩
  have hf₃ : s₃.func.Holds (L ++
    ⟨b, args, pre ++ .mk h ([] ++ ⟨q₁, [Bb]⟩ :: [⟨q₂, [Bc]⟩, ⟨q₃, [Bf]⟩]) ::
    []⟩ :: ([] ++ ⟨next, [], post⟩ :: R)) _ := hf₃
  have hbodyBlocks : Meets stop (Lower.inlineRegion q₁ next) s₃.func _ := hf₃.inlineRegion
  refine .editBind hbodyBlocks ?_
  rintro _ f₄ ⟨rfl, hf₄, g₄⟩
  simp only [List.map_cons, List.map_nil]
  have hcatchesBlocks : Meets stop (Lower.takeOrDiscard q₂ Bc.holdsOps) f₄ _ :=
    Func.Holds.takeOrDiscard (a := [⟨q₁, []⟩]) (c := [⟨q₃, [Bf]⟩]) Bc.holdsOps hf₄
      fun hno B hB => by
        obtain rfl := List.mem_singleton.mp hB
        exact hc B (by simp) hno
  refine .editBind (s := { s₃ with func := f₄ }) hcatchesBlocks ?_
  rintro _ f₅ ⟨rfl, hf₅, g₅⟩
  have hfinalBlocks : Meets stop (Lower.takeOrDiscard q₃ Bf.holdsOps) f₅ _ :=
    Func.Holds.takeOrDiscard (a := [⟨q₁, []⟩, ⟨q₂, []⟩]) (c := []) Bf.holdsOps hf₅
      fun hno B hB => by
        obtain rfl := List.mem_singleton.mp hB
        exact hc B (by simp) hno
  refine .editBind (s := { s₃ with func := f₅ }) hfinalBlocks ?_
  rintro _ f₆ ⟨rfl, hf₆, g₆⟩
  have g₀ : s.func.GrowsTo f₂ := g₂.growsTo
  have g₃₆ : s₃.func.GrowsTo f₆ := g₄.trans (g₅.trans g₆)
  have hCl₆ : KeptClone s.func f₆ Bf Cl copies := by
    cases hCl with
    | absent hno => exact .absent hno
    | present hyes hm => exact .present hyes (hm.mono g₀ g₃₆)
  let dead : Entries := deadOps (bif Bc.holdsOps then [] else [Bc]) +
    deadOps (bif Bf.holdsOps then [] else [Bf])
  have hf₆ := hf₆.as (d := layout none Cl + (layout none (bif Bc.holdsOps then [Bc] else []) +
    layout none (bif Bf.holdsOps then [Bf] else []) + dead)) (by simp only [dead]; abel)
  have hpad : Meets stop (Lower.padClone (Cl.map (·.id)) _) f₆ _ :=
    Func.Holds.padClone (.of strategy (s₁.bindings.outerPad h.id)) hCl₆
      (g₀.trans (g₃.trans g₃₆)) hf₆
  refine .editBind (s := { s₃ with func := f₆ }) hpad ?_
  rintro cleanup f₇ ⟨K, hK, hKids, hKnone, hKsome, hf₇, g₇⟩
  have g₇' : s.func.GrowsTo f₇ := g₀.trans (g₃.trans (g₃₆.trans g₇))
  -- the blocks are laid out one part after another, each before the block behind the try
  let front : BlockTree := ⟨b, args, pre ++ [.mk h [⟨q₁, []⟩, ⟨q₂, []⟩, ⟨q₃, []⟩]]⟩
  let behind : BlockTree := ⟨next, [], post⟩
  have hf₇ : f₇.Holds ((L ++ [front, Bb]) ++ behind :: R)
      (layout none K + (layout none (bif Bc.holdsOps then [Bc] else []) +
        layout none (bif Bf.holdsOps then [Bf] else []) + dead)) := by
    simpa [front, behind] using hf₇
  have hcatchPad : Meets stop (Lower.padCatches behind.id
      ((bif Bc.holdsOps then [Bc] else []).map (·.id)) (caughtBy types (marksOf [Bc]))
        ((marksOf [Bc]).map (·.id)) cleanup (s₁.bindings.outerPad h.id))
      { s₃ with func := f₇ } _ := Func.Holds.padCatches g₇' hf₇
  refine .bind hcatchPad ?_
  rintro landing s₈ ⟨payload, pads, hpads, hf₈, hb₈, hst₈, g₈⟩
  have hf₈ := hf₈.as (d := layout none (bif Bc.holdsOps then [Bc] else []) +
    (layout none K + layout none (bif Bf.holdsOps then [Bf] else []) + dead)) (by abel)
  have hplace : Meets stop _ s₈.func _ := hf₈.spliceBefore
  refine .editBind hplace ?_
  rintro _ f₉ ⟨hf₉, g₉⟩
  have hf₉ := hf₉.as (d := layout none (bif Bf.holdsOps then [Bf] else []) + (layout none K + dead))
    (by abel)
  have hplace : Meets stop _ f₉ _ := hf₉.spliceBefore
  refine .editBind (s := { s₈ with func := f₉ }) hplace ?_
  rintro _ f₁₀ ⟨hf₁₀, g₁₀⟩
  have hplace : Meets stop (Lower.placeClone next (Cl.map (·.id)) cleanup) f₁₀ fun _ f' =>
      f'.Holds ((L ++ [front, Bb] ++ pads ++ (bif Bc.holdsOps then [Bc] else []) ++
        (bif Bf.holdsOps then [Bf] else []) ++ K) ++ behind :: R) dead ∧ f₁₀.GrowsTo f' := by
    cases cleanup with
    | none =>
      refine .pure ⟨?_, .refl _⟩
      simpa [hKnone rfl] using hf₁₀
    | some pad =>
      have hsplice : Meets stop (Edit.spliceBefore behind.id (K.map (·.id))) f₁₀ _ :=
        hf₁₀.spliceBefore
      rw [hKids pad rfl] at hsplice
      refine hsplice.mono ?_
      rintro _ f' ⟨hf', g'⟩
      exact ⟨hf', g'.growsTo⟩
  refine .editBind (s := { s₈ with func := f₁₀ }) hplace ?_
  rintro _ f₁₁ ⟨hf₁₁, g₁₁⟩
  refine .step rfl ?_
  have hBb₁₁ : ∀ n ∈ walkBlocks (fun _ => true) [Bb],
      f₁₁.kindIs OpKind.mayThrow n.id = n.kind.mayThrow := fun n hn =>
    hf₁₁.kindIs ((inBlocks_of_mem_walkBlocks hn).mono (by simp)) _
  have hBc₁₁ : ∀ n ∈ walkBlocks (fun _ => true) [Bc],
      f₁₁.kindIs OpKind.mayThrow n.id = n.kind.mayThrow := fun n hn =>
    Func.Holds.kindIs_kept hf₁₁
      (fun B hB => by simp only [List.mem_append]; exact .inl (.inl (.inl (.inr hB))))
      (hc Bc (by simp)) hn _
  refine .step (Lower.forM_unwindTo hBb₁₁) (.step (Lower.forM_unwindTo hBc₁₁) ?_)
  refine .step rfl ?_
  -- what has been settled does not depend on the parts that are still to come
  let c : TryCode := ⟨next, h.id, landing, cleanup, payload, none, Bb, pads, [], [], K, [], [],
    copies⟩
  let s₁₂ : LowerState := ⟨f₁₁, s.bindings.layOut h.id Bb Bc Bf c, { s₈.stats with
    landingPads := s₈.stats.landingPads + Bc.holdsOps.toNat + cleanup.isSome.toNat }⟩
  change Meets stop (Lower.routeEscapes h.id _ _ >>= _) _ _
  have hs₁₂ : (⟨f₁₁, Bindings.setPads (cleanup.elim (landing.elim s₈.bindings fun pad =>
      s₈.bindings.unwindAll (walkBlocks (fun _ => true) [Bb]) pad) fun pad =>
        (landing.elim s₈.bindings fun pad =>
          s₈.bindings.unwindAll (walkBlocks (fun _ => true) [Bb]) pad).unwindAll
            (walkBlocks (fun _ => true) [Bc]) pad) h.id { landing, cleanup }, { s₈.stats with
    landingPads := s₈.stats.landingPads + Bc.holdsOps.toNat + cleanup.isSome.toNat }⟩ :
      LowerState) =
      s₁₂ := by
    simp only [s₁₂, Bindings.layOut, hb₈, hb₃]
    rfl
  refine Eq.mpr (congrArg (fun t => Meets stop _ t _) hs₁₂) ?_
  have hways : Bindings.SameWays s.func.ops.size s.bindings s₁₂.bindings :=
    Bindings.sameWays_layOut h.id Bb Bc Bf hK.fresh
  have hf₁₂ : s₁₂.func.Holds (L ++ front :: (Bb :: (pads ++ (bif Bc.holdsOps then [Bc] else []) ++
      keptFinal Bf ++ K) ++ behind :: R)) 0 := by
    refine hf₁₁.alone.as_tree ?_
    simp [keptFinal]
  have hescapes : (escapesOf s₁.bindings [Bb]).map (·.id) ++
      (escapesOf s₁.bindings [Bc]).map (·.id) =
      tryEscapes h.id Bb Bc Bf s.bindings := by
    rw [tryEscapes, List.map_append]
  have hroute : Meets stop (Lower.routeEscapes h.id ((keptFinal Bf).map (·.id)) _) s₁₂ _ :=
    hf₁₂.routeEscapes h.id Bf (tryEscapes h.id Bb Bc Bf s.bindings) (by simp)
  rw [hescapes]
  refine .bind hroute ?_
  rintro slot s₁₃ ⟨slotOps, hslot, hf₁₃, hst₁₃, g₁₃⟩
  obtain ⟨L₁, pre₁, hstart⟩ := atStart_append slotOps L b args pre
  have hf₁₃ : s₁₃.func.Holds (L₁ ++ ⟨b, args, pre₁ ++ [.mk h [⟨q₁, []⟩, ⟨q₂, []⟩, ⟨q₃, []⟩]]⟩ ::
      (Bb :: (pads ++ (bif Bc.holdsOps then [Bc] else []) ++ keptFinal Bf ++ K) ++
        behind :: R)) 0 :=
    hf₁₃.as_tree (hstart _ _)
  have hcodes := foldl_assignCode h.id s₁₂.bindings
    (hboth.nodup_tryEscapes h.id Bf s.bindings)
  have hready : ¬(∀ c ∈ ((tryEscapes h.id Bb Bc Bf s.bindings).foldl (Lower.assignCode h.id)
      (s₁₂.bindings, [])).2, s₁₃.bindings.Reaches c.2) → stop := by
    refine fun hno => hr fun hready => hno fun c hc => ?_
    rw [hcodes] at hc
    obtain ⟨code, d⟩ := c
    obtain ⟨hd, -⟩ := (mem_numbered (Bindings.nodup_destinations _ _)).mp hc
    obtain ⟨id, hid, rfl⟩ := Bindings.mem_destinations.mp hd
    refine hslot.reaches ((hways.reaches _).mpr ?_)
    rw [hways.previous (hboth.index_lt_of_mem_tryEscapes hid)]
    exact hready.reaches id hid
  have g₁₁' : s.func.GrowsTo f₁₁ := g₇'.trans (g₈.trans (g₉.growsTo.trans (g₁₀.growsTo.trans g₁₁)))
  have hfinish : Meets stop (Lower.finishTry h.id Bb.id [Bb.id] _ _ behind.id slot) s₁₃ _ :=
    Func.Holds.finishTry (g₁₁'.trans g₁₃).size_le hf₁₃ (by simp) hslot.route
      hslot.slot_eq_none hready
  refine hfinish.mono ?_
  rintro _ s' ⟨branch, Bb', Cs', Fs', made, hBb', hCs', hFs', hf', hed⟩
  have g₇₁₃ : f₇.GrowsTo s'.func :=
    g₈.trans (g₉.growsTo.trans (g₁₀.growsTo.trans (g₁₁.trans (g₁₃.trans hed.grows))))
  refine ⟨⟨next, branch, landing, cleanup, payload, slot, Bb', pads, Cs', Fs', K, made, slotOps,
    copies⟩, hf'.as_tree ?_, ?_⟩
  · rw [TryCode.tree, hstart]
    simp [hBb'.1]
    rfl
  · exact {
      clone := hK.mono g₇₁₃
      pads := hpads.mono
      route := hed.bindings ▸ hslot.weaken g₁₁'.size_le
      body := hBb'
      catches := hCs'
      finals := hed.bindings ▸ hFs'
      stats := by
        rw [hed.stats, hst₁₃]
        simp only [s₁₂, hst₈, hst₃, hKsome]
        rfl
      cloned := fun hk => clonesFinal_iff hf.arena.at_op.op? hk rfl
        (by simpa using hfinal.hasOps) hsplit hCl hcloned hKids hKnone hKsome
      grows := g₇'.trans g₇₁₃ }

theorem Func.Holds.lowerTry (types : TypeTable) (strategy : UnwindStrategy)
    (hf : s.func.Holds
      (L ++ ⟨b, args, pre ++ .mk h [⟨q₁, [Bb]⟩, ⟨q₂, [Bc]⟩, ⟨q₃, [Bf]⟩] :: post⟩ :: R) 0)
    (hc : ∀ B ∈ [Bc, Bf], B.holdsOps = false → ∀ n ∈ B.ops, n.regions = [])
    (hr : ¬TryReady types s.bindings h.id Bb Bc Bf → stop) :
    Meets stop (Lower.lowerTry types strategy h.id) s fun _ s' => ∃ c,
      s'.func.Holds (c.tree L R b args pre post) 0 ∧
        LoweredTry types strategy s s' h Bb Bc Bf c := by
  refine .editStep hf.arena.at_op.getOp ?_
  exact hf.lowerTryRegions types strategy hc hr

end

end Unnest
