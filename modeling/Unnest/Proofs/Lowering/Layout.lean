import Unnest.Proofs.Lowering.Runs
import Unnest.Proofs.Lowering.Settled
/-!
# The layout after a round

A round puts flat code in the place of a construct and lays out the blocks of its regions behind it.
What stood before the construct, behind it and in the other blocks stays, in the order it had.
`Layout` has the parts that are new and `Layout.tree` is the body that they make; `Lowered.lays`
says which parts there are for each construct.
-/

namespace Unnest

/-- What a round puts in the place of a construct. -/
structure Layout where
  /-- The names under which the results of the construct go on. -/
  names : ValueId → ValueId := fun v => v
  /-- The ops that come to the start of the function. -/
  slots : List OpTree := []
  /-- The ops in the place of the construct. -/
  mid : List OpTree
  /-- The blocks behind the construct. -/
  inner : List BlockTree := []
  /-- The block to which what follows has moved, with its arguments. -/
  next : Option (BlockId × List ValueId) := none
  /-- The blocks at the end of the body. -/
  tail : List BlockTree := []

namespace Layout

/-- The blocks from the one of the construct on. -/
def behind (c : Layout) (R : List BlockTree) (b : BlockId) (args : List ValueId)
    (pre post : List OpTree) : List BlockTree :=
  match c.next with
  | none => ⟨b, args, pre ++ c.mid ++ post⟩ :: (c.inner ++ (R ++ c.tail))
  | some (next, news) => ⟨b, args, pre ++ c.mid⟩ :: (c.inner ++ ⟨next, news, post⟩ :: (R ++ c.tail))

/-- The body with the construct between `pre` and `post` replaced. -/
def tree (c : Layout) (L R : List BlockTree) (b : BlockId) (args : List ValueId)
    (pre post : List OpTree) : List BlockTree :=
  atStart c.slots (L.map (.rename (.uses c.names)) ++ c.behind
    (R.map (.rename (.uses c.names))) b args
    (pre.map (.rename (.uses c.names))) (post.map (.rename (.uses c.names))))

end Layout

theorem map_rename_uses_id (L : List BlockTree) :
    L.map (BlockOf.rename (.uses fun v => v)) = L :=
  (List.map_congr_left fun B _ => B.rename_uses_id).trans (List.map_id' L)

theorem map_opRename_uses_id (l : List OpTree) : l.map (OpTree.rename (.uses fun v => v)) = l :=
  (List.map_congr_left fun n _ => n.rename_uses_id).trans (List.map_id' l)

theorem OpKind.Calm.mapSuccessors {k : OpKind} (g : BlockId → BlockId) (h : k.Calm) :
    (k.mapSuccessors g).Calm := by
  cases k with
  | construct c => cases c <;> exact ⟨rfl, rfl⟩
  | instr i => exact h
  | transfer t =>
    rw [calm_transfer] at h
    cases t <;> simp_all [OpKind.mapSuccessors, Transfer.mapSuccessors]

theorem OpTree.IsCode.rename {n : OpTree} (ρ : Renaming) (h : n.IsCode) : (n.rename ρ).IsCode := by
  obtain ⟨⟨hr, hs⟩, hcalm⟩ := h
  exact ⟨⟨by simp [hr], by simpa using hs⟩, by simpa using hcalm.mapSuccessors _⟩

/-! ## What a round leaves aside -/

/-- What is put off, and which resume points there are. -/
def Bindings.aside (B : Bindings) : List OpId × List BlockId := (B.pending, B.stateLabels)

namespace Bindings

theorem aside_layOut (op : OpId) (Bb Bc Bf : BlockTree) (c : TryCode) (B : Bindings) :
    (B.layOut op Bb Bc Bf c).aside = B.aside := by
  have henclose (placement : Placement) (Bs : List BlockTree) (B : Bindings) :
      (B.enclose op placement Bs).aside = B.aside := foldl_keeps aside (by intros; rfl) _ B
  have hcatch (ids : List OpId) (B : Bindings) : (ids.foldl enterCatch B).aside = B.aside :=
    foldl_keeps aside (by intros; rfl) ids B
  have hmarks (payload : ValueId) (ms : List OpTree) (B : Bindings) :
      (ms.foldl (fun b m => b.setPayload m.id payload) B).aside = B.aside :=
    foldl_keeps aside (by intros; rfl) ms B
  have hunwind (ops : List OpTree) (pad : BlockId) (B : Bindings) :
      (B.unwindAll ops pad).aside = B.aside := foldl_keeps aside (by intros; rfl) _ B
  have hcopy (copies : List (OpId × OpId)) (B : Bindings) : (B.copyAll copies).aside = B.aside :=
    foldl_keeps aside (by intros; rfl) copies B
  have hpads (p : Pads) (B : Bindings) : (B.setPads op p).aside = B.aside := rfl
  unfold layOut
  cases c.payload <;> cases c.landing <;> cases c.cleanup <;>
    simp only [Option.elim_none, Option.elim_some, hpads, hunwind, hmarks, hcopy, hcatch, surround,
      henclose]

theorem aside_bindJumps (t : JumpTargets) (js : List OpTree) (B : Bindings) :
    (B.bindJumps t js).aside = B.aside :=
  foldl_keeps aside (fun B n => by cases t.target? n.kind <;> rfl) js B

theorem pads_bindJumps (t : JumpTargets) (js : List OpTree) (B : Bindings) :
    (B.bindJumps t js).unwinds = B.unwinds ∧ (B.bindJumps t js).padsOf = B.padsOf :=
  ⟨foldl_keeps unwinds (fun B n => by cases t.target? n.kind <;> rfl) js B,
    foldl_keeps padsOf (fun B n => by cases t.target? n.kind <;> rfl) js B⟩

theorem aside_foldl_assignCode (op : OpId) (ids : List OpId)
    (p : Bindings × List (Int64 × Destination)) :
    (ids.foldl (Lower.assignCode op) p).1.aside = p.1.aside := by
  induction ids generalizing p with
  | nil => rfl
  | cons id ids ih =>
    rw [List.foldl_cons, ih]
    unfold Lower.assignCode
    obtain ⟨B, cases⟩ := p
    simp only
    split <;> rfl

end Bindings

theorem RouteCode.aside {n : Nat} {op : OpId} {Bf : BlockTree} {escapes : List OpId}
    {B B' : Bindings} {slot : Option ValueId} {ops : List OpTree}
    (h : RouteCode n op Bf escapes B slot B' ops) : B'.aside = B.aside := by
  cases h with
  | absent => rfl
  | present => exact Bindings.aside_foldl_assignCode op escapes (B, [])

theorem LoweredTry.aside {types : TypeTable} {strategy : UnwindStrategy} {s s' : LowerState}
    {h : Head} {Bb Bc Bf : BlockTree} {c : TryCode}
    (hl : LoweredTry types strategy s s' h Bb Bc Bf c) : s'.bindings.aside = s.bindings.aside :=
  hl.route.aside.trans (Bindings.aside_layOut h.id Bb Bc Bf c _)

/-- What has been settled and counted about exceptions. -/
def LowerState.raising (s : LowerState) : Table OpId BlockId × Table OpId Pads × Nat × Nat × Nat :=
  (s.bindings.unwinds, s.bindings.padsOf, s.stats.invokes, s.stats.landingPads,
    s.stats.cleanupClones)

theorem LowerState.Edited.raising {s s' : LowerState} (h : s.Edited s') :
    s'.raising = s.raising := by
  simp only [LowerState.raising, h.bindings, h.stats]

/-! ## What is laid out -/

/-- What a call is as flat code, given the pad that its exceptions go to. -/
inductive CallCode (callee : Callee) (plain : Instr) : Option BlockId → OpKind → Prop
  | plain : CallCode callee plain none (.instr plain)
  | invoke (normal unwind : BlockId) :
      CallCode callee plain (some unwind) (.transfer (.invoke callee normal unwind))

/-- The two forms in which a construct calls. -/
inductive Calls : Construct → Callee → Instr → Prop
  | direct (callee : String) : Calls (.call callee) (.symbol callee) (.call callee)
  | indirect : Calls .callIndirect .indirect .callIndirect

/-- The parts that replace a construct, by the sort of the construct. -/
inductive Lays (types : TypeTable) (o : LowerOptions) (s s' : LowerState) : OpTree → Layout → Prop
  /-- Flat code that neither calls nor throws. -/
  | placed {h : Head} {mid : List OpTree} {next : Option BlockId} {tail : List BlockTree}
      (hcall : ∀ callee, h.kind ≠ .construct (.call callee))
      (hlabel : h.kind ≠ .construct .stateLabel)
      (hm : ∀ n ∈ mid, n.IsCode) (ht : AllCode tail)
      (hl : s'.bindings.aside = s.bindings.aside) (hc : s'.raising = s.raising) :
      Lays types o s s' (.leaf h) { mid, next := next.map (·, []), tail }
  /-- A throw, to the pad that was settled for it. -/
  | thrown {h : Head} {next : Option BlockId} (hk : h.kind = .construct .throw) (he : s.Edited s') :
      Lays types o s s' (.leaf h)
        { mid := [.leaf { h with kind := .transfer (throwTransfer (s.bindings.unwind? h.id)) }]
          next := next.map (·, []) }
  /-- A call, in the form that it has as flat code. -/
  | called {h : Head} {c : Construct} {callee : Callee} {plain : Instr} {k : OpKind}
      {next : Option BlockId} (hk : h.kind = .construct c) (hc : Calls c callee plain)
      (hcode : CallCode callee plain (s.bindings.unwind? h.id) k)
      (hl : s'.bindings = s.bindings)
      (hs : s'.stats = { s.stats with
        invokes := s.stats.invokes + (s.bindings.unwind? h.id).isSome.toNat }) :
      Lays types o s s' (.leaf h) { mid := [.leaf { h with kind := k }], next := next.map (·, []) }
  /-- A branch to what follows a resume point. -/
  | resumed {h : Head} {resume : BlockId} (hk : h.kind = .construct .stateLabel)
      (hl : s'.bindings = s.bindings.addStateLabel resume) (hc : s'.raising = s.raising) :
      Lays types o s s' (.leaf h)
        { mid := [.leaf { h with kind := .transfer (.br resume), operands := [] }]
          next := some (resume, []) }
  /-- The blocks of the regions, with other ends. -/
  | opened {x : OpTree} {c : Construct} {σ : ValueId → ValueId} {mid : List OpTree}
      {inner : List BlockTree} {next : BlockId} {news : List ValueId}
      (hk : x.kind = .construct c)
      (hcon : c ≠ .tryCatch ∧ (∀ callee, c ≠ .call callee) ∧ c ≠ .stateLabel)
      (hσ : NewNames s.func s'.func x.head.results σ news) (hm : ∀ n ∈ mid, n.IsCode)
      (hi : List.Forall₂ EndChanged
        ((x.regions.flatMap (·.blocks)).map (BlockOf.rename (.uses σ))) inner)
      (hl : s'.bindings.aside = s.bindings.aside) (hc : s'.raising = s.raising) :
      Lays types o s s' x { names := σ, mid, inner, next := some (next, news) }
  /-- The parts of a try. -/
  | tried {h : Head} {Bb Bc Bf : BlockTree} {q₁ q₂ q₃ : RegionId} {c : TryCode}
      (hk : h.kind = .construct .tryCatch) (hl : LoweredTry types o.unwind s s' h Bb Bc Bf c) :
      Lays types o s s' (.mk h [⟨q₁, [Bb]⟩, ⟨q₂, [Bc]⟩, ⟨q₃, [Bf]⟩])
        { slots := c.slotOps
          mid := [.leaf ⟨c.branch, .transfer (.br c.body.id), [], [], none⟩]
          inner := c.body :: (c.pads ++ c.catches ++ c.finals ++ c.clone ++ c.made)
          next := some (c.next, []) }

section

variable {types : TypeTable} {o : LowerOptions} {s s' : LowerState} {L R T' : List BlockTree}
  {b : BlockId} {args : List ValueId} {pre post : List OpTree} {x : OpTree} {h : Head}

theorem Layout.tree_placed (mid : List OpTree) (next : Option BlockId) (tail : List BlockTree) :
    ({ mid, next := next.map (·, []), tail } : Layout).tree L R b args pre post =
      placed L R b args pre mid post next ++ tail := by
  cases next <;>
    simp [tree, behind, placed, atStart_nil, map_rename_uses_id, map_opRename_uses_id]

theorem Layout.tree_opened (σ : ValueId → ValueId) (casts front : List OpTree)
    (inner : List BlockTree) (next : BlockId) (news : List ValueId) :
    ({ names := σ, mid := casts.map (.rename (.uses σ)) ++ front
       inner, next := some (next, news) } :
      Layout).tree L R b args pre post =
      opened σ L R b args (pre ++ casts) post front inner next news := by
  simp [tree, behind, opened, atStart_nil]

theorem Layout.tree_tried (c : TryCode) :
    ({ slots := c.slotOps
       mid := [.leaf ⟨c.branch, .transfer (.br c.body.id), [], [], none⟩]
       inner := c.body :: (c.pads ++ c.catches ++ c.finals ++ c.clone ++ c.made)
       next := some (c.next, []) } : Layout).tree L R b args pre post =
      c.tree L R b args pre post := by
  simp [tree, behind, TryCode.tree, map_rename_uses_id, map_opRename_uses_id]

theorem lays_placed {mid : List OpTree} {next : Option BlockId} {c : Construct}
    (hk : h.kind = .construct c) (hcon : (∀ callee, c ≠ .call callee) ∧ c ≠ .stateLabel)
    (hm : ∀ n ∈ mid, n.IsCode) (he : s.Edited s') :
    ∃ c : Layout, placed L R b args pre mid post next = c.tree L R b args pre post ∧
      Lays types o s s' (.leaf h) c := by
  refine ⟨{ mid, next := next.map (·, []), tail := [] }, ?_,
    .placed ?_ ?_ hm allCode_nil (by rw [he.bindings]) he.raising⟩
  · rw [Layout.tree_placed, List.append_nil]
  · intro callee hk'
    rw [hk, OpKind.construct.injEq] at hk'
    exact hcon.1 callee hk'
  · intro hk'
    rw [hk, OpKind.construct.injEq] at hk'
    exact hcon.2 hk'

theorem lays_left {dest : Destination} {c : Construct} (more : List OpTree)
    (hk : h.kind = .construct c) (hcon : (∀ callee, c ≠ .call callee) ∧ c ≠ .stateLabel)
    (hm : ∀ n ∈ more, n.IsCode) (hl : Left s s' L R b args (pre ++ more) post h dest T') :
    ∃ c : Layout, T' = c.tree L R b args pre post ∧ Lays types o s s' (.leaf h) c := by
  obtain ⟨ends, codes, target, cut, hends, hleads, -, rfl⟩ := hl.result
  have hmid : ∀ n ∈ more ++ (ends ++ codes ++
      [.leaf { h with kind := .transfer (.br target), operands := [] }]), n.IsCode := by
    simp only [List.mem_append, List.mem_singleton]
    rintro n (hn | (hn | hn) | rfl)
    · exact hm n hn
    · exact hends.isCode n hn
    · exact hleads.isCode n hn
    · simp
  rw [show placed L R b args (pre ++ more) (ends ++ codes ++
      [.leaf { h with kind := .transfer (.br target), operands := [] }]) post cut =
        placed L R b args pre (more ++ (ends ++ codes ++
          [.leaf { h with kind := .transfer (.br target), operands := [] }])) post cut by
    cases cut <;> simp [placed]]
  exact lays_placed hk hcon hmid hl.edited

theorem Opens.lays (hl : Opens s s' L R b args pre post x T')
    (hcon : ∀ c, x.kind = .construct c → (∀ callee, c ≠ .call callee) ∧ c ≠ .stateLabel)
    (hc : s'.stats = s.stats) :
    ∃ c : Layout, T' = c.tree L R b args pre post ∧ Lays types o s s' x c := by
  obtain ⟨c, σ, casts, front, inner, next, news, hk, hne, hσ, hb, -, hcasts, hfront, hi, rfl⟩ := hl
  refine ⟨_, (Layout.tree_opened σ casts front inner next news).symm,
    .opened hk ⟨hne, hcon c hk⟩ hσ ?_ hi (by rw [hb, Bindings.aside_bindJumps]) ?_⟩
  · intro n hn
    obtain hn | hn := List.mem_append.mp hn
    · obtain ⟨m, hm, rfl⟩ := List.mem_map.mp hn
      exact (hcasts m hm).rename _
    · exact hfront n hn
  · rw [LowerState.raising, LowerState.raising, hc, hb, (Bindings.pads_bindJumps ..).1,
      (Bindings.pads_bindJumps ..).2]

theorem LoweredCall.lays {callee : Callee} {plain : Instr} {c : Construct}
    (hl : LoweredCall s s' callee plain L R b args pre post h T') (hk : h.kind = .construct c)
    (hcon : Calls c callee plain) :
    ∃ c : Layout, T' = c.tree L R b args pre post ∧ Lays types o s s' (.leaf h) c := by
  -- the op that replaces the call, and the block behind it
  obtain ⟨k, next, hcode, rfl⟩ : ∃ k next, CallCode callee plain (s.bindings.unwind? h.id) k ∧
      T' = placed L R b args pre [.leaf { h with kind := k }] post next := by
    have hr := hl.result
    cases hu : s.bindings.unwind? h.id with
    | none =>
      rw [hu] at hr
      exact ⟨_, none, .plain, hr⟩
    | some unwind =>
      rw [hu] at hr
      obtain ⟨normal, rfl⟩ := hr
      exact ⟨_, some normal, .invoke normal unwind, rfl⟩
  refine ⟨{ mid := [.leaf { h with kind := k }], next := next.map (·, []) }, ?_,
    .called hk hcon hcode hl.bindings hl.stats⟩
  rw [Layout.tree_placed, List.append_nil]

/-- What a round lays out. -/
theorem Lowered.lays (hl : Lowered types o s s' L R b args pre post x T')
    (hx : ∀ m : OpTree, m.Within x → m.Fits) :
    ∃ c : Layout, T' = c.tree L R b args pre post ∧ Lays types o s s' x c := by
  have hopens := hl.opens hx
  cases hl with
  | entry hk hl =>
    obtain ⟨blk, mid, B, hcode, hb, rfl⟩ := hl.result
    refine ⟨_, (Layout.tree_placed mid none [B]).symm, .placed ?_ ?_ hcode.isCode.1 hcode.isCode.2
      (by rw [hb]; rfl) ?_⟩
    · simp [hk]
    · simp [hk]
    · rw [LowerState.raising, LowerState.raising, hl.stats, hb]
      rfl
  | exit hk ht he =>
    exact lays_placed hk (by simp) (by simp) he
  | ret hk hl => exact lays_left [] hk (by simp) (by simp) (by simpa using hl)
  | retVal hk ho hl => exact lays_left _ hk (by simp) (by simp) hl
  | yieldVal hk hl =>
    obtain ⟨id, value, slot, target, cut, -, -, -, rfl⟩ := hl.result
    exact lays_placed hk (by simp) (by simp) hl.edited
  | jump hk hd hl =>
    obtain hk | hk := hk <;> exact lays_left [] hk (by simp) (by simp) (by simpa using hl)
  | branch hk hl =>
    exact (hopens (by simp) (by simp [hk])).lays (by simp [hk]) hl.edited.stats
  | whileLoop hk hl =>
    exact (hopens (by simp) (by simp [hk])).lays (by simp [hk]) hl.stats
  | doWhile hk hl =>
    exact (hopens (by simp) (by simp [hk])).lays (by simp [hk]) hl.stats
  | forLoop hk hl =>
    exact (hopens (by simp) (by simp [hk])).lays (by simp [hk]) hl.stats
  | switch hk hl =>
    exact (hopens (by simp) (by simp [hk])).lays (by simp [hk]) hl.stats
  | labeled hk hl =>
    exact (hopens (by simp) (by simp [hk])).lays (by simp [hk]) hl.stats
  | tryCatch hk hl => exact ⟨_, (Layout.tree_tried _).symm, .tried hk hl⟩
  | catchMark hk hp ho he =>
    exact lays_placed hk (by simp) (by simp) he
  | throw hk hc he =>
    exact ⟨_, (List.append_nil _).symm.trans (Layout.tree_placed _ _ []).symm, .thrown hk he⟩
  | call hk hl => exact hl.lays hk (.direct _)
  | callIndirect hk hl => exact hl.lays hk .indirect
  | stateLabel hk hl =>
    obtain ⟨resume, hb, rfl⟩ := hl.result
    refine ⟨_, (List.append_nil _).symm.trans (Layout.tree_placed _ (some resume) []).symm,
      .resumed hk hb ?_⟩
    rw [LowerState.raising, LowerState.raising, hl.stats, hb]
    rfl
  | capture hk hl =>
    obtain ⟨inHeap, stores, hstores, rfl⟩ := hl.result
    refine lays_placed hk (by simp) ?_ hl.edited
    simp only [List.mem_cons]
    rintro n (rfl | hn)
    · simp
    · exact (hstores n hn).isCode

end

end Unnest
