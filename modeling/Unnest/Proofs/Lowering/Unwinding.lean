import Unnest.Proofs.Lowering.Branching
import Unnest.Proofs.Lowering.Routing
import Unnest.Proofs.Tree.Clone
/-!
# Lowering a try

A try is laid out behind its block: the body, the landing pad, the catches, the finally, the pad of
the clone and the clone. `TryCode` names the parts, and `LoweredTry` says what each of them is and
what has been settled for the ops in them.
-/

namespace Unnest

/-- The clone of a finally with its pad, if the finally holds ops. The last list has the ops that
were copied, each with its copy. -/
inductive CleanupCode (f f' : Func) (exit : Lower.CleanupExit) (Bf : BlockTree) :
    Option BlockId → List BlockTree → List (OpId × OpId) → Prop
  | absent (h : Bf.holdsOps = false) : CleanupCode f f' exit Bf none [] []
  | present {m : CloneMap} {ρ : Renaming} {pad : BlockId} {i j k : OpId}
      {exception payload : ValueId} (h : Bf.holdsOps = true) (hc : Clone f f' m [Bf] ρ)
      (he : f.values.size ≤ exception.index) (hp : f.values.size ≤ payload.index) :
      CleanupCode f f' exit Bf (some pad)
        [cleanupPad exit pad (ρ.block Bf.id) i j k exception payload,
          (Bf.rename ρ).passOn exit exception] m.ops.entries

/-- The pad of the catches, if they hold ops; without them the pad of the clone is the landing pad.
The value is what is handed to the catch clauses. -/
inductive CatchCode (f f' : Func) (Bc : BlockTree) (type : Option (Ty × TypeToken))
    (cleanup outer : Option BlockId) :
    Option BlockId → Option ValueId → List BlockTree → Prop
  | absent (h : Bc.holdsOps = false) : CatchCode f f' Bc type cleanup outer cleanup none []
  | present {pad : BlockId} {payload : ValueId} {pads : List BlockTree} (h : Bc.holdsOps = true)
      (hl : LandingPad f.values.size f' Bc.id cleanup outer pad payload type pads)
      (hp : f.values.size ≤ payload.index) :
      CatchCode f f' Bc type cleanup outer (some pad) (some payload) pads

/-- The completion slot of a try, if anything leaves it through its finally. The ops are those that
come to the start of the function. -/
inductive RouteCode (n : Nat) (op : OpId) (Bf : BlockTree) (escapes : List OpId) (B : Bindings) :
    Option ValueId → Bindings → List OpTree → Prop
  | absent (h : Bf.holdsOps = false ∨ escapes = []) : RouteCode n op Bf escapes B none B []
  | present {slot : ValueId} {i : OpId} (h : Bf.holdsOps = true) (hne : escapes ≠ [])
      (hs : n ≤ slot.index) :
      RouteCode n op Bf escapes B (some slot)
        ((escapes.foldl (Lower.assignCode op) (B, [])).1.setRoute op
          ⟨slot, Bf.id, (escapes.foldl (Lower.assignCode op) (B, [])).2⟩)
        [.leaf ⟨i, .instr (.alloc false), [], [slot], none⟩]

/-- The finally at its place, if it holds ops, and the blocks that were made for its end. -/
inductive FinalCode (n : Nat) (f : Func) (B : Bindings) (next : BlockId)
    (cases : List (Int64 × Destination)) (Bf : BlockTree) :
    Option ValueId → List BlockTree → List BlockTree → Prop
  | absent (h : Bf.holdsOps = false) : FinalCode n f B next cases Bf none [] []
  | present {slot : Option ValueId} {F : BlockTree} {made : List BlockTree} (h : Bf.holdsOps = true)
      (hF : FinalEnd n f B next cases slot Bf F made) :
      FinalCode n f B next cases Bf slot [F] made

/-- The parts of a try that has been lowered. -/
structure TryCode where
  next : BlockId
  branch : OpId
  landing : Option BlockId
  cleanup : Option BlockId
  payload : Option ValueId
  slot : Option ValueId
  body : BlockTree
  pads : List BlockTree
  catches : List BlockTree
  finals : List BlockTree
  clone : List BlockTree
  made : List BlockTree
  slotOps : List OpTree
  copies : List (OpId × OpId)

/-- The body of the function after a try has been laid out. -/
def TryCode.tree (c : TryCode) (L R : List BlockTree) (b : BlockId) (args : List ValueId)
    (pre post : List OpTree) : List BlockTree :=
  atStart c.slotOps (L ++ ⟨b, args, pre ++ [.leaf ⟨c.branch, .transfer (.br c.body.id), [], [],
    none⟩]⟩ :: (c.body :: (c.pads ++ c.catches ++ c.finals ++ c.clone ++ c.made) ++
      ⟨c.next, [], post⟩ :: R))

/-- What is noted about the tries and jumps in a try before it is laid out. -/
def Bindings.surround (op : OpId) (Bb Bc Bf : BlockTree) (B : Bindings) : Bindings :=
  ((B.enclose op .body [Bb]).enclose op .catches [Bc]).enclose op .final [Bf]

/-- What has been settled for the ops in a try when it has been laid out. -/
def Bindings.layOut (op : OpId) (Bb Bc Bf : BlockTree) (c : TryCode) (B : Bindings) : Bindings :=
  let B := B.surround op Bb Bc Bf
  let B := ((escapesOf B [Bc]).map (·.id)).foldl Bindings.enterCatch B
  let B := B.copyAll c.copies
  let B := c.payload.elim B fun payload =>
    (marksOf [Bc]).foldl (fun b m => b.setPayload m.id payload) B
  let B := c.landing.elim B fun pad => B.unwindAll (walkBlocks (fun _ => true) [Bb]) pad
  let B := c.cleanup.elim B fun pad => B.unwindAll (walkBlocks (fun _ => true) [Bc]) pad
  B.setPads op ⟨c.landing, c.cleanup⟩

/-- The ops that leave a try. -/
def tryEscapes (op : OpId) (Bb Bc Bf : BlockTree) (B : Bindings) : List OpId :=
  (escapesOf (B.surround op Bb Bc Bf) [Bb] ++ escapesOf (B.surround op Bb Bc Bf) [Bc]).map (·.id)

/-- Where the body and the catches of a try go when they complete. -/
def TryCode.exit (c : TryCode) (Bf : BlockTree) : BlockId :=
  bif Bf.holdsOps then Bf.id else c.next

/-- Lowering the try `op` of `f` clones its finally, and `entry` is the first block of the clone:
the finally holds ops, and its blocks are cloned when the block of the try has been split. -/
def Lower.ClonesFinal (f : Func) (op : OpId) (entry : BlockId) : Prop :=
  ∃ d body catches final next f₁ rest m f₂, f.op? op = some d ∧ d.kind = .construct .tryCatch ∧
    d.regions = [body, catches, final] ∧ hasOps final f = .ok true f ∧
    Edit.splitAfter op f = .ok next f₁ ∧ Edit.cloneRegion final f₁ = .ok (entry :: rest, m) f₂

/-- What the lowering of a try leaves. -/
structure LoweredTry (types : TypeTable) (strategy : UnwindStrategy) (s s' : LowerState) (h : Head)
    (Bb Bc Bf : BlockTree) (c : TryCode) : Prop where
  clone : CleanupCode s.func s'.func
    (.of strategy ((s.bindings.surround h.id Bb Bc Bf).outerPad h.id)) Bf c.cleanup c.clone c.copies
  pads : CatchCode s.func s'.func Bc (caughtBy types (marksOf [Bc])) c.cleanup
    ((s.bindings.surround h.id Bb Bc Bf).outerPad h.id) c.landing c.payload c.pads
  route : RouteCode s.func.values.size h.id Bf (tryEscapes h.id Bb Bc Bf s.bindings)
    (s.bindings.layOut h.id Bb Bc Bf c) c.slot s'.bindings c.slotOps
  body : Ended OpKind.isYield
    (Completes s.func.values.size 0 c.slot (c.exit Bf) s'.func) Bb c.body
  catches : List.Forall₂ (Ended OpKind.isYield
    (Completes s.func.values.size 1 c.slot (c.exit Bf) s'.func))
      (bif Bc.holdsOps then [Bc] else []) c.catches
  finals : FinalCode s.func.values.size s'.func s'.bindings c.next
    ((tryEscapes h.id Bb Bc Bf s.bindings).foldl (Lower.assignCode h.id)
      (s.bindings.layOut h.id Bb Bc Bf c, [])).2 Bf c.slot c.finals c.made
  stats : s'.stats = { s.stats with
    cleanupClones := s.stats.cleanupClones + Bf.holdsOps.toNat
    landingPads := s.stats.landingPads + Bc.holdsOps.toNat + Bf.holdsOps.toNat }
  /-- Behind the pad of the clone stands what was cloned. -/
  cloned : h.kind = .construct .tryCatch →
    ∀ entry, Lower.ClonesFinal s.func h.id entry ↔ ∃ C ∈ c.clone.tail, C.id = entry
  grows : s.func.GrowsTo s'.func

section

variable {stop : Prop} {f : Func} {s : LowerState} {L R : List BlockTree} {b : BlockId}
  {args : List ValueId} {pre post : List OpTree} {h : Head} {e : Entries}

variable {f₀ f' : Func}

variable {m : CloneMap} {Bs : List BlockTree} {ρ : Renaming}

theorem Clone.mono {f'' : Func} (hc : Clone f f' m Bs ρ) (g₀ : f₀.GrowsTo f) (g : f'.GrowsTo f'') :
    Clone f₀ f'' m Bs ρ := by
  obtain ⟨rs, hρ, hn⟩ := hc.notes
  have hn := hn.mono g
  exact ⟨⟨rs, hρ, hn.ops, hn.blocks, hn.regions, hn.values,
    fun p hp => g₀.ops_le.trans (hn.freshOps p hp),
    fun p hp => g₀.size_le.trans (hn.freshValues p hp),
    fun p hp => (hn.types p hp).mono g₀ (.refl f''), g₀.trans hn.grows⟩, hc.old, hc.new,
    fun p hp => (hc.below p hp).trans_le g.ops_le⟩

theorem Clone.growsTo (hc : Clone f f' m Bs ρ) : f.GrowsTo f' := by
  obtain ⟨rs, -, hn⟩ := hc.notes
  exact hn.grows

theorem assignCode_cases_ne (op id : OpId) (p : Bindings × List (Int64 × Destination)) :
    (Lower.assignCode op p id).2 ≠ [] := by
  unfold Lower.assignCode
  obtain ⟨B, cases⟩ := p
  simp only
  split
  · rename_i hfind
    exact List.ne_nil_of_mem (List.mem_of_find?_eq_some hfind)
  · simp

/-- There is a code if anything escapes. -/
theorem foldl_assignCode_ne (op : OpId) {ids : List OpId} (B : Bindings) (h : ids ≠ []) :
    (ids.foldl (Lower.assignCode op) (B, [])).2 ≠ [] := by
  obtain ⟨ids, id, rfl⟩ := List.eq_nil_or_concat ids |>.resolve_left h
  rw [List.concat_eq_append, List.foldl_concat]
  exact assignCode_cases_ne op id _

variable {n : Nat} {B : Bindings} {Bf : BlockTree} {slot : Option ValueId}

variable {next : BlockId} {cases : List (Int64 × Destination)}

theorem FinalCode.mono {Fs made : List BlockTree} (h : FinalCode n f B next cases Bf slot Fs made)
    (g : f.GrowsTo f') : FinalCode n f' B next cases Bf slot Fs made := by
  cases h with
  | absent h => exact .absent h
  | present h hF => exact .present h (hF.mono g (le_refl n))

/-- Ops at the start of the function do not reach behind the start of a block. -/
theorem atStart_append (ops : List OpTree) (L : List BlockTree) (b : BlockId) (args : List ValueId)
    (pre : List OpTree) : ∃ L₁ pre₁, ∀ xs T, atStart ops (L ++ ⟨b, args, pre ++ xs⟩ :: T) =
      L₁ ++ ⟨b, args, pre₁ ++ xs⟩ :: T := by
  cases L with
  | nil => exact ⟨[], ops ++ pre, fun xs T => by simp [atStart]⟩
  | cons B L => exact ⟨⟨B.id, B.args, ops ++ B.ops⟩ :: L, pre, fun xs T => rfl⟩

theorem atStart_nil (T : List BlockTree) : atStart [] T = T := by
  cases T <;> rfl

/-- The finally of a try at its place. -/
def keptFinal (Bf : BlockTree) : List BlockTree := bif Bf.holdsOps then [Bf] else []

/-- The jumps and returns that leave a try are bound to its finally. -/
theorem Func.Holds.routeEscapes {T : List BlockTree} (op : OpId) (Bf : BlockTree)
    (escapes : List OpId) (hf : s.func.Holds T 0) (hT : T ≠ []) :
    Meets stop (Lower.routeEscapes op ((keptFinal Bf).map (·.id)) escapes) s fun slot s' =>
      ∃ slotOps, RouteCode s.func.values.size op Bf escapes s.bindings slot s'.bindings slotOps ∧
        s'.func.Holds (atStart slotOps T) 0 ∧ s'.stats = s.stats ∧ s.func.GrowsTo s'.func := by
  unfold keptFinal
  cases hB : Bf.holdsOps with
  | false => exact .pure ⟨[], .absent (.inl hB), by rwa [atStart_nil], rfl, .refl _⟩
  | true =>
    cases escapes with
    | nil => exact .pure ⟨[], .absent (.inr rfl), by rwa [atStart_nil], rfl, .refl _⟩
    | cons x xs =>
      obtain ⟨B, T, rfl⟩ := List.exists_cons_of_ne_nil hT
      refine .map (hf.routeThrough.mono ?_)
      rintro slot s' ⟨i, hf', hb, hs, hst, g⟩
      refine ⟨_, ?_, hf', hst, g⟩
      rw [hb]
      exact .present hB (by simp) hs

theorem foldl_assignCode_kept (op : OpId) (ids : List OpId)
    (p : Bindings × List (Int64 × Destination)) :
    (ids.foldl (Lower.assignCode op) p).1.routes = p.1.routes ∧
      (ids.foldl (Lower.assignCode op) p).1.returnTo = p.1.returnTo := by
  induction ids generalizing p with
  | nil => exact ⟨rfl, rfl⟩
  | cons id ids ih =>
    rw [List.foldl_cons, (ih _).1, (ih _).2]
    unfold Lower.assignCode
    simp only
    split <;> exact ⟨rfl, rfl⟩

variable {op : OpId} {escapes : List OpId} {B' : Bindings} {ops : List OpTree}

/-- A try that gets a completion slot hides no destination. -/
theorem RouteCode.reaches {d : Destination} (hr : RouteCode n op Bf escapes B slot B' ops)
    (hd : B.Reaches d) : B'.Reaches d := by
  cases hr with
  | absent => exact hd
  | present =>
    obtain ⟨hroutes, hret⟩ := foldl_assignCode_kept op escapes (B, [])
    cases d with
    | block => trivial
    | ret => simpa [Bindings.Reaches, Bindings.setRoute, hret] using hd
    | final t code =>
      simp only [Bindings.Reaches, Bindings.setRoute, hroutes, Table.get?_insert] at hd ⊢
      split <;> simp_all

/-- The completion slot of a try has a route with the codes that were given out. -/
theorem RouteCode.route (hr : RouteCode n op Bf escapes B slot B' ops) :
    slot = none ∨ (escapes.foldl (Lower.assignCode op) (B, [])).2 ≠ [] ∧
      ∃ route, B'.routes.get? op = some route ∧
        route.cases = (escapes.foldl (Lower.assignCode op) (B, [])).2 := by
  cases hr with
  | absent => exact .inl rfl
  | present h hne hs =>
    exact .inr ⟨foldl_assignCode_ne op B hne, _, Table.get?_insert_self .., rfl⟩

/-- The end of the lowering of a try, when its parts have been laid out. -/
theorem Func.Holds.finishTry {Bb : BlockTree} {P Cs K : List BlockTree} {rs : List RegionTree}
    (hn : n ≤ s.func.values.size)
    (hf : s.func.Holds (L ++ ⟨b, args, pre ++ [.mk h rs]⟩ ::
      (Bb :: (P ++ Cs ++ keptFinal Bf ++ K) ++
      ⟨next, [], post⟩ :: R)) 0) (hrs : ∀ r ∈ rs, r.blocks = [])
    (hr : slot = none ∨ cases ≠ [] ∧ ∃ route, s.bindings.routes.get? h.id = some route ∧
      route.cases = cases) (hF : Bf.holdsOps = false → slot = none)
    (hd : ¬(∀ c ∈ cases, s.bindings.Reaches c.2) → stop) :
    Meets stop (Lower.finishTry h.id Bb.id [Bb.id] (Cs.map (·.id)) ((keptFinal Bf).map (·.id)) next
      slot) s fun _ s' => ∃ branch Bb' Cs' Fs' made,
        Ended OpKind.isYield (Completes n 0 slot (bif Bf.holdsOps then Bf.id else next) s'.func)
          Bb Bb' ∧
        List.Forall₂ (Ended OpKind.isYield
          (Completes n 1 slot (bif Bf.holdsOps then Bf.id else next) s'.func)) Cs Cs' ∧
        FinalCode n s'.func s.bindings next cases Bf slot Fs' made ∧
        s'.func.Holds (L ++ ⟨b, args, pre ++ [.leaf ⟨branch, .transfer (.br Bb.id), [], [],
          none⟩]⟩ :: (Bb' :: (P ++ Cs' ++ Fs' ++ K ++ made) ++ ⟨next, [], post⟩ :: R)) 0 ∧
        s.Edited s' := by
  have hexit : ((keptFinal Bf).map (·.id)).head?.getD next =
    bif Bf.holdsOps then Bf.id else next := by
    unfold keptFinal
    cases Bf.holdsOps <;> rfl
  unfold Lower.finishTry
  simp only [hexit]
  generalize (bif Bf.holdsOps then Bf.id else next) = exit
  -- the loops as edits
  have hbody : ∀ term, (do
      Lower.completeNormally slot term
      Lower.makeBranch term exit [] : Lower Unit) = liftM (do
        Lower.endCatches term 0
        Lower.completeNormally slot term
        Lower.makeBranch term exit []) := fun term => by
    rw [Meets.lift_bind, Meets.lift_bind]
    rfl
  have hcatches : ∀ term, (do
      let _ ← Edit.emitBefore term (.instr .endCatch) [] []
      Lower.completeNormally slot term
      Lower.makeBranch term exit [] : Lower Unit) = liftM (do
        Lower.endCatches term 1
        Lower.completeNormally slot term
        Lower.makeBranch term exit []) := fun term => by
    simp only [Meets.lift_bind, Lower.endCatches, bind_assoc]
    rfl
  rw [funext hbody, funext hcatches]
  have hf₀ : s.func.Holds ((L ++ [⟨b, args, pre ++ [.mk h rs]⟩]) ++ [Bb] ++
      (P ++ Cs ++ keptFinal Bf ++ K ++ ⟨next, [], post⟩ :: R)) 0 := by simpa using hf
  have hterms : Lower.terminatorsWhere [Bb.id] OpKind.isYield s.func = .ok _ s.func :=
    hf₀.arena.middle.terminatorsWhere
  refine .editStep hterms ?_
  refine .editForM (hf₀.arena.completeAll 0 slot exit hn) ?_
  rintro _ f₁ ⟨Bs, hBs, h₁, g₁⟩
  obtain ⟨Bb', rfl, hBb⟩ : ∃ Bb', Bs = [Bb'] ∧ Ended OpKind.isYield
      (Completes n 0 slot exit f₁) Bb Bb' := by
    cases hBs with
    | cons hB hnil => cases hnil; exact ⟨_, rfl, hB⟩
  have hf₁ : f₁.Holds ((L ++ [⟨b, args, pre ++ [.mk h rs]⟩, Bb'] ++ P) ++ Cs ++
      (keptFinal Bf ++ K ++ ⟨next, [], post⟩ :: R)) 0 :=
    .of_arena (by simpa using h₁) g₁.body (by simp [hBb.1])
  refine .editStep hf₁.arena.middle.terminatorsWhere ?_
  refine .editForM (hf₁.arena.completeAll 1 slot exit (hn.trans g₁.size_le)) ?_
  rintro _ f₂ ⟨Cs', hCs, h₂, g₂⟩
  have hf₂ : f₂.Holds ((L ++ [⟨b, args, pre ++ [.mk h rs]⟩, Bb'] ++ P ++ Cs') ++ keptFinal Bf ++
      (K ++ ⟨next, [], post⟩ :: R)) 0 :=
    .of_arena (by simpa using h₂) g₂.body (by simp [ids_eq_of_ended hCs])
  refine .editStep hf₂.arena.middle.terminatorsWhere ?_
  have g := g₁.trans g₂
  have hfinal : Meets stop (((keptFinal Bf).filterMap (BlockOf.endWhere OpKind.isYield)).map
      (·.id) |>.forM (Lower.finishFinal h.id slot next)) { s with func := f₂ } fun _ s' =>
        ∃ Fs' made, FinalCode n s'.func s.bindings next cases Bf slot Fs' made ∧
          s'.func.Holds ((L ++ [⟨b, args, pre ++ [.mk h rs]⟩, Bb'] ++ P ++ Cs') ++ Fs' ++
            (K ++ made ++ ⟨next, [], post⟩ :: R)) 0 ∧
              LowerState.Edited { s with func := f₂ } s' := by
    unfold keptFinal at hf₂ ⊢
    cases hB : Bf.holdsOps with
    | false =>
      rw [hF hB]
      exact .pure ⟨[], [], .absent hB, by simpa [hB] using hf₂, .refl _⟩
    | true =>
      rw [hB] at hf₂
      have hf₂ : f₂.Holds ((L ++ [⟨b, args, pre ++ [.mk h rs]⟩, Bb'] ++ P ++ Cs') ++
          Bf :: (K ++ ⟨next, [], post⟩ :: R)) 0 := by simpa using hf₂
      have hfin : Meets stop _ { s with func := f₂ } _ := Func.Holds.finishFinal hr hf₂ hd
      refine hfin.mono ?_
      rintro _ s' ⟨F, made, hF, hf₃, hed⟩
      exact ⟨[F], made,
        .present hB (hF.mono (.refl _) (hn.trans g.size_le)), by simpa using hf₃, hed⟩
  refine .bind hfinal ?_
  rintro _ s₃ ⟨Fs', made, hFs, hf₃, hed₃⟩
  have hf₃ : s₃.func.Holds (L ++ ⟨b, args, pre ++ [.mk h rs]⟩ :: (Bb' :: (P ++ Cs' ++ Fs' ++ K ++
      made) ++ ⟨next, [], post⟩ :: R)) 0 := by simpa using hf₃
  refine (hf₃.replaceNode hrs).mono ?_
  rintro _ s₄ ⟨branch, hf₄, hed₄⟩
  refine ⟨branch, Bb', Cs', Fs', made,
    ?_, ?_, ?_, hf₄, ⟨hed₄.bindings.trans hed₃.bindings, hed₄.stats.trans hed₃.stats,
      (g.trans hed₃.grows).trans hed₄.grows⟩⟩
  · exact hBb.imp fun _ h => h.mono ((g₂.trans hed₃.grows).trans hed₄.grows)
  · exact hCs.imp fun _ _ h => h.imp fun _ h => h.mono (hed₃.grows.trans hed₄.grows)
  · exact hFs.mono hed₄.grows

/-! ## The parts of a try -/

/-- The clone of a finally that holds ops, with the ops that were copied. -/
inductive KeptClone (f f' : Func) (Bf : BlockTree) : List BlockTree → List (OpId × OpId) → Prop
  | absent (h : Bf.holdsOps = false) : KeptClone f f' Bf [] []
  | present {m : CloneMap} {ρ : Renaming} (h : Bf.holdsOps = true) (hc : Clone f f' m [Bf] ρ) :
      KeptClone f f' Bf [Bf.rename ρ] m.ops.entries

/-- One region of a construct among the entries of the body. -/
theorem exists_region (q : RegionId) (L R : List BlockTree) (b : BlockId) (args : List ValueId)
    (pre post : List OpTree) (h : Head) (a c : List RegionTree) (r : RegionTree) :
    ∃ E : Entries, ∀ e, .region q ⟨(L ++ ⟨b, args, pre ++ .mk h (a ++ r :: c) :: post⟩ :: R).map
      (·.id), none⟩ + (layout (some q) (L ++ ⟨b, args, pre ++ .mk h (a ++ r :: c) :: post⟩ :: R) +
        e) = r.entries (some h.id) + (E + e) := by
  refine ⟨.op h.id ((OpTree.mk h (a ++ r :: c)).toOp b) + (.block b (BlockOf.toBlock
    ⟨b, args, pre ++ .mk h (a ++ r :: c) :: post⟩ (some q)) + ((a.map (RegionOf.entries
      (some h.id))).sum + (c.map (RegionOf.entries (some h.id))).sum + (nodes b pre + nodes b post +
        (layout (some q) L + (layout (some q) R + .region q ⟨(L ++ ⟨b, args, pre ++
          .mk h (a ++ r :: c) :: post⟩ :: R).map (·.id), none⟩))))), fun e => ?_⟩
  simp only [layout_append, layout_cons, BlockOf.entries_eq, nodes_append, nodes_cons,
    OpTree.entries_eq, OpTree.inner, OpTree.regions_mk, OpTree.id_mk, List.map_append,
    List.map_cons, List.sum_append, List.sum_cons]
  abel

theorem Func.Holds.cloneKept {q : RegionId} {a c : List RegionTree}
    (hf : s.func.Holds (L ++ ⟨b, args, pre ++ .mk h (a ++ ⟨q, [Bf]⟩ :: c) :: post⟩ :: R) e) :
    Meets stop (Lower.cloneKept Bf.holdsOps q) s fun ids s' => ∃ Cl copies,
      KeptClone s.func s'.func Bf Cl copies ∧ ids = Cl.map (·.id) ∧
        (Bf.holdsOps = true → ∃ m f', Edit.cloneRegion q s.func = .ok (Cl.map (·.id), m) f') ∧
        s'.func.Holds (L ++ ⟨b, args, pre ++ .mk h (a ++ ⟨q, [Bf]⟩ :: c) :: post⟩ :: R)
          (layout none Cl + e) ∧ s'.bindings = s.bindings.copyAll copies ∧
            s'.stats = { s.stats with
              cleanupClones := s.stats.cleanupClones + Bf.holdsOps.toNat } ∧
              s.func.GrowsTo s'.func := by
  cases hB : Bf.holdsOps with
  | false => exact .pure ⟨[], [], .absent hB, rfl, by simp, hf.as (by simp), rfl, rfl, .refl _⟩
  | true =>
    obtain ⟨E, hE⟩ := exists_region s.func.body L R b args pre post h a c ⟨q, [Bf]⟩
    refine .editBind (Arena.as hf (hE e)).cloneRegion.withRun ?_
    rintro ⟨_, m⟩ f₁ ⟨⟨ρ, hc, rfl, h₁⟩, hrun⟩
    refine .step rfl (.step rfl (.pure
      ⟨_, _, .present hB hc, rfl, fun _ => ⟨m, f₁, hrun⟩, ?_, rfl, rfl, hc.growsTo⟩))
    refine Arena.as h₁ ?_
    rw [hc.growsTo.body, hE, add_left_comm E]
    rfl

/-- The pad in front of the clone. -/
theorem Func.Holds.padClone {body Cl : List BlockTree} {copies : List (OpId × OpId)}
    (exit : Lower.CleanupExit) (hc : KeptClone f₀ f Bf Cl copies) (hg : f₀.GrowsTo f)
    (hf : f.Holds body (layout none Cl + e)) :
    Meets stop (Lower.padClone (Cl.map (·.id)) exit) f fun cleanup f' => ∃ K,
      CleanupCode f₀ f' exit Bf cleanup K copies ∧
        (∀ pad ∈ cleanup, K.map (·.id) = pad :: Cl.map (·.id)) ∧
          (cleanup = none → K = []) ∧ cleanup.isSome = Bf.holdsOps ∧
            f'.Holds body (layout none K + e) ∧ f.GrowsTo f' := by
  cases hc with
  | absent h =>
    exact .pure ⟨[], .absent h, by simp, fun _ => rfl, by simp [h], hf, .refl f⟩
  | present h hc =>
    refine .map ((hf.buildCleanupPad _ exit).mono ?_)
    rintro pad f' ⟨i, j, k, exception, payload, hx, hp, hf', g⟩
    refine ⟨_, .present (i := i) (j := j) (k := k) h (hc.mono (.refl _) g)
        (hg.size_le.trans hx) (hg.size_le.trans hp), ?_, by simp, by simp [h], hf', g⟩
    simp [cleanupPad, BlockOf.passOn]

/-- The pad in front of the catches. -/
theorem Func.Holds.padCatches {N Bc : BlockTree} {type : Option (Ty × TypeToken)}
    {marks : List OpTree} {cleanup outer : Option BlockId} (hg : f₀.GrowsTo s.func)
    (hf : s.func.Holds (L ++ N :: R) e) :
    Meets stop (Lower.padCatches N.id ((bif Bc.holdsOps then [Bc] else []).map (·.id)) type
      (marks.map (·.id)) cleanup outer) s fun landing s' => ∃ payload pads,
        CatchCode f₀ s'.func Bc type cleanup outer landing payload pads ∧
          s'.func.Holds (L ++ pads ++ N :: R) e ∧
            s'.bindings = (payload.elim s.bindings fun payload =>
              marks.foldl (fun b m => b.setPayload m.id payload) s.bindings) ∧
                s'.stats = s.stats ∧ s.func.GrowsTo s'.func := by
  cases hB : Bc.holdsOps with
  | false => exact .pure ⟨none, [], .absent hB, by simpa using hf, rfl, rfl, .refl _⟩
  | true =>
    refine .editBind (hf.buildLandingPad Bc.id type cleanup outer) ?_
    rintro ⟨pad, _, payload⟩ f₁ ⟨pads, hl, rfl, hp, hf₁, g₁⟩
    refine .step rfl (.editBind hf₁.spliceBefore ?_)
    rintro _ f₂ ⟨hf₂, g₂⟩
    refine .pure ⟨some payload, pads,
      .present hB ?_ (hg.size_le.trans hp), hf₂, ?_, rfl, g₁.trans g₂.growsTo⟩
    · exact hl.mono hg.size_le
    · simp [List.foldl_map]

end

end Unnest
