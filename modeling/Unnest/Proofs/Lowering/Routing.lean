import Unnest.Proofs.Lowering.Leaving
import Unnest.Proofs.Lowering.Pads
/-!
# Through the finally

The steps by which a try sends what leaves it through its finally: jumps and returns store a code
in the completion slot, the ordinary ends of the body and the catches store zero, and the end of
the finally goes on by the code. A destination behind another finally gets a block of its own, which
stores the code of that one.
-/

namespace Unnest

/-! ## What is settled for the ops of a try -/

/-- The tries that lie outermost in some blocks are noted as lying there. -/
def Bindings.enclose (op : OpId) (placement : Placement) (Bs : List BlockTree) (B : Bindings) :
    Bindings :=
  (outermostIn (· == .construct .tryCatch) Bs).foldl
    (fun b n => b.setParent n.id op placement) B

/-- The ops that may throw unwind to a pad. -/
def Bindings.unwindAll (ops : List OpTree) (pad : BlockId) (B : Bindings) : Bindings :=
  (ops.filter fun n => n.kind.mayThrow).foldl (fun b n => b.setUnwind n.id pad) B

/-- Whether an op leaves the try around it: a return, or a jump that is already bound. -/
def OpTree.escapes (B : Bindings) (n : OpTree) : Bool :=
  match n.kind with
  | .construct .ret | .construct .retVal => true
  | .construct (.brk _) | .construct (.cont _) => (B.jump? n.id).isSome
  | _ => false

/-- The ops of some blocks that leave the try around them. -/
def escapesOf (B : Bindings) (Bs : List BlockTree) : List OpTree :=
  (walkBlocks (fun _ => true) Bs).filter (OpTree.escapes B)

/-- The catch clauses of some blocks. -/
def marksOf (Bs : List BlockTree) : List OpTree := outermostIn Lower.isCatchMark Bs

/-- The type that the first of the catch clauses declares, with its token. -/
def caughtBy (types : TypeTable) (marks : List OpTree) : Option (Ty × TypeToken) := do
  let ty ← Lower.caughtType (← marks.head?).kind
  return (ty, ← types.token? ty)

section

variable {stop : Prop} {f : Func} {s : LowerState} {e : Entries} {L R M : List BlockTree}
  {b : BlockId} {args : List ValueId} {pre post : List OpTree} {h : Head}

theorem Arena.encloseTries {o : Option OpId} {r : RegionTree} (op : OpId) (placement : Placement)
    (ha : Arena s.func (r.entries o + e)) :
    Lower.encloseTries op r.id placement s =
      .ok () { s with bindings := s.bindings.enclose op placement r.blocks } := by
  have hin : (liftM (s.func.outermost r.id (· == .construct .tryCatch)) : Lower (List OpId)) s =
      .ok ((outermostIn (· == .construct .tryCatch) r.blocks).map (·.id)) s := by
    rw [ha.outermost]
    rfl
  change EStateM.bind (liftM (s.func.outermost r.id (· == .construct .tryCatch))) _ s = _
  rw [EStateM.bind, hin]
  change EStateM.Result.ok () { s with bindings := _ } = _
  simp only [Bindings.enclose, List.foldl_map]

variable {Bs : List BlockTree}

theorem Arena.filter_isEscape {q : Option RegionId} (ha : Arena f (layout q Bs)) (B : Bindings) :
    ((walkBlocks (fun _ => true) Bs).map (·.id)).filter (Lower.isEscape f B) =
      (escapesOf B Bs).map (·.id) := by
  rw [List.filter_map]
  refine congrArg _ (List.filter_congr fun n hn => ?_)
  rw [Function.comp_apply, Lower.isEscape, ha.kind_of_inBlocks (inBlocks_of_mem_walkBlocks hn)]
  rcases hk : n.kind with c | i | t
  · cases c <;> simp [OpTree.escapes, hk]
  · simp [OpTree.escapes, hk]
  · simp [OpTree.escapes, hk]

theorem Arena.catchType {q : Option RegionId} (types : TypeTable) (op : OpId)
    (ha : Arena f (layout q Bs))
    (hs : ∀ m ∈ (marksOf Bs).head?, ∀ ty ∈ Lower.caughtType m.kind, types.token? ty = none → stop) :
    Meets stop (Lower.catchType types op ((marksOf Bs).map (·.id))) f fun type f' =>
      type = caughtBy types (marksOf Bs) ∧ f' = f := by
  have hin : ∀ m ∈ marksOf Bs, m.InBlocks Bs := fun m hm =>
    inBlocks_of_mem_walkBlocks (List.mem_filter.mp hm).1
  cases hm : marksOf Bs with
  | nil => exact .pure ⟨rfl, rfl⟩
  | cons m ms =>
    obtain ⟨b, hb⟩ := (hin m (by simp [hm])).entries ha
    rw [OpTree.entries_eq] at hb
    refine .step hb.getKind ?_
    simp only [OpTree.toOp]
    cases hty : Lower.caughtType m.kind with
    | none => exact .pure ⟨by simp [caughtBy, hty], rfl⟩
    | some ty =>
      cases htok : types.token? ty with
      | none =>
        simp only [htok]
        exact .throw (hs m (by simp [hm]) ty (by simp [hty]) htok)
      | some token =>
        simp only [htok]
        exact .pure ⟨by simp [caughtBy, hty, htok], rfl⟩

theorem Lower.unwindTo_eq {ops : List OpTree} {pad : BlockId}
    (hk : ∀ n ∈ ops, s.func.kindIs OpKind.mayThrow n.id = n.kind.mayThrow) :
    Lower.unwindTo (ops.map (·.id)) pad s =
      .ok () { s with bindings := s.bindings.unwindAll ops pad } := by
  change EStateM.Result.ok () { s with bindings := _ } = _
  have : (ops.map (·.id)).filter (s.func.kindIs OpKind.mayThrow) =
      (ops.filter fun n => n.kind.mayThrow).map (·.id) := by
    rw [List.filter_map]
    exact congrArg _ (List.filter_congr fun n hn => hk n hn)
  simp only [this, Bindings.unwindAll, List.foldl_map]

/-! ## Taking the regions -/

/-- The blocks of a region of a construct are taken, and discarded unless they are to be kept. -/
theorem Func.Holds.takeOrDiscard {q : RegionId} {a c : List RegionTree} (keep : Bool)
    (hf : f.Holds (L ++ ⟨b, args, pre ++ .mk h (a ++ ⟨q, Bs⟩ :: c) :: post⟩ :: R) e)
    (hb : keep = false → ∀ B ∈ Bs, ∀ n ∈ B.ops, n.regions = []) :
    Meets stop (Lower.takeOrDiscard q keep) f fun ids f' =>
      ids = (bif keep then Bs else []).map (·.id) ∧
        f'.Holds (L ++ ⟨b, args, pre ++ .mk h (a ++ ⟨q, []⟩ :: c) :: post⟩ :: R)
          (layout none (bif keep then Bs else []) + (deadOps (bif keep then [] else Bs) + e)) ∧
            f.GrowsTo f' := by
  refine .bind hf.arena.takeNode ?_
  rintro ids f₁ ⟨hids, h₁, g₁⟩
  have hf₁ : f₁.Holds (L ++ ⟨b, args, pre ++ .mk h (a ++ ⟨q, []⟩ :: c) :: post⟩ :: R)
      (layout none Bs + e) :=
    .of_arena (h₁.as (by abel)) g₁.body (by simp)
  subst hids
  cases keep with
  | true =>
    refine .pure ⟨rfl, ?_, g₁.growsTo⟩
    simpa [deadOps] using hf₁
  | false =>
    refine .bind (hf₁.loose.discardBlocks (hb rfl)) ?_
    rintro _ f₂ ⟨h₂, g₂⟩
    refine .pure ⟨rfl, ?_, g₁.growsTo.trans g₂.growsTo⟩
    simp only [cond_false, layout_nil, zero_add]
    unfold Func.Holds
    rw [g₂.body]
    exact h₂.as (by abel)

/-! ## The ordinary ends -/

/-- The ops that note in the completion slot, if there is one, that no jump is under way. -/
inductive Zeroes (n : Nat) (f : Func) (span : Option Span) : Option ValueId → List OpTree → Prop
  | absent : Zeroes n f span none []
  | present {slot : ValueId} {ops : List OpTree} (h : Stores n f span 0 slot ops) :
      Zeroes n f span (some slot) ops

variable {f' : Func} {slot : Option ValueId}

theorem Zeroes.mono {n : Nat} {span : Option Span} {ops : List OpTree}
    (h : Zeroes n f span slot ops) (g : f.GrowsTo f') : Zeroes n f' span slot ops := by
  cases h with
  | absent => exact .absent
  | present h => exact .present (h.mono g (le_refl n))

/-- The end of the body of a try, or of its catches, goes to the block `exit`. -/
def Completes (n caught : Nat) (slot : Option ValueId) (exit : BlockId) (f : Func)
    (B B' : BlockTree) : Prop :=
  ∃ b args ops t ends codes, B = ⟨b, args, ops ++ [t]⟩ ∧ EndsCatches t.head.span caught ends ∧
    Zeroes n f t.head.span slot codes ∧ B' = ⟨b, args, ops ++ ends ++ codes ++
      [.mk { t.head with kind := .transfer (.br exit), operands := [] } t.regions]⟩

theorem Completes.mono {n caught : Nat} {exit : BlockId} {B B' : BlockTree} (g : f.GrowsTo f')
    (h : Completes n caught slot exit f B B') : Completes n caught slot exit f' B B' := by
  obtain ⟨b, args, ops, t, ends, codes, hB, hends, hz, hB'⟩ := h
  exact ⟨b, args, ops, t, ends, codes, hB, hends, hz.mono g, hB'⟩

variable {r : Option RegionId} {x : OpTree} {n : Nat}

theorem Arena.completeNormally (slot : Option ValueId) (hn : n ≤ f.values.size)
    (ha : Arena f (layout r (L ++ ⟨b, args, pre ++ x :: post⟩ :: R) + e)) :
    Meets stop (Lower.completeNormally slot x.id) f fun _ f' => ∃ codes,
      Zeroes n f' x.head.span slot codes ∧
        Arena f' (layout r (L ++ ⟨b, args, pre ++ codes ++ x :: post⟩ :: R) + e) ∧
          f.GrowsTo f' := by
  cases slot with
  | none => exact .pure ⟨[], .absent, by simpa using ha, .refl f⟩
  | some slot =>
    refine .bind (ha.numberBefore 0) ?_
    rintro v f₁ ⟨i, o, hv, hi, h₁, g₁⟩
    have h₁ : Arena f₁ (layout r (L ++ ⟨b, args, (pre ++ [.leaf ⟨i, .instr (.constant (.int 0)), [],
        [v], x.head.span⟩]) ++ x :: post⟩ :: R) + e) := by simpa using h₁
    refine .bind h₁.emitBefore ?_
    rintro j f₂ ⟨h₂, g₂⟩
    refine .pure ⟨_, .present (.ops (i := i) (j := j)
      (hn.trans hi) (g₂.growsTo.value?_of_some hv)), by simpa using h₂, g₁.trans g₂.growsTo⟩

/-- The end of one block goes on behind the body or the catches. -/
theorem Arena.complete (caught : Nat) (slot : Option ValueId) (exit : BlockId)
    (hn : n ≤ f.values.size) (ha : Arena f (layout r (L ++ ⟨b, args, pre ++ [x]⟩ :: R) + e)) :
    Meets stop (do
      Lower.endCatches x.id caught
      Lower.completeNormally slot x.id
      Lower.makeBranch x.id exit []) f fun _ f' => ∃ B',
        Completes n caught slot exit f' ⟨b, args, pre ++ [x]⟩ B' ∧ B'.id = b ∧ B'.args = args ∧
          Arena f' (layout r (L ++ B' :: R) + e) ∧ f.GrowsTo f' := by
  refine .bind (ha.endCatches caught) ?_
  rintro _ f₁ ⟨ends, hends, h₁, g₁⟩
  refine .bind (h₁.completeNormally slot (hn.trans g₁.size_le)) ?_
  rintro _ f₂ ⟨codes, hz, h₂, g₂⟩
  refine h₂.makeBranch.mono ?_
  rintro _ f₃ ⟨h₃, g₃⟩
  exact ⟨_, ⟨b, args, pre, x, ends, codes, rfl, hends,
    hz.mono g₃.growsTo, rfl⟩, rfl, rfl, h₃, (g₁.trans g₂).trans g₃.growsTo⟩

/-- The yields of blocks go on behind the body or the catches. -/
theorem Arena.completeAll (caught : Nat) (slot : Option ValueId) (exit : BlockId)
    (hn : n ≤ f.values.size) (ha : Arena f (layout r (L ++ Bs ++ R) + e)) :
    Meets stop (((Bs.filterMap (BlockOf.endWhere OpKind.isYield)).map (·.id)).forM fun term => do
      Lower.endCatches term caught
      Lower.completeNormally slot term
      Lower.makeBranch term exit []) f fun _ f' => ∃ Bs',
        List.Forall₂ (Ended OpKind.isYield (Completes n caught slot exit f')) Bs Bs' ∧
          Arena f' (layout r (L ++ Bs' ++ R) + e) ∧ f.GrowsTo f' :=
  Arena.forEnds (q := fun f' => Completes n caught slot exit f')
    (fun _ _ _ _ _ _ _ _ g h _ _ => h.complete caught slot exit (hn.trans g.size_le))
    (fun _ _ _ _ g h => h.mono g) (.refl f) ha

/-! ## Codes -/

/-- Blocks with ops at the start of the first. -/
def atStart (ops : List OpTree) : List BlockTree → List BlockTree
  | [] => []
  | B :: Bs => ⟨B.id, B.args, ops ++ B.ops⟩ :: Bs

theorem Func.Holds.bodyBlocks {T : List BlockTree} (hf : f.Holds T e) :
    f.bodyBlocks = .ok (T.map (·.id)) := by
  simp [Func.bodyBlocks, Arena.region_eq hf]

variable {op : OpId}

/-- The escaping ops are bound to codes, and the completion slot is allocated. -/
theorem Func.Holds.routeThrough {B : BlockTree} {T : List BlockTree} {entry : BlockId}
    {escapes : List OpId} (hf : s.func.Holds (B :: T) 0) :
    Meets stop (Lower.routeThrough op entry escapes) s fun slot s' => ∃ id,
      s'.func.Holds (atStart [.leaf ⟨id, .instr (.alloc false), [], [slot], none⟩] (B :: T)) 0 ∧
        s'.bindings = (escapes.foldl (Lower.assignCode op) (s.bindings, [])).1.setRoute op
          ⟨slot, entry, (escapes.foldl (Lower.assignCode op) (s.bindings, [])).2⟩ ∧
            s.func.values.size ≤ slot.index ∧ s'.stats = s.stats ∧ s.func.GrowsTo s'.func := by
  have hentry : Edit.entryBlock s.func = .ok (some B.id) s.func := by
    change (liftM s.func.entryBlock : Edit (Option BlockId)) s.func = _
    simp only [Func.entryBlock, hf.bodyBlocks]
    rfl
  refine .editStep hentry ?_
  have h₀ : Arena s.func (layout (some s.func.body) ([] ++ ⟨B.id, B.args, B.ops⟩ :: T) + _) :=
    hf.arena
  refine .editBind h₀.at_block.createOp ?_
  rintro id f₁ ⟨h₁, g₁⟩
  simp only [Func.freshRegions_zero, List.map_nil, List.sum_nil, add_zero, List.length_cons,
    List.length_nil, zero_add, Func.freshValues_one] at h₁
  refine .editBind h₁.insertOpAtStart ?_
  rintro _ f₂ ⟨h₂, g₂⟩
  refine .editStep (h₂.result rfl) (.step (t := { s with func := f₂ }) (b := s.bindings) rfl ?_)
  refine .step rfl (.pure ⟨id, ?_, rfl, le_refl _, rfl, g₁.growsTo.trans g₂.growsTo⟩)
  refine .of_arena (h₂.as ?_) (g₂.body.trans g₁.body) rfl
  simp only [atStart, List.nil_append, List.cons_append, layout_nil, layout_cons,
    BlockOf.entries_eq, nodes_cons, OpTree.entries_eq, BlockOf.toBlock, OpTree.toOp, List.map_cons,
    OpTree.inner_leaf, OpTree.head_leaf, OpTree.regions_leaf, OpTree.id_leaf, OpTree.kind_leaf,
    List.map_nil]
  abel

/-- The block that goes to a destination by itself, and the blocks that were made for it. -/
inductive Reached (n : Nat) (f : Func) (B : Bindings) :
    Destination → BlockId → List BlockTree → Prop
  | block (target : BlockId) : Reached n f B (.block target) target []
  | ret {target : BlockId} (h : B.returnTo = some target) : Reached n f B .ret target []
  | final {t : OpId} {code : Int64} {route : Route} {blk : BlockId} {codes : List OpTree} {k : OpId}
      (h : B.routes.get? t = some route) (hs : Stores n f none code route.slot codes) :
      Reached n f B (.final t code) blk
        [⟨blk, [], codes ++ [.leaf ⟨k, .transfer (.br route.entry), [], [], none⟩]⟩]

variable {B : Bindings} {m : Nat} {made : List BlockTree}

theorem Reached.mono {d : Destination} {blk : BlockId} (h : Reached n f B d blk made)
    (g : f.GrowsTo f') (hm : m ≤ n) : Reached m f' B d blk made := by
  cases h with
  | block => exact .block blk
  | ret h => exact .ret h
  | final h hs => exact .final h (hs.mono g hm)

variable {N : BlockTree}

theorem Func.Holds.blockTo {user : OpId} {dest : Destination} (hf : s.func.Holds (L ++ N :: R) 0)
    (hd : ¬s.bindings.Reaches dest → stop) :
    Meets stop (Lower.blockTo user N.id dest) s fun blk s' => ∃ made,
      Reached s.func.values.size s'.func s.bindings dest blk made ∧
        s'.func.Holds (L ++ made ++ N :: R) 0 ∧ s.Edited s' := by
  refine .step (t := s) (b := s.bindings) rfl ?_
  cases dest with
  | block target => exact .pure ⟨[], .block target, by simpa using hf, .refl s⟩
  | ret =>
    cases hret : s.bindings.returnTo with
    | none =>
      have hb : s.bindings.returnBlock user = .error (.contractAt user .noReturnBlock) := by
        simp [Bindings.returnBlock, hret]
      simp only [hb]
      exact hd (by simp [Bindings.Reaches, hret])
    | some target =>
      have hb : s.bindings.returnBlock user = .ok target := by simp [Bindings.returnBlock, hret]
      simp only [hb]
      exact .read rfl ⟨[], .ret hret, by simpa using hf, .refl s⟩
  | final t code =>
    cases hroute : s.bindings.routes.get? t with
    | none =>
      have hb : s.bindings.route t = .error (.internalAt t .noCompletionSlot) := by
        simp [Bindings.route, hroute]
      simp only [hb]
      exact .fail rfl (hd (by simp [Bindings.Reaches, hroute]))
    | some route =>
      have hb : s.bindings.route t = .ok route := by simp [Bindings.route, hroute]
      simp only [hb]
      have h₀ : s.func.Holds (L ++ N :: R) (layout none [] + 0) := hf.as (by simp)
      refine .step rfl (.editBind h₀.newLoose ?_)
      rintro blk f₁ ⟨h₁, g₁⟩
      refine .editBind h₁.loose.emitAtEnd ?_
      rintro i f₂ ⟨h₂, g₂⟩
      simp only [List.length_cons, List.length_nil, zero_add, Func.freshValues_one] at h₂
      refine .editStep (h₂.at_op.result rfl) ?_
      have hf₂ : f₂.Holds (L ++ N :: R) (layout none _ + 0) := .of_loose h₂ g₂.body
      refine .editBind (hf₂.emit _ _) ?_
      rintro j f₃ ⟨h₃, g₃⟩
      refine .editBind (h₃.emit _ _) ?_
      rintro k f₄ ⟨h₄, g₄⟩
      refine .editBind h₄.spliceBefore ?_
      rintro _ f₅ ⟨h₅, g₅⟩
      refine .pure ⟨_,
        .final (k := k) hroute (.ops (i := i) (j := j) g₁.size_le
          ((g₃.trans (g₄.trans g₅.growsTo)).value?_of_some g₂.value?_new)), by simpa using h₅,
        rfl, rfl, g₁.trans (g₂.growsTo.trans (g₃.trans (g₄.trans g₅.growsTo)))⟩

/-- The cases of the switch at the end of a finally, and the blocks that were made for them. -/
inductive RouteCases (n : Nat) (f : Func) (B : Bindings) :
    List (Int64 × Destination) → List (Int64 × BlockId) → List BlockTree → Prop
  | nil : RouteCases n f B [] [] []
  | cons {code : Int64} {dest : Destination} {blk : BlockId} {made others : List BlockTree}
      {cases : List (Int64 × Destination)} {out : List (Int64 × BlockId)}
      (h : Reached n f B dest blk made) (hs : RouteCases n f B cases out others) :
      RouteCases n f B ((code, dest) :: cases) ((code, blk) :: out) (made ++ others)

variable {cases : List (Int64 × Destination)}

theorem RouteCases.mono {out : List (Int64 × BlockId)} (h : RouteCases n f B cases out made)
    (g : f.GrowsTo f') (hm : m ≤ n) : RouteCases m f' B cases out made := by
  induction h with
  | nil => exact .nil
  | cons h _ ih => exact .cons (h.mono g hm) ih

theorem Func.Holds.routeCases (user : OpId) (cases : List (Int64 × Destination))
    (hf : s.func.Holds (L ++ N :: R) 0) (hd : ¬(∀ c ∈ cases, s.bindings.Reaches c.2) → stop) :
    Meets stop (cases.mapM fun c => return (c.1, ← Lower.blockTo user N.id c.2)) s fun out s' =>
      ∃ made, RouteCases s.func.values.size s'.func s.bindings cases out made ∧
        s'.func.Holds (L ++ made ++ N :: R) 0 ∧ s.Edited s' := by
  induction cases generalizing s L with
  | nil => exact .pure ⟨[], .nil, by simpa using hf, .refl s⟩
  | cons c cases ih =>
    rw [List.mapM_cons, bind_assoc]
    refine .bind (hf.blockTo fun hc => hd fun hall => hc (hall c (by simp))) ?_
    rintro blk s₁ ⟨made, hr, hf₁, hed₁⟩
    refine .step rfl ?_
    refine .bind (ih hf₁ fun hc => hd fun hall => hc fun d hd => ?_) ?_
    · rw [hed₁.bindings]
      exact hall d (by simp [hd])
    · rintro out s₂ ⟨others, hrs, hf₂, hed₂⟩
      rw [hed₁.bindings] at hrs
      exact .pure ⟨made ++ others, .cons (hr.mono hed₂.grows (le_refl _))
        (hrs.mono (.refl _) hed₁.grows.size_le), by simpa using hf₂, hed₁.trans hed₂⟩

/-! ## The end of the finally -/

/-- How the finally of a try goes on: behind the try, or by the code in the completion slot. The
last list has the blocks that were made for it. -/
inductive FinalEnd (n : Nat) (f : Func) (B : Bindings) (next : BlockId)
    (cases : List (Int64 × Destination)) :
    Option ValueId → BlockTree → BlockTree → List BlockTree → Prop
  | abrupt {slot : Option ValueId} {F : BlockTree} (h : F.endWhere OpKind.isYield = none) :
      FinalEnd n f B next cases slot F F []
  | straight {F : BlockTree} :
      FinalEnd n f B next cases none F (F.endTo OpKind.isYield next) []
  | routed {slot : ValueId} {b : BlockId} {args : List ValueId} {ops : List OpTree} {t : OpTree}
      {i : OpId} {v : ValueId} {o : Origin} {out : List (Int64 × BlockId)} {made : List BlockTree}
      (ht : t.kind.isYield = true) (hn : n ≤ v.index) (hv : f.value? v = some ⟨.i32, o⟩)
      (hc : RouteCases n f B cases out made) :
      FinalEnd n f B next cases (some slot) ⟨b, args, ops ++ [t]⟩ ⟨b, args, ops ++
        [.leaf ⟨i, .instr .load, [slot], [v], t.head.span⟩, .mk { t.head with
          kind := .transfer (.switchInt next out), operands := [v] } t.regions]⟩ made

theorem FinalEnd.mono {next : BlockId} {F F' : BlockTree}
    (h : FinalEnd n f B next cases slot F F' made) (g : f.GrowsTo f') (hm : m ≤ n) :
    FinalEnd m f' B next cases slot F F' made := by
  cases h with
  | abrupt h => exact .abrupt h
  | straight => exact .straight
  | routed ht hn hv hc =>
    exact .routed ht (hm.trans hn) (g.value?_of_some hv) (hc.mono g hm)

/-- The code by which the finally goes on is loaded and switched on. -/
theorem Func.Holds.finishFinal_routed {slot : ValueId} {route : Route}
    (hr : s.bindings.routes.get? op = some route) (hne : route.cases ≠ [])
    (hf : s.func.Holds (L ++ ⟨b, args, pre ++ [x]⟩ :: (M ++ N :: R)) 0) (hx : x.kind.isYield = true)
    (hd : ¬(∀ c ∈ route.cases, s.bindings.Reaches c.2) → stop) :
    Meets stop (Lower.finishFinal op (some slot) N.id x.id) s fun _ s' => ∃ B' made,
      FinalEnd s.func.values.size s'.func s.bindings N.id route.cases (some slot)
        ⟨b, args, pre ++ [x]⟩ B' made ∧
        s'.func.Holds (L ++ B' :: (M ++ made ++ N :: R)) 0 ∧ s.Edited s' := by
  refine .editBind hf.arena.emitBefore ?_
  rintro i f₁ ⟨h₁, g₁⟩
  simp only [List.length_cons, List.length_nil, zero_add, Func.freshValues_one] at h₁
  refine .editStep (h₁.at_op.result rfl)
    (.step (t := { s with func := f₁ }) (b := s.bindings) rfl ?_)
  have hroute : s.bindings.route op = .ok route := by simp [Bindings.route, hr]
  rw [hroute]
  refine .step rfl ?_
  have hemp : route.cases.isEmpty = false := by simpa using hne
  simp only [hemp, Bool.false_eq_true, if_false]
  have hf₁ : f₁.Holds ((L ++ ⟨b, args, pre ++ [.leaf ⟨i, .instr .load, [slot],
      [⟨s.func.values.size⟩], x.head.span⟩, x]⟩ :: M) ++ N :: R) 0 :=
    .of_arena (by simpa using h₁) g₁.body (by simp)
  have hcases : Meets stop _ { s with func := f₁ } _ :=
    Func.Holds.routeCases op route.cases hf₁ hd
  refine .bind hcases ?_
  rintro out s₂ ⟨made, hc, hf₂, hed₂⟩
  have hf₂ : s₂.func.Holds (L ++ ⟨b, args, (pre ++ [.leaf ⟨i, .instr .load, [slot],
      [⟨s.func.values.size⟩], x.head.span⟩]) ++ x :: []⟩ :: (M ++ made ++ N :: R)) 0 := by
    simpa using hf₂
  refine .editBind (hf₂.arena.modifyHead { x.head with kind := .transfer (.switchInt N.id out) } rfl
    rfl rfl) ?_
  rintro _ f₃ ⟨h₃, g₃⟩
  refine Meets.edit (h₃.modifyHead { x.head with
    kind := .transfer (.switchInt N.id out), operands := [⟨s.func.values.size⟩] } rfl rfl rfl) ?_
  rintro _ f₄ ⟨h₄, g₄⟩
  have g : f₁.GrowsTo f₄ := hed₂.grows.trans (g₃.growsTo.trans g₄.growsTo)
  refine ⟨_, made, .routed (i := i) hx (le_refl _) (g.value?_of_some g₁.value?_new)
    (hc.mono (g₃.growsTo.trans g₄.growsTo) g₁.growsTo.size_le), ?_, hed₂.bindings, hed₂.stats,
    g₁.growsTo.trans g⟩
  exact .of_arena (by simpa using h₄) (g₄.body.trans g₃.body) (by simp)

/-- The finally goes on. -/
theorem Func.Holds.finishFinal {F : BlockTree}
    (hr : slot = none ∨ cases ≠ [] ∧ ∃ route, s.bindings.routes.get? op = some route ∧
      route.cases = cases) (hf : s.func.Holds (L ++ F :: (M ++ N :: R)) 0)
    (hd : ¬(∀ c ∈ cases, s.bindings.Reaches c.2) → stop) :
    Meets stop ((([F].filterMap (BlockOf.endWhere OpKind.isYield)).map (·.id)).forM
      (Lower.finishFinal op slot N.id)) s fun _ s' => ∃ F' made,
        FinalEnd s.func.values.size s'.func s.bindings N.id cases slot F F' made ∧
          s'.func.Holds (L ++ F' :: (M ++ made ++ N :: R)) 0 ∧ s.Edited s' := by
  cases hF : F.endWhere OpKind.isYield with
  | none =>
    rw [List.filterMap_cons_none hF]
    exact .pure ⟨F, [], .abrupt hF, by simpa using hf, .refl s⟩
  | some t =>
    rw [List.filterMap_cons_some hF]
    obtain ⟨ht, hy, ops, hops⟩ := BlockOf.endWhere_eq_some hF
    obtain ⟨b, args, _⟩ := F
    simp only at hops
    subst hops
    rw [List.filterMap_nil, List.map_cons, List.map_nil]
    refine .bind (m := fun _ s' => ∃ F' made,
      FinalEnd s.func.values.size s'.func s.bindings N.id cases
      slot ⟨b, args, ops ++ [t]⟩ F' made ∧ s'.func.Holds (L ++ F' :: (M ++ made ++ N :: R)) 0 ∧
        s.Edited s') ?_ fun _ _ h => .pure h
    cases slot with
    | none =>
      refine Meets.edit hf.arena.makeBranch ?_
      rintro _ f₁ ⟨h₁, g₁⟩
      refine ⟨_, [], .straight, ?_, rfl, rfl, g₁.growsTo⟩
      rw [BlockOf.endTo, BlockOf.mapEnd_append ht hy]
      exact .of_arena (by simpa using h₁) g₁.body (by simp)
    | some slot =>
      obtain ⟨hne, route, hroute, rfl⟩ := hr.resolve_left (by simp)
      exact hf.finishFinal_routed hroute hne hy hd

end

/-! ## Edits one after another -/

theorem Meets.lift_bind {α β : Type} (x : Edit α) (k : α → Edit β) :
    (liftM (x >>= k) : Lower β) = (liftM x >>= fun a => liftM (k a)) := by
  funext s
  change (liftM (x >>= k) : Lower β) s = EStateM.bind (liftM x) (fun a => liftM (k a)) s
  cases hx : x s.func with
  | error err f =>
    have : (x >>= k) s.func = .error err f := by
      change EStateM.bind x k s.func = _
      rw [EStateM.bind, hx]
    rw [EStateM.bind, Edit.lower_error hx, Edit.lower_error this]
  | ok a f =>
    have : (x >>= k) s.func = k a f := by
      change EStateM.bind x k s.func = _
      rw [EStateM.bind, hx]
    rw [EStateM.bind, Edit.lower_ok hx]
    change _ = (liftM (k a) : Lower β) { s with func := f }
    cases hk : k a f with
    | ok c f' => rw [Edit.lower_ok (this.trans hk), Edit.lower_ok hk]
    | error err f' => rw [Edit.lower_error (this.trans hk), Edit.lower_error hk]

end Unnest
