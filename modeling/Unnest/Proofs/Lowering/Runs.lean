import Unnest.Proofs.Lowering.Provenance
/-!
# Rounds one after another

Between two rounds the tables hold a body whose ops fit their kinds, with no construct left at the
top level of the blocks that lie behind (`Stage`). A round finds the first construct that is left,
lowers it as `Lowered` says, and comes to the next stage (`Stage.takes`). What every such round
keeps holds after all of them (`Stage.rounds`).
-/

namespace Unnest

/-- Whether an op is lowered in its turn. -/
def OpTree.pending (n : OpTree) : Bool := n.kind.isStructured && !n.kind.isDispatch

/-- No op is lowered in its turn. -/
def Quiet (ops : List OpTree) : Prop := ∀ n ∈ ops, n.pending = false

/-- No construct is left at the top level of the blocks. -/
def AllQuiet (Bs : List BlockTree) : Prop := ∀ B ∈ Bs, Quiet B.ops

/-- The dispatches among the ops. -/
def dispatchesOf (ops : List OpTree) : List OpId :=
  (ops.filter fun n => n.kind.isDispatch).map (·.id)

/-- The dispatches at the top level of the blocks. -/
def dispatchesIn (Bs : List BlockTree) : List OpId := Bs.flatMap fun B => dispatchesOf B.ops

@[simp] theorem quiet_nil : Quiet [] := by simp [Quiet]

@[simp] theorem quiet_cons {n : OpTree} {ops : List OpTree} :
    Quiet (n :: ops) ↔ n.pending = false ∧ Quiet ops := by simp [Quiet]

@[simp] theorem quiet_append {ops post : List OpTree} :
    Quiet (ops ++ post) ↔ Quiet ops ∧ Quiet post := by
  simp [Quiet, or_imp, forall_and]

@[simp] theorem allQuiet_nil : AllQuiet [] := by simp [AllQuiet]

@[simp] theorem allQuiet_cons {B : BlockTree} {Bs : List BlockTree} :
    AllQuiet (B :: Bs) ↔ Quiet B.ops ∧ AllQuiet Bs := by simp [AllQuiet]

@[simp] theorem allQuiet_append {L R : List BlockTree} :
    AllQuiet (L ++ R) ↔ AllQuiet L ∧ AllQuiet R := by
  simp [AllQuiet, or_imp, forall_and]

theorem OpTree.IsCode.not_pending {n : OpTree} (h : n.IsCode) : n.pending = false := by
  simp [pending, h.isFlat.2]

theorem quiet_of_isCode {ops : List OpTree} (h : ∀ n ∈ ops, n.IsCode) : Quiet ops :=
  fun n hn => (h n hn).not_pending

@[simp] theorem OpKind.isStructured_mapSuccessors (g : BlockId → BlockId) (k : OpKind) :
    (k.mapSuccessors g).isStructured = k.isStructured := by
  cases k with
  | construct c => cases c <;> rfl
  | instr _ => rfl
  | transfer _ => rfl

@[simp] theorem OpKind.isDispatch_mapSuccessors (g : BlockId → BlockId) (k : OpKind) :
    (k.mapSuccessors g).isDispatch = k.isDispatch := by
  cases k with
  | construct c => cases c <;> rfl
  | instr _ => rfl
  | transfer _ => rfl

@[simp] theorem OpTree.pending_rename (ρ : Renaming) (n : OpTree) :
    (n.rename ρ).pending = n.pending := by
  simp [pending]

theorem Quiet.rename {ops : List OpTree} (ρ : Renaming) (h : Quiet ops) :
    Quiet (ops.map (OpTree.rename ρ)) := by
  intro n hn
  obtain ⟨m, hm, rfl⟩ := List.mem_map.mp hn
  simpa using h m hm

theorem AllQuiet.rename {Bs : List BlockTree} (ρ : Renaming) (h : AllQuiet Bs) :
    AllQuiet (Bs.map (BlockOf.rename ρ)) := by
  intro B hB
  obtain ⟨B₀, hB₀, rfl⟩ := List.mem_map.mp hB
  exact (h B₀ hB₀).rename ρ

/-! ## Looking for a construct -/

section

variable {f : Func} {b : BlockId} {r : Option RegionId} {ops : List OpTree} {Bs : List BlockTree}

/-- The ops are searched up to the first that is lowered in its turn. -/
theorem Arena.scanOps (h : Arena f (nodes b ops)) :
    Quiet ops ∧ f.scanOps (ops.map (·.id)) = .ok (dispatchesOf ops, none) ∨
      ∃ pre x post, ops = pre ++ x :: post ∧ Quiet pre ∧ x.pending = true ∧
        f.scanOps (ops.map (·.id)) = .ok (dispatchesOf pre, some x.id) := by
  induction ops with
  | nil => exact .inl ⟨quiet_nil, rfl⟩
  | cons n ops ih =>
    rw [nodes_cons] at h
    have hk : f.kind n.id = .ok n.kind := by
      have hn := h.left
      rw [OpTree.entries_eq] at hn
      exact hn.kind_eq
    cases hd : n.kind.isDispatch with
    | true =>
      have hstep : ∀ {ds found}, f.scanOps (ops.map (·.id)) = .ok (ds, found) →
          f.scanOps ((n :: ops).map (·.id)) = .ok (n.id :: ds, found) := by
        intro ds found hs
        simp [Func.scanOps, hk, hd, hs, bind, Except.bind, pure, Except.pure]
      have hn : n.pending = false := by simp [OpTree.pending, hd]
      have hds : ∀ l, dispatchesOf (n :: l) = n.id :: dispatchesOf l := by simp [dispatchesOf, hd]
      obtain ⟨hq, hs⟩ | ⟨pre, x, post, rfl, hq, hx, hs⟩ := ih h.right
      · exact .inl ⟨quiet_cons.mpr ⟨hn, hq⟩, hds ops ▸ hstep hs⟩
      · exact .inr ⟨n :: pre, x, post, rfl, quiet_cons.mpr ⟨hn, hq⟩, hx, hds pre ▸ hstep hs⟩
    | false =>
      have hds : ∀ l, dispatchesOf (n :: l) = dispatchesOf l := by simp [dispatchesOf, hd]
      cases hst : n.kind.isStructured with
      | true =>
        refine .inr ⟨[], n, ops, rfl, quiet_nil, by simp [OpTree.pending, hd, hst], ?_⟩
        simp [Func.scanOps, hk, hd, hst, bind, Except.bind, pure, Except.pure, dispatchesOf]
      | false =>
        have hstep : f.scanOps ((n :: ops).map (·.id)) = f.scanOps (ops.map (·.id)) := by
          simp [Func.scanOps, hk, hd, hst, bind, Except.bind]
        have hn : n.pending = false := by simp [OpTree.pending, hst]
        obtain ⟨hq, hs⟩ | ⟨pre, x, post, rfl, hq, hx, hs⟩ := ih h.right
        · exact .inl ⟨quiet_cons.mpr ⟨hn, hq⟩, hds ops ▸ hstep.trans hs⟩
        · exact .inr ⟨n :: pre, x, post, rfl, quiet_cons.mpr ⟨hn, hq⟩, hx, hds pre ▸ hstep.trans hs⟩

/-- The blocks are searched up to the first construct that is left. -/
theorem Arena.scanBlocks (index : Nat) (h : Arena f (layout r Bs)) :
    AllQuiet Bs ∧ f.scanBlocks index (Bs.map (·.id)) = .ok (dispatchesIn Bs, none) ∨
      ∃ L b args pre x post R, Bs = L ++ ⟨b, args, pre ++ x :: post⟩ :: R ∧ AllQuiet L ∧ Quiet pre ∧
        x.pending = true ∧ f.scanBlocks index (Bs.map (·.id)) =
          .ok (dispatchesIn L ++ dispatchesOf pre, some (index + L.length, x.id)) := by
  induction Bs generalizing index with
  | nil => exact .inl ⟨allQuiet_nil, rfl⟩
  | cons B Bs ih =>
    rw [layout_cons] at h
    have hB := h.left
    rw [BlockOf.entries_eq] at hB
    have hblock : f.block B.id = .ok (B.toBlock r) := hB.block_eq
    obtain ⟨hq, hs⟩ | ⟨pre, x, post, hops, hq, hx, hs⟩ := hB.right.scanOps
    · have hstep : ∀ {ds found}, f.scanBlocks (index + 1) (Bs.map (·.id)) = .ok (ds, found) →
          f.scanBlocks index ((B :: Bs).map (·.id)) = .ok (dispatchesOf B.ops ++ ds, found) := by
        intro ds found hs'
        simp [Func.scanBlocks, hblock, BlockOf.toBlock, hs, hs', bind, Except.bind, pure,
          Except.pure]
      obtain ⟨hq', hs'⟩ | ⟨L, b, args, pre, x, post, R, rfl, hL, hq', hx, hs'⟩ :=
        ih (index + 1) h.right
      · exact .inl ⟨allQuiet_cons.mpr ⟨hq, hq'⟩, hstep hs'⟩
      · refine .inr ⟨B :: L, b, args, pre, x, post, R, rfl, allQuiet_cons.mpr ⟨hq, hL⟩, hq', hx, ?_⟩
        rw [hstep hs', List.length_cons, Nat.add_right_comm index 1, Nat.add_assoc]
        simp [dispatchesIn]
    · obtain ⟨b, args, ops⟩ := B
      obtain rfl : ops = pre ++ x :: post := hops
      refine .inr ⟨[], b, args, pre, x, post, Bs, rfl, allQuiet_nil, hq, hx, ?_⟩
      simp only [List.map_cons] at hblock ⊢
      simp [Func.scanBlocks, hblock, BlockOf.toBlock, -List.map_cons, -List.map_append, hs,
        bind, Except.bind, pure, Except.pure, dispatchesIn]

end

/-- The state with the given dispatches put off. -/
def LowerState.putOff (s : LowerState) (ds : List OpId) : LowerState :=
  { s with bindings := ds.foldl Bindings.defer s.bindings }

theorem Bindings.foldl_defer (ds : List OpId) (B : Bindings) :
    ∃ pending, ds.foldl Bindings.defer B = { B with pending } ∧
      ∀ op, op ∈ pending ↔ op ∈ B.pending ∨ op ∈ ds := by
  induction ds generalizing B with
  | nil => exact ⟨B.pending, rfl, by simp⟩
  | cons d ds ih =>
    obtain ⟨pending, hp, hm⟩ := ih (B.defer d)
    refine ⟨pending, ?_, fun op => ?_⟩
    · rw [List.foldl_cons, hp, Bindings.defer]
      split <;> rfl
    · rw [hm, Bindings.defer]
      split
      case isTrue hd =>
        by_cases h : op = d
        · simp [h, hd]
        · simp [h]
      case isFalse =>
        simp [or_assoc]

/-- The body between two rounds: the tables hold it, its ops fit their kinds, and no construct is
left in the blocks before the one the search goes on from. -/
structure Stage (start : Nat) (s : LowerState) (T : List BlockTree) : Prop where
  holds : s.func.Holds T 0
  fits : Everywhere OpTree.Fits T
  quiet : AllQuiet (T.take start)

namespace Stage

variable {start : Nat} {s : LowerState} {T : List BlockTree}

/-- The search for the next construct. -/
theorem next (h : Stage start s T) :
    AllQuiet T ∧ Lower.nextConstruct start s = .ok none (s.putOff (dispatchesIn (T.drop start))) ∨
      ∃ L b args pre x post R, T = L ++ ⟨b, args, pre ++ x :: post⟩ :: R ∧ AllQuiet L ∧ Quiet pre ∧
        x.pending = true ∧ Lower.nextConstruct start s = .ok (some (L.length, x.id))
          (s.putOff (dispatchesIn (L.drop start) ++ dispatchesOf pre)) := by
  have hnext : ∀ {ds found}, s.func.scanBlocks start ((T.drop start).map (·.id)) = .ok (ds, found) →
      Lower.nextConstruct start s = .ok found (s.putOff ds) := by
    intro ds found hs
    have hm : Meets False (Lower.nextConstruct start) s fun a s' =>
      a = found ∧ s' = s.putOff ds := by
      refine .step (b := s.func) (t := s) rfl ?_
      refine .bind (m := fun a s' => a = T.map (·.id) ∧ s = s')
        (.read h.holds.bodyBlocks ⟨rfl, rfl⟩) ?_
      rintro _ _ ⟨rfl, rfl⟩
      rw [← List.map_drop]
      refine .bind (m := fun a s' => a = (ds, found) ∧ s = s') (.read hs ⟨rfl, rfl⟩) ?_
      rintro _ _ ⟨rfl, rfl⟩
      exact .step (b := ()) (t := s.putOff ds) rfl (.pure ⟨rfl, rfl⟩)
    obtain ⟨_, _, hr, rfl, rfl⟩ := hm.result
    exact hr
  have hd : Arena s.func (layout (some s.func.body) (T.drop start)) := by
    have ha := h.holds.arena.left
    rw [← List.take_append_drop start T, layout_append] at ha
    exact ha.right
  obtain ⟨hq, hs⟩ | ⟨L, b, args, pre, x, post, R, hT, hL, hq, hx, hs⟩ := hd.scanBlocks start
  · refine .inl ⟨?_, hnext hs⟩
    rw [← List.take_append_drop start T]
    exact allQuiet_append.mpr ⟨h.quiet, hq⟩
  · refine .inr ⟨T.take start ++ L, b, args, pre, x, post, R, ?_,
      allQuiet_append.mpr ⟨h.quiet, hL⟩, hq, hx, ?_⟩
    · rw [List.append_assoc, ← hT, List.take_append_drop]
    · have hlt : start < T.length := by
        by_contra hge
        rw [List.drop_eq_nil_of_le (by omega)] at hT
        simp at hT
      have hlen : (T.take start).length = start := by
        rw [List.length_take]
        omega
      rw [hnext hs, List.length_append, hlen, List.drop_append, hlen, Nat.sub_self, List.drop_zero,
        List.drop_eq_nil_of_le hlen.le, List.nil_append]

end Stage

/-! ## A round -/

section

variable {types : TypeTable} {o : LowerOptions} {s s' : LowerState} {L R T' : List BlockTree}
  {b : BlockId} {args : List ValueId} {pre post : List OpTree} {x : OpTree}

theorem Reshaped.fits {rest : List BlockTree} (hr : Reshaped s s' rest x T')
    (hrest : Everywhere OpTree.Fits rest) (hx : ∀ r ∈ x.regions, Everywhere OpTree.Fits r.blocks) :
    Everywhere OpTree.Fits T' := by
  have hcome : ∀ {σ ρ p e}, ComesFrom σ ρ rest x p e → e.Fits := by
    rintro σ ρ p e (h | ⟨hr, h⟩ | ⟨-, hr, h⟩ | h)
    · exact (hrest _ h.inBlocks).rename _
    · exact (hx _ (List.mem_of_getElem? hr) _ h.inBlocks).rename _
    · exact (hx _ (List.mem_of_getElem? hr) _ h.inBlocks).rename _
    · exact .inl h.1
  intro e he
  obtain ⟨p, hp⟩ := he.path
  cases hr with
  | placed _ _ ho => exact hcome (ho p e hp)
  | opened _ _ _ _ ho => exact hcome (ho p e hp)
  | tried _ _ _ _ ho => exact hcome (ho p e hp)

theorem take_placed (mid : List OpTree) (cut : Option BlockId) (tail : List BlockTree) :
    (placed L R b args pre mid post cut ++ tail).take L.length = L := by
  cases cut <;> simp [placed]

theorem AllQuiet.atStart {T : List BlockTree} {ops : List OpTree} (h : AllQuiet T)
    (ho : Quiet ops) : AllQuiet (atStart ops T) := by
  cases T with
  | nil => exact h
  | cons B T =>
    rw [allQuiet_cons] at h
    simp [Unnest.atStart, h, ho]

theorem take_atStart (n : Nat) (ops : List OpTree) (T : List BlockTree) :
    (atStart ops T).take n = atStart ops (T.take n) := by
  cases T with
  | nil => simp [atStart]
  | cons B T => cases n <;> simp [atStart]

/-- The blocks before the construct stay behind. -/
theorem Lowered.quiet (hl : Lowered types o s s' L R b args pre post x T') (hL : AllQuiet L) :
    AllQuiet (T'.take L.length) := by
  have hopened : ∀ {σ pre front inner next news}, AllQuiet
      ((opened σ L R b args pre post front inner next news).take L.length) := by
    intro σ pre front inner next news
    have hlen : (L.map (BlockOf.rename (.uses σ))).length = L.length := List.length_map _
    rw [opened, ← hlen, List.take_left]
    exact hL.rename _
  have hplaced : ∀ {pre mid cut} tail, AllQuiet
      ((placed L R b args pre mid post cut ++ tail).take L.length) := by
    intro pre mid cut tail
    rwa [take_placed]
  have hplaced' : ∀ {pre mid cut}, AllQuiet
      ((placed L R b args pre mid post cut).take L.length) := by
    intro pre mid cut
    simpa using hplaced []
  cases hl with
  | entry _ hl =>
    obtain ⟨blk, mid, B, -, -, rfl⟩ := hl.result
    exact hplaced _
  | exit => exact hplaced'
  | ret _ hl | retVal _ _ hl | jump _ _ hl =>
    obtain ⟨ends, codes, target, cut, -, -, -, rfl⟩ := hl.result
    exact hplaced'
  | yieldVal _ hl =>
    obtain ⟨id, value, slot, target, cut, -, -, -, rfl⟩ := hl.result
    exact hplaced'
  | branch _ hl =>
    obtain ⟨cond, rest, flag, casts, σ, next, news, id, -, -, -, rfl⟩ := hl.result
    exact hopened
  | whileLoop _ hl | doWhile _ hl | forLoop _ hl =>
    obtain ⟨σ, next, news, id, C', condTo, bodyTo, -, -, -, -, -, rfl⟩ := hl.result
    exact hopened
  | switch _ hl | labeled _ hl =>
    obtain ⟨σ, next, news, id, -, -, rfl⟩ := hl.result
    exact hopened
  | tryCatch _ hl =>
    rw [TryCode.tree, take_atStart, List.take_left]
    exact hL.atStart (quiet_of_isCode hl.route.isCode)
  | catchMark => exact hplaced'
  | throw => exact hplaced'
  | call _ hl | callIndirect _ hl =>
    have hr := hl.result
    split at hr
    · rw [hr]
      exact hplaced'
    · obtain ⟨normal, rfl⟩ := hr
      exact hplaced'
  | stateLabel _ hl =>
    obtain ⟨resume, -, rfl⟩ := hl.result
    exact hplaced'
  | capture _ hl =>
    obtain ⟨inHeap, stores, -, rfl⟩ := hl.result
    exact hplaced'

end

namespace Lower

/-- A round takes up the construct `op`. The search goes on from the block given with each state. -/
def Takes (types : TypeTable) (o : LowerOptions) (op : OpId) (p q : Nat × LowerState) : Prop :=
  ∃ s, nextConstruct p.1 p.2 = .ok (some (q.1, op)) s ∧ lowerOp types o op s = .ok () q.2

/-- Rounds one after another. -/
def Rounds (types : TypeTable) (o : LowerOptions) : Nat × LowerState → Nat × LowerState → Prop :=
  Relation.ReflTransGen fun p q => ∃ op, Takes types o op p q

/-- Rounds one after another, with the constructs that they take up, the last of them first. Each
construct stands with the function in which its turn came. -/
inductive Course (types : TypeTable) (o : LowerOptions) (p : Nat × LowerState) :
    List (Func × OpId) → Nat × LowerState → Prop
  | here : Course types o p [] p
  | round {turns : List (Func × OpId)} {q r : Nat × LowerState} {op : OpId} :
      Course types o p turns q → Takes types o op q r →
      Course types o p ((q.2.func, op) :: turns) r

theorem exists_course {types : TypeTable} {o : LowerOptions} {p q : Nat × LowerState}
    (h : Rounds types o p q) : ∃ turns, Course types o p turns q := by
  induction h with
  | refl => exact ⟨[], .here⟩
  | tail _ ht ih =>
    obtain ⟨turns, ih⟩ := ih
    obtain ⟨op, ht⟩ := ht
    exact ⟨_, ih.round ht⟩

end Lower

/-- A round on the tree: the construct `x`, the first that is left, is lowered. -/
structure Round (types : TypeTable) (o : LowerOptions) (s s' : LowerState) (L R : List BlockTree)
    (b : BlockId) (args : List ValueId) (pre post : List OpTree) (x : OpTree)
    (T' : List BlockTree) : Prop where
  holds : s.func.Holds (L ++ ⟨b, args, pre ++ x :: post⟩ :: R) 0
  fits : Everywhere OpTree.Fits (L ++ ⟨b, args, pre ++ x :: post⟩ :: R)
  behind : AllQuiet L ∧ Quiet pre
  pending : x.pending = true
  lowered : Lowered types o s s' L R b args pre post x T'
  holds' : s'.func.Holds T' 0

section

variable {types : TypeTable} {o : LowerOptions} {p q : Nat × LowerState} {op : OpId}
  {s s' : LowerState} {T T' L R : List BlockTree} {x : OpTree} {b : BlockId}
  {args : List ValueId} {pre post : List OpTree}

theorem OpTree.construct_of_pending (h : x.pending = true) : ∃ c, x.kind = .construct c := by
  cases hk : x.kind with
  | construct c => exact ⟨c, rfl⟩
  | instr _ => simp [pending, hk] at h
  | transfer _ => simp [pending, hk] at h

/-- What is in the body without an op is in the body. -/
theorem Path.of_rest {q : Trail} {e : OpTree} (h : Path (L ++ ⟨b, args, pre ++ post⟩ :: R) q e) :
    Path (L ++ ⟨b, args, pre ++ x :: post⟩ :: R) q e := by
  simp only [path_append, path_cons_left, OpTree.at_append] at h ⊢
  rw [OpTree.at_cons_left]
  tauto

theorem OpTree.inBlocks_here : x.InBlocks (L ++ ⟨b, args, pre ++ x :: post⟩ :: R) :=
  OpTree.inBlocks_of_mem (B := ⟨b, args, pre ++ x :: post⟩) (by simp) (by simp)

namespace Round

variable (h : Round types o s s' L R b args pre post x T')

include h

theorem fitsWithin : ∀ m : OpTree, m.Within x → m.Fits :=
  fun m hm => h.fits m (.below hm OpTree.inBlocks_here)

theorem reshaped : Reshaped s s' (L ++ ⟨b, args, pre ++ post⟩ :: R) x T' :=
  h.lowered.reshaped h.fitsWithin

theorem fits' : Everywhere OpTree.Fits T' := by
  refine h.reshaped.fits (fun e he => ?_) fun r hr => h.fits.below OpTree.inBlocks_here hr
  obtain ⟨q, hq⟩ := he.path
  exact h.fits e hq.of_rest.inBlocks

theorem grows : s.func.GrowsTo s'.func := by
  cases h.lowered with
  | entry _ hl => exact hl.grows
  | exit _ _ he => exact he.grows
  | ret _ hl => exact hl.edited.grows
  | retVal _ _ hl => exact hl.edited.grows
  | yieldVal _ hl => exact hl.edited.grows
  | jump _ _ hl => exact hl.edited.grows
  | branch _ hl => exact hl.edited.grows
  | whileLoop _ hl => exact hl.grows
  | doWhile _ hl => exact hl.grows
  | forLoop _ hl => exact hl.grows
  | switch _ hl => exact hl.grows
  | labeled _ hl => exact hl.grows
  | tryCatch _ hl => exact hl.grows
  | catchMark _ _ _ he => exact he.grows
  | throw _ _ he => exact he.grows
  | call _ hl => exact hl.grows
  | callIndirect _ hl => exact hl.grows
  | stateLabel _ hl => exact hl.grows
  | capture _ hl => exact hl.edited.grows

end Round

/-- A round of the lowering is a round on the tree. -/
theorem Stage.takes (h : Stage p.1 p.2 T) (ht : Lower.Takes types o op p q) :
    ∃ L R b args pre post x T', T = L ++ ⟨b, args, pre ++ x :: post⟩ :: R ∧ x.id = op ∧
      q.1 = L.length ∧ Round types o
      (p.2.putOff (dispatchesIn (L.drop p.1) ++ dispatchesOf pre)).tick
        q.2 L R b args pre post x T' ∧ Stage q.1 q.2 T' := by
  obtain ⟨start, s₀⟩ := p
  obtain ⟨index, s'⟩ := q
  obtain ⟨s, hnext, hlower⟩ := ht
  obtain ⟨-, hn⟩ | ⟨L, b, args, pre, x, post, R, rfl, hL, hpre, hx, hn⟩ := h.next
  · cases hnext.symm.trans hn
  · cases hnext.symm.trans hn
    obtain ⟨c, hk⟩ := OpTree.construct_of_pending hx
    have hf : (s₀.putOff (dispatchesIn (L.drop start) ++ dispatchesOf pre)).func.Holds
      (L ++ ⟨b, args, pre ++ x :: post⟩ :: R) 0 := h.holds
    obtain ⟨T', hf', hl⟩ := (hf.lowerOp types o hk
      (fun m hm => h.fits m (.below hm OpTree.inBlocks_here)) fun _ => trivial).ok hlower
    have hround : Round types o (s₀.putOff _).tick s' L R b args pre post x T' :=
      ⟨h.holds, h.fits, ⟨hL, hpre⟩, hx, hl, hf'⟩
    exact ⟨L, R, b, args, pre, post, x, T', rfl, rfl, rfl, hround, hf', hround.fits', hl.quiet hL⟩

end

end Unnest
