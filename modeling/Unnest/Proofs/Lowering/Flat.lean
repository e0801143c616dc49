import Unnest.Proofs.Lowering.Layout
import Unnest.Proofs.Ownership.Lowering
/-!
# The flat body

The rounds leave no construct at the top level but dispatches, which are put off to the end; every
dispatch that is left is among those put off (`Deferred`). Then each becomes a branch or a switch
over the resume points (`Dispatched`). What is left is flat (`Stage.flatten`).
-/

namespace Unnest

/-! ## The ops that a round keeps -/

section

variable {types : TypeTable} {o : LowerOptions} {s s' : LowerState} {L R T T' : List BlockTree}
  {b : BlockId} {args : List ValueId} {pre post : List OpTree} {x : OpTree} {c : Layout}

variable {ops : List OpTree} {id : OpId}

theorem mem_dispatchesOf :
    id ∈ dispatchesOf ops ↔ ∃ n ∈ ops, n.kind.isDispatch = true ∧ n.id = id := by
  simp [dispatchesOf, and_assoc]

@[simp] theorem dispatchesOf_append (ops post : List OpTree) :
    dispatchesOf (ops ++ post) = dispatchesOf ops ++ dispatchesOf post := by
  simp [dispatchesOf]

@[simp] theorem dispatchesOf_rename (ops : List OpTree) (σ : ValueId → ValueId) :
    dispatchesOf (ops.map (.rename (.uses σ))) = dispatchesOf ops := by
  simp [dispatchesOf, List.filter_map, Function.comp_def]

variable {k : OpKind}

theorem OpKind.isStructured_of_isDispatch (h : k.isDispatch = true) : k.isStructured = true := by
  cases k with
  | construct => rfl
  | instr => cases h
  | transfer => cases h

theorem OpKind.isDispatch_iff :
    k.isDispatch = true ↔ ∃ start, k = .construct (.switchState start) := by
  cases k with
  | construct c => cases c <;> simp [isDispatch]
  | instr => simp [isDispatch]
  | transfer => simp [isDispatch]

theorem dispatchesOf_of_isCode (h : ∀ n ∈ ops, n.IsCode) : dispatchesOf ops = [] := by
  rw [dispatchesOf, List.map_eq_nil_iff, List.filter_eq_nil_iff]
  intro n hn hd
  exact absurd (OpKind.isStructured_of_isDispatch hd) (by simp [(h n hn).isFlat.2])

@[simp] theorem dispatchesIn_cons (B : BlockTree) (Bs : List BlockTree) :
    dispatchesIn (B :: Bs) = dispatchesOf B.ops ++ dispatchesIn Bs := rfl

@[simp] theorem dispatchesIn_append (Bs Cs : List BlockTree) :
    dispatchesIn (Bs ++ Cs) = dispatchesIn Bs ++ dispatchesIn Cs :=
  List.flatMap_append

@[simp] theorem dispatchesIn_rename (Bs : List BlockTree) (σ : ValueId → ValueId) :
    dispatchesIn (Bs.map (.rename (.uses σ))) = dispatchesIn Bs := by
  simp [dispatchesIn, List.flatMap_map]

theorem dispatchesIn_atStart (h : ∀ n ∈ ops, n.IsCode) (Bs : List BlockTree) :
    dispatchesIn (atStart ops Bs) = dispatchesIn Bs := by
  cases Bs with
  | nil => rfl
  | cons B Bs => simp [atStart, dispatchesOf_of_isCode h]

theorem Lays.slots_isCode (hl : Lays types o s s' x c) : ∀ n ∈ c.slots, n.IsCode := by
  cases hl with
  | placed => simp
  | thrown => simp
  | called => simp
  | resumed => simp
  | opened => simp
  | tried _ hl => exact hl.route.isCode

theorem Lays.pending_eq (hl : Lays types o s s' x c) :
    s'.bindings.pending = s.bindings.pending := by
  cases hl with
  | placed _ _ _ _ hl _ => exact congrArg Prod.fst hl
  | thrown _ he => rw [he.bindings]
  | called _ _ _ hl _ => rw [hl]
  | resumed _ hl _ => rw [hl]; rfl
  | opened _ _ _ _ _ hl _ => exact congrArg Prod.fst hl
  | tried _ hl => exact congrArg Prod.fst hl.aside

/-- The blocks before the one of the construct. -/
theorem Layout.take_tree (c : Layout) (L R : List BlockTree) (b : BlockId) (args : List ValueId)
    (pre post : List OpTree) : (c.tree L R b args pre post).take L.length =
      atStart c.slots (L.map (.rename (.uses c.names))) := by
  rw [Layout.tree, take_atStart, List.take_append_of_le_length (by simp),
    List.take_of_length_le (by simp)]

/-- A round keeps the dispatches. -/
theorem Layout.dispatches_tree (hs : ∀ n ∈ c.slots, n.IsCode)
    (h : id ∈ dispatchesIn (L ++ ⟨b, args, pre ++ post⟩ :: R)) :
    id ∈ dispatchesIn (c.tree L R b args pre post) := by
  rw [Layout.tree, dispatchesIn_atStart hs, Layout.behind]
  simp only [dispatchesIn_append, dispatchesIn_cons, dispatchesOf_append, List.mem_append] at h
  cases c.next <;>
    simp only [dispatchesIn_append, dispatchesIn_cons, dispatchesOf_append, dispatchesIn_rename,
      dispatchesOf_rename, List.mem_append] <;> tauto

end

/-! ## What is put off -/

/-- Only dispatches of the body are put off, and all of the blocks that lie behind are. -/
structure Deferred (start : Nat) (s : LowerState) (T : List BlockTree) : Prop where
  sound : ∀ id ∈ s.bindings.pending, id ∈ dispatchesIn T
  behind : ∀ id ∈ dispatchesIn (T.take start), id ∈ s.bindings.pending

theorem LowerState.mem_pending_putOff {s : LowerState} {ds : List OpId} {id : OpId} :
    id ∈ (s.putOff ds).bindings.pending ↔ id ∈ s.bindings.pending ∨ id ∈ ds := by
  obtain ⟨pending, hp, hmem⟩ := Bindings.foldl_defer ds s.bindings
  rw [LowerState.putOff, hp]
  exact hmem id

section

variable {types : TypeTable} {o : LowerOptions} {p q : Nat × LowerState} {op : OpId}
  {s s' : LowerState} {T T' L R : List BlockTree} {x : OpTree} {b : BlockId}
  {args : List ValueId} {pre post : List OpTree}

variable {start : Nat}

theorem Deferred.take (h : Deferred start s (L ++ R)) {ds : List OpId}
    (hL : ∀ id ∈ dispatchesIn (L.drop start), id ∈ ds) {id : OpId} (hid : id ∈ dispatchesIn L) :
    id ∈ (s.putOff ds).bindings.pending := by
  rw [LowerState.mem_pending_putOff]
  rw [← List.take_append_drop start L, dispatchesIn_append, List.mem_append] at hid
  refine hid.imp (fun hid => h.behind id ?_) (hL id)
  rw [List.take_append, dispatchesIn_append]
  exact List.mem_append_left _ hid

theorem Deferred.takes (h : Deferred start s (L ++ ⟨b, args, pre ++ x :: post⟩ :: R))
    (hr : Round types o (s.putOff (dispatchesIn (L.drop start) ++ dispatchesOf pre)).tick s'
      L R b args pre post x T') : Deferred L.length s' T' := by
  obtain ⟨c, rfl, hc⟩ := hr.lowered.lays hr.fitsWithin
  have hx : x.kind.isDispatch = false := by
    have := hr.pending
    rw [OpTree.pending, Bool.and_eq_true, Bool.not_eq_true'] at this
    exact this.2
  have hrest : dispatchesIn (L ++ ⟨b, args, pre ++ x :: post⟩ :: R) =
      dispatchesIn (L ++ ⟨b, args, pre ++ post⟩ :: R) := by
    simp [dispatchesOf, hx]
  have hpending : ∀ id, id ∈ s'.bindings.pending ↔ id ∈ s.bindings.pending ∨
      id ∈ dispatchesIn (L.drop start) ++ dispatchesOf pre := fun id => by
    rw [hc.pending_eq]
    exact LowerState.mem_pending_putOff
  refine ⟨fun id hid => Layout.dispatches_tree hc.slots_isCode ?_, fun id hid => ?_⟩
  · obtain hid | hid := (hpending id).mp hid
    · exact hrest ▸ h.sound id hid
    · simp only [dispatchesIn_append, dispatchesIn_cons, dispatchesOf_append,
        List.mem_append] at hid ⊢
      refine hid.imp (fun hid => ?_) fun hid => .inl (.inl hid)
      rw [← List.take_append_drop start L, dispatchesIn_append]
      exact List.mem_append_right _ hid
  · rw [Layout.take_tree, dispatchesIn_atStart hc.slots_isCode, dispatchesIn_rename] at hid
    exact hc.pending_eq ▸ h.take (fun id hid => List.mem_append_left _ hid) hid

/-! ## All rounds -/

variable {n : Nat}

/-- A lowering that comes to its end has taken up constructs until there was none. -/
theorem Lower.rounds_of_flattenFrom (h : Lower.flattenFrom types o n start s = .ok () s') :
    ∃ q, Lower.Rounds types o (start, s) q ∧ Lower.nextConstruct q.1 q.2 = .ok none s' := by
  induction n generalizing start s with
  | zero =>
    obtain ⟨found, s₁, hn, h⟩ := bind_eq_ok h
    cases found with
    | none =>
      cases h
      exact ⟨_, .refl, hn⟩
    | some p => cases h
  | succ n ih =>
    obtain ⟨found, s₁, hn, h⟩ := bind_eq_ok h
    cases found with
    | none =>
      cases h
      exact ⟨_, .refl, hn⟩
    | some p =>
      obtain ⟨index, op⟩ := p
      obtain ⟨_, s₂, hl, h⟩ := bind_eq_ok h
      obtain ⟨q, hq, hend⟩ := ih h
      exact ⟨q, .head ⟨op, s₁, hn, hl⟩ hq, hend⟩

/-- Where no construct is found there are only dispatches and flat code at the top level, and the
dispatches have been put off. -/
theorem Stage.ended (h : Stage start s T) (hd : Deferred start s T)
    (hend : Lower.nextConstruct start s = .ok none s') :
    AllQuiet T ∧ (∀ id, id ∈ s'.bindings.pending ↔ id ∈ dispatchesIn T) ∧
      ∃ ds, s' = s.putOff ds := by
  obtain ⟨hq, hn⟩ | ⟨L, b, args, pre, x, post, R, -, -, -, -, hn⟩ := h.next
  · cases hend.symm.trans hn
    refine ⟨hq, fun id => ⟨fun hid => ?_, fun hid => ?_⟩, _, rfl⟩
    · obtain hid | hid := LowerState.mem_pending_putOff.mp hid
      · exact hd.sound id hid
      · rw [← List.take_append_drop start T, dispatchesIn_append]
        exact List.mem_append_right _ hid
    · exact Deferred.take (R := []) (by rwa [List.append_nil]) (fun _ hid => hid) hid
  · cases hend.symm.trans hn

/-- After all rounds there are only dispatches and flat code at the top level, and the dispatches
have been put off. -/
theorem Stage.flattenFrom {I : List (Func × OpId) → LowerState → List BlockTree → Prop}
    (hoff : ∀ {turns s T} ds, I turns s T → I turns (s.putOff ds) T)
    (htick : ∀ {turns s T}, I turns s T → I turns s.tick T)
    (hstep : ∀ {turns s s' L R b args pre post x T'}, Round types o s s' L R b args pre post x T' →
      I turns s (L ++ ⟨b, args, pre ++ x :: post⟩ :: R) → I ((s.func, x.id) :: turns) s' T')
    (h : Stage start s T) (hd : Deferred start s T) (hi : I [] s T)
    (hs : Lower.flattenFrom types o n start s = .ok () s') :
    ∃ turns q T', Lower.Course types o (start, s) turns q ∧
      Lower.nextConstruct q.1 q.2 = .ok none s' ∧ s'.func.Holds T' 0 ∧ Everywhere OpTree.Fits T' ∧
      AllQuiet T' ∧ (∀ id, id ∈ s'.bindings.pending ↔ id ∈ dispatchesIn T') ∧ I turns s' T' := by
  obtain ⟨q, hrounds, hend⟩ := Lower.rounds_of_flattenFrom hs
  obtain ⟨turns, hr⟩ := Lower.exists_course hrounds
  obtain ⟨T₁, h₁, hd₁, hi₁⟩ : ∃ T₁, Stage q.1 q.2 T₁ ∧ Deferred q.1 q.2 T₁ ∧ I turns q.2 T₁ := by
    clear hend hs hrounds
    induction hr with
    | here => exact ⟨T, h, hd, hi⟩
    | round _ ht ih =>
      obtain ⟨T₁, h₁, hd₁, hi₁⟩ := ih
      obtain ⟨L, R, b, args, pre, post, x, T', rfl, rfl, hq, hround, h'⟩ := h₁.takes ht
      have hi' := hstep hround (htick (hoff _ hi₁))
      exact ⟨T', h', hq ▸ hd₁.takes hround, hi'⟩
  obtain ⟨hq, hpending, ds, rfl⟩ := h₁.ended hd₁ hend
  exact ⟨turns, q, T₁, hr, hend, h₁.holds, h₁.fits, hq, hpending, hoff ds hi₁⟩

end

/-! ## Dispatches -/

/-- The cases of a dispatch: state zero is the ordinary start and state `i` the `i`-th resume
point. -/
def stateCases (start : BlockId) (labels : List BlockId) : List (Int64 × BlockId) :=
  (start :: labels).zipIdx.map fun p => (Int64.ofNat p.2, p.1)

/-- What becomes of a dispatch when all resume points are known. -/
inductive Dispatched (B : Bindings) (h : Head) : Head → Prop
  | straight {start : BlockId} (hk : h.kind = .construct (.switchState start))
      (hl : B.stateLabels = []) :
      Dispatched B h { h with kind := .transfer (.br start), operands := [] }
  | switched {start default : BlockId} {state : ValueId} {rest : List ValueId}
      (hk : h.kind = .construct (.switchState start)) (ho : h.operands = state :: rest)
      (hl : B.stateLabels ≠ []) (hr : B.returnTo = some default) :
      Dispatched B h { h with
        kind := .transfer (.switchInt default (stateCases start B.stateLabels))
        operands := [state] }

/-- What becomes of an op when the dispatches are finished but for the given ones. -/
inductive Finished (B : Bindings) (rest : List OpId) (n : OpTree) : OpTree → Prop
  | kept (h : n.kind.isDispatch = true → n.id ∈ rest) : Finished B rest n n
  | changed {h' : Head} (h : Dispatched B n.head h') : Finished B rest n (.mk h' n.regions)

/-- The blocks with the dispatches finished but for the given ones. -/
def FinishedBlocks (B : Bindings) (rest : List OpId) : List BlockTree → List BlockTree → Prop :=
  List.Forall₂ fun C D => D.id = C.id ∧ D.args = C.args ∧ List.Forall₂ (Finished B rest) C.ops D.ops

section

variable {B : Bindings} {rest : List OpId} {n m : OpTree} {h h' : Head} {T T' L R : List BlockTree}
  {b : BlockId} {args : List ValueId} {pre post : List OpTree} {op : OpId}

theorem Dispatched.id_eq (hd : Dispatched B h h') : h'.id = h.id := by
  cases hd <;> rfl

theorem Dispatched.isStructured (hd : Dispatched B h h') : h'.kind.isStructured = false := by
  cases hd <;> rfl

theorem Finished.id_eq (hf : Finished B rest n m) : m.id = n.id := by
  cases hf with
  | kept => rfl
  | changed hd => exact hd.id_eq

/-- A dispatch is finished, or there is none. -/
theorem Finished.drop (hf : Finished B (op :: rest) n m) (hn : n.id ≠ op) :
    Finished B rest n m := by
  cases hf with
  | kept h => exact .kept fun hk => (List.mem_cons.mp (h hk)).resolve_left hn
  | changed hd => exact .changed hd

theorem forall₂_drop {ops ops' : List OpTree} (hf : List.Forall₂ (Finished B (op :: rest)) ops ops')
    (hops : op ∉ ops.map (·.id)) : List.Forall₂ (Finished B rest) ops ops' := by
  induction hf with
  | nil => exact .nil
  | cons hn _ ih =>
    rw [List.map_cons, List.mem_cons, not_or] at hops
    exact .cons (hn.drop (Ne.symm hops.1)) (ih hops.2)

theorem Dispatched.isDispatch (hd : Dispatched B h h') :
    h.kind.isDispatch = true ∧ h'.kind.isDispatch = false := by
  cases hd with
  | straight hk => exact ⟨by rw [hk]; rfl, rfl⟩
  | switched hk => exact ⟨by rw [hk]; rfl, rfl⟩

/-- An op is finished where it was left. -/
theorem Finished.finish {n' : OpTree} (hf : Finished B rest n m) (hf' : Finished B [] m n') :
    Finished B [] n n' := by
  cases hf with
  | kept => exact hf'
  | changed hd =>
    cases hf' with
    | kept => exact .changed hd
    | changed hd' => exact absurd hd'.isDispatch.1 (by simp [hd.isDispatch.2])

theorem Finished.mono (hf : Finished B [] n m) : Finished B rest n m := by
  cases hf with
  | kept h => exact .kept fun hk => absurd (h hk) (List.not_mem_nil)
  | changed hd => exact .changed hd

theorem FinishedBlocks.start (hT : ∀ id ∈ dispatchesIn T, id ∈ rest) :
    FinishedBlocks B rest T T := by
  refine List.forall₂_same.mpr fun C hC => ⟨rfl, rfl, List.forall₂_same.mpr fun n hn => .kept ?_⟩
  intro hk
  exact hT _ (List.mem_flatMap.mpr ⟨C, hC, mem_dispatchesOf.mpr ⟨n, hn, hk, rfl⟩⟩)

end

section

variable {stop : Prop} {s : LowerState} {L R : List BlockTree} {b : BlockId} {args : List ValueId}
  {pre post : List OpTree} {n : OpTree}

/-- An op that has been put off is finished. -/
theorem Func.Holds.finishDispatch (hf : s.func.Holds (L ++ ⟨b, args, pre ++ n :: post⟩ :: R) 0)
    (hstop : n.kind.isDispatch = true → s.bindings.stateLabels ≠ [] →
      n.head.operands = [] ∨ s.bindings.returnTo = none → stop) :
    Meets stop (Lower.finishDispatch n.id) s fun _ s' => ∃ n',
      s'.func.Holds (L ++ ⟨b, args, pre ++ n' :: post⟩ :: R) 0 ∧ Finished s.bindings [] n n' ∧
        s.Edited s' := by
  refine .editStep hf.arena.at_op.getOp ?_
  simp only [OpTree.toOp]
  split
  · rename_i start _ hk
    have hd : n.kind.isDispatch = true := OpKind.isDispatch_iff.mpr ⟨start, hk⟩
    refine .step (t := s) (b := s.bindings) rfl ?_
    split
    · rename_i hl
      refine .edit hf.arena.makeBranch ?_
      rintro _ f' ⟨ha, g⟩
      exact ⟨_, .of_arena ha g.body (by simp), .changed (.straight hk hl), rfl, rfl, g.growsTo⟩
    · rename_i ho hl
      exact .throw (hstop hd hl (.inl ho))
    · rename_i labels state rest ho hl
      cases hret : s.bindings.returnTo with
      | none =>
        have hb : s.bindings.returnBlock n.id = .error (.contractAt n.id .noReturnBlock) := by
          simp [Bindings.returnBlock, hret]
        rw [hb]
        exact .fail rfl (hstop hd hl (.inr hret))
      | some default =>
        have hb : s.bindings.returnBlock n.id = .ok default := by simp [Bindings.returnBlock, hret]
        rw [hb]
        refine .step rfl (.editBind (hf.arena.modifyHead { n.head with
          kind := .transfer (.switchInt default (stateCases start s.bindings.stateLabels)) }
          rfl rfl rfl) ?_)
        rintro _ f₁ ⟨ha₁, g₁⟩
        refine .edit (ha₁.modifyHead { n.head with
          kind := .transfer (.switchInt default (stateCases start s.bindings.stateLabels))
          operands := [state] } rfl rfl rfl) ?_
        rintro _ f₂ ⟨ha₂, g₂⟩
        exact ⟨_, .of_arena ha₂ (g₂.body.trans g₁.body) (by simp),
          .changed (.switched hk ho hl hret), rfl, rfl, g₁.growsTo.trans g₂.growsTo⟩
  · rename_i hk
    refine .pure ⟨n, hf, .kept fun hd => ?_, .refl s⟩
    obtain ⟨start, hs⟩ := OpKind.isDispatch_iff.mp hd
    exact absurd hs fun hs => hk start rfl hs

end

section

variable {B : Bindings} {rest : List OpId} {T T' : List BlockTree} {op : OpId}

/-- The place of an op that is left, before and after. -/
theorem FinishedBlocks.split (hf : FinishedBlocks B rest T T') (hop : op ∈ dispatchesIn T) :
    ∃ L R L' R' b args pre post n pre' post' n', n.id = op ∧
      T = L ++ ⟨b, args, pre ++ n :: post⟩ :: R ∧
      T' = L' ++ ⟨b, args, pre' ++ n' :: post'⟩ :: R' ∧ Finished B rest n n' ∧
      FinishedBlocks B rest L L' ∧ FinishedBlocks B rest R R' ∧
      List.Forall₂ (Finished B rest) pre pre' ∧ List.Forall₂ (Finished B rest) post post' := by
  obtain ⟨C, hC, hop⟩ := List.mem_flatMap.mp hop
  obtain ⟨n, hn, -, rfl⟩ := mem_dispatchesOf.mp hop
  obtain ⟨L, R, rfl⟩ := List.append_of_mem hC
  obtain ⟨L', D, R', rfl, hL, ⟨hid, hargs, hops⟩, hR⟩ := forall₂_split hf
  obtain ⟨b, args, ops⟩ := C
  obtain ⟨b', args', ops'⟩ := D
  obtain rfl : b' = b := hid
  obtain rfl : args' = args := hargs
  obtain ⟨pre, post, rfl⟩ := List.append_of_mem hn
  obtain ⟨pre', n', post', rfl, hpre, hn', hpost⟩ := forall₂_split hops
  exact ⟨L, R, L', R', b', args', pre, post, n, pre', post', n', rfl, rfl, rfl, hn', hL, hR, hpre,
    hpost⟩

theorem FinishedBlocks.drop (hf : FinishedBlocks B (op :: rest) T T')
    (hT : op ∉ (T.flatMap (·.ops)).map (·.id)) : FinishedBlocks B rest T T' := by
  induction hf with
  | nil => exact .nil
  | cons hC _ ih =>
    rw [List.flatMap_cons, List.map_append, List.mem_append, not_or] at hT
    exact .cons ⟨hC.1, hC.2.1, forall₂_drop hC.2.2 hT.1⟩ (ih hT.2)

/-- One more dispatch is finished. -/
theorem FinishedBlocks.step {L R L' R' : List BlockTree} {b : BlockId} {args : List ValueId}
    {pre post pre' post' : List OpTree} {n n' n'' : OpTree} (hn : n.id = op)
    (hnodup : (((L ++ ⟨b, args, pre ++ n :: post⟩ :: R).flatMap (·.ops)).map (·.id)).Nodup)
    (hL : FinishedBlocks B (op :: rest) L L') (hR : FinishedBlocks B (op :: rest) R R')
    (hpre : List.Forall₂ (Finished B (op :: rest)) pre pre')
    (hpost : List.Forall₂ (Finished B (op :: rest)) post post') (hn' : Finished B (op :: rest) n n')
    (hn'' : Finished B [] n' n'') :
    FinishedBlocks B rest (L ++ ⟨b, args, pre ++ n :: post⟩ :: R)
      (L' ++ ⟨b, args, pre' ++ n'' :: post'⟩ :: R') := by
  -- the ids before and after the op are different from its own
  have hids : (((L.flatMap (·.ops)).map (·.id) ++ pre.map (·.id)) ++
      n.id :: (post.map (·.id) ++ (R.flatMap (·.ops)).map (·.id))).Nodup := by
    simpa using hnodup
  have hnot := (List.nodup_middle.mp hids).notMem
  rw [hn] at hnot
  simp only [List.mem_append, not_or] at hnot
  obtain ⟨⟨hnL, hnpre⟩, hnpost, hnR⟩ := hnot
  exact List.rel_append (hL.drop hnL) (.cons ⟨rfl, rfl, List.rel_append (forall₂_drop hpre hnpre)
    (.cons (hn'.finish hn'').mono (forall₂_drop hpost hnpost))⟩ (hR.drop hnR))

/-- The ids of the ops at the top level. -/
theorem Func.Holds.nodup_ops {f : Func} {e : Entries} (hf : f.Holds T e) :
    ((T.flatMap (·.ops)).map (·.id)).Nodup := by
  have hwalk := (Arena.left (Arena.right hf)).nodup_walkBlocks fun _ => false
  have hops : walkBlocks (fun _ => false) T = T.flatMap (·.ops) := by
    have hwalk (n : OpTree) : n.walk (fun _ => false) = [n] := by
      simp [OpTree.walk_eq, walkRegions]
    simp [walkBlocks, funext hwalk]
  rwa [hops] at hwalk

/-- The dispatches that have been put off are finished. -/
theorem Func.Holds.finishDispatches {stop : Prop} {s : LowerState} (hf : s.func.Holds T 0)
    (hp : ∀ id, id ∈ s.bindings.pending ↔ id ∈ dispatchesIn T)
    (hstop : s.bindings.stateLabels ≠ [] → (∃ C ∈ T, ∃ n ∈ C.ops, n.kind.isDispatch = true ∧
      (n.head.operands = [] ∨ s.bindings.returnTo = none)) → stop) :
    Meets stop Lower.finishDispatches s fun _ s' => ∃ T', s'.func.Holds T' 0 ∧
      FinishedBlocks s'.bindings [] T T' ∧ s'.bindings = s.bindings.clearPending ∧
        s'.stats = s.stats ∧ s.func.GrowsTo s'.func := by
  refine .step (t := s) (b := s.bindings) rfl (.step (t := { s with
    bindings := s.bindings.clearPending }) rfl ?_)
  have hloop := @Meets.forM Stop LowerState stop { s with bindings := s.bindings.clearPending } OpId
    s.bindings.pending Lower.finishDispatch
    (fun rest s' => (∀ id ∈ rest, id ∈ dispatchesIn T) ∧
      LowerState.Edited { s with bindings := s.bindings.clearPending } s' ∧
      ∃ T', s'.func.Holds T' 0 ∧ FinishedBlocks s'.bindings rest T T')
    ⟨fun id hid => (hp id).mp hid, .refl _, T, hf, .start fun id hid => (hp id).mpr hid⟩ ?_
  · refine hloop.mono ?_
    rintro _ s' ⟨-, hed, T', hT', hfin⟩
    exact ⟨T', hT', hfin, hed.bindings, hed.stats, hed.grows⟩
  · rintro op rest s₁ ⟨hrest, hed, T₁, hT₁, hfin⟩
    obtain ⟨L, R, L', R', b, args, pre, post, n, pre', post', n', hid, rfl, rfl, hn', hL, hR, hpre,
      hpost⟩ := hfin.split (hrest op List.mem_cons_self)
    have hid' : n'.id = op := hn'.id_eq.trans hid
    rw [← hid']
    refine (hT₁.finishDispatch ?_).mono ?_
    · intro hd hl ho
      rw [hed.bindings] at hl ho
      cases hn' with
      | kept => exact hstop hl ⟨⟨b, args, pre ++ n :: post⟩, by simp, n, by simp, hd, ho⟩
      | changed hn' => exact absurd hd (by simp [OpTree.kind, hn'.isDispatch.2])
    · rintro _ s₂ ⟨n'', hT₂, hn'', hed₂⟩
      refine ⟨fun id hid => hrest id (List.mem_cons_of_mem _ hid), hed.trans hed₂, _, hT₂, ?_⟩
      rw [hed₂.bindings]
      exact .step hid hf.nodup_ops hL hR hpre hpost hn' hn''

end

/-! ## The whole body -/

/-- The blocks hold flat code only. -/
def AllFlat (T : List BlockTree) : Prop := ∀ C ∈ T, ∀ n ∈ C.ops, n.IsFlat

theorem OpKind.regionSizes_of_not_isStructured {k : OpKind} (hk : k.isStructured = false) :
    k.regionSizes = [] := by
  cases k with
  | construct => cases hk
  | instr => rfl
  | transfer => rfl

theorem FinishedBlocks.allFlat {B : Bindings} {T T' : List BlockTree}
    (hf : FinishedBlocks B [] T T') (hfits : Everywhere OpTree.Fits T) (hq : AllQuiet T) :
    AllFlat T' := by
  intro D hD m hm
  obtain ⟨C, hC, -, -, hops⟩ := forall₂_mem_right hf hD
  obtain ⟨n, hn, hnm⟩ := forall₂_mem_right hops hm
  have hfit : n.Fits := hfits n ⟨C, hC, n, hn, .here⟩
  cases hnm with
  | kept h =>
    have hquiet := hq C hC m hn
    have hs : m.kind.isStructured = false := by
      simpa [OpTree.pending, Bool.eq_false_iff.mpr (fun hd => List.not_mem_nil (h hd))] using hquiet
    exact ⟨hfit.regions_eq_nil (OpKind.regionSizes_of_not_isStructured hs), hs⟩
  | changed hd =>
    obtain ⟨start, hk⟩ := OpKind.isDispatch_iff.mp hd.isDispatch.1
    exact ⟨hfit.regions_eq_nil (by rw [show n.kind = _ from hk]; rfl), hd.isStructured⟩

section

variable {types : TypeTable} {o : LowerOptions} {s s' : LowerState} {T : List BlockTree}

/-- A lowering of a function takes up the constructs `turns`, the last of them first, and finds no
more. -/
def Lower.Turns (types : TypeTable) (o : LowerOptions) (f : Func) (turns : List (Func × OpId)) :
    Prop :=
  ∃ q s, Course types o (0, .start f) turns q ∧ nextConstruct q.1 q.2 = .ok none s

/-- A lowering that comes to its end leaves flat code. What every round keeps holds of the body
before the dispatches are finished. -/
theorem Stage.flatten {I : List (Func × OpId) → LowerState → List BlockTree → Prop} {f : Func}
    (hoff : ∀ {turns s T} ds, I turns s T → I turns (s.putOff ds) T)
    (htick : ∀ {turns s T}, I turns s T → I turns s.tick T)
    (hstep : ∀ {turns s s' L R b args pre post x T'}, Round types o s s' L R b args pre post x T' →
      I turns s (L ++ ⟨b, args, pre ++ x :: post⟩ :: R) → I ((s.func, x.id) :: turns) s' T')
    (h : Stage 0 (.start f) T) (hi : I [] (.start f) T)
    (hs : Lower.flatten types o (.start f) = .ok () s') :
    ∃ turns s₁ T₁ T', Lower.Turns types o f turns ∧ I turns s₁ T₁ ∧ s'.func.Holds T' 0 ∧
      AllFlat T' ∧ FinishedBlocks s'.bindings [] T₁ T' ∧ s'.stats = s₁.stats := by
  have hd : Deferred 0 (.start f) T := ⟨fun id hid => (by cases hid), by simp [dispatchesIn]⟩
  obtain ⟨_, s₀, hget, hs⟩ := bind_eq_ok hs
  cases hget
  obtain ⟨_, s₁, hrounds, hs⟩ := bind_eq_ok hs
  obtain ⟨turns, q, T₁, hcourse, hend, hT₁, hfits, hq, hpending, hi₁⟩ :=
    h.flattenFrom hoff htick hstep hd hi hrounds
  have hdispatches : Meets True Lower.finishDispatches s₁ _ :=
    hT₁.finishDispatches hpending fun _ _ => trivial
  obtain ⟨T', hT', hfin, -, hstats, -⟩ := hdispatches.ok hs
  exact ⟨turns, s₁, T₁, T', ⟨q, s₁, hcourse, hend⟩, hi₁, hT', hfin.allFlat hfits hq, hfin, hstats⟩

end

end Unnest
