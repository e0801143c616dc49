import Unnest.Proofs.Lowering.Jumps
import Unnest.Proofs.Lowering.Layout
/-!
# What is counted

The lowering counts the invokes and landing pads that it makes and the finallys that it copies. Only
flat code at the top level of the body takes exceptions or sends them anywhere; what still lies in a
construct does neither (`Raises`). So a round adds to the counts what its new ops add, and what it
moves or copies adds nothing. The pads that have been settled for ops and for tries stay where they
are (`Lands`) and lead where they led (`padsIn`). A round that clones a finally makes one pad that
leads to the clone, and no other pad ever does (`Counted`).
-/

namespace Unnest

/-- The transfer is a call that can unwind. -/
@[simp] def Transfer.isInvoke : Transfer → Bool
  | .invoke _ _ _ => true
  | _ => false

/-- The op is a call that can unwind. -/
def OpKind.isInvoke : OpKind → Bool
  | .transfer t => t.isInvoke
  | _ => false

theorem OpKind.Calm.isInvoke {k : OpKind} (h : k.Calm) : k.isInvoke = false := by
  cases k with
  | construct | instr => rfl
  | transfer t => cases t <;> simp_all [OpKind.isInvoke]

theorem OpKind.calm_construct (c : Construct) : (OpKind.construct c).Calm := ⟨rfl, rfl⟩

/-- Nothing in the ops, however deep, has to do with exceptions. -/
abbrev AllCalm (ops : List OpTree) : Prop := EachOp (·.kind.Calm) ops

theorem allCalm_of_isCode {ops : List OpTree} (h : ∀ n ∈ ops, n.IsCode) : AllCalm ops := by
  intro n hn m hm
  obtain ⟨⟨hr, -⟩, hcalm⟩ := h n hn
  rw [OpTree.within_iff, hr] at hm
  obtain rfl | ⟨r, hr, -⟩ := hm
  · exact hcalm
  · simp at hr

theorem AllCalm.rename {ops : List OpTree} (ρ : Renaming) (h : AllCalm ops) :
    AllCalm (ops.map (.rename ρ)) :=
  eachOp_rename.mpr fun n hn m hm => by simpa using (h n hn m hm).mapSuccessors ρ.target

theorem EndChanged.allCalm {B B' : BlockTree} (h : EndChanged B B') (hB : AllCalm B.ops) :
    AllCalm B'.ops := by
  obtain ⟨-, -, rfl | ⟨ops, t, mids, t', ho, ho', -, -, hm, ht', -⟩⟩ := h
  · exact hB
  · rw [ho] at hB
    rw [ho']
    exact eachOp_append.mpr ⟨eachOp_append.mpr ⟨(eachOp_append.mp hB).1, allCalm_of_isCode hm⟩,
      allCalm_of_isCode (by simpa using ht')⟩

theorem allCalm_of_endChanged {Bs Bs' : List BlockTree} (h : List.Forall₂ EndChanged Bs Bs')
    (hB : AllCalm (Bs.flatMap (·.ops))) : AllCalm (Bs'.flatMap (·.ops)) := by
  induction h with
  | nil => exact hB
  | cons h _ ih =>
    obtain ⟨hB, hBs⟩ := eachOp_append.mp hB
    exact eachOp_append.mpr ⟨h.allCalm hB, ih hBs⟩

/-! ## Ops that raise and take exceptions -/

/-- Among the ops are so many invokes and so many landing pads, the exceptions of the others and
theirs go to blocks as `P` says, and what lies in the ops has nothing to do with exceptions. -/
structure Raises (P : BlockId → Prop) (invokes pads : Nat) (ops : List OpTree) : Prop where
  invokes : ops.countP (·.kind.isInvoke) = invokes
  pads : ops.countP (·.kind.isLandingPad) = pads
  targets : ∀ n ∈ ops, ∀ u, n.kind.unwind? = some u → P u
  inside : ∀ n ∈ ops, ∀ r ∈ n.regions, Everywhere (·.kind.Calm) r.blocks

namespace Raises

variable {P Q : BlockId → Prop} {i i' p p' : Nat} {ops ops' : List OpTree} {n : OpTree}

theorem of_allCalm (h : AllCalm ops) : Raises P 0 0 ops where
  invokes := List.countP_eq_zero.mpr fun n hn => by simp [(h n hn n .here).isInvoke]
  pads := List.countP_eq_zero.mpr fun n hn => by simp [(h n hn n .here).1]
  targets n hn u hu := by simp [(h n hn n .here).2] at hu
  inside n hn r hr m hm := h n hn m (OpTree.within_iff.mpr (.inr ⟨r, hr, hm⟩))

theorem append (h : Raises P i p ops) (h' : Raises P i' p' ops') :
    Raises P (i + i') (p + p') (ops ++ ops') where
  invokes := by rw [List.countP_append, h.invokes, h'.invokes]
  pads := by rw [List.countP_append, h.pads, h'.pads]
  targets n hn := (List.mem_append.mp hn).elim (h.targets n) (h'.targets n)
  inside n hn := (List.mem_append.mp hn).elim (h.inside n) (h'.inside n)

theorem perm (h : Raises P i p ops) (hp : ops.Perm ops') : Raises P i p ops' where
  invokes := hp.countP_eq _ ▸ h.invokes
  pads := hp.countP_eq _ ▸ h.pads
  targets n hn := h.targets n (hp.mem_iff.mpr hn)
  inside n hn := h.inside n (hp.mem_iff.mpr hn)

theorem mono (h : Raises P i p ops) (ht : ∀ u, P u → Q u) : Raises Q i p ops :=
  ⟨h.invokes, h.pads, fun n hn u hu => ht u (h.targets n hn u hu), h.inside⟩

theorem renameUses (h : Raises P i p ops) (σ : ValueId → ValueId) :
    Raises P i p (ops.map (.rename (.uses σ))) where
  invokes := by simpa [List.countP_map, Function.comp_def] using h.invokes
  pads := by simpa [List.countP_map, Function.comp_def] using h.pads
  targets n hn u hu := by
    obtain ⟨m, hm, rfl⟩ := List.mem_map.mp hn
    exact h.targets m hm u (by simpa using hu)
  inside n hn r hr := by
    obtain ⟨m, hm, rfl⟩ := List.mem_map.mp hn
    rw [OpTree.regions_rename] at hr
    obtain ⟨q, hq, rfl⟩ := List.mem_map.mp hr
    exact everywhere_rename.mpr fun k hk => by simpa using h.inside m hm q hq k hk

/-- A construct neither raises nor takes exceptions itself. -/
theorem of_cons {c : Construct} (hk : n.kind = .construct c) (h : Raises P i p (n :: ops)) :
    Raises P i p ops where
  invokes := by simpa [List.countP_cons, hk, OpKind.isInvoke] using h.invokes
  pads := by simpa [List.countP_cons, hk, OpKind.isLandingPad] using h.pads
  targets m hm := h.targets m (by simp [hm])
  inside m hm := h.inside m (by simp [hm])

theorem leaf {h : Head} (ht : ∀ u, h.kind.unwind? = some u → P u) :
    Raises P h.kind.isInvoke.toNat h.kind.isLandingPad.toNat [.leaf h] where
  invokes := by cases hi : h.kind.isInvoke <;> simp [hi]
  pads := by cases hi : h.kind.isLandingPad <;> simp [hi]
  targets n hn := by
    rw [List.mem_singleton.mp hn]
    exact ht
  inside n hn := by simp [List.mem_singleton.mp hn]

end Raises

/-! ## Pads in the body -/

/-- The block starts with a landing pad. -/
def BlockOf.IsPad (C : BlockTree) : Prop := ∃ n ∈ C.ops.head?, n.kind.isLandingPad = true

/-- The blocks that the last op of a block names. -/
def BlockOf.leadsTo (C : BlockTree) : List BlockId :=
  (C.ops.getLast?.map (·.kind.successors)).getD []

/-- The blocks that start with a landing pad, each with the blocks that it leads to. -/
def padsIn (T : List BlockTree) : List (BlockId × List BlockId) :=
  T.filterMap fun C =>
    if C.ops.head?.any (·.kind.isLandingPad) then some (C.id, C.leadsTo) else none

/-- A block that starts with a landing pad. -/
def Lands (T : List BlockTree) (b : BlockId) : Prop := ∃ l, (b, l) ∈ padsIn T

/-- A landing pad stands at the start of the block, in front of flat code, or nowhere in it. -/
def BlockOf.Formed (C : BlockTree) : Prop :=
  (∀ n ∈ C.ops.tail, n.kind.isLandingPad = false) ∧
    (C.IsPad → ∀ n ∈ C.ops, n.kind.isStructured = false)

/-- The pads are formed as they should be, and the first block is not one. -/
def WellPadded (T : List BlockTree) : Prop :=
  (∀ C ∈ T, BlockOf.Formed C) ∧ ∀ C ∈ T.head?, ¬BlockOf.IsPad C

/-- None of the ops is a landing pad. -/
abbrev Padless (ops : List OpTree) : Prop := ∀ n ∈ ops, n.kind.isLandingPad = false

section

variable {T T' : List BlockTree} {C : BlockTree} {ops ops' : List OpTree}

theorem padless_append : Padless (ops ++ ops') ↔ Padless ops ∧ Padless ops' :=
  List.forall_mem_append

theorem Padless.uses (h : Padless ops) (σ : ValueId → ValueId) :
    Padless (ops.map (.rename (.uses σ))) :=
  List.forall_mem_map.mpr fun n hn => by simpa using h n hn

theorem AllCalm.padless (h : AllCalm ops) : Padless ops := fun n hn => (h n hn n .here).1

theorem BlockOf.isPad_iff : C.IsPad ↔ C.ops.head?.any (·.kind.isLandingPad) = true := by
  cases h : C.ops.head? <;> simp [IsPad, h]

theorem mem_padsIn {p : BlockId × List BlockId} :
    p ∈ padsIn T ↔ ∃ C ∈ T, C.id = p.1 ∧ C.IsPad ∧ C.leadsTo = p.2 := by
  obtain ⟨u, l⟩ := p
  simp only [padsIn, List.mem_filterMap, BlockOf.isPad_iff]
  refine exists_congr fun C => and_congr_right fun _ => ?_
  split <;> simp_all

theorem lands_iff {b : BlockId} : Lands T b ↔ ∃ C ∈ T, C.id = b ∧ C.IsPad := by
  simp only [Lands, mem_padsIn]
  constructor
  · rintro ⟨l, C, hC, hid, hpad, -⟩
    exact ⟨C, hC, hid, hpad⟩
  · rintro ⟨C, hC, hid, hpad⟩
    exact ⟨C.leadsTo, C, hC, hid, hpad, rfl⟩

theorem padsIn_append : padsIn (T ++ T') = padsIn T ++ padsIn T' := List.filterMap_append

theorem BlockOf.not_isPad (h : Padless C.ops) : ¬C.IsPad := by
  rintro ⟨n, hn, hpad⟩
  simp [h n (List.mem_of_mem_head? hn)] at hpad

theorem padsIn_of_padless (h : ∀ C ∈ T, Padless C.ops) : padsIn T = [] :=
  List.filterMap_eq_nil_iff.mpr fun C hC =>
    if_neg (mt BlockOf.isPad_iff.mpr (BlockOf.not_isPad (h C hC)))

theorem padsIn_cons_of_padless (h : Padless C.ops) : padsIn (C :: T) = padsIn T := by
  rw [← List.singleton_append, padsIn_append, padsIn_of_padless (by simpa using h), List.nil_append]

theorem BlockOf.Formed.of_padless (h : Padless C.ops) : C.Formed :=
  ⟨fun n hn => h n (List.mem_of_mem_tail hn), fun hpad => (not_isPad h hpad).elim⟩

theorem BlockOf.Formed.padless (h : C.Formed) (hC : ¬C.IsPad) : Padless C.ops := by
  obtain ⟨id, args, ops⟩ := C
  cases ops with
  | nil => exact fun n hn => by simp at hn
  | cons m ops =>
    refine List.forall_mem_cons.mpr ⟨?_, h.1⟩
    exact Bool.eq_false_iff.mpr fun hm => hC ⟨m, rfl, hm⟩

/-- A block with a construct in it is not a pad. -/
theorem BlockOf.Formed.not_isPad {n : OpTree} (h : C.Formed) (hn : n ∈ C.ops)
    (hs : n.kind.isStructured = true) : ¬C.IsPad := fun hpad => by simp [h.2 hpad n hn] at hs

theorem BlockOf.head?_rename (ρ : Renaming) :
    (C.rename ρ).ops.head? = C.ops.head?.map (.rename ρ) := by simp

theorem BlockOf.isPad_uses (σ : ValueId → ValueId) : (C.rename (.uses σ)).IsPad ↔ C.IsPad := by
  rw [isPad_iff, isPad_iff, head?_rename]
  cases C.ops.head? <;> simp

theorem BlockOf.leadsTo_uses (σ : ValueId → ValueId) :
    (C.rename (.uses σ)).leadsTo = C.leadsTo := by
  unfold leadsTo
  rw [ops_rename, List.getLast?_map]
  cases C.ops.getLast? <;> simp

theorem BlockOf.Formed.uses (h : C.Formed) (σ : ValueId → ValueId) :
    (C.rename (.uses σ)).Formed := by
  refine ⟨fun n hn => ?_, fun hpad n hn => ?_⟩
  · rw [ops_rename, ← List.map_tail] at hn
    obtain ⟨m, hm, rfl⟩ := List.mem_map.mp hn
    simpa using h.1 m hm
  · rw [ops_rename] at hn
    obtain ⟨m, hm, rfl⟩ := List.mem_map.mp hn
    simpa using h.2 ((isPad_uses σ).mp hpad) m hm

theorem padsIn_uses (σ : ValueId → ValueId) (T : List BlockTree) :
    padsIn (T.map (.rename (.uses σ))) = padsIn T := by
  unfold padsIn
  rw [List.filterMap_map]
  refine List.filterMap_congr fun C _ => ?_
  have hpad : (C.rename (.uses σ)).ops.head?.any (·.kind.isLandingPad) =
      C.ops.head?.any (·.kind.isLandingPad) := by
    rw [Bool.eq_iff_iff, ← BlockOf.isPad_iff, ← BlockOf.isPad_iff, BlockOf.isPad_uses]
  simp only [Function.comp_apply, hpad, BlockOf.leadsTo_uses]
  simp

end

/-- What is new in a layout. -/
def Layout.fresh (c : Layout) : List OpTree :=
  c.slots ++ c.mid ++ (c.inner ++ c.tail).flatMap (·.ops)

section

variable {L R : List BlockTree} {b : BlockId} {args : List ValueId} {pre post : List OpTree}
  {x : OpTree} {c : Layout}

theorem atStart_cons (slots : List OpTree) (B : BlockTree) (T : List BlockTree) :
    atStart slots (B :: T) = ⟨B.id, B.args, slots ++ B.ops⟩ :: T := rfl

/-- A layout has the ops that were there before and those that are new. -/
theorem Layout.ops_tree (c : Layout) : ((c.tree L R b args pre post).flatMap (·.ops)).Perm
    (((L ++ ⟨b, args, pre ++ post⟩ :: R).flatMap (·.ops)).map (.rename (.uses c.names)) ++
      c.fresh) := by
  have hstart (T : List BlockTree) (hT : T ≠ []) :
      (atStart c.slots T).flatMap (·.ops) = c.slots ++ T.flatMap (·.ops) := by
    cases T with
    | nil => exact absurd rfl hT
    | cons B T => simp [atStart_cons]
  rw [Layout.tree, hstart _ (by unfold Layout.behind; cases c.next <;> simp), Layout.behind,
    Layout.fresh, ← Multiset.coe_eq_coe]
  cases c.next <;>
    simp only [List.flatMap_append, List.flatMap_cons, List.flatMap_map, List.map_append,
      List.map_flatMap, BlockOf.ops_rename, ← Multiset.coe_add] <;> abel

/-- The names of the blocks after a round. -/
theorem Layout.ids_tree (c : Layout) : ((c.tree L R b args pre post).map (·.id)).Perm
    ((L ++ ⟨b, args, pre ++ x :: post⟩ :: R).map (·.id) ++ (c.next.map (·.1)).toList ++
      (c.inner ++ c.tail).map (·.id)) := by
  have hids : (c.tree L R b args pre post).map (·.id) = L.map (·.id) ++ b :: (c.inner.map (·.id) ++
      ((c.next.map (·.1)).toList ++ (R.map (·.id) ++ c.tail.map (·.id)))) := by
    unfold Layout.tree Layout.behind
    cases L <;> cases c.next <;> simp [atStart_cons, BlockOf.rename, Function.comp_def]
  rw [hids, ← Multiset.coe_eq_coe]
  simp only [List.map_append, List.map_cons, ← Multiset.coe_add, ← Multiset.cons_coe,
    ← Multiset.singleton_add]
  abel

/-- What comes to the start of the first block does not make a pad of it. -/
theorem WellPadded.atStart {slots : List OpTree} {T : List BlockTree} (h : WellPadded T)
    (hs : Padless slots) : WellPadded (atStart slots T) ∧ padsIn (atStart slots T) = padsIn T := by
  cases T with
  | nil => exact ⟨h, rfl⟩
  | cons B T =>
    have hB : Padless B.ops := (h.1 B (by simp)).padless (h.2 B rfl)
    have hstart : Padless (slots ++ B.ops) := padless_append.mpr ⟨hs, hB⟩
    rw [atStart_cons]
    refine ⟨⟨List.forall_mem_cons.mpr ⟨.of_padless hstart, fun C hC => h.1 C (by simp [hC])⟩,
      ?_⟩, ?_⟩
    · rintro C ⟨⟩
      exact BlockOf.not_isPad hstart
    · rw [padsIn_cons_of_padless hB, padsIn_cons_of_padless hstart]

/-- The blocks from the one of the construct on: one that ends with the new ops, those that are new,
and those that were behind it. -/
theorem Layout.exists_behind (c : Layout) (R : List BlockTree) (b : BlockId) (args : List ValueId)
    (hmid : Padless c.mid) (hpre : Padless pre) (hpost : Padless post) :
    ∃ B N, c.behind R b args pre post = B :: (c.inner ++ N ++ (R ++ c.tail)) ∧
      Padless (BlockOf.ops B) ∧ ∀ C ∈ N, Padless (BlockOf.ops C) := by
  have hends : Padless (pre ++ c.mid) := padless_append.mpr ⟨hpre, hmid⟩
  unfold Layout.behind
  cases c.next with
  | none =>
    exact ⟨⟨b, args, pre ++ c.mid ++ post⟩, [], by simp, padless_append.mpr ⟨hends, hpost⟩, by simp⟩
  | some next =>
    exact ⟨⟨b, args, pre ++ c.mid⟩, [⟨next.1, next.2, post⟩], by simp, hends, by simpa using hpost⟩

/-- A layout has the pads that were there before and those that are new. -/
theorem Layout.pads_tree (h : WellPadded (L ++ ⟨b, args, pre ++ x :: post⟩ :: R))
    (hx : x.kind.isStructured = true) (hnew : Padless (c.slots ++ c.mid))
    (hinner : ∀ C ∈ c.inner ++ c.tail, C.Formed) :
    WellPadded (c.tree L R b args pre post) ∧ (padsIn (c.tree L R b args pre post)).Perm
      (padsIn (L ++ ⟨b, args, pre ++ x :: post⟩ :: R) ++ padsIn (c.inner ++ c.tail)) := by
  have hblock := h.1 ⟨b, args, pre ++ x :: post⟩ (by simp)
  have hops : Padless (pre ++ x :: post) := hblock.padless (hblock.not_isPad (by simp) hx)
  obtain ⟨hpre, hpost⟩ := padless_append.mp hops
  obtain ⟨hslots, hmid⟩ := padless_append.mp hnew
  obtain ⟨B, N, hbehind, hB, hN⟩ := c.exists_behind (R.map (.rename (.uses c.names))) b args hmid
    (hpre.uses c.names) (Padless.uses (List.forall_mem_cons.mp hpost).2 c.names)
  have hwell : WellPadded (L.map (.rename (.uses c.names)) ++
      B :: (c.inner ++ N ++ (R.map (.rename (.uses c.names)) ++ c.tail))) := by
    constructor
    · have hold := h.1
      simp only [List.forall_mem_append, List.forall_mem_cons, List.forall_mem_map] at hold hinner ⊢
      exact ⟨fun C hC => (hold.1 C hC).uses _, .of_padless hB,
        ⟨hinner.1, fun C hC => .of_padless (hN C hC)⟩, fun C hC => (hold.2.2 C hC).uses _, hinner.2⟩
    · cases L with
      | nil =>
        rintro C ⟨⟩
        exact BlockOf.not_isPad hB
      | cons C L =>
        rintro D ⟨⟩
        exact mt (BlockOf.isPad_uses _).mp (h.2 C rfl)
  obtain ⟨htree, hpads⟩ := hwell.atStart hslots
  rw [Layout.tree, hbehind]
  refine ⟨htree, ?_⟩
  rw [hpads, ← Multiset.coe_eq_coe]
  simp only [padsIn_append, padsIn_uses, padsIn_cons_of_padless hB,
    padsIn_cons_of_padless (C := ⟨b, args, _⟩) hops, padsIn_of_padless hN, ← Multiset.coe_add,
    Multiset.coe_nil]
  abel

end

/-! ## The pads of a try -/

section

variable {P : BlockId → Prop} {f f' : Func} {outer : Option BlockId}

theorem CatchCode.raises {Bc : BlockTree} {type : Option (Ty × TypeToken)}
    {cleanup landing : Option BlockId} {payload : Option ValueId} {pads : List BlockTree}
    (h : CatchCode f f' Bc type cleanup outer landing payload pads)
    (hP : ∀ u, outer = some u → P u) :
    Raises P 0 Bc.holdsOps.toNat (pads.flatMap (·.ops)) ∧
      ∀ u, landing = some u → cleanup = some u ∨ ∃ C ∈ pads, C.id = u ∧ C.IsPad := by
  cases h with
  | absent h => exact ⟨by simpa [h] using .of_allCalm eachOp_nil, fun u hu => .inl hu⟩
  | present h hl =>
    rw [h]
    cases hl with
    | any =>
      refine ⟨⟨rfl, rfl, ?_, by simp⟩, fun u hu => .inr ⟨_, List.mem_singleton_self _, ?_⟩⟩
      · simp [OpKind.unwind?]
      · exact ⟨Option.some.inj hu, _, rfl, rfl⟩
    | typed =>
      refine ⟨?_, fun u hu => .inr ⟨_, List.mem_cons_self, Option.some.inj hu, _, rfl, rfl⟩⟩
      cases cleanup with
      | some pad => exact ⟨rfl, rfl, by simp [OpKind.unwind?, Lower.mismatchTransfer], by simp⟩
      | none =>
        cases outer with
        | some u =>
          exact ⟨rfl, rfl, by simpa [OpKind.unwind?, Lower.mismatchTransfer] using hP, by simp⟩
        | none => exact ⟨rfl, rfl, by simp [OpKind.unwind?, Lower.mismatchTransfer], by simp⟩

/-- The pad of the catches leads to the catches or to blocks beside it. -/
theorem CatchCode.leads {Bc : BlockTree} {type : Option (Ty × TypeToken)}
    {cleanup landing : Option BlockId} {payload : Option ValueId} {pads : List BlockTree}
    (h : CatchCode f f' Bc type cleanup outer landing payload pads) :
    (∀ C ∈ pads, C.Formed) ∧ ∀ p ∈ padsIn pads, p.2 ≠ [] ∧
      ∀ e ∈ p.2, e = Bc.id ∧ Bc.holdsOps = true ∨ e ∈ pads.map (·.id) := by
  cases h with
  | absent => simp [padsIn]
  | present h hl =>
    cases hl with
    | any =>
      simp [padsIn, BlockOf.Formed, BlockOf.leadsTo, OpKind.isLandingPad, OpKind.isStructured,
        OpKind.successors, Transfer.successors, h]
    | typed =>
      simp [padsIn, BlockOf.Formed, BlockOf.IsPad, BlockOf.leadsTo, OpKind.isLandingPad,
        OpKind.isStructured, OpKind.successors, Transfer.successors]

theorem Lower.CleanupExit.unwind?_of {strategy : UnwindStrategy} {u : BlockId}
    (h : (CleanupExit.of strategy outer).transfer.unwind? = some u) : outer = some u := by
  cases strategy <;> cases outer <;> exact h

theorem CleanupCode.raises {strategy : UnwindStrategy} {Bf : BlockTree} {cleanup : Option BlockId}
    {K : List BlockTree} {copies : List (OpId × OpId)}
    (h : CleanupCode f f' (.of strategy outer) Bf cleanup K copies)
    (hP : ∀ u, outer = some u → P u) (hfits : EachOp OpTree.Fits Bf.ops) (hB : AllCalm Bf.ops) :
    Raises P 0 Bf.holdsOps.toNat (K.flatMap (·.ops)) ∧
      ∀ u, cleanup = some u → ∃ C ∈ K, C.id = u ∧ C.IsPad := by
  cases h with
  | absent h => exact ⟨by simpa [h] using .of_allCalm eachOp_nil, by simp⟩
  | @present m ρ pad i j k exception payload h =>
    refine ⟨?_, fun u hu => ⟨_, List.mem_cons_self, Option.some.inj hu, _, rfl, rfl⟩⟩
    have hpad : Raises P 0 1 (cleanupPad (.of strategy outer) pad (ρ.block Bf.id) i j k exception
        payload).ops := by
      unfold cleanupPad
      split <;> exact ⟨rfl, rfl, by simp [OpKind.unwind?], by simp⟩
    have hcopy : AllCalm (Bf.rename ρ).ops := by simpa using hB.rename ρ
    have hclone : Raises P 0 0 ((Bf.rename ρ).passOn (.of strategy outer) exception).ops := by
      obtain hend | ⟨ops, t, hd, ho, -, hend, hk⟩ := passOn_ops (B := Bf.rename ρ)
        (.of strategy outer) exception (hfits.rename_fits ρ)
      · rw [hend]
        exact .of_allCalm hcopy
      · rw [hend]
        rw [ho] at hcopy
        have hleaf : Raises P _ _ [.leaf hd] := .leaf fun u hu => hP u
          (Lower.CleanupExit.unwind?_of (by simpa [hk, OpKind.unwind?] using hu))
        have hnone : hd.kind.isInvoke = false ∧ hd.kind.isLandingPad = false := by
          rw [hk]
          cases Lower.CleanupExit.of strategy outer <;> exact ⟨rfl, rfl⟩
        rw [hnone.1, hnone.2] at hleaf
        exact (Raises.of_allCalm (eachOp_append.mp hcopy).1).append hleaf
    simpa [h] using hpad.append hclone

/-- The pad of a finally leads to the clone behind it. -/
theorem CleanupCode.leads {strategy : UnwindStrategy} {Bf : BlockTree} {cleanup : Option BlockId}
    {K : List BlockTree} {copies : List (OpId × OpId)}
    (h : CleanupCode f f' (.of strategy outer) Bf cleanup K copies)
    (hfits : EachOp OpTree.Fits Bf.ops) (hB : AllCalm Bf.ops) :
    Bf.holdsOps = false ∧ K = [] ∨ Bf.holdsOps = true ∧ ∃ B C, K = [B, C] ∧ BlockOf.Formed B ∧
      Padless (BlockOf.ops C) ∧ padsIn K = [(B.id, [C.id])] := by
  cases h with
  | absent h => exact .inl ⟨h, rfl⟩
  | @present m ρ pad i j k exception payload h =>
    have hclone : Padless ((Bf.rename ρ).passOn (.of strategy outer) exception).ops := by
      have hcopy : Padless (Bf.rename ρ).ops := by simpa using (hB.rename ρ).padless
      obtain hend | ⟨ops, t, hd, ho, -, hend, hk⟩ := passOn_ops (B := Bf.rename ρ)
        (.of strategy outer) exception (hfits.rename_fits ρ)
      · rwa [hend]
      · rw [ho] at hcopy
        rw [hend]
        refine padless_append.mpr ⟨(padless_append.mp hcopy).1, List.forall_mem_singleton.mpr ?_⟩
        simp [hk, OpKind.isLandingPad]
    have hid : ((Bf.rename ρ).passOn (.of strategy outer) exception).id = ρ.block Bf.id :=
      BlockOf.id_mapEnd ..
    refine .inr ⟨h, _, _, rfl, ?_, hclone, ?_⟩
    · unfold cleanupPad
      split <;> simp [BlockOf.Formed, OpKind.isLandingPad, OpKind.isStructured]
    · rw [hid, ← List.singleton_append, padsIn_append, padsIn_of_padless (T := [BlockOf.passOn ..])
        (List.forall_mem_singleton.mpr hclone)]
      simp [padsIn, cleanupPad, BlockOf.leadsTo, OpKind.isLandingPad, OpKind.successors,
        Transfer.successors]

end

/-! ## What is settled about pads -/

section

variable {P : BlockId → Prop} {t : Table OpId BlockId}

namespace Bindings

/-- What throws goes to blocks as `P` says, and the pads of the tries are those in `q`. -/
def Sends (P : BlockId → Prop) (q : Table OpId Pads) (B : Bindings) : Prop :=
  B.unwinds.All P ∧ B.padsOf = q

variable {q : Table OpId Pads} {B : Bindings}

theorem Sends.foldl {α : Type} {step : Bindings → α → Bindings}
    (hs : ∀ B a, B.Sends P q → (step B a).Sends P q) (l : List α) (h : B.Sends P q) :
    (l.foldl step B).Sends P q :=
  List.foldlRecOn l step h fun B hB a _ => hs B a hB

theorem Sends.copyOp (old new : OpId) (h : B.Sends P q) : (B.copyOp old new).Sends P q := by
  refine ⟨?_, h.2⟩
  change (copyEntry B.unwinds old new).All P
  unfold copyEntry
  split
  · exact h.1.insert new (h.1 old _ ‹_›)
  · exact h.1

variable (op : OpId) (Bb Bc Bf : BlockTree)

theorem Sends.surround (h : B.Sends P q) : (B.surround op Bb Bc Bf).Sends P q := by
  have henclose (placement : Placement) (Bs : List BlockTree) {B : Bindings} (h : B.Sends P q) :
      (B.enclose op placement Bs).Sends P q := .foldl (by intro _ _ h; exact h) _ h
  exact henclose _ _ (henclose _ _ (henclose _ _ h))

/-- What throws in a try goes to the pads of the try, or where it went before. -/
theorem Sends.layOut {c : TryCode} (h : B.Sends P q) (hl : ∀ u, c.landing = some u → P u)
    (hc : ∀ u, c.cleanup = some u → P u) :
    (B.layOut op Bb Bc Bf c).Sends P (q.insert op ⟨c.landing, c.cleanup⟩) := by
  have hunwind (ops : List OpTree) {pad : Option BlockId} (hpad : ∀ u, pad = some u → P u)
      {B : Bindings} (h : B.Sends P q) : (pad.elim B fun u => B.unwindAll ops u).Sends P q := by
    cases pad with
    | none => exact h
    | some u => exact .foldl (by intro _ n h; exact ⟨h.1.insert n.id (hpad u rfl), h.2⟩) _ h
  have hmarks (ms : List OpTree) {B : Bindings} (h : B.Sends P q) : (c.payload.elim B fun payload =>
      ms.foldl (fun b m => b.setPayload m.id payload) B).Sends P q := by
    cases c.payload with
    | none => exact h
    | some payload => exact .foldl (by intro _ _ h; exact h) ms h
  have hcatch (ids : List OpId) {B : Bindings} (h : B.Sends P q) :
      (ids.foldl enterCatch B).Sends P q := .foldl (by intro _ _ h; exact h) ids h
  have hcopies (ps : List (OpId × OpId)) {B : Bindings} (h : B.Sends P q) :
      (B.copyAll ps).Sends P q := .foldl (by intro _ p h; exact h.copyOp p.1 p.2) ps h
  have hpads {B : Bindings} (h : B.Sends P q) :
      (B.setPads op ⟨c.landing, c.cleanup⟩).Sends P (q.insert op ⟨c.landing, c.cleanup⟩) :=
    ⟨h.1, congrArg (·.insert op ⟨c.landing, c.cleanup⟩) h.2⟩
  exact hpads (hunwind _ hc (hunwind _ hl (hmarks _ (hcopies _ (hcatch _ (h.surround ..))))))

/-- An exception that leaves a try goes to a pad that was settled for another try. -/
theorem of_outerPad {u : BlockId} (h : B.outerPad op = some u) :
    ∃ t p, B.padsOf.get? t = some p ∧ (p.landing = some u ∨ p.cleanup = some u) := by
  unfold outerPad at h
  generalize B.parents.entries.length = limit at h
  induction limit generalizing op with
  | zero => cases h
  | succ limit ih =>
    unfold outerPadWithin at h
    split at h
    · cases h
    · rename_i parent placement _
      split at h
      · rename_i pad hpad
        cases h
        unfold pads at hpad
        cases ht : B.padsOf.get? parent with
        | none => cases placement <;> simp [ht, Pads.serving] at hpad
        | some p =>
          refine ⟨parent, p, ht, ?_⟩
          cases placement <;> simp_all [Pads.serving]
      · exact ih parent h

end Bindings

theorem RouteCode.sends {n : Nat} {op : OpId} {Bf : BlockTree} {escapes : List OpId}
    {B B' : Bindings} {slot : Option ValueId} {ops : List OpTree} {q : Table OpId Pads}
    (hr : RouteCode n op Bf escapes B slot B' ops) (h : B.Sends P q) : B'.Sends P q := by
  cases hr with
  | absent => exact h
  | present =>
    refine List.foldlRecOn
      (motive := fun p : Bindings × List (Int64 × Destination) => p.1.Sends P q)
      escapes _ h fun p hp id _ => ?_
    unfold Lower.assignCode
    dsimp only
    split <;> exact hp

end

/-! ## A round -/

/-- The pads of a try are as `P` says. -/
def Pads.All (P : BlockId → Prop) (p : Pads) : Prop :=
  ∀ u, p.landing = some u ∨ p.cleanup = some u → P u

/-- The entry of a clone that was made of a finally in one of the turns. -/
def Lower.Cloned (turns : List (Func × OpId)) (e : BlockId) : Prop :=
  ∃ t ∈ turns, ClonesFinal t.1 t.2 e

open scoped Classical in
/-- So much is known about the exceptions in a body that is being lowered. -/
structure Counted (turns : List (Func × OpId)) (s : LowerState) (T : List BlockTree) : Prop where
  raises : Raises (Lands T) s.stats.invokes s.stats.landingPads (T.flatMap (·.ops))
  unwinds : s.bindings.unwinds.All (Lands T)
  tries : s.bindings.padsOf.All (Pads.All (Lands T))
  wellPadded : WellPadded T
  leads : ∀ p ∈ padsIn T, p.2 ≠ [] ∧ ∀ e ∈ p.2, e ∈ T.map (·.id)
  entries : ∀ e, Lower.Cloned turns e → e ∈ T.map (·.id)
  /-- The clones are counted by the pads that enter them. -/
  clones : (padsIn T).countP (fun p => ∃ e ∈ p.2, Lower.Cloned turns e) = s.stats.cleanupClones

open scoped Classical in
/-- The pads of a layout lead to blocks that are new, and one of them to the clone of a finally if
there is one. -/
structure Layout.Padded (s s' : LowerState) (op : OpId) (c : Layout) : Prop where
  padless : Padless (c.slots ++ c.mid)
  formed : ∀ C ∈ c.inner ++ c.tail, C.Formed
  leads : ∀ p ∈ padsIn (c.inner ++ c.tail), p.2 ≠ [] ∧
    ∀ e ∈ p.2, e ∈ (c.inner ++ c.tail).map (·.id)
  entries : ∀ e, Lower.ClonesFinal s.func op e → e ∈ (c.inner ++ c.tail).map (·.id)
  clones : s'.stats.cleanupClones = s.stats.cleanupClones +
    (padsIn (c.inner ++ c.tail)).countP fun p => ∃ e ∈ p.2, Lower.ClonesFinal s.func op e

section

variable {types : TypeTable} {o : LowerOptions} {s s' : LowerState} {P : BlockId → Prop}
  {L R T' : List BlockTree} {b : BlockId} {args : List ValueId} {pre post : List OpTree}
  {x : OpTree} {c : Layout}

theorem throwTransfer_unwind? (u : Option BlockId) : (throwTransfer u).unwind? = u := by
  cases u <;> rfl

/-- All but the pads and the clone of a try is code that was in the try, and flat code. -/
theorem LoweredTry.allCalm {h : Head} {Bb Bc Bf : BlockTree} {c : TryCode}
    (hl : LoweredTry types o.unwind s s' h Bb Bc Bf c)
    (hfits : ∀ B ∈ [Bb, Bc, Bf], EachOp OpTree.Fits B.ops)
    (hB : ∀ B ∈ [Bb, Bc, Bf], AllCalm B.ops) :
    AllCalm c.slotOps ∧ AllCalm c.body.ops ∧ AllCalm (c.catches.flatMap (·.ops)) ∧
      AllCalm (c.finals.flatMap (·.ops)) ∧ AllCalm (c.made.flatMap (·.ops)) := by
  refine ⟨allCalm_of_isCode hl.route.isCode,
    (hl.body_endChanged (hfits Bb (by simp))).allCalm (hB Bb (by simp)), ?_, ?_, ?_⟩
  · refine allCalm_of_endChanged (hl.catches_endChanged (hfits Bc (by simp))) ?_
    cases Bc.holdsOps
    · exact eachOp_nil
    · simpa using hB Bc (by simp)
  · have hend := hl.finals
    generalize c.finals = Fs at hend ⊢
    generalize c.made = made at hend
    generalize c.slot = slot at hend
    cases hend with
    | absent => exact eachOp_nil
    | present _ hF =>
      simpa using (EndChanged.of_finalEnd (hfits Bf (by simp)) hF).allCalm (hB Bf (by simp))
  · refine allCalm_of_isCode fun n hn => ?_
    obtain ⟨B, hB, hn⟩ := List.mem_flatMap.mp hn
    exact hl.finals.allCode B hB n hn

theorem LoweredTry.raises {h : Head} {Bb Bc Bf : BlockTree} {c : TryCode}
    (hl : LoweredTry types o.unwind s s' h Bb Bc Bf c)
    (hfits : ∀ B ∈ [Bb, Bc, Bf], EachOp OpTree.Fits B.ops) (hB : ∀ B ∈ [Bb, Bc, Bf], AllCalm B.ops)
    (hP : s.bindings.padsOf.All (Pads.All P)) :
    Raises P 0 (Bc.holdsOps.toNat + Bf.holdsOps.toNat) (c.slotOps ++
      [.leaf ⟨c.branch, .transfer (.br c.body.id), [], [], none⟩] ++ (c.body :: (c.pads ++
        c.catches ++ c.finals ++ c.clone ++ c.made)).flatMap (·.ops)) := by
  have houter : ∀ u, (s.bindings.surround h.id Bb Bc Bf).outerPad h.id = some u → P u := by
    intro u hu
    obtain ⟨t, p, ht, hp⟩ := Bindings.of_outerPad _ hu
    have hsame : (s.bindings.surround h.id Bb Bc Bf).Sends (fun _ => True) s.bindings.padsOf :=
      .surround h.id Bb Bc Bf ⟨fun _ _ _ => trivial, rfl⟩
    exact hP t p (hsame.2 ▸ ht) u hp
  obtain ⟨hslots, hbody, hcatches, hfinals, hmade⟩ := hl.allCalm hfits hB
  have hbranch : AllCalm [.leaf ⟨c.branch, .transfer (.br c.body.id), [], [], none⟩] :=
    allCalm_of_isCode (by simp)
  obtain ⟨hpads, -⟩ := hl.pads.raises houter
  obtain ⟨hclone, -⟩ := hl.clone.raises houter (hfits Bf (by simp)) (hB Bf (by simp))
  have hall := ((Raises.of_allCalm hslots).append (.of_allCalm hbranch)).append
    ((Raises.of_allCalm hbody).append ((((hpads.append (.of_allCalm hcatches)).append
      (.of_allCalm hfinals)).append hclone).append (.of_allCalm hmade)))
  simpa [add_assoc] using hall

theorem allCalm_placed {mid : List OpTree} {next : Option (BlockId × List ValueId)}
    {tail : List BlockTree} (hm : ∀ n ∈ mid, n.IsCode) (ht : AllCode tail) :
    AllCalm ({ mid, next, tail } : Layout).fresh := by
  refine allCalm_of_isCode fun n hn => ?_
  simp only [Layout.fresh, List.nil_append, List.mem_append, List.mem_flatMap] at hn
  obtain hn | ⟨B, hB, hn⟩ := hn
  · exact hm n hn
  · exact ht B hB n hn

theorem allCalm_opened {σ : ValueId → ValueId} {mid : List OpTree} {inner : List BlockTree}
    {next : Option (BlockId × List ValueId)} (hm : ∀ n ∈ mid, n.IsCode)
    (hi : List.Forall₂ EndChanged
      ((x.regions.flatMap (·.blocks)).map (BlockOf.rename (.uses σ))) inner)
    (hx : ∀ r ∈ x.regions, Everywhere (·.kind.Calm) r.blocks) :
    AllCalm ({ names := σ, mid, inner, next } : Layout).fresh := by
  simp only [Layout.fresh, List.nil_append, List.append_nil]
  refine eachOp_append.mpr ⟨allCalm_of_isCode hm, allCalm_of_endChanged hi ?_⟩
  rintro n hn m hm
  obtain ⟨B, hB, hn⟩ := List.mem_flatMap.mp hn
  obtain ⟨C, hC, rfl⟩ := List.mem_map.mp hB
  obtain ⟨r, hr, hC⟩ := List.mem_flatMap.mp hC
  exact AllCalm.rename _ ((hx r hr).eachOp hC) n (by simpa using hn) m hm

/-- What is new adds to the counts, and its exceptions go to pads that were settled before. -/
theorem Lays.raises (hl : Lays types o s s' x c) (hfits : ∀ m : OpTree, m.Within x → m.Fits)
    (hx : ∀ r ∈ x.regions, Everywhere (·.kind.Calm) r.blocks) (hu : s.bindings.unwinds.All P)
    (hp : s.bindings.padsOf.All (Pads.All P)) :
    ∃ i p, Raises P i p c.fresh ∧ s'.stats.invokes = s.stats.invokes + i ∧
      s'.stats.landingPads = s.stats.landingPads + p := by
  have hsame {s s' : LowerState} (h : s'.raising = s.raising) :
      s'.stats.invokes = s.stats.invokes + 0 ∧ s'.stats.landingPads = s.stats.landingPads + 0 := by
    simp_all [LowerState.raising]
  cases hl with
  | placed _ _ hm ht _ hc => exact ⟨0, 0, .of_allCalm (allCalm_placed hm ht), hsame hc⟩
  | @thrown h next hk he =>
    have hleaf : Raises P _ _ [.leaf { h with
        kind := .transfer (throwTransfer (s.bindings.unwind? h.id)) }] :=
      .leaf fun u hu' => hu h.id u ((throwTransfer_unwind? _).symm.trans hu')
    refine ⟨0, 0, ?_, hsame he.raising⟩
    cases hunwind : s.bindings.unwind? h.id <;> rw [hunwind] at hleaf <;>
      simpa [Layout.fresh, throwTransfer, OpKind.isInvoke, OpKind.isLandingPad] using hleaf
  | @called h _ callee plain k next hk hc hcode hb hs =>
    have hsettled : ∀ u, s.bindings.unwind? h.id = some u → P u := hu h.id
    generalize s.bindings.unwind? h.id = unwind at hcode hs hsettled
    have htarget : ∀ u, k.unwind? = some u → P u := by
      cases hcode with
      | plain => simp [OpKind.unwind?]
      | invoke normal unwind => exact hsettled
    have hleaf := Raises.leaf (h := { h with kind := k }) htarget
    have hpad : k.isLandingPad = false := by
      cases hcode with
      | plain => cases hc <;> rfl
      | invoke => rfl
    refine ⟨_, 0, by simpa [Layout.fresh, hpad] using hleaf, ?_, by rw [hs]; rfl⟩
    rw [hs]
    cases hcode <;> rfl
  | resumed _ _ hc =>
    exact ⟨0, 0, .of_allCalm (allCalm_of_isCode (by simp [Layout.fresh])), hsame hc⟩
  | opened _ _ _ hm hi _ hc => exact ⟨0, 0, .of_allCalm (allCalm_opened hm hi hx), hsame hc⟩
  | tried hk hl =>
    have hin := (within_mk_iff.mp hfits).2
    simp only [List.forall_mem_cons, everywhere_cons] at hin
    simp only [OpTree.regions_mk, List.forall_mem_cons, everywhere_cons] at hx
    have hnew := hl.raises (by simp [hin.1.1, hin.2.1.1, hin.2.2.1.1])
      (by simp [hx.1.1, hx.2.1.1, hx.2.2.1.1]) hp
    refine ⟨0, _, by simpa [Layout.fresh] using hnew, ?_⟩
    rw [hl.stats]
    exact ⟨rfl, add_assoc ..⟩

/-- Where there are no pads, nothing is cloned. -/
theorem Layout.Padded.of_padless {op : OpId} (h : Padless c.fresh)
    (hno : ∀ e, ¬Lower.ClonesFinal s.func op e)
    (hs : s'.stats.cleanupClones = s.stats.cleanupClones) : c.Padded s s' op := by
  obtain ⟨hnew, hinner⟩ := padless_append.mp h
  have hinner : ∀ C ∈ c.inner ++ c.tail, Padless C.ops :=
    fun C hC n hn => hinner n (List.mem_flatMap.mpr ⟨C, hC, hn⟩)
  have hnone : padsIn (c.inner ++ c.tail) = [] := padsIn_of_padless hinner
  exact ⟨hnew, fun C hC => .of_padless (hinner C hC), by simp [hnone],
    fun e he => (hno e he).elim, by simp [hnone, hs]⟩

/-- The pad of the catches of a try enters the catches, the pad of its finally the clone. -/
theorem LoweredTry.padded {h : Head} {Bb Bc Bf : BlockTree} {c : TryCode}
    (hl : LoweredTry types o.unwind s s' h Bb Bc Bf c) (hk : h.kind = .construct .tryCatch)
    (hfits : ∀ B ∈ [Bb, Bc, Bf], EachOp OpTree.Fits B.ops) (hB : ∀ B ∈ [Bb, Bc, Bf], AllCalm B.ops)
    (hnodup : ((c.body :: (c.pads ++ c.catches ++ c.finals ++ c.clone ++ c.made)).map
      (·.id)).Nodup) :
    Layout.Padded s s' h.id
      { slots := c.slotOps
        mid := [.leaf ⟨c.branch, .transfer (.br c.body.id), [], [], none⟩]
        inner := c.body :: (c.pads ++ c.catches ++ c.finals ++ c.clone ++ c.made)
        next := some (c.next, []) } := by
  classical
  obtain ⟨hslots, hbody, hcatches, hfinals, hmade⟩ := hl.allCalm hfits hB
  have hplain {Bs : List BlockTree} (h : AllCalm (Bs.flatMap (·.ops))) : ∀ C ∈ Bs, Padless C.ops :=
    fun C hC n hn => h.padless n (List.mem_flatMap.mpr ⟨C, hC, hn⟩)
  obtain ⟨hformed, hleads⟩ := hl.pads.leads
  have hcloned := hl.cloned hk
  obtain ⟨hclone, hcloneLeads, hlength⟩ : (∀ C ∈ c.clone, C.Formed) ∧
      (∀ p ∈ padsIn c.clone, p.2 ≠ [] ∧
        ∀ e ∈ p.2, e ∈ c.clone.map (·.id) ∧ Lower.ClonesFinal s.func h.id e) ∧
      (padsIn c.clone).length = Bf.holdsOps.toNat := by
    simp only [hcloned]
    obtain ⟨hno, hK⟩ | ⟨hyes, B, C, hK, hB, hC, hp⟩ :=
      hl.clone.leads (hfits Bf (by simp)) (hB Bf (by simp))
    · simp [hK, hno, padsIn]
    · rw [hp, hK]
      exact ⟨by simpa using ⟨hB, .of_padless hC⟩, by simp, by simp [hyes]⟩
  have hentry : Bc.holdsOps = true → Bc.id ∈ c.catches.map (·.id) := fun hyes => by
    have hends := hl.catches
    rw [hyes, cond_true, List.forall₂_cons_left_iff] at hends
    obtain ⟨C, _, hC, -, hcs⟩ := hends
    exact hC.1 ▸ List.mem_map_of_mem (hcs ▸ List.mem_cons_self)
  have hpads : padsIn (c.body :: (c.pads ++ c.catches ++ c.finals ++ c.clone ++ c.made)) =
      padsIn c.pads ++ padsIn c.clone := by
    rw [padsIn_cons_of_padless hbody.padless]
    simp only [padsIn_append, padsIn_of_padless (hplain hcatches),
      padsIn_of_padless (hplain hfinals), padsIn_of_padless (hplain hmade), List.append_nil]
  -- the pad of the catches does not enter the clone
  have hother : ∀ e, e ∈ c.pads.map (·.id) ∨ e ∈ c.catches.map (·.id) →
      ¬Lower.ClonesFinal s.func h.id e := by
    intro e he hcl
    obtain ⟨C, hC, hid⟩ := (hcloned e).mp hcl
    have hmem : e ∈ c.clone.map (·.id) := List.mem_map.mpr ⟨C, List.mem_of_mem_tail hC, hid⟩
    simp only [List.map_cons, List.map_append, List.nodup_cons, List.nodup_append,
      List.mem_append] at hnodup
    grind
  have hto : ∀ p ∈ padsIn c.pads, ∀ e ∈ p.2,
      e ∈ c.pads.map (·.id) ∨ e ∈ c.catches.map (·.id) := fun p hp e he => by
    obtain ⟨rfl, hyes⟩ | he := (hleads p hp).2 e he
    · exact .inr (hentry hyes)
    · exact .inl he
  refine ⟨padless_append.mpr ⟨hslots.padless, List.forall_mem_singleton.mpr rfl⟩, ?_, ?_,
    ?_, ?_⟩ <;>
    simp only [List.append_nil]
  · simp only [List.forall_mem_cons, List.forall_mem_append]
    exact ⟨.of_padless hbody.padless, ⟨⟨⟨hformed, fun C hC => .of_padless (hplain hcatches C hC)⟩,
      fun C hC => .of_padless (hplain hfinals C hC)⟩, hclone⟩,
      fun C hC => .of_padless (hplain hmade C hC)⟩
  · rw [hpads]
    simp only [List.map_cons, List.map_append, List.mem_cons, List.mem_append]
    rintro p (hp | hp)
    · exact ⟨(hleads p hp).1, fun e he => by have := hto p hp e he; tauto⟩
    · exact ⟨(hcloneLeads p hp).1, fun e he => by have := ((hcloneLeads p hp).2 e he).1; tauto⟩
  · intro e he
    obtain ⟨C, hC, rfl⟩ := (hcloned e).mp he
    exact List.mem_map_of_mem (by simp [List.mem_of_mem_tail hC])
  · have hnone : ∀ p ∈ padsIn c.pads, ¬∃ e ∈ p.2, Lower.ClonesFinal s.func h.id e := by
      rintro p hp ⟨e, he, hcl⟩
      exact hother e (hto p hp e he) hcl
    have hevery : ∀ p ∈ padsIn c.clone, ∃ e ∈ p.2, Lower.ClonesFinal s.func h.id e := fun p hp => by
      obtain ⟨e, he⟩ := List.exists_mem_of_ne_nil _ (hcloneLeads p hp).1
      exact ⟨e, he, ((hcloneLeads p hp).2 e he).2⟩
    rw [hpads, List.countP_append, List.countP_eq_zero.mpr (by simpa using hnone),
      List.countP_eq_length.mpr (by simpa using hevery), hlength, hl.stats, Nat.zero_add]

/-- The pads that are new in a round. -/
theorem Lays.padded {d : Op} (hl : Lays types o s s' x c)
    (hfits : ∀ m : OpTree, m.Within x → m.Fits)
    (hx : ∀ r ∈ x.regions, Everywhere (·.kind.Calm) r.blocks) (hd : s.func.op? x.id = some d)
    (hkind : d.kind = x.kind) (hregions : d.regions = x.regions.map (·.id))
    (hnodup : ((c.inner ++ c.tail).map (·.id)).Nodup) : c.Padded s s' x.id := by
  have hnone (h : x.kind ≠ .construct .tryCatch ∨ x.regions = []) :
      ∀ e, ¬Lower.ClonesFinal s.func x.id e := by
    rintro e ⟨d', body, catches, final, _, _, _, _, _, hd', hk', hr', -⟩
    cases hd.symm.trans hd'
    obtain h | h := h
    · exact h (hkind ▸ hk')
    · simp [hregions, h] at hr'
  have hcounted (h : s'.raising = s.raising) : s'.stats.cleanupClones = s.stats.cleanupClones := by
    simp only [LowerState.raising, Prod.mk.injEq] at h
    exact h.2.2.2.2
  cases hl with
  | placed _ _ hm ht _ hc =>
    exact .of_padless (allCalm_placed hm ht).padless (hnone (.inr rfl)) (hcounted hc)
  | thrown _ he =>
    exact .of_padless (by simp [Padless, Layout.fresh, OpKind.isLandingPad]) (hnone (.inr rfl))
      (hcounted he.raising)
  | @called h _ _ _ _ _ _ hc hcode _ hs =>
    refine .of_padless ?_ (hnone (.inr rfl)) (by rw [hs])
    generalize s.bindings.unwind? h.id = unwind at hcode
    cases hcode with
    | plain => cases hc <;> simp [Padless, Layout.fresh, OpKind.isLandingPad]
    | invoke => simp [Padless, Layout.fresh, OpKind.isLandingPad]
  | resumed _ _ hc =>
    exact .of_padless (by simp [Padless, Layout.fresh, OpKind.isLandingPad]) (hnone (.inr rfl))
      (hcounted hc)
  | opened hk hcon _ hm hi _ hc =>
    refine .of_padless (allCalm_opened hm hi hx).padless (hnone (.inl ?_)) (hcounted hc)
    rw [hk]
    simpa using hcon.1
  | tried hk hl =>
    have hin := (within_mk_iff.mp hfits).2
    simp only [List.forall_mem_cons, everywhere_cons] at hin
    simp only [OpTree.regions_mk, List.forall_mem_cons, everywhere_cons] at hx
    exact hl.padded hk (by simp [hin.1.1, hin.2.1.1, hin.2.2.1.1])
      (by simp [hx.1.1, hx.2.1.1, hx.2.2.1.1]) (by simpa using hnodup)

namespace Counted

variable {turns : List (Func × OpId)}
  (h : Counted turns s (L ++ ⟨b, args, pre ++ x :: post⟩ :: R))
  (hr : Round types o s s' L R b args pre post x T')

include h hr

omit h hr in
/-- The body without the construct. -/
theorem perm_ops : ((L ++ ⟨b, args, pre ++ x :: post⟩ :: R).flatMap (·.ops)).Perm
    (x :: (L ++ ⟨b, args, pre ++ post⟩ :: R).flatMap (·.ops)) := by
  rw [← Multiset.coe_eq_coe]
  simp only [List.flatMap_append, List.flatMap_cons, ← Multiset.cons_coe, ← Multiset.coe_add]
  simp only [← Multiset.singleton_add]
  abel

/-- A round lays out pads that lead to new blocks. -/
theorem exists_layout : ∃ c : Layout, T' = c.tree L R b args pre post ∧ Lays types o s s' x c ∧
    c.Padded s s' x.id ∧
      (∀ e ∈ (L ++ ⟨b, args, pre ++ x :: post⟩ :: R).map (·.id), e ∈ T'.map (·.id)) ∧
      ∀ e ∈ (c.inner ++ c.tail).map (·.id), e ∈ T'.map (·.id) ∧
        e ∉ (L ++ ⟨b, args, pre ++ x :: post⟩ :: R).map (·.id) := by
  have hids : (T'.map (·.id)).Nodup := (Arena.left (Arena.right hr.holds')).nodup_layout
  obtain ⟨c, rfl, hl⟩ := hr.lowered.lays hr.fitsWithin
  have hperm : ((c.tree L R b args pre post).map (·.id)).Perm _ := c.ids_tree (x := x)
  obtain ⟨-, hnew, hapart⟩ := List.nodup_append.mp (hperm.nodup_iff.mp hids)
  refine ⟨c, rfl, hl, hl.padded hr.fitsWithin (h.raises.inside x (by simp)) hr.holds.arena.at_op.op?
    rfl rfl hnew, fun e he => hperm.mem_iff.mpr ?_, fun e he =>
    ⟨hperm.mem_iff.mpr ?_, fun hold => ?_⟩⟩
  · exact List.mem_append_left _ (List.mem_append_left _ he)
  · exact List.mem_append_right _ he
  · exact hapart e (List.mem_append_left _ hold) e he rfl

/-- What throws goes to pads after a round, and the tries that have been lowered have pads. -/
theorem settled (hold : ∀ u, Lands (L ++ ⟨b, args, pre ++ x :: post⟩ :: R) u → Lands T' u)
    (hl : Lays types o s s' x c) (hinner : ∀ C ∈ c.inner, C.IsPad → Lands T' C.id) :
    s'.bindings.unwinds.All (Lands T') ∧ s'.bindings.padsOf.All (Pads.All (Lands T')) := by
  have hunwinds : s.bindings.unwinds.All (Lands T') := fun id u hu => hold u (h.unwinds id u hu)
  have htries : s.bindings.padsOf.All (Pads.All (Lands T')) :=
    fun t q hq u hu => hold u (h.tries t q hq u hu)
  have hsame (hs : s'.raising = s.raising) :
      s'.bindings.unwinds.All (Lands T') ∧ s'.bindings.padsOf.All (Pads.All (Lands T')) := by
    simp only [LowerState.raising, Prod.mk.injEq] at hs
    exact ⟨hs.1 ▸ hunwinds, hs.2.1 ▸ htries⟩
  cases hl with
  | placed _ _ _ _ _ hc => exact hsame hc
  | thrown _ he => exact hsame he.raising
  | called _ _ _ hb hs => exact ⟨hb ▸ hunwinds, hb ▸ htries⟩
  | resumed _ _ hc => exact hsame hc
  | opened _ _ _ _ _ _ hc => exact hsame hc
  | @tried hd Bb Bc Bf q₁ q₂ q₃ c htry hl =>
    have hx := h.raises.inside (.mk hd [⟨q₁, [Bb]⟩, ⟨q₂, [Bc]⟩, ⟨q₃, [Bf]⟩]) (by simp)
    have hfits := (within_mk_iff.mp hr.fitsWithin).2
    simp only [List.forall_mem_cons, everywhere_cons] at hfits
    simp only [OpTree.regions_mk, List.forall_mem_cons, everywhere_cons] at hx
    obtain ⟨-, hclone⟩ :=
      hl.clone.raises (P := fun _ => True) (by simp) hfits.2.2.1.1 hx.2.2.1.1
    obtain ⟨-, hpads⟩ := hl.pads.raises (P := fun _ => True) (by simp)
    have hcleanup : ∀ u, c.cleanup = some u → Lands T' u := fun u hu => by
      obtain ⟨C, hC, rfl, hpad⟩ := hclone u hu
      exact hinner C (by simp [hC]) hpad
    have hlanding : ∀ u, c.landing = some u → Lands T' u := fun u hu => by
      obtain hu | ⟨C, hC, rfl, hpad⟩ := hpads u hu
      · exact hcleanup u hu
      · exact hinner C (by simp [hC]) hpad
    obtain ⟨hu, hp⟩ := hl.route.sends
      (Bindings.Sends.layOut hd.id Bb Bc Bf ⟨hunwinds, rfl⟩ hlanding hcleanup)
    exact ⟨hu, hp ▸ htries.insert hd.id fun u hu => hu.elim (hlanding u) (hcleanup u)⟩

/-- A round counts the pads that it makes, and the clone of a finally if it makes one. -/
theorem round : Counted ((s.func, x.id) :: turns) s' T' := by
  classical
  obtain ⟨c, hT, hl, hc, hids, hfresh⟩ := h.exists_layout hr
  obtain ⟨k, hk⟩ := OpTree.construct_of_pending hr.pending
  obtain ⟨hwell, hpads⟩ := Layout.pads_tree h.wellPadded (by simp [hk, OpKind.isStructured])
    hc.padless hc.formed
  rw [← hT] at hwell hpads
  have hlands : ∀ u, Lands (L ++ ⟨b, args, pre ++ x :: post⟩ :: R) u → Lands T' u := by
    rintro u ⟨l, hu⟩
    exact ⟨l, hpads.mem_iff.mpr (List.mem_append_left _ hu)⟩
  have hinner : ∀ C ∈ c.inner, C.IsPad → Lands T' C.id := fun C hC hpad =>
    ⟨C.leadsTo, hpads.mem_iff.mpr (List.mem_append_right _
      (mem_padsIn.mpr ⟨C, List.mem_append_left _ hC, rfl, hpad, rfl⟩))⟩
  obtain ⟨hunwinds, htries⟩ := h.settled hr hlands hl hinner
  obtain ⟨i, p, hnew, hi, hp⟩ :=
    hl.raises hr.fitsWithin (h.raises.inside x (by simp)) h.unwinds h.tries
  have hraises : Raises (Lands T') s'.stats.invokes s'.stats.landingPads (T'.flatMap (·.ops)) := by
    have hrest := ((h.raises.perm perm_ops).of_cons hk).renameUses c.names
    rw [hi, hp, hT]
    exact ((hrest.append hnew).perm c.ops_tree.symm).mono fun u hu => hT ▸ hlands u hu
  refine ⟨hraises, hunwinds, htries, hwell, fun p hp => ?_, ?_, ?_⟩
  · obtain hp | hp := List.mem_append.mp (hpads.mem_iff.mp hp)
    · exact (h.leads p hp).imp_right fun hto e he => hids e (hto e he)
    · exact (hc.leads p hp).imp_right fun hto e he => (hfresh e (hto e he)).1
  · rintro e ⟨t, ht, he⟩
    obtain rfl | ht := List.mem_cons.mp ht
    · exact (hfresh e (hc.entries e he)).1
    · exact hids e (h.entries e ⟨t, ht, he⟩)
  · -- the pads from before do not enter the new clone, and the new pads no clone from before
    have hold : ∀ p ∈ padsIn (L ++ ⟨b, args, pre ++ x :: post⟩ :: R),
        (∃ e ∈ p.2, Lower.Cloned ((s.func, x.id) :: turns) e) ↔
          ∃ e ∈ p.2, Lower.Cloned turns e := by
      intro p hp
      refine exists_congr fun e => and_congr_right fun he => ?_
      have hnot : ¬Lower.ClonesFinal s.func x.id e :=
        fun hcl => (hfresh e (hc.entries e hcl)).2 ((h.leads p hp).2 e he)
      simp [Lower.Cloned, hnot]
    have hadded : ∀ p ∈ padsIn (c.inner ++ c.tail),
        (∃ e ∈ p.2, Lower.Cloned ((s.func, x.id) :: turns) e) ↔
          ∃ e ∈ p.2, Lower.ClonesFinal s.func x.id e := by
      intro p hp
      refine exists_congr fun e => and_congr_right fun he => ?_
      have hnot : ¬Lower.Cloned turns e :=
        fun hcl => (hfresh e ((hc.leads p hp).2 e he)).2 (h.entries e hcl)
      simp only [Lower.Cloned] at hnot
      simp [Lower.Cloned, hnot]
    rw [hpads.countP_eq, List.countP_append, hc.clones, ← h.clones]
    exact congrArg₂ (· + ·) (List.countP_congr fun p hp => by simpa using hold p hp)
      (List.countP_congr fun p hp => by simpa using hadded p hp)

end Counted

end

end Unnest
