import Unnest.Proofs.Lowering.Kept
import Unnest.Proofs.Tidy.Again
/-!
# The nearest construct

A jump belongs to the nearest construct around it that accepts it. The lowering never looks for that
construct: each construct binds, when it is taken up, what is below it and refers to it past all
that lies between. So a jump waits until the construct it belongs to is taken up, keeps what it is
bound to then, and becomes a branch when it is taken up itself (`Fate`).
`Lower.lowerFunc_binds_nearest` is the result for a whole function.
-/

namespace Unnest

/-! ## Looking outward -/

/-- The op is a break or a continue. -/
def OpKind.isJump : OpKind → Bool
  | .construct (.brk _) | .construct (.cont _) => true
  | _ => false

/-- Whether a construct accepts a jump: a jump with a label is accepted by what has the label, a
`brk` without one by loops and switches, and a `cont` without one by loops. -/
def OpKind.accepts (around : OpKind) : OpKind → Bool
  | .construct (.brk none) => around.isBreakable
  | .construct (.cont none) => around.isLoop
  | .construct (.brk (some name)) | .construct (.cont (some name)) => around.label? == some name
  | _ => false

/-- The nearest op on a trail, looking outward from its end, that accepts a jump. -/
def Trail.nearest (k : OpKind) (p : Trail) : Option OpTree :=
  (p.reverse.find? fun q => q.1.kind.accepts k).map (·.1)

namespace Trail

variable {k : OpKind}

@[simp] theorem nearest_nil : nearest k [] = none := rfl

theorem nearest_cons (n : OpTree) (i : Nat) (p : Trail) :
    nearest k ((n, i) :: p) = (nearest k p).or (if n.kind.accepts k then some n else none) := by
  unfold nearest
  rw [List.reverse_cons, List.find?_append]
  cases hp : p.reverse.find? fun q => q.1.kind.accepts k with
  | some q => simp
  | none => by_cases hn : n.kind.accepts k <;> simp [hn]

theorem nearest_eq_none {p : Trail} : nearest k p = none ↔ ∀ q ∈ p, q.1.kind.accepts k = false := by
  simp [nearest]

@[simp] theorem nearest_rename (σ : ValueId → ValueId) (p : Trail) :
    nearest k (p.rename (.uses σ)) = (nearest k p).map (.rename (.uses σ)) := by
  induction p with
  | nil => rfl
  | cons q p ih =>
    obtain ⟨n, i⟩ := q
    rw [rename_cons, nearest_cons, nearest_cons, ih]
    cases nearest k p <;> simp [apply_ite]

end Trail

theorem OpKind.label?_construct (c : Construct) : (OpKind.construct c).label? = c.label? := rfl

/-- A construct binds the jumps that it accepts and that nothing in between accepts. -/
theorem Construct.isNamedBy_along_iff {c : Construct} {k : OpKind} (p : Trail) :
    c.isNamedBy (({} : Shadow).along c.label? p) k = true ↔
      (OpKind.construct c).accepts k = true ∧ p.nearest k = none := by
  rw [Trail.nearest_eq_none]
  unfold Construct.isNamedBy OpKind.accepts
  split
  · simp [Shadow.breaks_along, OpKind.isBreakable, OpKind.isConstruct]
  · simp [Shadow.continues_along, OpKind.isLoop, OpKind.isConstruct]
  · rename_i name
    by_cases hc : c.label? = some name
    · simp [Shadow.label_along, OpKind.label?_construct, hc]
    · simp [OpKind.label?_construct, hc]
  · rename_i name
    by_cases hc : c.label? = some name
    · simp [Shadow.label_along, OpKind.label?_construct, hc]
    · simp [OpKind.label?_construct, hc]
  · simp_all

/-! ## Binding -/

theorem Bindings.jump?_bindJumps_of_mem {t : JumpTargets} {js : List OpTree} {e : OpTree}
    {target : BlockId} (B : Bindings) (he : e ∈ js) (ht : t.target? e.kind = some target)
    (hone : ∀ n ∈ js, n.id = e.id → n = e) :
    (B.bindJumps t js).jump? e.id = some (.block target) := by
  induction js using List.reverseRecOn with
  | nil => simp at he
  | append_singleton js n ih =>
    rw [Bindings.bindJumps, List.foldl_append, List.foldl_cons, List.foldl_nil,
      ← Bindings.bindJumps]
    by_cases hn : n.id = e.id
    · rw [hone n (by simp) hn, ht]
      simp [Bindings.setJump, Bindings.jump?]
    · have he : e ∈ js := by
        obtain he | he := List.mem_append.mp he
        · exact he
        · exact absurd (by rw [List.mem_singleton.mp he]) hn
      have ih := ih he fun m hm => hone m (by simp [hm])
      cases t.target? n.kind with
      | none => exact ih
      | some other =>
        rw [← ih]
        exact Table.get?_insert_of_ne _ _ hn

/-- The construct takes jumps of the given kind: where they go no values are asked for. -/
def OpTree.Takes (n : OpTree) : OpKind → Prop
  | .construct (.brk _) => n.head.results = []
  | _ => ∃ B, n.continueBlock? = some B ∧ B.args = []

/-- Where the construct sends jumps of the given kind: a `brk` behind it, a `cont` to where it goes
on. -/
def OpTree.Sends (n : OpTree) (behind : BlockId → Prop) : OpKind → BlockId → Prop
  | .construct (.brk _), target => behind target
  | _, target => n.continueBlock?.map (·.id) = some target

section

variable {n : OpTree} {k : OpKind} {behind : BlockId → Prop} {target : BlockId}

theorem OpTree.takes_of_ne (hk : ∀ label, k ≠ .construct (.brk label)) :
    n.Takes k ↔ ∃ B, n.continueBlock? = some B ∧ B.args = [] := by
  unfold OpTree.Takes
  split
  · exact absurd rfl (hk _)
  · rfl

theorem OpTree.sends_of_ne (hk : ∀ label, k ≠ .construct (.brk label)) :
    n.Sends behind k target ↔ n.continueBlock?.map (·.id) = some target := by
  unfold OpTree.Sends
  split
  · exact absurd rfl (hk _)
  · rfl

end

/-- The block `next` stands behind the blocks of the construct, holds what followed it, and takes
its results. -/
def OpTree.Behind (n : OpTree) (L R : List BlockTree) (b : BlockId) (post : List OpTree)
    (T' : List BlockTree) (next : BlockId) : Prop :=
  T'.map (·.id) = L.map (·.id) ++ b :: ((n.regions.flatMap (·.blocks)).map (·.id) ++
    next :: R.map (·.id)) ∧
  ∃ B ∈ T', B.id = next ∧ B.ops.map (·.id) = post.map (·.id) ∧
    B.args.length = n.head.results.length

section

variable {types : TypeTable} {o : LowerOptions} {s s' : LowerState} {T' L R : List BlockTree}
  {x : OpTree} {b : BlockId} {args : List ValueId} {pre post : List OpTree}

theorem OpTree.behind_opened {σ : ValueId → ValueId} {casts front : List OpTree}
    {inner : List BlockTree} {next : BlockId} {news : List ValueId}
    (hσ : NewNames s.func s'.func x.head.results σ news)
    (hi : List.Forall₂ EndChanged
      ((x.regions.flatMap (·.blocks)).map (BlockOf.rename (.uses σ))) inner) :
    x.Behind L R b post (opened σ L R b args (pre ++ casts) post front inner next news) next := by
  have hids : inner.map (·.id) = (x.regions.flatMap (·.blocks)).map (·.id) := by
    rw [List.forall₂_map_left_iff] at hi
    generalize x.regions.flatMap (·.blocks) = Bs at hi
    induction hi with
    | nil => rfl
    | cons hB _ ih => exact congrArg₂ List.cons (hB.1.trans rfl) ih
  refine ⟨?_, ⟨next, news, post.map (.rename (.uses σ))⟩, by simp [opened], rfl, ?_,
    hσ.types.length_eq.symm⟩
  · simp [opened, hids, Function.comp_def]
  · simp [Function.comp_def]

namespace Round

variable (h : Round types o s s' L R b args pre post x T') {i : Nat} {r : RegionTree} {p : Trail}
  {e : OpTree}
include h

/-- A jump that belongs to the construct is bound. -/
theorem binds (htry : x.kind ≠ .construct .tryCatch) (hr : x.regions[i]? = some r)
    (he : Path r.blocks p e) (hacc : x.kind.accepts e.kind = true)
    (hnear : p.nearest e.kind = none) :
    x.Takes e.kind ∧ ∃ target, s'.bindings.jump? e.id = some (.block target) ∧
      x.Sends (x.Behind L R b post T') e.kind target := by
  have hne : x.regions ≠ [] := by
    intro hnil
    simp [hnil] at hr
  obtain ⟨c, σ, casts, front, inner, next, news, hk, -, hσ, hb, hfit, -, -, hi, rfl⟩ :=
    h.lowered.opens h.fitsWithin hne htry
  have hjump : e ∈ blockJumps c {} (x.regions.flatMap (·.blocks)) := by
    refine mem_blockJumps.mpr ⟨p, he.mono fun B hB => ?_, ?_⟩
    · exact List.mem_flatMap.mpr ⟨r, List.mem_of_getElem? hr, hB⟩
    · exact (Construct.isNamedBy_along_iff p).mpr ⟨hk ▸ hacc, hnear⟩
  have hone : ∀ n ∈ blockJumps c {} (x.regions.flatMap (·.blocks)), n.id = e.id → n = e := by
    intro n hn hid
    obtain ⟨j, r', p', hr', hn', -⟩ := exists_path_of_blockJumps hn
    exact (h.unique hr' hn' hr he hid).2.2
  have hfit := hfit e hjump
  rw [hb]
  split at hfit
  · rename_i label hbrk
    have ht : JumpTargets.target? ⟨next, x.continueBlock?.map (·.id)⟩ e.kind = some next := by
      rw [hbrk]
      rfl
    refine ⟨by rwa [hbrk], next, Bindings.jump?_bindJumps_of_mem _ hjump ht hone, ?_⟩
    rw [hbrk]
    exact OpTree.behind_opened hσ hi
  · rename_i hbrk
    obtain ⟨B, hB, hargs⟩ := Option.map_eq_some_iff.mp hfit
    have ht : JumpTargets.target? ⟨next, x.continueBlock?.map (·.id)⟩ e.kind = some B.id := by
      rw [JumpTargets.target?_of_ne hbrk, hB]
      rfl
    refine ⟨(OpTree.takes_of_ne hbrk).mpr ⟨B, hB, hargs⟩, B.id,
      Bindings.jump?_bindJumps_of_mem _ hjump ht hone, (OpTree.sends_of_ne hbrk).mpr ?_⟩
    rw [hB]
    rfl

/-- A jump that is taken up has been bound, and becomes a branch. -/
theorem jump_taken (hk : x.kind.isJump = true) : ∃ dest, s.bindings.jump? x.id = some dest ∧
    ∀ target, dest = .block target → ∃ n, Path T' [] n ∧ n.id = x.id ∧
      n.kind = .transfer (.br target) ∧ n.head.operands = [] := by
  cases h.lowered with
  | @jump hd _ label dest _ hj hl =>
    refine ⟨dest, hj, ?_⟩
    rintro target rfl
    obtain ⟨ends, codes, target', cut, -, hleads, -, rfl⟩ := hl.result
    cases hleads
    refine ⟨.leaf { hd with kind := .transfer (.br target), operands := [] }, ?_, rfl, rfl, rfl⟩
    cases cut
    case none => exact path_nil.mpr ⟨_, List.mem_append_right _ (List.mem_cons_self ..), by simp⟩
    case some => exact path_nil.mpr ⟨_, List.mem_append_right _ (List.mem_cons_self ..), by simp⟩
  | entry hk' | exit hk' | ret hk' | retVal hk' | yieldVal hk' | branch hk' | whileLoop hk'
  | doWhile hk' | forLoop hk' | switch hk' | labeled hk' | tryCatch hk' | catchMark hk' | throw hk'
  | call hk' | callIndirect hk' | stateLabel hk' | capture hk' => simp [OpKind.isJump, hk'] at hk

end Round

end

/-! ## Waiting, bound, done -/

namespace Lower

/-- The block `next` is made when the construct is taken up. It comes right behind the blocks of its
regions, takes over what followed the construct, and has an argument for each of its results. -/
def Continues (types : TypeTable) (o : LowerOptions) (f : Func) (x : OpTree) (next : BlockId) :
    Prop :=
  ∃ i s j s' L b R pre post d, Rounds types o (0, .start f) (i, s) ∧
    Takes types o x.id (i, s) (j, s') ∧
    s.func.blocksIn s.func.body = L ++ b :: R ∧ s.func.opsIn b = pre ++ x.id :: post ∧
    s'.func.blocksIn s'.func.body =
      L ++ b :: ((x.regions.flatMap (·.blocks)).map (·.id) ++ next :: R) ∧
    s'.func.block? next = some d ∧ d.ops = post ∧ d.args.length = x.head.results.length

/-- The nearest construct on the trail that accepts the jump takes it and sends it to the target. -/
def Resolves (types : TypeTable) (o : LowerOptions) (f : Func) (p : Trail) (k : OpKind)
    (target : BlockId) : Prop :=
  ∃ x, p.nearest k = some x ∧ x.Takes k ∧ x.Sends (Continues types o f x) k target

end Lower

open Lower

/-- What has become of the jump `e` that was at the end of the trail `P`: it waits for the construct
it belongs to, it is bound, or it has become a branch. -/
inductive Fate (types : TypeTable) (o : LowerOptions) (f : Func) (P : Trail) (e : OpTree)
    (s : LowerState) (T : List BlockTree) : Prop
  | waiting {p : Trail} {σ : ValueId → ValueId}
      (hpath : Path T (p.rename (.uses σ)) (e.rename (.uses σ)))
      (hnone : s.bindings.jump? e.id = none) (hnear : P.nearest e.kind = p.nearest e.kind)
  | bound {q : Trail} {n : OpTree} {target : BlockId} (hpath : Path T q n) (hid : n.id = e.id)
      (hk : n.kind = e.kind) (hj : s.bindings.jump? e.id = some (.block target))
      (hres : Resolves types o f P e.kind target)
  | done {n : OpTree} {target : BlockId} (hpath : Path T [] n) (hid : n.id = e.id)
      (hk : n.kind = .transfer (.br target)) (ho : n.head.operands = [])
      (hres : Resolves types o f P e.kind target)

section

variable (σ : ValueId → ValueId) (n : OpTree) {k : OpKind}

@[simp] theorem OpTree.firstBlock?_rename (i : Nat) :
    (n.rename (.uses σ)).firstBlock? i = (n.firstBlock? i).map (.rename (.uses σ)) := by
  unfold OpTree.firstBlock?
  rw [OpTree.regions_rename, List.getElem?_map]
  cases n.regions[i]? <;> simp

@[simp] theorem OpTree.kind_rename_uses : (n.rename (.uses σ)).kind = n.kind := by simp

@[simp] theorem OpTree.continueBlock?_rename :
    (n.rename (.uses σ)).continueBlock? = n.continueBlock?.map (.rename (.uses σ)) := by
  unfold OpTree.continueBlock?
  rw [OpTree.kind_rename_uses]
  split <;> simp [Option.map_or]

theorem OpTree.takes_rename : (n.rename (.uses σ)).Takes k ↔ n.Takes k := by
  unfold OpTree.Takes
  split
  · simp [Head.rename]
  · simp

theorem OpTree.sends_rename {behind behind' : BlockId → Prop} {target : BlockId}
    (h : (n.rename (.uses σ)).Sends behind k target) (hb : ∀ next, behind next → behind' next) :
    n.Sends behind' k target := by
  unfold OpTree.Sends at h ⊢
  split
  · exact hb _ h
  · simpa [Function.comp_def] using h

end

section

variable {types : TypeTable} {o : LowerOptions} {s s' : LowerState} {T' L R : List BlockTree}
  {x : OpTree} {b : BlockId} {args : List ValueId} {pre post : List OpTree} {f : Func} {P : Trail}
  {e : OpTree}

theorem OpKind.not_endsRegion_of_isJump {k : OpKind} (h : k.isJump = true) :
    k.endsRegion = false := by
  unfold OpKind.isJump at h
  split at h <;> first | rfl | cases h

/-- A jump that a round does not find below its construct stays bound as it is. -/
theorem Round.jump?_of_rest (h : Round types o s s' L R b args pre post x T') {q : Trail}
    {n : OpTree} (hn : Path (L ++ ⟨b, args, pre ++ post⟩ :: R) q n) :
    s'.bindings.jump? n.id = s.bindings.jump? n.id :=
  h.jump?_outside (h.holds.index_lt hn.of_rest) fun _ _ _ _ hr hm heq =>
    hn.not_mem_ids h.nodup (heq ▸ hm.mem_ids hr)

/-- A jump in a region of the construct is bound if it belongs to it, and waits on if not. -/
theorem Fate.inside (h : Round types o s s' L R b args pre post x T')
    (hx : x.kind ≠ .construct .tryCatch) (hjump : e.kind.isJump = true)
    (hnext : ∀ (x₀ : OpTree) σ next, x = x₀.rename (.uses σ) → x.Behind L R b post T' next →
      Continues types o f x₀ next)
    {x₀ : OpTree} {σ : ValueId → ValueId} {i : Nat} {r : RegionTree} {p : Trail}
    (hx₀ : x = x₀.rename (.uses σ)) (hr : x.regions[i]? = some r)
    (he : Path r.blocks (p.rename (.uses σ)) (e.rename (.uses σ)))
    (hnone : s.bindings.jump? e.id = none)
    (hnear : P.nearest e.kind = Trail.nearest e.kind ((x₀, i) :: p)) :
    Fate types o f P e s' T' := by
  have hkind : x.kind = x₀.kind := by simp [hx₀]
  obtain ⟨τ, -, hin⟩ := h.keeps hx
  have hpath := hin i r _ _ hr he (by simpa using OpKind.not_endsRegion_of_isJump hjump)
  rw [Trail.nearest_cons] at hnear
  by_cases hacc : x.kind.accepts e.kind = true ∧ p.nearest e.kind = none
  · obtain ⟨htakes, target, hj, hsends⟩ := h.binds hx hr he (by simpa using hacc.1) (by
      simp [hacc.2])
    simp only [OpTree.kind_rename_uses, OpTree.id_rename] at htakes hj hsends
    rw [hacc.2, if_pos (hkind ▸ hacc.1), Option.none_or] at hnear
    subst hx₀
    refine .bound hpath (by simp) (by simp) (by simpa using hj) ⟨x₀, hnear, ?_, ?_⟩
    · exact (OpTree.takes_rename σ x₀).mp htakes
    · exact OpTree.sends_rename σ x₀ hsends fun next => hnext x₀ σ next rfl
  · rw [Trail.rename_uses_uses, OpTree.rename_uses_uses] at hpath
    have hrest : P.nearest e.kind = p.nearest e.kind := by
      rw [hnear]
      cases hp : p.nearest e.kind with
      | some y => rfl
      | none => simpa [hp, hkind] using hacc
    refine .waiting hpath ?_ hrest
    cases h.rebound hr he with
    | same hsame => simpa using hsame.trans (by simpa using hnone)
    | named hc hnamed =>
      refine absurd ⟨?_, ?_⟩ hacc
      · simpa [hc] using ((Construct.isNamedBy_along_iff _).mp hnamed).1
      · simpa using ((Construct.isNamedBy_along_iff _).mp hnamed).2
    | routed _ hkeep => exact absurd hkeep.1 hx

/-- What becomes of a jump in a round. -/
theorem Fate.round (h : Round types o s s' L R b args pre post x T')
    (hB : Bound s (L ++ ⟨b, args, pre ++ x :: post⟩ :: R))
    (htry : TryFree (L ++ ⟨b, args, pre ++ x :: post⟩ :: R)) (hjump : e.kind.isJump = true)
    (hnext : ∀ (x₀ : OpTree) σ next, x = x₀.rename (.uses σ) → x.Behind L R b post T' next →
      Continues types o f x₀ next)
    (hF : Fate types o f P e s (L ++ ⟨b, args, pre ++ x :: post⟩ :: R)) :
    Fate types o f P e s' T' := by
  have hx : x.kind ≠ .construct .tryCatch := htry x OpTree.inBlocks_here
  have hend := OpKind.not_endsRegion_of_isJump hjump
  obtain ⟨τ, hout, hin⟩ := h.keeps hx
  cases hF with
  | @waiting p σ hpath hnone hnear =>
    obtain hpath | hpath := path_around.mp hpath
    · have hj := h.jump?_of_rest hpath
      have hpath := hout _ _ hpath
      rw [Trail.rename_uses_uses, OpTree.rename_uses_uses] at hpath
      exact .waiting hpath (by simpa using hj.trans (by simpa using hnone)) hnear
    · obtain ⟨-, hex⟩ | ⟨i, q, r, hq, hr, he⟩ := OpTree.at_singleton.mp hpath
      · -- A jump is not taken up before it is bound.
        obtain ⟨dest, hdest, -⟩ := h.jump_taken (by simpa [← hex] using hjump)
        simp [← hex, hnone] at hdest
      · cases p with
        | nil => cases hq
        | cons y p =>
          obtain ⟨x₀, j⟩ := y
          obtain ⟨⟨rfl, rfl⟩, rfl⟩ : (x₀.rename (.uses σ) = x ∧ j = i) ∧
              Trail.rename (.uses σ) p = q := by
            simpa using hq
          exact .inside h hx hjump hnext rfl hr he hnone hnear
  | @bound q n target hpath hid hk hj hres =>
    obtain hpath | hpath := path_around.mp hpath
    · refine .bound (hout _ _ hpath) (by simpa using hid) (by simpa using hk) ?_ hres
      rw [← hid] at hj ⊢
      exact (h.jump?_of_rest hpath).trans hj
    · obtain ⟨-, rfl⟩ | ⟨i, p, r, rfl, hr, hn⟩ := OpTree.at_singleton.mp hpath
      · obtain ⟨dest, hdest, hdone⟩ := h.jump_taken (by rwa [hk])
        rw [hid, hj] at hdest
        obtain ⟨m, hm, hmid, hmk, hmo⟩ := hdone target (Option.some.inj hdest).symm
        exact .done hm (hmid.trans hid) hmk hmo hres
      · have hpath' := hin i r p n hr hn (by rwa [hk])
        refine .bound hpath' (by simpa using hid) (by simpa using hk) ?_ hres
        rw [← hid] at hj ⊢
        cases h.rebound hr hn with
        | same hsame => exact hsame.trans hj
        | named hc hnamed =>
          -- Nothing around a jump that is bound accepts it.
          exact absurd (.inl ⟨_, hc, hnamed⟩) (hB.free _ _ (path_of_region hr hn) (by simp [hj]))
        | routed _ hkeep => exact absurd hkeep.1 hx
  | @done n target hpath hid hk ho hres =>
    obtain hpath | hpath := path_around.mp hpath
    · refine .done (hout _ _ hpath) (by simpa using hid) (by simp [hk]) ?_ hres
      simp [Head.rename, ho]
    · obtain ⟨-, rfl⟩ | ⟨i, p, r, hp, -⟩ := OpTree.at_singleton.mp hpath
      · have hpending := h.pending
        simp [OpTree.pending, hk] at hpending
      · cases hp

theorem Fate.putOff {T : List BlockTree} (h : Fate types o f P e s T) (ds : List OpId) :
    Fate types o f P e (s.putOff ds).tick T := by
  obtain ⟨pending, hb⟩ := s.putOff_bindings ds
  have hj : (s.putOff ds).tick.bindings.jump? e.id = s.bindings.jump? e.id := by
    rw [hb]
    rfl
  cases h with
  | waiting hpath hnone hnear => exact .waiting hpath (hj.trans hnone) hnear
  | bound hpath hid hk hbound hres => exact .bound hpath hid hk (hj.trans hbound) hres
  | done hpath hid hk ho hres => exact .done hpath hid hk ho hres

end

/-! ## All rounds -/

section

variable {types : TypeTable} {o : LowerOptions} {f : Func} {P : Trail} {e : OpTree}
  {T : List BlockTree}

theorem Lower.continues_rename (σ : ValueId → ValueId) (n : OpTree) (next : BlockId) :
    Continues types o f (n.rename (.uses σ)) next ↔ Continues types o f n next := by
  simp [Continues, Head.rename, Function.comp_def, List.flatMap_map, List.map_flatMap]

/-- What a round leaves behind its construct. -/
theorem Round.continues {p q : Nat × LowerState} {ds : List OpId} {L R T' : List BlockTree}
    {b next : BlockId} {args : List ValueId} {pre post : List OpTree} {x : OpTree}
    (hr : Rounds types o (0, .start f) p) (ht : Lower.Takes types o x.id p q)
    (h : Round types o (p.2.putOff ds).tick q.2 L R b args pre post x T')
    (hb : x.Behind L R b post T' next) : Continues types o f x next := by
  obtain ⟨hids, B, hB, rfl, hops, hargs⟩ := hb
  have hblock := h.holds.block? (B := ⟨b, args, pre ++ x :: post⟩) (by simp)
  refine ⟨p.1, p.2, q.1, q.2, L.map (·.id), b, R.map (·.id), pre.map (·.id), post.map (·.id),
    B.toBlock (some q.2.func.body), hr, ht, ?_, ?_, ?_, h.holds'.block? hB, ?_, hargs⟩
  · rw [show p.2.func.blocksIn p.2.func.body = _ from h.holds.blocksIn_body]
    simp
  · rw [Func.opsIn, show p.2.func.block? b = _ from hblock]
    simp [BlockOf.toBlock]
  · rw [h.holds'.blocksIn_body, hids]
  · exact hops

/-- What has become of a jump after some rounds. -/
theorem Fate.rounds (h : Stage 0 (.start f) T) (htry : TryFree T) (he : Path T P e)
    (hjump : e.kind.isJump = true) {q : Nat × LowerState} (hr : Rounds types o (0, .start f) q) :
    ∃ T', Stage q.1 q.2 T' ∧ Deferred q.1 q.2 T' ∧ Bound q.2 T' ∧ TryFree T' ∧
      Fate types o f P e q.2 T' := by
  induction hr with
  | refl =>
    refine ⟨T, h, ⟨by simp [LowerState.start], by simp [dispatchesIn]⟩, bound_start f T, htry, ?_⟩
    refine .waiting (p := P) (σ := fun v => v) ?_ rfl rfl
    rwa [Trail.rename_uses_id, OpTree.rename_uses_id]
  | @tail p q hr ht ih =>
    obtain ⟨T₁, h₁, hd₁, hB₁, htry₁, hF₁⟩ := ih
    obtain ⟨op, ht⟩ := ht
    obtain ⟨L, R, b, args, pre, post, x, T', rfl, rfl, hq, hround, h'⟩ := h₁.takes ht
    refine ⟨T', h', hq ▸ hd₁.takes hround, (hB₁.putOff _).round hround, hround.tryFree htry₁,
      .round hround (hB₁.putOff _) htry₁ hjump ?_ (hF₁.putOff _)⟩
    rintro x₀ σ next rfl hnext
    exact (continues_rename σ x₀ next).mp (hround.continues hr ht hnext)

/-- Where no construct is left at the top level there is nothing below it. -/
theorem AllQuiet.path_eq_nil (hq : AllQuiet T) (hfits : Everywhere OpTree.Fits T) {p : Trail}
    {n : OpTree} (h : Path T p n) : p = [] ∧ n.pending = false := by
  cases p with
  | nil =>
    obtain ⟨B, hB, hn⟩ := path_nil.mp h
    exact ⟨rfl, hq B hB n hn⟩
  | cons y p =>
    obtain ⟨x, i⟩ := y
    obtain ⟨B, hB, hx, r, hr, -⟩ := path_cons.mp h
    have hfit : x.Fits := hfits x ⟨B, hB, x, hx, .here⟩
    have hquiet := hq B hB x hx
    have hnone : x.kind.regionSizes = [] := by
      by_cases hd : x.kind.isDispatch = true
      · obtain ⟨start, hk⟩ := OpKind.isDispatch_iff.mp hd
        rw [hk]
        rfl
      · refine OpKind.regionSizes_of_not_isStructured ?_
        simpa [OpTree.pending, hd] using hquiet
    rw [hfit.regions_eq_nil hnone] at hr
    cases hr

theorem OpTree.pending_of_isJump {n : OpTree} (h : n.kind.isJump = true) : n.pending = true := by
  unfold OpTree.pending
  unfold OpKind.isJump at h
  split at h
  · next hk => rw [hk]; rfl
  · next hk => rw [hk]; rfl
  · cases h

/-- What is no dispatch stays when the dispatches are finished. -/
theorem FinishedBlocks.path_of_not_isDispatch {B : Bindings} {T' : List BlockTree}
    (h : FinishedBlocks B [] T T') {n : OpTree} (hn : Path T [] n)
    (hk : n.kind.isDispatch = false) : Path T' [] n := by
  obtain ⟨C, hC, hn⟩ := path_nil.mp hn
  obtain ⟨D, hD, -, -, hops⟩ := forall₂_mem_right h.flip hC
  obtain ⟨m, hm, hnm⟩ := forall₂_mem_right hops.flip hn
  cases hnm with
  | kept => exact path_nil.mpr ⟨D, hD, hm⟩
  | changed hd => exact absurd hd.isDispatch.1 (by rw [← OpTree.kind, hk]; simp)

theorem Func.Holds.mem_bodyOps {T : List BlockTree} (hf : f.Holds T 0) {n : OpTree}
    (hn : Path T [] n) : n.id ∈ f.bodyOps := by
  obtain ⟨B, hB, hn⟩ := path_nil.mp hn
  refine Func.mem_bodyOps.mpr ⟨B.id, hf.blocksIn_body ▸ List.mem_map_of_mem hB, ?_⟩
  rw [Func.opsIn, hf.block? hB]
  exact List.mem_map_of_mem hn

/-- In the end every jump has become a branch in the body. -/
theorem Fate.flatten (h : Stage 0 (.start f) T) (htry : TryFree T) (he : Path T P e)
    (hjump : e.kind.isJump = true) {s : LowerState}
    (hs : Lower.flatten types o (.start f) = .ok () s) :
    ∃ target, Resolves types o f P e.kind target ∧ e.id ∈ s.func.bodyOps ∧
      ∃ d, s.func.op? e.id = some d ∧ d.kind = .transfer (.br target) ∧ d.operands = [] := by
  obtain ⟨_, s₀, hget, hs⟩ := bind_eq_ok hs
  cases hget
  obtain ⟨_, s₁, hrounds, hs⟩ := bind_eq_ok hs
  obtain ⟨q, hr, hend⟩ := rounds_of_flattenFrom hrounds
  obtain ⟨T₁, h₁, hd₁, -, -, hF⟩ := Fate.rounds h htry he hjump hr
  obtain ⟨hq, hpending, ds, rfl⟩ := h₁.ended hd₁ hend
  have hdispatches : Meets True Lower.finishDispatches (q.2.putOff ds) _ :=
    Func.Holds.finishDispatches (T := T₁) h₁.holds hpending fun _ _ => trivial
  obtain ⟨T', hT', hfin, -⟩ := hdispatches.ok hs
  have hleft {p : Trail} {n : OpTree} (hn : Path T₁ p n) (hk : n.kind = e.kind) : False := by
    have hquiet := (hq.path_eq_nil h₁.fits hn).2
    rw [OpTree.pending_of_isJump (hk ▸ hjump)] at hquiet
    cases hquiet
  cases hF with
  | waiting hpath => exact (hleft hpath (by simp)).elim
  | bound hpath hid hk => exact (hleft hpath hk).elim
  | @done n target hpath hid hk ho hres =>
    have hpath' := hfin.path_of_not_isDispatch hpath (by rw [hk]; rfl)
    obtain ⟨d, hd, hdk, hdo⟩ := hT'.op? hpath'
    exact ⟨target, hres, hid ▸ hT'.mem_bodyOps hpath', d, hid ▸ hd, hdk.trans hk, hdo.trans ho⟩

namespace Lower

end Lower

end

/-! ## Built functions -/

namespace Func.Building

variable {f : Func} {under : OpId → Prop} (h : f.Building under) {r q : RegionId} {b : BlockId}
  {x : OpId}
include h

theorem path_nil (hb : b ∈ f.blocksIn r) (hx : x ∈ f.opsIn b) :
    Path ((f.regionAt r).blocks.map f.blockTree) [] (f.opTree x) := by
  refine Unnest.path_nil.mpr ⟨f.blockTree b, List.mem_map_of_mem (blocksIn_eq f r ▸ hb), ?_⟩
  rw [h.blockTree_eq]
  exact List.mem_map_of_mem (opsIn_eq f b ▸ hx)

theorem path_cons {i : Nat} {p : Trail} {e : OpTree} (hb : b ∈ f.blocksIn r) (hx : x ∈ f.opsIn b)
    (hq : (f.opAt x).regions[i]? = some q) (hp : Path ((f.regionAt q).blocks.map f.blockTree) p e) :
    Path ((f.regionAt r).blocks.map f.blockTree) ((f.opTree x, i) :: p) e := by
  refine Unnest.path_cons.mpr ⟨f.blockTree b, List.mem_map_of_mem (blocksIn_eq f r ▸ hb), ?_, ?_⟩
  · rw [h.blockTree_eq]
    exact List.mem_map_of_mem (opsIn_eq f b ▸ hx)
  · refine ⟨⟨q, (f.regionAt q).blocks.map f.blockTree⟩, ?_, hp⟩
    simp [opTree, opWith, hq]

end Func.Building

theorem Func.Holds.tryFree {f : Func} {T : List BlockTree} (hf : f.Holds T 0)
    (h : ∀ d ∈ f.ops.toList, d.kind ≠ .construct .tryCatch) : TryFree T := by
  intro n hn hk
  have hkind := hf.kindIs hn (· == .construct .tryCatch)
  unfold Func.kindIs at hkind
  cases hd : f.op? n.id with
  | none => simp [hd, hk] at hkind
  | some d =>
    have hmem : d ∈ f.ops.toList := Array.mem_toList_iff.mpr (Array.mem_of_getElem? hd)
    exact h d hmem (by simpa [hd, hk] using hkind)

end Unnest
