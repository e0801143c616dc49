import Unnest.Proofs.Lowering.Runs
import Unnest.Proofs.Lowering.Settled
import Unnest.Proofs.Ownership.Lowering
/-!
# Where jumps go

A jump is bound when the construct is lowered that it refers to, and what is bound is not accepted
by any construct that is still around it (`Bound`). So once it is bound, a jump is only ever sent
through finallys: each try that it leaves puts its own code in front of where the jump went before
(`Through`).
-/

namespace Unnest

/-! ## Constructs that accept a jump -/

/-- Some construct on the trail accepts a jump of the given kind at the end of the trail. -/
def Trail.Accepts (k : OpKind) : Trail → Prop
  | [] => False
  | (n, _) :: p => (∃ c, n.kind = .construct c ∧
      c.isNamedBy (({} : Shadow).along c.label? p) k = true) ∨ Trail.Accepts k p

@[simp] theorem Trail.not_accepts_nil (k : OpKind) : ¬Trail.Accepts k [] := id

variable {k : OpKind} {p : Trail}

theorem Trail.accepts_cons {n : OpTree} {i : Nat} :
    Trail.Accepts k ((n, i) :: p) ↔ (∃ c, n.kind = .construct c ∧
      c.isNamedBy (({} : Shadow).along c.label? p) k = true) ∨ Trail.Accepts k p :=
  .rfl

section

variable (g : BlockId → BlockId) (k : OpKind)

@[simp] theorem OpKind.isBreakable_mapSuccessors :
    (k.mapSuccessors g).isBreakable = k.isBreakable := by
  cases k with
  | construct c => cases c <;> rfl
  | _ => rfl

@[simp] theorem OpKind.isLoop_mapSuccessors : (k.mapSuccessors g).isLoop = k.isLoop := by
  cases k with
  | construct c => cases c <;> rfl
  | _ => rfl

@[simp] theorem OpKind.label?_mapSuccessors : (k.mapSuccessors g).label? = k.label? := by
  cases k with
  | construct c => cases c <;> rfl
  | _ => rfl

@[simp] theorem Construct.isNamedBy_mapSuccessors (c : Construct) (s : Shadow) :
    c.isNamedBy s (k.mapSuccessors g) = c.isNamedBy s k := by
  cases k with
  | construct d => cases d <;> rfl
  | _ => rfl

end

theorem Construct.isNamedBy_switchState (default : BlockId) (s : Shadow) (k : OpKind) :
    (Construct.switchState default).isNamedBy s k = false := by
  unfold isNamedBy
  split <;> simp [isBreakable, isLoop, label?]

@[simp] theorem Shadow.along_rename (ρ : Renaming) (label : Option String) (s : Shadow)
    (p : Trail) : s.along label (p.rename ρ) = s.along label p := by
  simp [Shadow.along, Trail.rename, List.foldl_map, Shadow.enter]

theorem Trail.accepts_rename {ρ : Renaming} {g : BlockId → BlockId} :
    Trail.Accepts (k.mapSuccessors g) (p.rename ρ) ↔ Trail.Accepts k p := by
  induction p with
  | nil => rfl
  | cons q p ih =>
    obtain ⟨n, i⟩ := q
    rw [Trail.rename_cons, Trail.accepts_cons, Trail.accepts_cons, ih]
    refine or_congr_left ?_
    simp only [OpTree.kind_rename, Shadow.along_rename, Construct.isNamedBy_mapSuccessors]
    generalize n.kind = kn
    cases kn with
    | construct c => cases c <;> simp [OpKind.mapSuccessors, Construct.isNamedBy_switchState]
    | _ => simp [OpKind.mapSuccessors]

/-- What a construct sees past the ops on a trail is hidden by none of them. -/
theorem Shadow.along_cons (label : Option String) (s : Shadow) (n : OpTree) (i : Nat) (p : Trail) :
    s.along label ((n, i) :: p) = (s.enter n.kind label).along label p :=
  rfl

theorem Shadow.breaks_along (label : Option String) (s : Shadow) (p : Trail) :
    (s.along label p).breaks = (s.breaks || p.any fun q => q.1.kind.isBreakable) := by
  induction p generalizing s with
  | nil => simp [along]
  | cons q p ih => rw [along_cons, ih]; simp [enter, Bool.or_assoc]

theorem Shadow.continues_along (label : Option String) (s : Shadow) (p : Trail) :
    (s.along label p).continues = (s.continues || p.any fun q => q.1.kind.isLoop) := by
  induction p generalizing s with
  | nil => simp [along]
  | cons q p ih => rw [along_cons, ih]; simp [enter, Bool.or_assoc]

theorem Shadow.label_along (label : Option String) (s : Shadow) (p : Trail) :
    (s.along label p).label =
      (s.label || p.any fun q => label.isSome && q.1.kind.label? == label) := by
  induction p generalizing s with
  | nil => simp [along]
  | cons q p ih => rw [along_cons, ih]; simp [enter, Bool.or_assoc]

/-- A jump that refers to a construct past a trail is accepted by no construct on the trail. -/
theorem Trail.not_accepts_of_isNamedBy {c : Construct}
    (h : c.isNamedBy (({} : Shadow).along c.label? p) k = true) : ¬Trail.Accepts k p := by
  have hnone (q : OpTree × Nat) (hq : q ∈ p) (d : Construct) (hd : q.1.kind = .construct d)
      (s : Shadow) : d.isNamedBy s k = false := by
    have hlabel (name : String) : (c.label? == some name &&
        !(({} : Shadow).along c.label? p).label) = true →
        (d.label? == some name && !s.label) = false := by
      intro h
      simp only [Shadow.label_along, Bool.and_eq_true, Bool.not_eq_true', Bool.or_eq_false_iff,
        List.any_eq_false, beq_iff_eq] at h
      have := h.2.2 q hq
      rw [hd, h.1] at this
      have hne : d.label? ≠ some name := fun hl =>
        this (by simp [OpKind.label?, OpKind.construct?, hl])
      simp [hne]
    revert h
    unfold Construct.isNamedBy
    split
    · intro h
      simp only [Shadow.breaks_along, Bool.and_eq_true, Bool.not_eq_true', Bool.or_eq_false_iff,
        List.any_eq_false] at h
      have := h.2.2 q hq
      rw [hd] at this
      simp [show d.isBreakable = false by simpa [OpKind.isBreakable, OpKind.isConstruct] using this]
    · intro h
      simp only [Shadow.continues_along, Bool.and_eq_true, Bool.not_eq_true', Bool.or_eq_false_iff,
        List.any_eq_false] at h
      have := h.2.2 q hq
      rw [hd] at this
      simp [show d.isLoop = false by simpa [OpKind.isLoop, OpKind.isConstruct] using this]
    · exact hlabel _
    · exact hlabel _
    · simp
  clear h
  induction p with
  | nil => exact Trail.not_accepts_nil k
  | cons q p ih =>
    obtain ⟨n, i⟩ := q
    rintro (⟨d, hd, hn⟩ | hp)
    · rw [hnone (n, i) List.mem_cons_self d hd] at hn
      cases hn
    · exact ih (fun q hq => hnone q (List.mem_cons_of_mem _ hq)) hp

/-! ## Binding in a round -/

theorem Bindings.jump?_bindJumps (t : JumpTargets) (js : List OpTree) (B : Bindings) (id : OpId) :
    (B.bindJumps t js).jump? id = B.jump? id ∨ ∃ n ∈ js, n.id = id ∧ ∃ target,
      t.target? n.kind = some target ∧ (B.bindJumps t js).jump? id = some (.block target) := by
  unfold bindJumps
  induction js generalizing B with
  | nil => exact .inl rfl
  | cons n js ih =>
    rw [List.foldl_cons]
    rcases ih ((t.target? n.kind).elim B fun target => B.setJump n.id (.block target)) with
      h | ⟨m, hm, hid, target, ht, h⟩
    · rw [h]
      cases ht : t.target? n.kind with
      | none => exact .inl rfl
      | some target =>
        simp only [Option.elim_some, setJump, jump?, Table.get?_insert]
        split
        · rename_i hid
          exact .inr ⟨n, List.mem_cons_self, hid, target, ht, rfl⟩
        · exact .inl rfl
    · exact .inr ⟨m, List.mem_cons_of_mem _ hm, hid, target, ht, h⟩

/-- A try whose finally holds ops. -/
def OpTree.KeepsFinally (n : OpTree) : Prop :=
  n.kind = .construct .tryCatch ∧ ∃ r B, n.regions[2]? = some r ∧ r.blocks = [B] ∧
    B.holdsOps = true

/-- What a round does to where an op goes that lies in the given region of the lowered construct
`x`: nothing, or the op is a jump to `x`, or it leaves the try `x` and is sent through its
finally. -/
inductive Rebound (s s' : LowerState) (x : OpTree) (i : Nat) (p : Trail) (e : OpTree) : Prop
  | same (h : s'.bindings.jump? e.id = s.bindings.jump? e.id)
  | named {c : Construct} {target : BlockId} (hk : x.kind = .construct c)
      (hn : c.isNamedBy (({} : Shadow).along c.label? p) e.kind = true)
      (hj : s'.bindings.jump? e.id = some (.block target))
  | routed {k : Int64} {route : Route} (hi : i < 2) (hk : x.KeepsFinally)
      (he : e.escapes s.bindings = true) (hr : s'.bindings.routes.get? x.id = some route)
      (hc : (k, s.bindings.previous e.id) ∈ route.cases)
      (hj : s'.bindings.jump? e.id = some (.final x.id k))

/-- A jump that refers to a construct is in one of its regions. -/
theorem exists_path_of_blockJumps {x n : OpTree} {c : Construct}
    (hn : n ∈ blockJumps c {} (x.regions.flatMap (·.blocks))) :
    ∃ (i : Nat) (r : RegionTree) (p : Trail), x.regions[i]? = some r ∧ Path r.blocks p n ∧
      c.isNamedBy (({} : Shadow).along c.label? p) n.kind = true := by
  obtain ⟨p, ⟨B, hB, hp⟩, hc⟩ := mem_blockJumps.mp hn
  obtain ⟨r, hr, hB⟩ := List.mem_flatMap.mp hB
  obtain ⟨i, hi⟩ := List.getElem?_of_mem hr
  exact ⟨i, r, p, hi, ⟨B, hB, hp⟩, hc⟩

variable {Bf : BlockTree}

/-- What leaves a try is in one of its first two regions. -/
theorem exists_path_of_tryEscapes {hd : Head} {Bb Bc : BlockTree} (q₁ q₂ q₃ : RegionId)
    {B : Bindings} {id : OpId} (hid : id ∈ tryEscapes hd.id Bb Bc Bf B) :
    ∃ (i : Nat) (r : RegionTree) (p : Trail) (e : OpTree), i < 2 ∧
      (OpTree.mk hd [⟨q₁, [Bb]⟩, ⟨q₂, [Bc]⟩, ⟨q₃, [Bf]⟩]).regions[i]? = some r ∧
        Path r.blocks p e ∧ e.id = id ∧ e.escapes B = true := by
  obtain ⟨e, he, hesc, rfl⟩ := mem_tryEscapes.mp hid
  rcases he with he | he
  · obtain ⟨p, hp⟩ := he.path
    exact ⟨0, ⟨q₁, [Bb]⟩, p, e, by omega, rfl, hp, rfl, hesc⟩
  · obtain ⟨p, hp⟩ := he.path
    exact ⟨1, ⟨q₂, [Bc]⟩, p, e, by omega, rfl, hp, rfl, hesc⟩

variable {f f' : Func} {copies : List (OpId × OpId)}

theorem CleanupCode.holdsOps {exit : Lower.CleanupExit} {cleanup : Option BlockId}
    {K : List BlockTree} (h : CleanupCode f f' exit Bf cleanup K copies) (hne : copies ≠ []) :
    Bf.holdsOps = true := by
  cases h with
  | absent => exact absurd rfl hne
  | present hk => exact hk

theorem CopiedAs.clone {τ : Renaming} (h : CopiedAs f f' Bf (some τ) copies) :
    ∃ m, Clone f f' m [Bf] τ := by
  cases h with
  | present hc => exact ⟨_, hc⟩

/-- The ops that were there before are no copies. -/
theorem CopiedAs.not_copy {ρ : Option Renaming} (h : CopiedAs f f' Bf ρ copies) {id : OpId}
    (hid : id.index < f.ops.size) : id ∉ copies.map Prod.snd := by
  intro hmem
  obtain ⟨q, hq, rfl⟩ := List.mem_map.mp hmem
  have := (h.fresh q hq).1
  omega

section

variable {types : TypeTable} {o : LowerOptions} {s s' : LowerState} {T' L R : List BlockTree}
  {x : OpTree} {b : BlockId} {args : List ValueId} {pre post : List OpTree}
  (h : Round types o s s' L R b args pre post x T') {p : Trail} {e : OpTree} {i : Nat}
  {r : RegionTree}

include h

theorem Round.nodup : (idsIn (L ++ ⟨b, args, pre ++ x :: post⟩ :: R)).Nodup := h.holds.nodup_idsIn

/-- Where an op goes that is not in a region of the lowered construct. -/
theorem Round.jump?_outside {id : OpId} (hlt : id.index < s.func.ops.size)
    (hid : ∀ (i : Nat) (r : RegionTree) (p : Trail) (e : OpTree), x.regions[i]? = some r →
      Path r.blocks p e → e.id ≠ id) : s'.bindings.jump? id = s.bindings.jump? id := by
  cases h.reshaped with
  | placed hx hb ho => rw [Bindings.jump?, hb.jumps]; rfl
  | opened hk hc hσ hb ho =>
    rw [hb]
    rcases Bindings.jump?_bindJumps _ _ s.bindings id with hj | ⟨n, hn, rfl, -⟩
    · exact hj
    · obtain ⟨i, r, p, hr, hp, -⟩ := exists_path_of_blockJumps hn
      exact absurd rfl (hid i r p n hr hp)
  | tried hx hk hl hρ ho =>
    have hf := h.holds
    rw [hx] at hf
    rw [hl.jump?_eq hf (hρ.not_copy hlt), if_neg]
    rintro ⟨-, hesc⟩
    obtain ⟨i, r, p, e, -, hr, hp, he, -⟩ := exists_path_of_tryEscapes _ _ _ hesc
    exact absurd he (hid i r p e (hx ▸ hr) hp)

/-- The op at a position in the lowered construct, and the path to it. -/
theorem Round.unique {j : Nat} {r' : RegionTree} {p' : Trail} {e' : OpTree}
    (hr : x.regions[i]? = some r) (he : Path r.blocks p e) (hr' : x.regions[j]? = some r')
    (he' : Path r'.blocks p' e') (hid : e.id = e'.id) : i = j ∧ p = p' ∧ e = e' := by
  obtain ⟨hp, rfl⟩ := (path_of_region hr he).unique h.nodup (path_of_region hr' he') hid
  cases hp
  exact ⟨rfl, rfl, rfl⟩

/-- Where an op goes that is in the lowered construct. -/
theorem Round.rebound (hr : x.regions[i]? = some r) (he : Path r.blocks p e) :
    Rebound s s' x i p e := by
  have hlt : e.id.index < s.func.ops.size := h.holds.index_lt (path_of_region hr he)
  cases h.reshaped with
  | placed hx hb ho => exact .same (by rw [Bindings.jump?, hb.jumps]; rfl)
  | opened hk hc hσ hb ho =>
    rcases Bindings.jump?_bindJumps _ _ s.bindings e.id with hj | ⟨n, hn, hid, target, ht, hj⟩
    · exact .same (by rw [hb]; exact hj)
    · obtain ⟨j, r', p', hr', hp', hn'⟩ := exists_path_of_blockJumps hn
      obtain ⟨rfl, rfl, rfl⟩ := h.unique hr he hr' hp' hid.symm
      exact .named hk hn' (by rw [hb]; exact hj)
  | @tried _ _ hd Bb Bc Bf q₁ q₂ q₃ c _ hx hk hl hρ ho =>
    have hf := h.holds
    rw [hx] at hf
    have hj := hl.jump?_eq hf (hρ.not_copy hlt)
    split at hj
    case isFalse => exact .same hj
    case isTrue hesc =>
      obtain ⟨j, r', p', e', hi, hr', hp', hid, hesc'⟩ :=
        exists_path_of_tryEscapes q₁ q₂ q₃ hesc.2
      rw [← hx] at hr'
      obtain ⟨rfl, rfl, rfl⟩ := h.unique hr he hr' hp' hid.symm
      obtain ⟨cases, hroute, -⟩ := hl.tryRoute hf
      cases hroute with
      | absent _ _ hn hb =>
        rcases hn with hn | hn
        · exact absurd hesc.1 (by simp [hn])
        · exact absurd hesc.2 (by simp [hn])
      | present hs ho' hnew hkeep hne hcases hb =>
        have hxid : x.id = hd.id := by rw [hx]; rfl
        refine .routed hi ⟨by rw [hx]; exact hk, ⟨q₃, [Bf]⟩, Bf, by simp [hx], rfl, hkeep⟩ hesc'
          (by rw [hb, hxid]; exact Table.get?_insert_self ..) ?_ (by rw [hxid]; exact hj)
        rw [hcases, mem_numbered (Bindings.nodup_destinations ..)]
        exact ⟨Bindings.mem_destinations.mpr ⟨_, hesc.2, rfl⟩, rfl⟩

end

/-- Where an op comes from that is found on a path after a round, and where it goes if it is a
copy. -/
inductive Traced (s s' : LowerState) (rest : List BlockTree) (x : OpTree) : Trail → OpTree → Prop
  | code {e : OpTree} (h : e.IsFlat) : Traced s s' rest x [] e
  | outside {σ : ValueId → ValueId} {p : Trail} {e : OpTree} (h : Path rest p e) :
      Traced s s' rest x (p.rename (.uses σ)) (e.rename (.uses σ))
  | inside {σ : ValueId → ValueId} {i : Nat} {r : RegionTree} {p : Trail} {e : OpTree}
      (hr : x.regions[i]? = some r) (h : Path r.blocks p e) :
      Traced s s' rest x (p.rename (.uses σ)) (e.rename (.uses σ))
  | copied {m : CloneMap} {τ : Renaming} {r : RegionTree} {p : Trail} {e : OpTree}
      (hk : x.KeepsFinally) (hr : x.regions[2]? = some r) (h : Path r.blocks p e)
      (hτ : Clone s.func s'.func m r.blocks τ) (hnew : s.func.ops.size ≤ (τ.op e.id).index)
      (hj : s'.bindings.jump? (τ.op e.id) =
        (s.bindings.jump? e.id).or (s.bindings.jump? (τ.op e.id))) :
      Traced s s' rest x (p.rename τ) (e.rename τ)

section

variable {types : TypeTable} {o : LowerOptions} {s s' : LowerState} {T' L R : List BlockTree}
  {x : OpTree} {b : BlockId} {args : List ValueId} {pre post : List OpTree} {p : Trail} {e : OpTree}

theorem Round.traced (h : Round types o s s' L R b args pre post x T') (he : Path T' p e) :
    Traced s s' (L ++ ⟨b, args, pre ++ post⟩ :: R) x p e := by
  cases h.reshaped with
  | placed hx hb ho =>
    cases ho p e he with
    | kept hp => exact .outside hp
    | opened hr hp => exact .inside hr hp
    | copied hτ => cases hτ
    | made hc => exact .code hc
  | opened hk hc hσ hb ho =>
    cases ho p e he with
    | kept hp => exact .outside hp
    | opened hr hp => exact .inside hr hp
    | copied hτ => cases hτ
    | made hc => exact .code hc
  | @tried _ _ hd Bb Bc Bf q₁ q₂ q₃ c _ hx hk hl hρ ho =>
    cases ho p e he with
    | kept hp => exact .outside hp
    | opened hr hp => exact .inside hr hp
    | made hc => exact .code hc
    | @copied τ r p e hτ hr hp =>
      subst hτ
      have hf := h.holds
      rw [hx] at hf
      obtain rfl : ⟨q₃, [Bf]⟩ = r := by simpa [hx] using hr
      have hmem := hρ.mem hp
      have hkeep := hl.clone.holdsOps (List.ne_nil_of_mem hmem)
      have hold : e.id.index < s.func.ops.size := h.holds.index_lt (path_of_region hr hp)
      have hj := hl.jump?_copy hf hρ hold hmem
      have hnew := (hρ.fresh _ hmem).1
      obtain ⟨m, hclone⟩ := hρ.clone
      exact .copied ⟨by rw [hx]; exact hk, _, Bf, hr, rfl, hkeep⟩ hr hp hclone hnew hj

end

/-! ## What is bound is not accepted any more -/

/-- What is settled about jumps belongs to ops, and no construct around a jump that is bound accepts
it. -/
structure Bound (s : LowerState) (T : List BlockTree) : Prop where
  below : ∀ id, s.bindings.jump? id ≠ none → id.index < s.func.ops.size
  free : ∀ p e, Path T p e → s.bindings.jump? e.id ≠ none → ¬Trail.Accepts e.kind p

theorem OpTree.not_accepts_of_isReturn (h : k = .construct .ret ∨ k = .construct .retVal) :
    ¬Trail.Accepts k p := by
  induction p with
  | nil => exact Trail.not_accepts_nil k
  | cons q p ih =>
    rintro (⟨c, -, hc⟩ | hp)
    · rcases h with rfl | rfl <;> cases hc
    · exact ih hp

theorem bound_start (f : Func) (T : List BlockTree) : Bound (.start f) T :=
  ⟨fun _ h => absurd rfl h, fun _ _ _ h => absurd rfl h⟩

/-- What is settled besides the dispatches that are put off stays. -/
theorem LowerState.putOff_bindings (s : LowerState) (ds : List OpId) :
    ∃ pending, (s.putOff ds).tick.bindings = { s.bindings with pending } := by
  obtain ⟨pending, hB, -⟩ := s.bindings.foldl_defer ds
  exact ⟨pending, hB⟩

theorem Bound.putOff {s : LowerState} {T : List BlockTree} (h : Bound s T) (ds : List OpId) :
    Bound (s.putOff ds).tick T := by
  obtain ⟨pending, hB⟩ := s.putOff_bindings ds
  have hj (id : OpId) : (s.putOff ds).tick.bindings.jump? id = s.bindings.jump? id := by
    rw [hB]
    rfl
  exact ⟨fun id hid => h.below id (hj id ▸ hid), fun p e he hb => h.free p e he (hj e.id ▸ hb)⟩

section

variable {types : TypeTable} {o : LowerOptions} {s s' : LowerState} {T' L R : List BlockTree}
  {x : OpTree} {b : BlockId} {args : List ValueId} {pre post : List OpTree} {p : Trail} {e : OpTree}

/-- A round leaves nothing bound that is still accepted. -/
theorem Bound.round (hB : Bound s (L ++ ⟨b, args, pre ++ x :: post⟩ :: R))
    (h : Round types o s s' L R b args pre post x T') : Bound s' T' where
  below id hid := by
    by_cases hlt : id.index < s.func.ops.size
    · exact hlt.trans_le h.grows.ops_le
    · have hnone : s.bindings.jump? id = none := by
        by_contra hne
        exact hlt (hB.below id hne)
      cases h.reshaped with
      | placed hx hb ho =>
        rw [Bindings.jump?, hb.jumps] at hid
        exact absurd hnone hid
      | opened hk hc hσ hb ho =>
        rw [hb] at hid
        rcases Bindings.jump?_bindJumps _ _ s.bindings id with hj | ⟨n, hn, rfl, -⟩
        · exact absurd (hj.trans hnone) hid
        · obtain ⟨i, r, p, hr, hp, -⟩ := exists_path_of_blockJumps hn
          exact absurd (h.holds.index_lt (path_of_region hr hp)) hlt
      | @tried _ _ hd Bb Bc Bf q₁ q₂ q₃ c _ hx hk hl hρ ho =>
        have hf := h.holds
        rw [hx] at hf
        by_cases hcopy : id ∈ c.copies.map Prod.snd
        · obtain ⟨q, hq, rfl⟩ := List.mem_map.mp hcopy
          exact (hρ.fresh q hq).2
        · rw [hl.jump?_eq hf hcopy] at hid
          split at hid
          case isFalse => exact absurd hnone hid
          case isTrue hesc => exact absurd ((hf.tryEscapes hd.id s.bindings).2 id hesc.2) hlt
  free p e he hb := by
    cases h.traced he with
    | code hc => exact Trail.not_accepts_nil _
    | outside hp =>
      simp only [OpTree.kind_rename, OpTree.id_rename] at hb ⊢
      rw [Trail.accepts_rename]
      have hlt := h.holds.index_lt hp.of_rest
      have hj := h.jump?_outside hlt fun i r q n hr hn heq =>
        hp.not_mem_ids h.nodup (heq ▸ hn.mem_ids hr)
      exact hB.free _ _ hp.of_rest (hj ▸ hb)
    | @inside σ i r p e hr hp =>
      simp only [OpTree.kind_rename, OpTree.id_rename] at hb ⊢
      rw [Trail.accepts_rename]
      have hold (hne : s.bindings.jump? e.id ≠ none) : ¬Trail.Accepts e.kind p :=
        fun hacc => hB.free _ _ (path_of_region hr hp) hne (.inr hacc)
      cases h.rebound hr hp with
      | same hj => exact hold (hj ▸ hb)
      | named hk hn hj => exact Trail.not_accepts_of_isNamedBy hn
      | routed hi hk hesc hr hc hj =>
        unfold OpTree.escapes at hesc
        split at hesc
        · rename_i hret
          exact OpTree.not_accepts_of_isReturn (.inl hret)
        · rename_i hret
          exact OpTree.not_accepts_of_isReturn (.inr hret)
        · exact hold (Option.isSome_iff_ne_none.mp hesc)
        · exact hold (Option.isSome_iff_ne_none.mp hesc)
        · cases hesc
    | @copied m τ r p e hk hr hp hτ hnew hj =>
      simp only [OpTree.kind_rename, OpTree.id_rename] at hb ⊢
      rw [Trail.accepts_rename]
      have hnone : s.bindings.jump? (τ.op e.id) = none := by
        by_contra hne
        exact absurd (hB.below _ hne) (by omega)
      rw [hj, hnone, Option.or_none] at hb
      exact fun hacc => hB.free _ _ (path_of_region hr hp) hb (.inr hacc)

end

end Unnest
