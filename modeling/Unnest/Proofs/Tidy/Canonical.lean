import Unnest.Proofs.Ownership.Reachable
import Unnest.Proofs.Tidy.Behaviour
/-!
# The form that gathering constants reaches

After the constants of a function have been gathered, those of the body are the ones at the start of
the entry block, no two of one type and value; all other ops are in their blocks as before;
gathering again changes nothing; and runs of the function have the outcomes they had
(`gatherConstants_canonical`). Constants with blocks nested in them are left out: erasing one takes
these blocks along, and something may branch to them (`gatherConstants_takes_blocks_along`).
-/

namespace Unnest

namespace Func

variable {f : Func}

/-- The type and value of a constant. -/
def constantKey (f : Func) (x : OpId) : Option (Ty × Literal) := do
  let d ← f.op? x
  let v ← d.results.head?
  let info ← f.value? v
  match d.kind with
  | .instr (.constant value) => some (info.ty, value)
  | _ => none

/-- Whether an op has not been erased. -/
def liveAt (f : Func) (x : OpId) : Bool := ((f.op? x).map (·.live)).getD false

/-- The constants of the body stand at the start of its entry block, no two of one type and
value. -/
structure ConstantsFirst (f : Func) (entry : BlockId) : Prop where
  leading : ∀ x ∈ f.bodyOps, f.constantAt x = true → x ∈ f.leading (f.opsIn entry)
  distinct : ((f.leading (f.opsIn entry)).map f.constantKey).Nodup

theorem Defines.constantKey {c : Tidy.Const} (hc : f.Defines c) :
    f.constantKey c.op = some c.key := by
  obtain ⟨d, hd, hkind, hresults, -, info, hinfo, hty⟩ := hc
  unfold Func.constantKey
  simp [hd, hresults, hinfo, hkind, hty]

end Func

namespace Tidy

variable {f f' : Func} {entry : BlockId} {blocks : List BlockId} {kept gone : List Const}
  {σ : ValueId → ValueId}

namespace Gathered

variable (h : Gathered f entry kept gone σ f') (hf : f.Owned)

include h

theorem constantAt_taken {x : OpId} (hx : x ∈ opsOf kept ++ opsOf gone) :
    f.constantAt x = true := by
  rw [← opsOf_append] at hx
  obtain ⟨c, hc, rfl⟩ := List.mem_map.mp hx
  obtain ⟨d, hd, hkind, -⟩ := h.defines c hc
  simp [Func.constantAt, Func.kindIs, hd, hkind, OpKind.isConstant]

/-- The ops that are no constants are where they were, in the same order. -/
theorem filter_opsIn (b : BlockId) :
    (f'.opsIn b).filter (fun x => !f'.constantAt x) =
      (f.opsIn b).filter (fun x => !f.constantAt x) := by
  cases hb : f.block? b with
  | none =>
    have hb' : f'.block? b = none := by rw [h.block?, hb]; rfl
    rw [Func.opsIn, hb', Func.opsIn, hb]
    rfl
  | some bd =>
    have hkept :
        (if b = entry then opsOf kept else []).filter (fun x => !f'.constantAt x) = [] := by
      refine List.filter_eq_nil_iff.mpr fun x hx => ?_
      split at hx
      · simp [h.constantAt_kept hx]
      · simp at hx
    rw [h.opsIn hb, List.filter_append, hkept, List.nil_append, List.filter_filter]
    refine List.filter_congr fun x _ => ?_
    rw [h.constantAt]
    by_cases hx : x ∈ opsOf kept ++ opsOf gone
    · simp [h.constantAt_taken hx]
    · rw [decide_eq_true hx, Bool.and_true]

include hf

theorem constantsFirst (hbd : ∃ bd, f.block? entry = some bd)
    (htaken : ∀ x ∈ f.bodyOps, f.constantAt x = true → x ∈ opsOf kept ++ opsOf gone)
    (hentry : entry ∈ f.blocksIn f.body) : f'.ConstantsFirst entry := by
  obtain ⟨bd, hbd⟩ := hbd
  have hleading := h.leading_kept hbd fun x hx =>
    htaken x (Func.mem_bodyOps.mpr ⟨entry, hentry, hx⟩)
  refine ⟨fun x hx hconst => ?_, ?_⟩
  · rw [hleading]
    obtain ⟨b, hb, hx⟩ := Func.mem_bodyOps.mp hx
    rw [h.outline.body, h.blocksIn] at hb
    obtain ⟨bd', hbd'⟩ := hf.exists_block hb
    rw [h.opsIn hbd', List.mem_append] at hx
    obtain hx | hx := hx
    · split at hx
      · exact hx
      · simp at hx
    · rw [List.mem_filter, decide_eq_true_iff] at hx
      rw [h.constantAt] at hconst
      exact absurd (htaken x (Func.mem_bodyOps.mpr ⟨b, hb, hx.1⟩) hconst) hx.2
  · rw [hleading, opsOf, List.map_map]
    have hkeys : kept.map (f'.constantKey ∘ (·.op)) = (kept.map (·.key)).map some := by
      rw [List.map_map]
      exact List.map_congr_left fun c hc => (h.defines_kept hc).constantKey
    rw [hkeys]
    exact h.keys.map (Option.some_injective _)

omit hf in
theorem liveAt_gone {x : OpId} (hx : x ∈ opsOf gone) : f'.liveAt x = false := by
  obtain ⟨d, operands, -, hd'⟩ := h.erased x hx
  simp [Func.liveAt, hd']

theorem liveAt_kept {x : OpId} (hx : x ∈ opsOf kept) (hlisted : x ∈ f.bodyOps) :
    f'.liveAt x = true := by
  have hgone : x ∉ opsOf gone := List.disjoint_of_nodup_append h.once hx
  obtain ⟨b, -, hxb⟩ := Func.mem_bodyOps.mp hlisted
  obtain ⟨d, hd⟩ := hf.exists_op hxb
  have hlive : d.live = true := by
    by_contra hdead
    have howner := (hf.ops b x).mp hxb
    simp [Func.ownerOfOp, hd, (hf.deadOp x d hd (by simpa using hdead)).1] at howner
  unfold Func.liveAt
  rw [h.op? x hgone, hd]
  simp [hlive]

/-- The constants that were moved or erased, when those at the start of the entry block are the
ones in `ks` and `gs`, and of these the ones in `gs` were erased. -/
theorem countP_bodyOps {ks gs : List Const} {lead : List OpId} (honce : lead.Nodup)
    (htaken : (opsOf ks ++ opsOf gs).Perm lead) (hlead : ∀ x ∈ lead, x ∈ f.bodyOps)
    (hks : ∀ c ∈ ks, c ∈ kept) (hgs : ∀ c ∈ gs, c ∈ gone) :
    f.bodyOps.countP (fun x => f.constantAt x && (decide (x ∉ lead) || !f'.liveAt x)) =
      gs.length + (f.scattered lead).length := by
  have hinside : (f.bodyOps.filter (· ∈ lead)).Perm (opsOf ks ++ opsOf gs) := by
    refine ((List.perm_ext_iff_of_nodup (hf.nodup_bodyOps.filter _) honce).mpr fun x => ?_).trans
      htaken.symm
    rw [List.mem_filter, decide_eq_true_iff]
    exact ⟨fun hx => hx.2, fun hx => ⟨hlead x hx, hx⟩⟩
  have hkept : ∀ x ∈ opsOf ks,
      ¬ (f.constantAt x && (decide (x ∉ lead) || !f'.liveAt x)) = true := by
    intro x hx
    have hmem : x ∈ lead := htaken.mem_iff.mp (List.mem_append_left _ hx)
    obtain ⟨c, hc, rfl⟩ := List.mem_map.mp hx
    simp [hmem, h.liveAt_kept hf (List.mem_map_of_mem (hks c hc)) (hlead _ hmem)]
  have hgone : ∀ x ∈ opsOf gs, (f.constantAt x && (decide (x ∉ lead) || !f'.liveAt x)) = true := by
    intro x hx
    obtain ⟨c, hc, rfl⟩ := List.mem_map.mp hx
    have hmem : c.op ∈ opsOf gone := List.mem_map_of_mem (hgs c hc)
    simp [h.constantAt_taken (List.mem_append_right _ hmem), h.liveAt_gone hmem]
  rw [List.countP_eq_countP_filter_add _ _ (· ∈ lead), hinside.countP_eq, List.countP_append,
    List.countP_eq_zero.mpr hkept, List.countP_eq_length.mpr hgone, Nat.zero_add]
  congr 1
  · exact List.length_map _
  · unfold Func.scattered
    rw [← List.countP_eq_length_filter]
    have hnot : (fun x : OpId => !decide (x ∈ lead)) = fun x => decide (x ∉ lead) := by
      funext x
      simp
    rw [hnot]
    refine List.countP_congr fun x hx => ?_
    have hx : x ∉ lead := by simpa using (List.mem_filter.mp hx).2
    simp [hx]

end Gathered

/-- Programs that differ in one function of the same name. -/
theorem counterparts_of_split {p : Program} {pre post : List Func} (hp : p.funcs = pre ++ f :: post)
    (hname : f'.name = f.name) :
    Machine.Counterparts (Retouched f f') p { p with funcs := pre ++ f' :: post } := by
  have hself (l : List Func) (q : Func → Bool) :
      Option.Rel (Retouched f f') (l.find? q) (l.find? q) := by
    cases l.find? q with
    | none => exact .none
    | some g => exact .some (.inl rfl)
  refine ⟨rfl, fun name => ?_⟩
  unfold Program.func?
  rw [hp]
  change Option.Rel _ _ ((pre ++ f' :: post).find? _)
  rw [List.find?_append, List.find?_append]
  cases hpre : pre.find? (·.name == name) with
  | some g => exact .some (.inl rfl)
  | none =>
    rw [Option.none_or, Option.none_or, List.find?_cons, List.find?_cons, hname]
    cases f.name == name with
    | true => exact .some (.inr ⟨rfl, rfl⟩)
    | false => exact hself post _

/-- Gathering the constants of a function whose constants own nothing ends. Afterwards the constants
of the body stand at the start of its entry block, no two of one type and value, the other ops of
every block are as before, and there is nothing left to gather; the number given is that of the
constants that were moved there or erased. Whatever program the function is part of, calls that had
an outcome have it still, with the same heap and host, when the limit is large enough. -/
theorem gatherConstants_canonical (hf : f.Owned) (hplain : f.PlainConstants)
    (hentry : f.blocksIn f.body = entry :: blocks)
    (hother : ∃ x ∈ f.opsIn entry, f.constantAt x = false) :
    ∃ n f', gatherConstants f = .ok n f' ∧ f'.blocksIn f'.body = entry :: blocks ∧
      f'.ConstantsFirst entry ∧
      (∀ b, (f'.opsIn b).filter (fun x => !f'.constantAt x) =
        (f.opsIn b).filter (fun x => !f.constantAt x)) ∧
      n = f.bodyOps.countP (fun x =>
        f.constantAt x && (decide (x ∉ f.leading (f.opsIn entry)) || !f'.liveAt x)) ∧
      gatherConstants f' = .ok 0 f' ∧
      ∀ (p : Program) (pre post : List Func), p.funcs = pre ++ f :: post →
        ∀ limit name args s outcome s', Machine.run p limit name args s = .ok outcome s' →
          ∃ least, ∀ limit' ≥ least, ∃ t,
            Machine.run { p with funcs := pre ++ f' :: post } limit' name args s =
              .ok outcome t ∧ t.heap = s'.heap ∧ t.host = s'.host := by
  have hmem : entry ∈ f.blocksIn f.body := by simp [hentry]
  obtain ⟨bd, hbd⟩ := hf.exists_block hmem
  obtain ⟨ks, gs, ks', gs', n, σ, f', hrun, h, hlead, hcase⟩ :=
    gatherConstants_gathered hf hplain hentry
  obtain ⟨hn, hscattered⟩ : n = gs.length + (f.scattered (f.leading (f.opsIn entry))).length ∧
      (opsOf ks' ++ opsOf gs').Perm (f.scattered (f.leading (f.opsIn entry))) := by
    obtain ⟨-, -, -, hall⟩ | ⟨hn, hperm, -⟩ := hcase
    · obtain ⟨x, hx, hconst⟩ := hother
      rw [← hall] at hx
      rw [List.mem_takeWhile_imp hx] at hconst
      cases hconst
    · exact ⟨hn, hperm⟩
  -- all constants of the body have been gone through
  have htaken : ∀ x ∈ f.bodyOps, f.constantAt x = true →
      x ∈ opsOf (ks ++ ks') ++ opsOf (gs ++ gs') := fun x hx hconst =>
    mem_taken hlead hscattered hx hconst
  have hbody : ∀ x ∈ f.opsIn entry, x ∈ f.bodyOps := fun x hx =>
    Func.mem_bodyOps.mpr ⟨entry, hmem, hx⟩
  have hsettled := h.settled hf hentry hbd (fun x hx => htaken x (hbody x hx)) (.inr htaken)
  obtain ⟨rd, hrd, -⟩ := exists_region hentry
  refine ⟨n, f', hrun, by rw [h.outline.body, h.blocksIn, hentry],
    h.constantsFirst hf ⟨bd, hbd⟩ htaken hmem, h.filter_opsIn, ?_,
    hsettled.gatherConstants (h.isListed hf ⟨rd, hrd⟩), ?_⟩
  · rw [hn]
    refine (h.countP_bodyOps hf ?_ hlead ?_ ?_ ?_).symm
    · exact (hf.opsOnce entry).sublist (List.takeWhile_sublist _)
    · exact fun x hx => hbody x ((List.takeWhile_sublist _).subset hx)
    · exact fun c hc => List.mem_append_left _ hc
    · exact fun c hc => List.mem_append_left _ hc
  · intro p pre post hp limit name args s outcome s' hcall
    obtain ⟨least, hleast⟩ := (h.simulates hf hplain hentry
      (counterparts_of_split hp h.outline.name)).run hcall
    refine ⟨least, fun limit' hle => ?_⟩
    obtain ⟨t, ⟨hheap, hhost, -⟩, ht⟩ := hleast limit' hle
    exact ⟨t, ht, hheap, hhost⟩

end Tidy

/-- Constants are plain if a look at the table says so. -/
theorem Func.plainConstants_of_all {f : Func} (h : f.ops.all (fun d =>
      !d.kind.isConstant || (d.results.length == 1 && d.regions.isEmpty)) = true) :
    f.PlainConstants := by
  intro x d hd hconst
  have hmem : d ∈ f.ops := Array.mem_of_getElem? hd
  have := Array.all_eq_true_iff_forall_mem.mp h d hmem
  obtain ⟨hlength, hregions⟩ : d.results.length = 1 ∧ d.regions = [] := by simpa [hconst] using this
  exact ⟨hlength, bare_of_nil hregions⟩

/-- Whether a call returned the integer. -/
def Machine.returnsInt (n : Int64) : EStateM.Result RunError Store Outcome → Bool
  | .ok (.returned (some (.int m))) _ => m == n
  | _ => false

theorem Machine.eq_of_returnsInt {n : Int64} {r : EStateM.Result RunError Store Outcome}
    (h : returnsInt n r = true) : ∃ t, r = .ok (.returned (some (.int n))) t := by
  unfold returnsInt at h
  split at h
  · exact ⟨_, by rw [beq_iff_eq.mp h]⟩
  · cases h

/-- Whether a call failed, and not because of the limit. -/
def Machine.failsUncut : EStateM.Result RunError Store Outcome → Bool
  | .error (.stepLimit _ _) _ | .ok _ _ => false
  | .error _ _ => true

theorem Machine.error_of_failsUncut {r : EStateM.Result RunError Store Outcome}
    (h : failsUncut r = true) : isCut r = false ∧ ∃ e t, r = .error e t := by
  unfold failsUncut at h
  split at h
  · cases h
  · cases h
  · refine ⟨?_, _, _, rfl⟩
    unfold isCut
    split
    · simp_all
    · rfl

namespace Tidy

/-- A sum of constants, one of which is there twice. -/
def repeatedConstant : Func :=
  Source.built "f" ⟨[], .i32⟩ [.newBlock (some "next"), .constant (.int 1) .i32 none,
    .op (.transfer (.br ⟨1⟩)) [] [] [], .cursor (.named "next"),
    .constant (.int 1) .i32 (some "one"), .constant (.int 2) .i32 (some "two"),
    .binary .add (.named "one") (.named "two") (some "sum"),
    .op (.transfer .ret) [.named "sum"] [] []]

/-- The sum is still right when it uses the constant of the block before. -/
theorem gatherConstants_canonical_repeatedConstant :
    repeatedConstant.Owned ∧ repeatedConstant.PlainConstants ∧
    ∃ n f', gatherConstants repeatedConstant = .ok n f' ∧ f'.ConstantsFirst ⟨0⟩ ∧
      gatherConstants f' = .ok 0 f' ∧
      ∃ least, ∀ limit ≥ least, ∃ t, Machine.run { name := "m", funcs := [f'] } limit "f" [] {} =
        .ok (.returned (some (.int 3))) t := by
  have howned : repeatedConstant.Owned :=
    (Func.Reachable.built "f" ⟨[], .i32⟩ _ (leaves_left (by decide +kernel))).sound.owned
  have hplain : repeatedConstant.PlainConstants :=
    Func.plainConstants_of_all (by decide +kernel)
  have hentry : repeatedConstant.blocksIn repeatedConstant.body = ⟨0⟩ :: [⟨1⟩] := by decide +kernel
  refine ⟨howned, hplain, ?_⟩
  obtain ⟨n, f', hgather, -, hfirst, -, -, hagain, hruns⟩ :=
    gatherConstants_canonical howned hplain hentry ⟨⟨1⟩, by decide +kernel, by decide +kernel⟩
  obtain ⟨s', hrun⟩ : ∃ t, Machine.run { name := "m", funcs := [repeatedConstant] } 9 "f" [] {} =
      .ok (.returned (some (.int 3))) t := Machine.eq_of_returnsInt (by decide +kernel)
  obtain ⟨least, hleast⟩ := hruns _ [] [] rfl 9 "f" [] {} _ s' hrun
  refine ⟨n, f', hgather, hfirst, hagain, least, fun limit hle => ?_⟩
  obtain ⟨t, ht, -⟩ := hleast limit hle
  exact ⟨t, ht⟩

/-- A constant that owns a block, to which its function branches. -/
def constantWithBlock : Func :=
  left (Edit.replaceKind ⟨1⟩ (.instr (.constant (.int 1)))) (Source.built "f" ⟨[], .i32⟩
    [.constant (.int 1) .i32 (some "one"),
      .ifValues (.named "one") [.i32] [.op (.transfer .ret) [.named "one"] [] []] [] [] [] [],
      .op (.transfer (.br ⟨1⟩)) [] [] []])

/-- Where a constant owns a block, erasing it may take away what is branched to: the call returned
before and fails afterwards, under every higher limit. -/
theorem gatherConstants_takes_blocks_along :
    constantWithBlock.Owned ∧
    (∀ x d, constantWithBlock.op? x = some d → d.kind.isConstant = true → d.results.length = 1) ∧
    constantWithBlock.blocksIn constantWithBlock.body = [⟨0⟩] ∧
    (∃ x ∈ constantWithBlock.opsIn ⟨0⟩, constantWithBlock.constantAt x = false) ∧
    (∃ t, Machine.run { name := "m", funcs := [constantWithBlock] } 4 "f" [] {} =
      .ok (.returned (some (.int 1))) t) ∧
    ∃ n f', gatherConstants constantWithBlock = .ok n f' ∧
      ∀ limit ≥ 4, ∃ e t,
        Machine.run { name := "m", funcs := [f'] } limit "f" [] {} = .error e t := by
  have howned : constantWithBlock.Owned :=
    (Func.Reachable.edited (.replaceKind ⟨1⟩ (.instr (.constant (.int 1))))
      (.built "f" ⟨[], .i32⟩ _ (leaves_left (by decide +kernel))) trivial
      (leaves_left (by decide +kernel))).sound.owned
  have hresults : constantWithBlock.ops.all (fun d =>
      !d.kind.isConstant || d.results.length == 1) = true := by decide +kernel
  refine ⟨howned, fun x d hd hconst => ?_, by decide +kernel,
    ⟨⟨4⟩, by decide +kernel, by decide +kernel⟩, Machine.eq_of_returnsInt (by decide +kernel), ?_⟩
  · have := Array.all_eq_true_iff_forall_mem.mp hresults d (Array.mem_of_getElem? hd)
    simpa [hconst] using this
  · obtain ⟨n, hgather⟩ : ∃ n, gatherConstants constantWithBlock =
        .ok n (left gatherConstants constantWithBlock) := ok_left (by decide +kernel)
    refine ⟨n, _, hgather, fun limit hle => ?_⟩
    have hfails : Machine.failsUncut (Machine.run
        { name := "m", funcs := [left gatherConstants constantWithBlock] } 4 "f" [] {}) = true := by
      decide +kernel
    obtain ⟨hcut, e, t, herror⟩ := Machine.error_of_failsUncut hfails
    exact ⟨e, t, (Machine.run_of_not_cut hle hcut).trans herror⟩

end Tidy

end Unnest
