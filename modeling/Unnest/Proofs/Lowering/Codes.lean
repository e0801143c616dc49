import Mathlib
import Unnest.Lower.Unwinding
/-!
# Codes

The ops that leave a try get codes one after another: an op whose destination has a code already
shares it, and a new destination gets the next code. So the destinations of a route are those of the
ops, each once and in the order in which they first occur, and the codes number them from one on
(`foldl_assignCode`).
-/

namespace Unnest

/-- Where an op goes that leaves a try: where it is bound to, and out of the function otherwise. -/
def Bindings.previous (B : Bindings) (op : OpId) : Destination := (B.jump? op).getD .ret

/-- The destinations with one more, unless it is there already. -/
def addDestination (ds : List Destination) (d : Destination) : List Destination :=
  if d ∈ ds then ds else ds ++ [d]

/-- The destinations of the given ops, each once. -/
def Bindings.destinations (B : Bindings) (ops : List OpId) : List Destination :=
  (ops.map B.previous).foldl addDestination []

/-- The code of the destination at a place in a route. -/
def codeAt (i : Nat) : Int64 := Int64.ofNat (i + 1)

/-- Destinations with their codes. -/
def numbered (ds : List Destination) : List (Int64 × Destination) :=
  ds.zipIdx.map fun p => (codeAt p.2, p.1)

/-- The code of one of the destinations. -/
def codeOf (ds : List Destination) (d : Destination) : Int64 := codeAt (ds.idxOf d)

/-! ## Destinations -/

section

variable {ds : List Destination} {d : Destination}

theorem addDestination_extends (ds : List Destination) (d : Destination) :
    ds <+: addDestination ds d := by
  unfold addDestination
  split
  · exact List.prefix_rfl
  · exact List.prefix_append ds [d]

theorem foldl_addDestination_extends (ds new : List Destination) :
    ds <+: new.foldl addDestination ds := by
  induction new generalizing ds with
  | nil => exact List.prefix_rfl
  | cons d new ih => exact (addDestination_extends ds d).trans (ih _)

theorem mem_addDestination (ds : List Destination) (d : Destination) : d ∈ addDestination ds d := by
  unfold addDestination
  split
  · assumption
  · simp

theorem nodup_addDestination (h : ds.Nodup) (d : Destination) : (addDestination ds d).Nodup := by
  unfold addDestination
  split
  · exact h
  · rename_i hd
    refine List.nodup_append.mpr ⟨h, by simp, ?_⟩
    rintro a ha c hc rfl
    exact hd (List.mem_singleton.mp hc ▸ ha)

theorem nodup_foldl_addDestination (h : ds.Nodup) (new : List Destination) :
    (new.foldl addDestination ds).Nodup := by
  induction new generalizing ds with
  | nil => exact h
  | cons d new ih => exact ih (nodup_addDestination h d)

theorem mem_foldl_addDestination (ds new : List Destination) :
    d ∈ new.foldl addDestination ds ↔ d ∈ ds ∨ d ∈ new := by
  induction new generalizing ds with
  | nil => simp
  | cons c new ih =>
    rw [List.foldl_cons, ih, addDestination, List.mem_cons]
    split
    · constructor
      · exact fun h => h.imp_right .inr
      · rintro (h | rfl | h)
        exacts [.inl h, .inl ‹_›, .inr h]
    · simp [or_assoc]

variable {B : Bindings} {ops : List OpId}

theorem Bindings.nodup_destinations (B : Bindings) (ops : List OpId) : (B.destinations ops).Nodup :=
  nodup_foldl_addDestination List.nodup_nil _

theorem Bindings.mem_destinations : d ∈ B.destinations ops ↔ ∃ op ∈ ops, B.previous op = d := by
  rw [destinations, mem_foldl_addDestination]
  simp

/-- The place of a destination does not change when others are added. -/
theorem codeOf_extended {new : List Destination} (h : ds <+: new) (hd : d ∈ ds) :
    codeOf new d = codeOf ds d := by
  obtain ⟨more, rfl⟩ := h
  rw [codeOf, codeOf, List.idxOf_append_of_mem hd]

theorem numbered_append (ds : List Destination) (d : Destination) :
    numbered (ds ++ [d]) = numbered ds ++ [(codeAt ds.length, d)] := by
  simp [numbered, List.zipIdx_append]

theorem length_numbered (ds : List Destination) : (numbered ds).length = ds.length := by
  simp [numbered]

theorem mem_numbered (hn : ds.Nodup) {code : Int64} :
    (code, d) ∈ numbered ds ↔ d ∈ ds ∧ code = codeOf ds d := by
  simp only [numbered, List.mem_map, Prod.mk.injEq, Prod.exists, List.mem_zipIdx_iff_getElem?]
  constructor
  · rintro ⟨d', i, hi, rfl, rfl⟩
    obtain ⟨hlt, rfl⟩ := List.getElem?_eq_some_iff.mp hi
    exact ⟨List.getElem_mem hlt, by rw [codeOf, hn.idxOf_getElem]⟩
  · rintro ⟨hd, rfl⟩
    exact ⟨d, ds.idxOf d, by simp [List.getElem?_idxOf hd], rfl, rfl⟩

/-- The code of a destination is found by looking for the destination. -/
theorem find?_numbered (hn : ds.Nodup) (d : Destination) :
    (numbered ds).find? (·.2 == d) = if d ∈ ds then some (codeOf ds d, d) else none := by
  split
  · rename_i hd
    cases hf : (numbered ds).find? (·.2 == d) with
    | none =>
      have := List.find?_eq_none.mp hf _ ((mem_numbered hn).mpr ⟨hd, rfl⟩)
      simp at this
    | some c =>
      obtain ⟨code, d'⟩ := c
      have hd' : d' = d := by simpa using List.find?_some hf
      obtain ⟨-, rfl⟩ := (mem_numbered hn).mp (List.mem_of_find?_eq_some hf)
      rw [hd']
  · rename_i hd
    refine List.find?_eq_none.mpr fun c hc => ?_
    obtain ⟨code, d'⟩ := c
    have := ((mem_numbered hn).mp hc).1
    simp only [beq_iff_eq]
    rintro rfl
    exact hd this

/-! ## Numbers that fit -/

end

/-! ## Giving out the codes -/

/-- The bindings with the given ops bound to codes of a try. -/
def Bindings.bindCodes (B : Bindings) (op : OpId) (ds : List Destination) (ops : List OpId) :
    Bindings :=
  { B with
    jumps := ops.foldl (fun t id => t.insert id (.final op (codeOf ds (B.previous id)))) B.jumps }

section

variable {B : Bindings} {op id : OpId} {ops : List OpId} {ds : List Destination}

theorem assignCode_numbered (hn : ds.Nodup) :
    Lower.assignCode op (B, numbered ds) id =
      (B.setJump id (.final op (codeOf (addDestination ds (B.previous id)) (B.previous id))),
        numbered (addDestination ds (B.previous id))) := by
  have hprev : (B.jump? id).getD .ret = B.previous id := rfl
  simp only [Lower.assignCode, hprev, find?_numbered hn]
  unfold addDestination
  by_cases hd : B.previous id ∈ ds
  · simp [hd]
  · simp only [hd, ↓reduceIte, length_numbered]
    have : codeOf (ds ++ [B.previous id]) (B.previous id) = codeAt ds.length := by
      rw [codeOf, List.idxOf_append_of_notMem hd]
      simp
    rw [this, numbered_append]
    rfl

theorem Bindings.previous_setJump_of_ne {id' : OpId} {d : Destination} (h : id ≠ id') :
    (B.setJump id d).previous id' = B.previous id' := by
  simp [previous, jump?, setJump, Table.get?_insert_of_ne _ _ h]

/-- What the ops were bound to is read before they are bound to codes. -/
theorem foldl_assignCode_from {B₀ : Bindings} (hnd : ops.Nodup) (hn : ds.Nodup)
    (hB : ∀ id ∈ ops, B.previous id = B₀.previous id) :
    ops.foldl (Lower.assignCode op) (B, numbered ds) =
      (ops.foldl (fun b id => b.setJump id (.final op (codeOf
        ((ops.map B₀.previous).foldl addDestination ds) (B₀.previous id)))) B,
          numbered ((ops.map B₀.previous).foldl addDestination ds)) := by
  induction ops generalizing B ds with
  | nil => rfl
  | cons id ops ih =>
    obtain ⟨hid, hnd⟩ := List.nodup_cons.mp hnd
    have hprev : B.previous id = B₀.previous id := hB id (by simp)
    rw [List.foldl_cons, assignCode_numbered hn, ih hnd (nodup_addDestination hn _)]
    · rw [hprev, List.map_cons, List.foldl_cons, List.foldl_cons]
      rw [codeOf_extended (foldl_addDestination_extends _ _) (mem_addDestination ds _)]
    · intro id' hid'
      rw [Bindings.previous_setJump_of_ne (ne_of_mem_of_not_mem hid' hid).symm]
      exact hB id' (by simp [hid'])

theorem foldl_setJump (g : OpId → Destination) (B : Bindings) (ops : List OpId) :
    ops.foldl (fun b id => b.setJump id (g id)) B =
      { B with jumps := ops.foldl (fun t id => t.insert id (g id)) B.jumps } := by
  induction ops generalizing B with
  | nil => rfl
  | cons id ops ih =>
    rw [List.foldl_cons, ih]
    rfl

/-- The ops are bound to the codes of their destinations. -/
theorem foldl_assignCode (op : OpId) (B : Bindings) (hnd : ops.Nodup) :
    ops.foldl (Lower.assignCode op) (B, []) =
      (B.bindCodes op (B.destinations ops) ops, numbered (B.destinations ops)) := by
  rw [Bindings.bindCodes, ← foldl_setJump fun id =>
    .final op (codeOf (B.destinations ops) (B.previous id))]
  exact foldl_assignCode_from hnd List.nodup_nil fun _ _ => rfl

end

end Unnest
