import Mathlib
import Unnest.Run.Machine
/-!
# Reading and writing cells

A write goes inward along the path of its pointer as a read does, so the two fail on the same
pointers. A write that succeeds changes the value at its pointer and nothing beside it:

* `Value.follow_replace`: below the pointer there is what was written;
* `Value.follow_replace_apart`: a path that leaves the path of the pointer leads where it led;
* `Value.Altered`: above the pointer, each tuple is as it was but for the field on the way.

`Machine.write_exact` says all this of the heap of a machine.
-/

namespace Unnest

namespace Value

variable {v w new u : Value} {path rest : List Nat}

/-- A path of fields can be written exactly if it can be read. -/
theorem replace_ok_iff : (∃ w, v.replace new path = .ok w) ↔ ∃ u, v.follow path = .ok u := by
  induction path generalizing v with
  | nil => exact ⟨fun _ => ⟨v, rfl⟩, fun _ => ⟨new, rfl⟩⟩
  | cons i path ih =>
    cases v with
    | tuple items =>
      simp only [replace, follow]
      cases items[i]? with
      | none => simp
      | some item =>
        refine Iff.trans ?_ ih
        cases hw : item.replace new path <;> simp [hw, Functor.map, Except.map]
    | _ => simp [replace, follow]

/-- A write below a tuple is a write in one of its fields. -/
theorem replace_cons_eq_ok {i : Nat} (h : v.replace new (i :: path) = .ok w) :
    ∃ items item item', v = tuple items ∧ items[i]? = some item ∧
      item.replace new path = .ok item' ∧ w = tuple (items.set i item') := by
  cases v with
  | tuple items =>
    simp only [replace] at h
    cases hi : items[i]? with
    | none => simp [hi] at h
    | some item =>
      simp only [hi] at h
      cases hr : item.replace new path with
      | error e => simp [hr, Functor.map, Except.map] at h
      | ok item' =>
        simp only [hr, Functor.map, Except.map, Except.ok.injEq] at h
        exact ⟨items, item, item', rfl, hi, hr, h.symm⟩
  | _ => simp [replace] at h

theorem follow_replace (h : v.replace new path = .ok w) (rest : List Nat) :
    w.follow (path ++ rest) = new.follow rest := by
  induction path generalizing v w with
  | nil =>
    cases h
    rfl
  | cons i path ih =>
    obtain ⟨items, item, item', rfl, hi, hr, rfl⟩ := replace_cons_eq_ok h
    obtain ⟨hlt, -⟩ := List.getElem?_eq_some_iff.mp hi
    simpa [follow, hlt] using ih hr

/-- The same value, or a failure at the same field. A failure shows what is there instead of the
field, and that may have changed. -/
inductive SameReading : Except RunError Value → Except RunError Value → Prop
  | value (v : Value) : SameReading (.ok v) (.ok v)
  | noField (index : Nat) (v w : Value) :
      SameReading (.error (.noField index v)) (.error (.noField index w))

theorem SameReading.refl_follow (v : Value) (path : List Nat) :
    SameReading (v.follow path) (v.follow path) := by
  induction path generalizing v with
  | nil => exact .value v
  | cons i path ih =>
    cases v with
    | tuple items =>
      simp only [follow]
      cases items[i]? with
      | none => exact .noField i _ _
      | some item => exact ih item
    | _ => exact .noField i _ _

theorem follow_replace_apart (h : v.replace new path = .ok w) (hr : ¬ rest <+: path)
    (hp : ¬ path <+: rest) : SameReading (v.follow rest) (w.follow rest) := by
  induction path generalizing v w rest with
  | nil => exact absurd List.nil_prefix hp
  | cons i path ih =>
    obtain ⟨items, item, item', rfl, hi, hw, rfl⟩ := replace_cons_eq_ok h
    obtain ⟨hlt, -⟩ := List.getElem?_eq_some_iff.mp hi
    cases rest with
    | nil => exact absurd List.nil_prefix hr
    | cons j rest =>
      simp only [follow]
      by_cases hj : i = j
      · subst j
        rw [hi, List.getElem?_set_self hlt]
        exact ih hw (by simpa using hr) (by simpa using hp)
      · rw [List.getElem?_set_ne hj]
        cases items[j]? with
        | none => exact .noField j _ _
        | some other => exact .refl_follow other rest

/-- The value `w` is `v` with `new` at the end of the path: every tuple on the way has as many
fields as before, and all of them are as they were but the one that the path goes through. -/
inductive Altered (new : Value) : List Nat → Value → Value → Prop
  | here (v : Value) : Altered new [] v new
  | field {i : Nat} {path : List Nat} {items items' : List Value} {item item' : Value}
      (hi : items[i]? = some item) (hi' : items'[i]? = some item') (h : Altered new path item item')
      (hlen : items'.length = items.length) (hrest : ∀ j, j ≠ i → items'[j]? = items[j]?) :
      Altered new (i :: path) (tuple items) (tuple items')

theorem altered_replace (h : v.replace new path = .ok w) : Altered new path v w := by
  induction path generalizing v w with
  | nil =>
    cases h
    exact .here v
  | cons i path ih =>
    obtain ⟨items, item, item', rfl, hi, hw, rfl⟩ := replace_cons_eq_ok h
    obtain ⟨hlt, -⟩ := List.getElem?_eq_some_iff.mp hi
    exact .field hi (List.getElem?_set_self hlt) (ih hw) List.length_set
      fun j hj => List.getElem?_set_ne (Ne.symm hj)

/-- What a write does to a value on the way. -/
theorem altered_above (h : v.replace new (path ++ rest) = .ok w) :
    ∃ old now, v.follow path = .ok old ∧ w.follow path = .ok now ∧ Altered new rest old now := by
  induction path generalizing v w with
  | nil => exact ⟨v, w, rfl, rfl, altered_replace h⟩
  | cons i path ih =>
    obtain ⟨items, item, item', rfl, hi, hw, rfl⟩ := replace_cons_eq_ok h
    obtain ⟨hlt, -⟩ := List.getElem?_eq_some_iff.mp hi
    simp only [follow, hi, List.getElem?_set_self hlt]
    exact ih hw

end Value

/-- The pointer to what the path leads to below what a pointer points to. -/
def Pointer.below (p : Pointer) (path : List Nat) : Pointer := { p with path := p.path ++ path }

namespace Heap

variable {h h' : Heap} {p q : Pointer} {new : Value}

theorem write_ok_iff : (∃ h', h.write p new = .ok h') ↔ ∃ u, h.read p = .ok u := by
  unfold write read
  cases h[p.cell]? with
  | none => simp
  | some v =>
    have hiff : (∃ w, v.replace new p.path = .ok w) ↔ _ := Value.replace_ok_iff
    refine Iff.trans ?_ hiff
    cases hw : v.replace new p.path <;> simp [hw, Functor.map, Except.map]

/-- A write changes one cell. -/
theorem write_eq_ok (hw : h.write p new = .ok h') : ∃ v w, h[p.cell]? = some v ∧
    v.replace new p.path = .ok w ∧ h' = h.setIfInBounds p.cell w := by
  unfold write at hw
  cases hv : h[p.cell]? with
  | none => simp [hv] at hw
  | some v =>
    simp only [hv] at hw
    cases hr : v.replace new p.path with
    | error e => simp [hr, Functor.map, Except.map] at hw
    | ok w =>
      simp only [hr, Functor.map, Except.map, Except.ok.injEq] at hw
      exact ⟨v, w, rfl, hr, hw.symm⟩

theorem read_of_cell {v : Value} (hv : h[p.cell]? = some v) : h.read p = v.follow p.path := by
  simp [read, hv]

section

variable (hw : h.write p new = .ok h')
include hw

/-- The cell that a write changes, before and after it. -/
theorem cell_of_write : ∃ v w, h[p.cell]? = some v ∧ h'[p.cell]? = some w ∧
    v.replace new p.path = .ok w := by
  obtain ⟨v, w, hv, hr, rfl⟩ := write_eq_ok hw
  obtain ⟨hlt, -⟩ := Array.getElem?_eq_some_iff.mp hv
  exact ⟨v, w, hv, by simp [hlt], hr⟩

theorem read_below (path : List Nat) : h'.read (p.below path) = new.follow path := by
  obtain ⟨v, w, -, hw', hr⟩ := cell_of_write hw
  exact (read_of_cell (p := p.below path) hw').trans (Value.follow_replace hr path)

theorem read_other_cell (hq : q.cell ≠ p.cell) : h'.read q = h.read q := by
  obtain ⟨v, w, hv, hr, rfl⟩ := write_eq_ok hw
  simp [read, hq.symm]

theorem read_apart (hc : q.cell = p.cell) (hr : ¬ q.path <+: p.path) (hp : ¬ p.path <+: q.path) :
    Value.SameReading (h.read q) (h'.read q) := by
  obtain ⟨v, w, hv, hw', hr'⟩ := cell_of_write hw
  rw [read_of_cell (hc ▸ hv), read_of_cell (hc ▸ hw')]
  exact Value.follow_replace_apart hr' hr hp

theorem read_above {path : List Nat} (hq : p = q.below path) : ∃ old now, h.read q = .ok old ∧
    h'.read q = .ok now ∧ Value.Altered new path old now := by
  obtain ⟨v, w, hv, hw', hr⟩ := cell_of_write hw
  subst hq
  rw [read_of_cell (p := q) hv, read_of_cell (p := q) hw']
  exact Value.altered_above hr

end

end Heap

namespace Machine

variable {p : Pointer} {v : Value} {s : Store} {e : RunError} {heap : Heap}

theorem read_of_ok (h : s.heap.read p = .ok v) : read p s = .ok v s := by
  simp [read, bind, EStateM.bind, get, getThe, MonadStateOf.get, EStateM.get, liftM, monadLift,
    MonadLift.monadLift, h]

theorem read_of_error (h : s.heap.read p = .error e) : read p s = .error e s := by
  simp [read, bind, EStateM.bind, get, getThe, MonadStateOf.get, EStateM.get, liftM, monadLift,
    MonadLift.monadLift, h]

theorem write_of_ok (h : s.heap.write p v = .ok heap) : write p v s = .ok () { s with heap } := by
  simp [write, bind, EStateM.bind, get, getThe, MonadStateOf.get, EStateM.get, liftM, monadLift,
    MonadLift.monadLift, modify, modifyGet, MonadStateOf.modifyGet, EStateM.modifyGet, h]

theorem write_of_error (h : s.heap.write p v = .error e) : write p v s = .error e s := by
  simp [write, bind, EStateM.bind, get, getThe, MonadStateOf.get, EStateM.get, liftM, monadLift,
    MonadLift.monadLift, h]

/-- A write succeeds where a read does, and changes nothing when it fails. When it succeeds, a read
at its pointer or below it gives what was written there; a read in another cell, or at a path that
is not on one way with the path of the pointer, gives what it gave; and a read above the pointer
gives the tuple that was there with nothing but the value at the pointer replaced. -/
theorem write_exact (p : Pointer) (v : Value) (s : Store) :
    ((∃ s', write p v s = .ok () s') ↔ ∃ u, read p s = .ok u s) ∧
    (∀ e s', write p v s = .error e s' → s' = s) ∧
    ∀ s', write p v s = .ok () s' →
      (s' = { s with heap := s'.heap } ∧ s'.heap.size = s.heap.size) ∧
      read p s' = .ok v s' ∧
      (∀ q, q.cell ≠ p.cell → s'.heap.read q = s.heap.read q) ∧
      (∀ q, q.cell = p.cell → ¬ q.path <+: p.path → ¬ p.path <+: q.path →
        Value.SameReading (s.heap.read q) (s'.heap.read q)) ∧
      (∀ path, s'.heap.read (p.below path) = v.follow path) ∧
      ∀ q path, path ≠ [] → p = q.below path → ∃ items items',
        s.heap.read q = .ok (.tuple items) ∧ s'.heap.read q = .ok (.tuple items') ∧
        Value.Altered v path (.tuple items) (.tuple items') := by
  cases h : s.heap.write p v with
  | error e =>
    rw [write_of_error h]
    refine ⟨⟨by simp, fun hr => ?_⟩, by simp, by simp⟩
    obtain ⟨u, hr⟩ := hr
    cases hr' : s.heap.read p with
    | error e' => simp [read_of_error hr'] at hr
    | ok u =>
      obtain ⟨heap, hw⟩ := Heap.write_ok_iff.mpr ⟨u, hr'⟩
      cases h.symm.trans hw
  | ok heap =>
    rw [write_of_ok h]
    obtain ⟨u, hread⟩ := Heap.write_ok_iff.mp ⟨heap, h⟩
    refine ⟨⟨fun _ => ⟨u, read_of_ok hread⟩, fun _ => ⟨_, rfl⟩⟩, by simp, fun s' hw => ?_⟩
    · cases hw
      have hself : heap.read p = .ok v := by
        simpa [Pointer.below, Value.follow] using Heap.read_below h []
      refine ⟨⟨rfl, ?_⟩, read_of_ok hself, fun q => Heap.read_other_cell h,
        fun q => Heap.read_apart h, Heap.read_below h, fun q path hne hq => ?_⟩
      · obtain ⟨u, w, -, -, rfl⟩ := Heap.write_eq_ok h
        exact Array.size_setIfInBounds
      · obtain ⟨old, now, hold, hnow, halt⟩ := Heap.read_above h hq
        cases halt with
        | here => exact absurd rfl hne
        | field hi hi' ha hlen hrest => exact ⟨_, _, hold, hnow, .field hi hi' ha hlen hrest⟩

/-- A write into the inner one of two tuples. -/
theorem write_exact_nested : ∃ s', write ⟨0, [1, 0]⟩ (.int 9)
      { heap := #[.tuple [.int 1, .tuple [.int 2, .int 3]]] } = .ok () s' ∧
    s'.heap.read ⟨0, [1, 0]⟩ = .ok (.int 9) ∧
    Value.SameReading (.ok (.int 3)) (s'.heap.read ⟨0, [1, 1]⟩) := by
  obtain ⟨hiff, -, hok⟩ := write_exact ⟨0, [1, 0]⟩ (.int 9)
    { heap := #[.tuple [.int 1, .tuple [.int 2, .int 3]]] }
  obtain ⟨s', hw⟩ := hiff.mpr ⟨.int 2, rfl⟩
  obtain ⟨-, -, -, hapart, hbelow, -⟩ := hok s' hw
  exact ⟨s', hw, hbelow [], hapart ⟨0, [1, 1]⟩ rfl (by decide) (by decide)⟩

end Machine

end Unnest
