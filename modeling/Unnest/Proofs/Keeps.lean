import Unnest.Lower.Basic
import Unnest.Proofs.Results
import Unnest.Source.Builder
/-!
# Runs that keep an invariant

`Keeps I x s Q` says what `x` does from `s` to what it leaves behind: when it ends, `Q`
holds of its result and of the state, and when it fails with an error or meets a name that nothing
is bound to, `I` holds of the state it stopped in. A run that is cut short for another reason leaves
no state to speak of.

`Reads x` says that `x` never changes the state.
-/

namespace Unnest

variable {σ α β γ : Type}

/-- The stops between two edits. -/
@[simp] def Stop.Clean : Stop → Prop
  | .failed _ | .unbound _ => True
  | _ => False

/-- From `s`, `x` ends as `Q` asks, or stops cleanly in a state that `I` holds of. -/
def Keeps (I : σ → Prop) (x : EStateM Stop σ α) (s : σ) (Q : α → σ → Prop) : Prop :=
  match x s with
  | .ok a s' => Q a s'
  | .error e s' => e.Clean → I s'

/-- `x` leaves every state as it is. -/
def Reads (x : EStateM Stop σ α) : Prop :=
  ∀ s, (∃ a, x s = .ok a s) ∨ ∃ e, x s = .error e s

namespace Edit

variable {x : Edit α} {a : α} {e : Stop} {f : Func}

/-- The result of an edit as a step of a lowering. -/
theorem lower_ok {s : LowerState} (h : x s.func = .ok a f) :
    (liftM x : Lower α) s = .ok a { s with func := f } := by
  simp only [liftM, monadLift, MonadLift.monadLift, h]

theorem lower_error {s : LowerState} (h : x s.func = .error e f) :
    (liftM x : Lower α) s = .error e { s with func := f } := by
  simp only [liftM, monadLift, MonadLift.monadLift, h]

/-- The result of an edit as a step of a builder. -/
theorem build_ok {b : Builder} (h : x b.func = .ok a f) :
    (liftM x : Build α) b = .ok a { b with func := f } := by
  simp only [liftM, monadLift, MonadLift.monadLift, h]

theorem build_error {b : Builder} (h : x b.func = .error e f) :
    (liftM x : Build α) b = .error e { b with func := f } := by
  simp only [liftM, monadLift, MonadLift.monadLift, h]

end Edit

namespace Reads

variable {x : EStateM Stop σ α}

theorem pure (a : α) : Reads (Pure.pure a : EStateM Stop σ α) := fun _ => .inl ⟨a, rfl⟩

theorem throw (e : Stop) : Reads (MonadExcept.throw e : EStateM Stop σ α) := fun _ => .inr ⟨e, rfl⟩

theorem get : Reads (MonadState.get : EStateM Stop σ σ) := fun s => .inl ⟨s, rfl⟩

theorem lift (x : Except Stop α) : Reads (liftM x : EStateM Stop σ α) := by
  intro s
  cases x with
  | ok a => exact .inl ⟨a, rfl⟩
  | error e => exact .inr ⟨e, rfl⟩

theorem bind {k : α → EStateM Stop σ β} (h : Reads x) (hk : ∀ a, Reads (k a)) :
    Reads (x >>= k) := by
  intro s
  change (∃ a, EStateM.bind x k s = .ok a s) ∨ ∃ e, EStateM.bind x k s = .error e s
  unfold EStateM.bind
  obtain ⟨a, ha⟩ | ⟨e, he⟩ := h s
  · rw [ha]
    exact hk a s
  · rw [he]
    exact .inr ⟨e, rfl⟩

theorem mapM {g : γ → EStateM Stop σ β} (h : ∀ c, Reads (g c)) (l : List γ) :
    Reads (l.mapM g) := by
  induction l with
  | nil => exact pure []
  | cons c l ih =>
    rw [List.mapM_cons]
    exact (h c).bind fun _ => ih.bind fun _ => pure _

theorem edit {x : Edit α} (h : Reads x) : Reads (liftM x : Lower α) := by
  intro s
  obtain ⟨a, ha⟩ | ⟨e, he⟩ := h s.func
  · exact .inl ⟨a, Edit.lower_ok ha⟩
  · exact .inr ⟨e, Edit.lower_error he⟩

theorem built {x : Edit α} (h : Reads x) : Reads (liftM x : Build α) := by
  intro b
  obtain ⟨a, ha⟩ | ⟨e, he⟩ := h b.func
  · exact .inl ⟨a, Edit.build_ok ha⟩
  · exact .inr ⟨e, Edit.build_error he⟩

end Reads

namespace Edit

theorem getOp_reads (id : OpId) : Reads (getOp id) := Reads.get.bind fun _ => .lift _

theorem getBlock_reads (id : BlockId) : Reads (getBlock id) := Reads.get.bind fun _ => .lift _

theorem getRegion_reads (id : RegionId) : Reads (getRegion id) := Reads.get.bind fun _ => .lift _

theorem getKind_reads (id : OpId) : Reads (getKind id) := Reads.get.bind fun _ => .lift _

theorem valueTy_reads (v : ValueId) : Reads (valueTy v) := Reads.get.bind fun _ => .lift _

theorem entryBlock_reads : Reads entryBlock := Reads.get.bind fun _ => .lift _

theorem terminator_reads (id : BlockId) : Reads (terminator id) := Reads.get.bind fun _ => .lift _

theorem result?_reads (id : OpId) : Reads (result? id) := (getOp_reads id).bind fun _ => .pure _

theorem result_reads (id : OpId) : Reads (result id) := (result?_reads id).bind fun _ => .lift _

theorem placeOfBlock_reads (id : BlockId) : Reads (placeOfBlock id) := by
  refine (getBlock_reads id).bind fun d => ?_
  split
  · exact .throw _
  · refine (getRegion_reads _).bind fun r => ?_
    split
    · exact .throw _
    · exact .pure _

theorem placeOfOp_reads (id : OpId) : Reads (placeOfOp id) := by
  refine (getOp_reads id).bind fun d => ?_
  split
  · exact .throw _
  · refine (getBlock_reads _).bind fun r => ?_
    split
    · exact .throw _
    · exact .pure _

end Edit

namespace Keeps

variable {I : σ → Prop} {s : σ} {Q : α → σ → Prop} {x : EStateM Stop σ α}

theorem of_ok {a : α} {t : σ} (h : x s = .ok a t) (hp : Q a t) : Keeps I x s Q := by
  simpa [Keeps, h] using hp

theorem ok {a : α} {t : σ} (h : Keeps I x s Q) (hx : x s = .ok a t) : Q a t := by
  simpa [Keeps, hx] using h

/-- What a run that ends leaves. -/
theorem left (h : Keeps I x s Q) (he : ends x s = true) : ∃ a, Q a (Unnest.left x s) := by
  obtain ⟨a, ha⟩ := ok_left he
  exact ⟨a, h.ok ha⟩

theorem mono {P : α → σ → Prop} (h : Keeps I x s P)
    (hp : ∀ a s', P a s' → Q a s') : Keeps I x s Q := by
  unfold Keeps at h ⊢
  split at h
  · exact hp _ _ h
  · exact h

theorem weaken {J : σ → Prop} (h : Keeps I x s Q) (hi : ∀ s, I s → J s) : Keeps J x s Q := by
  unfold Keeps at h ⊢
  split at h
  · exact h
  · exact fun he => hi _ (h he)

theorem pure {a : α} (h : Q a s) : Keeps I (Pure.pure a : EStateM Stop σ α) s Q := h

theorem throw {e : Stop} (h : I s) :
    Keeps I (MonadExcept.throw e : EStateM Stop σ α) s Q := fun _ => h

/-- Nothing is asked of a stop within an edit. -/
theorem stop {e : Stop} (h : ¬ e.Clean) :
    Keeps I (MonadExcept.throw e : EStateM Stop σ α) s Q := fun he => (h he).elim

theorem bind {k : α → EStateM Stop σ β} {m : α → σ → Prop} {Q : β → σ → Prop}
    (h : Keeps I x s m) (hk : ∀ a s', m a s' → Keeps I (k a) s' Q) :
    Keeps I (x >>= k) s Q := by
  unfold Keeps at h
  change Keeps I (EStateM.bind x k) s Q
  unfold Keeps EStateM.bind
  split at h
  · rename_i hx
    rw [hx]
    exact hk _ _ h
  · rename_i hx
    rw [hx]
    exact h

theorem map {g : α → β} {Q : β → σ → Prop} (h : Keeps I x s fun a s' => Q (g a) s') :
    Keeps I (g <$> x) s Q := by
  change Keeps I (EStateM.map g x) s Q
  unfold Keeps at h
  unfold Keeps EStateM.map
  split at h
  · rename_i hx
    rw [hx]
    exact h
  · rename_i hx
    rw [hx]
    exact h

theorem get {k : σ → EStateM Stop σ α} (h : Keeps I (k s) s Q) :
    Keeps I (MonadState.get >>= k) s Q := h

theorem update {g : σ → σ} {Q : PUnit → σ → Prop} (h : Q () (g s)) :
    Keeps I (modify g : EStateM Stop σ PUnit) s Q := h

/-- A reading: what follows may use that the result was read off the state. -/
theorem read {k : α → EStateM Stop σ β} {Q : β → σ → Prop} (h : Reads x) (hs : I s)
    (hk : ∀ a, x s = .ok a s → Keeps I (k a) s Q) : Keeps I (x >>= k) s Q := by
  refine bind (m := fun a s' => s' = s ∧ x s = .ok a s) ?_ ?_
  · obtain ⟨a, ha⟩ | ⟨e, he⟩ := h s
    · exact of_ok ha ⟨rfl, ha⟩
    · unfold Keeps
      rw [he]
      exact fun _ => hs
  · rintro a s' ⟨rfl, ha⟩
    exact hk a ha

/-- A reading on its own. -/
theorem reads (h : Reads x) (hs : I s) (hp : ∀ a, x s = .ok a s → Q a s) :
    Keeps I x s Q := by
  obtain ⟨a, ha⟩ | ⟨e, he⟩ := h s
  · exact of_ok ha (hp a ha)
  · unfold Keeps
    rw [he]
    exact fun _ => hs

/-- A loop over a list, where what holds before each element says how much has been done. -/
theorem forM {l : List γ} {k : γ → EStateM Stop σ PUnit} {m : List γ → σ → Prop} (h : m l s)
    (hk : ∀ c rest s', m (c :: rest) s' → Keeps I (k c) s' fun _ s'' => m rest s'') :
    Keeps I (l.forM k) s fun _ s' => m [] s' := by
  induction l generalizing s with
  | nil => exact pure h
  | cons c rest ih =>
    change Keeps I (k c >>= fun _ => rest.forM k) s _
    exact bind (hk c rest s h) fun _ s' h => ih h

/-- A fold over a list, with an invariant of the state alone. -/
theorem foldlM {l : List γ} {k : β → γ → EStateM Stop σ β} {m : σ → Prop} {b : β} (h : m s)
    (hk : ∀ b, ∀ c ∈ l, ∀ s', m s' → Keeps I (k b c) s' fun _ s'' => m s'') :
    Keeps I (l.foldlM k b) s fun _ s' => m s' := by
  induction l generalizing s b with
  | nil => exact pure h
  | cons c rest ih =>
    rw [List.foldlM_cons]
    exact bind (hk b c (by simp) s h) fun b' s' h' =>
      ih h' fun b c hc => hk b c (by simp [hc])

/-- A list of steps, with an invariant of the state alone. -/
theorem mapM {l : List γ} {k : γ → EStateM Stop σ β} {m : σ → Prop} (h : m s)
    (hk : ∀ c s', m s' → Keeps I (k c) s' fun _ s'' => m s'') :
    Keeps I (l.mapM k) s fun _ s' => m s' := by
  induction l generalizing s with
  | nil => exact pure h
  | cons c rest ih =>
    rw [List.mapM_cons]
    exact bind (hk c s h) fun _ s₁ h₁ => bind (ih h₁) fun _ s₂ h₂ => pure h₂

theorem and {Q' : α → σ → Prop} (h : Keeps I x s Q) (h' : Keeps I x s Q') :
    Keeps I x s fun a s' => Q a s' ∧ Q' a s' := by
  unfold Keeps at h h' ⊢
  split at h <;> simp_all

/-- An edit as a step of a lowering. -/
theorem edit {I : Func → Prop} {x : Edit α} {s : LowerState} {m : α → Func → Prop}
    {Q : α → LowerState → Prop} (h : Keeps I x s.func m)
    (hp : ∀ a f, m a f → Q a { s with func := f }) :
    Keeps (fun s => I s.func) (liftM x : Lower α) s Q := by
  unfold Keeps at h ⊢
  cases hx : x s.func with
  | ok a f =>
    rw [hx] at h
    rw [Edit.lower_ok hx]
    exact hp a f h
  | error e f =>
    rw [hx] at h
    rw [Edit.lower_error hx]
    exact h

theorem editBind {I : Func → Prop} {x : Edit β} {k : β → Lower α} {s : LowerState}
    {m : β → Func → Prop} {Q : α → LowerState → Prop} (h : Keeps I x s.func m)
    (hk : ∀ b f, m b f → Keeps (fun s => I s.func) (k b) { s with func := f } Q) :
    Keeps (fun s => I s.func) (liftM x >>= k) s Q := by
  refine bind (m := fun b s' => ∃ f, s' = { s with func := f } ∧ m b f)
    (edit h fun _ f hf => ⟨f, rfl, hf⟩) ?_
  rintro b _ ⟨f, rfl, hf⟩
  exact hk b f hf

/-- An edit as a step of a builder. -/
theorem built {I : Func → Prop} {x : Edit α} {b : Builder} {m : α → Func → Prop}
    {Q : α → Builder → Prop} (h : Keeps I x b.func m)
    (hp : ∀ a f, m a f → Q a { b with func := f }) :
    Keeps (fun b => I b.func) (liftM x : Build α) b Q := by
  unfold Keeps at h ⊢
  cases hx : x b.func with
  | ok a f =>
    rw [hx] at h
    rw [Edit.build_ok hx]
    exact hp a f h
  | error e f =>
    rw [hx] at h
    rw [Edit.build_error hx]
    exact h

theorem builtBind {I : Func → Prop} {x : Edit β} {k : β → Build α} {b : Builder}
    {m : β → Func → Prop} {Q : α → Builder → Prop} (h : Keeps I x b.func m)
    (hk : ∀ c f, m c f → Keeps (fun b => I b.func) (k c) { b with func := f } Q) :
    Keeps (fun b => I b.func) (liftM x >>= k) b Q := by
  refine bind (m := fun c b' => ∃ f, b' = { b with func := f } ∧ m c f)
    (built h fun _ f hf => ⟨f, rfl, hf⟩) ?_
  rintro c _ ⟨f, rfl, hf⟩
  exact hk c f hf

end Keeps

end Unnest
