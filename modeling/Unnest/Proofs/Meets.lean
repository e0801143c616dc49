import Unnest.Proofs.Keeps
/-!
# Runs that meet a condition

Edits, lowerings and builders are computations that change a state and may stop.
`Meets stop x s post` says what such a computation does from one state: it ends with a result and a
state as `post` asks, or it stops, and then `stop` holds. With `False` for `stop` this is total
correctness and with `True` partial correctness; a proof that leaves `stop` open serves both.
-/

namespace Unnest

variable {ε σ α β : Type}

/-- From `s`, `x` ends as `post` asks, or it stops and `stop` holds. -/
def Meets (stop : Prop) (x : EStateM ε σ α) (s : σ) (post : α → σ → Prop) : Prop :=
  match x s with
  | .ok a s' => post a s'
  | .error _ _ => stop

namespace Meets

variable {stop : Prop} {s : σ} {post : α → σ → Prop}

theorem of_ok {x : EStateM ε σ α} {a : α} {t : σ} (h : x s = .ok a t) (hp : post a t) :
    Meets stop x s post := by
  simpa [Meets, h] using hp

theorem ok {x : EStateM ε σ α} {a : α} {s' : σ} (h : Meets stop x s post) (hx : x s = .ok a s') :
    post a s' := by
  simpa [Meets, hx] using h

/-- A computation that may not stop has a result. -/
theorem result {x : EStateM ε σ α} (h : Meets False x s post) :
    ∃ a s', x s = .ok a s' ∧ post a s' := by
  unfold Meets at h
  split at h
  · exact ⟨_, _, ‹_›, h⟩
  · exact h.elim

theorem mono {x : EStateM ε σ α} {post' : α → σ → Prop} (h : Meets stop x s post')
    (hp : ∀ a s', post' a s' → post a s') : Meets stop x s post := by
  unfold Meets at h ⊢
  split at h
  · exact hp _ _ h
  · exact h

theorem and {x : EStateM ε σ α} {post' : α → σ → Prop} (h : Meets stop x s post)
    (h' : Meets stop x s post') : Meets stop x s fun a s' => post a s' ∧ post' a s' := by
  unfold Meets at h h' ⊢
  split at h
  · rw [‹x s = _›] at h'
    exact ⟨h, h'⟩
  · exact h

/-- What a computation leaves, with the run that leaves it. -/
theorem withRun {x : EStateM ε σ α} (h : Meets stop x s post) :
    Meets stop x s fun a s' => post a s' ∧ x s = .ok a s' := by
  unfold Meets at h ⊢
  split at h
  · exact ⟨h, ‹_›⟩
  · exact h

theorem pure {a : α} (h : post a s) : Meets stop (Pure.pure a : EStateM ε σ α) s post := h

theorem throw {e : ε} (h : stop) : Meets stop (MonadExcept.throw e : EStateM ε σ α) s post := h

theorem bind {x : EStateM ε σ β} {k : β → EStateM ε σ α} {m : β → σ → Prop}
    (h : Meets stop x s m) (hk : ∀ b s', m b s' → Meets stop (k b) s' post) :
    Meets stop (x >>= k) s post := by
  unfold Meets at h
  change Meets stop (EStateM.bind x k) s post
  unfold Meets EStateM.bind
  split at h
  · rename_i hx
    rw [hx]
    exact hk _ _ h
  · rename_i hx
    rw [hx]
    exact h

/-- The first step of a computation, when its result is known. -/
theorem step {x : EStateM ε σ β} {k : β → EStateM ε σ α} {b : β} {t : σ} (h : x s = .ok b t)
    (hk : Meets stop (k b) t post) : Meets stop (x >>= k) s post := by
  refine bind (m := fun c s' => c = b ∧ s' = t) (of_ok h ⟨rfl, rfl⟩) ?_
  rintro _ _ ⟨rfl, rfl⟩
  exact hk

/-- A computation whose first step stops. -/
theorem fail {x : EStateM ε σ β} {k : β → EStateM ε σ α} {e : ε} {s' : σ} (h : x s = .error e s')
    (hs : stop) : Meets stop (x >>= k) s post :=
  bind (m := fun _ _ => False) (by simpa [Meets, h] using hs) fun _ _ h => h.elim

theorem map {x : EStateM ε σ β} {g : β → α} (h : Meets stop x s fun b s' => post (g b) s') :
    Meets stop (g <$> x) s post := by
  change Meets stop (EStateM.map g x) s post
  unfold Meets at h
  unfold Meets EStateM.map
  split at h <;> simp_all

theorem get {k : σ → EStateM ε σ α} (h : Meets stop (k s) s post) :
    Meets stop (MonadState.get >>= k) s post := h

theorem update {g : σ → σ} {post : PUnit → σ → Prop} (h : post () (g s)) :
    Meets stop (modify g : EStateM ε σ PUnit) s post := h

/-- A reading that succeeds keeps the state. -/
theorem read {σ : Type} {s : σ} {post : α → σ → Prop} {x : Except Stop α} {a : α} (h : x = .ok a)
    (hp : post a s) : Meets stop (liftM x : EStateM Stop σ α) s post := by
  subst h
  exact hp

/-- An edit as a step of a lowering. -/
theorem edit {x : Edit α} {s : LowerState} {mid : α → Func → Prop} {post : α → LowerState → Prop}
    (h : Meets stop x s.func mid) (hp : ∀ a f, mid a f → post a { s with func := f }) :
    Meets stop (liftM x : Lower α) s post := by
  unfold Meets at h ⊢
  cases hx : x s.func with
  | ok a f =>
    rw [hx] at h
    rw [Edit.lower_ok hx]
    exact hp a f h
  | error e f =>
    rw [hx] at h
    rw [Edit.lower_error hx]
    exact h

theorem editBind {x : Edit β} {k : β → Lower α} {s : LowerState} {mid : β → Func → Prop}
    {post : α → LowerState → Prop} (h : Meets stop x s.func mid)
    (hk : ∀ b f, mid b f → Meets stop (k b) { s with func := f } post) :
    Meets stop (liftM x >>= k) s post := by
  refine bind (m := fun b s' => ∃ f, s' = { s with func := f } ∧ mid b f)
    (edit h fun _ f hf => ⟨f, rfl, hf⟩) ?_
  rintro b _ ⟨f, rfl, hf⟩
  exact hk b f hf

theorem editStep {x : Edit β} {k : β → Lower α} {s : LowerState} {b : β} {f : Func}
    {post : α → LowerState → Prop} (h : x s.func = .ok b f)
    (hk : Meets stop (k b) { s with func := f } post) : Meets stop (liftM x >>= k) s post :=
  step (Edit.lower_ok h) hk

theorem forM_lift {γ : Type} (l : List γ) (k : γ → Edit PUnit) (s : LowerState) :
    (l.forM fun c => (liftM (k c) : Lower PUnit)) s = (liftM (l.forM k) : Lower PUnit) s := by
  induction l generalizing s with
  | nil => rfl
  | cons c l ih =>
    change EStateM.bind (liftM (k c) : Lower PUnit) (fun _ => l.forM fun c => liftM (k c)) s = _
    cases hc : k c s.func with
    | error e f =>
      have hl : (c :: l).forM k s.func = .error e f := by
        change EStateM.bind (k c) (fun _ => l.forM k) s.func = _
        rw [EStateM.bind, hc]
      rw [EStateM.bind, Edit.lower_error hc, Edit.lower_error hl]
    | ok a f =>
      have hl : (c :: l).forM k s.func = l.forM k f := by
        change EStateM.bind (k c) (fun _ => l.forM k) s.func = _
        rw [EStateM.bind, hc]
      rw [EStateM.bind, Edit.lower_ok hc]
      change (l.forM fun c => (liftM (k c) : Lower PUnit)) { s with func := f } = _
      rw [ih]
      cases hr : l.forM k f with
      | ok b f' => rw [Edit.lower_ok hr, Edit.lower_ok (hl.trans hr)]
      | error e f' => rw [Edit.lower_error hr, Edit.lower_error (hl.trans hr)]

/-- A loop of edits as a step of a lowering. -/
theorem editForM {γ : Type} {l : List γ} {k : γ → Edit PUnit} {g : PUnit → Lower α} {s : LowerState}
    {mid : PUnit → Func → Prop} {post : α → LowerState → Prop}
    (h : Meets stop (l.forM k) s.func mid)
    (hg : ∀ b f, mid b f → Meets stop (g b) { s with func := f } post) :
    Meets stop ((l.forM fun c => (liftM (k c) : Lower PUnit)) >>= g) s post := by
  have : Meets stop ((liftM (l.forM k) : Lower PUnit) >>= g) s post := editBind h hg
  change Meets stop (EStateM.bind _ g) s post at this
  change Meets stop (EStateM.bind _ g) s post
  unfold Meets EStateM.bind at this ⊢
  rwa [forM_lift]

/-- A loop over a list, where what holds before each element says how much has been done. -/
theorem forM {γ : Type} {l : List γ} {k : γ → EStateM ε σ PUnit} {inv : List γ → σ → Prop}
    (h0 : inv l s)
    (hk : ∀ c rest s', inv (c :: rest) s' → Meets stop (k c) s' fun _ s'' => inv rest s'') :
    Meets stop (l.forM k) s fun _ s' => inv [] s' := by
  induction l generalizing s with
  | nil => exact pure h0
  | cons c rest ih =>
    change Meets stop (k c >>= fun _ => rest.forM k) s _
    exact bind (hk c rest s h0) fun _ s' h => ih h

end Meets

end Unnest
