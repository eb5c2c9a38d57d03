
namespace Phasor

variable {ε σ α β : Type}

def outcome (x : ExceptT ε (StateM σ) α) (s : σ) : Except ε α × σ := x.run.run s

def Gives (x : ExceptT ε (StateM σ) α) (s : σ) (a : α) (t : σ) : Prop :=
  outcome x s = (.ok a, t)

def Fails (x : ExceptT ε (StateM σ) α) (s : σ) (e : ε) (t : σ) : Prop :=
  outcome x s = (.error e, t)

theorem outcome_bind (x : ExceptT ε (StateM σ) α) (f : α → ExceptT ε (StateM σ) β) (s : σ) :
    outcome (x >>= f) s = match outcome x s with
      | (.ok a, t) => outcome (f a) t
      | (.error e, t) => (.error e, t) := by
  unfold outcome
  rw [ExceptT.run_bind, StateT.run_bind]
  rcases (x.run.run s : Except ε α × σ) with ⟨e | a, t⟩ <;> rfl

theorem gives_bind {x : ExceptT ε (StateM σ) α} {f : α → ExceptT ε (StateM σ) β} {s u : σ} {b : β} :
    Gives (x >>= f) s b u ↔ ∃ a t, Gives x s a t ∧ Gives (f a) t b u := by
  unfold Gives
  rw [outcome_bind]
  rcases outcome x s with ⟨e | a, t⟩
  · simp
  · constructor
    · intro h
      exact ⟨a, t, rfl, h⟩
    · rintro ⟨_, _, ⟨⟩, h⟩
      exact h

theorem Gives.bind {x : ExceptT ε (StateM σ) α} {f : α → ExceptT ε (StateM σ) β} {s t u : σ} {a : α}
    {b : β} (hx : Gives x s a t) (hf : Gives (f a) t b u) : Gives (x >>= f) s b u :=
  gives_bind.mpr ⟨a, t, hx, hf⟩

theorem Fails.bind {x : ExceptT ε (StateM σ) α} {s t : σ} {e : ε} (hx : Fails x s e t)
    (f : α → ExceptT ε (StateM σ) β) : Fails (x >>= f) s e t := by
  unfold Fails at *
  rw [outcome_bind, hx]

theorem Gives.bind_fails {x : ExceptT ε (StateM σ) α} {f : α → ExceptT ε (StateM σ) β} {s t u : σ}
    {a : α} {e : ε} (hx : Gives x s a t) (hf : Fails (f a) t e u) : Fails (x >>= f) s e u := by
  unfold Gives Fails at *
  rw [outcome_bind, hx]
  exact hf

theorem Gives.unique {x : ExceptT ε (StateM σ) α} {s t u : σ} {a b : α} (h : Gives x s a t)
    (h' : Gives x s b u) : a = b ∧ t = u := by
  unfold Gives at *
  rw [h] at h'
  simpa using h'

theorem Gives.not_fails {x : ExceptT ε (StateM σ) α} {s t u : σ} {a : α} {e : ε} (h : Gives x s a t) :
    ¬ Fails x s e u := by
  unfold Gives Fails at *
  rw [h]
  simp

theorem Gives.of_bind {x : ExceptT ε (StateM σ) α} {f : α → ExceptT ε (StateM σ) β} {s s₁ t : σ} {a : α} {b : β}
    (hx : Gives x s a s₁) (h : Gives (x >>= f) s b t) : Gives (f a) s₁ b t := by
  obtain ⟨a', s', hx', hf⟩ := gives_bind.mp h
  obtain ⟨rfl, rfl⟩ := hx.unique hx'
  exact hf

@[simp] theorem gives_pure {a b : α} {s t : σ} :
    Gives (pure a : ExceptT ε (StateM σ) α) s b t ↔ b = a ∧ t = s := by
  change (Except.ok a, s) = (.ok b, t) ↔ _
  simp [eq_comm]

@[simp] theorem gives_throw {e : ε} {a : α} {s t : σ} :
    ¬ Gives (throw e : ExceptT ε (StateM σ) α) s a t := by
  change ¬ (Except.error e, s) = (.ok a, t)
  simp

theorem fails_throw (e : ε) (s : σ) : Fails (throw e : ExceptT ε (StateM σ) α) s e s := rfl

@[simp] theorem gives_get {a s t : σ} :
    Gives (get : ExceptT ε (StateM σ) σ) s a t ↔ a = s ∧ t = s := by
  change (Except.ok s, s) = (.ok a, t) ↔ _
  simp [eq_comm]

theorem gives_get_bind {f : σ → ExceptT ε (StateM σ) α} {a : α} {s t : σ} :
    Gives (get >>= f) s a t ↔ Gives (f s) s a t := by
  rw [gives_bind]
  simp [and_assoc]

@[simp] theorem gives_set {r s t : σ} {a : PUnit} :
    Gives (set r : ExceptT ε (StateM σ) PUnit) s a t ↔ t = r := by
  change (Except.ok PUnit.unit, r) = (.ok a, t) ↔ _
  simp [eq_comm]

@[simp] theorem gives_modify {f : σ → σ} {s t : σ} {a : PUnit} :
    Gives (modify f : ExceptT ε (StateM σ) PUnit) s a t ↔ t = f s := by
  change (Except.ok PUnit.unit, f s) = (.ok a, t) ↔ _
  simp [eq_comm]

@[simp] theorem gives_lift {x : Except ε α} {s t : σ} {a : α} :
    Gives (liftM x : ExceptT ε (StateM σ) α) s a t ↔ x = .ok a ∧ t = s := by
  change (x, s) = (.ok a, t) ↔ _
  simp [eq_comm]

theorem fails_lift {x : Except ε α} {e : ε} (h : x = .error e) (s : σ) :
    Fails (liftM x : ExceptT ε (StateM σ) α) s e s := by
  subst h
  rfl

def Keeps (J : σ → Prop) (x : ExceptT ε (StateM σ) α) : Prop :=
  ∀ s, J s → J (outcome x s).2

namespace Keeps

variable {J : σ → Prop}

theorem pure (a : α) : Keeps J (Pure.pure a : ExceptT ε (StateM σ) α) := fun _ h => h

theorem throw (e : ε) : Keeps J (throw e : ExceptT ε (StateM σ) α) := fun _ h => h

theorem lift (x : Except ε α) : Keeps J (liftM x : ExceptT ε (StateM σ) α) := fun _ h => h

theorem bind {x : ExceptT ε (StateM σ) α} {f : α → ExceptT ε (StateM σ) β} (hx : Keeps J x)
    (hf : ∀ a, Keeps J (f a)) : Keeps J (x >>= f) := by
  intro s hs
  have h := hx s hs
  rw [outcome_bind]
  generalize outcome x s = r at h ⊢
  obtain ⟨e | a, t⟩ := r
  · exact h
  · exact hf a t h

theorem get_bind {f : σ → ExceptT ε (StateM σ) α} (h : ∀ s, J s → J (outcome (f s) s).2) : Keeps J (get >>= f) := h

theorem foldlM {f : β → α → ExceptT ε (StateM σ) β} (hf : ∀ b a, Keeps J (f b a)) (as : List α) (b : β) :
    Keeps J (as.foldlM f b) := by
  induction as generalizing b with
  | nil => exact pure b
  | cons a as ih =>
    rw [List.foldlM_cons]
    exact (hf b a).bind ih

end Keeps

end Phasor
