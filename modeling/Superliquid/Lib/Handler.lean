import Mathlib.Order.Defs.Unbundled
import Superliquid.Lib.Checked

-- A computation on the state of a task. It may panic, and what it did before the panic stays done.
def Handler (σ α : Type) :=
  σ → Except Panic α × σ

namespace Handler

instance : Monad (Handler σ) where
  pure a s := (.ok a, s)
  bind p f s :=
    match p s with
    | (.ok a, s)    => f a s
    | (.error e, s) => (.error e, s)

instance : MonadLift Checked (Handler σ) where
  monadLift x s := (x, s)

def read (f : σ → α) : Handler σ α :=
  fun s => (.ok (f s), s)

def modify (f : σ → σ) : Handler σ Unit :=
  fun s => (.ok (), f s)

-- An update that reports a result, or panics and leaves the state alone.
def update (f : σ → Checked (α × σ)) : Handler σ α :=
  fun s =>
    match f s with
    | .ok (a, s') => (.ok a, s')
    | .error e    => (.error e, s)

variable {p : Handler σ α} {f : α → Handler σ β} {s s' : σ}

@[simp]
theorem pure_apply {a : α} : (pure a : Handler σ α) s = (.ok a, s) := rfl

@[simp]
theorem read_apply {f : σ → α} : read f s = (.ok (f s), s) := rfl

@[simp]
theorem modify_apply {f : σ → σ} : modify f s = (.ok (), f s) := rfl

@[simp]
theorem lift_apply {x : Checked α} : (liftM x : Handler σ α) s = (x, s) := rfl

theorem bind_apply :
    (p >>= f) s =
      match p s with
      | (.ok a, s)    => f a s
      | (.error e, s) => (.error e, s) :=
  rfl

theorem bind_apply_ok {a : α} (h : p s = (.ok a, s')) : (p >>= f) s = f a s' := by
  simp [bind_apply, h]

theorem bind_apply_error {e : Panic} (h : p s = (.error e, s')) : (p >>= f) s = (.error e, s') := by
  simp [bind_apply, h]

@[simp]
theorem read_bind {g : σ → α} : (read g >>= f) s = f (g s) s := rfl

@[simp]
theorem modify_bind {g : σ → σ} {f : Unit → Handler σ β} : (modify g >>= f) s = f () (g s) := rfl

theorem update_apply_ok {f : σ → Checked (α × σ)} {a : α} (h : f s = .ok (a, s')) : update f s = (.ok a, s') := by
  simp [update, h]

theorem update_apply_error {f : σ → Checked (α × σ)} {e : Panic} (h : f s = .error e) :
    update f s = (.error e, s) := by
  simp [update, h]

theorem update_cases {f : σ → Checked (α × σ)} {res : Except Panic α} (h : update f s = (res, s')) :
    (∃ a, f s = .ok (a, s') ∧ res = .ok a) ∨ (∃ e, f s = .error e ∧ res = .error e ∧ s' = s) := by
  unfold update at h
  cases hf : f s <;> rw [hf] at h <;> cases h
  case ok a    => exact .inl ⟨a.1, rfl, rfl⟩
  case error e => exact .inr ⟨e, rfl, rfl, rfl⟩

theorem bind_cases {res : Except Panic β} (h : (p >>= f) s = (res, s')) :
    (∃ a s₁, p s = (.ok a, s₁) ∧ f a s₁ = (res, s')) ∨ (∃ e, p s = (.error e, s') ∧ res = .error e) := by
  rw [bind_apply] at h
  split at h
  case h_1 a s₁ hp => exact .inl ⟨a, s₁, hp, h⟩
  case h_2 e s₁ hp => cases h; exact .inr ⟨e, hp, rfl⟩

-- A goal about the outcome has to hold if the first part panics.
@[elab_as_elim]
theorem lift_bind_elim {x : Checked α} {motive : Except Panic β → σ → Prop} {res : Except Panic β}
    (h : ((liftM x : Handler σ α) >>= f) s = (res, s')) (error : ∀ e, motive (.error e) s)
    (ok : ∀ a, x = .ok a → f a s = (res, s') → motive res s') : motive res s' := by
  cases x
  case ok a    => exact ok a rfl h
  case error e => cases h; exact error e

-- A relation between the states before and after. It says nothing about the result, so it covers panics,
-- unless only the computations that return count.
def KeepsAt (returning : Prop) (R : σ → σ → Prop) (s : σ) (p : Handler σ α) : Prop :=
  (returning → ∃ a, (p s).1 = .ok a) → R s (p s).2

def Keeps (returning : Prop) (R : σ → σ → Prop) (p : Handler σ α) : Prop :=
  ∀ s, KeepsAt returning R s p

section

variable {returning : Prop} {R : σ → σ → Prop}

theorem Keeps.apply (h : Keeps False R p) (s : σ) : R s (p s).2 :=
  h s False.elim

variable [IsPreorder σ R]

namespace KeepsAt

theorem pure {a : α} : KeepsAt returning R s (Pure.pure a : Handler σ α) :=
  fun _ => Std.Refl.refl s

theorem bind (hp : KeepsAt returning R s p) (hf : ∀ a s', p s = (.ok a, s') → KeepsAt returning R s' (f a)) :
    KeepsAt returning R s (p >>= f) := by
  unfold KeepsAt at hp ⊢
  rw [bind_apply]
  split <;> rename_i he <;> rw [he] at hp
  case h_1 a s' =>
    intro returned
    exact IsTrans.trans _ _ _ (hp fun _ => ⟨a, rfl⟩) (hf a s' he returned)
  case h_2 =>
    intro returned
    exact hp fun hr => absurd (returned hr) (by simp)

theorem lift_bind {x : Checked α} (h : ∀ a, x = .ok a → KeepsAt returning R s (f a)) :
    KeepsAt returning R s ((liftM x : Handler σ α) >>= f) := by
  refine bind (fun _ => Std.Refl.refl s) fun a s' hx => ?_
  cases (Prod.mk.inj hx).2
  exact h a (Prod.mk.inj hx).1

theorem modify_bind {g : σ → σ} {f : Unit → Handler σ β} (hg : R s (g s))
    (hf : KeepsAt returning R (g s) (f ())) : KeepsAt returning R s (Handler.modify g >>= f) :=
  bind (fun _ => hg) fun _ _ hm => by
    cases hm
    exact hf

end KeepsAt

namespace Keeps

theorem pure {a : α} : Keeps returning R (Pure.pure a : Handler σ α) :=
  fun _ => .pure

theorem read {g : σ → α} : Keeps returning R (Handler.read g) :=
  fun s _ => Std.Refl.refl s

theorem lift {x : Checked α} : Keeps returning R (liftM x : Handler σ α) :=
  fun s _ => Std.Refl.refl s

omit [IsPreorder σ R] in
theorem modify {g : σ → σ} (h : ∀ s, R s (g s)) : Keeps returning R (Handler.modify g) :=
  fun s _ => h s

theorem update {g : σ → Checked (α × σ)} (h : ∀ {s a s'}, g s = .ok (a, s') → R s s') :
    Keeps returning R (Handler.update g) := by
  intro s _
  cases hu : Handler.update g s
  case mk res s' =>
  cases update_cases hu
  case inl hok  => have ⟨_, hg, _⟩ := hok; exact h hg
  case inr herr => have ⟨_, _, _, hs⟩ := herr; subst hs; exact Std.Refl.refl s'

theorem bind (hp : Keeps returning R p) (hf : ∀ a, Keeps returning R (f a)) : Keeps returning R (p >>= f) :=
  fun s => (hp s).bind fun a s' _ => hf a s'

-- What is read belongs to the state that the rest runs on.
omit [IsPreorder σ R] in
theorem read_bind {g : σ → α} (h : ∀ s, KeepsAt returning R s (f (g s))) : Keeps returning R (Handler.read g >>= f) :=
  h

end Keeps

end

-- What holds of the result and of the state in which the computation returns, if it returns.
def Yields (p : Handler σ α) (s : σ) (Q : α → σ → Prop) : Prop :=
  ∀ a s', p s = (.ok a, s') → Q a s'

namespace Yields

variable {Q Q' : α → σ → Prop}

@[simp]
theorem pure_iff {a : α} : Yields (Pure.pure a : Handler σ α) s Q ↔ Q a s := by
  constructor
  · intro h
    exact h a s rfl
  · rintro h _ _ ⟨⟩
    exact h

@[simp]
theorem read_iff {g : σ → α} : Yields (Handler.read g) s Q ↔ Q (g s) s := by
  constructor
  · intro h
    exact h (g s) s rfl
  · rintro h _ _ ⟨⟩
    exact h

@[simp]
theorem modify_iff {g : σ → σ} {Q : Unit → σ → Prop} : Yields (Handler.modify g) s Q ↔ Q () (g s) := by
  constructor
  · intro h
    exact h () (g s) rfl
  · rintro h _ _ ⟨⟩
    exact h

@[simp]
theorem lift_iff {x : Checked α} : Yields (liftM x : Handler σ α) s Q ↔ ∀ a, x = .ok a → Q a s := by
  constructor
  · rintro h a rfl
    exact h a s rfl
  · intro h a s' he
    cases (Prod.mk.inj he).2
    exact h a (Prod.mk.inj he).1

@[simp]
theorem update_iff {g : σ → Checked (α × σ)} :
    Yields (Handler.update g) s Q ↔ ∀ a s', g s = .ok (a, s') → Q a s' := by
  constructor
  · intro h a s' hg
    exact h a s' (update_apply_ok hg)
  · intro h a s' hu
    rcases update_cases hu with ⟨_, hg, ha⟩ | ⟨_, _, he, _⟩
    · cases ha
      exact h _ _ hg
    · cases he

@[simp]
theorem bind_iff {Q : β → σ → Prop} :
    Yields (p >>= f) s Q ↔ Yields p s fun a s' => Yields (f a) s' Q := by
  constructor
  · intro h a s₁ hp b s' hf
    exact h b s' ((bind_apply_ok hp).trans hf)
  · intro h b s' hb
    rcases bind_cases hb with ⟨a, s₁, hp, hf⟩ | ⟨_, _, he⟩
    · exact h a s₁ hp b s' hf
    · cases he

theorem mono (h : Yields p s Q) (hQ : ∀ a s', Q a s' → Q' a s') : Yields p s Q' :=
  fun a s' hp => hQ a s' (h a s' hp)

end Yields

end Handler
