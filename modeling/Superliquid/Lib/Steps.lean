import Mathlib.Logic.Relation
import Mathlib.Tactic.Common
import Superliquid.Lib.Checked

-- Runs of a labelled transition relation: `Steps next s es s'` says that the events `es`, taken in
-- order, lead from `s` to `s'`.
inductive Steps (next : σ → ε → σ → Prop) : σ → List ε → σ → Prop
  | refl : Steps next s [] s
  | step : (next s₁ e s₂) → (Steps next s₂ es s₃) → Steps next s₁ (e :: es) s₃

namespace Steps

variable {next next' : σ → ε → σ → Prop} {s s₁ s₂ s₃ : σ} {e : ε} {es es₁ es₂ : List ε}

-- What every step preserves, every run preserves.
theorem invariant {I : σ → Prop}
    (h : Steps next s₁ es s₂) (hs : I s₁) (hn : ∀ {s e s'}, next s e s' → I s → I s') : I s₂ := by
  induction h
  case refl        => exact hs
  case step h _ hi => exact hi (hn h hs)

-- The same for a relation between the first and the last state of a run.
theorem relation {R : σ → σ → Prop}
    (h : Steps next s₁ es s₂) (hr : ∀ s, R s s) (ht : ∀ {a b c}, R a b → R b c → R a c)
    (hn : ∀ {s e s'}, next s e s' → R s s') : R s₁ s₂ := by
  induction h
  case refl        => exact hr _
  case step h _ hi => exact ht (hn h) hi

end Steps

section Guarded

variable {f : σ → ε → σ} {cond : σ → ε → Prop} {s : σ} {es : List ε}

-- The steps of a deterministic system that meet a condition.
def Guarded (f : σ → ε → σ) (cond : σ → ε → Prop) (s : σ) (e : ε) (s' : σ) : Prop :=
  cond s e ∧ s' = f s e

-- The events are met by `cond` one after the other.
def Admits (f : σ → ε → σ) (cond : σ → ε → Prop) : σ → List ε → Prop
  | _, []      => True
  | s, e :: es => cond s e ∧ Admits f cond (f s e) es

instance Admits.decidable [∀ s e, Decidable (cond s e)] : ∀ s es, Decidable (Admits f cond s es)
  | _, []      => inferInstanceAs (Decidable True)
  | s, e :: es =>
    have := decidable (f s e) es
    inferInstanceAs (Decidable (cond s e ∧ Admits f cond (f s e) es))

-- What every step that meets the condition preserves holds at the end of such a run.
theorem Steps.guarded_invariant {I : σ → Prop} {s' : σ} (h : Steps (Guarded f cond) s es s') (hs : I s)
    (hn : ∀ {s e}, cond s e → I s → I (f s e)) : I s' :=
  h.invariant hs fun hg hi => hg.2 ▸ hn hg.1 hi

theorem Admits.steps (h : Admits f cond s es) : Steps (Guarded f cond) s es (es.foldl f s) := by
  induction es generalizing s
  case nil        => exact .refl
  case cons hi    => exact .step ⟨h.1, rfl⟩ (hi h.2)

end Guarded

section Partial

variable {f : σ → ε → Checked σ} {cond : σ → ε → Prop} {s s' : σ} {es : List ε}

-- The steps of a deterministic system that may panic, as far as they meet a condition.
def Runs (f : σ → ε → Checked σ) (cond : σ → ε → Prop) (s : σ) (e : ε) (s' : σ) : Prop :=
  cond s e ∧ f s e = .ok s'

-- The events are met by `cond` one after the other, up to a panic.
def Meets (f : σ → ε → Checked σ) (cond : σ → ε → Prop) : σ → List ε → Prop
  | _, []      => True
  | s, e :: es => cond s e ∧
    match f s e with
    | .ok s    => Meets f cond s es
    | .error _ => True

instance Meets.decidable [∀ s e, Decidable (cond s e)] : ∀ s es, Decidable (Meets f cond s es)
  | _, []      => inferInstanceAs (Decidable True)
  | s, e :: es =>
    have : Decidable (match f s e with | .ok s => Meets f cond s es | .error _ => True) :=
      match f s e with
      | .ok s    => decidable s es
      | .error _ => inferInstanceAs (Decidable True)
    inferInstanceAs (Decidable (cond s e ∧ _))

theorem Steps.of_foldlM (h : es.foldlM f s = .ok s') (hc : Meets f cond s es) : Steps (Runs f cond) s es s' := by
  induction es generalizing s
  case nil => cases h; exact .refl
  case cons e es hi =>
    simp only [List.foldlM_cons, Checked.bind_ok] at h
    have ⟨s₁, h₁, h⟩ := h
    have ⟨he, hc⟩ := hc
    rw [h₁] at hc
    exact .step ⟨he, h₁⟩ (hi h hc)

theorem Meets.trivial : Meets f (fun _ _ => True) s es := by
  induction es generalizing s
  case nil => exact True.intro
  case cons e es hi =>
    refine ⟨True.intro, ?_⟩
    split
    · exact hi
    · exact True.intro

-- What every step preserves holds at the end of a run.
theorem foldlM_invariant {I : σ → Prop} (h : es.foldlM f s = .ok s') (hs : I s)
    (hn : ∀ {s e s'}, f s e = .ok s' → I s → I s') : I s' :=
  (Steps.of_foldlM h .trivial).invariant hs fun hr => hn hr.2

end Partial
