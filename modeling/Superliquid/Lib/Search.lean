import Mathlib.Data.List.Basic
import Mathlib.Tactic.Common
import Mathlib.Tactic.Ring

-- Where a binary search looks next after a probe.
inductive Probe
  | hit
  | left
  | right
  deriving DecidableEq

namespace Search

inductive Result
  | found (i : Nat)
  | missing (i : Nat)
  deriving DecidableEq

-- The loop `while left < right`, probing the middle element. `fuel` bounds the iterations.
def loop (probe : α → Probe) (xs : List α) : Nat → Nat → Nat → Result
  | 0, left, _ => .missing left
  | fuel + 1, left, right =>
    if left < right then
      let mid := left + (right - left) / 2
      match xs[mid]? with
      | none   => .missing left
      | some x =>
        match probe x with
        | .hit   => .found mid
        | .left  => loop probe xs fuel left mid
        | .right => loop probe xs fuel (mid + 1) right
    else
      .missing left

-- A search through `xs` needs at most `xs.length` iterations.
def search (probe : α → Probe) (xs : List α) : Result :=
  loop probe xs xs.length 0 xs.length

variable {probe : α → Probe} {xs : List α}

theorem loop_found {fuel left right i : Nat} (h : loop probe xs fuel left right = .found i) :
    ∃ x, xs[i]? = some x ∧ probe x = .hit := by
  induction fuel generalizing left right <;> simp only [loop, reduceCtorEq] at h
  case succ hi =>
    split at h <;> try contradiction
    split at h <;> try contradiction
    split at h
    case _ hx _ hp => exact (Result.found.inj h) ▸ ⟨_, hx, hp⟩
    all_goals exact hi h

theorem loop_missing_le {fuel left right i : Nat}
    (h : loop probe xs fuel left right = .missing i) (hl : left ≤ right) : i ≤ right := by
  induction fuel generalizing left right <;> simp only [loop] at h
  case zero => cases h; exact hl
  case succ hi =>
    split at h <;> try (cases h; exact hl)
    split at h <;> try (cases h; exact hl)
    split at h
    case h_1 => contradiction
    case h_2 => exact (hi h (by omega)).trans (by omega)
    case h_3 => exact hi h (by omega)

-- The list is sorted as far as the probe can tell: what comes after an element that does not send the
-- search to the right sends it to the left.
def Ordered (probe : α → Probe) (xs : List α) : Prop :=
  xs.Pairwise fun x y => probe x ≠ .right → probe y = .left

-- The part of a sorted list to the left of the window is too small, the part to its right too large.
structure Window (probe : α → Probe) (xs : List α) (left right : Nat) : Prop where
  below : ∀ {i x}, xs[i]? = some x → i < left → probe x = .right
  above : ∀ {i x}, xs[i]? = some x → right ≤ i → probe x = .left

theorem Ordered.left (h : Ordered probe xs) {i j : Nat} {x y : α} (hx : xs[i]? = some x)
    (hy : xs[j]? = some y) (hl : i < j) (hp : probe x ≠ .right) : probe y = .left := by
  have ⟨hi, hx⟩ := List.getElem?_eq_some_iff.mp hx
  have ⟨hj, hy⟩ := List.getElem?_eq_some_iff.mp hy
  have hr := List.pairwise_iff_getElem.mp h i j hi hj hl
  rw [hx, hy] at hr
  exact hr hp

theorem Window.shrinkRight (hw : Window probe xs left right) (h : Ordered probe xs) {mid : Nat} {x : α}
    (hx : xs[mid]? = some x) (hp : probe x = .left) : Window probe xs left mid where
  below := hw.below
  above := by
    intro i y hy hi
    rcases Nat.eq_or_lt_of_le hi with rfl | hi
    · exact Option.some.inj (hx.symm.trans hy) ▸ hp
    · exact h.left hx hy hi (by simp [hp])

theorem Window.shrinkLeft (hw : Window probe xs left right) (h : Ordered probe xs) {mid : Nat} {x : α}
    (hx : xs[mid]? = some x) (hp : probe x = .right) : Window probe xs (mid + 1) right where
  above := hw.above
  below := by
    intro i y hy hi
    rcases Nat.eq_or_lt_of_le (Nat.le_of_lt_succ hi) with rfl | hi
    · exact Option.some.inj (hx.symm.trans hy) ▸ hp
    · by_contra hn
      simpa [hp] using h.left hy hx hi hn

theorem loop_missing_window {fuel left right i : Nat} (ho : Ordered probe xs)
    (hw : Window probe xs left right) (hl : left ≤ right) (hr : right ≤ xs.length)
    (hf : right ≤ left + fuel) (h : loop probe xs fuel left right = .missing i) : Window probe xs i i := by
  induction fuel generalizing left right <;> simp only [loop] at h
  case zero =>
    cases h
    exact Nat.le_antisymm hl hf ▸ hw
  case succ fuel hi =>
    split at h
    case isFalse hlt =>
      cases h
      exact Nat.le_antisymm hl (Nat.le_of_not_lt hlt) ▸ hw
    case isTrue hlt =>
      split at h
      case h_1 hn =>
        have := List.getElem?_eq_none_iff.mp hn
        omega
      case h_2 x hx =>
        split at h
        case h_1     => contradiction
        case h_2 hp  => exact hi (hw.shrinkRight ho hx hp) (by omega) (by omega) (by omega) h
        case h_3 hp  => exact hi (hw.shrinkLeft ho hx hp) (by omega) hr (by omega) h

-- A search that fails splits a sorted list in two.
theorem search_missing {i : Nat} (h : search probe xs = .missing i) :
    ∃ pre post, xs = pre ++ post ∧ i = pre.length ∧
      (Ordered probe xs → (∀ x ∈ pre, probe x = .right) ∧ (∀ x ∈ post, probe x = .left)) := by
  have hle : i ≤ xs.length := loop_missing_le h (Nat.zero_le _)
  refine ⟨xs.take i, xs.drop i, (List.take_append_drop i xs).symm, by simp [hle], fun ho => ?_⟩
  have hw : Window probe xs 0 xs.length :=
    ⟨by intro i x _ hi; omega, by intro i x hx hi; rw [List.getElem?_eq_none hi] at hx; contradiction⟩
  have hw := loop_missing_window ho hw (Nat.zero_le _) le_rfl (by omega) h
  constructor
  · intro x hx
    have ⟨j, hj, he⟩ := List.mem_take_iff_getElem.mp hx
    exact hw.below (List.getElem?_eq_some_iff.mpr ⟨_, he⟩) (by omega)
  · intro x hx
    have ⟨j, hj, he⟩ := List.mem_drop_iff_getElem.mp hx
    exact hw.above (List.getElem?_eq_some_iff.mpr ⟨_, he⟩) (by omega)

theorem search_complete (ho : Ordered probe xs) {x : α} (hx : x ∈ xs) (hp : probe x = .hit) :
    ∃ i, search probe xs = .found i := by
  cases h : search probe xs
  case found i => exact ⟨i, rfl⟩
  case missing i =>
    have ⟨pre, post, he, _, hs⟩ := search_missing h
    have ⟨hl, hr⟩ := hs ho
    rw [he, List.mem_append] at hx
    cases hx
    case inl hx => simp [hl x hx] at hp
    case inr hx => simp [hr x hx] at hp

theorem search_found {i : Nat} (h : search probe xs = .found i) :
    ∃ pre x post, xs = pre ++ x :: post ∧ i = pre.length ∧ probe x = .hit := by
  have ⟨x, hx, hp⟩ := loop_found h
  have ⟨hi, he⟩ := List.getElem?_eq_some_iff.mp hx
  refine ⟨xs.take i, x, xs.drop (i + 1), ?_, by simp; omega, hp⟩
  rw [← he, List.getElem_cons_drop, List.take_append_drop]

end Search

theorem List.insertIdx_append_length {pre post : List α} {x : α} :
    (pre ++ post).insertIdx pre.length x = pre ++ x :: post := by
  induction pre
  case nil        => simp
  case cons _ _ hi => simpa using hi
