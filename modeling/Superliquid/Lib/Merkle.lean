import Mathlib.Data.Nat.Log
import Mathlib.Tactic.Common

-- Merkle trees over lists of any length. A node without a neighbour is combined with itself.

namespace Merkle

-- Neighbours, two by two.
def pairUp : List α → List (α × α)
  | a :: b :: l => (a, b) :: pairUp l
  | [a]         => [(a, a)]
  | []          => []

@[simp]
theorem pairUp_length (l : List α) : (pairUp l).length = (l.length + 1) / 2 := by
  fun_induction pairUp
  case case1 hi => simp [hi]; omega
  case case2    => simp
  case case3    => simp

theorem pairUp_map (f : α → β) (l : List α) : pairUp (l.map f) = (pairUp l).map (Prod.map f f) := by
  fun_induction pairUp
  case case1 hi => simp [pairUp, hi]
  case case2    => simp [pairUp]
  case case3    => simp [pairUp]

theorem pairUp_append {l : List α} (h : l.length % 2 = 0) (l' : List α) :
    pairUp (l ++ l') = pairUp l ++ pairUp l' := by
  fun_induction pairUp l
  case case1 hi => simpa [pairUp] using hi (by simp at h; omega)
  case case2    => simp at h
  case case3    => simp

-- A copy of the last node changes nothing, if the node had no neighbour.
theorem pairUp_append_last {l : List α} {a : α} (h : l.length % 2 = 1) (ha : l.getLast? = some a) :
    pairUp (l ++ [a]) = pairUp l := by
  fun_induction pairUp l
  case case1 b c l hi =>
    have hne : l ≠ [] := by rintro rfl; simp at h
    have ha : l.getLast? = some a := by simpa [List.getLast?_cons_of_ne_nil hne] using ha
    simpa [pairUp] using hi (by simp at h; omega) ha
  case case2 b => simp_all [pairUp]
  case case3   => simp at h

def root (combine : α × α → α) (empty : α) : List α → α
  | []          => empty
  | [a]         => a
  | a :: b :: l => root combine empty ((pairUp (a :: b :: l)).map combine)
termination_by l => l.length
decreasing_by simp; omega

variable {combine : α × α → α} {empty : α} {l l' : List α}

theorem root_eq (h : 1 < l.length) : root combine empty l = root combine empty ((pairUp l).map combine) := by
  match l, h with
  | _ :: _ :: _, _ => rw [root]

theorem root_append_last {a : α} (h : l.length % 2 = 1) (hl : 1 < l.length) (ha : l.getLast? = some a) :
    root combine empty (l ++ [a]) = root combine empty l := by
  rw [root_eq (by simp; omega), pairUp_append_last h ha, ← root_eq hl]

def unpair (p : α × α) : List α :=
  [p.1, p.2]

theorem unpair_map (f : α → β) (p : α × α) : unpair (Prod.map f f p) = (unpair p).map f := rfl

theorem prefix_pairUp (l : List α) : l <+: (pairUp l).flatMap unpair := by
  fun_induction pairUp
  case case1 hi => simpa [unpair] using hi
  case case2    => simp [unpair]
  case case3    => simp

theorem pairUp_subset (l : List α) : (pairUp l).flatMap unpair ⊆ l := by
  fun_induction pairUp
  case case1 a b l hi =>
    simp only [List.flatMap_cons, unpair, List.cons_append, List.nil_append]
    exact List.cons_subset_cons _ (List.cons_subset_cons _ hi)
  case case2 => simp [unpair]
  case case3 => simp

-- The leaves of the tree with `k` levels of nodes over them, copies included.
def leaves : Nat → {α : Type} → List α → List α
  | 0, _, l     => l
  | k + 1, _, l => (leaves k (pairUp l)).flatMap unpair

theorem leaves_map {α β : Type} (k : Nat) (f : α → β) (l : List α) : leaves k (l.map f) = (leaves k l).map f := by
  induction k generalizing α β
  case zero => rfl
  case succ k hi => simp only [leaves, pairUp_map, hi, List.flatMap_map, List.map_flatMap, unpair_map]

theorem prefix_leaves {α : Type} (k : Nat) (l : List α) : l <+: leaves k l := by
  induction k generalizing α
  case zero      => exact List.prefix_refl _
  case succ k hi =>
    have ⟨rest, h⟩ := hi (pairUp l)
    rw [leaves, ← h, List.flatMap_append]
    exact (prefix_pairUp l).trans (List.prefix_append _ _)

theorem leaves_subset {α : Type} (k : Nat) (l : List α) : leaves k l ⊆ l := by
  induction k generalizing α
  case zero      => exact List.Subset.refl _
  case succ k hi =>
    refine fun a ha => pairUp_subset l ?_
    have ⟨p, hp, ha⟩ := List.mem_flatMap.mp ha
    exact List.mem_flatMap.mpr ⟨p, hi (pairUp l) hp, ha⟩

-- Between trees with the same number of levels the root determines the leaves.
theorem leaves_eq_of_root_eq {α : Type} {combine : α × α → α} {empty : α} {l l' : List α} {k : Nat}
    (hc : Function.Injective combine) (hl : l ≠ []) (hl' : l' ≠ []) (hk : Nat.clog 2 l.length = k)
    (hk' : Nat.clog 2 l'.length = k) (h : root combine empty l = root combine empty l') :
    leaves k l = leaves k l' := by
  induction k generalizing l l'
  case zero =>
    have single : ∀ {l : List α}, l ≠ [] → Nat.clog 2 l.length = 0 → ∃ a, l = [a] := by
      intro l hl hk
      have hle : l.length ≤ 2 ^ 0 := (Nat.clog_le_iff_le_pow Nat.one_lt_two).mp hk.le
      exact List.length_eq_one_iff.mp (hle.antisymm (List.length_pos_iff.mpr hl))
    have ⟨a, ha⟩ := single hl hk
    have ⟨a', ha'⟩ := single hl' hk'
    subst ha ha'
    simpa [root, leaves] using h
  case succ k hi =>
    have many : ∀ {l : List α}, Nat.clog 2 l.length = k + 1 →
        1 < l.length ∧ Nat.clog 2 ((pairUp l).map combine).length = k := by
      intro l hk
      have hlt : 1 < l.length := by
        by_contra hn
        simp [Nat.clog_of_right_le_one (Nat.le_of_not_lt hn)] at hk
      rw [Nat.clog_of_two_le Nat.one_lt_two hlt] at hk
      exact ⟨hlt, by simpa using hk⟩
    have ⟨hlt, hk⟩ := many hk
    have ⟨hlt', hk'⟩ := many hk'
    rw [root_eq hlt, root_eq hlt'] at h
    have hne : ∀ {l : List α}, 1 < l.length → (pairUp l).map combine ≠ [] := by
      intro l hlt
      refine List.ne_nil_of_length_pos ?_
      simp
      omega
    have hi := hi (hne hlt) (hne hlt') hk hk' h
    rw [leaves_map, leaves_map] at hi
    rw [leaves, leaves, (List.map_inj_right hc).mp hi]

-- So the shorter list is where the longer one begins, and the rest of that one repeats it.
theorem prefix_of_root_eq {α : Type} {combine : α × α → α} {empty : α} {l l' : List α}
    (hc : Function.Injective combine) (hl : l ≠ []) (hl' : l' ≠ [])
    (hk : Nat.clog 2 l.length = Nat.clog 2 l'.length) (h : root combine empty l = root combine empty l')
    (hle : l.length ≤ l'.length) : l <+: l' ∧ l' ⊆ l := by
  have he := leaves_eq_of_root_eq hc hl hl' hk rfl h
  constructor
  · exact List.prefix_of_prefix_length_le (he ▸ prefix_leaves _ l) (prefix_leaves _ l') hle
  · exact fun a ha => leaves_subset _ l (he ▸ (prefix_leaves _ l').subset ha)

end Merkle
