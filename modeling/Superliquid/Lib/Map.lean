import Mathlib.Algebra.BigOperators.Group.List.Basic
import Mathlib.Algebra.Ring.Nat
import Mathlib.Data.List.AList
import Mathlib.Tactic.Common

-- Hash maps, as association lists with distinct keys.
abbrev Map (κ ν : Type) :=
  AList fun _ : κ => ν

namespace Map

variable [DecidableEq κ] {m : Map κ ν} {k k' : κ} {v : ν} {f : ν → Nat}

theorem lookup_insert_iff {v' : ν} :
    (m.insert k v).lookup k' = some v' ↔ (k' = k ∧ v = v') ∨ (k' ≠ k ∧ m.lookup k' = some v') := by
  by_cases h : k' = k
  case pos => subst h; simp
  case neg => simp [AList.lookup_insert_ne h, h]

-- The sum of `f` over all entries.
def total (m : Map κ ν) (f : ν → Nat) : Nat :=
  (m.entries.map (f ·.2)).sum

theorem sum_kerase (l : List (Σ _ : κ, ν)) (f : ν → Nat) :
    ((l.kerase k).map (f ·.2)).sum + (l.dlookup k).elim 0 f = (l.map (f ·.2)).sum := by
  induction l
  case nil => simp
  case cons hd tl hi =>
    by_cases h : k = hd.1
    case pos =>
      cases hd
      subst h
      simp [Nat.add_comm]
    case neg =>
      simp only [List.kerase_cons_ne h, List.dlookup_cons_ne _ _ h, List.map_cons, List.sum_cons]
      omega

-- Writing an entry changes the sum by the difference between the new and the old value.
theorem total_insert (m : Map κ ν) (k : κ) (v : ν) (f : ν → Nat) :
    total (m.insert k v) f + (m.lookup k).elim 0 f = total m f + f v := by
  have h := sum_kerase (k := k) m.entries f
  simp only [total, AList.entries_insert, List.map_cons, List.sum_cons, AList.lookup]
  omega

theorem total_erase (m : Map κ ν) (k : κ) (f : ν → Nat) :
    total (m.erase k) f + (m.lookup k).elim 0 f = total m f :=
  sum_kerase m.entries f

end Map
