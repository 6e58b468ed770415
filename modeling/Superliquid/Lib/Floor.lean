import Mathlib.Data.Nat.ModEq
import Mathlib.Algebra.Order.BigOperators.Group.List

-- Sums of quotients that are rounded down one by one.
namespace Floor

variable {c : Nat}

theorem sum_div_le (c : Nat) (f : α → Nat) (xs : List α) : (xs.map fun x => f x / c).sum ≤ (xs.map f).sum / c := by
  induction xs
  case nil => simp
  case cons x xs hi =>
    simp only [List.map_cons, List.sum_cons]
    calc f x / c + (xs.map fun x => f x / c).sum
      _ ≤ f x / c + (xs.map f).sum / c := Nat.add_le_add_left hi _
      _ ≤ (f x + (xs.map f).sum) / c   := Nat.div_add_div_le_add_div

-- Every piece but one can lose up to one.
theorem div_sum_le (c : Nat) (f : α → Nat) (xs : List α) :
    (xs.map f).sum / c ≤ (xs.map fun x => f x / c).sum + (xs.length - 1) := by
  induction xs
  case nil => simp
  case cons x xs hi =>
    simp only [List.map_cons, List.sum_cons, List.length_cons, Nat.add_sub_cancel]
    cases xs
    case nil => simp
    case cons y xs =>
      have hadd := Nat.add_div_le_div_add_div_add_one (f x) ((y :: xs).map f).sum c
      simp only [List.length_cons, Nat.add_sub_cancel] at hi ⊢
      omega

-- The same for what a fixed width holds of the quotients.
theorem mod_sum_le (c m : Nat) (f : α → Nat) (xs : List α) :
    (xs.map f).sum / c % m ≤ (xs.map fun x => f x / c % m).sum + (xs.length - 1) := by
  have hle := sum_div_le c f xs
  have hge := div_sum_le c f xs
  obtain ⟨d, hd⟩ := Nat.exists_eq_add_of_le hle
  have hmod : ((xs.map fun x => f x / c).sum + d) % m = ((xs.map fun x => f x / c % m).sum + d) % m := by
    rw [Nat.add_mod, List.sum_nat_mod, List.map_map, ← Nat.add_mod]
    rfl
  calc (xs.map f).sum / c % m
    _ = ((xs.map fun x => f x / c % m).sum + d) % m         := by rw [hd, hmod]
    _ ≤ (xs.map fun x => f x / c % m).sum + d               := Nat.mod_le _ _
    _ ≤ (xs.map fun x => f x / c % m).sum + (xs.length - 1) := by omega

-- A quotient costs no more than what it was rounded from.
theorem sub_mul_le {n k u q : Nat} (h : n * u ≤ q * c) (hk : k ≤ n) :
    k * u / c ≤ q ∧ (n - k) * u ≤ (q - k * u / c) * c := by
  have hle : k * u ≤ q * c := (Nat.mul_le_mul_right u hk).trans h
  have hdiv : k * u / c * c ≤ k * u := Nat.div_mul_le_self _ _
  refine ⟨?_, ?_⟩
  · cases c
    case zero => simp
    case succ => exact Nat.div_le_of_le_mul (hle.trans_eq (Nat.mul_comm _ _))
  · rw [Nat.sub_mul, Nat.sub_mul]
    omega

end Floor
