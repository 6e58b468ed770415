import Mathlib.Algebra.Ring.Nat
import Mathlib.Tactic.Common

-- What ends a thread early: an arithmetic overflow or a division by zero, an index past the end,
-- or an `expect`/`unwrap` on a missing value.
inductive Panic
  | overflow
  | divisionByZero
  | outOfBounds
  | expect (msg : String)
  deriving DecidableEq, Repr

-- A computation that may panic. Unsigned integers of any width are natural numbers; the width only
-- shows up as a bound in the checked operations below.
abbrev Checked (α : Type) :=
  Except Panic α

namespace Checked

theorem bind_ok {x : Checked α} {f : α → Checked β} : (x >>= f) = .ok b ↔ ∃ a, x = .ok a ∧ f a = .ok b := by
  cases x <;> simp [bind, Except.bind]

theorem ok_bind {a : α} {f : α → Checked β} : (.ok a >>= f) = f a := rfl

theorem bind_congr {x : Checked α} {f g : α → Checked β} (h : ∀ a, x = .ok a → f a = g a) : x >>= f = x >>= g := by
  cases x
  case error => rfl
  case ok a  => exact h a rfl

theorem bind_total {x : Checked α} {f : α → Checked β} :
    (∃ b, (x >>= f) = .ok b) ↔ ∃ a, x = .ok a ∧ ∃ b, f a = .ok b := by
  cases x <;> simp [bind, Except.bind]

theorem map_ok {x : Checked α} {f : α → β} : (f <$> x) = .ok b ↔ ∃ a, x = .ok a ∧ f a = b := by
  cases x <;> simp [Functor.map, Except.map]

theorem pure_ok {a b : α} : (pure a : Checked α) = .ok b ↔ a = b := by
  simp [pure, Except.pure]

theorem mapM_ok {f : α → Checked β} {g : α → β} {xs : List α} (h : ∀ x ∈ xs, f x = .ok (g x)) :
    xs.mapM f = .ok (xs.map g) := by
  induction xs
  case nil => rfl
  case cons x xs hi =>
    have ⟨hx, hxs⟩ := List.forall_mem_cons.mp h
    rw [List.mapM_cons, hx, hi hxs]
    rfl

-- The result of an operation on `width` bits, if it fits.
def fit (width n : Nat) : Checked Nat :=
  if n < 2 ^ width then .ok n else .error .overflow

theorem fit_ok {width n m : Nat} : fit width n = .ok m ↔ n < 2 ^ width ∧ n = m := by
  unfold fit
  split <;> simp [*]

def sub (a b : Nat) : Checked Nat :=
  if b ≤ a then .ok (a - b) else .error .overflow

theorem sub_ok {a b c : Nat} : sub a b = .ok c ↔ b ≤ a ∧ c = a - b := by
  unfold sub
  split <;> simp [*, eq_comm]

theorem sub_eq_ok {a b : Nat} (h : b ≤ a) : sub a b = .ok (a - b) := by
  simp [sub, h]

def div (a b : Nat) : Checked Nat :=
  if b = 0 then .error .divisionByZero else .ok (a / b)

theorem div_ok {a b c : Nat} : div a b = .ok c ↔ b ≠ 0 ∧ c = a / b := by
  unfold div
  split <;> simp [*, eq_comm]

def rem (a b : Nat) : Checked Nat :=
  if b = 0 then .error .divisionByZero else .ok (a % b)

-- Indexing into a vector.
def index (xs : List α) (i : Nat) : Checked α :=
  match xs[i]? with
  | some x => .ok x
  | none   => .error .outOfBounds

theorem index_ok {xs : List α} {i : Nat} {x : α} : index xs i = .ok x ↔ xs[i]? = some x := by
  unfold index
  cases xs[i]? <;> simp

def expect (x : Option α) (msg : String) : Checked α :=
  match x with
  | some a => .ok a
  | none   => .error (.expect msg)

theorem expect_ok {x : Option α} {msg : String} {a : α} : expect x msg = .ok a ↔ x = some a := by
  cases x <;> simp [expect]

-- A computation in which no `expect` fails.
def NoExpect (x : Checked α) : Prop :=
  ∀ msg, x ≠ .error (.expect msg)

-- Everything but a failed `expect`.
def NotExpect (e : Panic) : Prop :=
  ∀ msg, e ≠ .expect msg

-- A computation in which only some panics are possible.
def PanicsOnly (P : Panic → Prop) (x : Checked α) : Prop :=
  ∀ e, x = .error e → P e

-- Bounds are not what a predicate on panics is about.
class Ordinary (P : Panic → Prop) : Prop where
  overflow    : P .overflow
  outOfBounds : P .outOfBounds

section PanicsOnly

variable {P : Panic → Prop} {x : Checked α} {f : α → Checked β}

@[simp]
theorem panicsOnly_pure {a : α} : PanicsOnly P (pure a) := by
  simp [PanicsOnly, pure, Except.pure]

@[simp]
theorem panicsOnly_bind : PanicsOnly P (x >>= f) ↔ PanicsOnly P x ∧ ∀ a, x = .ok a → PanicsOnly P (f a) := by
  cases x <;> simp [PanicsOnly, bind, Except.bind]

@[simp]
theorem panicsOnly_map {g : α → β} : PanicsOnly P (g <$> x) ↔ PanicsOnly P x := by
  cases x <;> simp [PanicsOnly, Functor.map, Except.map]

@[simp]
theorem panicsOnly_ite {c : Prop} [Decidable c] {y : Checked α} :
    PanicsOnly P (if c then x else y) ↔ (c → PanicsOnly P x) ∧ (¬c → PanicsOnly P y) := by
  split <;> simp [*]

@[simp]
theorem panicsOnly_div {a b : Nat} : PanicsOnly P (div a b) ↔ (b = 0 → P .divisionByZero) := by
  unfold div
  split <;> simp [PanicsOnly, *]

@[simp]
theorem panicsOnly_expect {x : Option α} {msg : String} :
    PanicsOnly P (expect x msg) ↔ (x = none → P (.expect msg)) := by
  cases x <;> simp [PanicsOnly, expect]

theorem panicsOnly_foldlM {g : β → α → Checked β} (h : ∀ b a, PanicsOnly P (g b a)) (xs : List α) (b : β) :
    PanicsOnly P (xs.foldlM g b) := by
  induction xs generalizing b
  case nil          => simp
  case cons x xs hi => simpa using ⟨h b x, fun b' _ => hi b'⟩

variable [Ordinary P]

@[simp]
theorem panicsOnly_fit {width n : Nat} : PanicsOnly P (fit width n) := by
  unfold fit
  split <;> simp [PanicsOnly, Ordinary.overflow]

@[simp]
theorem panicsOnly_sub {a b : Nat} : PanicsOnly P (sub a b) := by
  unfold sub
  split <;> simp [PanicsOnly, Ordinary.overflow]

@[simp]
theorem panicsOnly_index {xs : List α} {i : Nat} : PanicsOnly P (index xs i) := by
  unfold index
  cases xs[i]? <;> simp [PanicsOnly, Ordinary.outOfBounds]

end PanicsOnly

@[simp]
theorem not_notExpect {msg : String} : ¬NotExpect (.expect msg) :=
  fun h => h msg rfl

theorem notExpect_divisionByZero : NotExpect .divisionByZero := by simp [NotExpect]

instance : Ordinary NotExpect where
  overflow    := by simp [NotExpect]
  outOfBounds := by simp [NotExpect]

theorem noExpect_iff {x : Checked α} : NoExpect x ↔ PanicsOnly NotExpect x := by
  cases x <;> simp [NoExpect, PanicsOnly, NotExpect]

end Checked

-- Arithmetic on `u32`, `u64` and `u128` as a build with overflow checks performs it. Casts between
-- widths truncate silently.
namespace U32

def add (a b : Nat) : Checked Nat := Checked.fit 32 (a + b)

theorem add_ok {a b c : Nat} : add a b = .ok c ↔ a + b < 2 ^ 32 ∧ a + b = c := Checked.fit_ok

end U32

namespace U64

def add (a b : Nat) : Checked Nat := Checked.fit 64 (a + b)
def mul (a b : Nat) : Checked Nat := Checked.fit 64 (a * b)
def cast (a : Nat) : Nat := a % 2 ^ 64

theorem add_ok {a b c : Nat} : add a b = .ok c ↔ a + b < 2 ^ 64 ∧ a + b = c := Checked.fit_ok
theorem mul_ok {a b c : Nat} : mul a b = .ok c ↔ a * b < 2 ^ 64 ∧ a * b = c := Checked.fit_ok

end U64

namespace U128

def add (a b : Nat) : Checked Nat := Checked.fit 128 (a + b)
def mul (a b : Nat) : Checked Nat := Checked.fit 128 (a * b)

theorem add_ok {a b c : Nat} : add a b = .ok c ↔ a + b < 2 ^ 128 ∧ a + b = c := Checked.fit_ok
theorem mul_ok {a b c : Nat} : mul a b = .ok c ↔ a * b < 2 ^ 128 ∧ a * b = c := Checked.fit_ok

end U128
