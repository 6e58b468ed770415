import Mathlib.Tactic.Ring
import Superliquid.Lib.Floor
import Superliquid.State.Theorems.Matching

namespace Superliquid

namespace MarketPrecision

-- What a base lot costs at a price, and what a quote lot is worth, in the smallest unit.
def lotCost (p : MarketPrecision) (price : Nat) : Nat :=
  p.baseLotSize * price * p.tick

def quoteUnit (p : MarketPrecision) : Nat :=
  p.quoteLotSize * 10 ^ p.tickDecimals

-- `base_to_quote_lots` over the natural numbers.
def exactQuoteLots (p : MarketPrecision) (price lots : Nat) : Nat :=
  lots * p.lotCost price / p.quoteUnit

-- The `u128` arithmetic of `base_to_quote_lots` does not overflow or divide by zero.
structure Fits (p : MarketPrecision) (price lots : Nat) : Prop where
  units     : lots * p.baseLotSize < 2 ^ 128
  priced    : lots * p.baseLotSize * price < 2 ^ 128
  cost      : lots * p.lotCost price < 2 ^ 128
  scale     : 10 ^ p.tickDecimals < 2 ^ 128
  quoteUnit : p.quoteUnit < 2 ^ 128
  nonzero   : p.quoteUnit ≠ 0

-- The precisions of the source, apart from those that make a conversion divide by zero or its constants overflow.
structure Regular (p : MarketPrecision) : Prop where
  baseLotSize  : 0 < p.baseLotSize ∧ p.baseLotSize < 2 ^ 32
  quoteLotSize : 0 < p.quoteLotSize ∧ p.quoteLotSize < 2 ^ 32
  tick         : 0 < p.tick ∧ p.tick < 2 ^ 32
  tickDecimals : p.tickDecimals ≤ 9

end MarketPrecision

open MarketPrecision

section Conversions

variable {p : MarketPrecision} {lots lots' price price' q n : Nat}

theorem MarketPrecision.lotCost_mono (h : price ≤ price') : p.lotCost price ≤ p.lotCost price' :=
  Nat.mul_le_mul_right _ (Nat.mul_le_mul_left _ h)

theorem MarketPrecision.exactQuoteLots_mono (hp : price ≤ price') (hl : lots ≤ lots') :
    p.exactQuoteLots price lots ≤ p.exactQuoteLots price' lots' :=
  Nat.div_le_div_right (Nat.mul_le_mul hl (lotCost_mono hp))

theorem MarketPrecision.Fits.mono (h : p.Fits price' lots') (hp : price ≤ price') (hl : lots ≤ lots') :
    p.Fits price lots where
  units     := (Nat.mul_le_mul_right _ hl).trans_lt h.units
  priced    := (Nat.mul_le_mul (Nat.mul_le_mul_right _ hl) hp).trans_lt h.priced
  cost      := (Nat.mul_le_mul hl (lotCost_mono hp)).trans_lt h.cost
  scale     := h.scale
  quoteUnit := h.quoteUnit
  nonzero   := h.nonzero

theorem baseToQuoteLots_ok :
    baseToQuoteLots lots price p = .ok q ↔ p.Fits price lots ∧ q = p.exactQuoteLots price lots % 2 ^ 64 := by
  have hcost : lots * p.baseLotSize * price * p.tick = lots * p.lotCost price := by
    rw [lotCost]
    ring
  simp only [baseToQuoteLots, Checked.bind_ok, U128.mul_ok, Checked.fit_ok, Checked.div_ok, Checked.pure_ok, U64.cast]
  constructor
  · rintro ⟨_, ⟨h₁, rfl⟩, _, ⟨h₂, rfl⟩, _, ⟨h₃, rfl⟩, _, ⟨h₄, rfl⟩, _, ⟨h₅, rfl⟩, _, ⟨h₆, rfl⟩, rfl⟩
    rw [hcost] at h₃ ⊢
    exact ⟨⟨h₁, h₂, h₃, h₄, h₅, h₆⟩, rfl⟩
  · rintro ⟨h, rfl⟩
    exact ⟨_, ⟨h.units, rfl⟩, _, ⟨h.priced, rfl⟩, _, ⟨hcost ▸ h.cost, rfl⟩, _, ⟨h.scale, rfl⟩, _, ⟨h.quoteUnit, rfl⟩, _,
      ⟨h.nonzero, rfl⟩, by rw [hcost]; rfl⟩

theorem quoteLotsToBaseLots_ok : quoteLotsToBaseLots q price p = .ok n ↔
    q * p.quoteLotSize < 2 ^ 128 ∧ 10 ^ p.tickDecimals < 2 ^ 128 ∧ q * p.quoteUnit < 2 ^ 128 ∧
      price * p.tick < 2 ^ 128 ∧ p.lotCost price < 2 ^ 128 ∧ p.lotCost price ≠ 0 ∧
      n = q * p.quoteUnit / p.lotCost price % 2 ^ 64 := by
  have hunit : q * p.quoteLotSize * 10 ^ p.tickDecimals = q * p.quoteUnit := Nat.mul_assoc _ _ _
  have hcost : price * p.tick * p.baseLotSize = p.lotCost price := by
    rw [lotCost]
    ring
  simp only [quoteLotsToBaseLots, Checked.bind_ok, U128.mul_ok, Checked.fit_ok, Checked.div_ok, Checked.pure_ok,
    U64.cast]
  constructor
  · rintro ⟨_, ⟨h₁, rfl⟩, _, ⟨h₂, rfl⟩, _, ⟨h₃, rfl⟩, _, ⟨h₄, rfl⟩, _, ⟨h₅, rfl⟩, _, ⟨h₆, rfl⟩, rfl⟩
    rw [hcost] at h₅ h₆ ⊢
    rw [hunit] at h₃ ⊢
    exact ⟨h₁, h₂, h₃, h₄, h₅, h₆, rfl⟩
  · rintro ⟨h₁, h₂, h₃, h₄, h₅, h₆, rfl⟩
    rw [← hcost] at h₅ h₆ ⊢
    rw [← hunit] at h₃ ⊢
    exact ⟨_, ⟨h₁, rfl⟩, _, ⟨h₂, rfl⟩, _, ⟨h₃, rfl⟩, _, ⟨h₄, rfl⟩, _, ⟨h₅, rfl⟩, _, ⟨h₆, rfl⟩, rfl⟩

end Conversions

namespace MarketPrecision.Regular

variable {p : MarketPrecision} {price q n k : Nat}

theorem quoteUnit_lt (h : p.Regular) : 0 < p.quoteUnit ∧ p.quoteUnit < 2 ^ 32 * 10 ^ 9 := by
  have hscale : 10 ^ p.tickDecimals ≤ 10 ^ 9 := Nat.pow_le_pow_right (by decide) h.tickDecimals
  refine ⟨Nat.mul_pos h.quoteLotSize.1 (Nat.pow_pos (by decide)), ?_⟩
  calc p.quoteLotSize * 10 ^ p.tickDecimals
    _ ≤ p.quoteLotSize * 10 ^ 9 := Nat.mul_le_mul_left _ hscale
    _ < 2 ^ 32 * 10 ^ 9         := Nat.mul_lt_mul_of_pos_right h.quoteLotSize.2 (by decide)

theorem lotCost_pos (h : p.Regular) (hp : 0 < price) : 0 < p.lotCost price :=
  Nat.mul_pos (Nat.mul_pos h.baseLotSize.1 hp) h.tick.1

-- The base lots that a number of quote lots pays for. What the cast cuts off only makes them fewer.
theorem quoteLotsToBaseLots (h : p.Regular) (hp : 0 < price) (hprice : price < 2 ^ 64) (hq : q < 2 ^ 64) :
    ∃ n, quoteLotsToBaseLots q price p = .ok n ∧ n * p.lotCost price ≤ q * p.quoteUnit := by
  have hunit := h.quoteUnit_lt
  have hcost := h.lotCost_pos hp
  have hscale : 10 ^ p.tickDecimals ≤ 10 ^ 9 := Nat.pow_le_pow_right (by decide) h.tickDecimals
  have h₁ : q * p.quoteLotSize < 2 ^ 64 * 2 ^ 32 := Nat.mul_lt_mul'' hq h.quoteLotSize.2
  have h₃ : q * p.quoteUnit < 2 ^ 64 * (2 ^ 32 * 10 ^ 9) := Nat.mul_lt_mul'' hq hunit.2
  have h₄ : price * p.tick < 2 ^ 64 * 2 ^ 32 := Nat.mul_lt_mul'' hprice h.tick.2
  have h₅ : p.baseLotSize * price * p.tick < 2 ^ 32 * 2 ^ 64 * 2 ^ 32 :=
    Nat.mul_lt_mul'' (Nat.mul_lt_mul'' h.baseLotSize.2 hprice) h.tick.2
  refine ⟨_, quoteLotsToBaseLots_ok.mpr ⟨by omega, by omega, by omega, by omega, h₅, hcost.ne', rfl⟩, ?_⟩
  exact (Nat.mul_le_mul_right _ (Nat.mod_le _ _)).trans (Nat.div_mul_le_self _ _)

-- No more than a budget allows is converted without loss of bits.
theorem baseToQuoteLots (h : p.Regular) (hp : 0 < price) (hq : q < 2 ^ 64)
    (hk : k * p.lotCost price ≤ q * p.quoteUnit) :
    baseToQuoteLots k price p = .ok (p.exactQuoteLots price k) := by
  have hunit := h.quoteUnit_lt
  have hscale : 10 ^ p.tickDecimals ≤ 10 ^ 9 := Nat.pow_le_pow_right (by decide) h.tickDecimals
  have hbudget : q * p.quoteUnit < 2 ^ 64 * (2 ^ 32 * 10 ^ 9) := Nat.mul_lt_mul'' hq hunit.2
  have hpriced : k * p.baseLotSize * price ≤ k * p.lotCost price := by
    rw [Nat.mul_assoc]
    exact Nat.mul_le_mul_left _ (Nat.le_mul_of_pos_right _ h.tick.1)
  have hunits : k * p.baseLotSize ≤ k * p.baseLotSize * price := Nat.le_mul_of_pos_right _ hp
  have hquote : p.exactQuoteLots price k ≤ q :=
    Nat.div_le_of_le_mul (hk.trans_eq (Nat.mul_comm _ _))
  refine baseToQuoteLots_ok.mpr ⟨⟨by omega, by omega, by omega, by omega, by omega, hunit.1.ne'⟩, ?_⟩
  exact (Nat.mod_eq_of_lt (hquote.trans_lt hq)).symm

end MarketPrecision.Regular
end Superliquid
