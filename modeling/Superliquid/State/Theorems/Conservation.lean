import Mathlib.Algebra.Order.BigOperators.Group.List
import Mathlib.Tactic.Ring
import Superliquid.State.Theorems.Exchange

namespace Superliquid

open SpotClearingHouse SpotMarket LedgerState

variable {own : LimitOrder → Bool} {precision : MarketPrecision} {baseAsset quoteAsset a : AssetId}
         {accounts accounts' : Accounts} {k : PublicKeyHash} {price lots : Nat}

-- An order that is used up is settled for what the taker gets from it: it has not traded with its own
-- account before, and if it belongs to the taker of a market order, it has nothing left.
def Fill.Even (own : LimitOrder → Bool) (f : Fill) : Prop :=
  f.Whole → if own f.order then f.order.filledBaseLots = f.order.baseLots else f.order.selfFilled = 0

instance {f : Fill} : Decidable (f.Even own) :=
  inferInstanceAs (Decidable (_ → ite _ _ _))

-- What the taker gets from a resting order.
def Fill.traded (own : LimitOrder → Bool) (f : Fill) : Nat :=
  if own f.order then 0 else f.lots

theorem Fill.traded_le_settled {f : Fill} (hl : f.lots ≤ f.order.remaining) :
    f.traded own ≤ f.settled own := by
  simp only [Fill.traded, Fill.settled, Fill.Whole, LimitOrder.remaining] at hl ⊢
  split <;> split <;> omega

theorem Fill.traded_eq_settled_iff {f : Fill} (hl : f.lots ≤ f.order.remaining) (hv : f.order.Valid) :
    f.traded own = f.settled own ↔ f.Even own := by
  simp only [Fill.traded, Fill.settled, Fill.Even, Fill.Whole, LimitOrder.remaining, LimitOrder.Valid] at hl hv ⊢
  by_cases hw : f.order.baseLots - f.order.filledBaseLots - f.order.selfFilled ≤ f.lots
  case neg => simp [hw]
  case pos => cases own f.order <;> simp [hw] <;> omega

theorem sumLots_traded_eq {fills : List Fill} :
    sumLots (Superliquid.traded own fills) = (fills.map (Fill.traded own)).sum := by
  induction fills
  case nil => rfl
  case cons f fills hi =>
    cases h : own f.order <;> simp_all [sumLots, Superliquid.traded, Fill.traded]

theorem sumQuotes_traded_eq {fills : List Fill} (h₀ : ∀ price, quoteLots precision price 0 = 0) :
    sumQuotes precision (Superliquid.traded own fills) =
      (fills.map fun f => quoteLots precision f.price (f.traded own)).sum := by
  induction fills
  case nil => rfl
  case cons f fills hi =>
    cases h : own f.order <;> simp_all [sumQuotes, Superliquid.traded, Fill.traded]

theorem settledLots_eq_iff {fills : List Fill} (hl : ∀ f ∈ fills, f.lots ≤ f.order.remaining)
    (hv : ∀ f ∈ fills, f.order.Valid) :
    settledLots own fills = sumLots (Superliquid.traded own fills) ↔ ∀ f ∈ fills, f.Even own := by
  rw [sumLots_traded_eq, eq_comm, settledLots]
  induction fills
  case nil => simp
  case cons f fills hi =>
    obtain ⟨hl, hls⟩ := List.forall_mem_cons.mp hl
    obtain ⟨hv, hvs⟩ := List.forall_mem_cons.mp hv
    have hle : f.traded own ≤ f.settled own := Fill.traded_le_settled hl
    have hsum := List.sum_le_sum (l := fills) (f := Fill.traded own) (g := Fill.settled own)
      fun f hf => Fill.traded_le_settled (hls f hf)
    rw [List.forall_mem_cons, ← hi hls hvs, ← Fill.traded_eq_settled_iff hl hv]
    simp only [List.map_cons, List.sum_cons]
    omega

-- Totals are kept if and only if the taker gets what the makers give.
theorem conserved_iff (buys : Bool) {fills : List Fill} (hne : baseAsset ≠ quoteAsset)
    (hb : 0 < precision.baseLotSize) (h₀ : ∀ price, quoteLots precision price 0 = 0)
    (hl : ∀ f ∈ fills, f.lots ≤ f.order.remaining) (hv : ∀ f ∈ fills, f.order.Valid)
    (h : ∀ a, (accounts'.total a : Int) = accounts.total a +
      legs precision baseAsset quoteAsset (!buys) (sumLots (Superliquid.traded own fills))
        (sumQuotes precision (Superliquid.traded own fills)) a +
      legs precision baseAsset quoteAsset buys (settledLots own fills) (settledQuotes own precision fills) a) :
    (∀ a, accounts'.total a = accounts.total a) ↔ ∀ f ∈ fills, f.Even own := by
  constructor
  · intro hc
    rw [← settledLots_eq_iff hl hv]
    have hbase := h baseAsset
    rw [hc baseAsset] at hbase
    refine Nat.eq_of_mul_eq_mul_right hb ?_
    cases buys <;> simp [legs, side, hne] at hbase <;> exact_mod_cast (by linarith)
  · intro heven a
    have heq : ∀ f ∈ fills, f.settled own = f.traded own := fun f hf =>
      ((Fill.traded_eq_settled_iff (hl f hf) (hv f hf)).mpr (heven f hf)).symm
    have hquotes : settledQuotes own precision fills = sumQuotes precision (Superliquid.traded own fills) := by
      rw [sumQuotes_traded_eq h₀, settledQuotes]
      exact congrArg List.sum (List.map_congr_left fun f hf => by rw [heq f hf])
    have hlots := (settledLots_eq_iff hl hv).mpr heven
    have ha := h a
    rw [hlots, hquotes, Int.add_assoc, legs_cancel, Int.add_zero] at ha
    exact_mod_cast ha

-- Every order that is used up on the way has not traded with its own account before, and a market order
-- does not use up an order of its own account that has something left.
def SpotMarket.EvenMatch (m : SpotMarket) (precision : MarketPrecision) (order : Order) : Prop :=
  ∀ f ∈ (m.sweep precision order).fills, f.Even order.own

instance {m : SpotMarket} {order : Order} : Decidable (m.EvenMatch precision order) :=
  inferInstanceAs (Decidable (∀ f ∈ _, Fill.Even _ f))

theorem Matched.conserved_iff {m m' : SpotMarket} {order : Order} {r : ExecutionResults}
    (h : Matched m precision order accounts m' accounts' r) (hp : m.Priced order.direction.flip)
    (hne : m.baseAsset ≠ m.quoteAsset) (hb : 0 < precision.baseLotSize) :
    (∀ a, accounts'.total a = accounts.total a) ↔ m.EvenMatch precision order := by
  have hl : ∀ f ∈ (m.sweep precision order).fills, f.lots ≤ f.order.remaining := (m.taken precision order).lots
  refine Superliquid.conserved_iff order.direction.flip.isBuy hne hb (quoteLots_zero precision) hl h.valid ?_
  have hflip : (!order.direction.flip.isBuy) = order.direction.isBuy := by
    cases order.direction <;> rfl
  rw [hflip]
  exact (h.settled hp).total

theorem conserved_iff_evenMatch {faucet : PublicKeyHash} {l : LedgerState} {order : Order} {c : SpotClearingHouse}
    {r : ExecutionResults} (h : l.Reachable faucet) (hp : l.marketPrecision order.getMarketId = .ok precision)
    (hc : l.spotClearinghouse.handleOrder order precision = .ok (c, some r)) :
    (∀ a, c.accounts.total a = l.spotClearinghouse.accounts.total a) ↔
      ∀ m ∈ l.spotClearinghouse.markets, m.EvenMatch precision order := by
  have ⟨e, hshows, hsound⟩ := h.invariant Exchange.Sound.new Exchange.Sound.step
  have ⟨_, hprecision⟩ := hshows.marketPrecision hp
  subst hprecision
  cases handleOrder_cases hc
  case inl hd => exact absurd hd.1 (by simp)
  case inr hs =>
    have ⟨m, m', results, hm, _, hr, hcase⟩ := hs
    have ⟨_, hmarket⟩ := hshows.market_eq hm
    subst hmarket
    rw [hshows.markets]
    simp only [List.mem_singleton, forall_eq]
    cases hcase
    case inl hrest =>
      have ⟨o, ho, rested⟩ := hrest
      subst ho
      refine iff_of_true rested.total ?_
      simp [SpotMarket.EvenMatch, rested.fills]
    case inr matched =>
      refine matched.conserved_iff (hsound.priced _) ?_ (by decide)
      rw [hshows.listed.baseAsset, hshows.listed.quoteAsset]
      decide

-- Account 7 sells five lots.
def soldFive : List SignedTransaction := [
  .transfer 1 7 0 1000 0,
  .transfer 1 7 1 1000 1,
  .transfer 1 8 1 1000 2,
  .limit 7 .sell 10 5 0
]

def buysFive (account : PublicKeyHash) : Order :=
  .market (.buy {
    quoteSize := 5, filledSize := 0, selfFilled := 0, averageExecutionPrice := 0
    common := { id := 1, marketId := 0, status := .open, account, direction := .buy } })

theorem otherOrder_conserved : ∃ (l : LedgerState) (c : SpotClearingHouse) (r : ExecutionResults), l.Reachable 1 ∧
    l.spotClearinghouse.handleOrder (buysFive 8) .supeUsd = .ok (c, some r) ∧ r.filledOrders.length = 1 ∧
    ∀ a, c.accounts.total a = l.spotClearinghouse.accounts.total a := by
  have h := Reachable.of_apply (rfl : (LedgerState.new 1).apply soldFive = .ok _)
  refine ⟨_, _, _, h, rfl, rfl, ?_⟩
  exact (@conserved_iff_evenMatch .supeUsd 1 _ (buysFive 8) _ _ h rfl rfl).mpr (by decide)

-- Account 7 takes its own order, for which it is settled as if it had sold to somebody else.
theorem ownOrder_not_conserved : ∃ (l : LedgerState) (c : SpotClearingHouse) (r : ExecutionResults), l.Reachable 1 ∧
    l.marketPrecision 0 = .ok .supeUsd ∧ l.spotClearinghouse.handleOrder (buysFive 7) .supeUsd = .ok (c, some r) ∧
    c.accounts.total 0 + 500 = l.spotClearinghouse.accounts.total 0 ∧
    c.accounts.total 1 = l.spotClearinghouse.accounts.total 1 + 500 :=
  ⟨_, _, _, .of_apply (rfl : (LedgerState.new 1).apply soldFive = .ok _), rfl, rfl, rfl, rfl⟩

end Superliquid
