import Superliquid.State.Theorems.Book

namespace Superliquid

namespace OrderDirection

def isBuy (d : OrderDirection) : Bool :=
  d = .buy

-- The direction of the orders that an order meets.
def flip : OrderDirection → OrderDirection
  | buy  => sell
  | sell => buy

@[simp]
theorem flip_flip {d : OrderDirection} : d.flip.flip = d := by
  cases d <;> rfl

theorem eq_or_eq_flip (d d' : OrderDirection) : d' = d ∨ d' = d.flip := by
  cases d <;> cases d' <;> simp [flip]

-- The order of the levels in which orders of a direction rest.
def cmp : OrderDirection → Nat → Nat → Ordering
  | buy  => SpotMarket.ascending
  | sell => SpotMarket.descending

theorem cmp_flip {d : OrderDirection} {p q : Nat} : d.flip.cmp p q = d.cmp q p := by
  cases d <;> rfl

instance : (d : OrderDirection) → Std.TransCmp d.cmp
  | buy  => inferInstanceAs (Std.TransCmp SpotMarket.ascending)
  | sell => inferInstanceAs (Std.TransCmp SpotMarket.descending)

instance : (d : OrderDirection) → Std.LawfulEqCmp d.cmp
  | buy  => inferInstanceAs (Std.LawfulEqCmp SpotMarket.ascending)
  | sell => inferInstanceAs (Std.LawfulEqCmp SpotMarket.descending)

end OrderDirection

-- The market that a ledger starts with, its precision, and the order that `new_limit_order` makes for it.
def SpotMarket.supeUsd : SpotMarket :=
  .new 0 (0, 1) 0 1 "SUPE" "USD" 100 3

def MarketPrecision.supeUsd : MarketPrecision where
  baseLotSize := 100
  quoteLotSize := 100
  tick := 100
  tickDecimals := 3

def LimitOrder.place (id : Nat) (account : PublicKeyHash) (direction : OrderDirection) (price lots : Nat) :
    LimitOrder where
  common := { id, marketId := 0, status := .open, account, direction }
  priceMultiple := price
  baseLots := lots
  filledBaseLots := 0
  selfFilled := 0

def Order.direction : Order → OrderDirection
  | limit o         => o.common.direction
  | market (.sell _) => .sell
  | market (.buy _)  => .buy

-- Which of the orders that it meets belong to the account of an order. A limit order does not look.
def Order.own : Order → LimitOrder → Bool
  | limit _          => notOwn
  | market (.sell o) => ofAccount o.common.account
  | market (.buy o)  => ofAccount o.common.account

namespace SpotMarket

-- The levels in which the orders of a direction rest.
def side (m : SpotMarket) : OrderDirection → List Level
  | .buy  => m.bidsLevels
  | .sell => m.asksLevels

def setSide (m : SpotMarket) (d : OrderDirection) (levels : List Level) : SpotMarket :=
  match d with
  | .buy  => { m with bidsLevels := levels }
  | .sell => { m with asksLevels := levels }

def addSide (m : SpotMarket) (d : OrderDirection) (order : LimitOrder) : Checked SpotMarket :=
  match d with
  | .buy  => m.addBid order
  | .sell => m.addAsk order

def addOrder (m : SpotMarket) (order : LimitOrder) : Checked SpotMarket :=
  m.addSide order.common.direction order

-- What an order takes from the side that it meets.
def sweep (m : SpotMarket) (precision : MarketPrecision) : Order → Sweep
  | .limit o         => limitSweep (m.side o.common.direction.flip) o o.common.direction.flip.cmp
  | .market (.sell o) => marketSellSweep m.bidsLevels o
  | .market (.buy o)  => marketBuySweep m.asksLevels o precision

variable {m m' : SpotMarket} {order : LimitOrder} {baseAsset quoteAsset : AssetId}
         {precision : MarketPrecision} {d d' : OrderDirection} {levels : List Level} {price : Option Nat}

@[simp]
theorem side_setSide : (m.setSide d levels).side d = levels := by
  cases d <;> rfl

@[simp]
theorem side_flip_setSide : (m.setSide d levels).side d.flip = m.side d.flip := by
  cases d <;> rfl

@[simp]
theorem side_setLastExecutedPrice : (m.setLastExecutedPrice price).side d = m.side d := by
  cases price <;> cases d <;> rfl

theorem addOrder_added (h : m.addOrder order = .ok m') :
    ∃ levels, m' = m.setSide order.common.direction levels ∧ order.filledBaseLots ≤ order.baseLots ∧
      Added order.common.direction.cmp order (m.side order.common.direction) levels := by
  unfold addOrder at h
  cases hd : order.common.direction
  all_goals
    simp only [hd, addSide, addBid, addAsk, Checked.bind_ok, Checked.pure_ok] at h
    have ⟨levels, ha, hm⟩ := h
    exact ⟨levels, hm.symm, addOrderWithCmp_added ha⟩

theorem cancelOrder_cancelled {unfilled : Nat} (h : m.cancelOrder order = .ok (m', unfilled)) :
    ∃ levels, m' = m.setSide order.common.direction levels ∧
      Cancelled order.common.direction.cmp order (m.side order.common.direction) levels unfilled := by
  unfold cancelOrder at h
  cases hd : order.common.direction
  all_goals
    simp only [hd, cancelBid, cancelAsk, Checked.bind_ok, Checked.pure_ok, Prod.exists, Prod.mk.injEq] at h
    have ⟨levels, _, hc, hm, hn⟩ := h
    subst hn
    exact ⟨levels, hm.symm, cancelOrderWithCmp_cancelled hc⟩

-- A limit order that reaches no price.
theorem limitSweep_eq_of_best {cmp : Nat → Nat → Ordering}
    (h : ∀ best, levels.getLast? = some best → cmp order.priceMultiple best.price = .gt) :
    limitSweep levels order cmp = { levels := levels.reverse, drained := [], residual := none, fills := [] } := by
  rw [limitSweep]
  cases hr : levels.reverse
  case nil => rfl
  case cons best rest =>
    have hlast : levels.getLast? = some best := by
      rw [List.getLast?_eq_head?_reverse, hr, List.head?_cons]
    have hz : (Budget.base (crosses cmp order.priceMultiple)).lots order.baseLots best.price = 0 := by
      simp [Budget.base, crosses, h best hlast]
    rw [sweep_stop hz]

def leaves (m : SpotMarket) (precision : MarketPrecision) (order : LimitOrder) : LimitOrder :=
  { order with filledBaseLots := sumLots (m.sweep precision (.limit order)).fills }

-- The two branches of `add_limit_order` in one.
theorem addLimitOrder_eq (d : OrderDirection) (hd : order.common.direction = d) :
    m.addLimitOrder order baseAsset quoteAsset precision =
      match (m.side d.flip).getLast? with
      | none => do
        return (← m.addSide d order, none)
      | some best =>
        if d.flip.cmp order.priceMultiple best.price = .gt then do
          return (← m.addSide d order, none)
        else do
          let (levels, order, result) ←
            executeLimit (m.side d.flip) order (if d.isBuy then baseAsset else quoteAsset)
              (if d.isBuy then quoteAsset else baseAsset) d.isBuy precision d.flip.cmp
          let m := (m.setSide d.flip levels).setLastExecutedPrice result.lastExecutedPrice
          let m ← if order.filledBaseLots < order.baseLots then m.addSide d order else pure m
          return (m, some result) := by
  unfold addLimitOrder
  cases d
  case buy =>
    simp only [hd, getBestPrices, OrderDirection.flip, side]
    cases m.asksLevels.getLast?
    case none => rfl
    case some best =>
      have hc : ¬OrderDirection.sell.cmp order.priceMultiple best.price = .gt ↔ best.price ≤ order.priceMultiple :=
        Nat.compare_eq_gt.not.trans Nat.not_lt
      simp only [Option.map_some, ← hc, ite_not]
      rfl
  case sell =>
    simp only [hd, getBestPrices, OrderDirection.flip, side]
    cases m.bidsLevels.getLast?
    case none => rfl
    case some best =>
      have hc : ¬OrderDirection.buy.cmp order.priceMultiple best.price = .gt ↔ order.priceMultiple ≤ best.price :=
        Nat.compare_eq_gt.not.trans Nat.not_lt
      simp only [Option.map_some, ← hc, ite_not]
      rfl

-- A limit order rests at once if it meets nothing. Otherwise it is matched, and what is left of it rests.
theorem addLimitOrder_cases {r : Option LimitFillResult}
    (h : m.addLimitOrder order baseAsset quoteAsset precision = .ok (m', r)) :
    let d := order.common.direction
    let sw := m.sweep precision (.limit order)
    ((∀ best, (m.side d.flip).getLast? = some best → d.flip.cmp order.priceMultiple best.price = .gt) ∧
      sw = { levels := (m.side d.flip).reverse, drained := [], residual := none, fills := [] } ∧
      r = none ∧ m.addOrder order = .ok m') ∨
    (∃ result,
      LimitResult sw d.isBuy precision order (if d.isBuy then baseAsset else quoteAsset)
        (if d.isBuy then quoteAsset else baseAsset) sw.levels.reverse (m.leaves precision order) result ∧
      r = some result ∧
      let m₁ := (m.setSide d.flip sw.levels.reverse).setLastExecutedPrice result.lastExecutedPrice
      if sumLots sw.fills < order.baseLots then m₁.addOrder (m.leaves precision order) = .ok m' else m' = m₁) := by
  have rests (hb : ∀ best, (m.side order.common.direction.flip).getLast? = some best →
        order.common.direction.flip.cmp order.priceMultiple best.price = .gt)
      (h : (do return (← m.addOrder order, none)) = Except.ok (m', r)) :=
    have ⟨_, ha, hm⟩ := Checked.bind_ok.mp h
    have ⟨hm, hr⟩ := Prod.mk.inj (Checked.pure_ok.mp hm)
    (⟨hb, limitSweep_eq_of_best hb, hr.symm, hm ▸ ha⟩ : _ ∧ _ ∧ _ ∧ _)
  rw [addLimitOrder_eq _ rfl] at h
  cases hb : (m.side order.common.direction.flip).getLast?
  case none =>
    simp only [hb] at h
    exact .inl (rests (by simp [hb]) h)
  case some best =>
    simp only [hb] at h
    split at h
    case isTrue hc => exact .inl (rests (by simpa [hb] using hc) h)
    case isFalse hc =>
      simp only [Checked.bind_ok, Prod.exists] at h
      have ⟨levels, order', result, hx, hrest⟩ := h
      have hr := executeLimit_result hx
      have hl : levels = (m.sweep precision (.limit order)).levels.reverse :=
        List.reverse_eq_iff.mp hr.swept.levels
      have ho : order' = m.leaves precision order := hr.filled
      subst hl ho
      refine .inr ⟨result, hr, ?_⟩
      split at hrest
      case isTrue hlt =>
        simp only [Checked.bind_ok, Checked.pure_ok, Prod.mk.injEq] at hrest
        have ⟨_, ha, hm, hres⟩ := hrest
        subst hm hres
        exact ⟨rfl, (if_pos hlt).mpr ha⟩
      case isFalse hlt =>
        cases hrest
        exact ⟨rfl, (if_neg hlt).mpr rfl⟩

-- What the two kinds of market order report, in terms of the naive matcher.
def Outcome (m : SpotMarket) (precision : MarketPrecision) (order : MarketOrder) :
    MarketOrderMatchingResults → Prop
  | .sell result => ∃ o, order = .sell o ∧ MarketSellOutcome (m.sweep precision (.market order))
      o.common.account precision (m.sweep precision (.market order)).levels.reverse result
  | .buy result  => ∃ o, order = .buy o ∧ MarketBuyOutcome (m.sweep precision (.market order))
      o.common.account precision (m.sweep precision (.market order)).levels.reverse result

theorem handleMarketOrder_outcome {order : MarketOrder} {r : MarketOrderMatchingResults}
    (h : m.handleMarketOrder order precision = .ok (m', r)) :
    m.Outcome precision order r ∧
    m' = (m.setSide (Order.market order).direction.flip
      (m.sweep precision (.market order)).levels.reverse).setLastExecutedPrice r.getLastExecutedPrice := by
  unfold handleMarketOrder at h
  cases order
  case sell o =>
    simp only [Checked.bind_ok, Checked.pure_ok, Prod.exists, Prod.mk.injEq] at h
    have ⟨levels, result, hx, hm, hr⟩ := h
    subst hm hr
    have out := executeMarketSellOrder_outcome hx
    have hl : levels = (m.sweep precision (.market (.sell o))).levels.reverse :=
      List.reverse_eq_iff.mp out.swept.levels
    subst hl
    exact ⟨⟨o, rfl, out⟩, rfl⟩
  case buy o =>
    simp only [Checked.bind_ok, Checked.pure_ok, Prod.exists, Prod.mk.injEq] at h
    have ⟨levels, result, hx, hm, hr⟩ := h
    subst hm hr
    have out := executeMarketBuyOrder_outcome hx
    have hl : levels = (m.sweep precision (.market (.buy o))).levels.reverse :=
      List.reverse_eq_iff.mp out.swept.levels
    subst hl
    exact ⟨⟨o, rfl, out⟩, rfl⟩

end SpotMarket
end Superliquid
