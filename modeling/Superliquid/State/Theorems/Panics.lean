import Superliquid.State.Theorems.Funds

namespace Superliquid

open Checked SpotMarket AccountTokenBalance SpotClearingHouse

variable {P : Panic → Prop} [Ordinary P]

section Arithmetic

variable {a b : Nat}

@[simp]
theorem panicsOnly_add64 : PanicsOnly P (U64.add a b) := panicsOnly_fit

@[simp]
theorem panicsOnly_mul64 : PanicsOnly P (U64.mul a b) := panicsOnly_fit

@[simp]
theorem panicsOnly_add32 : PanicsOnly P (U32.add a b) := panicsOnly_fit

@[simp]
theorem panicsOnly_add128 : PanicsOnly P (U128.add a b) := panicsOnly_fit

@[simp]
theorem panicsOnly_mul128 : PanicsOnly P (U128.mul a b) := panicsOnly_fit

end Arithmetic

section Market

variable {p : MarketPrecision} {cmp : Nat → Nat → Ordering} {levels : List Level} {order : LimitOrder} {m : SpotMarket}

-- The divisor of the one conversion belongs to the market, that of the other to the price.
theorem baseToQuoteLots_panics (hq : p.quoteUnit = 0 → P .divisionByZero) (lots price : Nat) :
    PanicsOnly P (baseToQuoteLots lots price p) := by
  simp only [baseToQuoteLots, panicsOnly_bind, panicsOnly_mul128, panicsOnly_fit, panicsOnly_div, panicsOnly_pure,
    implies_true, and_true, true_and, fit_ok, U128.mul_ok]
  rintro _ _ _ _ _ _ scale ⟨_, rfl⟩ _ ⟨_, rfl⟩
  exact hq

theorem quoteLotsToBaseLots_panics {price : Nat} (hp : p.lotCost price = 0 → P .divisionByZero) (lots : Nat) :
    PanicsOnly P (quoteLotsToBaseLots lots price p) := by
  have hcost : price * p.tick * p.baseLotSize = p.lotCost price := by
    rw [MarketPrecision.lotCost]
    ring
  simp only [quoteLotsToBaseLots, panicsOnly_bind, panicsOnly_mul128, panicsOnly_fit, panicsOnly_div, panicsOnly_pure,
    implies_true, and_true, true_and, U128.mul_ok]
  rintro _ _ _ _ _ _ _ ⟨_, rfl⟩ _ ⟨_, rfl⟩
  rw [hcost]
  exact hp

@[simp]
theorem getOrderRemaining_panics : PanicsOnly P order.getOrderRemaining := by
  simp [LimitOrder.getOrderRemaining]

@[simp]
theorem addOrderWithCmp_panics : PanicsOnly P (addOrderWithCmp levels order cmp) := by
  unfold addOrderWithCmp
  dsimp only
  split <;> simp

variable (hq : p.quoteUnit = 0 → P .divisionByZero)
include hq

theorem executeLimitOrders_panics (price : Nat) (isBuy : Bool) (orders : List LimitOrder) (s : LimitMatch) :
    PanicsOnly P (executeLimitOrders price isBuy p orders s) := by
  induction orders generalizing s
  case nil => simp [executeLimitOrders]
  case cons order orders hi => simp [executeLimitOrders, baseToQuoteLots_panics hq, hi]

theorem executeLimitLevels_panics (price : Nat) (isBuy : Bool) (cmp : Nat → Nat → Ordering) (levels : List Level)
    (filled : List LimitOrder) (s : LimitMatch) :
    PanicsOnly P (executeLimitLevels price isBuy p cmp levels filled s) := by
  induction levels generalizing filled s
  case nil => simp [executeLimitLevels]
  case cons level levels hi => simp [executeLimitLevels, executeLimitOrders_panics hq, hi]

theorem executeMarketBuyOrders_panics (account : PublicKeyHash) (price : Nat) (orders : List LimitOrder)
    (s : MarketBuyMatch) : PanicsOnly P (executeMarketBuyOrders account price p orders s) := by
  induction orders generalizing s
  case nil => simp [executeMarketBuyOrders]
  case cons order orders hi => simp [executeMarketBuyOrders, baseToQuoteLots_panics hq, hi]

theorem executeMarketBuyLevels_panics (account : PublicKeyHash) {levels : List Level}
    (hl : ∀ level ∈ levels, p.lotCost level.price = 0 → P .divisionByZero) (filled : List LimitOrder)
    (s : MarketBuyMatch) : PanicsOnly P (executeMarketBuyLevels account p levels filled s) := by
  induction levels generalizing filled s
  case nil => simp [executeMarketBuyLevels]
  case cons level levels hi =>
    have ⟨hlevel, hlevels⟩ := List.forall_mem_cons.mp hl
    simp [executeMarketBuyLevels, quoteLotsToBaseLots_panics hlevel, executeMarketBuyOrders_panics hq, hi hlevels]

theorem executeMarketSellOrders_panics (account : PublicKeyHash) (price : Nat) (orders : List LimitOrder)
    (s : MarketSellMatch) : PanicsOnly P (executeMarketSellOrders account price p orders s) := by
  induction orders generalizing s
  case nil => simp [executeMarketSellOrders]
  case cons order orders hi => simp [executeMarketSellOrders, baseToQuoteLots_panics hq, hi]

theorem executeMarketSellLevels_panics (account : PublicKeyHash) (levels : List Level) (filled : List LimitOrder)
    (s : MarketSellMatch) : PanicsOnly P (executeMarketSellLevels account p levels filled s) := by
  induction levels generalizing filled s
  case nil => simp [executeMarketSellLevels]
  case cons level levels hi => simp [executeMarketSellLevels, executeMarketSellOrders_panics hq, hi]

theorem addLimitOrder_panics (m : SpotMarket) (order : LimitOrder) (baseAsset quoteAsset : AssetId) :
    PanicsOnly P (m.addLimitOrder order baseAsset quoteAsset p) := by
  rw [addLimitOrder_eq _ rfl]
  split
  all_goals cases order.common.direction <;> simp [addSide, addBid, addAsk, executeLimit, executeLimitLevels_panics hq]

end Market

section Accounts

variable {accounts : Accounts} {k : PublicKeyHash} {a baseAsset quoteAsset : AssetId} {p : MarketPrecision}
         {f : AccountTokenBalance → Checked AccountTokenBalance} {amount lock spent : Nat} {b : AccountTokenBalance}

@[simp]
theorem credit_panics : PanicsOnly P (credit amount b) := by simp [credit]

@[simp]
theorem debitTotal_panics : PanicsOnly P (debitTotal amount b) := by simp [debitTotal]

@[simp]
theorem lock_panics : PanicsOnly P (AccountTokenBalance.lock amount b) := by simp [AccountTokenBalance.lock]

@[simp]
theorem unlockAndSpend_panics : PanicsOnly P (unlockAndSpend lock spent b) := by simp [unlockAndSpend]

omit [Ordinary P] in
theorem modifyAsset_panics (hf : ∀ b, PanicsOnly P (f b)) (bs : List AccountTokenBalance) :
    PanicsOnly P (AccountBalance.modifyAsset a f bs) := by
  induction bs
  case nil => simp [AccountBalance.modifyAsset, hf]
  case cons b bs hi => simp [AccountBalance.modifyAsset, hf, hi]

omit [Ordinary P] in
@[simp]
theorem getAccountTokenBalanceMut_panics (hf : ∀ b, PanicsOnly P (f b)) :
    PanicsOnly P (accounts.getAccountTokenBalanceMut k a f) := by
  simp [Accounts.getAccountTokenBalanceMut, modifyAsset_panics hf]

@[simp]
theorem reserve_panics : PanicsOnly P (accounts.reserve k a amount) := by
  simp [Accounts.reserve]

theorem settleMakers_panics {settle : Accounts → PublicKeyHash → Nat → Nat → Checked Accounts}
    (hs : ∀ accounts k price lots, PanicsOnly P (settle accounts k price lots)) (filled : List LimitOrder)
    (residual : Option ResidualOrder) : PanicsOnly P (settleMakers settle accounts filled residual) := by
  simp only [settleMakers, panicsOnly_bind]
  refine ⟨panicsOnly_foldlM (fun _ _ => by simp [hs]) _ _, fun _ _ => ?_⟩
  cases residual <;> simp [hs]

variable (hq : p.quoteUnit = 0 → P .divisionByZero)
include hq

theorem settleLimitMaker_panics (isBuy : Bool) (accounts : Accounts) (k : PublicKeyHash) (price lots : Nat) :
    PanicsOnly P (settleLimitMaker isBuy baseAsset quoteAsset p accounts k price lots) := by
  simp [settleLimitMaker, baseToQuoteLots_panics hq]

theorem settleSellMaker_panics (accounts : Accounts) (k : PublicKeyHash) (price lots : Nat) :
    PanicsOnly P (settleSellMaker baseAsset quoteAsset p accounts k price lots) := by
  simp [settleSellMaker, baseToQuoteLots_panics hq]

theorem settleBuyMaker_panics (accounts : Accounts) (k : PublicKeyHash) (price lots : Nat) :
    PanicsOnly P (settleBuyMaker baseAsset quoteAsset p accounts k price lots) := by
  simp [settleBuyMaker, baseToQuoteLots_panics hq]

end Accounts

-- The divisors that come from the book, wherever one of them is zero.
def SpotMarket.ZeroDivisors (P : Panic → Prop) (m : SpotMarket) (p : MarketPrecision) : Order → Prop
  | .limit o => ∀ m' result, m.addLimitOrder o m.baseAsset m.quoteAsset p = .ok (m', some result) →
    (result.userOrder.lotsIn = 0 → P .divisionByZero) ∧
    (result.userOrder.assetIn = m.baseAsset → result.userOrder.lotsOut = 0 → P .divisionByZero)
  | .market (.sell _) => True
  | .market (.buy o)  => o.quoteSize ≠ 0 → ∀ level ∈ m.asksLevels, p.lotCost level.price = 0 → P .divisionByZero

omit [Ordinary P] in
theorem SpotMarket.ZeroDivisors.of_divisionByZero (h : P .divisionByZero) {m : SpotMarket} {p : MarketPrecision}
    (order : Order) : m.ZeroDivisors P p order := by
  cases order
  case limit    => exact fun _ _ _ => ⟨fun _ => h, fun _ _ => h⟩
  case market o =>
    cases o
    case sell => trivial
    case buy  => exact fun _ _ _ _ => h

section Clearinghouse

variable {c : SpotClearingHouse} {m : SpotMarket} {p : MarketPrecision} {order : Order}
         (hq : p.quoteUnit = 0 → P .divisionByZero)
include hq

theorem accept_panics (c : SpotClearingHouse) (m : SpotMarket) (order : Order) : PanicsOnly P (c.accept m order p) := by
  have hlock : PanicsOnly P (order.lockAmount p) := by
    cases order
    case market o => cases o <;> simp [Order.lockAmount]
    case limit o  => cases hd : o.common.direction <;> simp [Order.lockAmount, hd, baseToQuoteLots_panics hq]
  simp [accept, hlock]

theorem handleMarketOrder_panics {order : MarketOrder} (h : m.ZeroDivisors P p (.market order)) :
    PanicsOnly P (m.handleMarketOrder order p) := by
  cases order
  case sell o => simp [SpotMarket.handleMarketOrder, executeMarketSellOrder, executeMarketSellLevels_panics hq]
  case buy o  =>
    have hlevels (filled : List LimitOrder) (s : MarketBuyMatch) (hs : s.remainingQuoteLots = o.quoteSize) :
        PanicsOnly P (executeMarketBuyLevels o.common.account p m.asksLevels.reverse filled s) := by
      by_cases hz : o.quoteSize = 0
      case pos =>
        cases m.asksLevels.reverse
        case nil  => simp [executeMarketBuyLevels]
        case cons => simp [executeMarketBuyLevels, hs, hz]
      case neg => exact executeMarketBuyLevels_panics hq _ (by simpa using h hz) _ _
    simp [SpotMarket.handleMarketOrder, executeMarketBuyOrder, hlevels]

theorem execute_panics {accounts : Accounts} {lock : Nat} (h : m.ZeroDivisors P p order) :
    PanicsOnly P (c.execute m order p accounts lock) := by
  cases order
  case limit o =>
    simp only [execute, settleLimit, panicsOnly_bind, addLimitOrder_panics hq, true_and]
    rintro ⟨m', result⟩ hadd
    cases result
    case none        => simp
    case some result =>
      obtain ⟨hin, hout⟩ := h m' result hadd
      simpa [settleMakers_panics, settleLimitMaker_panics hq] using fun _ _ _ _ _ _ _ _ _ _ => ⟨hin, fun _ _ => hout⟩
  case market o =>
    simp only [execute, panicsOnly_bind, handleMarketOrder_panics hq h, true_and]
    rintro ⟨m', results⟩ _
    cases results
    case sell => simp [settleMarketSell, settleMakers_panics, settleSellMaker_panics hq]
    case buy  => simp [settleMarketBuy, settleMakers_panics, settleBuyMaker_panics hq]

-- Which panics an order can end with, where the divisors are not among its reasons.
theorem handleOrder_panics (h : ∀ m, c.markets[order.getMarketId]? = some m → m.ZeroDivisors P p order) :
    PanicsOnly P (c.handleOrder order p) := by
  cases hm : c.markets[order.getMarketId]?
  case none =>
    have ⟨_, hc, _⟩ := handleOrder_missing (p := p) hm
    simp [hc, PanicsOnly]
  case some m =>
    rw [handleOrder_eq hm, panicsOnly_bind]
    refine ⟨accept_panics hq c m order, ?_⟩
    rintro ⟨accounts, lock⟩ _
    cases lock
    case none      => simp
    case some lock => exact execute_panics hq (h m hm)

end Clearinghouse
end Superliquid
