import Superliquid.State.Theorems.Clearing
import Superliquid.State.Theorems.Crossing

namespace Superliquid

open SpotMarket

namespace Order

-- What an order may spend, as a number without bounds.
def exactAmount (p : MarketPrecision) : Order → Nat
  | limit o =>
    match o.common.direction with
    | .buy  => p.exactQuoteLots o.priceMultiple o.baseLots * p.quoteLotSize
    | .sell => o.baseLots * p.baseLotSize
  | market (.sell o) => o.baseSize * p.baseLotSize
  | market (.buy o)  => o.quoteSize * p.quoteLotSize

-- What `handle_order` computes for it, in the widths of the source.
def lockAmount (p : MarketPrecision) : Order → Checked Nat
  | limit o =>
    match o.common.direction with
    | .buy => do
      let quoteLots ← baseToQuoteLots o.baseLots o.priceMultiple p
      U64.mul quoteLots p.quoteLotSize
    | .sell => U64.mul o.baseLots p.baseLotSize
  | market (.sell o) => U128.mul o.baseSize p.baseLotSize
  | market (.buy o)  => U128.mul o.quoteSize p.quoteLotSize

def IsMarketBuy : Order → Prop
  | market (.buy _) => True
  | _               => False

instance : DecidablePred IsMarketBuy
  | limit _          => inferInstanceAs (Decidable False)
  | market (.sell _) => inferInstanceAs (Decidable False)
  | market (.buy _)  => inferInstanceAs (Decidable True)

end Order

namespace SpotClearingHouse

-- The part of `handle_order` that comes before the matcher. It ends with the lock, or with `none` if the order
-- is turned down.
def accept (c : SpotClearingHouse) (m : SpotMarket) (order : Order) (p : MarketPrecision) :
    Checked (Accounts × Option Nat) := do
  let lock ← order.lockAmount p
  let accounts := c.accounts.getAccountBalanceMut order.getAccount
  let asset := payAsset m.baseAsset m.quoteAsset order.direction
  if order.IsMarketBuy then
    let accounts ← accounts.getAccountTokenBalanceMut order.getAccount asset (AccountTokenBalance.lock lock)
    return (accounts, some lock)
  else
    let (accounts, enough) ← accounts.reserve order.getAccount asset lock
    return (accounts, if enough then some lock else none)

-- The part from the matcher on.
def execute (c : SpotClearingHouse) (m : SpotMarket) (order : Order) (p : MarketPrecision) (accounts : Accounts)
    (lock : Nat) : Checked (SpotClearingHouse × Option ExecutionResults) :=
  match order with
  | .limit o => settleLimit c m o o.common.direction.isBuy p lock accounts
  | .market o => do
    let (m', results) ← m.handleMarketOrder o p
    let c := { c with markets := c.markets.set order.getMarketId m' }
    let (accounts, results) ←
      match results with
      | .sell result => settleMarketSell accounts order.getAccount m.baseAsset m.quoteAsset p lock result
      | .buy result  => settleMarketBuy accounts order.getAccount m.baseAsset m.quoteAsset p lock result
    return ({ c with accounts }, some results)

variable {c c' : SpotClearingHouse} {m : SpotMarket} {order : Order} {p : MarketPrecision} {accounts : Accounts}
         {lock : Nat} {r : Option ExecutionResults}

theorem handleOrder_eq (hm : c.markets[order.getMarketId]? = some m) :
    c.handleOrder order p = (do
      let (accounts, lock) ← c.accept m order p
      match lock with
      | none      => return ({ c with accounts }, none)
      | some lock => c.execute m order p accounts lock) := by
  cases order
  case limit o =>
    have hm : c.markets[o.common.marketId]? = some m := hm
    have hbuy : ¬(Order.limit o).IsMarketBuy := id
    simp only [handleOrder, handleLimitOrder, hm, accept, if_neg hbuy]
    cases hd : o.common.direction
    case buy =>
      simp only [Order.lockAmount, Order.direction, hd, bind_assoc, pure_bind, if_true, decide_true]
      refine Checked.bind_congr fun q _ => Checked.bind_congr fun lock _ => Checked.bind_congr ?_
      rintro ⟨accounts, enough⟩ _
      cases enough
      case false => rfl
      case true  => simp only [execute, hd]; rfl
    case sell =>
      simp only [Order.lockAmount, Order.direction, hd, bind_assoc, pure_bind, reduceCtorEq, if_false, decide_false]
      refine Checked.bind_congr fun lock _ => Checked.bind_congr ?_
      rintro ⟨accounts, enough⟩ _
      cases enough
      case false => rfl
      case true  => simp only [execute, hd]; rfl
  case market o =>
    cases o
    case sell o =>
      have hm : c.markets[o.common.marketId]? = some m := hm
      have hbuy : ¬(Order.market (.sell o)).IsMarketBuy := id
      have hid : (Order.market (.sell o)).getMarketId = o.common.marketId := rfl
      simp only [handleOrder, handleMarketOrder, hid, hm, accept, if_neg hbuy, lockMarketOrder,
        Order.lockAmount, bind_assoc,
        pure_bind]
      refine Checked.bind_congr fun lock _ => Checked.bind_congr ?_
      rintro ⟨accounts, enough⟩ _
      cases enough <;> rfl
    case buy o =>
      have hm : c.markets[o.common.marketId]? = some m := hm
      have hbuy : (Order.market (.buy o)).IsMarketBuy := trivial
      have hid : (Order.market (.buy o)).getMarketId = o.common.marketId := rfl
      simp only [handleOrder, handleMarketOrder, hid, hm, accept, if_pos hbuy, lockMarketOrder,
        Order.lockAmount, bind_assoc,
        pure_bind]
      rfl

-- What the account of an order can spend of the asset that it pays with.
def available (c : SpotClearingHouse) (m : SpotMarket) (order : Order) : Nat :=
  (c.accounts.balance order.getAccount (payAsset m.baseAsset m.quoteAsset order.direction)).availableBalance

-- An order is turned down for lack of funds only before the matcher.
theorem execute_some (h : c.execute m order p accounts lock = .ok (c', r)) : r.isSome := by
  cases order
  case limit o =>
    simp only [execute, settleLimit, Checked.bind_ok, Prod.exists] at h
    obtain ⟨_, results, _, h⟩ := h
    cases results
    case none => cases h; rfl
    case some =>
      simp only [Checked.bind_ok] at h
      obtain ⟨_, _, _, _, _, _, _, _, _, _, _, _, h⟩ := h
      split at h
      all_goals
        obtain ⟨_, _, h⟩ := Checked.bind_ok.mp h
        cases h
        rfl
  case market o =>
    simp only [execute, Checked.bind_ok, Prod.exists] at h
    obtain ⟨_, results, _, h⟩ := h
    cases results
    all_goals
      obtain ⟨_, _, h⟩ := Checked.bind_ok.mp h
      cases h
      rfl

theorem accept_none (h : c.accept m order p = .ok (accounts, none)) :
    ¬order.IsMarketBuy ∧ (∃ lock, order.lockAmount p = .ok lock ∧ c.available m order < lock) := by
  simp only [accept, Checked.bind_ok] at h
  have ⟨lock, hlock, h⟩ := h
  split at h
  case isTrue =>
    simp only [Checked.bind_ok, Checked.pure_ok, Prod.mk.injEq, reduceCtorEq, and_false, exists_false] at h
  case isFalse hbuy =>
    have ⟨accounts₁, hreserve⟩ := reserve_ok (c.accounts.getAccountBalanceMut order.getAccount) order.getAccount
      (payAsset m.baseAsset m.quoteAsset order.direction) lock
    rw [hreserve, Checked.ok_bind, Checked.pure_ok] at h
    refine ⟨hbuy, lock, hlock, ?_⟩
    rw [getAccountBalanceMut_balance] at h
    by_contra hle
    have hle : lock ≤ (c.accounts.balance order.getAccount
      (payAsset m.baseAsset m.quoteAsset order.direction)).availableBalance := Nat.le_of_not_lt hle
    simp [hle] at h

-- An order that is not turned down has its lock taken from what is available, and no other balance changes.
theorem accept_some (h : c.accept m order p = .ok (accounts, some lock)) :
    order.lockAmount p = .ok lock ∧ lock ≤ c.available m order ∧ ∀ k a, accounts.balance k a =
      if k = order.getAccount ∧ a = payAsset m.baseAsset m.quoteAsset order.direction then
        { c.accounts.balance k a with availableBalance := c.available m order - lock }
      else c.accounts.balance k a := by
  have locked {amount : Nat} (h : (c.accounts.getAccountBalanceMut order.getAccount).getAccountTokenBalanceMut
      order.getAccount (payAsset m.baseAsset m.quoteAsset order.direction) (AccountTokenBalance.lock amount) =
        .ok accounts) :
      amount ≤ c.available m order ∧ ∀ k a, accounts.balance k a =
        if k = order.getAccount ∧ a = payAsset m.baseAsset m.quoteAsset order.direction then
          { c.accounts.balance k a with availableBalance := c.available m order - amount }
        else c.accounts.balance k a := by
    obtain ⟨b, hb, hbal⟩ := getAccountTokenBalanceMut_balance (Shifts.lock amount).assetId h
    simp only [AccountTokenBalance.lock, getAccountBalanceMut_balance, Checked.bind_ok, Checked.sub_ok,
      Checked.pure_ok] at hb
    obtain ⟨_, ⟨hle, hn⟩, hb⟩ := hb
    subst hn hb
    refine ⟨hle, fun k a => ?_⟩
    rw [hbal, getAccountBalanceMut_balance]
    split
    case isTrue he => rw [he.1, he.2, available]
    case isFalse   => rfl
  simp only [accept, Checked.bind_ok] at h
  obtain ⟨lock', hlock, h⟩ := h
  split at h
  case isTrue =>
    simp only [Checked.bind_ok, Checked.pure_ok, Prod.mk.injEq, Option.some.injEq] at h
    obtain ⟨_, hlocked, ha, hl⟩ := h
    subst ha hl
    exact ⟨hlock, locked hlocked⟩
  case isFalse =>
    simp only [Accounts.reserve, Checked.bind_ok, Checked.pure_ok, Prod.exists, Prod.mk.injEq] at h
    obtain ⟨accounts', enough, hreserve, ha, hl⟩ := h
    subst ha
    cases enough
    case false => simp at hl
    case true =>
      simp only [if_true, Option.some.injEq] at hl
      subst hl
      split at hreserve
      all_goals simp only [Checked.bind_ok, Checked.pure_ok, Prod.mk.injEq, Bool.false_eq_true, and_false, exists_false,
        and_true, exists_eq_right] at hreserve
      exact ⟨hlock, locked hreserve⟩

theorem accept_refuses (hbuy : ¬order.IsMarketBuy) (hlock : order.lockAmount p = .ok lock)
    (hlt : c.available m order < lock) :
    ∃ accounts, c.accept m order p = .ok (accounts, none) ∧ Declined c { c with accounts } := by
  have ⟨accounts, hreserve⟩ := reserve_ok (c.accounts.getAccountBalanceMut order.getAccount) order.getAccount
    (payAsset m.baseAsset m.quoteAsset order.direction) lock
  have henough : decide (lock ≤ ((c.accounts.getAccountBalanceMut order.getAccount).balance order.getAccount
      (payAsset m.baseAsset m.quoteAsset order.direction)).availableBalance) = false := by
    rw [getAccountBalanceMut_balance]
    exact decide_eq_false (Nat.not_le.mpr hlt)
  rw [henough] at hreserve
  refine ⟨accounts, ?_, rfl, fun k a => ?_, fun a => ?_⟩
  · rw [accept, hlock, Checked.ok_bind, if_neg hbuy, hreserve]
    rfl
  · exact (reserve_balance hreserve k a).trans getAccountBalanceMut_balance
  · exact (reserve_total hreserve).trans getAccountBalanceMut_total

-- The matcher runs only for an account that can pay all that the order may cost; other orders are turned down
-- without a trace.
structure FundsChecked (c : SpotClearingHouse) (order : Order) (p : MarketPrecision) : Prop where
  runs     : ∀ m accounts lock, c.markets[order.getMarketId]? = some m →
    c.accept m order p = .ok (accounts, some lock) →
    order.exactAmount p ≤ c.available m order
  declines : ∀ m, c.markets[order.getMarketId]? = some m → c.available m order < order.exactAmount p →
    ∃ c', c.handleOrder order p = .ok (c', none) ∧ Declined c c'
  missing  : c.markets[order.getMarketId]? = none → ∃ c', c.handleOrder order p = .ok (c', none) ∧ Declined c c'

end SpotClearingHouse

open SpotClearingHouse

-- An amount that the source can compute for an order, and that is more than what is available. For a limit buy
-- it is what 64 bits hold of the quote lots; for a market buy the source does not look.
def Order.Refused (p : MarketPrecision) (available : Nat) : Order → Prop
  | .limit o =>
    match o.common.direction with
    | .buy =>
      let amount := p.exactQuoteLots o.priceMultiple o.baseLots % 2 ^ 64 * p.quoteLotSize
      p.Fits o.priceMultiple o.baseLots ∧ amount < 2 ^ 64 ∧ available < amount
    | .sell => o.baseLots * p.baseLotSize < 2 ^ 64 ∧ available < o.baseLots * p.baseLotSize
  | .market (.sell o) => o.baseSize * p.baseLotSize < 2 ^ 128 ∧ available < o.baseSize * p.baseLotSize
  | .market (.buy _)  => False

section Funds

variable {c : SpotClearingHouse} {m : SpotMarket} {order : Order} {p : MarketPrecision} {available : Nat}

theorem Order.refused_iff : order.Refused p available ↔
    ¬order.IsMarketBuy ∧ ∃ lock, order.lockAmount p = .ok lock ∧ available < lock := by
  cases order
  case limit o =>
    cases hd : o.common.direction
    case buy =>
      simp only [Refused, IsMarketBuy, lockAmount, hd, Checked.bind_ok, baseToQuoteLots_ok, U64.mul_ok]
      constructor
      · rintro ⟨hfits, hlt, hav⟩
        exact ⟨id, _, ⟨_, ⟨hfits, rfl⟩, hlt, rfl⟩, hav⟩
      · rintro ⟨_, _, ⟨_, ⟨hfits, rfl⟩, hlt, rfl⟩, hav⟩
        exact ⟨hfits, hlt, hav⟩
    case sell =>
      simp only [Refused, IsMarketBuy, lockAmount, hd, U64.mul_ok]
      constructor
      · rintro ⟨hlt, hav⟩
        exact ⟨id, _, ⟨hlt, rfl⟩, hav⟩
      · rintro ⟨_, _, ⟨hlt, rfl⟩, hav⟩
        exact ⟨hlt, hav⟩
  case market o =>
    cases o
    case buy => simp [Refused, IsMarketBuy]
    case sell =>
      simp only [Refused, IsMarketBuy, lockAmount, U128.mul_ok]
      constructor
      · rintro ⟨hlt, hav⟩
        exact ⟨id, _, ⟨hlt, rfl⟩, hav⟩
      · rintro ⟨_, _, ⟨hlt, rfl⟩, hav⟩
        exact ⟨hlt, hav⟩

theorem handleOrder_missing (hm : c.markets[order.getMarketId]? = none) :
    ∃ c', c.handleOrder order p = .ok (c', none) ∧ Declined c c' := by
  refine ⟨{ c with accounts := c.accounts.getAccountBalanceMut order.getAccount }, ?_, rfl,
    fun _ _ => getAccountBalanceMut_balance, fun _ => getAccountBalanceMut_total⟩
  cases order
  case limit o =>
    have hm : c.markets[o.common.marketId]? = none := hm
    simp only [handleOrder, handleLimitOrder, hm]
    rfl
  case market o =>
    simp only [handleOrder, SpotClearingHouse.handleMarketOrder, hm]
    cases o <;> rfl

-- Unless the account can pay, an order has to be one that the source turns down.
theorem fundsChecked_iff : c.FundsChecked order p ↔
    ∀ m, c.markets[order.getMarketId]? = some m →
      order.exactAmount p ≤ c.available m order ∨ order.Refused p (c.available m order) := by
  constructor
  · intro h m hm
    by_cases hle : order.exactAmount p ≤ c.available m order
    case pos => exact .inl hle
    case neg =>
      have ⟨c', hc, _⟩ := h.declines m hm (Nat.lt_of_not_le hle)
      rw [handleOrder_eq hm, Checked.bind_ok] at hc
      have ⟨⟨accounts, lock⟩, haccept, hc⟩ := hc
      cases lock
      case none   => exact .inr (Order.refused_iff.mpr (accept_none haccept))
      case some l => exact absurd (execute_some hc) (by simp)
  · intro h
    refine ⟨fun m accounts lock hm haccept => ?_, fun m hm hlt => ?_, handleOrder_missing⟩
    · cases h m hm
      case inl hle => exact hle
      case inr href =>
        have ⟨hbuy, lock', hlock, hlt⟩ := Order.refused_iff.mp href
        have ⟨accounts', haccept', _⟩ := accept_refuses hbuy hlock hlt
        rw [haccept'] at haccept
        cases haccept
    · have href := (h m hm).resolve_left (Nat.not_le.mpr hlt)
      have ⟨hbuy, lock, hlock, hlt⟩ := Order.refused_iff.mp href
      have ⟨accounts, haccept, hdeclined⟩ := accept_refuses hbuy hlock hlt
      refine ⟨_, ?_, hdeclined⟩
      rw [handleOrder_eq hm, haccept]
      rfl

-- The market of the ledger, where nobody has anything.
def SpotClearingHouse.supeUsd : SpotClearingHouse :=
  SpotClearingHouse.new.addMarket 0 1 "SUPE" "USD" 100 3

def MarketBuyOrder.place (id : Nat) (account : PublicKeyHash) (quoteSize : Nat) : MarketBuyOrder where
  quoteSize
  filledSize := 0
  selfFilled := 0
  averageExecutionPrice := 0
  common := { id, marketId := 0, status := .open, account, direction := .buy }

theorem limitSell_fundsChecked :
    SpotClearingHouse.supeUsd.FundsChecked (.limit (.place 0 7 .sell 10 5)) .supeUsd := by
  refine fundsChecked_iff.mpr fun m hm => .inr ?_
  cases hm
  exact ⟨by decide, by decide⟩

-- A market buy without funds panics in the subtraction.
theorem marketBuy_not_fundsChecked :
    let order := Order.market (.buy (.place 0 7 20))
    SpotClearingHouse.supeUsd.handleOrder order .supeUsd = .error .overflow ∧
    ¬SpotClearingHouse.supeUsd.FundsChecked order .supeUsd := by
  have panics : SpotClearingHouse.supeUsd.handleOrder (.market (.buy (.place 0 7 20))) .supeUsd =
      .error .overflow := rfl
  refine ⟨panics, fun h => ?_⟩
  have ⟨c', hc, _⟩ := h.declines .supeUsd rfl (by decide)
  rw [panics] at hc
  contradiction

end Funds
end Superliquid
