import Mathlib.Algebra.Order.BigOperators.Group.List
import Superliquid.State.Theorems.Orders
import Superliquid.State.Theorems.Rounding
import Superliquid.State.Theorems.Settlement

namespace Superliquid

open SpotClearingHouse SpotMarket

variable {own : LimitOrder → Bool} {precision : MarketPrecision} {baseAsset quoteAsset a : AssetId}
         {accounts accounts' : Accounts} {k k' : PublicKeyHash} {price lots : Nat}

-- `1` for an account that receives the base asset and pays with the quote asset, `-1` otherwise.
def side (buys : Bool) : Int :=
  if buys then 1 else -1

-- The change of the total of asset `a` when an account trades `base` lots for `quote` lots.
def legs (precision : MarketPrecision) (baseAsset quoteAsset : AssetId) (buys : Bool) (base quote : Nat)
    (a : AssetId) : Int :=
  (if a = baseAsset then side buys * (base * precision.baseLotSize : Nat) else 0) -
  (if a = quoteAsset then side buys * (quote * precision.quoteLotSize : Nat) else 0)

-- The asset that an order of a direction pays with, and what it pays for a number of lots.
def payAsset (baseAsset quoteAsset : AssetId) : OrderDirection → AssetId
  | .buy  => quoteAsset
  | .sell => baseAsset

def payAmount (precision : MarketPrecision) (d : OrderDirection) (price lots : Nat) : Nat :=
  match d with
  | .buy  => quoteLots precision price lots * precision.quoteLotSize
  | .sell => lots * precision.baseLotSize

theorem quoteLots_zero (precision : MarketPrecision) (price : Nat) : quoteLots precision price 0 = 0 := by
  cases h : baseToQuoteLots 0 price precision
  case error => simp [quoteLots, h, Except.toOption]
  case ok q =>
    rw [quoteLots_of_ok h, (baseToQuoteLots_ok.mp h).2]
    simp [MarketPrecision.exactQuoteLots]

-- A function settles the makers of a direction: they pay from what they have locked and can spend what
-- they get.
structure Settles (settle : Accounts → PublicKeyHash → Nat → Nat → Checked Accounts)
    (precision : MarketPrecision) (baseAsset quoteAsset : AssetId) (d : OrderDirection) : Prop where
  total     : ∀ {accounts k price lots accounts'}, settle accounts k price lots = .ok accounts' → ∀ a,
    (accounts'.total a : Int) = accounts.total a +
      legs precision baseAsset quoteAsset d.isBuy lots (quoteLots precision price lots) a
  locked    : ∀ {accounts k price lots accounts'}, settle accounts k price lots = .ok accounts' → ∀ k' a,
    accounts'.locked k' a = accounts.locked k' a -
      if k' = k ∧ a = payAsset baseAsset quoteAsset d then (payAmount precision d price lots : Int) else 0
  available : ∀ {accounts k price lots accounts'}, settle accounts k price lots = .ok accounts' → ∀ k' a,
    ((accounts'.balance k' a).availableBalance : Int) = (accounts.balance k' a).availableBalance +
      if k' = k ∧ a = payAsset baseAsset quoteAsset d.flip then (payAmount precision d.flip price lots : Int) else 0

theorem legs_cancel {buys : Bool} {base quote : Nat} :
    legs precision baseAsset quoteAsset (!buys) base quote a +
      legs precision baseAsset quoteAsset buys base quote a = 0 := by
  have hside : side (!buys) = -side buys := by cases buys <;> rfl
  simp only [legs, hside]
  split <;> split <;> ring

-- A maker that sells is debited first.
theorem settles_sell {settle : Accounts → PublicKeyHash → Nat → Nat → Checked Accounts}
    (h : ∀ {accounts k price lots accounts'}, settle accounts k price lots = .ok accounts' →
      ∃ accounts₁,
        accounts.getAccountTokenBalanceMut k baseAsset
          (AccountTokenBalance.debitTotal (lots * precision.baseLotSize)) = .ok accounts₁ ∧
        accounts₁.getAccountTokenBalanceMut k quoteAsset
          (AccountTokenBalance.credit (quoteLots precision price lots * precision.quoteLotSize)) = .ok accounts') :
    Settles settle precision baseAsset quoteAsset .sell where
  total := by
    intro accounts k price lots accounts' hs a
    have ⟨accounts₁, h₁, h₂⟩ := h hs
    rw [getAccountTokenBalanceMut_total (.credit _) h₂, getAccountTokenBalanceMut_total (.debitTotal _) h₁]
    simp only [legs, side, OrderDirection.isBuy, reduceCtorEq, decide_false, Bool.false_eq_true, if_false]
    split <;> split <;> ring
  locked := by
    intro accounts k price lots accounts' hs k' a
    have ⟨accounts₁, h₁, h₂⟩ := h hs
    rw [getAccountTokenBalanceMut_locked (.credit _) h₂, getAccountTokenBalanceMut_locked (.debitTotal _) h₁]
    simp only [payAmount, sub_self, ite_self, add_zero]
    by_cases hc : k' = k ∧ a = baseAsset
    case pos => rw [if_pos hc, if_pos (show _ ∧ a = payAsset baseAsset quoteAsset .sell from hc)]; ring
    case neg => rw [if_neg hc, if_neg (show ¬(_ ∧ a = payAsset baseAsset quoteAsset .sell) from hc)]; ring
  available := by
    intro accounts k price lots accounts' hs k' a
    have ⟨accounts₁, h₁, h₂⟩ := h hs
    rw [getAccountTokenBalanceMut_available (.credit _) h₂, getAccountTokenBalanceMut_available (.debitTotal _) h₁,
      ite_self, add_zero]
    rfl

-- A maker that buys is credited first after a market order, and debited first after a limit order.
theorem settles_buy {settle : Accounts → PublicKeyHash → Nat → Nat → Checked Accounts}
    (h : ∀ {accounts k price lots accounts'}, settle accounts k price lots = .ok accounts' →
      ∃ accounts₁,
        (accounts.getAccountTokenBalanceMut k baseAsset
          (AccountTokenBalance.credit (lots * precision.baseLotSize)) = .ok accounts₁ ∧
        accounts₁.getAccountTokenBalanceMut k quoteAsset
          (AccountTokenBalance.debitTotal (quoteLots precision price lots * precision.quoteLotSize)) =
            .ok accounts') ∨
        (accounts.getAccountTokenBalanceMut k quoteAsset
          (AccountTokenBalance.debitTotal (quoteLots precision price lots * precision.quoteLotSize)) =
            .ok accounts₁ ∧
        accounts₁.getAccountTokenBalanceMut k baseAsset
          (AccountTokenBalance.credit (lots * precision.baseLotSize)) = .ok accounts')) :
    Settles settle precision baseAsset quoteAsset .buy where
  total := by
    intro accounts k price lots accounts' hs a
    have ⟨accounts₁, h₁⟩ := h hs
    cases h₁
    case inl h₁ =>
      rw [getAccountTokenBalanceMut_total (.debitTotal _) h₁.2, getAccountTokenBalanceMut_total (.credit _) h₁.1]
      simp only [legs, side, OrderDirection.isBuy, decide_true, if_true]
      split <;> split <;> ring
    case inr h₁ =>
      rw [getAccountTokenBalanceMut_total (.credit _) h₁.2, getAccountTokenBalanceMut_total (.debitTotal _) h₁.1]
      simp only [legs, side, OrderDirection.isBuy, decide_true, if_true]
      split <;> split <;> ring
  locked := by
    intro accounts k price lots accounts' hs k' a
    have ⟨accounts₁, h₁⟩ := h hs
    cases h₁
    case inl h₁ =>
      rw [getAccountTokenBalanceMut_locked (.debitTotal _) h₁.2, getAccountTokenBalanceMut_locked (.credit _) h₁.1]
      simp only [payAmount, sub_self, ite_self, add_zero]
      by_cases hc : k' = k ∧ a = quoteAsset
      case pos => rw [if_pos hc, if_pos (show _ ∧ a = payAsset baseAsset quoteAsset .buy from hc)]; ring
      case neg => rw [if_neg hc, if_neg (show ¬(_ ∧ a = payAsset baseAsset quoteAsset .buy) from hc)]; ring
    case inr h₁ =>
      rw [getAccountTokenBalanceMut_locked (.credit _) h₁.2, getAccountTokenBalanceMut_locked (.debitTotal _) h₁.1]
      simp only [payAmount, sub_self, ite_self, add_zero]
      by_cases hc : k' = k ∧ a = quoteAsset
      case pos => rw [if_pos hc, if_pos (show _ ∧ a = payAsset baseAsset quoteAsset .buy from hc)]; ring
      case neg => rw [if_neg hc, if_neg (show ¬(_ ∧ a = payAsset baseAsset quoteAsset .buy) from hc)]; ring
  available := by
    intro accounts k price lots accounts' hs k' a
    have ⟨accounts₁, h₁⟩ := h hs
    cases h₁
    case inl h₁ =>
      rw [getAccountTokenBalanceMut_available (.debitTotal _) h₁.2,
        getAccountTokenBalanceMut_available (.credit _) h₁.1, ite_self, add_zero]
      rfl
    case inr h₁ =>
      rw [getAccountTokenBalanceMut_available (.credit _) h₁.2,
        getAccountTokenBalanceMut_available (.debitTotal _) h₁.1, ite_self, add_zero]
      rfl

theorem settleSellMaker_settles :
    Settles (settleSellMaker baseAsset quoteAsset precision) precision baseAsset quoteAsset .buy := by
  refine settles_buy fun h => ?_
  simp only [settleSellMaker, Checked.bind_ok, U128.mul_ok] at h
  have ⟨_, ⟨_, hb⟩, accounts₁, h₁, q, hq, _, ⟨_, hq'⟩, h₂⟩ := h
  subst hb hq'
  rw [quoteLots_of_ok hq]
  exact ⟨accounts₁, .inl ⟨h₁, h₂⟩⟩

-- The maker of an ask pays and is paid, whichever of the two kinds of order takes it.
theorem settleBuyMaker_ok {price lots : Nat}
    (h : settleBuyMaker baseAsset quoteAsset precision accounts k price lots = .ok accounts') : ∃ accounts₁,
    accounts.getAccountTokenBalanceMut k baseAsset
      (AccountTokenBalance.debitTotal (lots * precision.baseLotSize)) = .ok accounts₁ ∧
    accounts₁.getAccountTokenBalanceMut k quoteAsset
      (AccountTokenBalance.credit (quoteLots precision price lots * precision.quoteLotSize)) = .ok accounts' := by
  simp only [settleBuyMaker, Checked.bind_ok, U128.mul_ok] at h
  have ⟨_, ⟨_, hb⟩, accounts₁, h₁, q, hq, _, ⟨_, hq'⟩, h₂⟩ := h
  subst hb hq'
  rw [quoteLots_of_ok hq]
  exact ⟨accounts₁, h₁, h₂⟩

theorem settleLimitMaker_ok {price lots : Nat}
    (h : settleLimitMaker true baseAsset quoteAsset precision accounts k price lots = .ok accounts') : ∃ accounts₁,
    accounts.getAccountTokenBalanceMut k baseAsset
      (AccountTokenBalance.debitTotal (lots * precision.baseLotSize)) = .ok accounts₁ ∧
    accounts₁.getAccountTokenBalanceMut k quoteAsset
      (AccountTokenBalance.credit (quoteLots precision price lots * precision.quoteLotSize)) = .ok accounts' := by
  simp only [settleLimitMaker, if_true, Checked.bind_ok, U128.mul_ok] at h
  have ⟨q, hq, _, ⟨_, hb⟩, _, ⟨_, hq'⟩, accounts₁, h₁, h₂⟩ := h
  subst hb hq'
  rw [quoteLots_of_ok hq]
  exact ⟨accounts₁, h₁, h₂⟩

theorem settleBuyMaker_settles :
    Settles (settleBuyMaker baseAsset quoteAsset precision) precision baseAsset quoteAsset .sell :=
  settles_sell settleBuyMaker_ok

theorem settleLimitMaker_settles (d : OrderDirection) :
    Settles (settleLimitMaker d.isBuy baseAsset quoteAsset precision) precision baseAsset quoteAsset d.flip := by
  cases d
  case buy => exact settles_sell settleLimitMaker_ok
  case sell =>
    refine settles_buy fun h => ?_
    simp only [settleLimitMaker, OrderDirection.isBuy, reduceCtorEq, decide_false, Bool.false_eq_true, if_false,
      Checked.bind_ok, U128.mul_ok] at h
    have ⟨q, hq, _, ⟨_, hb⟩, _, ⟨_, hq'⟩, accounts₁, h₁, h₂⟩ := h
    subst hb hq'
    rw [quoteLots_of_ok hq]
    exact ⟨accounts₁, .inr ⟨h₁, h₂⟩⟩

-- What the makers of a match are settled for altogether.
def settledLots (own : LimitOrder → Bool) (fills : List Fill) : Nat :=
  (fills.map (Fill.settled own)).sum

def settledQuotes (own : LimitOrder → Bool) (precision : MarketPrecision) (fills : List Fill) : Nat :=
  (fills.map fun f => quoteLots precision f.price (f.settled own)).sum

-- What an account pays or is paid for the fills of its orders.
def Fill.paid (own : LimitOrder → Bool) (precision : MarketPrecision) (d : OrderDirection) (k : PublicKeyHash)
    (f : Fill) : Nat :=
  if f.order.common.account = k then payAmount precision d f.price (f.settled own) else 0

section Makers

variable {settle : Accounts → PublicKeyHash → Nat → Nat → Checked Accounts} {d : OrderDirection}
         {filled : List LimitOrder} {residual : Option ResidualOrder} {fills : List Fill}

theorem settleMakers_total (hs : Settles settle precision baseAsset quoteAsset d)
    (hm : makers filled residual = fills.map (Fill.maker own))
    (h : settleMakers settle accounts filled residual = .ok accounts') (a : AssetId) :
    (accounts'.total a : Int) = accounts.total a +
      legs precision baseAsset quoteAsset d.isBuy (settledLots own fills) (settledQuotes own precision fills) a := by
  have hfold := settleMakers_eq h
  rw [hm] at hfold
  clear h hm
  induction fills generalizing accounts
  case nil =>
    cases hfold
    simp [legs, settledLots, settledQuotes]
  case cons f fills hi =>
    simp only [List.map_cons, List.foldlM_cons, Checked.bind_ok] at hfold
    have ⟨accounts₁, h₁, h₂⟩ := hfold
    rw [hi h₂, hs.total h₁]
    simp only [legs, settledLots, settledQuotes, Fill.maker, List.map_cons, List.sum_cons]
    split <;> split <;> push_cast <;> ring

theorem settleMakers_locked (hs : Settles settle precision baseAsset quoteAsset d)
    (hm : makers filled residual = fills.map (Fill.maker own))
    (h : settleMakers settle accounts filled residual = .ok accounts') (k : PublicKeyHash) (a : AssetId) :
    accounts'.locked k a = accounts.locked k a -
      if a = payAsset baseAsset quoteAsset d then ((fills.map (Fill.paid own precision d k)).sum : Int) else 0 := by
  have hfold := settleMakers_eq h
  rw [hm] at hfold
  clear h hm
  induction fills generalizing accounts
  case nil =>
    cases hfold
    simp
  case cons f fills hi =>
    simp only [List.map_cons, List.foldlM_cons, Checked.bind_ok] at hfold
    have ⟨accounts₁, h₁, h₂⟩ := hfold
    rw [hi h₂, hs.locked h₁]
    simp only [Fill.maker, Fill.paid, List.map_cons, List.sum_cons]
    by_cases ha : a = payAsset baseAsset quoteAsset d
    case neg => simp [ha]
    case pos =>
      by_cases hk : f.order.common.account = k
      case pos => simp only [ha, hk, and_self, if_true]; push_cast; ring
      case neg => simp [ha, hk, Ne.symm hk]

theorem settleMakers_available (hs : Settles settle precision baseAsset quoteAsset d)
    (hm : makers filled residual = fills.map (Fill.maker own))
    (h : settleMakers settle accounts filled residual = .ok accounts') (k : PublicKeyHash) (a : AssetId) :
    ((accounts'.balance k a).availableBalance : Int) = (accounts.balance k a).availableBalance +
      if a = payAsset baseAsset quoteAsset d.flip then
        ((fills.map (Fill.paid own precision d.flip k)).sum : Int)
      else 0 := by
  have hfold := settleMakers_eq h
  rw [hm] at hfold
  clear h hm
  induction fills generalizing accounts
  case nil =>
    cases hfold
    simp
  case cons f fills hi =>
    simp only [List.map_cons, List.foldlM_cons, Checked.bind_ok] at hfold
    have ⟨accounts₁, h₁, h₂⟩ := hfold
    rw [hi h₂, hs.available h₁]
    simp only [Fill.maker, Fill.paid, List.map_cons, List.sum_cons]
    by_cases ha : a = payAsset baseAsset quoteAsset d.flip
    case neg => simp [ha]
    case pos =>
      by_cases hk : f.order.common.account = k
      case pos => simp only [ha, hk, and_self, if_true]; push_cast; ring
      case neg => simp [ha, hk, Ne.symm hk]

end Makers

-- What a trade of base lots for quote lots costs in a direction.
def tradeAmount (precision : MarketPrecision) (base quote : Nat) : OrderDirection → Nat
  | .buy  => quote * precision.quoteLotSize
  | .sell => base * precision.baseLotSize

-- The account of an incoming order gets its lock back, pays and is paid.
theorem taker_settled {accounts₁ : Accounts} {d : OrderDirection} {base quote lock : Nat}
    (h₁ : accounts.getAccountTokenBalanceMut k (payAsset baseAsset quoteAsset d)
      (AccountTokenBalance.unlockAndSpend lock (tradeAmount precision base quote d)) = .ok accounts₁)
    (h₂ : accounts₁.getAccountTokenBalanceMut k (payAsset baseAsset quoteAsset d.flip)
      (AccountTokenBalance.credit (tradeAmount precision base quote d.flip)) = .ok accounts') :
    (∀ a, (accounts'.total a : Int) = accounts.total a + legs precision baseAsset quoteAsset d.isBuy base quote a) ∧
    (∀ k' a, accounts'.locked k' a = accounts.locked k' a -
      if k' = k ∧ a = payAsset baseAsset quoteAsset d then (lock : Int) else 0) ∧
    ∀ k' ≠ k, ∀ a, accounts'.balance k' a = accounts.balance k' a := by
  refine ⟨?_, ?_, ?_⟩
  · intro a
    cases d
    all_goals
      simp only [OrderDirection.flip, payAsset, tradeAmount] at h₁ h₂
      rw [getAccountTokenBalanceMut_total (.credit _) h₂, getAccountTokenBalanceMut_total (.unlockAndSpend _ _) h₁]
      simp only [legs, side, OrderDirection.isBuy, reduceCtorEq, decide_true, decide_false, Bool.false_eq_true,
        if_true, if_false]
      split <;> split <;> ring
  · intro k' a
    rw [getAccountTokenBalanceMut_locked (.credit _) h₂, getAccountTokenBalanceMut_locked (.unlockAndSpend _ _) h₁]
    simp only [sub_self, ite_self, add_zero]
    split <;> ring
  · intro k' hk a
    rw [getAccountTokenBalanceMut_other (.credit _) h₂ hk, getAccountTokenBalanceMut_other (.unlockAndSpend _ _) h₁ hk]

namespace SpotMarket

-- Resting orders have the price of their level.
def Priced (m : SpotMarket) (d : OrderDirection) : Prop :=
  ∀ level ∈ m.side d, ∀ o ∈ level.orders, o.priceMultiple = level.price

theorem sweep_makers {m : SpotMarket} {order : Order} (hprice : m.Priced order.direction.flip) :
    makers (m.sweep precision order).drained (m.sweep precision order).residual =
      (m.sweep precision order).fills.map (Fill.maker order.own) := by
  have hp : ∀ level ∈ (m.side order.direction.flip).reverse, ∀ o ∈ level.orders, o.priceMultiple = level.price :=
    fun level hm => hprice level (List.mem_reverse.mp hm)
  clear hprice
  cases order
  case limit o => exact Superliquid.sweep_makers hp
  case market o =>
    cases o
    case sell o => exact Superliquid.sweep_makers hp
    case buy o  => exact Superliquid.sweep_makers hp

end SpotMarket

-- The balances after a match. An account that has resting orders only is paid for the fills of these.
structure Settled (m : SpotMarket) (precision : MarketPrecision) (order : Order) (accounts accounts' : Accounts) :
    Prop where
  total     : ∀ a, let fills := (m.sweep precision order).fills
    (accounts'.total a : Int) = accounts.total a +
      legs precision m.baseAsset m.quoteAsset order.direction.isBuy (sumLots (traded order.own fills))
        (sumQuotes precision (traded order.own fills)) a +
      legs precision m.baseAsset m.quoteAsset order.direction.flip.isBuy (settledLots order.own fills)
        (settledQuotes order.own precision fills) a
  locked    : ∀ k a, accounts'.locked k a = accounts.locked k a -
    if a = payAsset m.baseAsset m.quoteAsset order.direction.flip then
      (((m.sweep precision order).fills.map (Fill.paid order.own precision order.direction.flip k)).sum : Int)
    else 0
  available : ∀ k ≠ order.getAccount, ∀ a,
    ((accounts'.balance k a).availableBalance : Int) = (accounts.balance k a).availableBalance +
      if a = payAsset m.baseAsset m.quoteAsset order.direction then
        (((m.sweep precision order).fills.map (Fill.paid order.own precision order.direction k)).sum : Int)
      else 0

-- The market after a match: what is left of a limit order enters the book.
def SpotMarket.AfterMatch (m : SpotMarket) (precision : MarketPrecision) (order : Order) (m' : SpotMarket) : Prop :=
  ∃ price,
    let sw := m.sweep precision order
    let m₁ := (m.setSide order.direction.flip sw.levels.reverse).setLastExecutedPrice price
    match order with
    | .limit o  => if sumLots sw.fills < o.baseLots then m₁.addOrder (m.leaves precision o) = .ok m' else m' = m₁
    | .market _ => m' = m₁

-- What is reported of the incoming order itself.
def OrderChange.Reports (change : OrderChange) (order : Order) (fills : List Fill) : Prop :=
  match order with
  | .limit o  => ∃ price, change = .limit o.common.id (sumLots fills) price
  | .market _ => ∃ id filled self price, change = .market id filled self price

structure Matched (m : SpotMarket) (precision : MarketPrecision) (order : Order) (accounts : Accounts)
    (m' : SpotMarket) (accounts' : Accounts) (r : ExecutionResults) : Prop where
  market   : m.AfterMatch precision order m'
  filled   : r.filledOrders = (m.sweep precision order).drained
  residual : r.residualOrder = (m.sweep precision order).residual
  change   : ∃ change, r.userOrderChange = some change ∧ change.Reports order (m.sweep precision order).fills
  valid    : ∀ f ∈ (m.sweep precision order).fills, f.order.Valid
  crossed  : ∀ o, order = .limit o → (m.sweep precision order).fills ≠ []
  settled  : m.Priced order.direction.flip → Settled m precision order accounts accounts'

-- A limit order that meets nothing locks what it may cost and rests.
structure Rested (m : SpotMarket) (precision : MarketPrecision) (o : LimitOrder) (accounts : Accounts)
    (m' : SpotMarket) (accounts' : Accounts) (r : ExecutionResults) : Prop where
  fills   : (m.sweep precision (.limit o)).fills = []
  market  : m.addOrder o = .ok m'
  results : r = { filledOrders := [], residualOrder := none, userOrderChange := none }
  total   : ∀ a, accounts'.total a = accounts.total a
  locked  : ∀ k a, accounts'.locked k a = accounts.locked k a +
    if k = o.common.account ∧ a = payAsset m.baseAsset m.quoteAsset o.common.direction then
      (payAmount precision o.common.direction o.priceMultiple o.baseLots : Int)
    else 0
  others  : ∀ k ≠ o.common.account, ∀ a, accounts'.balance k a = accounts.balance k a

-- An order that was turned down leaves no trace.
structure Declined (c c' : SpotClearingHouse) : Prop where
  markets : c'.markets = c.markets
  balance : ∀ k a, c'.accounts.balance k a = c.accounts.balance k a
  total   : ∀ a, c'.accounts.total a = c.accounts.total a

-- The balances after a match, from what the two parties of it book.
theorem settled_of_settles {m : SpotMarket} {settle : Accounts → PublicKeyHash → Nat → Nat → Checked Accounts}
    {accounts₁ accounts₂ : Accounts} {filled : List LimitOrder} {residual : Option ResidualOrder} {order : Order}
    {lock : Nat} (hs : Settles settle precision m.baseAsset m.quoteAsset order.direction.flip)
    (hm : makers filled residual = (m.sweep precision order).fills.map (Fill.maker order.own))
    (htotal : ∀ a, accounts₁.total a = accounts.total a)
    (hlocked : ∀ k a, accounts₁.locked k a = accounts.locked k a +
      if k = order.getAccount ∧ a = payAsset m.baseAsset m.quoteAsset order.direction then (lock : Int) else 0)
    (hothers : ∀ k ≠ order.getAccount, ∀ a, accounts₁.balance k a = accounts.balance k a)
    (htaker : (∀ a, (accounts₂.total a : Int) = accounts₁.total a +
        legs precision m.baseAsset m.quoteAsset order.direction.isBuy
          (sumLots (traded order.own (m.sweep precision order).fills))
          (sumQuotes precision (traded order.own (m.sweep precision order).fills)) a) ∧
      (∀ k a, accounts₂.locked k a = accounts₁.locked k a -
        if k = order.getAccount ∧ a = payAsset m.baseAsset m.quoteAsset order.direction then (lock : Int) else 0) ∧
      ∀ k ≠ order.getAccount, ∀ a, accounts₂.balance k a = accounts₁.balance k a)
    (h : settleMakers settle accounts₂ filled residual = .ok accounts') :
    Settled m precision order accounts accounts' := by
  constructor
  case total =>
    intro a
    rw [settleMakers_total hs hm h, htaker.1, htotal]
  case locked =>
    intro k a
    rw [settleMakers_locked hs hm h, htaker.2.1, hlocked, add_sub_cancel_right]
  case available =>
    intro k hk a
    rw [settleMakers_available hs hm h, htaker.2.2 k hk, hothers k hk, OrderDirection.flip_flip]

section Handle

variable {c c' : SpotClearingHouse} {o : LimitOrder} {r : Option ExecutionResults}

theorem traded_notOwn (fills : List Fill) : traded notOwn fills = fills := by
  simp [traded, notOwn]

section Limit

variable {m m' : SpotMarket} {accounts₁ accounts₂ accounts₃ : Accounts}

theorem rested_of_none
    (hreserve : (accounts.getAccountBalanceMut o.common.account).reserve o.common.account
      (payAsset m.baseAsset m.quoteAsset o.common.direction)
      (payAmount precision o.common.direction o.priceMultiple o.baseLots) = .ok (accounts₁, true))
    (hadd : m.addLimitOrder o m.baseAsset m.quoteAsset precision = .ok (m', none)) :
    Rested m precision o accounts m' accounts₁
      { filledOrders := [], residualOrder := none, userOrderChange := none } := by
  cases addLimitOrder_cases hadd
  case inr h => have ⟨_, _, hr, _⟩ := h; contradiction
  case inl h =>
    have ⟨_, hsweep, _, ha⟩ := h
    refine ⟨by rw [hsweep], ha, rfl, fun a => (reserve_total hreserve).trans getAccountBalanceMut_total, ?_, ?_⟩
    · intro k a
      rw [reserve_locked hreserve, getAccountBalanceMut_locked]
    · intro k hk a
      rw [reserve_other hreserve hk, getAccountBalanceMut_balance]

-- The average price of no lots at all is a division by zero.
theorem matched_of_some {result : LimitFillResult} {price average : Nat}
    (hreserve : (accounts.getAccountBalanceMut o.common.account).reserve o.common.account
      (payAsset m.baseAsset m.quoteAsset o.common.direction)
      (payAmount precision o.common.direction o.priceMultiple o.baseLots) = .ok (accounts₁, true))
    (hadd : m.addLimitOrder o m.baseAsset m.quoteAsset precision = .ok (m', some result))
    (hout : accounts₁.getAccountTokenBalanceMut o.common.account result.userOrder.assetOut
      (AccountTokenBalance.unlockAndSpend (payAmount precision o.common.direction o.priceMultiple o.baseLots)
        ((if o.common.direction.isBuy then precision.quoteLotSize else precision.baseLotSize) *
          result.userOrder.lotsOut)) = .ok accounts₂)
    (hin : accounts₂.getAccountTokenBalanceMut o.common.account result.userOrder.assetIn
      (AccountTokenBalance.credit
        ((if o.common.direction.isBuy then precision.baseLotSize else precision.quoteLotSize) *
          result.userOrder.lotsIn)) = .ok accounts₃)
    (hmakers : settleMakers (settleLimitMaker o.common.direction.isBuy m.baseAsset m.quoteAsset precision) accounts₃
      result.filledOrders result.residualOrder = .ok accounts')
    (hdiv : Checked.div result.userOrder.lotsOut result.userOrder.lotsIn = .ok average) :
    Matched m precision (.limit o) accounts m' accounts' {
      filledOrders := result.filledOrders
      residualOrder := result.residualOrder
      userOrderChange := some (.limit result.userOrder.orderId result.userOrder.filledSize price) } := by
  cases addLimitOrder_cases hadd
  case inl h => obtain ⟨_, _, hr, _⟩ := h; contradiction
  case inr h =>
    obtain ⟨result', hresult, hr, hmarket⟩ := h
    cases hr
    have hfilled := hresult.swept.filled
    have huser := hresult.userOrder
    refine ⟨⟨_, hmarket⟩, hfilled, hresult.swept.residual, ⟨_, rfl, price, by rw [huser]⟩, hresult.swept.valid, ?_, ?_⟩
    · intro o' ho' hnone
      cases ho'
      have hz := (Checked.div_ok.mp hdiv).1
      rw [huser, hnone] at hz
      cases hd : o.common.direction <;> simp [hd, OrderDirection.isBuy, sumLots, sumQuotes] at hz
    intro hpriced
    -- The lock cancels out, and a limit order trades all of its fills.
    have hout : accounts₁.getAccountTokenBalanceMut o.common.account
        (payAsset m.baseAsset m.quoteAsset o.common.direction)
        (AccountTokenBalance.unlockAndSpend (payAmount precision o.common.direction o.priceMultiple o.baseLots)
          (tradeAmount precision (sumLots (m.sweep precision (.limit o)).fills)
            (sumQuotes precision (m.sweep precision (.limit o)).fills) o.common.direction)) = .ok accounts₂ := by
      rw [huser] at hout
      cases hd : o.common.direction
      all_goals
        rw [hd] at hout
        rw [tradeAmount, Nat.mul_comm]
        exact hout
    have hin : accounts₂.getAccountTokenBalanceMut o.common.account
        (payAsset m.baseAsset m.quoteAsset o.common.direction.flip)
        (AccountTokenBalance.credit (tradeAmount precision (sumLots (m.sweep precision (.limit o)).fills)
            (sumQuotes precision (m.sweep precision (.limit o)).fills) o.common.direction.flip)) =
          .ok accounts₃ := by
      rw [huser] at hin
      cases hd : o.common.direction
      all_goals
        rw [hd] at hin
        rw [OrderDirection.flip, tradeAmount, Nat.mul_comm]
        exact hin
    have hm : makers result.filledOrders result.residualOrder =
        (m.sweep precision (.limit o)).fills.map (Fill.maker notOwn) := by
      rw [hfilled, hresult.swept.residual]
      exact @SpotMarket.sweep_makers precision m (.limit o) hpriced
    obtain ⟨htotal, hlocked, hothers⟩ := taker_settled hout hin
    refine settled_of_settles (settleLimitMaker_settles _) hm
      (fun a => (reserve_total hreserve).trans getAccountBalanceMut_total)
      (fun k a => (reserve_locked hreserve k a).trans (by rw [getAccountBalanceMut_locked]; rfl))
      (fun k hk a => (reserve_other hreserve hk a).trans getAccountBalanceMut_balance)
      ⟨fun a => ?_, hlocked, hothers⟩ hmakers
    simp only [Order.own, traded_notOwn]
    exact htotal a

end Limit

-- The part of the limit branch after the lock.
def settleLimit (c : SpotClearingHouse) (m : SpotMarket) (o : LimitOrder) (isBuy : Bool)
    (precision : MarketPrecision) (lock : Nat) (accounts : Accounts) :
    Checked (SpotClearingHouse × Option ExecutionResults) := do
  let (m', results) ← m.addLimitOrder o m.baseAsset m.quoteAsset precision
  let c := { c with markets := c.markets.set o.common.marketId m' }
  match results with
  | none =>
    return ({ c with accounts }, some { filledOrders := [], residualOrder := none, userOrderChange := none })
  | some result =>
    let user := result.userOrder
    let amountOut ← U128.mul (if isBuy then precision.quoteLotSize else precision.baseLotSize) user.lotsOut
    let accounts ← accounts.getAccountTokenBalanceMut o.common.account user.assetOut
      (AccountTokenBalance.unlockAndSpend lock amountOut)
    let amountIn ← U128.mul (if isBuy then precision.baseLotSize else precision.quoteLotSize) user.lotsIn
    let accounts ← accounts.getAccountTokenBalanceMut o.common.account user.assetIn
      (AccountTokenBalance.credit amountIn)
    let accounts ← settleMakers (settleLimitMaker isBuy m.baseAsset m.quoteAsset precision) accounts
      result.filledOrders result.residualOrder
    let averageExecutionPrice ← Checked.div user.lotsOut user.lotsIn
    let averageExecutionPrice ←
      if user.assetIn = m.baseAsset then Checked.div user.lotsIn user.lotsOut
      else pure averageExecutionPrice
    return ({ c with accounts }, some {
      filledOrders := result.filledOrders
      residualOrder := result.residualOrder
      userOrderChange := some (.limit user.orderId user.filledSize averageExecutionPrice) })

-- The two branches of the lock in one.
theorem handleLimitOrder_eq {m : SpotMarket} (hm : c.markets[o.common.marketId]? = some m)
    (h : c.handleLimitOrder o precision = .ok (c', r)) :
    let c₁ := { c with accounts := c.accounts.getAccountBalanceMut o.common.account }
    let d := o.common.direction
    let lock := payAmount precision d o.priceMultiple o.baseLots
    ∃ accounts enough,
      c₁.accounts.reserve o.common.account (payAsset m.baseAsset m.quoteAsset d) lock = .ok (accounts, enough) ∧
      if enough then settleLimit c₁ m o d.isBuy precision lock accounts = .ok (c', r)
      else (c', r) = ({ c₁ with accounts }, none) := by
  simp only [handleLimitOrder, hm] at h
  cases hd : o.common.direction
  case buy =>
    simp only [hd, Checked.bind_ok, Prod.exists, U64.mul_ok, if_true, decide_true] at h
    have ⟨q, hq, _, ⟨_, hl⟩, accounts, enough, hreserve, hrest⟩ := h
    have hl := hl.symm
    rw [← quoteLots_of_ok hq] at hl
    subst hl
    refine ⟨accounts, enough, hreserve, ?_⟩
    cases enough
    case false => exact (Checked.pure_ok.mp hrest).symm
    case true  => exact hrest
  case sell =>
    simp only [hd, Checked.bind_ok, Prod.exists, U64.mul_ok, reduceCtorEq, if_false, decide_false] at h
    have ⟨_, ⟨_, hl⟩, accounts, enough, hreserve, hrest⟩ := h
    subst hl
    refine ⟨accounts, enough, hreserve, ?_⟩
    cases enough
    case false => exact (Checked.pure_ok.mp hrest).symm
    case true  => exact hrest

theorem handleLimitOrder_cases (h : c.handleLimitOrder o precision = .ok (c', r)) :
    (r = none ∧ Declined c c') ∨
    (∃ m m' results, c.markets[o.common.marketId]? = some m ∧
      c'.markets = c.markets.set o.common.marketId m' ∧ r = some results ∧
      (Rested m precision o c.accounts m' c'.accounts results ∨
        Matched m precision (.limit o) c.accounts m' c'.accounts results)) := by
  cases hm : c.markets[o.common.marketId]?
  case none =>
    simp only [handleLimitOrder, hm] at h
    cases h
    exact .inl ⟨rfl, rfl, fun _ _ => getAccountBalanceMut_balance, fun _ => getAccountBalanceMut_total⟩
  case some m =>
    have ⟨accounts, enough, hreserve, hrest⟩ := handleLimitOrder_eq hm h
    cases enough
    case false =>
      cases hrest
      refine .inl ⟨rfl, rfl, fun k a => ?_, fun a => ?_⟩
      · exact (reserve_balance hreserve k a).trans getAccountBalanceMut_balance
      · exact (reserve_total hreserve).trans getAccountBalanceMut_total
    case true =>
      simp only [if_true, settleLimit, Checked.bind_ok, Prod.exists] at hrest
      have ⟨m', results, hadd, hset⟩ := hrest
      cases results
      case none =>
        cases hset
        exact .inr ⟨m, m', _, rfl, rfl, rfl, .inl (rested_of_none hreserve hadd)⟩
      case some result =>
        simp only [Checked.bind_ok, U128.mul_ok] at hset
        have ⟨_, ⟨_, ho⟩, accounts₂, hout, _, ⟨_, hi⟩, accounts₃, hin, accounts₄, hmakers, price, hdiv, hset⟩ := hset
        subst ho hi
        -- Only the reported average price depends on the direction here.
        split at hset
        all_goals
          simp only [Checked.bind_ok, Checked.pure_ok, Prod.mk.injEq] at hset
          have ⟨price, _, hc, hr⟩ := hset
          subst hc hr
          exact .inr ⟨m, m', _, rfl, rfl, rfl, .inr (matched_of_some hreserve hadd hout hin hmakers hdiv)⟩

section Market

variable {o : MarketOrder} {m m' : SpotMarket}

-- A market order is turned down, or its account locks what it may cost. A market buy does not look at the
-- balance first.
theorem lockMarketOrder_cases {lockAmount : Option Nat}
    (h : lockMarketOrder accounts m o precision = .ok (accounts', lockAmount)) :
    let asset := payAsset m.baseAsset m.quoteAsset (Order.market o).direction
    (∀ a, accounts'.total a = accounts.total a) ∧
    (∀ k ≠ o.getAccount, ∀ a, accounts'.balance k a = accounts.balance k a) ∧
    ((lockAmount = none ∧ ∀ k a, accounts'.balance k a = accounts.balance k a) ∨
      ∃ lock, lockAmount = some lock ∧ ∀ k a, accounts'.locked k a = accounts.locked k a +
        if k = o.getAccount ∧ a = asset then (lock : Int) else 0) := by
  cases o
  case sell o =>
    simp only [lockMarketOrder, Checked.bind_ok, Checked.pure_ok, Prod.exists, Prod.mk.injEq, U128.mul_ok] at h
    have ⟨lock, _, accounts₁, enough, hreserve, ha, hl⟩ := h
    subst ha hl
    refine ⟨fun _ => reserve_total hreserve, fun _ hk => reserve_other hreserve hk, ?_⟩
    cases enough
    case false => exact .inl ⟨rfl, reserve_balance hreserve⟩
    case true  => exact .inr ⟨lock, rfl, reserve_locked hreserve⟩
  case buy o =>
    simp only [lockMarketOrder, Checked.bind_ok, Checked.pure_ok, Prod.mk.injEq, U128.mul_ok] at h
    have ⟨lock, _, accounts₁, hlock, ha, hl⟩ := h
    subst ha hl
    refine ⟨fun a => ?_, fun _ hk => getAccountTokenBalanceMut_other (.lock lock) hlock hk,
      .inr ⟨lock, rfl, fun k a => ?_⟩⟩
    · simpa using getAccountTokenBalanceMut_total (a := a) (.lock lock) hlock
    · have hl := getAccountTokenBalanceMut_locked (.lock lock) hlock k a
      simp only [zero_sub, neg_neg] at hl
      exact hl

theorem matched_of_sell {o : MarketSellOrder} {result : MarketSellResult} {levels : List Level}
    {r : ExecutionResults} {accounts₁ : Accounts} {lock : Nat}
    (hout : MarketSellOutcome (m.sweep precision (.market (.sell o))) o.common.account precision levels result)
    (hmarket : m.AfterMatch precision (.market (.sell o)) m')
    (htotal : ∀ a, accounts₁.total a = accounts.total a)
    (hlocked : ∀ k a, accounts₁.locked k a = accounts.locked k a +
      if k = o.common.account ∧ a = m.baseAsset then (lock : Int) else 0)
    (hothers : ∀ k ≠ o.common.account, ∀ a, accounts₁.balance k a = accounts.balance k a)
    (h : settleMarketSell accounts₁ o.common.account m.baseAsset m.quoteAsset precision lock result =
      .ok (accounts', r)) :
    Matched m precision (.market (.sell o)) accounts m' accounts' r := by
  simp only [settleMarketSell, Checked.bind_ok, Checked.pure_ok, Prod.mk.injEq, U128.mul_ok] at h
  have ⟨_, ⟨_, hb⟩, accounts₂, hspend, _, ⟨_, hq⟩, accounts₃, hcredit, accounts₄, hmakers, ha, hr⟩ := h
  subst hb hq ha hr
  refine ⟨hmarket, hout.swept.filled, hout.swept.residual, ⟨_, rfl, _, _, _, _, rfl⟩, hout.swept.valid, by simp, ?_⟩
  intro hpriced
  have hm : makers result.filledOrders result.residualOrder =
      (m.sweep precision (.market (.sell o))).fills.map (Fill.maker (ofAccount o.common.account)) := by
    rw [hout.swept.filled, hout.swept.residual]
    exact @SpotMarket.sweep_makers precision m (.market (.sell o)) hpriced
  rw [hout.baseFilledLots] at hspend
  rw [hout.quoteLotsIn] at hcredit
  exact settled_of_settles settleSellMaker_settles hm htotal hlocked hothers
    (taker_settled (d := .sell) hspend hcredit) hmakers

theorem matched_of_buy {o : MarketBuyOrder} {result : MarketBuyResult} {levels : List Level}
    {r : ExecutionResults} {accounts₁ : Accounts} {lock : Nat}
    (hout : MarketBuyOutcome (m.sweep precision (.market (.buy o))) o.common.account precision levels result)
    (hmarket : m.AfterMatch precision (.market (.buy o)) m')
    (htotal : ∀ a, accounts₁.total a = accounts.total a)
    (hlocked : ∀ k a, accounts₁.locked k a = accounts.locked k a +
      if k = o.common.account ∧ a = m.quoteAsset then (lock : Int) else 0)
    (hothers : ∀ k ≠ o.common.account, ∀ a, accounts₁.balance k a = accounts.balance k a)
    (h : settleMarketBuy accounts₁ o.common.account m.baseAsset m.quoteAsset precision lock result =
      .ok (accounts', r)) :
    Matched m precision (.market (.buy o)) accounts m' accounts' r := by
  simp only [settleMarketBuy, Checked.bind_ok, Checked.pure_ok, Prod.mk.injEq, U128.mul_ok] at h
  have ⟨_, ⟨_, hq⟩, accounts₂, hspend, _, ⟨_, hb⟩, accounts₃, hcredit, accounts₄, hmakers, ha, hr⟩ := h
  subst hb hq ha hr
  refine ⟨hmarket, hout.swept.filled, hout.swept.residual, ⟨_, rfl, _, _, _, _, rfl⟩, hout.swept.valid, by simp, ?_⟩
  intro hpriced
  have hm : makers result.filledOrders result.residualOrder =
      (m.sweep precision (.market (.buy o))).fills.map (Fill.maker (ofAccount o.common.account)) := by
    rw [hout.swept.filled, hout.swept.residual]
    exact @SpotMarket.sweep_makers precision m (.market (.buy o)) hpriced
  rw [hout.quoteFilledLots] at hspend
  rw [hout.baseLotsIn] at hcredit
  exact settled_of_settles settleBuyMaker_settles hm htotal hlocked hothers
    (taker_settled (d := .buy) hspend hcredit) hmakers

theorem handleMarketOrder_cases {id : MarketId} (h : c.handleMarketOrder id o precision = .ok (c', r)) :
    (r = none ∧ Declined c c') ∨
    (∃ m m' results, c.markets[id]? = some m ∧ c'.markets = c.markets.set id m' ∧ r = some results ∧
      Matched m precision (.market o) c.accounts m' c'.accounts results) := by
  cases hm : c.markets[id]?
  case none =>
    simp only [SpotClearingHouse.handleMarketOrder, hm] at h
    cases h
    exact .inl ⟨rfl, rfl, fun _ _ => getAccountBalanceMut_balance, fun _ => getAccountBalanceMut_total⟩
  case some m =>
    simp only [SpotClearingHouse.handleMarketOrder, hm, Checked.bind_ok, Prod.exists] at h
    have ⟨accounts, lockAmount, hlock, hrest⟩ := h
    have ⟨hsame, hothers, hlock⟩ := lockMarketOrder_cases hlock
    have htotal (a : AssetId) : accounts.total a = c.accounts.total a :=
      (hsame a).trans getAccountBalanceMut_total
    cases hlock
    case inl hnone =>
      have ⟨hl, hbalance⟩ := hnone
      subst hl
      cases hrest
      exact .inl ⟨rfl, rfl, fun k a => (hbalance k a).trans getAccountBalanceMut_balance, htotal⟩
    case inr hsome =>
      have ⟨lock, hl, hlocked⟩ := hsome
      subst hl
      simp only [getAccountBalanceMut_locked] at hlocked
      simp only [getAccountBalanceMut_balance] at hothers
      simp only [Checked.bind_ok, Prod.exists] at hrest
      have ⟨m', result, hmatch, hset⟩ := hrest
      have ⟨hout, hm'⟩ := handleMarketOrder_outcome hmatch
      cases result
      case sell result =>
        have ⟨o, ho, hout⟩ := hout
        subst ho
        simp only [Checked.bind_ok, Checked.pure_ok, Prod.exists, Prod.mk.injEq] at hset
        have ⟨accounts', results, hs, hc, hr⟩ := hset
        subst hc hr
        exact .inr ⟨m, m', results, rfl, rfl, rfl, matched_of_sell hout ⟨_, hm'⟩ htotal hlocked hothers hs⟩
      case buy result =>
        have ⟨o, ho, hout⟩ := hout
        subst ho
        simp only [Checked.bind_ok, Checked.pure_ok, Prod.exists, Prod.mk.injEq] at hset
        have ⟨accounts', results, hs, hc, hr⟩ := hset
        subst hc hr
        exact .inr ⟨m, m', results, rfl, rfl, rfl, matched_of_buy hout ⟨_, hm'⟩ htotal hlocked hothers hs⟩

end Market

-- What the clearinghouse does with an order: it is turned down without a trace, it rests, or it is matched.
theorem handleOrder_cases {order : Order} (h : c.handleOrder order precision = .ok (c', r)) :
    (r = none ∧ Declined c c') ∨
    (∃ m m' results, c.markets[order.getMarketId]? = some m ∧
      c'.markets = c.markets.set order.getMarketId m' ∧ r = some results ∧
      ((∃ o, order = .limit o ∧ Rested m precision o c.accounts m' c'.accounts results) ∨
        Matched m precision order c.accounts m' c'.accounts results)) := by
  cases order
  case limit o =>
    cases handleLimitOrder_cases h
    case inl h => exact .inl h
    case inr h =>
      have ⟨m, m', results, hm, hm', hr, hcase⟩ := h
      exact .inr ⟨m, m', results, hm, hm', hr, hcase.imp_left fun h => ⟨o, rfl, h⟩⟩
  case market o =>
    cases handleMarketOrder_cases h
    case inl h => exact .inl h
    case inr h =>
      have ⟨m, m', results, hm, hm', hr, hcase⟩ := h
      exact .inr ⟨m, m', results, hm, hm', hr, .inr hcase⟩

theorem cancelOrder_assets {m m' : SpotMarket} {order : LimitOrder} {unfilled : Nat}
    (h : m.cancelOrder order = .ok (m', unfilled)) : m'.baseAsset = m.baseAsset ∧ m'.quoteAsset = m.quoteAsset := by
  have ⟨_, hm, _⟩ := cancelOrder_cancelled h
  cases hd : order.common.direction <;> exact hm ▸ hd ▸ ⟨rfl, rfl⟩

-- A cancellation in a market that exists gives back what the order has not traded with others.
theorem cancelOrder_cases {order : LimitOrder} {cancelled : Bool}
    (h : c.cancelOrder order precision = .ok (c', cancelled)) :
    (cancelled = false ∧ c.markets[order.common.marketId]? = none ∧ Declined c c') ∨
    (cancelled = true ∧ ∃ m m' unfilled, c.markets[order.common.marketId]? = some m ∧
      c'.markets = c.markets.set order.common.marketId m' ∧ m.cancelOrder order = .ok (m', unfilled) ∧
      ∀ k a, c'.accounts.locked k a = c.accounts.locked k a -
        if k = order.common.account ∧ a = payAsset m.baseAsset m.quoteAsset order.common.direction then
          (payAmount precision order.common.direction order.priceMultiple unfilled : Int)
        else 0) := by
  simp only [SpotClearingHouse.cancelOrder] at h
  cases hm : c.markets[order.common.marketId]?
  case none =>
    simp only [hm] at h
    cases h
    exact .inl ⟨rfl, rfl, rfl, fun _ _ => getAccountBalanceMut_balance, fun _ => getAccountBalanceMut_total⟩
  case some m =>
    simp only [hm, Checked.bind_ok, Prod.exists] at h
    have ⟨m', unfilled, hcancel, h⟩ := h
    have hassets := cancelOrder_assets hcancel
    suffices hunlock : ∃ accounts, c' = { c with markets := c.markets.set order.common.marketId m', accounts } ∧
        cancelled = true ∧
        (c.accounts.getAccountBalanceMut order.common.account).getAccountTokenBalanceMut order.common.account
          (payAsset m.baseAsset m.quoteAsset order.common.direction)
          (AccountTokenBalance.unlock (payAmount precision order.common.direction order.priceMultiple unfilled)) =
            .ok accounts by
      have ⟨accounts, hc, hr, hu⟩ := hunlock
      subst hc hr
      refine .inr ⟨rfl, m, m', unfilled, rfl, rfl, hcancel, fun k a => ?_⟩
      rw [getAccountTokenBalanceMut_locked (.unlock _) hu, getAccountBalanceMut_locked]
      split <;> ring
    cases hd : order.common.direction
    case buy =>
      simp only [hd, Checked.bind_ok, U128.mul_ok, Checked.pure_ok, Prod.mk.injEq, hassets.2] at h
      have ⟨q, hq, _, ⟨_, hl⟩, accounts, hu, hc, hr⟩ := h
      subst hl hr
      rw [← quoteLots_of_ok hq] at hu
      exact ⟨accounts, hc.symm, rfl, hu⟩
    case sell =>
      simp only [hd, Checked.bind_ok, U128.mul_ok, Checked.pure_ok, Prod.mk.injEq, hassets.1] at h
      have ⟨_, ⟨_, hl⟩, accounts, hu, hc, hr⟩ := h
      subst hl hr
      exact ⟨accounts, hc.symm, rfl, hu⟩

end Handle
end Superliquid
