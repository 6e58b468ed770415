import Superliquid.Lib.Map
import Superliquid.State.Market

namespace Superliquid

structure AccountTokenBalance where
  assetId          : AssetId
  availableBalance : Nat
  totalBalance     : Nat
  deriving DecidableEq

namespace AccountTokenBalance

def empty (assetId : AssetId) : AccountTokenBalance where
  assetId
  availableBalance := 0
  totalBalance := 0

-- The assignments that settlement makes to a balance.
def credit (amount : Nat) (b : AccountTokenBalance) : Checked AccountTokenBalance := do
  let totalBalance ← U128.add b.totalBalance amount
  let availableBalance ← U128.add b.availableBalance amount
  return { b with totalBalance, availableBalance }

def debitTotal (amount : Nat) (b : AccountTokenBalance) : Checked AccountTokenBalance := do
  return { b with totalBalance := ← Checked.sub b.totalBalance amount }

def unlock (amount : Nat) (b : AccountTokenBalance) : Checked AccountTokenBalance := do
  return { b with availableBalance := ← U128.add b.availableBalance amount }

def lock (amount : Nat) (b : AccountTokenBalance) : Checked AccountTokenBalance := do
  return { b with availableBalance := ← Checked.sub b.availableBalance amount }

-- Gives the whole lock back, then takes what was really spent.
def unlockAndSpend (lock spent : Nat) (b : AccountTokenBalance) : Checked AccountTokenBalance := do
  let availableBalance ← U128.add b.availableBalance lock
  let totalBalance ← Checked.sub b.totalBalance spent
  let availableBalance ← Checked.sub availableBalance spent
  return { b with totalBalance, availableBalance }

end AccountTokenBalance

structure AccountBalance where
  assetBalances : List AccountTokenBalance
  deriving DecidableEq

namespace AccountBalance

def new : AccountBalance where
  assetBalances := []

def findAssetId (b : AccountBalance) (assetId : AssetId) : Option AccountTokenBalance :=
  b.assetBalances.find? (·.assetId = assetId)

-- The first balance of an asset is updated by `f`; an empty one is pushed if there is none.
def modifyAsset (assetId : AssetId) (f : AccountTokenBalance → Checked AccountTokenBalance) :
    List AccountTokenBalance → Checked (List AccountTokenBalance)
  | [] => do
    return [← f (.empty assetId)]
  | b :: bs =>
    if b.assetId = assetId then do
      return (← f b) :: bs
    else do
      return b :: (← modifyAsset assetId f bs)

end AccountBalance

-- The accounts and their balances. The `&mut` references that the source passes around are
-- updates of an entry here, which is created on first use.
abbrev Accounts :=
  Map PublicKeyHash AccountBalance

open AccountTokenBalance

namespace Accounts

def getAccountBalanceMut (accounts : Accounts) (publicKey : PublicKeyHash) : Accounts :=
  accounts.insert publicKey ((accounts.lookup publicKey).getD .new)

def getAccountTokenBalanceMut
    (accounts : Accounts) (publicKey : PublicKeyHash) (assetId : AssetId)
    (f : AccountTokenBalance → Checked AccountTokenBalance) : Checked Accounts := do
  let account := (accounts.lookup publicKey).getD .new
  let assetBalances ← AccountBalance.modifyAsset assetId f account.assetBalances
  return accounts.insert publicKey { assetBalances }

-- The balance of an account in an asset; an absent entry counts as an empty one.
def balance (accounts : Accounts) (publicKey : PublicKeyHash) (assetId : AssetId) :
    AccountTokenBalance :=
  (((accounts.lookup publicKey).getD .new).findAssetId assetId).getD (.empty assetId)

-- Locks `amount`, or reports `false` for lack of funds.
def reserve
    (accounts : Accounts) (publicKey : PublicKeyHash) (assetId : AssetId) (amount : Nat) :
    Checked (Accounts × Bool) := do
  if (accounts.balance publicKey assetId).availableBalance < amount then
    return (← accounts.getAccountTokenBalanceMut publicKey assetId pure, false)
  else
    return (← accounts.getAccountTokenBalanceMut publicKey assetId (lock amount), true)

end Accounts

structure SpotClearingHouse where
  nextId           : MarketId
  accounts         : Accounts
  markets          : List SpotMarket
  assetToMarketMap : Map (AssetId × AssetId) MarketId

namespace SpotClearingHouse

def new : SpotClearingHouse where
  nextId := 0
  accounts := ∅
  markets := []
  assetToMarketMap := ∅

-- The faucet holds the maximal balance of assets 0 and 1.
def addFaucetAccount (c : SpotClearingHouse) (faucet : PublicKeyHash) : SpotClearingHouse :=
  { c with accounts := c.accounts.insert faucet { assetBalances := [
    { assetId := 0, availableBalance := 2 ^ 128 - 1, totalBalance := 2 ^ 128 - 1 },
    { assetId := 1, availableBalance := 2 ^ 128 - 1, totalBalance := 2 ^ 128 - 1 }
  ] } }

def normalisePair (assetOne assetTwo : AssetId) : AssetId × AssetId :=
  if assetOne < assetTwo then (assetOne, assetTwo) else (assetTwo, assetOne)

def getMarketIdFromPair (c : SpotClearingHouse) (baseAsset quoteAsset : AssetId) : Option MarketId :=
  c.assetToMarketMap.lookup (normalisePair baseAsset quoteAsset)

def getMarketInfoFromId (c : SpotClearingHouse) (marketId : MarketId) : Option MarketInfo :=
  c.markets[marketId]?.map SpotMarket.getMarketInfo

def getQuoteBaseTickFromId (c : SpotClearingHouse) (marketId : MarketId) :
    Option (AssetId × AssetId × Nat × Nat) :=
  c.markets[marketId]?.map fun m => (m.quoteAsset, m.baseAsset, m.tick, m.tickDecimals)

def addMarket
    (c : SpotClearingHouse) (baseAsset quoteAsset : AssetId) (baseAssetName quoteAssetName : String)
    (tick tickDecimals : Nat) : SpotClearingHouse :=
  match c.getMarketIdFromPair baseAsset quoteAsset with
  | some _ => c
  | none   =>
    let pair := normalisePair baseAsset quoteAsset
    { c with
      markets := c.markets ++ [.new c.nextId pair baseAsset quoteAsset baseAssetName quoteAssetName
        tick tickDecimals]
      assetToMarketMap := c.assetToMarketMap.insert pair c.nextId
      nextId := c.nextId + 1 }

def cancelOrder (c : SpotClearingHouse) (order : LimitOrder) (precision : MarketPrecision) :
    Checked (SpotClearingHouse × Bool) := do
  let marketId := order.common.marketId
  let account := order.common.account
  let c := { c with accounts := c.accounts.getAccountBalanceMut account }
  match c.markets[marketId]? with
  | none        => return (c, false)
  | some market =>
    let (market, unfilledBase) ← market.cancelOrder order
    let c := { c with markets := c.markets.set marketId market }
    match order.common.direction with
    | .buy =>
      let quoteLots ← baseToQuoteLots unfilledBase order.priceMultiple precision
      let quoteAmount ← U128.mul quoteLots precision.quoteLotSize
      let accounts ← c.accounts.getAccountTokenBalanceMut account market.quoteAsset (unlock quoteAmount)
      return ({ c with accounts }, true)
    | .sell =>
      let baseAmount ← U128.mul unfilledBase precision.baseLotSize
      let accounts ← c.accounts.getAccountTokenBalanceMut account market.baseAsset (unlock baseAmount)
      return ({ c with accounts }, true)

-- A resting order pays out one asset from its lock and receives the other. The paths below differ
-- in which of the two they book first.
def settleLimitMaker
    (isBuy : Bool) (baseAsset quoteAsset : AssetId) (precision : MarketPrecision)
    (accounts : Accounts) (account : PublicKeyHash) (price filledBaseLots : Nat) :
    Checked Accounts := do
  let quoteLots ← baseToQuoteLots filledBaseLots price precision
  let baseAmount ← U128.mul filledBaseLots precision.baseLotSize
  let quoteAmount ← U128.mul quoteLots precision.quoteLotSize
  if isBuy then
    let accounts ← accounts.getAccountTokenBalanceMut account baseAsset (debitTotal baseAmount)
    accounts.getAccountTokenBalanceMut account quoteAsset (credit quoteAmount)
  else
    let accounts ← accounts.getAccountTokenBalanceMut account quoteAsset (debitTotal quoteAmount)
    accounts.getAccountTokenBalanceMut account baseAsset (credit baseAmount)

def settleSellMaker
    (baseAsset quoteAsset : AssetId) (precision : MarketPrecision)
    (accounts : Accounts) (account : PublicKeyHash) (price filledBaseLots : Nat) :
    Checked Accounts := do
  let baseAmount ← U128.mul filledBaseLots precision.baseLotSize
  let accounts ← accounts.getAccountTokenBalanceMut account baseAsset (credit baseAmount)
  let quoteLots ← baseToQuoteLots filledBaseLots price precision
  let quoteAmount ← U128.mul quoteLots precision.quoteLotSize
  accounts.getAccountTokenBalanceMut account quoteAsset (debitTotal quoteAmount)

def settleBuyMaker
    (baseAsset quoteAsset : AssetId) (precision : MarketPrecision)
    (accounts : Accounts) (account : PublicKeyHash) (price filledBaseLots : Nat) :
    Checked Accounts := do
  let baseAmount ← U128.mul filledBaseLots precision.baseLotSize
  let accounts ← accounts.getAccountTokenBalanceMut account baseAsset (debitTotal baseAmount)
  let quoteLots ← baseToQuoteLots filledBaseLots price precision
  let quoteAmount ← U128.mul quoteLots precision.quoteLotSize
  accounts.getAccountTokenBalanceMut account quoteAsset (credit quoteAmount)

-- The makers of a match: every filled order that was not cancelled for all that its lot counters
-- leave open, then the residual order for its fill.
def settleMakers
    (settle : Accounts → PublicKeyHash → Nat → Nat → Checked Accounts) (accounts : Accounts)
    (filledOrders : List LimitOrder) (residualOrder : Option ResidualOrder) : Checked Accounts := do
  let accounts ← filledOrders.foldlM (fun accounts order =>
    if order.common.status = .cancelled then pure accounts
    else do
      let filledBaseLots ← Checked.sub order.baseLots order.filledBaseLots
      settle accounts order.common.account order.priceMultiple filledBaseLots) accounts
  match residualOrder with
  | some r => settle accounts r.accountPublicKey r.priceMultiple r.filledBaseLots
  | none   => return accounts

def handleLimitOrder (c : SpotClearingHouse) (order : LimitOrder) (precision : MarketPrecision) :
    Checked (SpotClearingHouse × Option ExecutionResults) := do
  let marketId := order.common.marketId
  let account := order.common.account
  let c := { c with accounts := c.accounts.getAccountBalanceMut account }
  match c.markets[marketId]? with
  | none        => return (c, none)
  | some market =>
    let isBuy := order.common.direction = .buy
    let expectedBalanceLock ←
      match order.common.direction with
      | .buy  => do
        let quoteLots ← baseToQuoteLots order.baseLots order.priceMultiple precision
        U64.mul quoteLots precision.quoteLotSize
      | .sell => U64.mul order.baseLots precision.baseLotSize
    let assetOut := if isBuy then market.quoteAsset else market.baseAsset
    let (accounts, enough) ← c.accounts.reserve account assetOut expectedBalanceLock
    if enough then
      let baseAsset := market.baseAsset
      let quoteAsset := market.quoteAsset
      let (market, results) ← market.addLimitOrder order baseAsset quoteAsset precision
      let c := { c with markets := c.markets.set marketId market }
      match results with
      | none =>
        return ({ c with accounts },
          some { filledOrders := [], residualOrder := none, userOrderChange := none })
      | some result =>
        let user := result.userOrder
        let outLotSize := if isBuy then precision.quoteLotSize else precision.baseLotSize
        let inLotSize := if isBuy then precision.baseLotSize else precision.quoteLotSize
        let amountOut ← U128.mul outLotSize user.lotsOut
        let accounts ← accounts.getAccountTokenBalanceMut account user.assetOut
          (unlockAndSpend expectedBalanceLock amountOut)
        let amountIn ← U128.mul inLotSize user.lotsIn
        let accounts ← accounts.getAccountTokenBalanceMut account user.assetIn (credit amountIn)
        let accounts ← settleMakers (settleLimitMaker isBuy baseAsset quoteAsset precision) accounts
          result.filledOrders result.residualOrder
        let averageExecutionPrice ← Checked.div user.lotsOut user.lotsIn
        let averageExecutionPrice ←
          if user.assetIn = baseAsset then Checked.div user.lotsIn user.lotsOut
          else pure averageExecutionPrice
        return ({ c with accounts }, some {
          filledOrders := result.filledOrders
          residualOrder := result.residualOrder
          userOrderChange := some (.limit user.orderId user.filledSize averageExecutionPrice) })
    else
      return ({ c with accounts }, none)

-- Unlike the other three kinds of order, a market buy goes on when the balance does not suffice.
def lockMarketOrder
    (accounts : Accounts) (market : SpotMarket) (order : MarketOrder) (precision : MarketPrecision) :
    Checked (Accounts × Option Nat) :=
  match order with
  | .sell sellOrder => do
    let baseNeeded ← U128.mul sellOrder.baseSize precision.baseLotSize
    let (accounts, enough) ← accounts.reserve sellOrder.common.account market.baseAsset baseNeeded
    return (accounts, if enough then some baseNeeded else none)
  | .buy buyOrder => do
    let quoteNeeded ← U128.mul buyOrder.quoteSize precision.quoteLotSize
    let accounts ← accounts.getAccountTokenBalanceMut buyOrder.common.account market.quoteAsset
      (lock quoteNeeded)
    return (accounts, some quoteNeeded)

def settleMarketSell
    (accounts : Accounts) (account : PublicKeyHash) (baseAsset quoteAsset : AssetId)
    (precision : MarketPrecision) (lockAmount : Nat) (result : MarketSellResult) :
    Checked (Accounts × ExecutionResults) := do
  let baseFilledAmount ← U128.mul result.baseFilledLots precision.baseLotSize
  let accounts ← accounts.getAccountTokenBalanceMut account baseAsset
    (unlockAndSpend lockAmount baseFilledAmount)
  let quoteAmountIn ← U128.mul result.quoteLotsIn precision.quoteLotSize
  let accounts ← accounts.getAccountTokenBalanceMut account quoteAsset (credit quoteAmountIn)
  let averageExecutionPrice :=
    if 0 < result.baseFilledLots then result.quoteLotsIn / result.baseFilledLots else 0
  let accounts ← settleMakers (settleSellMaker baseAsset quoteAsset precision) accounts
    result.filledOrders result.residualOrder
  return (accounts, {
    filledOrders := result.filledOrders
    residualOrder := result.residualOrder
    userOrderChange :=
      some (.market result.orderId result.baseFilledLots result.selfFill averageExecutionPrice) })

def settleMarketBuy
    (accounts : Accounts) (account : PublicKeyHash) (baseAsset quoteAsset : AssetId)
    (precision : MarketPrecision) (lockAmount : Nat) (result : MarketBuyResult) :
    Checked (Accounts × ExecutionResults) := do
  let quoteAmount ← U128.mul result.quoteFilledLots precision.quoteLotSize
  let accounts ← accounts.getAccountTokenBalanceMut account quoteAsset
    (unlockAndSpend lockAmount quoteAmount)
  let baseAmount ← U128.mul result.baseLotsIn precision.baseLotSize
  let accounts ← accounts.getAccountTokenBalanceMut account baseAsset (credit baseAmount)
  let averageExecutionPrice :=
    if 0 < result.baseLotsIn then result.quoteFilledLots / result.baseLotsIn else 0
  let accounts ← settleMakers (settleBuyMaker baseAsset quoteAsset precision) accounts
    result.filledOrders result.residualOrder
  return (accounts, {
    filledOrders := result.filledOrders
    residualOrder := result.residualOrder
    userOrderChange :=
      some (.market result.orderId result.quoteFilledLots result.selfFill averageExecutionPrice) })

def handleMarketOrder (c : SpotClearingHouse) (marketId : MarketId) (order : MarketOrder)
    (precision : MarketPrecision) : Checked (SpotClearingHouse × Option ExecutionResults) := do
  let account := order.getAccount
  let c := { c with accounts := c.accounts.getAccountBalanceMut account }
  match c.markets[marketId]? with
  | none        => return (c, none)
  | some market =>
    let (accounts, lockAmount) ← lockMarketOrder c.accounts market order precision
    match lockAmount with
    | none            => return ({ c with accounts }, none)
    | some lockAmount =>
      let baseAsset := market.baseAsset
      let quoteAsset := market.quoteAsset
      let (market, results) ← market.handleMarketOrder order precision
      let c := { c with markets := c.markets.set marketId market }
      let (accounts, results) ←
        match results with
        | .sell result =>
          settleMarketSell accounts account baseAsset quoteAsset precision lockAmount result
        | .buy result =>
          settleMarketBuy accounts account baseAsset quoteAsset precision lockAmount result
      return ({ c with accounts }, some results)

def handleOrder (c : SpotClearingHouse) (order : Order) (precision : MarketPrecision) :
    Checked (SpotClearingHouse × Option ExecutionResults) :=
  match order with
  | .limit limitOrder   => c.handleLimitOrder limitOrder precision
  | .market marketOrder => c.handleMarketOrder order.getMarketId marketOrder precision

end SpotClearingHouse
end Superliquid
