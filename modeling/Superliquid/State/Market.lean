import Superliquid.Lib.Search
import Superliquid.State.Order

namespace Superliquid

structure MarketPrecision where
  baseLotSize  : Nat
  quoteLotSize : Nat
  tick         : Nat
  tickDecimals : Nat

-- The numerators and denominators are `u128`, the quotients are cast to `u64`.
def baseToQuoteLots (baseLots priceTicks : Nat) (precision : MarketPrecision) : Checked Nat := do
  let baseUnits ← U128.mul baseLots precision.baseLotSize
  let priced ← U128.mul baseUnits priceTicks
  let numerator ← U128.mul priced precision.tick
  let scale ← Checked.fit 128 (10 ^ precision.tickDecimals)
  let denominator ← U128.mul precision.quoteLotSize scale
  let quotient ← Checked.div numerator denominator
  return U64.cast quotient

def quoteLotsToBaseLots (quoteLots priceTicks : Nat) (precision : MarketPrecision) : Checked Nat := do
  let quoteUnits ← U128.mul quoteLots precision.quoteLotSize
  let scale ← Checked.fit 128 (10 ^ precision.tickDecimals)
  let numerator ← U128.mul quoteUnits scale
  let priced ← U128.mul priceTicks precision.tick
  let denominator ← U128.mul priced precision.baseLotSize
  let quotient ← Checked.div numerator denominator
  return U64.cast quotient

structure Level where
  price     : Nat
  volume    : Nat
  orders    : List LimitOrder
  cancelled : Nat
  deriving DecidableEq

structure LevelInfo where
  price  : Nat
  volume : Nat

structure MarketInfo where
  marketId          : MarketId
  marketName        : String
  lastExecutedPrice : Option Nat
  bestAsksInfo      : Option LevelInfo
  bestBidsInfo      : Option LevelInfo
  tick              : Nat
  tickDecimals      : Nat
  baseName          : String
  quoteName         : String
  baseAssetId       : AssetId
  quoteAssetId      : AssetId

-- Levels are in reverse order: the best price is the last one.
structure SpotMarket where
  marketId          : MarketId
  assetOne          : AssetId
  assetTwo          : AssetId
  baseAsset         : AssetId
  quoteAsset        : AssetId
  baseAssetName     : String
  quoteAssetName    : String
  tick              : Nat
  tickDecimals      : Nat
  lastExecutedPrice : Option Nat
  bidsLevels        : List Level
  asksLevels        : List Level

namespace SpotMarket

def new
    (marketId : MarketId) (normalisedPair : AssetId × AssetId) (baseAsset quoteAsset : AssetId)
    (baseAssetName quoteAssetName : String) (tick tickDecimals : Nat) : SpotMarket where
  marketId
  assetOne := normalisedPair.1
  assetTwo := normalisedPair.2
  baseAsset
  quoteAsset
  bidsLevels := []
  asksLevels := []
  tick
  tickDecimals
  lastExecutedPrice := none
  baseAssetName
  quoteAssetName

-- The step of the binary searches over levels: equality decides a hit, `cmp` the direction.
def probeLevel (price : Nat) (cmp : Nat → Nat → Ordering) (level : Level) : Probe :=
  if price = level.price then .hit
  else if cmp price level.price = .lt then .left
  else .right

def addOrderWithCmp (levels : List Level) (order : LimitOrder) (cmp : Nat → Nat → Ordering) :
    Checked (List Level) := do
  let price := order.priceMultiple
  match Search.search (probeLevel price cmp) levels with
  | .found mid =>
    let level ← Checked.index levels mid
    let unfilled ← Checked.sub order.baseLots order.filledBaseLots
    let volume ← U64.add level.volume unfilled
    return levels.set mid { level with volume, orders := level.orders ++ [order] }
  | .missing left =>
    let volume ← Checked.sub order.baseLots order.filledBaseLots
    return levels.insertIdx left { price, volume, orders := [order], cancelled := 0 }

def probeOrder (id : Nat) (order : LimitOrder) : Probe :=
  if id = order.common.id then .hit
  else if id < order.common.id then .left
  else .right

-- The orders with `order` marked, or `none` where the source returns `false`.
def markOrderAsCancelled (orders : List LimitOrder) (order : LimitOrder) :
    Option (List LimitOrder) :=
  match Search.search (probeOrder order.common.id) orders with
  | .missing _ => none
  | .found mid =>
    match orders[mid]? with
    | none   => none
    | some o =>
      if o.common.status = .cancelled then none
      else some (orders.set mid { o with common.status := .cancelled })

def cancelOrderWithCmp (levels : List Level) (order : LimitOrder) (cmp : Nat → Nat → Ordering) :
    Checked (List Level × Nat) := do
  let price := order.priceMultiple
  match Search.search (probeLevel price cmp) levels with
  | .missing _ => return (levels, 0)
  | .found mid =>
    let level ← Checked.index levels mid
    match markOrderAsCancelled level.orders order with
    | none        => return (levels, 0)
    | some orders =>
      let cancelled ← U32.add level.cancelled 1
      let unfilledSize ← Checked.sub order.baseLots order.filledBaseLots
      let volume ← Checked.sub level.volume unfilledSize
      if volume = 0 then
        return (levels.eraseIdx mid, unfilledSize)
      else if orders.length / 2 < cancelled then
        -- Prune when the vector is sparse enough.
        let orders := orders.filter fun o => o.common.status ≠ .cancelled
        return (levels.set mid { level with volume, orders, cancelled := 0 }, unfilledSize)
      else
        return (levels.set mid { level with volume, orders, cancelled }, unfilledSize)

def ascending (a b : Nat) : Ordering := compare a b
def descending (a b : Nat) : Ordering := compare b a

def addBid (m : SpotMarket) (order : LimitOrder) : Checked SpotMarket := do
  return { m with bidsLevels := ← addOrderWithCmp m.bidsLevels order ascending }

def addAsk (m : SpotMarket) (order : LimitOrder) : Checked SpotMarket := do
  return { m with asksLevels := ← addOrderWithCmp m.asksLevels order descending }

def cancelBid (m : SpotMarket) (order : LimitOrder) : Checked (SpotMarket × Nat) := do
  let (levels, unfilled) ← cancelOrderWithCmp m.bidsLevels order ascending
  return ({ m with bidsLevels := levels }, unfilled)

def cancelAsk (m : SpotMarket) (order : LimitOrder) : Checked (SpotMarket × Nat) := do
  let (levels, unfilled) ← cancelOrderWithCmp m.asksLevels order descending
  return ({ m with asksLevels := levels }, unfilled)

def cancelOrder (m : SpotMarket) (order : LimitOrder) : Checked (SpotMarket × Nat) :=
  match order.common.direction with
  | .buy  => m.cancelBid order
  | .sell => m.cancelAsk order

-- The local variables of `execute_limit` that its two loops update. The last two count within the
-- current level.
structure LimitMatch where
  remainingBaseAmount : Nat
  lotsIn              : Nat
  lotsOut             : Nat
  lastExecutedPrice   : Option Nat
  residualOrder       : Option ResidualOrder
  toDrainEndIndex     : Nat
  cancelledSeen       : Nat

-- The loop over the orders of one level, up to its `break`. Returns the orders as it leaves them.
def executeLimitOrders (levelPrice : Nat) (isBuy : Bool) (precision : MarketPrecision) :
    List LimitOrder → LimitMatch → Checked (List LimitOrder × LimitMatch)
  | [], s => return ([], s)
  | order :: orders, s =>
    if order.common.status = .cancelled then do
      let cancelledSeen ← U32.add s.cancelledSeen 1
      let (orders, s) ← executeLimitOrders levelPrice isBuy precision orders
        { s with cancelledSeen, toDrainEndIndex := s.toDrainEndIndex + 1 }
      return (order :: orders, s)
    else do
      let orderRemaining ← order.getOrderRemaining
      let currFilled := min s.remainingBaseAmount orderRemaining
      let remainingBaseAmount ← Checked.sub s.remainingBaseAmount currFilled
      let quoteLots ← baseToQuoteLots currFilled levelPrice precision
      let lotsIn ← U64.add s.lotsIn (if isBuy then currFilled else quoteLots)
      let lotsOut ← U64.add s.lotsOut (if isBuy then quoteLots else currFilled)
      let toDrainEndIndex :=
        if currFilled = orderRemaining then s.toDrainEndIndex + 1 else s.toDrainEndIndex
      let s := { s with
        remainingBaseAmount, lotsIn, lotsOut, toDrainEndIndex, lastExecutedPrice := some levelPrice }
      if remainingBaseAmount = 0 then
        if currFilled < orderRemaining then
          let filledBaseLots ← U64.add order.filledBaseLots currFilled
          return ({ order with filledBaseLots } :: orders, { s with
            residualOrder := some {
              orderId := order.common.id, priceMultiple := levelPrice,
              accountPublicKey := order.common.account, filledBaseLots := currFilled, selfFill := 0 } })
        else
          return (order :: orders, s)
      else
        let (orders, s) ← executeLimitOrders levelPrice isBuy precision orders s
        return (order :: orders, s)

-- The loop over the levels, best price first.
def executeLimitLevels
    (orderPrice : Nat) (isBuy : Bool) (precision : MarketPrecision) (cmp : Nat → Nat → Ordering) :
    List Level → List LimitOrder → LimitMatch → Checked (List Level × List LimitOrder × LimitMatch)
  | [], filledOrders, s => return ([], filledOrders, s)
  | level :: levels, filledOrders, s =>
    if s.remainingBaseAmount = 0 then
      return (level :: levels, filledOrders, s)
    else if cmp orderPrice level.price = .gt then
      return (level :: levels, filledOrders, s)
    else do
      let levelFilled := s.remainingBaseAmount
      let (orders, s) ← executeLimitOrders level.price isBuy precision level.orders
        { s with toDrainEndIndex := 0, cancelledSeen := 0 }
      if s.toDrainEndIndex < orders.length then
        let volume ← Checked.sub level.volume levelFilled
        let cancelled ← Checked.sub level.cancelled s.cancelledSeen
        return ({ level with volume, cancelled, orders := orders.drop s.toDrainEndIndex } :: levels,
          filledOrders ++ orders.take s.toDrainEndIndex, s)
      else
        -- The level is used up and leaves the book.
        executeLimitLevels orderPrice isBuy precision cmp levels (filledOrders ++ orders) s

-- Returns the levels, the order with its new fill, and the result.
def executeLimit
    (levels : List Level) (order : LimitOrder) (assetIn assetOut : AssetId) (isBuy : Bool)
    (precision : MarketPrecision) (cmp : Nat → Nat → Ordering) :
    Checked (List Level × LimitOrder × LimitFillResult) := do
  let (levels, filledOrders, s) ← executeLimitLevels order.priceMultiple isBuy precision cmp
    levels.reverse [] {
      remainingBaseAmount := order.baseLots, lotsIn := 0, lotsOut := 0, lastExecutedPrice := none
      residualOrder := none, toDrainEndIndex := 0, cancelledSeen := 0 }
  let filledBaseLots ← Checked.sub order.baseLots s.remainingBaseAmount
  return (levels.reverse, { order with filledBaseLots }, {
    filledOrders
    residualOrder := s.residualOrder
    userOrder := {
      orderId := order.common.id, lotsOut := s.lotsOut, lotsIn := s.lotsIn
      assetIn, assetOut, filledSize := filledBaseLots }
    lastExecutedPrice := s.lastExecutedPrice })

-- The local variables of `execute_market_buy_order`. The last four belong to the current level.
structure MarketBuyMatch where
  remainingQuoteLots : Nat
  baseLotsIn         : Nat
  selfFillQuotes     : Nat
  lastExecutedPrice  : Option Nat
  residualOrder      : Option ResidualOrder
  remainingBaseLots  : Nat
  levelFilled        : Nat
  levelCancelled     : Nat
  toDrainEndIndex    : Nat

def executeMarketBuyOrders (account : PublicKeyHash) (levelPrice : Nat) (precision : MarketPrecision) :
    List LimitOrder → MarketBuyMatch → Checked (List LimitOrder × MarketBuyMatch)
  | [], s => return ([], s)
  | order :: orders, s =>
    if order.common.status = .cancelled then do
      let levelCancelled ← U32.add s.levelCancelled 1
      let (orders, s) ← executeMarketBuyOrders account levelPrice precision orders
        { s with levelCancelled, toDrainEndIndex := s.toDrainEndIndex + 1 }
      return (order :: orders, s)
    else do
      let orderBaseRemaining ← order.getOrderRemaining
      let filledBase := min s.remainingBaseLots orderBaseRemaining
      let filledQuote ← baseToQuoteLots filledBase levelPrice precision
      let remainingBaseLots ← Checked.sub s.remainingBaseLots filledBase
      let remainingQuoteLots ← Checked.sub s.remainingQuoteLots filledQuote
      let levelFilled ← U64.add s.levelFilled filledBase
      let toDrainEndIndex :=
        if filledBase = orderBaseRemaining then s.toDrainEndIndex + 1 else s.toDrainEndIndex
      let s := { s with remainingBaseLots, remainingQuoteLots, levelFilled, toDrainEndIndex }
      let residual : ResidualOrder := {
        orderId := order.common.id, priceMultiple := levelPrice
        accountPublicKey := order.common.account, filledBaseLots := 0, selfFill := 0 }
      if order.common.account = account then
        -- A self trade reduces the resting order without a transfer.
        let selfFilled ← U64.add order.selfFilled filledBase
        let selfFillQuotes ← U64.add s.selfFillQuotes filledQuote
        let order := { order with selfFilled }
        let s := { s with selfFillQuotes }
        if remainingBaseLots = 0 then
          if filledBase < orderBaseRemaining then
            return (order :: orders, { s with
              residualOrder := some { residual with selfFill := filledBase } })
          else
            return (order :: orders, s)
        else
          let (orders, s) ← executeMarketBuyOrders account levelPrice precision orders s
          return (order :: orders, s)
      else
        let baseLotsIn ← U64.add s.baseLotsIn filledBase
        let s := { s with baseLotsIn, lastExecutedPrice := some levelPrice }
        if remainingBaseLots = 0 then
          if filledBase < orderBaseRemaining then
            let filledBaseLots ← U64.add order.filledBaseLots filledBase
            return ({ order with filledBaseLots } :: orders, { s with
              residualOrder := some { residual with filledBaseLots := filledBase } })
          else
            return (order :: orders, s)
        else
          let (orders, s) ← executeMarketBuyOrders account levelPrice precision orders s
          return (order :: orders, s)

def executeMarketBuyLevels (account : PublicKeyHash) (precision : MarketPrecision) :
    List Level → List LimitOrder → MarketBuyMatch →
    Checked (List Level × List LimitOrder × MarketBuyMatch)
  | [], filledOrders, s => return ([], filledOrders, s)
  | level :: levels, filledOrders, s =>
    if s.remainingQuoteLots = 0 then
      return (level :: levels, filledOrders, s)
    else do
      -- The book is kept in base lots, so the budget is converted at each level's price.
      let remainingBaseLots ← quoteLotsToBaseLots s.remainingQuoteLots level.price precision
      if remainingBaseLots = 0 then
        return (level :: levels, filledOrders, s)
      else
        let (orders, s) ← executeMarketBuyOrders account level.price precision level.orders
          { s with remainingBaseLots, levelFilled := 0, levelCancelled := 0, toDrainEndIndex := 0 }
        if s.toDrainEndIndex < orders.length then
          let volume ← Checked.sub level.volume s.levelFilled
          let cancelled ← Checked.sub level.cancelled s.levelCancelled
          return ({ level with volume, cancelled, orders := orders.drop s.toDrainEndIndex } :: levels,
            filledOrders ++ orders.take s.toDrainEndIndex, s)
        else
          executeMarketBuyLevels account precision levels (filledOrders ++ orders) s

def executeMarketBuyOrder
    (levels : List Level) (buyOrder : MarketBuyOrder) (precision : MarketPrecision) :
    Checked (List Level × MarketBuyResult) := do
  let (levels, filledOrders, s) ← executeMarketBuyLevels buyOrder.common.account precision
    levels.reverse [] {
      remainingQuoteLots := buyOrder.quoteSize, baseLotsIn := 0, selfFillQuotes := 0
      lastExecutedPrice := none, residualOrder := none, remainingBaseLots := 0, levelFilled := 0
      levelCancelled := 0, toDrainEndIndex := 0 }
  let spent ← Checked.sub buyOrder.quoteSize s.remainingQuoteLots
  let quoteFilledLots ← Checked.sub spent s.selfFillQuotes
  return (levels.reverse, {
    quoteFilledLots
    baseLotsIn := s.baseLotsIn
    filledOrders
    selfFill := s.selfFillQuotes
    residualOrder := s.residualOrder
    orderId := buyOrder.common.id
    lastExecutedPrice := s.lastExecutedPrice })

structure MarketSellMatch where
  remainingBaseLots : Nat
  quoteLotsIn       : Nat
  selfFill          : Nat
  lastExecutedPrice : Option Nat
  residualOrder     : Option ResidualOrder
  toDrainEndIndex   : Nat
  cancelledSeen     : Nat

def executeMarketSellOrders (account : PublicKeyHash) (levelPrice : Nat) (precision : MarketPrecision) :
    List LimitOrder → MarketSellMatch → Checked (List LimitOrder × MarketSellMatch)
  | [], s => return ([], s)
  | order :: orders, s =>
    if order.common.status = .cancelled then do
      let cancelledSeen ← U32.add s.cancelledSeen 1
      let (orders, s) ← executeMarketSellOrders account levelPrice precision orders
        { s with cancelledSeen, toDrainEndIndex := s.toDrainEndIndex + 1 }
      return (order :: orders, s)
    else do
      let orderRemaining ← order.getOrderRemaining
      let filledBase := min s.remainingBaseLots orderRemaining
      let remainingBaseLots ← Checked.sub s.remainingBaseLots filledBase
      let toDrainEndIndex :=
        if filledBase = orderRemaining then s.toDrainEndIndex + 1 else s.toDrainEndIndex
      let s := { s with remainingBaseLots, toDrainEndIndex }
      let residual : ResidualOrder := {
        orderId := order.common.id, priceMultiple := levelPrice
        accountPublicKey := order.common.account, filledBaseLots := 0, selfFill := 0 }
      if order.common.account = account then
        let selfFill ← U64.add s.selfFill filledBase
        let selfFilled ← U64.add order.selfFilled filledBase
        let order := { order with selfFilled }
        let s := { s with selfFill }
        if remainingBaseLots = 0 then
          if filledBase < orderRemaining then
            return (order :: orders, { s with
              residualOrder := some { residual with selfFill := filledBase } })
          else
            return (order :: orders, s)
        else
          let (orders, s) ← executeMarketSellOrders account levelPrice precision orders s
          return (order :: orders, s)
      else
        let quoteLots ← baseToQuoteLots filledBase levelPrice precision
        let quoteLotsIn ← U64.add s.quoteLotsIn quoteLots
        let s := { s with quoteLotsIn, lastExecutedPrice := some levelPrice }
        if remainingBaseLots = 0 then
          if filledBase < orderRemaining then
            let filledBaseLots ← U64.add order.filledBaseLots filledBase
            return ({ order with filledBaseLots } :: orders, { s with
              residualOrder := some { residual with filledBaseLots := filledBase } })
          else
            return (order :: orders, s)
        else
          let (orders, s) ← executeMarketSellOrders account levelPrice precision orders s
          return (order :: orders, s)

def executeMarketSellLevels (account : PublicKeyHash) (precision : MarketPrecision) :
    List Level → List LimitOrder → MarketSellMatch →
    Checked (List Level × List LimitOrder × MarketSellMatch)
  | [], filledOrders, s => return ([], filledOrders, s)
  | level :: levels, filledOrders, s =>
    if s.remainingBaseLots = 0 then
      return (level :: levels, filledOrders, s)
    else do
      let levelFilled := s.remainingBaseLots
      let (orders, s) ← executeMarketSellOrders account level.price precision level.orders
        { s with toDrainEndIndex := 0, cancelledSeen := 0 }
      if s.toDrainEndIndex < orders.length then
        let volume ← Checked.sub level.volume levelFilled
        let cancelled ← Checked.sub level.cancelled s.cancelledSeen
        return ({ level with volume, cancelled, orders := orders.drop s.toDrainEndIndex } :: levels,
          filledOrders ++ orders.take s.toDrainEndIndex, s)
      else
        executeMarketSellLevels account precision levels (filledOrders ++ orders) s

def executeMarketSellOrder
    (levels : List Level) (sellOrder : MarketSellOrder) (precision : MarketPrecision) :
    Checked (List Level × MarketSellResult) := do
  let (levels, filledOrders, s) ← executeMarketSellLevels sellOrder.common.account precision
    levels.reverse [] {
      remainingBaseLots := sellOrder.baseSize, quoteLotsIn := 0, selfFill := 0
      lastExecutedPrice := none, residualOrder := none, toDrainEndIndex := 0, cancelledSeen := 0 }
  let sold ← Checked.sub sellOrder.baseSize s.remainingBaseLots
  let baseFilledLots ← Checked.sub sold s.selfFill
  return (levels.reverse, {
    filledOrders
    residualOrder := s.residualOrder
    baseFilledLots
    quoteLotsIn := s.quoteLotsIn
    selfFill := s.selfFill
    orderId := sellOrder.common.id
    lastExecutedPrice := s.lastExecutedPrice })

def setLastExecutedPrice (m : SpotMarket) : Option Nat → SpotMarket
  | some price => { m with lastExecutedPrice := some price }
  | none       => m

def handleMarketOrder (m : SpotMarket) (order : MarketOrder) (precision : MarketPrecision) :
    Checked (SpotMarket × MarketOrderMatchingResults) :=
  match order with
  | .sell sellOrder => do
    let (levels, result) ← executeMarketSellOrder m.bidsLevels sellOrder precision
    return ({ m with bidsLevels := levels }.setLastExecutedPrice result.lastExecutedPrice, .sell result)
  | .buy buyOrder => do
    let (levels, result) ← executeMarketBuyOrder m.asksLevels buyOrder precision
    return ({ m with asksLevels := levels }.setLastExecutedPrice result.lastExecutedPrice, .buy result)

def getBestPrices (m : SpotMarket) : Option Nat × Option Nat :=
  (m.bidsLevels.getLast?.map Level.price, m.asksLevels.getLast?.map Level.price)

def addLimitOrder
    (m : SpotMarket) (order : LimitOrder) (baseAsset quoteAsset : AssetId)
    (precision : MarketPrecision) : Checked (SpotMarket × Option LimitFillResult) :=
  match order.common.direction with
  | .buy =>
    match m.getBestPrices.2 with
    | none => do
      return (← m.addBid order, none)
    | some bestAskPrice =>
      if bestAskPrice ≤ order.priceMultiple then do
        let (levels, order, result) ←
          executeLimit m.asksLevels order baseAsset quoteAsset true precision descending
        let m := { m with asksLevels := levels }.setLastExecutedPrice result.lastExecutedPrice
        let m ← if order.filledBaseLots < order.baseLots then m.addBid order else pure m
        return (m, some result)
      else do
        return (← m.addBid order, none)
  | .sell =>
    match m.getBestPrices.1 with
    | none => do
      return (← m.addAsk order, none)
    | some bestBidPrice =>
      if order.priceMultiple ≤ bestBidPrice then do
        let (levels, order, result) ←
          executeLimit m.bidsLevels order quoteAsset baseAsset false precision ascending
        let m := { m with bidsLevels := levels }.setLastExecutedPrice result.lastExecutedPrice
        let m ← if order.filledBaseLots < order.baseLots then m.addAsk order else pure m
        return (m, some result)
      else do
        return (← m.addAsk order, none)

def getMarketInfo (m : SpotMarket) : MarketInfo where
  marketId := m.marketId
  marketName := m.baseAssetName ++ "/" ++ m.quoteAssetName
  lastExecutedPrice := m.lastExecutedPrice
  bestAsksInfo := m.asksLevels.getLast?.map fun l => { price := l.price, volume := l.volume }
  bestBidsInfo := m.bidsLevels.getLast?.map fun l => { price := l.price, volume := l.volume }
  tick := m.tick
  tickDecimals := m.tickDecimals
  baseName := m.baseAssetName
  quoteName := m.quoteAssetName
  baseAssetId := m.baseAsset
  quoteAssetId := m.quoteAsset

end SpotMarket
end Superliquid
