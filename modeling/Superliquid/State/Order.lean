import Superliquid.Lib.Checked

namespace Superliquid

-- 32 byte arrays (digests and public keys) are read as numbers. Nothing bounds the number, so that
-- a digest without collisions exists.
abbrev Sha256Hash := Nat
abbrev PublicKeyHash := Sha256Hash

abbrev AssetId := Nat
abbrev MarketId := Nat

structure Asset where
  assetId   : AssetId
  assetName : String
  lotSize   : Nat
  decimals  : Nat

structure AssetManager where
  nextAssetId : AssetId
  assets      : List Asset

def AssetManager.new : AssetManager where
  nextAssetId := 2
  assets := [
    { assetId := 0, assetName := "SUPE", decimals := 4, lotSize := 100 },
    { assetId := 1, assetName := "USD", decimals := 4, lotSize := 100 }
  ]

inductive OrderStatus
  | open
  | cancelled
  | rejected
  | filled
  | partiallyFilled
  deriving DecidableEq

inductive OrderDirection
  | buy
  | sell
  deriving DecidableEq

inductive OrderType
  | limit (price : Nat) (size : Nat)
  | market (size : Nat)
  deriving DecidableEq

structure CommonOrderFields where
  id        : Nat
  marketId  : MarketId
  status    : OrderStatus
  account   : PublicKeyHash
  direction : OrderDirection
  deriving DecidableEq

structure LimitOrder where
  common         : CommonOrderFields
  priceMultiple  : Nat
  baseLots       : Nat
  filledBaseLots : Nat
  selfFilled     : Nat
  deriving DecidableEq

namespace LimitOrder

def getOrderRemaining (o : LimitOrder) : Checked Nat := do
  let unfilled ← Checked.sub o.baseLots o.filledBaseLots
  Checked.sub unfilled o.selfFilled

-- What is left of an order, as a number rather than a computation.
def remaining (o : LimitOrder) : Nat :=
  o.baseLots - o.filledBaseLots - o.selfFilled

theorem getOrderRemaining_ok {o : LimitOrder} {n : Nat} :
    o.getOrderRemaining = .ok n ↔ o.filledBaseLots + o.selfFilled ≤ o.baseLots ∧ n = o.remaining := by
  simp only [getOrderRemaining, Checked.bind_ok, Checked.sub_ok, remaining]
  constructor
  · rintro ⟨_, ⟨h₁, rfl⟩, h₂, rfl⟩
    exact ⟨by omega, rfl⟩
  · rintro ⟨h, rfl⟩
    exact ⟨_, ⟨by omega, rfl⟩, by omega, rfl⟩

-- An order that still rests in the book, rather than a lazily cancelled entry.
def IsLive (o : LimitOrder) : Prop :=
  o.common.status ≠ .cancelled

instance : DecidablePred IsLive :=
  fun o => inferInstanceAs (Decidable (o.common.status ≠ .cancelled))

end LimitOrder

structure MarketSellOrder where
  baseSize              : Nat
  filledSize            : Nat
  selfFilled            : Nat
  averageExecutionPrice : Nat
  common                : CommonOrderFields
  deriving DecidableEq

structure MarketBuyOrder where
  quoteSize             : Nat
  filledSize            : Nat
  selfFilled            : Nat
  averageExecutionPrice : Nat
  common                : CommonOrderFields
  deriving DecidableEq

inductive MarketOrder
  | sell (order : MarketSellOrder)
  | buy (order : MarketBuyOrder)
  deriving DecidableEq

def MarketOrder.getAccount : MarketOrder → PublicKeyHash
  | sell order => order.common.account
  | buy order  => order.common.account

inductive Order
  | limit (order : LimitOrder)
  | market (order : MarketOrder)
  deriving DecidableEq

namespace Order

def getAccount : Order → PublicKeyHash
  | limit order         => order.common.account
  | market (.buy order) => order.common.account
  | market (.sell order) => order.common.account

def getMarketId : Order → MarketId
  | limit order         => order.common.marketId
  | market (.buy order) => order.common.marketId
  | market (.sell order) => order.common.marketId

def getId : Order → Nat
  | limit order         => order.common.id
  | market (.buy order) => order.common.id
  | market (.sell order) => order.common.id

end Order

structure OrderStateManager where
  nextId : Nat

namespace OrderStateManager

def new : OrderStateManager where
  nextId := 0

def newLimitOrder
    (m : OrderStateManager) (marketId : MarketId) (account : PublicKeyHash)
    (direction : OrderDirection) (priceMultiple : Nat) (quoteSize : Nat) :
    Checked (OrderStateManager × LimitOrder) := do
  let id := m.nextId
  let nextId ← U64.add m.nextId 1
  return ({ m with nextId }, {
    common := { id, marketId, status := .open, account, direction }
    priceMultiple
    baseLots := quoteSize
    filledBaseLots := 0
    selfFilled := 0
  })

def newMarketOrder
    (m : OrderStateManager) (marketId : MarketId) (account : PublicKeyHash)
    (direction : OrderDirection) (size : Nat) : Checked (OrderStateManager × MarketOrder) := do
  let id := m.nextId
  let nextId ← U64.add m.nextId 1
  let common : CommonOrderFields := { id, marketId, status := .open, account, direction }
  return ({ m with nextId },
    match direction with
    | .buy  => .buy { quoteSize := size, filledSize := 0, selfFilled := 0,
                      averageExecutionPrice := 0, common }
    | .sell => .sell { baseSize := size, filledSize := 0, selfFilled := 0,
                       averageExecutionPrice := 0, common })

end OrderStateManager

-- The resting order that an incoming order fills in part.
structure ResidualOrder where
  orderId          : Nat
  accountPublicKey : PublicKeyHash
  priceMultiple    : Nat
  filledBaseLots   : Nat
  selfFill         : Nat
  deriving DecidableEq

structure UserExecutionResult where
  orderId    : Nat
  assetIn    : AssetId
  lotsIn     : Nat
  assetOut   : AssetId
  lotsOut    : Nat
  filledSize : Nat

structure LimitFillResult where
  userOrder         : UserExecutionResult
  filledOrders      : List LimitOrder
  residualOrder     : Option ResidualOrder
  lastExecutedPrice : Option Nat

structure MarketSellResult where
  orderId           : Nat
  baseFilledLots    : Nat
  quoteLotsIn       : Nat
  selfFill          : Nat
  filledOrders      : List LimitOrder
  residualOrder     : Option ResidualOrder
  lastExecutedPrice : Option Nat

structure MarketBuyResult where
  orderId           : Nat
  quoteFilledLots   : Nat
  baseLotsIn        : Nat
  selfFill          : Nat
  filledOrders      : List LimitOrder
  residualOrder     : Option ResidualOrder
  lastExecutedPrice : Option Nat

inductive MarketOrderMatchingResults
  | sell (result : MarketSellResult)
  | buy (result : MarketBuyResult)

def MarketOrderMatchingResults.getLastExecutedPrice : MarketOrderMatchingResults → Option Nat
  | sell result => result.lastExecutedPrice
  | buy result  => result.lastExecutedPrice

inductive OrderChange
  | limit (orderId : Nat) (filledLots averageExecutionPrice : Nat)
  | market (orderId : Nat) (filledLots selfFill averageExecutionPrice : Nat)

structure ExecutionResults where
  filledOrders    : List LimitOrder
  residualOrder   : Option ResidualOrder
  userOrderChange : Option OrderChange

end Superliquid
