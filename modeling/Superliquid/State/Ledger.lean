import Superliquid.State.Clearinghouse
import Superliquid.Types.Transaction

namespace Superliquid

structure AccountInfo where
  expectedNonce   : Nat
  openOrders      : List LimitOrder
  completedOrders : List Order

namespace AccountInfo

def new : AccountInfo where
  expectedNonce := 0
  openOrders := []
  completedOrders := []

def getOpenOrder (i : AccountInfo) (orderId : Nat) : Option LimitOrder :=
  i.openOrders.find? (·.common.id = orderId)

end AccountInfo

structure AssetDelta where
  account    : PublicKeyHash
  assetId    : AssetId
  amount     : Nat
  isIncrease : Bool

structure TransferDelta where
  assetIn    : AssetDelta
  assetOut   : AssetDelta
  nonceDelta : PublicKeyHash

structure LedgerState where
  accounts          : Map PublicKeyHash AccountInfo
  assetManager      : AssetManager
  orderManager      : OrderStateManager
  spotClearinghouse : SpotClearingHouse

namespace LedgerState

-- The faucet's public key comes from the environment.
def new (faucet : PublicKeyHash) : LedgerState where
  accounts := (∅ : Map PublicKeyHash AccountInfo).insert faucet .new
  assetManager := .new
  orderManager := .new
  spotClearinghouse := SpotClearingHouse.new.addFaucetAccount faucet |>.addMarket 0 1 "SUPE" "USD" 100 3

def getAccountInfoOrDefault (l : LedgerState) (publicKey : PublicKeyHash) : AccountInfo :=
  (l.accounts.lookup publicKey).getD .new

-- Updates an account, creating it if it does not exist.
def getAccountInfoMut (l : LedgerState) (publicKey : PublicKeyHash) (f : AccountInfo → AccountInfo) :
    LedgerState :=
  { l with accounts := l.accounts.insert publicKey (f (l.getAccountInfoOrDefault publicKey)) }

def isSelfCross (openOrders : List LimitOrder) (currDirection : OrderDirection) (currPrice : Nat) :
    Bool :=
  match currDirection with
  | .buy  => openOrders.any fun o => o.common.direction = .sell ∧ o.priceMultiple ≤ currPrice
  | .sell => openOrders.any fun o => o.common.direction = .buy ∧ currPrice ≤ o.priceMultiple

def setClearinghouseAccounts (l : LedgerState) (accounts : Accounts) : LedgerState :=
  { l with spotClearinghouse := { l.spotClearinghouse with accounts } }

def prepareTransferTransaction (l : LedgerState) (t : TransferTransaction) :
    LedgerState × Except ExecError TransferDelta :=
  let l := l.setClearinghouseAccounts (l.spotClearinghouse.accounts.getAccountBalanceMut t.source)
  let balances := (l.spotClearinghouse.accounts.lookup t.source).getD .new
  match balances.findAssetId t.assetId with
  | none => (l, .error (.insufficientFunds t.source 0 t.amount))
  | some balance =>
    if balance.availableBalance < t.amount then
      (l, .error (.insufficientFunds t.source balance.availableBalance t.amount))
    else
      (l.getAccountInfoMut t.target id, .ok {
        assetIn := { account := t.target, assetId := t.assetId, amount := t.amount, isIncrease := true }
        assetOut := { account := t.source, assetId := t.assetId, amount := t.amount, isIncrease := false }
        nonceDelta := t.source })

-- The sender's balance is taken by position, not by asset, and its total is left alone.
def debitTransfer (accounts : Accounts) (delta : AssetDelta) : Checked Accounts := do
  let balances := ((accounts.lookup delta.account).getD .new).assetBalances
  let balance ← Checked.index balances delta.assetId
  let balance ← balance.lock delta.amount
  return accounts.insert delta.account { assetBalances := balances.set delta.assetId balance }

def commitTransferTransaction (l : LedgerState) (delta : TransferDelta) :
    Checked (LedgerState × Nat) := do
  let expectedNonce ← U64.add (l.getAccountInfoOrDefault delta.nonceDelta).expectedNonce 1
  let l := l.getAccountInfoMut delta.nonceDelta ({ · with expectedNonce })
  let accounts ← debitTransfer l.spotClearinghouse.accounts delta.assetOut
  -- An asset that the receiver does not hold yet is pushed with the amount.
  let accounts ← accounts.getAccountTokenBalanceMut delta.assetIn.account delta.assetIn.assetId
    (AccountTokenBalance.credit delta.assetIn.amount)
  return (l.setClearinghouseAccounts accounts, expectedNonce)

def handleTransferTransaction (l : LedgerState) (t : TransferTransaction) :
    Checked (LedgerState × TransferTransaction × Option (PublicKeyHash × Nat)) := do
  let l := l.getAccountInfoMut t.source id
  let expectedNonce := (l.getAccountInfoOrDefault t.source).expectedNonce
  if t.nonce < expectedNonce then
    return (l, { t with status := .rejected "Duplicate Nonce" }, none)
  else if t.nonce > expectedNonce then
    return (l, { t with status := .rejected "Out of order nonce" }, none)
  else
    match l.prepareTransferTransaction t with
    | (l, .ok delta) =>
      let (l, expectedNonce) ← l.commitTransferTransaction delta
      return (l, { t with status := .executed }, some (t.source, expectedNonce))
    | (l, .error err) =>
      return (l, { t with status := .error err }, none)

-- The lookups that the order and the cancel handler both make, with the error of the first that
-- fails.
def marketPrecision (l : LedgerState) (marketId : MarketId) : Except ExecError MarketPrecision :=
  match l.spotClearinghouse.getQuoteBaseTickFromId marketId with
  | none => .error (.resourceNotFound (.market marketId))
  | some (quoteAsset, baseAsset, tick, tickDecimals) =>
    match l.assetManager.assets[quoteAsset]? with
    | none => .error (.resourceNotFound (.asset quoteAsset))
    | some quote =>
      match l.assetManager.assets[baseAsset]? with
      | none => .error (.resourceNotFound (.asset baseAsset))
      | some base => .ok {
          baseLotSize := base.lotSize, quoteLotSize := quote.lotSize, tick, tickDecimals }

-- Draws the next order id; a limit order is also entered into the account's open orders.
def createOrder (l : LedgerState) (t : OrderTransaction) : Checked (LedgerState × Order) :=
  match t.orderType with
  | .limit price size => do
    let (orderManager, order) ←
      l.orderManager.newLimitOrder t.marketId t.source t.direction price size
    let l := { l with orderManager }.getAccountInfoMut t.source
      fun i => { i with openOrders := i.openOrders ++ [order] }
    return (l, .limit order)
  | .market size => do
    let (orderManager, order) ← l.orderManager.newMarketOrder t.marketId t.source t.direction size
    return ({ l with orderManager }, .market order)

-- The submitting account's own record of its order.
def recordOrderChange (i : AccountInfo) (order : Order) : OrderChange → Checked AccountInfo
  | .limit orderId filledLots _ => do
    let index ← Checked.expect (i.openOrders.findIdx? (·.common.id = orderId))
      "No open order with order_id"
    let limitOrder ← Checked.index i.openOrders index
    let remainingSize ← limitOrder.getOrderRemaining
    if filledLots < remainingSize then
      let filledBaseLots ← U64.add limitOrder.filledBaseLots filledLots
      let limitOrder := { limitOrder with filledBaseLots, common.status := .partiallyFilled }
      return { i with openOrders := i.openOrders.set index limitOrder }
    else
      let limitOrder := { limitOrder with common.status := .filled }
      return { i with
        openOrders := i.openOrders.eraseIdx index
        completedOrders := i.completedOrders ++ [.limit limitOrder] }
  | .market _ filledLots selfFill averageExecutionPrice =>
    match order with
    | .market (.buy o) =>
      let status := if filledLots < o.quoteSize then .partiallyFilled else .filled
      let o := { o with
        filledSize := filledLots, averageExecutionPrice, selfFilled := selfFill, common.status := status }
      return { i with completedOrders := i.completedOrders ++ [.market (.buy o)] }
    | .market (.sell o) =>
      let status := if filledLots < o.baseSize then .partiallyFilled else .filled
      let o := { o with
        filledSize := filledLots, averageExecutionPrice, selfFilled := selfFill, common.status := status }
      return { i with completedOrders := i.completedOrders ++ [.market (.sell o)] }
    | .limit _ => return i

-- A filled maker order moves from the open to the completed orders of its account. Entries that are
-- not open any more are skipped.
def recordFilledOrder (i : AccountInfo) (filled : LimitOrder) : Checked AccountInfo := do
  match i.openOrders.findIdx? (·.common.id = filled.common.id) with
  | none       => return i
  | some index =>
    let removed ← Checked.index i.openOrders index
    let filledBaseLots ← Checked.sub removed.baseLots filled.selfFilled
    let removed := { removed with
      selfFilled := filled.selfFilled, filledBaseLots, common.status := .filled }
    return { i with
      openOrders := i.openOrders.eraseIdx index
      completedOrders := i.completedOrders ++ [.limit removed] }

def recordResidualOrder (i : AccountInfo) (r : ResidualOrder) : Checked AccountInfo := do
  let index ← Checked.expect (i.openOrders.findIdx? (·.common.id = r.orderId))
    "Cant find open order with order id"
  let order ← Checked.index i.openOrders index
  let filledBaseLots ← U64.add order.filledBaseLots r.filledBaseLots
  let selfFilled ← U64.add order.selfFilled r.selfFill
  return { i with openOrders := i.openOrders.set index { order with filledBaseLots, selfFilled } }

-- `get_account_info_mut` for an update that may panic.
def updateAccount (l : LedgerState) (publicKey : PublicKeyHash)
    (f : AccountInfo → Checked AccountInfo) : Checked LedgerState := do
  let info ← f (l.getAccountInfoOrDefault publicKey)
  return { l with accounts := l.accounts.insert publicKey info }

def recordUserOrder (l : LedgerState) (account : PublicKeyHash) (order : Order) :
    Option OrderChange → Checked LedgerState
  | some change => l.updateAccount account (recordOrderChange · order change)
  | none        => return l

def recordFilledOrders (l : LedgerState) (filledOrders : List LimitOrder) : Checked LedgerState :=
  filledOrders.foldlM (fun l filled =>
    l.updateAccount filled.common.account (recordFilledOrder · filled)) l

def recordResidual (l : LedgerState) : Option ResidualOrder → Checked LedgerState
  | some r => l.updateAccount r.accountPublicKey (recordResidualOrder · r)
  | none   => return l

-- An order that was turned down for lack of funds changes nothing here.
def recordResults (l : LedgerState) (account : PublicKeyHash) (order : Order) :
    Option ExecutionResults → Checked LedgerState
  | some results => do
    let l ← l.recordUserOrder account order results.userOrderChange
    let l ← l.recordFilledOrders results.filledOrders
    l.recordResidual results.residualOrder
  | none => return l

-- The last lines of the order and the cancel handler.
def bumpNonce (l : LedgerState) (account : PublicKeyHash) : Checked (LedgerState × Nat) := do
  let expectedNonce ← U64.add (l.getAccountInfoOrDefault account).expectedNonce 1
  return (l.getAccountInfoMut account ({ · with expectedNonce }), expectedNonce)

-- Only limit orders are checked.
def crossesOwnOrder (openOrders : List LimitOrder) (t : OrderTransaction) : Bool :=
  match t.orderType with
  | .limit price _ => isSelfCross openOrders t.direction price
  | .market _      => false

def handleOrderTransaction (l : LedgerState) (t : OrderTransaction) :
    Checked (LedgerState × OrderTransaction × Option (PublicKeyHash × Nat)) := do
  let l := l.getAccountInfoMut t.source id
  let info := l.getAccountInfoOrDefault t.source
  if t.nonce < info.expectedNonce then
    return (l, { t with status := .rejected "Duplicate nonce" }, none)
  else if t.nonce > info.expectedNonce then
    return (l, { t with status := .rejected "Out of order nonce" }, none)
  else if crossesOwnOrder info.openOrders t then
    return (l, { t with status := .rejected "Self Cross" }, none)
  else
    let (l, order) ← l.createOrder t
    match l.marketPrecision t.marketId with
    | .error err => return (l, { t with status := .error err }, none)
    | .ok precision =>
      let (spotClearinghouse, result) ← l.spotClearinghouse.handleOrder order precision
      let l ← { l with spotClearinghouse }.recordResults t.source order result
      let (l, expectedNonce) ← l.bumpNonce t.source
      return (l, { t with status := .executed }, some (t.source, expectedNonce))

def handleCancelOrderTransaction (l : LedgerState) (t : CancelOrderTransaction) :
    Checked (LedgerState × CancelOrderTransaction × Option (PublicKeyHash × Nat)) := do
  let info := l.getAccountInfoOrDefault t.source
  if t.nonce < info.expectedNonce then
    return (l, { t with status := .rejected "Duplicate nonce" }, none)
  else if t.nonce > info.expectedNonce then
    return (l, { t with status := .rejected "Out of order nonce" }, none)
  else
    match info.getOpenOrder t.orderId with
    | none => return (l, { t with status := .error (.resourceNotFound (.market t.marketId)) }, none)
    | some order =>
      match l.marketPrecision t.marketId with
      | .error err => return (l, { t with status := .error err }, none)
      | .ok precision =>
        let (spotClearinghouse, cancelled) ← l.spotClearinghouse.cancelOrder order precision
        let l := { l with spotClearinghouse }
        let account := l.getAccountInfoOrDefault t.source
        match cancelled, account.openOrders.findIdx? (·.common.id = order.common.id) with
        -- The `?` on a missing position; the status stays as it was.
        | true, none => return (l.getAccountInfoMut t.source id, t, none)
        | true, some pos =>
          let l := l.getAccountInfoMut t.source fun i => { i with
            openOrders := i.openOrders.eraseIdx pos
            completedOrders := i.completedOrders ++ [.limit order] }
          let (l, expectedNonce) ← l.bumpNonce t.source
          return (l, { t with status := .executed }, some (t.source, expectedNonce))
        | false, _ =>
          let (l, expectedNonce) ← l.bumpNonce t.source
          return (l, { t with status := .executed }, some (t.source, expectedNonce))

-- One round of the loop in `apply`.
def applyTransaction (l : LedgerState) (t : SignedTransaction) :
    Checked (LedgerState × SignedTransaction × Option (PublicKeyHash × Nat)) :=
  match t.tx with
  | .transfer transaction => do
    let (l, transaction, nonce) ← l.handleTransferTransaction transaction
    return (l, { t with tx := .transfer transaction }, nonce)
  | .order transaction => do
    let (l, transaction, nonce) ← l.handleOrderTransaction transaction
    return (l, { t with tx := .order transaction }, nonce)
  | .cancelOrder transaction => do
    let (l, transaction, nonce) ← l.handleCancelOrderTransaction transaction
    return (l, { t with tx := .cancelOrder transaction }, nonce)

-- Returns the transactions with the status each of them ended with.
def apply (l : LedgerState) :
    List SignedTransaction →
    Checked (LedgerState × List SignedTransaction × List (Option (PublicKeyHash × Nat)))
  | [] => return (l, [], [])
  | t :: ts => do
    let (l, t, nonce) ← l.applyTransaction t
    let (l, ts, nonces) ← l.apply ts
    return (l, t :: ts, nonce :: nonces)

end LedgerState
end Superliquid
