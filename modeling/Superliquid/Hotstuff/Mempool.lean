import Superliquid.Lib.Map
import Superliquid.Types.Transaction

namespace Superliquid

-- The transactions of an account by nonce.
abbrev AccountQueue :=
  Map Nat SignedTransaction

abbrev PriorityIndex :=
  PublicKeyHash × Nat

-- The buckets of priority `Liquidation`, `Cancel` and `Other`. Nothing is ever put into the first.
structure PriorityMempool where
  length                  : Nat
  readyTransactionsLength : Nat
  accountQueues           : Map PublicKeyHash AccountQueue
  liquidation             : List PriorityIndex
  cancel                  : List PriorityIndex
  other                   : List PriorityIndex

namespace PriorityMempool

def new : PriorityMempool where
  length := 0
  readyTransactionsLength := 0
  accountQueues := ∅
  liquidation := []
  cancel := []
  other := []

def insert (m : PriorityMempool) (txn : SignedTransaction) (expectedNonce : Nat) :
    PriorityMempool :=
  let transactionNonce := txn.getNonce
  let transactionFrom := txn.getFromAccount
  if transactionNonce < expectedNonce then
    m
  else
    let account := (m.accountQueues.lookup transactionFrom).getD ∅
    let m :=
      if transactionNonce = expectedNonce then
        let m := { m with readyTransactionsLength := m.readyTransactionsLength + 1 }
        match txn.tx with
        | .transfer _ | .order _ => { m with other := m.other ++ [(transactionFrom, expectedNonce)] }
        | .cancelOrder _         => { m with cancel := m.cancel ++ [(transactionFrom, expectedNonce)] }
      else
        m
    { m with
      length := m.length + 1
      accountQueues := m.accountQueues.insert transactionFrom (account.insert transactionNonce txn) }

-- Removes the transactions under `keys` from their queues. A key whose transaction is gone is
-- skipped.
def popKeys (m : PriorityMempool) : List PriorityIndex → Checked (PriorityMempool × List SignedTransaction)
  | [] => return (m, [])
  | (pk, nonce) :: keys =>
    match m.accountQueues.lookup pk with
    | none => m.popKeys keys
    | some accountQueue =>
      match accountQueue.lookup nonce with
      | none => m.popKeys keys
      | some transaction => do
        let length ← Checked.sub m.length 1
        let readyTransactionsLength ← Checked.sub m.readyTransactionsLength 1
        let accountQueues := m.accountQueues.insert pk (accountQueue.erase nonce)
        let (m, transactions) ← { m with length, readyTransactionsLength, accountQueues }.popKeys keys
        return (m, transaction :: transactions)

def popNextN (m : PriorityMempool) (n : Nat) : Checked (PriorityMempool × List SignedTransaction) :=
  if m.readyTransactionsLength < n then
    { m with liquidation := [], cancel := [], other := [] }.popKeys
      (m.liquidation ++ m.cancel ++ m.other)
  else
    let fromLiquidation := min n m.liquidation.length
    let fromCancel := min (n - fromLiquidation) m.cancel.length
    let fromOther := min (n - fromLiquidation - fromCancel) m.other.length
    { m with
      liquidation := m.liquidation.drop fromLiquidation
      cancel := m.cancel.drop fromCancel
      other := m.other.drop fromOther }.popKeys
        (m.liquidation.take fromLiquidation ++ m.cancel.take fromCancel ++ m.other.take fromOther)

def updateAfterExecution (m : PriorityMempool) (accountNonces : List (Option (PublicKeyHash × Nat))) :
    PriorityMempool :=
  accountNonces.reduceOption.foldl promote m
where
  promote (m : PriorityMempool) (next : PublicKeyHash × Nat) : PriorityMempool :=
    match m.accountQueues.lookup next.1 with
    | none => m
    | some account =>
      if next.2 ∈ account then
        { m with
          other := m.other ++ [next]
          readyTransactionsLength := m.readyTransactionsLength + 1 }
      else
        m

end PriorityMempool
end Superliquid
