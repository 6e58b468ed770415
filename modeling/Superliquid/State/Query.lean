import Superliquid.State.Ledger

namespace Superliquid

structure AccountInfoWithBalances where
  accountInfo  : AccountInfo
  spotBalances : AccountBalance

def AccountInfoWithBalances.default : AccountInfoWithBalances where
  accountInfo := .new
  spotBalances := .new

inductive ClientQuery
  | accountQuery (publicKey : PublicKeyHash)
  | assetQuery
  | marketInfoQuery (marketId : MarketId)
  | marketsQuery

inductive ClientResponse
  | accountQueryReponse (info : AccountInfoWithBalances)
  | assetQueryResponse (assets : List Asset)
  | marketInfoQueryResponse (info : Option MarketInfo)
  | marketsQueryResponse (infos : List MarketInfo)

namespace SpotClearingHouse

def getAccountBalance (c : SpotClearingHouse) (publicKey : PublicKeyHash) : Option AccountBalance :=
  c.accounts.lookup publicKey

def getMarkets (c : SpotClearingHouse) : List MarketInfo :=
  c.markets.map SpotMarket.getMarketInfo

end SpotClearingHouse

namespace LedgerState

def getAssetInfo (l : LedgerState) : List Asset :=
  l.assetManager.assets

def getMarketInfo (l : LedgerState) (marketId : MarketId) : Option MarketInfo :=
  l.spotClearinghouse.getMarketInfoFromId marketId

def getMarkets (l : LedgerState) : List MarketInfo :=
  l.spotClearinghouse.getMarkets

def getAccountInfoWithBalances (l : LedgerState) (publicKey : PublicKeyHash) : Option AccountInfoWithBalances := do
  let accountInfo ← l.accounts.lookup publicKey
  let spotBalances ← l.spotClearinghouse.getAccountBalance publicKey
  return { accountInfo, spotBalances }

-- Without balances, what is known of the account otherwise is not reported either.
def getAccountInfoWithBalancesOrDefault (l : LedgerState) (publicKey : PublicKeyHash) : AccountInfoWithBalances :=
  (l.getAccountInfoWithBalances publicKey).getD .default

def handleQuery (l : LedgerState) : ClientQuery → ClientResponse
  | .accountQuery publicKey    => .accountQueryReponse (l.getAccountInfoWithBalancesOrDefault publicKey)
  | .assetQuery                => .assetQueryResponse l.getAssetInfo
  | .marketInfoQuery marketId  => .marketInfoQueryResponse (l.getMarketInfo marketId)
  | .marketsQuery              => .marketsQueryResponse l.getMarkets

end LedgerState
end Superliquid
