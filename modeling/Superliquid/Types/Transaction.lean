import Superliquid.Types.Crypto

namespace Superliquid

abbrev BlockHash := Sha256Hash

inductive Resource
  | market (id : MarketId)
  | asset (id : AssetId)
  deriving DecidableEq

inductive ExecError
  | insufficientFunds (source : PublicKeyHash) (have_ need : Nat)
  | resourceNotFound (resource : Resource)
  deriving DecidableEq

inductive TransactionStatus
  | executed
  | rejected (reason : String)
  | error (error : ExecError)
  | pending
  deriving DecidableEq

-- `from` and `to` are keywords, hence `source` and `target`.
structure TransferTransaction where
  source  : PublicKeyHash
  target  : PublicKeyHash
  amount  : Nat
  assetId : AssetId
  status  : TransactionStatus
  nonce   : Nat
  deriving DecidableEq

structure OrderTransaction where
  source    : PublicKeyHash
  marketId  : MarketId
  direction : OrderDirection
  orderType : OrderType
  status    : TransactionStatus
  nonce     : Nat
  deriving DecidableEq

structure CancelOrderTransaction where
  source   : PublicKeyHash
  marketId : MarketId
  orderId  : Nat
  status   : TransactionStatus
  nonce    : Nat
  deriving DecidableEq

inductive UnsignedTransaction
  | transfer (transaction : TransferTransaction)
  | order (transaction : OrderTransaction)
  | cancelOrder (transaction : CancelOrderTransaction)
  deriving DecidableEq

-- The transaction with another status.
def UnsignedTransaction.withStatus (status : TransactionStatus) :
    UnsignedTransaction → UnsignedTransaction
  | transfer t    => transfer { t with status }
  | order t       => order { t with status }
  | cancelOrder t => cancelOrder { t with status }

structure SignedTransaction where
  tx        : UnsignedTransaction
  signature : SignatureString
  hash      : Sha256Hash
  deriving DecidableEq

namespace SignedTransaction

def getFromAccount (t : SignedTransaction) : PublicKeyHash :=
  match t.tx with
  | .transfer transaction    => transaction.source
  | .order transaction       => transaction.source
  | .cancelOrder transaction => transaction.source

def getNonce (t : SignedTransaction) : Nat :=
  match t.tx with
  | .transfer transaction    => transaction.nonce
  | .order transaction       => transaction.nonce
  | .cancelOrder transaction => transaction.nonce

def getStatus (t : SignedTransaction) : TransactionStatus :=
  match t.tx with
  | .transfer transaction    => transaction.status
  | .order transaction       => transaction.status
  | .cancelOrder transaction => transaction.status

end SignedTransaction

section

variable [Digest UnsignedTransaction]

def UnsignedTransaction.hash (tx : UnsignedTransaction) : Sha256Hash :=
  digest tx

variable [Ed25519]

def UnsignedTransaction.sign (tx : UnsignedTransaction) (signingKey : SigningKey) :
    SignedTransaction where
  tx
  signature := .sigToString (Ed25519.sign signingKey tx.hash)
  hash := tx.hash

-- A public key makes a round trip through its hexadecimal string before it is used.
def asPublicKey (bytes : PublicKeyHash) : Checked VerifyingKey :=
  Checked.expect (Ed25519.fromBytes bytes) "Expect to be public key"

-- What the three branches below share.
def verifySignature (account : PublicKeyHash) (txHash : Sha256Hash) (signature : SignatureString) :
    Checked Bool := do
  let publicKey ← asPublicKey account
  let signature ← Checked.expect signature.stringToSig "Conversion from string to signature failed"
  return Ed25519.verifyStrict publicKey txHash signature

-- A transfer is checked against the hash that it carries, the other two against the hash of the
-- transaction itself (`self.hash()` derefs to the unsigned transaction).
def SignedTransaction.verifySender (t : SignedTransaction) : Checked Bool :=
  match t.tx with
  | .transfer transaction    => verifySignature transaction.source t.hash t.signature
  | .order transaction       => verifySignature transaction.source t.tx.hash t.signature
  | .cancelOrder transaction => verifySignature transaction.source t.tx.hash t.signature

end
end Superliquid
