import Mathlib.Data.Finset.Insert
import Mathlib.Logic.Function.Basic
import Superliquid.Hotstuff.Replica
import Superliquid.State.Query

-- A node with its connections and its replica. The tasks of a node take turns at every `await`, and they
-- talk to the replica through a channel of bounded size.

namespace Superliquid.Service

inductive AppMessage
  | query
  | submitTransaction (txn : SignedTransaction)
  | response (txs : List SignedTransaction)
  | drip (publicKey : PublicKeyHash) (assetId : AssetId)
  | ack
  | accountQuery (publicKey : PublicKeyHash)
  | accountQueryResponse (info : AccountInfoWithBalances)
  | marketInfoQuery (marketId : MarketId)
  | marketInfoQueryResponse (info : Option MarketInfo)
  | marketsQuery
  | marketsQueryResponse (infos : List MarketInfo)
  | assetQuery
  | assetQueryResponse (assets : List Asset)

-- `End` is a keyword.
inductive ControlMessage
  | hello (peerId : PeerId)
  | terminate

inductive Message
  | connection (msg : ControlMessage)
  | application (msg : AppMessage)
  | hotStuff (msg : HotStuffMessage)

inductive Conn
  | client (id : Nat)
  | peer (id : Nat)
  deriving DecidableEq

-- The sender of a query is the connection that waits for the response.
inductive ReplicaInBound
  | hotStuff (msg : HotStuffMessage)
  | transaction (txn : SignedTransaction)
  | query (query : ClientQuery) (responseChannel : Conn)

-- A request of a client, with the number of blocks that the replica had executed when it was read and the
-- number of transactions that the node had noted.
structure Request where
  msg      : AppMessage
  executed : Nat
  noted    : Nat

-- What a query is made for.
inductive Purpose
  | client (request : Request)
  | drip (publicKey : PublicKeyHash) (assetId : AssetId)

-- Where the task of a connection stands. In `asking` and `forwarding` it waits for room in the channel to
-- the replica, and in `waiting` for the response. In `broadcasting` it has noted a transaction that it has not
-- sent to the peers yet. A task that has returned is `closed`.
inductive Stage
  | reading
  | asking (query : ClientQuery) (purpose : Purpose)
  | waiting (query : ClientQuery) (purpose : Purpose)
  | answered (query : ClientQuery) (purpose : Purpose) (response : ClientResponse) (executed : Nat)
  | broadcasting (txn : SignedTransaction)
  | forwarding (msg : ReplicaInBound)
  | closed
  | panicked

-- `requests` collects what the client asked for, and `written` what was sent to it, with the number of
-- blocks that the replica had executed when it gave the answer.
structure Connection where
  stage    : Stage
  requests : List Request
  written  : List (AppMessage × Nat)

def Connection.new : Connection where
  stage := .reading
  requests := []
  written := []

end Service

open Service

-- `broadcasts` and `outbox` collect what was sent to the peers by the node and by the replica, and `drips`
-- the transactions of the faucet. In `pending` is what the replica has yet to send before it goes on.
structure Service where
  faucetKey        : SigningKey
  capacity         : Nat
  transactions     : List SignedTransaction
  seenTransactions : Finset Sha256Hash
  broadcasts       : List SignedTransaction
  drips            : List (SignedTransaction × Nat)
  connections      : Conn → Connection
  mailbox          : List Service.ReplicaInBound
  task             : Task
  pending          : List Outbound
  outbox           : List Outbound

namespace Service

-- What a read from a connection returns: at the end of the stream there is no message.
inductive Incoming
  | message (msg : Message)
  | none
  | error

inductive Event
  | arrive (conn : Conn) (incoming : Incoming)
  | proceed (conn : Conn)
  | receive (order : HotStuffReplica.TallyOrder)
  | emit
  | timeout

variable [Sha256] [Ed25519]

def new (c : Config) (nodeId : PeerId) (faucetKey : SigningKey) : Service where
  faucetKey
  capacity := 1024
  transactions := []
  seenTransactions := ∅
  broadcasts := []
  drips := []
  connections := fun _ => .new
  mailbox := []
  task := .new c nodeId
  pending := []
  outbox := []

def setConnection (s : Service) (conn : Conn) (c : Connection) : Service :=
  { s with connections := Function.update s.connections conn c }

def setStage (s : Service) (conn : Conn) (stage : Stage) : Service :=
  s.setConnection conn { s.connections conn with stage }

def close (s : Service) (conn : Conn) : Service :=
  s.setStage conn .closed

def executed (s : Service) : Nat :=
  s.task.replica.applied.length

-- The receiver is dropped with the replica.
def replicaGone (s : Service) : Prop :=
  s.task.panicked ∧ s.pending = []

instance (s : Service) : Decidable s.replicaGone :=
  decidable_of_iff (s.task.panicked ∧ s.pending.isEmpty) (by simp [replicaGone])

-- `verify_sender` does nothing but panic. What is new is noted before other tasks get their turn, and it is
-- sent to the peers and handed over to the replica afterwards.
def handleTransaction (s : Service) (conn : Conn) (signedTx : SignedTransaction) : Service :=
  match signedTx.verifySender with
  | .error _ => s.setStage conn .panicked
  | .ok _    =>
    if signedTx.tx.hash ∉ s.seenTransactions then
      { s with
        seenTransactions := insert signedTx.tx.hash s.seenTransactions
        transactions := s.transactions ++ [signedTx] }.setStage conn (.broadcasting signedTx)
    else
      s.setStage conn .reading

def broadcastTransaction (s : Service) (conn : Conn) (txn : SignedTransaction) : Service :=
  { s with broadcasts := s.broadcasts ++ [txn] }.setStage conn (.forwarding (.transaction txn))

def write (s : Service) (conn : Conn) (msg : AppMessage) (executed : Nat) : Service :=
  let c := s.connections conn
  s.setConnection conn { c with stage := .reading, written := c.written ++ [(msg, executed)] }

-- The query that a request of a client stands for.
def queryOf : AppMessage → Option ClientQuery
  | .accountQuery publicKey   => some (.accountQuery publicKey)
  | .assetQuery               => some .assetQuery
  | .marketsQuery             => some .marketsQuery
  | .marketInfoQuery marketId => some (.marketInfoQuery marketId)
  | _                         => none

-- The answer to a query. A response of another kind is an error.
def replyTo : ClientQuery → ClientResponse → Option AppMessage
  | .accountQuery _, .accountQueryReponse info        => some (.accountQueryResponse info)
  | .assetQuery, .assetQueryResponse assets           => some (.assetQueryResponse assets)
  | .marketInfoQuery _, .marketInfoQueryResponse info => some (.marketInfoQueryResponse info)
  | .marketsQuery, .marketsQueryResponse infos        => some (.marketsQueryResponse infos)
  | _, _                                              => none

def noteRequest (s : Service) (conn : Conn) (request : Request) : Service :=
  let c := s.connections conn
  s.setConnection conn { c with requests := c.requests ++ [request] }

def faucet (s : Service) : PublicKeyHash :=
  (Ed25519.verifyingKey s.faucetKey).bytes

def dripAmount (assetId : AssetId) : Nat :=
  if assetId = 0 then
    1000000000
  else if assetId = 1 then
    500000000
  else
    0

-- The transaction that the faucet signs for a drip.
def dripTxn (s : Service) (publicKey : PublicKeyHash) (assetId : AssetId) (nonce : Nat) : SignedTransaction :=
  (UnsignedTransaction.transfer {
    target := publicKey
    source := s.faucet
    amount := dripAmount assetId
    assetId
    nonce
    status := .pending }).sign s.faucetKey

-- The end of `handle_drip`.
def handleDrip (s : Service) (conn : Conn) (publicKey : PublicKeyHash) (assetId : AssetId)
    (response : ClientResponse) (executed : Nat) : Service :=
  match response with
  | .accountQueryReponse info =>
    let dripTxn := s.dripTxn publicKey assetId info.accountInfo.expectedNonce
    { s with drips := s.drips ++ [(dripTxn, executed)] }.handleTransaction conn dripTxn
  | _ => s.close conn

-- One round of the loop, up to its first `await`.
def handleClientConnection (s : Service) (conn : Conn) (msg : Message) : Service :=
  match msg with
  | .application (.submitTransaction txn) => s.handleTransaction conn txn
  | .application .query =>
    let request := { msg := .query, executed := s.executed, noted := s.transactions.length }
    (s.noteRequest conn request).write conn (.response s.transactions) s.executed
  | .application (.drip publicKey assetId) =>
    s.setStage conn (.asking (.accountQuery s.faucet) (.drip publicKey assetId))
  | .application msg =>
    match queryOf msg with
    | some query =>
      let request := { msg, executed := s.executed, noted := s.transactions.length }
      (s.noteRequest conn request).setStage conn (.asking query (.client request))
    | none => s
  | .connection .terminate => s.close conn
  | _ => s

def handlePeerConnection (s : Service) (conn : Conn) (msg : Message) : Service :=
  match msg with
  | .hotStuff msg                         => s.setStage conn (.forwarding (.hotStuff msg))
  | .application (.submitTransaction txn) => s.handleTransaction conn txn
  | _                                     => s

-- At the end of the stream the task of a client reads on, while that of a peer returns.
def read (s : Service) (conn : Conn) : Incoming → Service
  | .error => s.close conn
  | .none =>
    match conn with
    | .client _ => s
    | .peer _   => s.close conn
  | .message msg =>
    match conn with
    | .client _ => s.handleClientConnection conn msg
    | .peer _   => s.handlePeerConnection conn msg

-- A message to the replica that leads to the stage `next`. Nothing happens as long as the channel is full.
def sendToReplica (s : Service) (conn : Conn) (msg : ReplicaInBound) (next : Stage) : Service :=
  if s.replicaGone then
    s.close conn
  else if s.mailbox.length < s.capacity then
    { s with mailbox := s.mailbox ++ [msg] }.setStage conn next
  else
    s

-- The task of a connection goes on where it waited for something else than a message.
def proceed (s : Service) (conn : Conn) : Service :=
  match (s.connections conn).stage with
  | .asking query purpose => s.sendToReplica conn (.query query conn) (.waiting query purpose)
  | .broadcasting txn     => s.broadcastTransaction conn txn
  | .forwarding msg       => s.sendToReplica conn msg .reading
  | .waiting _ _          => if s.replicaGone then s.close conn else s
  | .answered query purpose response executed =>
    match purpose with
    | .drip publicKey assetId => s.handleDrip conn publicKey assetId response executed
    | .client _ =>
      match replyTo query response with
      | some msg => s.write conn msg executed
      | none     => s.close conn
  | .reading | .closed | .panicked => s

-- The replica handles an event. What it sends on the way is still to be sent.
def handleEvent (s : Service) (e : Superliquid.Event) : Service :=
  let task := s.task.step e
  { s with task, pending := task.replica.repNodeChannel.drop s.task.replica.repNodeChannel.length }

-- The loop computes its timeout before it looks at the query.
def answerQuery (s : Service) (query : ClientQuery) (conn : Conn) : Service :=
  match s.task.replica.pacemaker.failedViews with
  | .error _ => { s with task := { s.task with panicked := true } }
  | .ok _ =>
    match (s.connections conn).stage with
    | .waiting _ purpose =>
      s.setStage conn (.answered query purpose (s.task.replica.ledgerState.handleQuery query) s.executed)
    | _ => s

def receive (s : Service) (order : HotStuffReplica.TallyOrder) : Service :=
  match s.mailbox with
  | []             => s
  | msg :: mailbox =>
    let s := { s with mailbox }
    match msg with
    | .hotStuff msg      => s.handleEvent (.hotStuff msg order)
    | .transaction txn   => s.handleEvent (.transaction txn)
    | .query query conn  => s.answerQuery query conn

-- The replica sends to itself through the same channel.
def emit (s : Service) : Service :=
  match s.pending with
  | [] => s
  | .sendToSelf msg :: pending =>
    if s.mailbox.length < s.capacity then
      { s with mailbox := s.mailbox ++ [.hotStuff msg], pending }
    else
      s
  | out :: pending => { s with outbox := s.outbox ++ [out], pending }

-- The replica is at the top of its loop.
def Listening (s : Service) : Prop :=
  s.task.panicked = false ∧ s.pending = []

instance (s : Service) : Decidable s.Listening :=
  decidable_of_iff (s.task.panicked = false ∧ s.pending.isEmpty) (by simp [Listening])

def step (s : Service) : Event → Service
  | .arrive conn incoming =>
    match (s.connections conn).stage with
    | .reading => s.read conn incoming
    | _        => s
  | .proceed conn  => s.proceed conn
  | .receive order => if s.Listening then s.receive order else s
  | .emit          => s.emit
  | .timeout       => if s.Listening then s.handleEvent .timeout else s

end Service
end Superliquid
