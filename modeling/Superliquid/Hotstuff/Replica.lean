import Mathlib.Data.Finset.Card
import Mathlib.Data.Finset.Range
import Superliquid.Hotstuff.Mempool
import Superliquid.Hotstuff.Message
import Superliquid.Hotstuff.Pacemaker
import Superliquid.Lib.Handler

namespace Superliquid

def blockTransactionLength : Nat := 16

-- What a replica reads from the environment. It refuses to start with a secret key that does not
-- belong to its public key.
structure Config [Ed25519] where
  numValidators : Nat
  faucet        : PublicKeyHash
  secretKey     : Nat → SigningKey
  publicKey     : Nat → VerifyingKey
  checked       : ∀ i < numValidators, Ed25519.verifyingKey (secretKey i) = publicKey i

def Config.validatorSet [Ed25519] (c : Config) : Finset VerifyingKey :=
  (Finset.range c.numValidators).image c.publicKey

-- The order in which a hash map lists its entries is not specified.
structure MapOrder (α : Type) where
  order : List α → List α
  perm  : ∀ l, (order l).Perm l

structure ViewProgress where
  leaderHasProposed : Bool
  replicaHasVoted   : Bool
  deriving DecidableEq

def ViewProgress.reset : ViewProgress where
  leaderHasProposed := false
  replicaHasVoted := false

inductive Outbound
  | sendToSelf (msg : HotStuffMessage)
  | broadcast (msg : HotStuffMessage)
  | sendToNode (nodeId : PeerId) (msg : HotStuffMessage)
  deriving DecidableEq

def Outbound.msg : Outbound → HotStuffMessage
  | sendToSelf msg   => msg
  | broadcast msg    => msg
  | sendToNode _ msg => msg

-- `repNodeChannel` collects what was sent so far, and `applied` the blocks that were handed to
-- `apply_block`, as they were at that time.
structure HotStuffReplica where
  nodeId                : PeerId
  validatorSet          : Finset VerifyingKey
  signingKey            : SigningKey
  genericQC             : QuorumCertificate
  lockedQC              : QuorumCertificate
  mempool               : PriorityMempool
  pendingTransactions   : Map Sha256Hash SignedTransaction
  committedTransactions : Map Sha256Hash SignedTransaction
  messages              : MessageWindow
  pacemaker             : Pacemaker
  repNodeChannel        : List Outbound
  blockstore            : Blockstore
  ledgerState           : LedgerState
  viewProgress          : ViewProgress
  applied               : List Block

namespace HotStuffReplica

variable [Sha256] [Ed25519]

def new (c : Config) (nodeId : PeerId) : HotStuffReplica where
  nodeId
  validatorSet := c.validatorSet
  signingKey := c.secretKey nodeId
  genericQC := .createGenesisQC
  lockedQC := .createGenesisQC
  mempool := .new
  pendingTransactions := ∅
  committedTransactions := ∅
  messages := .new 0
  pacemaker := .new c.numValidators
  repNodeChannel := []
  blockstore := (∅ : Blockstore).insert createGenesisBlock.hash createGenesisBlock
  ledgerState := .new c.faucet
  viewProgress := .reset
  applied := []

def voteMessage (r : HotStuffReplica) (node : Block) : HotStuffMessage :=
  .createVote node r.pacemaker.currView r.nodeId r.pacemaker.currView r.signingKey

def quorumThreshold (r : HotStuffReplica) : Checked Nat := do
  let n ← Checked.sub r.validatorSet.card 1
  return 2 * (n / 3) + 1

-- The iterator stops at the first transaction that fails.
def validateBlockTransactions (node : Block) : Checked Bool :=
  go node.transactions
where
  go : List SignedTransaction → Checked Bool
    | [] => return true
    | t :: ts => do
      if ← t.verifySender then go ts else return false

-- The votes of one view by block and message hash, each signer counted once.
structure Tally where
  seen : List PublicKeyHash
  sigs : Map (BlockHash × Sha256Hash) (List PartialSig)

def tallyVote (validatorSet : Finset VerifyingKey) (t : Tally) (message : HotStuffMessage) : Tally :=
  match message with
  | .vote node partialSig _ _ _ =>
    let signer := partialSig.signerId
    if signer ∉ validatorSet then t
    else if ¬Ed25519.verifyStrict signer message.hash partialSig.signature then t
    else if signer.bytes ∈ t.seen then t
    else
      let key := (node.hash, message.hash)
      { seen := signer.bytes :: t.seen
        sigs := t.sigs.insert key ((t.sigs.lookup key).getD [] ++ [partialSig]) }
  | _ => t

abbrev TallyOrder :=
  MapOrder (Σ _ : BlockHash × Sha256Hash, List PartialSig)

def tryCreateQCForView (r : HotStuffReplica) (order : TallyOrder) (view : Nat) :
    Checked (Option QuorumCertificate) := do
  match ← r.messages.getMessagesForView view with
  | none => return none
  | some msgs =>
    let tally := msgs.foldl (tallyVote r.validatorSet) { seen := [], sigs := ∅ }
    let quorum ← r.quorumThreshold
    match (order.order tally.sigs.entries).find? (quorum ≤ ·.2.length) with
    | none => return none
    | some ⟨(blockHash, messageHash), sigs⟩ =>
      some <$> QuorumCertificate.fromSignatures view blockHash messageHash sigs

def safeNode (r : HotStuffReplica) (block : Block) (qc : QuorumCertificate) : Bool :=
  block.extendsFrom r.lockedQC.blockHash r.blockstore ∨ r.lockedQC.viewNumber < qc.viewNumber

def getJustifiedBlock (r : HotStuffReplica) (block : Block) : Option Block :=
  match block.parentId with
  | some _ => r.blockstore.lookup block.justify.blockHash
  | none   => none

def store (r : HotStuffReplica) (block : Block) : HotStuffReplica :=
  { r with blockstore := r.blockstore.insert block.hash block }

def addBlockTransactionsToPending (r : HotStuffReplica) (block : Block) : HotStuffReplica :=
  { r with pendingTransactions :=
      block.transactions.foldl (fun m t => m.insert t.hash t) r.pendingTransactions }

def addBlockTransactionsToCommitted (r : HotStuffReplica) (block : Block) : HotStuffReplica :=
  { r with committedTransactions :=
      block.transactions.foldl (fun m t => m.insert t.hash t) r.committedTransactions }

def removeBlockTransactionsFromPending (r : HotStuffReplica) (block : Block) : HotStuffReplica :=
  { r with pendingTransactions :=
      block.transactions.foldl (fun m t => m.erase t.hash) r.pendingTransactions }

def createNewView (r : HotStuffReplica) : Checked HotStuffMessage := do
  let view ← Checked.sub r.pacemaker.currView 1
  return .newView r.genericQC view r.nodeId view

end HotStuffReplica

open HotStuffReplica Handler

abbrev ReplicaM :=
  Handler HotStuffReplica

namespace ReplicaM

variable [Sha256] [Ed25519]

def send (out : Outbound) : ReplicaM Unit :=
  modify fun r => { r with repNodeChannel := r.repNodeChannel ++ [out] }

def pushMessage (msg : HotStuffMessage) : ReplicaM Unit :=
  modify fun r => { r with messages := r.messages.push msg }

def pruneBeforeView (view : Nat) : ReplicaM Unit :=
  update fun r => do
    return ((), { r with messages := ← r.messages.pruneBeforeView view })

def selectTransactions : ReplicaM (List SignedTransaction) :=
  update fun r => do
    let (mempool, transactions) ← r.mempool.popNextN blockTransactionLength
    return (transactions, { r with mempool })

def setGenericQC (qc : QuorumCertificate) : ReplicaM Unit := do
  modify ({ · with genericQC := qc })
  pruneBeforeView qc.viewNumber

-- A leader that did not see the certificate of the last view takes the highest one it was sent.
def catchUp (currView : Nat) : ReplicaM Unit := do
  let r ← read id
  if r.genericQC.viewNumber ≠ currView - 1 then
    match r.messages.getHighestQCFromVotes with
    | some highQC =>
      if r.genericQC.viewNumber < highQC.viewNumber then setGenericQC highQC else return
    | none => return
  else
    return

def leaderPropose : ReplicaM (Option HotStuffMessage) := do
  let r ← read id
  match r.blockstore.lookup r.genericQC.blockHash with
  | none => return none
  | some parent =>
    let transactions ← selectTransactions
    let newBlock := Block.createLeaf parent transactions r.pacemaker.currView r.genericQC
    modify (·.store newBlock)
    return some (.proposal newBlock r.pacemaker.currView r.nodeId r.pacemaker.currView)

def leaderHandleMessage (order : TallyOrder) : ReplicaM (Option HotStuffMessage) := do
  let r ← read id
  let lastView ← Checked.sub r.pacemaker.currView 1
  let messages ← r.messages.getMessagesForView lastView
  let quorum ← r.quorumThreshold
  if hasQuorumForNewView messages lastView quorum then
    catchUp r.pacemaker.currView
    leaderPropose
  else if hasQuorumVotesForView messages lastView quorum then
    match ← r.tryCreateQCForView order lastView with
    | some qc => setGenericQC qc
    | none    => pure ()
    return none
  else
    return none

-- Executes a block. Its outcome is written to the block in the store.
def commit (key : BlockHash) (block : Block) : ReplicaM Unit := do
  modify fun r => { r with applied := r.applied ++ [block] }
  let (block, accountNonces) ← update fun r => do
    let (ledgerState, block, accountNonces) ← r.ledgerState.applyBlock block
    return ((block, accountNonces),
      { r with ledgerState, blockstore := r.blockstore.insert key block })
  modify (·.removeBlockTransactionsFromPending block)
  modify (·.addBlockTransactionsToCommitted block)
  modify fun r => { r with mempool := r.mempool.updateAfterExecution accountNonces }

-- `b := b′.justify.node`
def commitPhase (bPrime : Block) : ReplicaM Unit := do
  let r ← read id
  match r.getJustifiedBlock bPrime with
  | some b => if bPrime.isParent b then commit bPrime.justify.blockHash b else return
  | none   => return

-- `b′ := b″.justify.node`
def lockPhase (bDoublePrime : Block) : ReplicaM Unit := do
  let r ← read id
  match r.getJustifiedBlock bDoublePrime with
  | some bPrime =>
    if bDoublePrime.isParent bPrime then
      modify fun r => { r with
        lockedQC := bDoublePrime.justify
        pacemaker := r.pacemaker.setLastCommittedView bDoublePrime.justify.viewNumber }
      commitPhase bPrime
    else
      return
  | none => return

-- What follows the vote for `bStar`.
def adoptPhase (bStar bDoublePrime : Block) : ReplicaM Unit :=
  if bStar.isParent bDoublePrime then do
    setGenericQC bStar.justify
    lockPhase bDoublePrime
  else
    return

-- The checks on a proposal that is in the store, and the vote.
def checkProposal (bStar : Block) : ReplicaM (Option HotStuffMessage) := do
  let r ← read id
  -- `b″ := b*.justify.node`
  match r.getJustifiedBlock bStar with
  | none => return none
  | some bDoublePrime =>
    let quorum ← r.quorumThreshold
    if r.safeNode bStar bStar.justify ∧ bStar.justify.verify r.validatorSet quorum then
      if ¬(← validateBlockTransactions bStar) then
        return none
      else if bStar.hashBlockTransaction ≠ bStar.merkleRoot then
        return none
      else
        let vote := r.voteMessage bStar
        modify (·.addBlockTransactionsToPending bStar)
        adoptPhase bStar bDoublePrime
        return some vote
    else
      return none

-- The block is stored before it is checked.
def replicaHandleProposal (bStar : Block) (sender : PeerId) : ReplicaM (Option HotStuffMessage) := do
  let r ← read id
  if sender ≠ (← r.pacemaker.currentLeader) then
    return none
  else
    modify (·.store bStar)
    checkProposal bStar

-- The next leader moves on as soon as it has voted and holds a quorum of votes.
def replicaHandleVote : ReplicaM (Option HotStuffMessage) := do
  let r ← read id
  let currView := r.pacemaker.currView
  if r.nodeId ≠ (← r.pacemaker.getLeaderForView (← U64.add currView 1)) then
    return none
  else if ¬r.viewProgress.replicaHasVoted then
    return none
  else if ¬hasQuorumVotesForView (← r.messages.getMessagesForView currView) currView
      (← r.quorumThreshold) then
    return none
  else
    let pacemaker ← r.pacemaker.advanceView
    modify ({ · with pacemaker })
    let newView ← { r with pacemaker }.createNewView
    return some newView

def replicaHandleMessage (msg : HotStuffMessage) : ReplicaM (Option HotStuffMessage) :=
  match msg with
  | .newView ..             => return none
  | .proposal node _ sender _ => replicaHandleProposal node sender
  | .vote ..                => replicaHandleVote

-- Moves to the view of a message that is ahead.
def syncView (msg : HotStuffMessage) : ReplicaM Unit := do
  let r ← read id
  let (pacemaker, advanced) := r.pacemaker.fastForwardView msg.getViewNumber
  if advanced then
    modify ({ · with pacemaker, viewProgress := .reset })
    if (← pacemaker.currentLeader) = r.nodeId then
      send (.sendToSelf (← { r with pacemaker }.createNewView))
    else
      return
  else
    return

-- Who a message is handled for: a leader handles its own proposal as a replica.
inductive Role
  | leader
  | replica
  deriving DecidableEq

-- The first lines of `handle_message`.
def receive (msg : HotStuffMessage) : ReplicaM Unit := do
  syncView msg
  let _ ← U64.add msg.getViewNumber 1
  pushMessage msg

-- The part of `handle_message` that decides what the replica logic gets to see.
def select (order : TallyOrder) (msg : HotStuffMessage) : ReplicaM (Option (Role × HotStuffMessage)) := do
  receive msg
  let r ← read id
  if (← r.pacemaker.currentLeader) = r.nodeId ∧ ¬r.viewProgress.leaderHasProposed then
    match ← leaderHandleMessage order with
    | none => return none
    | some leaderMsg =>
      send (.broadcast leaderMsg)
      modify fun r => { r with viewProgress := { r.viewProgress with leaderHasProposed := true } }
      pushMessage leaderMsg
      return some (.leader, leaderMsg)
  else
    return some (.replica, msg)

def setVoted (r : HotStuffReplica) : HotStuffReplica :=
  { r with viewProgress := { r.viewProgress with replicaHasVoted := true } }

-- The part of `handle_message` that sends the answer to the leader of the view after `currView`.
def reply (currView : Nat) (out : HotStuffMessage) : Role → ReplicaM Unit
  | .leader => do
    let r ← read id
    let nextLeader ← r.pacemaker.getLeaderForView (← U64.add r.pacemaker.currView 1)
    send (.sendToNode nextLeader out)
    modify setVoted
  | .replica => do
    let r ← read id
    let nextLeader ← r.pacemaker.getLeaderForView (← U64.add currView 1)
    modify setVoted
    if r.nodeId = nextLeader then
      send (.sendToSelf out)
    else
      send (.sendToNode nextLeader out)

def handleSelected (role : Role) (msg : HotStuffMessage) : ReplicaM Unit := do
  let currView ← read (·.pacemaker.currView)
  match ← replicaHandleMessage msg with
  | none     => return
  | some out => reply currView out role

def handleMessage (order : TallyOrder) (msg : HotStuffMessage) : ReplicaM Unit := do
  match ← select order msg with
  | none             => return
  | some (role, msg) => handleSelected role msg

def handleTransaction (txn : SignedTransaction) : ReplicaM Unit :=
  modify fun r =>
    let accountInfo := r.ledgerState.getAccountInfoOrDefault txn.getFromAccount
    { r with mempool := r.mempool.insert txn accountInfo.expectedNonce }

def advanceView : ReplicaM Unit := do
  let r ← read id
  let pacemaker ← r.pacemaker.advanceView
  modify ({ · with pacemaker, viewProgress := .reset })
  let leader ← pacemaker.currentLeader
  let outboundMsg ← { r with pacemaker }.createNewView
  if r.nodeId = leader then
    send (.sendToSelf outboundMsg)
  else
    send (.sendToNode leader outboundMsg)

end ReplicaM

-- What wakes up the loop of a replica. Queries only read the ledger.
inductive Event
  | hotStuff (msg : HotStuffMessage) (order : TallyOrder)
  | transaction (txn : SignedTransaction)
  | timeout

section

variable [Sha256] [Ed25519]

-- One round of the loop, which starts by computing the timeout.
def ReplicaM.runReplica (e : Event) : ReplicaM Unit := do
  let _ ← (← read (·.pacemaker.failedViews) : Checked Nat)
  match e with
  | .hotStuff msg order => ReplicaM.handleMessage order msg
  | .transaction txn    => ReplicaM.handleTransaction txn
  | .timeout            => ReplicaM.advanceView

-- A replica in its task. After a panic the task is gone.
structure Task where
  replica  : HotStuffReplica
  panicked : Bool

namespace Task

def new (c : Config) (nodeId : PeerId) : Task where
  replica := .new c nodeId
  panicked := false

def step (t : Task) (e : Event) : Task :=
  if t.panicked then
    t
  else
    match ReplicaM.runReplica e t.replica with
    | (.ok _, replica)    => { replica, panicked := false }
    | (.error _, replica) => { replica, panicked := true }

end Task
end
end Superliquid
