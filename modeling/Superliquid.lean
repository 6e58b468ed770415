import Superliquid.Lib.Checked
import Superliquid.Lib.Floor
import Superliquid.Lib.Handler
import Superliquid.Lib.Steps
import Superliquid.Lib.Search
import Superliquid.Lib.Map
import Superliquid.Lib.Lineage
import Superliquid.Lib.Voting
import Superliquid.Lib.Merkle
import Superliquid.State.Order
import Superliquid.State.Market
import Superliquid.State.Clearinghouse
import Superliquid.Types.Crypto
import Superliquid.Types.Transaction
import Superliquid.Types.Theorems.Authenticity
import Superliquid.State.Ledger
import Superliquid.State.Query
import Superliquid.Hotstuff.Crypto
import Superliquid.Hotstuff.Block
import Superliquid.Hotstuff.Merkle
import Superliquid.Hotstuff.Message
import Superliquid.Hotstuff.MessageWindow
import Superliquid.Hotstuff.Mempool
import Superliquid.Hotstuff.Pacemaker
import Superliquid.Hotstuff.Replica
import Superliquid.Hotstuff.Theorems.Digests
import Superliquid.Hotstuff.Theorems.Merkle
import Superliquid.Hotstuff.Theorems.Certificate
import Superliquid.Hotstuff.Theorems.Proposal
import Superliquid.Hotstuff.Theorems.Leader
import Superliquid.Hotstuff.Theorems.Step
import Superliquid.Hotstuff.Theorems.Lock
import Superliquid.Hotstuff.Theorems.Votes
import Superliquid.Hotstuff.Theorems.Store
import Superliquid.Hotstuff.Theorems.Bodies
import Superliquid.Hotstuff.Theorems.Execution
import Superliquid.Hotstuff.Theorems.Network
import Superliquid.Hotstuff.Theorems.Agreement
import Superliquid.Hotstuff.Theorems.Routine
import Superliquid.Hotstuff.Theorems.Propose
import Superliquid.Hotstuff.Theorems.Senders
import Superliquid.Hotstuff.Theorems.Window
import Superliquid.Hotstuff.Theorems.Provenance
import Superliquid.Hotstuff.Theorems.NewViews
import Superliquid.Hotstuff.Theorems.Views
import Superliquid.Hotstuff.Theorems.Trust
import Superliquid.Hotstuff.Theorems.Quorum
import Superliquid.Hotstuff.Theorems.Progress
import Superliquid.Hotstuff.Theorems.Following
import Superliquid.Hotstuff.Theorems.Rounds
import Superliquid.Hotstuff.Theorems.Justify
import Superliquid.Hotstuff.Theorems.Mempool
import Superliquid.Hotstuff.Theorems.Batches
import Superliquid.Hotstuff.Theorems.Pool
import Superliquid.Hotstuff.Theorems.Replay
import Superliquid.Hotstuff.Theorems.Replication
import Superliquid.Network.Stream
import Superliquid.Network.Theorems.Framing
import Superliquid.Node.Handler
import Superliquid.Node.Service
import Superliquid.Node.Peering
import Superliquid.Node.Cluster
import Superliquid.Node.Mesh
import Superliquid.Node.Theorems.Admission
import Superliquid.Node.Theorems.Turns
import Superliquid.Node.Theorems.Blocking
import Superliquid.Node.Theorems.Sessions
import Superliquid.Node.Theorems.Drips
import Superliquid.Node.Theorems.Duplex
import Superliquid.Node.Theorems.Gossip
import Superliquid.Node.Theorems.Refinement
import Superliquid.Node.Theorems.Delivery
import Superliquid.Node.Theorems.Polling
import Superliquid.Node.Theorems.Liveness
import Superliquid.State.Theorems.Balances
import Superliquid.State.Theorems.Matching
import Superliquid.State.Theorems.Settlement
import Superliquid.State.Theorems.Fills
import Superliquid.State.Theorems.Book
import Superliquid.State.Theorems.Orders
import Superliquid.State.Theorems.Crossing
import Superliquid.State.Theorems.Levels
import Superliquid.State.Theorems.Handlers
import Superliquid.State.Theorems.Records
import Superliquid.State.Theorems.Nonces
import Superliquid.State.Theorems.Clearing
import Superliquid.State.Theorems.Rounding
import Superliquid.State.Theorems.Funds
import Superliquid.State.Theorems.Panics
import Superliquid.State.Theorems.Conservation
import Superliquid.State.Theorems.Sound
import Superliquid.State.Theorems.Exchange
import Superliquid.State.Theorems.Coverage
import Superliquid.State.Theorems.Expects
import Superliquid.State.Theorems.Divisors
import Superliquid.State.Theorems.Counters
import Superliquid.State.Theorems.Cancelling
import Superliquid.State.Theorems.Undoing
import Superliquid.State.Theorems.Naive
import Superliquid.State.Theorems.Priority
import Superliquid.State.Theorems.Transfers
import Superliquid.State.Theorems.Traces
import Superliquid.State.Theorems.Backing
import Superliquid.State.Theorems.Unlocking
import Superliquid.State.Theorems.Spending
import Superliquid.State.Theorems.Limits
import Superliquid.State.Theorems.Pieces
import Superliquid.State.Theorems.History
import Superliquid.State.Theorems.Truthful
import Superliquid.State.Theorems.Queries
