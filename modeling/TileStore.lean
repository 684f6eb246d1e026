import TileStore.Binary64
import TileStore.Binary64.Decimal
import TileStore.Cache
import TileStore.Carried
import TileStore.Catalogue
import TileStore.Counters
import TileStore.Digest
import TileStore.Entry
import TileStore.Hex
import TileStore.Identity
import TileStore.Journal
import TileStore.Key
import TileStore.KeySet
import TileStore.Ledger
import TileStore.Linked.Cache
import TileStore.Linked.Store
import TileStore.Mutation
import TileStore.Notice
import TileStore.Order
import TileStore.Payload
import TileStore.PowerOfTwo
import TileStore.Proofs.Abstraction
import TileStore.Proofs.Accounting
import TileStore.Proofs.Agenda
import TileStore.Proofs.Agreement
import TileStore.Proofs.Ahead
import TileStore.Proofs.Arguments
import TileStore.Proofs.Batches
import TileStore.Proofs.Binary64
import TileStore.Proofs.Bound
import TileStore.Proofs.Cache
import TileStore.Proofs.Circuit
import TileStore.Proofs.Contents
import TileStore.Proofs.Costs
import TileStore.Proofs.Counting
import TileStore.Proofs.Dates
import TileStore.Proofs.Discharge
import TileStore.Proofs.EventLog
import TileStore.Proofs.Events
import TileStore.Proofs.Eviction
import TileStore.Proofs.Fate
import TileStore.Proofs.Identity
import TileStore.Proofs.Indifference
import TileStore.Proofs.Key
import TileStore.Proofs.Ledger
import TileStore.Proofs.LifeCycle
import TileStore.Proofs.Linked.Cache
import TileStore.Proofs.Linked.Clock
import TileStore.Proofs.Linked.Coverage
import TileStore.Proofs.Linked.Fresh
import TileStore.Proofs.Linked.Lockstep
import TileStore.Proofs.Linked.Marks
import TileStore.Proofs.Linked.Order
import TileStore.Proofs.Linked.Past
import TileStore.Proofs.Linked.Ranks
import TileStore.Proofs.Linked.Slots
import TileStore.Proofs.Linked.Store
import TileStore.Proofs.Linked.Sweeps
import TileStore.Proofs.Linked.Timing
import TileStore.Proofs.Linked.Victims
import TileStore.Proofs.Lookups
import TileStore.Proofs.Marks
import TileStore.Proofs.Mutation
import TileStore.Proofs.Numbering
import TileStore.Proofs.Owners
import TileStore.Proofs.Partitions
import TileStore.Proofs.Placement
import TileStore.Proofs.PlainList
import TileStore.Proofs.Precedence
import TileStore.Proofs.Queue
import TileStore.Proofs.Reachable
import TileStore.Proofs.Recency
import TileStore.Proofs.RecencyMap
import TileStore.Proofs.Refinement
import TileStore.Proofs.Register
import TileStore.Proofs.Rejection
import TileStore.Proofs.Replacement
import TileStore.Proofs.Replay
import TileStore.Proofs.Rounding
import TileStore.Proofs.Run
import TileStore.Proofs.Scene
import TileStore.Proofs.Shard
import TileStore.Proofs.ShardCount
import TileStore.Proofs.Sharded.Cache
import TileStore.Proofs.Sharded.Division
import TileStore.Proofs.Sharded.Marks
import TileStore.Proofs.Sharded.Search
import TileStore.Proofs.Sharded.Store
import TileStore.Proofs.Sharded.Untracked
import TileStore.Proofs.Sharded.Victims
import TileStore.Proofs.Shelf
import TileStore.Proofs.Starts
import TileStore.Proofs.Tally
import TileStore.Proofs.Tandem
import TileStore.Proofs.Target
import TileStore.Proofs.Twins
import TileStore.Proofs.Upkeep
import TileStore.Proofs.Variant
import TileStore.Proofs.Vault
import TileStore.Proofs.Victims
import TileStore.Proofs.Views
import TileStore.Proofs.Watched
import TileStore.Rank
import TileStore.Recency
import TileStore.Rejection
import TileStore.Report
import TileStore.Scene
import TileStore.Settings
import TileStore.Settings.Document
import TileStore.Shard
import TileStore.Sharded.Cache
import TileStore.Sharded.Store
import TileStore.Vault
