import Tesseract.L2Wal.Concurrent
import Tesseract.L2Wal.Corruption
import Tesseract.L2Wal.Durability
import Tesseract.L2Wal.TxnIds
import Tesseract.L3Index.HnswConnected
import Tesseract.L3Index.HnswReplay
import Tesseract.L3Index.Merkle
import Tesseract.L3Store.ColdConcurrent
import Tesseract.L3Store.ColdSessions
import Tesseract.L3Store.ColdStore
import Tesseract.L3Store.HotStore
import Tesseract.L3Store.Topological
import Tesseract.L4Engine.Agreement
import Tesseract.L4Engine.Atomicity
import Tesseract.L4Engine.Completeness
import Tesseract.L4Engine.Insert
import Tesseract.L4Engine.Open
import Tesseract.L4Engine.Recovery
import Tesseract.L4Engine.Restart
import Tesseract.L4Engine.Search
import Tesseract.L4Engine.Tiering
import Tesseract.Core.Exact
import Tesseract.L3Store.Bias
import Tesseract.L3Store.BiasHistory
import Tesseract.Core.Moments
import Tesseract.L3Store.BiasExact
import Tesseract.L3Store.BiasCorrelation
import Tesseract.L3Store.CorrelationBounds
import Tesseract.L3Store.BiasBatch
import Tesseract.L3Store.BiasCategories
import Tesseract.L3Store.BucketCoverage
import Tesseract.L3Store.BiasNeutral
import Tesseract.L3Store.WeightedCentroid
import Tesseract.L4Engine.Bias
import Tesseract.L4Engine.GlobalCentroid
import Tesseract.Core.StableSort
import Tesseract.Core.TopK
import Tesseract.L6Cluster.QueryCoordinator
import Tesseract.L6Cluster.Coverage
import Tesseract.L4Engine.Rank
import Tesseract.L6Cluster.Ranking
import Tesseract.L5Vql.Ast
import Tesseract.L5Vql.Planner
import Tesseract.Core.Ties
import Tesseract.L5Vql.Executor
import Tesseract.L5Vql.MergePlan
import Tesseract.L5Vql.Pagination
import Tesseract.L5Vql.Filter
import Tesseract.L3Index.HnswScores
import Tesseract.L4Engine.Scores
import Tesseract.Core.Nom
import Tesseract.Core.Tokens
import Tesseract.L5Vql.Grammar
import Tesseract.L5Vql.Syntax
import Tesseract.L5Vql.Words
import Tesseract.L5Vql.Reads
import Tesseract.L5Vql.ClauseOrder
import Tesseract.L5Vql.Sound
import Tesseract.L5Vql.Unique
import Tesseract.L5Vql.Documented
import Tesseract.L5Vql.Display
import Tesseract.L5Vql.Printed
import Tesseract.L5Vql.RoundTrip
import Tesseract.L5Vql.WhereSound
import Tesseract.L6Cluster.Pending
import Tesseract.L6Cluster.Failover
import Tesseract.L6Cluster.Lag
import Tesseract.L6Cluster.Leadership
import Tesseract.L6Cluster.ClusterState
import Tesseract.L6Cluster.ReplicationHandler
import Tesseract.L3Index.MerkleHash
import Tesseract.L3Index.MerkleBuild
import Tesseract.L3Index.MerkleInvariant
import Tesseract.L3Index.MerkleTermination
import Tesseract.L3Index.MerkleMass
import Tesseract.L4Engine.Conservation
import Tesseract.L2Wal.Ordered
import Tesseract.Core.Wildcard
import Tesseract.L5Vql.Like
import Tesseract.Core.Rounding
import Tesseract.L5Vql.Predicates
import Tesseract.L3Index.Snapshot
import Tesseract.Core.SlidingWindow
import Tesseract.L7Api.RateLimiter
import Tesseract.L3Store.Eviction
import Tesseract.L3Index.WeightMask
import Tesseract.L3Store.Skeleton
import Tesseract.L6Cluster.Assignments
import Tesseract.L3Index.HnswNearest
import Tesseract.L3Index.HnswResults
import Tesseract.Core.HeapSort
import Tesseract.L3Index.HnswExact
import Tesseract.L3Index.HnswPanic
import Tesseract.L4Engine.Lookup
import Tesseract.L4Engine.FailedWrite
import Tesseract.L5Vql.Footprint
import Tesseract.L5Vql.Budget
import Tesseract.Core.Redelivery
import Tesseract.Core.ErrorText
import Tesseract.L6Cluster.Discovery
import Tesseract.L6Cluster.Heartbeats
import Tesseract.L6Cluster.Api
import Tesseract.L6Cluster.Replayed
import Tesseract.L6Cluster.Shipping
import Tesseract.L6Cluster.ReplicaStates
import Tesseract.L6Cluster.Routing
import Tesseract.L7Api.Auth
import Tesseract.L7Api.Server
import Tesseract.L6Cluster.Monitor
import Tesseract.L6Cluster.AssignmentText
import Tesseract.L7Api.Grpc
import Tesseract.Core.Decay
import Tesseract.L3Store.Episodic
import Tesseract.L3Store.Nearby
import Tesseract.L5Vql.Personal
import Tesseract.L4Engine.Recover
import Tesseract.L3Store.HotRuns
import Tesseract.L5Vql.Embedding
