import Tesseract.Core.Error
import Tesseract.Core.Floats
import Tesseract.Core.StableSort
import Tesseract.Core.TopK
import Tesseract.L6Cluster.ShardManager

/-!
# The query coordinator

Model of `tesseract-cluster/src/query_coordinator.rs` and of the handler at the other
end of a remote search (`api.rs`): a query goes to the leader of every assigned shard,
and what comes back in time is merged.

The query, `ef` and the mask are only handed on, so a task is given what the storage
it reaches answers to them (`TaskEnv`), with the time it takes and what the network
does. The measured times of the results are left out: nothing reads them.
-/
namespace Tesseract.L6

variable {β : Type}

/-- mirrors tesseract-cluster/src/query_coordinator.rs:23-27 -/
structure ScoredShardResult (β : Type) where
  id : UInt64
  score : β
  deriving DecidableEq, Repr

/-- mirrors tesseract-cluster/src/query_coordinator.rs:30-36 -/
structure ShardResult (β : Type) where
  shardId : UInt64
  nodeId : String
  results : List (ScoredShardResult β)
  deriving DecidableEq, Repr

/-- `incomplete` is the field `partial`.
mirrors tesseract-cluster/src/query_coordinator.rs:39-47 -/
structure DistributedQueryResult (β : Type) where
  results : List (ScoredShardResult β)
  totalShards : Nat
  respondedShards : Nat
  incomplete : Bool
  deriving DecidableEq, Repr

/-! ## One shard -/

/-- `results.into_iter().map(|(id, score)| ScoredShardResult { id: id.0, score })` -/
def scored (results : List (UInt64 × β)) : List (ScoredShardResult β) :=
  results.map fun p => ⟨p.1, p.2⟩

/-- The status and the body a node answers a remote search with. `search` is what its
storage returns, if it has one.
mirrors tesseract-cluster/src/api.rs:288-306, query_coordinator.rs:302-312 -/
def internalSearchHandler (search : Option (Result (List (UInt64 × β)))) :
    Nat × List (ScoredShardResult β) :=
  match search with
  | none => (500, [])
  | some (.ok results) => (200, scored results)
  | some (.error _) => (500, [])

/-- What becomes of the request and of the response. -/
inductive Delivery where
  | sendFailed (text : String)
  /-- the body is no `RemoteSearchResponse` -/
  | garbled (text : String)
  | intact
  deriving DecidableEq, Repr

/-- What one task meets. -/
structure TaskEnv (β : Type) where
  /-- the assignments as the task reads them, an error if the lock is poisoned -/
  shards : Result ShardManager
  /-- what the local storage returns; `none` stands for a panic -/
  localSearch : Option (Result (List (UInt64 × β)))
  /-- what the storage of the leader returns, if the leader has one -/
  leaderSearch : Option (Result (List (UInt64 × β)))
  delivery : Delivery
  /-- milliseconds until the search has a result, if it ever has -/
  took : Option Nat

/-- A node's view of the cluster: its own id, the assignments and the addresses of the
nodes. -/
structure ClusterState where
  nodeId : String
  shards : Result ShardManager
  registry : AList fun _ : String => String

/-- The status of the response is not looked at.
mirrors tesseract-cluster/src/query_coordinator.rs:237-274 -/
def remoteSearch (c : ClusterState) (t : TaskEnv β) (leader : String) (shardId : UInt64) :
    Result (ShardResult β) :=
  match c.registry.lookup leader with
  | none => .error (.notFound ("leader node " ++ leader))
  | some addr =>
    match t.delivery with
    | .sendFailed e =>
      .error (.serviceError ("remote search request to " ++ addr ++ " failed: " ++ e))
    | .garbled e =>
      .error (.serviceError ("failed to parse remote search response from " ++ addr ++ ": " ++ e))
    | .intact => .ok ⟨shardId, leader, (internalSearchHandler t.leaderSearch).2⟩

/-- mirrors tesseract-cluster/src/query_coordinator.rs:214-234 -/
def localSearch (c : ClusterState) (t : TaskEnv β) (shardId : UInt64) :
    Option (Result (ShardResult β)) :=
  t.localSearch.map fun r => r.map fun results => ⟨shardId, c.nodeId, scored results⟩

/-- mirrors tesseract-cluster/src/query_coordinator.rs:188-211 -/
def searchShard (c : ClusterState) (t : TaskEnv β) (shardId : UInt64) :
    Option (Result (ShardResult β)) :=
  match t.shards with
  | .error e => some (.error e)
  | .ok shards =>
    match shards.getLeader shardId with
    | none => some (.error (.shardNotAssigned shardId))
    | some leader =>
      if leader = c.nodeId then localSearch c t shardId
      else some (remoteSearch c t leader shardId)

/-- What `handle.await` gives for a task under a timeout. -/
inductive TaskOutcome (β : Type) where
  | done (r : Result (ShardResult β))
  | elapsed
  | panicked

/-- mirrors tesseract-cluster/src/query_coordinator.rs:144-147 -/
def runTask (c : ClusterState) (timeout : Nat) (t : TaskEnv β) (shardId : UInt64) :
    TaskOutcome β :=
  match t.took with
  | none => .elapsed
  | some took =>
    if timeout < took then .elapsed
    else
      match searchShard c t shardId with
      | none => .panicked
      | some r => .done r

/-! ## Scatter and gather -/

/-- mirrors tesseract-cluster/src/query_coordinator.rs:122-127 -/
def perShardTimeout (queryTimeoutMs totalShards : Nat) : Option Nat → Nat
  | some withinMs => max 50 (withinMs / totalShards)
  | none => queryTimeoutMs

/-- `Ok(Ok(Ok(result)))` is kept, every other outcome is skipped.
mirrors tesseract-cluster/src/query_coordinator.rs:155-171 -/
def TaskOutcome.result : TaskOutcome β → Option (ShardResult β)
  | .done (.ok r) => some r
  | _ => none

/-- The results of the tasks of the given shards.
mirrors tesseract-cluster/src/query_coordinator.rs:130-172 -/
def gather (c : ClusterState) (timeout : Nat) (env : UInt64 → TaskEnv β)
    (leaders : List (UInt64 × String)) : List (ShardResult β) :=
  leaders.filterMap fun p => (runTask c timeout (env p.1) p.1).result

/-! ## Merge -/

variable [F32 β]

/-- `b.score.partial_cmp(&a.score).unwrap_or(Equal)` -/
def cmpScore (a b : ScoredShardResult β) : Ordering := (F32.partialCmp b.score a.score).getD .eq

/-- mirrors tesseract-cluster/src/query_coordinator.rs:281-295 -/
def mergeResults (S : StableSort (@cmpScore β _)) (results : List (ShardResult β))
    (limit : Nat) : List (ScoredShardResult β) :=
  let all := results.flatMap ShardResult.results
  (keepFirst ScoredShardResult.id [] (S.sort all)).take limit

/-- mirrors tesseract-cluster/src/query_coordinator.rs:98-185 -/
def search (S : StableSort (@cmpScore β _)) (rank : UInt64 → Nat) (queryTimeoutMs : Nat)
    (c : ClusterState) (env : UInt64 → TaskEnv β) (limit : Nat) (withinMs : Option Nat) :
    Result (DistributedQueryResult β) :=
  match c.shards with
  | .error e => .error e
  | .ok shards =>
    let leaders := shards.assignedLeaders rank
    if leaders.isEmpty then .error .allShardsFailed
    else
      let totalShards := leaders.length
      let timeout := perShardTimeout queryTimeoutMs totalShards withinMs
      let shardResults := gather c timeout env leaders
      if shardResults.isEmpty then .error .allShardsFailed
      else
        .ok ⟨mergeResults S shardResults limit, totalShards, shardResults.length,
          decide (shardResults.length < totalShards)⟩

end Tesseract.L6
