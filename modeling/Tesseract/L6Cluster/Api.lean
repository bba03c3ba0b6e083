import Tesseract.Core.ErrorText
import Tesseract.L6Cluster.ClusterState
import Tesseract.L6Cluster.Discovery
import Tesseract.L6Cluster.ReplicationHandler

/-!
# The HTTP endpoints of a cluster node

Model of the handlers of `tesseract-cluster/src/api.rs` that read or write something: an
insert is taken to the leader of its shard, over the network if that is another node, and
the internal endpoints work on the storage of the node they are called on. A response is
its status with its body. What comes back from another node is given (`Forwarded`).
-/
namespace Tesseract.L6

open L3 L3.Serde L4 Assoc

variable {α β : Type} [F64 α] [F32 β] [Narrow α β]

/-- The state of the cluster without the registry is `cluster`.
mirrors tesseract-cluster/src/api.rs:32-37, cluster.rs:34-40 -/
structure ClusterApiState (α β : Type) [F64 α] where
  cluster : Cluster.ClusterState
  registry : NodeRegistry
  storage : Option (Engine α β)

/-- mirrors tesseract-cluster/src/api.rs:54-60 -/
structure PromotionCandidate where
  shardId : UInt64
  currentLeader : String
  candidateNode : String
  eligible : Bool
  replicationLag : UInt64
  deriving DecidableEq, Repr

/-- mirrors tesseract-cluster/src/api.rs:64-68,80-84 -/
abbrev InsertRequest (α : Type) [F64 α] := VectorBody α

/-- mirrors tesseract-cluster/src/api.rs:72-76 -/
abbrev InsertResponse := InsertReport

/-- mirrors tesseract-cluster/src/api.rs:88-91 -/
structure InternalInsertResponse where
  success : Bool
  error : Option String
  deriving DecidableEq, Repr

namespace ClusterApiState

def nodeId (c : ClusterApiState α β) : String := c.cluster.identity.nodeId

/-- The shard manager, which the failover manager shares. -/
def shards (c : ClusterApiState α β) : ShardManager := c.cluster.failover.shardManager

/-- mirrors tesseract-cluster/src/shard_manager.rs:113-115 -/
def myShards (rank : UInt64 → Nat) (c : ClusterApiState α β) : List UInt64 :=
  c.shards.shardsWith rank fun a => a.leader = c.shards.nodeId ∨ c.shards.nodeId ∈ a.replicas

/-- mirrors tesseract-cluster/src/cluster.rs:60-70 -/
def join (c : ClusterApiState α β) (now : Millis) : ClusterApiState α β × Result Unit :=
  let ownedShards := (c.myShards UInt64.toNat).insertionSort fun a b => a ≤ b
  let info := NodeInfo.new c.nodeId c.cluster.identity.addr ownedShards now
  let (registry, r) := c.registry.register info
  ({ c with registry }, r)

/-- mirrors tesseract-cluster/src/cluster.rs:75-78 -/
def leave (c : ClusterApiState α β) : ClusterApiState α β :=
  { c with registry := c.registry.removeNode c.nodeId }

/-- mirrors tesseract-cluster/src/api.rs:120-124 -/
def listNodes (c : ClusterApiState α β) (rank : String → Nat) : List NodeInfo :=
  (c.registry.allNodes rank).insertionSort fun a b => a.nodeId ≤ b.nodeId

/-- mirrors tesseract-cluster/src/api.rs:127-136 -/
def getShardAssignment (c : ClusterApiState α β) (rank : UInt64 → Nat) : List ShardAssignment :=
  ((c.shards.assignedLeaders rank).map fun p => ⟨p.1, p.2, []⟩).insertionSort fun a b =>
    a.shardId ≤ b.shardId

/-- The followed shards are those of the reported election object, the eligibility is that
of the failover manager.
mirrors tesseract-cluster/src/api.rs:160-178 -/
def promotionCandidates (c : ClusterApiState α β) (rank : UInt64 → Nat) :
    List PromotionCandidate :=
  let candidates := c.cluster.failover.promotionCandidates rank
  ((c.cluster.leaderElection.myFollowerships rank).map fun p =>
    ⟨p.1, p.2, c.nodeId,
      ((candidates.find? fun q => q.1 == p.1).map Prod.snd).getD false, 0⟩).insertionSort fun a b =>
    a.shardId ≤ b.shardId

/-! ## Inserts -/

/-- mirrors tesseract-cluster/src/api.rs:227-228,323-324 -/
def storageCall (env : Env) (req : InsertRequest α) : Call α := req.call env

/-- mirrors tesseract-cluster/src/api.rs:309-330 -/
def internalInsertHandler (P : Deps α) (env : Env) (c : ClusterApiState α β)
    (req : InsertRequest α) :
    Option (ClusterApiState α β × Nat × InternalInsertResponse) :=
  match c.storage with
  | none => some (c, 500, ⟨false, some "local storage not available"⟩)
  | some storage =>
    (storage.insert P (storageCall env req)).map fun p =>
      match p with
      | (storage, .ok ()) => ({ c with storage := some storage }, 201, ⟨true, none⟩)
      | (storage, .error e) => ({ c with storage := some storage }, 400, ⟨false, some e.text⟩)

/-- Where an insert goes. -/
inductive Route where
  /-- no node can be named -/
  | refused (text : String)
  | here
  | there (leader addr : String)
  deriving DecidableEq, Repr

/-- mirrors tesseract-cluster/src/api.rs:192-211,236-249 -/
def leaderRoute (c : ClusterApiState α β) (shardId : UInt64) : Route :=
  match c.shards.getLeader shardId with
  | none => .refused s!"shard {shardId.toNat} has no leader assigned"
  | some leader =>
    if leader = c.nodeId then .here
    else match c.registry.getNode leader with
      | none => .refused s!"leader {leader} for shard {shardId.toNat} not found in registry"
      | some n => .there leader n.addr

/-- `none`: the shard is not found in any number of rounds (`shardFor_lt`: there is none
such).
mirrors tesseract-cluster/src/api.rs:185-190 -/
def route (c : ClusterApiState α β) (id : UInt64) : Option Route :=
  (c.shards.shardFor id).map c.leaderRoute

/-- What comes back from the node an insert was sent to. -/
inductive Forwarded where
  | sendFailed (text : String)
  /-- the body is no `InternalInsertResponse` -/
  | garbled (text : String)
  | answered (response : InternalInsertResponse)
  deriving DecidableEq, Repr

/-- The status of the response is not looked at.
mirrors tesseract-cluster/src/api.rs:256-281 -/
def Forwarded.response (leader addr : String) (id : UInt64) : Forwarded → Nat × InsertResponse
  | .answered r => (if r.success then 201 else 400, ⟨r.success, id, r.error⟩)
  | .garbled e => (502, ⟨false, id, some s!"failed to parse response from leader {leader}: {e}"⟩)
  | .sendFailed e =>
    (502, ⟨false, id, some s!"failed to forward insert to leader {leader} at {addr}: {e}"⟩)

/-- mirrors tesseract-cluster/src/api.rs:212-234 -/
def insertHere (P : Deps α) (env : Env) (c : ClusterApiState α β) (req : InsertRequest α) :
    Option (ClusterApiState α β × Nat × InsertResponse) :=
  match c.storage with
  | none => some (c, 500, ⟨false, req.id, some "local storage not available"⟩)
  | some storage =>
    (storage.insert P (storageCall env req)).map fun p =>
      match p with
      | (storage, .ok ()) => ({ c with storage := some storage }, 201, ⟨true, req.id, none⟩)
      | (storage, .error e) =>
        ({ c with storage := some storage }, 400, ⟨false, req.id, some e.text⟩)

/-- `forward` is what the leader's end makes of the request, if it is asked.
mirrors tesseract-cluster/src/api.rs:198-283 -/
def insertAlong (P : Deps α) (env : Env) (forward : Forwarded) (c : ClusterApiState α β)
    (req : InsertRequest α) :
    Option Route → Option (ClusterApiState α β × Nat × InsertResponse)
  | none => none
  | some (.refused text) => some (c, 503, ⟨false, req.id, some text⟩)
  | some .here => c.insertHere P env req
  | some (.there leader addr) => some (c, forward.response leader addr req.id)

/-- mirrors tesseract-cluster/src/api.rs:181-283 -/
def handleForwardInsert (P : Deps α) (env : Env) (forward : Forwarded)
    (c : ClusterApiState α β) (req : InsertRequest α) :
    Option (ClusterApiState α β × Nat × InsertResponse) :=
  c.insertAlong P env forward req (c.route req.id)

/-! ## Replication -/

/-- mirrors tesseract-cluster/src/api.rs:333-365 -/
def internalReplicateHandler (P : Deps α) (env : OpenEnv) (entries : List ReplicationEntry)
    (storage : Option (Engine α β)) :
    Option (Option (Engine α β) × Nat × ReplicationResponse) :=
  match storage with
  | none => some (none, 500, ⟨false, 0, some "local storage not available"⟩)
  | some storage =>
    (handleReplicate P env entries storage).map fun p =>
      match p with
      | (storage, .ok resp) => (some storage, 200, resp)
      | (storage, .error e) => (some storage, 500, ⟨false, 0, some e.text⟩)

end ClusterApiState

end Tesseract.L6
