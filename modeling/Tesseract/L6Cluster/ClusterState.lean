import Tesseract.L6Cluster.Failover

/-!
# The cluster state of a node

Model of `tesseract-cluster/src/cluster.rs` and of the endpoints of `api.rs` that report
what a node leads. `ClusterState::new` makes two election objects: its own
`leader_election`, which the endpoints read, and one inside the failover manager, which
the checks and promotions change. The node registry is left out but for the number of
active nodes in it.

* `Agree`: the two say the same of every shard (`Agree.mem_shards`: the endpoints then
  report what the failover manager leads).
* `agree_iff`: a run keeps them in agreement just when no call changes an election state.
* `promotion_unreported`: a node is promoted, and its health endpoint denies it.
-/
namespace Tesseract.L6.Cluster

/-- mirrors tesseract-cluster/src/cluster.rs:15-18 -/
structure NodeIdentity where
  nodeId : String
  addr : String
  deriving DecidableEq, Repr

/-- The shard manager is the one of `failover`, which shares it.
mirrors tesseract-cluster/src/cluster.rs:34-40 -/
structure ClusterState where
  identity : NodeIdentity
  leaderElection : LeaderElection
  failover : FailoverManager

/-- mirrors tesseract-cluster/src/api.rs:43-50 -/
structure ClusterHealth where
  nodeId : String
  status : String
  activeNodes : Nat
  totalShards : Nat
  leaderships : Nat
  followerships : Nat
  deriving DecidableEq, Repr

/-- mirrors tesseract-cluster/src/api.rs:95-99 -/
structure InternalHealthResponse where
  nodeId : String
  isLeader : Bool
  shards : List UInt64
  deriving DecidableEq, Repr

namespace ClusterState

/-- mirrors tesseract-cluster/src/cluster.rs:47-54 -/
def new (identity : NodeIdentity) (shardManager : ShardManager) : ClusterState :=
  ⟨identity, .new identity.nodeId 3000, .new identity.nodeId {} shardManager⟩

/-- mirrors tesseract-cluster/src/api.rs:139-157 -/
def clusterHealth (c : ClusterState) (rank : UInt64 → Nat) (activeNodes : Nat) :
    ClusterHealth where
  nodeId := c.identity.nodeId
  status := "healthy"
  activeNodes := activeNodes
  totalShards := c.failover.shardManager.assignments.keys.length
  leaderships := (c.leaderElection.myLeaderships rank).length
  followerships := (c.leaderElection.myFollowerships rank).length

/-- mirrors tesseract-cluster/src/api.rs:368-374 -/
def internalHealthHandler (c : ClusterState) (rank : UInt64 → Nat) : InternalHealthResponse :=
  let leaderships := c.leaderElection.myLeaderships rank
  ⟨c.identity.nodeId, !leaderships.isEmpty, leaderships⟩

/-- The two election objects say the same of every shard. -/
def Agree (c : ClusterState) : Prop :=
  ∀ s, c.leaderElection.state s = c.failover.election.state s

/-- In agreement the health endpoint reports the shards that the failover manager leads. -/
theorem Agree.mem_shards {c : ClusterState} (h : c.Agree) (rank : UInt64 → Nat) (s : UInt64) :
    s ∈ (c.internalHealthHandler rank).shards ↔ c.failover.election.state s = .leader := by
  rw [internalHealthHandler, LeaderElection.mem_myLeaderships, h s]

/-! ## Any sequence of calls -/

/-- Which of the two election objects. -/
inductive Side where
  | reported
  | failover
  deriving DecidableEq, Repr

def election (c : ClusterState) : Side → LeaderElection
  | .reported => c.leaderElection
  | .failover => c.failover.election

def setElection (c : ClusterState) (e : LeaderElection) : Side → ClusterState
  | .reported => { c with leaderElection := e }
  | .failover => { c with failover := { c.failover with election := e } }

inductive Call where
  | heartbeat (side : Side) (shardId : UInt64)
  | setLeader (side : Side) (shardId : UInt64) (leaderId : String)
  | checkAndFailover (rank : UInt64 → Nat)
  | promoteToLeader (shardId : UInt64)
  | setReplicationEngine (shardId : UInt64) (replication : ReplicationEngine)
  | removeReplicationEngine (shardId : UInt64)
  | elapse (time : Nat)

/-- A node and its clock, in nanoseconds. -/
structure Node where
  now : Nat
  cluster : ClusterState

def Node.call [EscapeTable] (n : Node) : Call → Node
  | .heartbeat side s => { n with
      cluster := n.cluster.setElection
        ((n.cluster.election side).recordLeaderHeartbeat n.now s) side }
  | .setLeader side s leaderId => { n with
      cluster := n.cluster.setElection ((n.cluster.election side).setLeader s leaderId) side }
  | .checkAndFailover rank => { n with cluster := { n.cluster with
      failover := (n.cluster.failover.checkAndFailover rank n.now).1 } }
  | .promoteToLeader s => { n with cluster := { n.cluster with
      failover := (n.cluster.failover.promoteToLeader n.now s).1 } }
  | .setReplicationEngine s replication => { n with cluster := { n.cluster with
      failover := n.cluster.failover.setReplicationEngine s replication } }
  | .removeReplicationEngine s => { n with cluster := { n.cluster with
      failover := n.cluster.failover.removeReplicationEngine s } }
  | .elapse t => { n with now := n.now + t }

def system [EscapeTable] : LTS Node Call :=
  .ofFn (fun n => ∃ identity shardManager, n.cluster = .new identity shardManager)
    fun n call => some (n.call call)

/-- The call changes no election state: what it announces is what is recorded, the check
takes nothing over, and the promotion is refused or of a leader. -/
def Unchanging (n : Node) : Call → Prop
  | .setLeader side s leaderId => (n.cluster.election side).state s = .follower leaderId
  | .checkAndFailover _ => ∀ s, ¬ n.cluster.failover.Takes n.now s
  | .promoteToLeader s =>
    n.cluster.failover.eligible s = true → n.cluster.failover.election.state s = .leader
  | _ => True

theorem state_check [EscapeTable] (m : FailoverManager) (rank : UInt64 → Nat) (now : Nat)
    (s : UInt64) :
    (m.Takes now s → (m.checkAndFailover rank now).1.election.state s = .leader) ∧
    (¬ m.Takes now s → (m.checkAndFailover rank now).1.election.state s = m.election.state s) := by
  obtain ⟨m', promoted, hcheck, hm', htakes⟩ := m.checkAndFailover_ok rank now
  rw [hcheck, hm'.state, ← htakes]
  exact ⟨fun h => if_pos h, fun h => if_neg h⟩

theorem state_promote [EscapeTable] (m : FailoverManager) (now : Nat) (shardId s : UInt64) :
    (m.promoteToLeader now shardId).1.election.state s =
      if m.eligible shardId = true ∧ s = shardId then .leader else m.election.state s := by
  obtain ⟨m', hpromote, hm'⟩ := m.promoteToLeader_ok now shardId
  rw [hpromote, hm'.state]
  cases m.eligible shardId <;> simp

theorem Agree.call [EscapeTable] {n : Node} (hn : n.cluster.Agree) {call : Call}
    (hc : Unchanging n call) : (n.call call).cluster.Agree := by
  intro s
  have hs := hn s
  cases call with
  | heartbeat side shardId => cases side <;> exact hs
  | setLeader side shardId leaderId =>
    cases side with
    | reported =>
      simp only [Node.call, setElection, election, LeaderElection.state_setLeader]
      split
      · next heq =>
        rw [← hs, heq]
        exact hc.symm
      · exact hs
    | failover =>
      simp only [Node.call, setElection, election, LeaderElection.state_setLeader]
      split
      · next heq =>
        rw [hs, heq]
        exact hc
      · exact hs
  | checkAndFailover rank =>
    exact hs.trans ((state_check n.cluster.failover rank n.now s).2 (hc s)).symm
  | promoteToLeader shardId =>
    simp only [Node.call, state_promote]
    split
    · next h => rw [hs, h.2, hc h.1]
    · exact hs
  | setReplicationEngine | removeReplicationEngine | elapse => exact hs

/-- A call that keeps the agreement changed nothing: it changes one of the two only. -/
theorem Agree.unchanging [EscapeTable] {n : Node} (hn : n.cluster.Agree) {call : Call}
    (hagree : (n.call call).cluster.Agree) : Unchanging n call := by
  cases call with
  | setLeader side shardId leaderId =>
    have hnew := hagree shardId
    have hold := hn shardId
    cases side with
    | reported =>
      simp only [Node.call, setElection, election, LeaderElection.state_setLeader] at hnew
      exact hold.trans hnew.symm
    | failover =>
      simp only [Node.call, setElection, election, LeaderElection.state_setLeader] at hnew
      exact hold.symm.trans hnew
  | checkAndFailover rank =>
    intro s htakes
    have hnew : n.cluster.leaderElection.state s = .leader :=
      (hagree s).trans ((state_check n.cluster.failover rank n.now s).1 htakes)
    obtain ⟨leaderId, hfollow⟩ := htakes.1
    rw [hn s, hfollow] at hnew
    cases hnew
  | promoteToLeader shardId =>
    intro helig
    have hnew := hagree shardId
    simp only [Node.call, state_promote, helig] at hnew
    exact (hn shardId).symm.trans hnew
  | _ => trivial

theorem agree_guards [EscapeTable] :
    system.Guards Unchanging (fun n => n.cluster.Agree) fun n => n.cluster.Agree where
  init n hn := by
    obtain ⟨identity, shardManager, hnew⟩ := hn
    intro s
    rw [hnew]
    rfl
  holds n hn := hn
  keeps n call n' hn hst hc := by
    obtain rfl := Option.some.inj hst
    exact hn.call hc
  exact n call n' hn hst hagree := by
    obtain rfl := Option.some.inj hst
    exact hn.unchanging hagree

/-- The runs in which the endpoints and the failover manager always agree are those in
which no call changes an election state. -/
theorem agree_iff [EscapeTable] {n₀ : Node} (h0 : system.init n₀) (calls : List Call) (n : Node) :
    ((system.restrict Unchanging).Run n₀ calls n → n.cluster.Agree) ∧
      ((system.within fun n => n.cluster.Agree).Run n₀ calls n ↔
        (system.restrict Unchanging).Run n₀ calls n) :=
  ⟨fun h => agree_guards.reachable n ⟨n₀, calls, h0, h⟩, agree_guards.run_iff h0⟩

attribute [local instance] EscapeTable.ascii

/-- A new node "b". -/
def start : Node := ⟨0, .new ⟨"b", "127.0.0.1:9001"⟩ (.new "b")⟩

/-- Heartbeats and a check that takes nothing over. -/
theorem agree_heartbeats : ∃ n : Node, n.cluster.Agree ∧ n.now = 4000000000 := by
  have hnone : ∀ n : Node, n.cluster.failover.election.shardStates = ∅ →
      ∀ s, ¬ n.cluster.failover.Takes n.now s := by
    intro n hn s htakes
    obtain ⟨leaderId, hfollow⟩ := htakes.1
    rw [LeaderElection.state, hn] at hfollow
    cases hfollow
  have hrun : (system.restrict Unchanging).Run start [.heartbeat .reported 0, .elapse 4000000000,
      .heartbeat .failover 0, .checkAndFailover fun _ => 0] _ :=
    .cons ⟨rfl, trivial⟩ (.cons ⟨rfl, trivial⟩ (.cons ⟨rfl, trivial⟩
      (.cons ⟨rfl, hnone _ rfl⟩ (.nil _))))
  exact ⟨_, (agree_iff ⟨_, _, rfl⟩ _ _).1 hrun, rfl⟩

/-- The node follows shard 0, as both election objects have been told. After four seconds
without a heartbeat the check makes it the leader; its health endpoint says that it leads
nothing. -/
theorem promotion_unreported :
    ∃ n, system.Reachable n ∧ n.cluster.failover.election.state 0 = .leader ∧
      n.cluster.leaderElection.state 0 = .follower "a" ∧
      n.cluster.internalHealthHandler (fun _ => 0) = ⟨"b", false, []⟩ ∧ ¬ n.cluster.Agree := by
  let engine := (ReplicationEngine.new 0 {}).addReplica "b" "127.0.0.1:9002"
  have hrun : system.Run start [.setLeader .reported 0 "a", .setLeader .failover 0 "a",
      .setReplicationEngine 0 engine, .heartbeat .failover 0, .elapse 4000000000,
      .checkAndFailover fun _ => 0] _ :=
    .cons rfl (.cons rfl (.cons rfl (.cons rfl (.cons rfl (.cons rfl (.nil _))))))
  exact ⟨_, ⟨start, _, ⟨_, _, rfl⟩, hrun⟩, by decide +kernel, by decide +kernel,
    by decide +kernel, fun h => absurd (h 0) (by decide +kernel)⟩

end ClusterState

end Tesseract.L6.Cluster
