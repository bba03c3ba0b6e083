import Tesseract.L6Cluster.LeaderElection
import Tesseract.L6Cluster.Replication
import Tesseract.L6Cluster.ShardManager

/-!
# Failover

Model of `tesseract-cluster/src/failover.rs`: a node that follows a shard, has not heard
of its leader for too long and is not too far behind makes itself the leader. The clock
does not move during a call. The task that `start` spawns makes the same check again
and again.

* `promote_ok`: a promotion never fails.
* `checkAndFailover_ok`: a check promotes the node for the followed shards that are due,
  and changes nothing else.
-/
namespace Tesseract.L6

open Assoc

/-- The fields of `FailoverConfig` that a check reads.
mirrors tesseract-cluster/src/failover.rs:24-37 -/
structure FailoverConfig where
  electionTimeoutMs : UInt64 := 3000
  maxPromotionLag : UInt64 := 100
  deriving DecidableEq, Repr

/-- `u64::MAX` -/
def u64Max : UInt64 := 18446744073709551615

/-- mirrors tesseract-cluster/src/failover.rs:44-56 -/
structure FailoverManager where
  election : LeaderElection
  config : FailoverConfig
  nodeId : String
  shardManager : ShardManager
  replications : Map UInt64 ReplicationEngine

namespace FailoverManager

/-- mirrors tesseract-cluster/src/failover.rs:63-72 -/
def new (nodeId : String) (config : FailoverConfig) (shardManager : ShardManager) :
    FailoverManager :=
  ⟨.new nodeId config.electionTimeoutMs, config, nodeId, shardManager, ∅⟩

/-- mirrors tesseract-cluster/src/failover.rs:84-87 -/
def setReplicationEngine (m : FailoverManager) (shardId : UInt64)
    (replication : ReplicationEngine) : FailoverManager :=
  { m with replications := m.replications.insert shardId replication }

/-- mirrors tesseract-cluster/src/failover.rs:90-93 -/
def removeReplicationEngine (m : FailoverManager) (shardId : UInt64) : FailoverManager :=
  { m with replications := m.replications.erase shardId }

/-- mirrors tesseract-cluster/src/failover.rs:248-250 -/
def isEligibleForPromotion (m : FailoverManager) (replication : ReplicationEngine) : Bool :=
  (replication.replicationLag m.nodeId).getD u64Max ≤ m.config.maxPromotionLag

/-- mirrors tesseract-cluster/src/failover.rs:173-181,214-222 -/
def eligible (m : FailoverManager) (shardId : UInt64) : Bool :=
  match m.replications.lookup shardId with
  | some rep => m.isEligibleForPromotion rep
  | none => false

/-- mirrors tesseract-cluster/src/failover.rs:188-197,229-238 -/
def promote [EscapeTable] (m : FailoverManager) (now : Nat) (shardId : UInt64) :
    FailoverManager × Result Unit :=
  match (m.election.becomeCandidate shardId).winElection now shardId with
  | (election, .error e) => ({ m with election }, .error e)
  | (election, .ok ()) =>
    ({ m with election, shardManager := m.shardManager.assignShard shardId m.nodeId }, .ok ())

/-- mirrors tesseract-cluster/src/failover.rs:167-201 -/
def checkLoop [EscapeTable] (now : Nat) : List (UInt64 × String) → FailoverManager → List UInt64 →
    FailoverManager × Result (List UInt64)
  | [], m, promoted => (m, .ok promoted)
  | (shardId, _) :: rest, m, promoted =>
    if m.election.hasLeaderTimedOut shardId now = false then checkLoop now rest m promoted
    else if m.eligible shardId = false then checkLoop now rest m promoted
    else match m.promote now shardId with
      | (m, .error e) => (m, .error e)
      | (m, .ok ()) => checkLoop now rest m (promoted ++ [shardId])

/-- mirrors tesseract-cluster/src/failover.rs:162-204 -/
def checkAndFailover [EscapeTable] (m : FailoverManager) (rank : UInt64 → Nat) (now : Nat) :
    FailoverManager × Result (List UInt64) :=
  checkLoop now (m.election.myFollowerships rank) m []

/-- mirrors tesseract-cluster/src/failover.rs:212-242 -/
def promoteToLeader [EscapeTable] (m : FailoverManager) (now : Nat) (shardId : UInt64) :
    FailoverManager × Result Bool :=
  if m.eligible shardId = false then (m, .ok false)
  else match m.promote now shardId with
    | (m, .error e) => (m, .error e)
    | (m, .ok ()) => (m, .ok true)

/-- mirrors tesseract-cluster/src/failover.rs:255-270 -/
def promotionCandidates (m : FailoverManager) (rank : UInt64 → Nat) : List (UInt64 × Bool) :=
  (m.election.myFollowerships rank).map fun p => (p.1, m.eligible p.1)

/-! ## What a check does -/

/-- The leader has timed out, and this node may take over. -/
def due (m : FailoverManager) (now : Nat) (shardId : UInt64) : Bool :=
  m.election.hasLeaderTimedOut shardId now && m.eligible shardId

/-- `m'` is `m` made the leader of `shards`. -/
structure Promoted (m m' : FailoverManager) (shards : List UInt64) : Prop where
  nodeId : m'.nodeId = m.nodeId
  config : m'.config = m.config
  replications : m'.replications = m.replications
  timeout : m'.election.electionTimeoutMs = m.election.electionTimeoutMs
  state : ∀ s, m'.election.state s = if s ∈ shards then .leader else m.election.state s
  heartbeat : ∀ s, s ∉ shards →
    m'.election.lastLeaderHeartbeat.lookup s = m.election.lastLeaderHeartbeat.lookup s
  leader : ∀ s, m'.shardManager.getLeader s =
    if s ∈ shards then some m.nodeId else m.shardManager.getLeader s

theorem Promoted.refl (m : FailoverManager) : Promoted m m [] :=
  ⟨rfl, rfl, rfl, rfl, by simp, by simp, by simp⟩

theorem Promoted.trans {m m' m'' : FailoverManager} {ss ss' : List UInt64}
    (h : Promoted m m' ss) (h' : Promoted m' m'' ss') : Promoted m m'' (ss ++ ss') where
  nodeId := h'.nodeId.trans h.nodeId
  config := h'.config.trans h.config
  replications := h'.replications.trans h.replications
  timeout := h'.timeout.trans h.timeout
  state s := by
    rw [h'.state, h.state]
    by_cases hs : s ∈ ss <;> simp [hs]
  heartbeat s hs := by
    rw [List.mem_append, not_or] at hs
    rw [h'.heartbeat s hs.2, h.heartbeat s hs.1]
  leader s := by
    rw [h'.leader, h.leader, h.nodeId]
    by_cases hs : s ∈ ss <;> simp [hs]

/-- Whether another shard is due does not depend on the promotion. -/
theorem Promoted.due_eq {m m' : FailoverManager} {ss : List UInt64} (h : Promoted m m' ss)
    {now : Nat} {s : UInt64} (hs : s ∉ ss) : m'.due now s = m.due now s := by
  simp only [due, LeaderElection.hasLeaderTimedOut, eligible, isEligibleForPromotion,
    h.heartbeat s hs, h.timeout, h.replications, h.nodeId, h.config]

theorem promote_ok [EscapeTable] (m : FailoverManager) (now : Nat) (shardId : UInt64) :
    ∃ m', m.promote now shardId = (m', .ok ()) ∧ Promoted m m' [shardId] := by
  obtain ⟨e', hwin, -, htimeout, hstate, hheart⟩ :=
    m.election.winElection_candidate now shardId
  have hpromote : m.promote now shardId = ({ m with
      election := e', shardManager := m.shardManager.assignShard shardId m.nodeId }, .ok ()) := by
    simp only [promote, hwin]
  refine ⟨_, hpromote, rfl, rfl, rfl, htimeout, ?_, ?_, ?_⟩
  · intro s
    rw [hstate]
    simp only [List.mem_singleton]
  · intro s hs
    exact hheart s (by simpa using hs)
  · intro s
    simp only [ShardManager.getLeader, ShardManager.assignShard, lookup_insert_eq,
      List.mem_singleton]
    split <;> rfl

/-- The loop promotes the node for the shards that are due when it starts. -/
theorem checkLoop_ok [EscapeTable] (now : Nat) (rest : List (UInt64 × String)) (m : FailoverManager)
    (acc : List UInt64) (hnd : (rest.map Prod.fst).Nodup) :
    ∃ m', checkLoop now rest m acc =
        (m', .ok (acc ++ (rest.map Prod.fst).filter (m.due now))) ∧
      Promoted m m' ((rest.map Prod.fst).filter (m.due now)) := by
  induction rest generalizing m acc with
  | nil => exact ⟨m, by simp [checkLoop], by simpa using Promoted.refl m⟩
  | cons p rest ih =>
    obtain ⟨shardId, leaderId⟩ := p
    obtain ⟨hnot, hrest⟩ := List.nodup_cons.mp hnd
    cases hdue : m.due now shardId with
    | false =>
      obtain ⟨m', hloop, hm'⟩ := ih m acc hrest
      refine ⟨m', ?_, by simpa [hdue] using hm'⟩
      rw [List.map_cons, List.filter_cons_of_neg (by simp [hdue]), ← hloop, checkLoop]
      split
      · rfl
      · next htimed =>
        have helig : m.eligible shardId = false := by
          simpa [due, htimed] using hdue
        rw [if_pos helig]
    | true =>
      obtain ⟨m₁, hpromote, hm₁⟩ := m.promote_ok now shardId
      obtain ⟨m', hloop, hm'⟩ := ih m₁ (acc ++ [shardId]) hrest
      have hfilter : (rest.map Prod.fst).filter (m₁.due now) =
          (rest.map Prod.fst).filter (m.due now) := by
        apply List.filter_congr
        intro s hs
        refine hm₁.due_eq ?_
        rw [List.mem_singleton]
        rintro rfl
        exact hnot hs
      rw [hfilter] at hloop hm'
      obtain ⟨htimed, helig⟩ := (Bool.and_eq_true _ _).mp hdue
      refine ⟨m', ?_, by simpa [hdue] using hm₁.trans hm'⟩
      rw [List.map_cons, List.filter_cons_of_pos hdue, checkLoop, htimed, helig, hpromote]
      simpa using hloop

/-- The shards that a check promotes the node for: it follows them, and they are due. -/
def Takes (m : FailoverManager) (now : Nat) (s : UInt64) : Prop :=
  (∃ leaderId, m.election.state s = .follower leaderId) ∧ m.due now s = true

theorem checkAndFailover_ok [EscapeTable] (m : FailoverManager) (rank : UInt64 → Nat) (now : Nat) :
    ∃ m' promoted, m.checkAndFailover rank now = (m', .ok promoted) ∧
      Promoted m m' promoted ∧ ∀ s, s ∈ promoted ↔ m.Takes now s := by
  obtain ⟨m', hloop, hm'⟩ := checkLoop_ok now (m.election.myFollowerships rank) m []
    (m.election.nodup_myFollowerships rank)
  refine ⟨m', _, hloop, by simpa using hm', ?_⟩
  intro s
  simp only [List.nil_append, List.mem_filter, List.mem_map, Prod.exists, exists_and_right,
    exists_eq_right, LeaderElection.mem_myFollowerships]
  rfl

theorem promoteToLeader_ok [EscapeTable] (m : FailoverManager) (now : Nat) (shardId : UInt64) :
    ∃ m', m.promoteToLeader now shardId = (m', .ok (m.eligible shardId)) ∧
      Promoted m m' (if m.eligible shardId then [shardId] else []) := by
  unfold promoteToLeader
  cases helig : m.eligible shardId with
  | false => exact ⟨m, rfl, Promoted.refl m⟩
  | true =>
    obtain ⟨m', hpromote, hm'⟩ := m.promote_ok now shardId
    exact ⟨m', by simp [hpromote], hm'⟩

end FailoverManager

end Tesseract.L6
