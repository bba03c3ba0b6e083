import Tesseract.Core.LTS
import Tesseract.L6Cluster.Failover

/-!
# Well-formed assignments

The assignments behind any run of `assign_shard`, `add_replica`, `remove_node` and
promotions. `assign_shard` preserves the replicas whoever becomes the leader, and
`add_replica` only looks for the replica among the replicas
(`tesseract-cluster/src/shard_manager.rs:54-74`).

* `filed_inductive`: every assignment stays under its own shard, without a replica twice.
* `apart_guards`: which operations keep the leader apart from its replicas.
* `assignments_wellFormed`: both over whole runs.
* `checkAndFailover_run`: a failover check is a run of promotions.
-/
namespace Tesseract.L6

open Assoc

inductive Operation where
  | assign (shardId : UInt64) (leader : String)
  | addReplica (shardId : UInt64) (replica : String)
  | removeNode (rank : UInt64 → Nat) (nodeId : String)
  /-- `nodeId` becomes the leader by failover. -/
  | promote (shardId : UInt64) (nodeId : String)

namespace ShardManager

def operate (m : ShardManager) : Operation → ShardManager
  | .assign shardId leader => m.assignShard shardId leader
  | .addReplica shardId replica => (m.addReplica shardId replica).1
  | .removeNode rank nodeId => (m.removeNode rank nodeId).1
  | .promote shardId nodeId => m.assignShard shardId nodeId

def operations (nodeId : String) : LTS ShardManager Operation :=
  .ofFn (· = new nodeId) fun m op => some (m.operate op)

/-- Every assignment is under its shard, and has no replica twice. -/
def Filed (m : ShardManager) : Prop :=
  ∀ i a, m.assignments.lookup i = some a → a.shardId = i ∧ a.replicas.Nodup

/-- No leader is one of its own replicas. -/
def Apart (m : ShardManager) : Prop :=
  ∀ i a, m.assignments.lookup i = some a → a.leader ∉ a.replicas

/-- The operation gives no shard a leader that is one of its replicas, and no leader as a
replica. -/
def KeepsApart (m : ShardManager) : Operation → Prop
  | .assign shardId leader => ∀ a ∈ m.assignments.lookup shardId, leader ∉ a.replicas
  | .addReplica shardId replica => ∀ a ∈ m.assignments.lookup shardId, replica ≠ a.leader
  | .removeNode _ _ => True
  | .promote shardId nodeId => ∀ a ∈ m.assignments.lookup shardId, nodeId ∉ a.replicas

/-! ## One operation -/

/-- The replicas of a shard, none where it is not assigned. -/
def replicasOf (m : ShardManager) (shardId : UInt64) : List String :=
  ((m.assignments.lookup shardId).map ShardAssignment.replicas).getD []

theorem assignShard_lookup (m : ShardManager) (shardId : UInt64) (leader : String) (i : UInt64) :
    (m.assignShard shardId leader).assignments.lookup i =
      if i = shardId then some ⟨shardId, leader, m.replicasOf shardId⟩
      else m.assignments.lookup i := by
  simp only [assignShard, replicasOf]
  exact lookup_insert_eq _ _ _ _

/-- A known shard has one replica more, unless it had that one. -/
theorem addReplica_lookup (m : ShardManager) (shardId : UInt64) (replica : String) (i : UInt64) :
    (m.addReplica shardId replica).1.assignments.lookup i =
      if i = shardId then (m.assignments.lookup i).map fun a =>
        if replica ∈ a.replicas then a else { a with replicas := a.replicas ++ [replica] }
      else m.assignments.lookup i := by
  unfold addReplica
  cases ha : m.assignments.lookup shardId with
  | none => exact lookup_eq_map (by rw [ha, Option.map_none]) i
  | some a =>
    by_cases hin : replica ∈ a.replicas
    · simp only [if_pos hin]
      exact lookup_eq_map (by rw [ha, Option.map_some, if_pos hin]) i
    · simp only [if_neg hin]
      rw [← lookup_insert_map ha, if_neg hin]

/-- What is left of an assignment behind the removal of a node. -/
theorem removeNode_some {rank : UInt64 → Nat} {m : ShardManager} {nodeId : String} {i : UInt64}
    {a : ShardAssignment} (h : (m.removeNode rank nodeId).1.assignments.lookup i = some a) :
    ∃ b, m.assignments.lookup i = some b ∧ a = withoutReplica nodeId b := by
  rw [removeNode_lookup] at h
  obtain ⟨b, hb, hab⟩ := Option.bind_eq_some_iff.mp h
  split at hab
  · cases hab
  · exact ⟨b, hb, (Option.some.inj hab).symm⟩

theorem Filed.replicasOf {m : ShardManager} (h : m.Filed) (shardId : UInt64) :
    (m.replicasOf shardId).Nodup := by
  unfold ShardManager.replicasOf
  cases ha : m.assignments.lookup shardId with
  | none => exact List.nodup_nil
  | some a => exact (h shardId a ha).2

theorem Filed.assignShard {m : ShardManager} (h : m.Filed) (shardId : UInt64) (leader : String) :
    (m.assignShard shardId leader).Filed := by
  intro i a ha
  rw [assignShard_lookup] at ha
  split at ha
  · next hi =>
    cases ha
    exact ⟨hi.symm, h.replicasOf shardId⟩
  · exact h i a ha

theorem Filed.operate {m : ShardManager} (h : m.Filed) (op : Operation) :
    (m.operate op).Filed := by
  cases op with
  | assign shardId leader => exact h.assignShard shardId leader
  | addReplica shardId replica =>
    intro i a ha
    simp only [ShardManager.operate, addReplica_lookup] at ha
    split at ha
    · obtain ⟨b, hb, rfl⟩ := Option.map_eq_some_iff.mp ha
      obtain ⟨hid, hnd⟩ := h i b hb
      split
      · exact ⟨hid, hnd⟩
      · next hnot => exact ⟨hid, hnd.append (List.nodup_singleton replica) (by simpa using hnot)⟩
    · exact h i a ha
  | removeNode rank nodeId =>
    intro i a ha
    obtain ⟨b, hb, rfl⟩ := removeNode_some ha
    exact ⟨(h i b hb).1, (h i b hb).2.filter _⟩
  | promote shardId nodeId => exact h.assignShard shardId nodeId

theorem filed_inductive (nodeId : String) : (operations nodeId).Inductive Filed where
  init := by
    rintro m rfl i a ha
    cases ha
  step := by
    intro m op m' hm hop
    cases hop
    exact hm.operate op

/-! ## Leaders and replicas -/

/-- After an assignment the leader is apart exactly if it was no replica. -/
theorem apart_assignShard_iff {m : ShardManager} (h : m.Apart) (shardId : UInt64)
    (leader : String) : (m.assignShard shardId leader).Apart ↔
      ∀ a ∈ m.assignments.lookup shardId, leader ∉ a.replicas := by
  have hreplicas : leader ∉ m.replicasOf shardId ↔
      ∀ a ∈ m.assignments.lookup shardId, leader ∉ a.replicas := by
    unfold replicasOf
    cases m.assignments.lookup shardId <;> simp
  rw [← hreplicas]
  constructor
  · intro h'
    exact h' shardId _ (by rw [assignShard_lookup, if_pos rfl])
  · intro hnot i a ha
    rw [assignShard_lookup] at ha
    split at ha
    · cases ha
      exact hnot
    · exact h i a ha

theorem apart_addReplica_iff {m : ShardManager} (h : m.Apart) (shardId : UInt64)
    (replica : String) : (m.addReplica shardId replica).1.Apart ↔
      ∀ a ∈ m.assignments.lookup shardId, replica ≠ a.leader := by
  constructor
  · rintro h' a ha rfl
    have hlookup : (m.addReplica shardId a.leader).1.assignments.lookup shardId =
        some { a with replicas := a.replicas ++ [a.leader] } := by
      rw [addReplica_lookup, if_pos rfl, ha, Option.map_some, if_neg (h shardId a ha)]
    exact h' shardId _ hlookup (by simp)
  · intro hne i a ha
    rw [addReplica_lookup] at ha
    split at ha
    · next hi =>
      subst hi
      obtain ⟨b, hb, rfl⟩ := Option.map_eq_some_iff.mp ha
      split
      · exact h i b hb
      · have hnot := h i b hb
        have := hne b hb
        simp only [List.mem_append, List.mem_singleton, not_or]
        exact ⟨hnot, this.symm⟩
    · exact h i a ha

theorem Apart.removeNode {m : ShardManager} (h : m.Apart) (rank : UInt64 → Nat)
    (nodeId : String) : (m.removeNode rank nodeId).1.Apart := by
  intro i a ha
  obtain ⟨b, hb, rfl⟩ := removeNode_some ha
  exact fun hin => h i b hb (List.mem_of_mem_filter hin)

theorem apart_operate_iff {m : ShardManager} (h : m.Apart) (op : Operation) :
    (m.operate op).Apart ↔ m.KeepsApart op := by
  cases op with
  | assign shardId leader => exact apart_assignShard_iff h shardId leader
  | addReplica shardId replica => exact apart_addReplica_iff h shardId replica
  | removeNode rank nodeId => exact iff_of_true (h.removeNode rank nodeId) trivial
  | promote shardId nodeId => exact apart_assignShard_iff h shardId nodeId

theorem apart_guards (nodeId : String) :
    (operations nodeId).Guards KeepsApart Apart Apart where
  init := by
    rintro m rfl i a ha
    cases ha
  holds _ := id
  keeps := by
    intro m op m' hm hop hkeeps
    cases hop
    exact (apart_operate_iff hm op).mpr hkeeps
  exact := by
    intro m op m' hm hop hm'
    cases hop
    exact (apart_operate_iff hm op).mp hm'

/-- Every assignment is under its shard with replicas that are pairwise distinct, in every
state of every run; its leader is apart from them in every state exactly of the runs in
which no shard is given a leader that is one of its replicas or a replica that leads it. -/
theorem assignments_wellFormed (nodeId : String) :
    (∀ m, (operations nodeId).Reachable m → m.Filed) ∧
    ∀ (ops : List Operation) (m : ShardManager),
      ((operations nodeId).within Apart).Run (new nodeId) ops m ↔
        ((operations nodeId).restrict KeepsApart).Run (new nodeId) ops m :=
  ⟨(filed_inductive nodeId).reachable, fun _ _ => (apart_guards nodeId).run_iff rfl⟩

/-- A replica that is promoted stays one. -/
theorem promoted_replica : ¬ ∀ (nodeId : String) (m : ShardManager),
    (operations nodeId).Reachable m → ∀ i a, m.assignments.lookup i = some a →
      a.shardId = i ∧ a.replicas.Nodup ∧ a.leader ∉ a.replicas := by
  intro h
  have hrun : (operations "a").Run (new "a")
      [.assign 0 "a", .addReplica 0 "b", .promote 0 "b"]
      ((((new "a").assignShard 0 "a").addReplica 0 "b").1.assignShard 0 "b") :=
    .cons rfl (.cons rfl (.cons rfl (.nil _)))
  have hlookup : ((((new "a").assignShard 0 "a").addReplica 0 "b").1.assignShard 0
      "b").assignments.lookup 0 = some ⟨0, "b", ["b"]⟩ := by decide
  exact (h "a" _ ⟨_, _, rfl, hrun⟩ 0 _ hlookup).2.2 (by simp)

end ShardManager

/-! ## Failover -/

namespace FailoverManager

theorem promote_run [EscapeTable] {m m' : FailoverManager} {now : Nat} {shardId : UInt64}
    (h : m.promote now shardId = (m', .ok ())) :
    m'.shardManager = m.shardManager.operate (.promote shardId m.nodeId) := by
  unfold promote at h
  split at h
  · cases h
  · cases h
    rfl

/-- The loop of a check runs promotions of this node. -/
theorem checkLoop_run [EscapeTable] (now : Nat) (nodeId : String) (rest : List (UInt64 × String)) :
    ∀ (m : FailoverManager) (acc : List UInt64), ∃ ops,
      (∀ op ∈ ops, ∃ shardId, op = .promote shardId m.nodeId) ∧
      (ShardManager.operations nodeId).Run m.shardManager ops
        (checkLoop now rest m acc).1.shardManager := by
  induction rest with
  | nil => exact fun m acc => ⟨[], by simp, .nil _⟩
  | cons p rest ih =>
    intro m acc
    obtain ⟨shardId, leaderId⟩ := p
    rw [checkLoop]
    split
    · exact ih m acc
    · split
      · exact ih m acc
      · obtain ⟨m₁, hpromote, hm₁⟩ := m.promote_ok now shardId
        obtain ⟨ops, hops, hrun⟩ := ih m₁ (acc ++ [shardId])
        rw [hpromote]
        refine ⟨.promote shardId m.nodeId :: ops, ?_, .cons ?_ hrun⟩
        · intro op hop
          rcases List.mem_cons.mp hop with rfl | hop
          · exact ⟨shardId, rfl⟩
          · rw [← hm₁.nodeId]
            exact hops op hop
        · exact congrArg some (promote_run hpromote).symm

theorem checkAndFailover_run [EscapeTable] (m : FailoverManager) (rank : UInt64 → Nat) (now : Nat)
    (nodeId : String) : ∃ ops, (∀ op ∈ ops, ∃ shardId, op = .promote shardId m.nodeId) ∧
      (ShardManager.operations nodeId).Run m.shardManager ops
        (m.checkAndFailover rank now).1.shardManager :=
  checkLoop_run now nodeId _ m []

end FailoverManager

end Tesseract.L6
