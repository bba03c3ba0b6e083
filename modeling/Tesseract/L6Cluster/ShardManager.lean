import Mathlib.Data.List.Sort
import Tesseract.Core.Assoc
import Tesseract.Core.Error
import Tesseract.L6Cluster.JumpHash

/-!
# Shard assignments

Model of `tesseract-cluster/src/shard_manager.rs`: which node leads which shard. The
iteration order of the map is a parameter of the functions that list it. A vector goes
to the shard that `jumpHash` gives its id (`shardFor_lt`: there always is one).

* `removeNode_lookup`, `mem_affected`: what is left of each assignment behind the removal of
  a node, and the shards it reports.
* `removeNode_frame`: those are the shards whose assignment it changes.
-/
namespace Tesseract.L6

open Assoc

/-- `NUM_SHARDS` -/
def numShards : UInt64 := 64

/-- mirrors tesseract-cluster/src/shard_manager.rs:17-21 -/
structure ShardAssignment where
  shardId : UInt64
  leader : String
  replicas : List String
  deriving DecidableEq, Repr

/-- mirrors tesseract-cluster/src/shard_manager.rs:28-31 -/
structure ShardManager where
  assignments : AList fun _ : UInt64 => ShardAssignment
  nodeId : String

namespace ShardManager

def new (nodeId : String) : ShardManager := ⟨∅, nodeId⟩

/-- mirrors tesseract-cluster/src/shard_manager.rs:40-42 -/
def shardFor (_m : ShardManager) (id : UInt64) : Option UInt64 :=
  jumpHash 65 id numShards

/-- mirrors tesseract-cluster/src/shard_manager.rs:45-47 -/
def getLeader (m : ShardManager) (shardId : UInt64) : Option String :=
  (m.assignments.lookup shardId).map ShardAssignment.leader

/-- mirrors tesseract-cluster/src/shard_manager.rs:54-59 -/
def assignShard (m : ShardManager) (shardId : UInt64) (leader : String) : ShardManager :=
  let replicas := ((m.assignments.lookup shardId).map ShardAssignment.replicas).getD []
  { m with assignments := m.assignments.insert shardId ⟨shardId, leader, replicas⟩ }

/-- mirrors tesseract-cluster/src/shard_manager.rs:66-74 -/
def addReplica (m : ShardManager) (shardId : UInt64) (replica : String) :
    ShardManager × Result Unit :=
  match m.assignments.lookup shardId with
  | none => (m, .error (.shardNotAssigned shardId))
  | some a =>
    if replica ∈ a.replicas then (m, .ok ())
    else ({ m with assignments :=
      m.assignments.insert shardId { a with replicas := a.replicas ++ [replica] } }, .ok ())

/-- The shards with such an assignment.
mirrors tesseract-cluster/src/shard_manager.rs:83-91 -/
def shardsWith (rank : UInt64 → Nat) (m : ShardManager) (p : ShardAssignment → Bool) :
    List UInt64 :=
  (m.assignments.keys.insertionSort fun a b => rank a ≤ rank b).filter fun shardId =>
    (m.assignments.lookup shardId).any p

/-- mirrors tesseract-cluster/src/shard_manager.rs:94-97 -/
def dropLeader (st : ShardManager × List UInt64) (shardId : UInt64) :
    ShardManager × List UInt64 :=
  ({ st.1 with assignments := st.1.assignments.erase shardId }, st.2 ++ [shardId])

/-- `assignment.replicas.retain(|r| r != node_id)` -/
def withoutReplica (nodeId : String) (a : ShardAssignment) : ShardAssignment :=
  { a with replicas := a.replicas.filter fun r => r ≠ nodeId }

/-- mirrors tesseract-cluster/src/shard_manager.rs:100-107 -/
def dropReplica (nodeId : String) (st : ShardManager × List UInt64) (shardId : UInt64) :
    ShardManager × List UInt64 :=
  match st.1.assignments.lookup shardId with
  | none => st
  | some a =>
    ({ st.1 with assignments := st.1.assignments.insert shardId (withoutReplica nodeId a) },
      if shardId ∈ st.2 then st.2 else st.2 ++ [shardId])

/-- mirrors tesseract-cluster/src/shard_manager.rs:79-110 -/
def removeNode (rank : UInt64 → Nat) (m : ShardManager) (nodeId : String) :
    ShardManager × List UInt64 :=
  let leaderShards := m.shardsWith rank fun a => a.leader = nodeId
  let replicaShards := m.shardsWith rank fun a => nodeId ∈ a.replicas
  replicaShards.foldl (dropReplica nodeId) (leaderShards.foldl dropLeader (m, []))

/-- mirrors tesseract-cluster/src/shard_manager.rs:136-138 -/
def assignedLeaders (rank : UInt64 → Nat) (m : ShardManager) : List (UInt64 × String) :=
  (m.assignments.keys.insertionSort fun a b => rank a ≤ rank b).filterMap fun shardId =>
    (m.getLeader shardId).map fun leader => (shardId, leader)

/-- Every vector id has a shard, one of the cluster's. -/
theorem shardFor_lt (m : ShardManager) (id : UInt64) :
    ∃ r, m.shardFor id = some r ∧ r < numShards := by
  have hpos : 0 < numShards.toNat := by decide
  have hn : numShards.toNat < 2 ^ 63 := by decide
  have hlt := (bucket_consistent id).lt numShards.toNat hpos hn
  refine ⟨_, jumpHash_terminates id hpos hn 65 (by decide), ?_⟩
  rw [UInt64.lt_iff_toNat_lt, UInt64.toNat_ofNat']
  omega

theorem getLeader_isSome {m : ShardManager} {shardId : UInt64} :
    (m.getLeader shardId).isSome ↔ shardId ∈ m.assignments := by
  rw [getLeader, Option.isSome_map, AList.lookup_isSome]

theorem getLeader_assignShard (m : ShardManager) (shardId : UInt64) (leader : String)
    (s : UInt64) : (m.assignShard shardId leader).getLeader s =
      if s = shardId then some leader else m.getLeader s := by
  rw [getLeader, assignShard, lookup_insert_eq]
  split <;> rfl

theorem mem_assignedLeaders {rank : UInt64 → Nat} {m : ShardManager} {p : UInt64 × String} :
    p ∈ m.assignedLeaders rank ↔ m.getLeader p.1 = some p.2 := by
  unfold assignedLeaders
  simp only [List.mem_filterMap, List.mem_insertionSort, Option.map_eq_some_iff]
  constructor
  · rintro ⟨shardId, _, leader, hleader, rfl⟩
    exact hleader
  · intro h
    refine ⟨p.1, ?_, p.2, h, rfl⟩
    rw [← AList.mem_keys, ← getLeader_isSome, h]
    rfl

/-! ## Removing a node -/

theorem mem_shardsWith {rank : UInt64 → Nat} {m : ShardManager} {p : ShardAssignment → Bool}
    {shardId : UInt64} :
    shardId ∈ m.shardsWith rank p ↔ ∃ a, m.assignments.lookup shardId = some a ∧ p a := by
  rw [shardsWith, List.mem_filter, List.mem_insertionSort, ← AList.mem_keys,
    ← AList.lookup_isSome]
  cases m.assignments.lookup shardId <;> simp

theorem shardsWith_nodup (rank : UInt64 → Nat) (m : ShardManager) (p : ShardAssignment → Bool) :
    (m.shardsWith rank p).Nodup :=
  ((List.perm_insertionSort _ _).nodup_iff.mpr m.assignments.keys_nodup).filter _

/-- The first loop erases the shards and reports them. -/
theorem foldl_dropLeader (ids : List UInt64) : ∀ (m : ShardManager) (acc : List UInt64),
    (ids.foldl dropLeader (m, acc)).2 = acc ++ ids ∧
    ∀ i, (ids.foldl dropLeader (m, acc)).1.assignments.lookup i =
      if i ∈ ids then none else m.assignments.lookup i := by
  induction ids with
  | nil => exact fun m acc => ⟨(List.append_nil acc).symm, fun i => by simp⟩
  | cons shardId ids ih =>
    intro m acc
    rw [List.foldl_cons, dropLeader]
    obtain ⟨hout, hlookup⟩ := ih { m with assignments := m.assignments.erase shardId }
      (acc ++ [shardId])
    refine ⟨by rw [hout, List.append_assoc]; rfl, fun i => ?_⟩
    rw [hlookup, lookup_erase_eq]
    by_cases hi : i = shardId <;> simp [hi]

theorem dropReplica_lookup (nodeId : String) (m : ShardManager) (acc : List UInt64)
    (shardId i : UInt64) : (dropReplica nodeId (m, acc) shardId).1.assignments.lookup i =
      if i = shardId then (m.assignments.lookup i).map (withoutReplica nodeId)
      else m.assignments.lookup i := by
  unfold dropReplica
  cases ha : m.assignments.lookup shardId with
  | none => exact lookup_eq_map (by rw [ha, Option.map_none]) i
  | some a => exact lookup_insert_map ha (withoutReplica nodeId) i

theorem mem_dropReplica {nodeId : String} {m : ShardManager} {acc : List UInt64}
    {shardId i : UInt64} : i ∈ (dropReplica nodeId (m, acc) shardId).2 ↔
      i ∈ acc ∨ i = shardId ∧ (m.assignments.lookup i).isSome := by
  unfold dropReplica
  cases ha : m.assignments.lookup shardId with
  | none =>
    constructor
    · exact .inl
    · rintro (hi | ⟨rfl, hsome⟩)
      · exact hi
      · simp [ha] at hsome
  | some a =>
    by_cases hin : shardId ∈ acc
    · simp only [if_pos hin]
      constructor
      · exact .inl
      · rintro (hi | ⟨rfl, _⟩)
        · exact hi
        · exact hin
    · simp only [if_neg hin, List.mem_append, List.mem_singleton]
      refine or_congr_right ⟨fun hi => ⟨hi, by rw [hi, ha]; rfl⟩, And.left⟩

theorem dropReplica_nodup {nodeId : String} {m : ShardManager} {acc : List UInt64}
    (h : acc.Nodup) (shardId : UInt64) : (dropReplica nodeId (m, acc) shardId).2.Nodup := by
  unfold dropReplica
  cases m.assignments.lookup shardId with
  | none => exact h
  | some a =>
    by_cases hin : shardId ∈ acc
    · simp only [if_pos hin]
      exact h
    · simp only [if_neg hin]
      exact h.append (List.nodup_singleton shardId) (by simpa using hin)

/-- The second loop takes the node out of the replicas, and reports the shards that are
still assigned and not yet reported. -/
theorem foldl_dropReplica (nodeId : String) (ids : List UInt64) :
    ∀ (m : ShardManager) (acc : List UInt64), ids.Nodup → acc.Nodup →
    (ids.foldl (dropReplica nodeId) (m, acc)).2.Nodup ∧
    (∀ i, i ∈ (ids.foldl (dropReplica nodeId) (m, acc)).2 ↔
      i ∈ acc ∨ i ∈ ids ∧ (m.assignments.lookup i).isSome) ∧
    ∀ i, (ids.foldl (dropReplica nodeId) (m, acc)).1.assignments.lookup i =
      if i ∈ ids then (m.assignments.lookup i).map (withoutReplica nodeId)
      else m.assignments.lookup i := by
  induction ids with
  | nil => exact fun m acc _ hacc => ⟨hacc, by simp, by simp⟩
  | cons shardId ids ih =>
    intro m acc hids hacc
    obtain ⟨hnot, hids⟩ := List.nodup_cons.mp hids
    rw [List.foldl_cons]
    obtain ⟨hnd, hmem, hlookup⟩ := ih (dropReplica nodeId (m, acc) shardId).1
      (dropReplica nodeId (m, acc) shardId).2 hids (dropReplica_nodup hacc shardId)
    refine ⟨hnd, fun i => ?_, fun i => ?_⟩
    · rw [hmem, mem_dropReplica, dropReplica_lookup, List.mem_cons]
      by_cases hi : i = shardId
      · subst hi
        simp [hnot]
      · simp [hi]
    · rw [hlookup, dropReplica_lookup]
      by_cases hi : i = shardId
      · subst hi
        simp [hnot]
      · simp [hi]

theorem withoutReplica_eq_iff {nodeId : String} {a : ShardAssignment} :
    withoutReplica nodeId a = a ↔ nodeId ∉ a.replicas := by
  have hfields : withoutReplica nodeId a = a ↔
      (a.replicas.filter fun r => r ≠ nodeId) = a.replicas :=
    ⟨congrArg ShardAssignment.replicas, fun h => by rw [withoutReplica, h]⟩
  rw [hfields, List.filter_eq_self]
  constructor
  · intro h hin
    simpa using h nodeId hin
  · intro h r hr
    have : r ≠ nodeId := fun heq => h (heq ▸ hr)
    simpa using this

/-- The two loops one after the other. -/
theorem removeNode_loops (rank : UInt64 → Nat) (m : ShardManager) (nodeId : String) :
    (m.removeNode rank nodeId).2.Nodup ∧
    (∀ i, i ∈ (m.removeNode rank nodeId).2 ↔
      i ∈ m.shardsWith rank (fun a => a.leader = nodeId) ∨
      i ∈ m.shardsWith rank (fun a => nodeId ∈ a.replicas) ∧
        i ∉ m.shardsWith rank (fun a => a.leader = nodeId) ∧ (m.assignments.lookup i).isSome) ∧
    ∀ i, (m.removeNode rank nodeId).1.assignments.lookup i =
      if i ∈ m.shardsWith rank (fun a => a.leader = nodeId) then none
      else if i ∈ m.shardsWith rank (fun a => nodeId ∈ a.replicas) then
        (m.assignments.lookup i).map (withoutReplica nodeId)
      else m.assignments.lookup i := by
  obtain ⟨hout, hleaders⟩ := foldl_dropLeader (m.shardsWith rank fun a => a.leader = nodeId) m []
  rw [List.nil_append] at hout
  simp only [removeNode]
  generalize (m.shardsWith rank fun a => a.leader = nodeId).foldl dropLeader (m, []) = st at *
  obtain ⟨m₁, acc⟩ := st
  obtain rfl : acc = _ := hout
  obtain ⟨hnd, hmem, hlookup⟩ := foldl_dropReplica nodeId
    (m.shardsWith rank fun a => nodeId ∈ a.replicas) m₁ _ (shardsWith_nodup rank m _)
    (shardsWith_nodup rank m fun a => a.leader = nodeId)
  refine ⟨hnd, fun i => ?_, fun i => ?_⟩
  · rw [hmem, hleaders]
    split <;> simp [*]
  · rw [hlookup, hleaders]
    by_cases hi : i ∈ m.shardsWith rank fun a => a.leader = nodeId <;> simp [hi]

theorem removeNode_lookup (rank : UInt64 → Nat) (m : ShardManager) (nodeId : String)
    (i : UInt64) : (m.removeNode rank nodeId).1.assignments.lookup i =
      (m.assignments.lookup i).bind fun a =>
        if a.leader = nodeId then none else some (withoutReplica nodeId a) := by
  rw [(removeNode_loops rank m nodeId).2.2]
  simp only [mem_shardsWith]
  cases ha : m.assignments.lookup i with
  | none => simp
  | some a =>
    by_cases hled : a.leader = nodeId
    · simp [hled]
    · by_cases hrep : nodeId ∈ a.replicas
      · simp [hled, hrep]
      · -- nothing to take out
        simp [hled, hrep, withoutReplica_eq_iff.mpr hrep]

/-- A removal makes nobody a leader. -/
theorem getLeader_of_removeNode {rank : UInt64 → Nat} {m : ShardManager} {nodeId : String}
    {s : UInt64} {leader : String}
    (h : (m.removeNode rank nodeId).1.getLeader s = some leader) :
    m.getLeader s = some leader := by
  rw [getLeader, removeNode_lookup] at h
  obtain ⟨a', ha', rfl⟩ := Option.map_eq_some_iff.mp h
  obtain ⟨a, ha, hkeep⟩ := Option.bind_eq_some_iff.mp ha'
  split at hkeep
  · cases hkeep
  · rw [getLeader, ha, ← Option.some.inj hkeep]
    rfl

theorem mem_affected {rank : UInt64 → Nat} {m : ShardManager} {nodeId : String} {i : UInt64} :
    i ∈ (m.removeNode rank nodeId).2 ↔
      ∃ a, m.assignments.lookup i = some a ∧ (a.leader = nodeId ∨ nodeId ∈ a.replicas) := by
  rw [(removeNode_loops rank m nodeId).2.1]
  simp only [mem_shardsWith]
  cases ha : m.assignments.lookup i with
  | none => simp
  | some a => by_cases hled : a.leader = nodeId <;> simp [hled]

/-- A removed node leads and replicates nothing, only its own roles are gone, and the
reported shards are those whose assignment changed, each once. -/
theorem removeNode_frame (rank : UInt64 → Nat) (m : ShardManager) (n : String) :
    (∀ i a, (m.removeNode rank n).1.assignments.lookup i = some a →
      a.leader ≠ n ∧ n ∉ a.replicas) ∧
    (∀ i a, m.assignments.lookup i = some a → a.leader = n →
      (m.removeNode rank n).1.assignments.lookup i = none) ∧
    (∀ i a, m.assignments.lookup i = some a → a.leader ≠ n → n ∈ a.replicas →
      (m.removeNode rank n).1.assignments.lookup i =
        some { a with replicas := a.replicas.filter fun r => r ≠ n }) ∧
    (∀ i, (∀ a ∈ m.assignments.lookup i, a.leader ≠ n ∧ n ∉ a.replicas) →
      (m.removeNode rank n).1.assignments.lookup i = m.assignments.lookup i) ∧
    (m.removeNode rank n).2.Nodup ∧
    ∀ i, i ∈ (m.removeNode rank n).2 ↔
      (m.removeNode rank n).1.assignments.lookup i ≠ m.assignments.lookup i := by
  simp only [removeNode_lookup, mem_affected]
  refine ⟨fun i a h => ?_, fun i a ha hled => ?_, fun i a ha hled _ => ?_, fun i hother => ?_,
    (removeNode_loops rank m n).1, fun i => ?_⟩
  · obtain ⟨b, _, hb⟩ := Option.bind_eq_some_iff.mp h
    split at hb
    · cases hb
    · next hled =>
      obtain rfl := Option.some.inj hb
      exact ⟨hled, by simp [withoutReplica]⟩
  · rw [ha, Option.bind_some, if_pos hled]
  · rw [ha, Option.bind_some, if_neg hled]
    rfl
  · cases ha : m.assignments.lookup i with
    | none => rfl
    | some a =>
      obtain ⟨hled, hrep⟩ := hother a ha
      rw [Option.bind_some, if_neg hled, withoutReplica_eq_iff.mpr hrep]
  · cases ha : m.assignments.lookup i with
    | none => simp
    | some a =>
      rw [Option.bind_some]
      by_cases hled : a.leader = n
      · simp [hled]
      · simp [hled, withoutReplica_eq_iff]

end ShardManager

end Tesseract.L6
