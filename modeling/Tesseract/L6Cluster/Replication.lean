import Tesseract.Core.Assoc
import Tesseract.Core.LTS

/-!
# The replication engine of a shard leader

Model of `tesseract-cluster/src/replication.rs`: the queue of entries that some replica
may still need, and what each replica has acknowledged. The instants of the last
heartbeats of the replicas are left out: nothing reads them.

`leader` is an engine under any sequence of its five operations, with the list of all
entries ever recorded.

* `acked_recordEntry`, `acked_ack`, `acked_addReplica`, `acked_removeReplica`: what an
  operation does to the acknowledgement of a replica.
* `minAcked_le`, `minAcked_cases`: what a trim goes by.
-/
namespace Tesseract.L6

open Assoc

/-- `u64::saturating_sub` -/
def saturatingSub (a b : UInt64) : UInt64 := if b ≤ a then a - b else 0

theorem saturatingSub_toNat (a b : UInt64) :
    (saturatingSub a b).toNat = a.toNat - b.toNat := by
  unfold saturatingSub
  split
  · next h => exact UInt64.toNat_sub_of_le _ _ h
  · next h =>
    rw [UInt64.le_iff_toNat_le] at h
    simp only [UInt64.toNat_zero]
    omega

/-- mirrors tesseract-cluster/src/replication.rs:22-29 -/
inductive ReplicaState where
  | synced
  | lagging (lag : UInt64)
  | disconnected
  deriving DecidableEq, Repr

/-- mirrors tesseract-cluster/src/replication.rs:37-43 -/
structure ReplicationEntry where
  txnId : UInt64
  shardId : UInt64
  opCode : UInt8
  payload : List UInt8
  deriving DecidableEq, Repr

/-- mirrors tesseract-cluster/src/replication.rs:48-55 -/
structure ReplicaInfo where
  nodeId : String
  addr : String
  state : ReplicaState
  lastAckedTxnId : UInt64
  deriving DecidableEq, Repr

/-- The field of `ReplicationConfig` that the engine reads, with its default.
mirrors tesseract-cluster/src/replication.rs:61-76 -/
structure ReplicationConfig where
  maxLagEntries : UInt64 := 10000
  deriving DecidableEq, Repr

/-- The state of a replica when an entry has come.
mirrors tesseract-cluster/src/replication.rs:177-191 -/
def ReplicaInfo.afterEntry (config : ReplicationConfig) (maxTxnId : UInt64)
    (replica : ReplicaInfo) : ReplicaInfo :=
  let lag := saturatingSub maxTxnId replica.lastAckedTxnId
  { replica with
    state := if config.maxLagEntries < lag then .disconnected
      else if 0 < lag then .lagging lag
      else if replica.state = .disconnected then .synced
      else replica.state }

/-- The replica when it has acknowledged `txnId`.
mirrors tesseract-cluster/src/replication.rs:233-245 -/
def ReplicaInfo.afterAck (config : ReplicationConfig) (maxTxnId txnId : UInt64)
    (replica : ReplicaInfo) : ReplicaInfo :=
  let lastAcked := if replica.lastAckedTxnId < txnId then txnId else replica.lastAckedTxnId
  let lag := saturatingSub maxTxnId lastAcked
  { replica with
    lastAckedTxnId := lastAcked
    state := if lag = 0 then .synced
      else if config.maxLagEntries < lag then .disconnected
      else .lagging lag }

/-- mirrors tesseract-cluster/src/replication.rs:84-89 -/
structure ReplicationEngine where
  shardId : UInt64
  replicas : Map String ReplicaInfo
  pendingEntries : List ReplicationEntry
  config : ReplicationConfig

/-- `entries.last().map(|e| e.txn_id)` -/
def lastTxnId (entries : List ReplicationEntry) : Option UInt64 :=
  entries.getLast?.map ReplicationEntry.txnId

namespace ReplicationEngine

/-- mirrors tesseract-cluster/src/replication.rs:93-100 -/
def new (shardId : UInt64) (config : ReplicationConfig) : ReplicationEngine :=
  ⟨shardId, ∅, [], config⟩

/-- mirrors tesseract-cluster/src/replication.rs:115-127 -/
def addReplica (eng : ReplicationEngine) (nodeId addr : String) : ReplicationEngine :=
  { eng with replicas := eng.replicas.insert nodeId ⟨nodeId, addr, .synced, 0⟩ }

/-- mirrors tesseract-cluster/src/replication.rs:130-133 -/
def removeReplica (eng : ReplicationEngine) (nodeId : String) : ReplicationEngine :=
  { eng with replicas := eng.replicas.erase nodeId }

/-- mirrors tesseract-cluster/src/replication.rs:160-194 -/
def recordEntry (eng : ReplicationEngine) (entry : ReplicationEntry) : ReplicationEngine :=
  let entries := eng.pendingEntries ++ [entry]
  let maxTxnId := (lastTxnId entries).getD entry.txnId
  { eng with
    pendingEntries := entries
    replicas := mapValues (ReplicaInfo.afterEntry eng.config maxTxnId) eng.replicas }

/-- mirrors tesseract-cluster/src/replication.rs:200-211 -/
def pendingForReplica (eng : ReplicationEngine) (replicaId : String) : List ReplicationEntry :=
  match eng.replicas.lookup replicaId with
  | some info => eng.pendingEntries.filter fun e => info.lastAckedTxnId < e.txnId
  | none => []

/-- mirrors tesseract-cluster/src/replication.rs:225-247 -/
def ack (eng : ReplicationEngine) (replicaId : String) (txnId : UInt64) : ReplicationEngine :=
  let maxTxnId := (lastTxnId eng.pendingEntries).getD 0
  match eng.replicas.lookup replicaId with
  | some replica => { eng with
      replicas := eng.replicas.insert replicaId
        (ReplicaInfo.afterAck eng.config maxTxnId txnId replica) }
  | none => eng

/-- mirrors tesseract-cluster/src/replication.rs:255-265 -/
def replicationLag (eng : ReplicationEngine) (replicaId : String) : Option UInt64 :=
  (eng.replicas.lookup replicaId).map fun info =>
    saturatingSub ((lastTxnId eng.pendingEntries).getD 0) info.lastAckedTxnId

/-- mirrors tesseract-cluster/src/replication.rs:280-283 -/
def minAcked (eng : ReplicationEngine) : UInt64 :=
  ((values eng.replicas).map ReplicaInfo.lastAckedTxnId).min?.getD 0

/-- mirrors tesseract-cluster/src/replication.rs:279-287 -/
def trimAcked (eng : ReplicationEngine) : ReplicationEngine :=
  { eng with pendingEntries := eng.pendingEntries.filter fun e => eng.minAcked < e.txnId }

/-- What `replica` has acknowledged, if it is registered. -/
def acked (eng : ReplicationEngine) (replica : String) : Option UInt64 :=
  (eng.replicas.lookup replica).map ReplicaInfo.lastAckedTxnId

variable (eng : ReplicationEngine)

@[simp] theorem acked_new (shardId : UInt64) (config : ReplicationConfig) (r : String) :
    (new shardId config).acked r = none := rfl

@[simp] theorem acked_recordEntry (entry : ReplicationEntry) (r : String) :
    (eng.recordEntry entry).acked r = eng.acked r := by
  simp only [acked, recordEntry, lookup_mapValues, Option.map_map]
  rfl

@[simp] theorem acked_addReplica (nodeId addr r : String) :
    (eng.addReplica nodeId addr).acked r = if r = nodeId then some 0 else eng.acked r := by
  simp only [acked, addReplica, lookup_insert_eq]
  split <;> rfl

@[simp] theorem acked_removeReplica (nodeId r : String) :
    (eng.removeReplica nodeId).acked r = if r = nodeId then none else eng.acked r := by
  simp only [acked, removeReplica, lookup_erase_eq]
  split <;> rfl

/-- An acknowledgement only moves forward, and only its own replica's. -/
theorem acked_ack (replicaId r : String) (txnId : UInt64) :
    (eng.ack replicaId txnId).acked r =
      if r = replicaId then (eng.acked r).map fun a => if a < txnId then txnId else a
      else eng.acked r := by
  cases hr : eng.replicas.lookup replicaId with
  | none =>
    simp only [acked, ack, hr]
    split
    · next h =>
      subst h
      simp only [hr, Option.map_none]
    · rfl
  | some replica =>
    simp only [acked, ack, hr, lookup_insert_eq]
    split
    · next h =>
      subst h
      simp only [hr, Option.map_some, ReplicaInfo.afterAck]
    · rfl

@[simp] theorem acked_trimAcked (r : String) : eng.trimAcked.acked r = eng.acked r := rfl

@[simp] theorem pendingEntries_recordEntry (entry : ReplicationEntry) :
    (eng.recordEntry entry).pendingEntries = eng.pendingEntries ++ [entry] := rfl

@[simp] theorem pendingEntries_addReplica (nodeId addr : String) :
    (eng.addReplica nodeId addr).pendingEntries = eng.pendingEntries := rfl

@[simp] theorem pendingEntries_removeReplica (nodeId : String) :
    (eng.removeReplica nodeId).pendingEntries = eng.pendingEntries := rfl

@[simp] theorem pendingEntries_ack (replicaId : String) (txnId : UInt64) :
    (eng.ack replicaId txnId).pendingEntries = eng.pendingEntries := by
  unfold ack
  split <;> rfl

theorem pendingForReplica_eq {r : String} {a : UInt64} (h : eng.acked r = some a) :
    eng.pendingForReplica r = eng.pendingEntries.filter fun e => a < e.txnId := by
  obtain ⟨info, hinfo, rfl⟩ := Option.map_eq_some_iff.mp h
  simp only [pendingForReplica, hinfo]

theorem replicationLag_eq (r : String) :
    eng.replicationLag r = (eng.acked r).map
      (saturatingSub ((lastTxnId eng.pendingEntries).getD 0)) := by
  rw [replicationLag, acked, Option.map_map]
  rfl

theorem minAcked_le {r : String} {a : UInt64} (h : eng.acked r = some a) : eng.minAcked ≤ a := by
  obtain ⟨info, hinfo, rfl⟩ := Option.map_eq_some_iff.mp h
  have hmem : info.lastAckedTxnId ∈ (values eng.replicas).map ReplicaInfo.lastAckedTxnId :=
    List.mem_map_of_mem (mem_values.mpr ⟨r, hinfo⟩)
  unfold minAcked
  cases hmin : ((values eng.replicas).map ReplicaInfo.lastAckedTxnId).min? with
  | none =>
    rw [List.min?_eq_none_iff.mp hmin] at hmem
    cases hmem
  | some m => exact (List.le_min?_iff hmin).mp (UInt64.le_refl m) _ hmem

/-- The bound of a trim is what some replica has acknowledged, or 0. -/
theorem minAcked_cases : eng.minAcked = 0 ∨ ∃ r, eng.acked r = some eng.minAcked := by
  unfold minAcked
  cases hmin : ((values eng.replicas).map ReplicaInfo.lastAckedTxnId).min? with
  | none => exact .inl rfl
  | some m =>
    right
    obtain ⟨info, hinfo, rfl⟩ := List.mem_map.mp (List.min?_mem hmin)
    obtain ⟨r, hr⟩ := mem_values.mp hinfo
    exact ⟨r, by simp [acked, hr]⟩

end ReplicationEngine

/-! ## Any sequence of operations -/

inductive EngineOp where
  | recordEntry (entry : ReplicationEntry)
  | ack (replicaId : String) (txnId : UInt64)
  | trimAcked
  | addReplica (nodeId addr : String)
  | removeReplica (nodeId : String)

def ReplicationEngine.apply (eng : ReplicationEngine) : EngineOp → ReplicationEngine
  | .recordEntry entry => eng.recordEntry entry
  | .ack replicaId txnId => eng.ack replicaId txnId
  | .trimAcked => eng.trimAcked
  | .addReplica nodeId addr => eng.addReplica nodeId addr
  | .removeReplica nodeId => eng.removeReplica nodeId

/-- An engine and all the entries recorded so far. -/
structure Leader where
  engine : ReplicationEngine
  recorded : List ReplicationEntry

def Leader.apply (w : Leader) (op : EngineOp) : Leader where
  engine := w.engine.apply op
  recorded := match op with
    | .recordEntry entry => w.recorded ++ [entry]
    | _ => w.recorded

@[simp] theorem recorded_recordEntry (w : Leader) (entry : ReplicationEntry) :
    (w.apply (.recordEntry entry)).recorded = w.recorded ++ [entry] := rfl

@[simp] theorem recorded_ack (w : Leader) (replicaId : String) (txnId : UInt64) :
    (w.apply (.ack replicaId txnId)).recorded = w.recorded := rfl

/-- The largest id among `entries`, or 0. -/
def largest : List ReplicationEntry → Nat
  | [] => 0
  | e :: es => max e.txnId.toNat (largest es)

@[simp] theorem largest_append (es : List ReplicationEntry) (e : ReplicationEntry) :
    largest (es ++ [e]) = max (largest es) e.txnId.toNat := by
  induction es with
  | nil => simp [largest]
  | cons e' es ih =>
    simp only [List.cons_append, largest, ih]
    omega

/-- A new engine under any sequence of operations. -/
def leader : LTS Leader EngineOp :=
  .ofFn (fun w => ∃ shardId config, w = ⟨.new shardId config, []⟩) fun w op => some (w.apply op)

end Tesseract.L6
