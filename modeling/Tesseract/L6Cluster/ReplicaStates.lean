import Tesseract.L6Cluster.Lag
import Tesseract.L6Cluster.Pending

/-!
# What the state of a replica says

The engine keeps a state for each replica next to its acknowledgement, and reports the lag
from the queue. The states are set when an entry is recorded and when the replica
acknowledges; a trim changes the queue and no state.

* `StateFor`: the state that the lag calls for.
* `state_tells_lag`: in every run with increasing ids the state of a replica is the one its
  lag calls for, or the replica is new and taken for synced.
-/
namespace Tesseract.L6

open Assoc ReplicationEngine

/-! ## The ids of the log -/

/-- The key of an entry. -/
def txn (e : ReplicationEntry) : Nat := e.txnId.toNat

theorem txn_le_largest {es : List ReplicationEntry} {e : ReplicationEntry} (h : e ∈ es) :
    txn e ≤ largest es := by
  induction es with
  | nil => cases h
  | cons e' es ih =>
    simp only [largest]
    rcases List.mem_cons.mp h with rfl | h
    · exact Nat.le_max_left _ _
    · have := ih h
      omega

def Increasing (w : Leader) : Prop := w.recorded.Pairwise fun x y => txn x < txn y

theorem Increasing.recordEntry {w : Leader} (h : Increasing w) {entry : ReplicationEntry}
    (ho : InOrder w (.recordEntry entry)) : Increasing (w.apply (.recordEntry entry)) := by
  rw [Increasing, recorded_recordEntry, List.pairwise_append]
  refine ⟨h, List.pairwise_singleton _ _, fun x hx y hy => ?_⟩
  obtain rfl := List.mem_singleton.mp hy
  exact Nat.lt_of_le_of_lt (txn_le_largest hx) ho

/-! ## The states -/

/-- The state that a lag calls for. -/
def StateFor (config : ReplicationConfig) (lag : UInt64) : ReplicaState :=
  if lag = 0 then .synced
  else if config.maxLagEntries < lag then .disconnected
  else .lagging lag

/-- The lag of a replica, as the engine reports it. -/
def ReplicationEngine.lagOf (eng : ReplicationEngine) (info : ReplicaInfo) : UInt64 :=
  saturatingSub ((lastTxnId eng.pendingEntries).getD 0) info.lastAckedTxnId

/-- Added since the last entry was recorded, and not heard of. -/
def Fresh (info : ReplicaInfo) : Prop := info.lastAckedTxnId = 0 ∧ info.state = .synced

/-- Every state is the one the lag calls for, or that of a new replica. -/
def Tells (eng : ReplicationEngine) : Prop :=
  ∀ r info, eng.replicas.lookup r = some info →
    info.state = StateFor eng.config (eng.lagOf info) ∨ Fresh info

theorem stateFor_entry (config : ReplicationConfig) {maxTxnId : UInt64} {info : ReplicaInfo}
    (h : info.lastAckedTxnId < maxTxnId) :
    (info.afterEntry config maxTxnId).state =
      StateFor config (saturatingSub maxTxnId info.lastAckedTxnId) := by
  have hpos : 0 < saturatingSub maxTxnId info.lastAckedTxnId := by
    rw [UInt64.lt_iff_toNat_lt, saturatingSub_toNat, UInt64.toNat_zero]
    rw [UInt64.lt_iff_toNat_lt] at h
    omega
  have hne : saturatingSub maxTxnId info.lastAckedTxnId ≠ 0 := by
    intro h0
    rw [h0] at hpos
    exact UInt64.lt_irrefl 0 hpos
  simp only [ReplicaInfo.afterEntry, StateFor, if_neg hne, if_pos hpos]

theorem stateFor_ack (config : ReplicationConfig) (maxTxnId txnId : UInt64) (info : ReplicaInfo) :
    (info.afterAck config maxTxnId txnId).state =
      StateFor config (saturatingSub maxTxnId
        (info.afterAck config maxTxnId txnId).lastAckedTxnId) := rfl

variable {w : Leader}

/-- The queue is part of a log with increasing ids, and no replica is ahead of the log. -/
structure Ranked (w : Leader) : Prop where
  increasing : Increasing w
  queue : w.engine.pendingEntries.Sublist w.recorded
  acked : ∀ r a, w.engine.acked r = some a → a.toNat ≤ largest w.recorded

theorem Ranked.apply (h : Ranked w) (op : EngineOp) (ho : InOrder w op) :
    Ranked (w.apply op) := by
  cases op with
  | recordEntry entry =>
    refine ⟨h.increasing.recordEntry ho, h.queue.append_right [entry], fun r a ha => ?_⟩
    have hle := h.acked r a (by simpa [Leader.apply, ReplicationEngine.apply] using ha)
    rw [recorded_recordEntry, largest_append]
    omega
  | ack replicaId txnId =>
    refine ⟨h.increasing, ?_, fun r a ha => ?_⟩
    · simpa [Leader.apply, ReplicationEngine.apply] using h.queue
    · simp only [Leader.apply, ReplicationEngine.apply, acked_ack] at ha
      split at ha
      · obtain ⟨a₀, ha₀, rfl⟩ := Option.map_eq_some_iff.mp ha
        split
        · exact ho
        · exact h.acked r a₀ ha₀
      · exact h.acked r a ha
  | trimAcked => exact ⟨h.increasing, List.filter_sublist.trans h.queue, h.acked⟩
  | addReplica nodeId addr =>
    refine ⟨h.increasing, h.queue, fun r a ha => ?_⟩
    simp only [Leader.apply, ReplicationEngine.apply, acked_addReplica] at ha
    split at ha
    · obtain rfl := Option.some.inj ha
      exact Nat.zero_le _
    · exact h.acked r a ha
  | removeReplica nodeId =>
    refine ⟨h.increasing, h.queue, fun r a ha => ?_⟩
    simp only [Leader.apply, ReplicationEngine.apply, acked_removeReplica] at ha
    split at ha
    · cases ha
    · exact h.acked r a ha

/-- A larger id than any before is recorded: all states are set. -/
theorem Tells.recordEntry (hw : Ranked w) (entry : ReplicationEntry)
    (ho : InOrder w (.recordEntry entry)) : Tells (w.apply (.recordEntry entry)).engine := by
  intro r info' hlookup
  simp only [Leader.apply, ReplicationEngine.apply, ReplicationEngine.recordEntry,
    lookup_mapValues] at hlookup
  obtain ⟨info, hinfo, rfl⟩ := Option.map_eq_some_iff.mp hlookup
  have hle := hw.acked r info.lastAckedTxnId (by rw [acked, hinfo]; rfl)
  have hlt : info.lastAckedTxnId < entry.txnId := by
    rw [UInt64.lt_iff_toNat_lt]
    exact Nat.lt_of_le_of_lt hle ho
  left
  rw [lastTxnId_append, Option.getD_some, stateFor_entry _ hlt]
  simp only [lagOf, Leader.apply, ReplicationEngine.apply, pendingEntries_recordEntry,
    lastTxnId_append, Option.getD_some]
  rfl

theorem Tells.ack (h : Tells w.engine) (replicaId : String) (txnId : UInt64) :
    Tells (w.apply (.ack replicaId txnId)).engine := by
  intro r info' hlookup
  have hqueue : ∀ info, (w.engine.ack replicaId txnId).lagOf info = w.engine.lagOf info :=
    fun info => by rw [lagOf, lagOf, pendingEntries_ack]
  have hconfig : (w.engine.ack replicaId txnId).config = w.engine.config := by
    unfold ReplicationEngine.ack
    split <;> rfl
  simp only [Leader.apply, ReplicationEngine.apply] at hlookup ⊢
  rw [hqueue, hconfig]
  unfold ReplicationEngine.ack at hlookup
  split at hlookup
  · simp only [lookup_insert_eq] at hlookup
    split at hlookup
    · obtain rfl := Option.some.inj hlookup
      exact .inl (stateFor_ack _ _ _ _)
    · exact h r info' hlookup
  · exact h r info' hlookup

/-- The last of the queue has the largest id in it. -/
theorem Ranked.le_last (hw : Ranked w) {t : UInt64}
    (hlast : lastTxnId w.engine.pendingEntries = some t) :
    ∀ e ∈ w.engine.pendingEntries, e.txnId ≤ t := by
  obtain ⟨e', he', rfl⟩ := Option.map_eq_some_iff.mp hlast
  obtain ⟨front, hfront⟩ := List.getLast?_eq_some_iff.mp he'
  have hqueue := List.Pairwise.sublist hw.queue hw.increasing
  rw [hfront] at hqueue ⊢
  intro e he
  rw [UInt64.le_iff_toNat_le]
  rcases List.mem_append.mp he with he | he
  · exact Nat.le_of_lt ((List.pairwise_append.mp hqueue).2.2 e he e' (List.mem_singleton_self e'))
  · rw [List.mem_singleton.mp he]

/-- A trim that takes the last entry leaves nothing, and then the replicas have acknowledged
all there was: no lag changes. -/
theorem Ranked.lagOf_trimAcked (hw : Ranked w) {r : String} {info : ReplicaInfo}
    (hinfo : w.engine.replicas.lookup r = some info) :
    w.engine.trimAcked.lagOf info = w.engine.lagOf info := by
  have hmin : w.engine.minAcked ≤ info.lastAckedTxnId :=
    minAcked_le (r := r) _ (by rw [ReplicationEngine.acked, hinfo]; rfl)
  cases hlast : lastTxnId w.engine.pendingEntries with
  | none =>
    have hnil : w.engine.pendingEntries = [] := by simpa [lastTxnId] using hlast
    simp [lagOf, ReplicationEngine.trimAcked, hnil]
  | some t =>
    by_cases hlt : w.engine.minAcked < t
    · rw [lagOf, lagOf, ReplicationEngine.trimAcked, lastTxnId_filter hlast hlt, hlast]
    · have hnil : w.engine.trimAcked.pendingEntries = [] := by
        refine List.filter_eq_nil_iff.mpr fun e he => ?_
        have hle := UInt64.le_trans (hw.le_last hlast e he) (UInt64.not_lt.mp hlt)
        simpa using UInt64.not_lt.mpr hle
      have hpassed := UInt64.le_trans (UInt64.not_lt.mp hlt) hmin
      rw [UInt64.le_iff_toNat_le] at hpassed
      rw [lagOf, lagOf, hnil, hlast, ← UInt64.toNat_inj, saturatingSub_toNat, saturatingSub_toNat]
      simp only [lastTxnId, List.getLast?_nil, Option.map_none, Option.getD_none,
        Option.getD_some, UInt64.toNat_zero]
      omega

theorem Tells.trimAcked (hw : Ranked w) (h : Tells w.engine) :
    Tells (w.apply .trimAcked).engine := by
  intro r info hlookup
  have hinfo : w.engine.replicas.lookup r = some info := hlookup
  refine (h r info hinfo).imp_left fun hstate => ?_
  rw [hstate, ← hw.lagOf_trimAcked hinfo]
  rfl

theorem Tells.addReplica (h : Tells w.engine) (nodeId addr : String) :
    Tells (w.apply (.addReplica nodeId addr)).engine := by
  intro r info hlookup
  simp only [Leader.apply, ReplicationEngine.apply, ReplicationEngine.addReplica,
    lookup_insert_eq] at hlookup
  split at hlookup
  · obtain rfl := Option.some.inj hlookup
    exact .inr ⟨rfl, rfl⟩
  · exact h r info hlookup

theorem Tells.removeReplica (h : Tells w.engine) (nodeId : String) :
    Tells (w.apply (.removeReplica nodeId)).engine := by
  intro r info hlookup
  simp only [Leader.apply, ReplicationEngine.apply, ReplicationEngine.removeReplica,
    lookup_erase_eq] at hlookup
  split at hlookup
  · cases hlookup
  · exact h r info hlookup

theorem tells_inductive :
    (leader.restrict InOrder).Inductive fun w => Ranked w ∧ Tells w.engine where
  init w hw := by
    obtain ⟨shardId, config, rfl⟩ := hw
    refine ⟨⟨.nil, List.Sublist.refl [], fun r a ha => ?_⟩, fun r info hinfo => ?_⟩
    · cases ha
    · cases hinfo
  step w op w' hw hst := by
    obtain ⟨hranked, htells⟩ := hw
    obtain ⟨hst, ho⟩ := hst
    obtain rfl := Option.some.inj hst
    refine ⟨hranked.apply op ho, ?_⟩
    cases op with
    | recordEntry entry => exact Tells.recordEntry hranked entry ho
    | ack replicaId txnId => exact htells.ack replicaId txnId
    | trimAcked => exact htells.trimAcked hranked
    | addReplica nodeId addr => exact htells.addReplica nodeId addr
    | removeReplica nodeId => exact htells.removeReplica nodeId

/-- In every run in which ids increase and only what was recorded is acknowledged, however
the queue is trimmed: a registered replica has the state that its reported lag calls for, or
it has been added since the last entry and is taken for synced. -/
theorem state_tells_lag {w : Leader} (h : (leader.restrict InOrder).Reachable w) {r : String}
    {info : ReplicaInfo} (hinfo : w.engine.replicas.lookup r = some info) :
    ∃ lag, w.engine.replicationLag r = some lag ∧
      (info.state = StateFor w.engine.config lag ∨
        info.lastAckedTxnId = 0 ∧ info.state = .synced) := by
  refine ⟨w.engine.lagOf info, ?_, (tells_inductive.reachable w h).2 r info hinfo⟩
  rw [replicationLag, hinfo, Option.map_some]
  rfl

/-- A replica that is two entries behind, with one allowed. -/
theorem state_tells_disconnected :
    ∃ (w : Leader) (info : ReplicaInfo) (lag : UInt64),
      w.engine.replicationLag "a" = some lag ∧ info.lastAckedTxnId = 1 ∧
      info.state = StateFor w.engine.config lag := by
  let ops : List EngineOp := [.addReplica "a" "127.0.0.1:9002", .recordEntry ⟨1, 0, 1, []⟩,
    .ack "a" 1, .trimAcked, .recordEntry ⟨2, 0, 1, []⟩, .recordEntry ⟨3, 0, 1, []⟩]
  have hrun : LTS.exec (fun w op => some (Leader.apply w op)) InOrder ⟨.new 0 ⟨1⟩, []⟩ ops =
      some (ops.foldl Leader.apply ⟨.new 0 ⟨1⟩, []⟩) := rfl
  have hinfo : (ops.foldl Leader.apply ⟨.new 0 ⟨1⟩, []⟩).engine.replicas.lookup "a" =
      some ⟨"a", "127.0.0.1:9002", .disconnected, 1⟩ := rfl
  obtain ⟨lag, hlag, hstate⟩ :=
    state_tells_lag (LTS.reachable_of_exec ⟨0, ⟨1⟩, rfl⟩ hrun) hinfo
  exact ⟨_, _, lag, hlag, rfl, hstate.resolve_right fun h => absurd h.1 (by decide)⟩

end Tesseract.L6
