import Tesseract.L6Cluster.Replication

/-!
# What a replica is still to be sent

The leader records entries with increasing ids, replicas acknowledge what they were
sent, and the queue is trimmed behind the slowest of them. `Exact` is what the queue is
for: every registered replica can still be sent all that it has not acknowledged.

A trim looks at the replicas of the moment. One that comes, or comes back, later starts
from 0 again, and what was trimmed before is gone for it.

* `Kept`: the queue is what was recorded above a watermark that every replica has passed.
* `pending_exact_iff`: a run keeps the queue exact just when replicas are added only as
  long as nothing has been trimmed away.
* `pending_lost`: an entry is recorded, acknowledged and trimmed, and the replica that is
  added next is never sent it.
-/
namespace Tesseract.L6

open ReplicationEngine

/-- Ids increase from 1, and only what was recorded is acknowledged. -/
def InOrder (w : Leader) : EngineOp → Prop
  | .recordEntry entry => largest w.recorded < entry.txnId.toNat
  | .ack _ txnId => txnId.toNat ≤ largest w.recorded
  | _ => True

instance : ∀ w op, Decidable (InOrder w op) := fun w op => by
  cases op <;> simp only [InOrder] <;> infer_instance

/-- The queue holds for every registered replica all the entries that it has not
acknowledged, in order. -/
def Exact (w : Leader) : Prop :=
  ∀ r a, w.engine.acked r = some a →
    w.engine.pendingForReplica r = w.recorded.filter fun e => a < e.txnId

/-- A replica is added only while nothing has been trimmed away. -/
def Untrimmed (w : Leader) : EngineOp → Prop
  | .addReplica .. => w.engine.pendingEntries = w.recorded
  | _ => True

/-- The queue starts at a watermark that every replica has passed. -/
structure Kept (w : Leader) (watermark : UInt64) : Prop where
  queue : w.engine.pendingEntries = w.recorded.filter fun e => watermark < e.txnId
  positive : ∀ e ∈ w.recorded, 0 < e.txnId
  recorded : watermark.toNat ≤ largest w.recorded
  passed : ∀ r a, w.engine.acked r = some a → watermark ≤ a
  acked : ∀ r a, w.engine.acked r = some a → a.toNat ≤ largest w.recorded

theorem Kept.exact {w : Leader} {k : UInt64} (h : Kept w k) : Exact w := by
  intro r a ha
  rw [pendingForReplica_eq _ ha, h.queue, List.filter_filter]
  apply List.filter_congr
  intro e _
  have hk := h.passed r a ha
  rw [Bool.and_eq_left_iff_imp]
  simp only [decide_eq_true_eq]
  exact UInt64.lt_of_le_of_lt hk

theorem Kept.new (shardId : UInt64) (config : ReplicationConfig) :
    Kept ⟨.new shardId config, []⟩ 0 where
  queue := rfl
  positive e he := by cases he
  recorded := by simp [largest]
  passed r a ha := by simp at ha
  acked r a ha := by simp at ha

variable {w : Leader} {k : UInt64}

theorem Kept.recordEntry (h : Kept w k) (entry : ReplicationEntry)
    (ho : InOrder w (.recordEntry entry)) : Kept (w.apply (.recordEntry entry)) k where
  queue := by
    have hlt : k < entry.txnId := by
      rw [UInt64.lt_iff_toNat_lt]
      exact lt_of_le_of_lt h.recorded ho
    simp [Leader.apply, ReplicationEngine.apply, h.queue, hlt]
  positive e he := by
    rcases List.mem_append.mp he with he | he
    · exact h.positive e he
    · obtain rfl := List.mem_singleton.mp he
      rw [UInt64.lt_iff_toNat_lt]
      exact Nat.lt_of_le_of_lt (Nat.zero_le _) ho
  recorded := by
    have := h.recorded
    simp only [Leader.apply, largest_append]
    omega
  passed r a ha := h.passed r a (by simpa [Leader.apply, ReplicationEngine.apply] using ha)
  acked r a ha := by
    have := h.acked r a (by simpa [Leader.apply, ReplicationEngine.apply] using ha)
    simp only [Leader.apply, largest_append]
    omega

theorem Kept.ack (h : Kept w k) (replicaId : String) (txnId : UInt64)
    (ho : InOrder w (.ack replicaId txnId)) : Kept (w.apply (.ack replicaId txnId)) k := by
  have hacks : ∀ r a, (w.engine.ack replicaId txnId).acked r = some a →
      w.engine.acked r = some a ∨ a = txnId ∧ ∃ a₀, w.engine.acked r = some a₀ ∧ a₀ ≤ a := by
    intro r a ha
    rw [acked_ack] at ha
    split at ha
    · obtain ⟨a₀, ha₀, heq⟩ := Option.map_eq_some_iff.mp ha
      split at heq
      · next hlt =>
        subst heq
        exact .inr ⟨rfl, a₀, ha₀, UInt64.le_of_lt hlt⟩
      · subst heq
        exact .inl ha₀
    · exact .inl ha
  exact {
    queue := by simp [Leader.apply, ReplicationEngine.apply, h.queue]
    positive := h.positive
    recorded := h.recorded
    passed := by
      intro r a ha
      rcases hacks r a ha with hold | ⟨-, a₀, ha₀, hle⟩
      · exact h.passed r a hold
      · exact UInt64.le_trans (h.passed r a₀ ha₀) hle
    acked := by
      intro r a ha
      rcases hacks r a ha with hold | ⟨rfl, -⟩
      · exact h.acked r a hold
      · exact ho }

/-- A trim moves the watermark up to the slowest replica, if there is one. -/
theorem Kept.trimAcked (h : Kept w k) : ∃ k', Kept (w.apply .trimAcked) k' := by
  have hpass : ∀ r a, w.engine.trimAcked.acked r = some a → w.engine.minAcked ≤ a := by
    intro r a ha
    exact minAcked_le _ (by simpa using ha)
  rcases minAcked_cases w.engine with h0 | ⟨r, hr⟩
  · -- the bound is 0, and all ids are above it
    refine ⟨k, ?_, h.positive, h.recorded, h.passed, h.acked⟩
    simp only [Leader.apply, ReplicationEngine.apply, ReplicationEngine.trimAcked, h.queue, h0,
      List.filter_filter]
    apply List.filter_congr
    intro e he
    simp [h.positive e he]
  · refine ⟨w.engine.minAcked, ?_, h.positive, h.acked r _ hr, hpass, h.acked⟩
    simp only [Leader.apply, ReplicationEngine.apply, ReplicationEngine.trimAcked, h.queue,
      List.filter_filter]
    apply List.filter_congr
    intro e _
    have hk := h.passed r _ hr
    rw [Bool.and_eq_left_iff_imp]
    simp only [decide_eq_true_eq]
    exact UInt64.lt_of_le_of_lt hk

theorem Kept.removeReplica (h : Kept w k) (nodeId : String) :
    Kept (w.apply (.removeReplica nodeId)) k := by
  have hacks : ∀ r a, (w.engine.removeReplica nodeId).acked r = some a →
      w.engine.acked r = some a := by
    intro r a ha
    rw [acked_removeReplica] at ha
    split at ha
    · cases ha
    · exact ha
  exact ⟨h.queue, h.positive, h.recorded, fun r a ha => h.passed r a (hacks r a ha),
    fun r a ha => h.acked r a (hacks r a ha)⟩

theorem Kept.addReplica (h : Kept w k) (nodeId addr : String)
    (hall : w.engine.pendingEntries = w.recorded) :
    Kept (w.apply (.addReplica nodeId addr)) 0 where
  queue := by
    refine (hall.trans (List.filter_eq_self.mpr ?_).symm)
    intro e he
    simpa using h.positive e he
  positive := h.positive
  recorded := Nat.zero_le _
  passed r a _ := UInt64.zero_le
  acked r a ha := by
    simp only [Leader.apply, ReplicationEngine.apply, acked_addReplica] at ha
    split at ha
    · cases ha
      exact Nat.zero_le _
    · exact h.acked r a ha

/-- The replica just added has acknowledged nothing, so that all that was recorded must
still be there for it. -/
theorem Kept.untrimmed (h : Kept w k) (nodeId addr : String)
    (he : Exact (w.apply (.addReplica nodeId addr))) : w.engine.pendingEntries = w.recorded := by
  have hacked : (w.engine.addReplica nodeId addr).acked nodeId = some 0 := by simp
  have hpending := he nodeId 0 hacked
  have hall : ∀ e ∈ w.recorded, decide (0 < e.txnId) = true := by
    intro e hmem
    simpa using h.positive e hmem
  simp only [Leader.apply, ReplicationEngine.apply] at hpending
  rw [pendingForReplica_eq _ hacked, List.filter_eq_self.mpr hall] at hpending
  rwa [pendingEntries_addReplica, List.filter_eq_self.mpr] at hpending
  intro e hmem
  rw [h.queue] at hmem
  exact hall e (List.mem_filter.mp hmem).1

theorem pending_guards :
    (leader.restrict InOrder).Guards Untrimmed (fun w => ∃ k, Kept w k) Exact where
  init w hw := by
    obtain ⟨shardId, config, rfl⟩ := hw
    exact ⟨0, Kept.new shardId config⟩
  holds w hw := by
    obtain ⟨k, hk⟩ := hw
    exact hk.exact
  keeps w op w' hw hst hc := by
    obtain ⟨k, hk⟩ := hw
    obtain ⟨hst, ho⟩ := hst
    obtain rfl := Option.some.inj hst
    cases op with
    | recordEntry entry => exact ⟨k, hk.recordEntry entry ho⟩
    | ack replicaId txnId => exact ⟨k, hk.ack replicaId txnId ho⟩
    | trimAcked => exact hk.trimAcked
    | addReplica nodeId addr => exact ⟨0, hk.addReplica nodeId addr hc⟩
    | removeReplica nodeId => exact ⟨k, hk.removeReplica nodeId⟩
  exact w op w' hw hst he := by
    obtain ⟨k, hk⟩ := hw
    obtain rfl := Option.some.inj hst.1
    cases op with
    | addReplica nodeId addr => exact hk.untrimmed nodeId addr he
    | _ => trivial

/-- The runs in which no replica misses an entry are those that add replicas only while
nothing has been trimmed away. -/
theorem pending_exact_iff {w₀ : Leader} (h0 : leader.init w₀) (ops : List EngineOp)
    (w : Leader) :
    (((leader.restrict InOrder).restrict Untrimmed).Run w₀ ops w → Exact w) ∧
      (((leader.restrict InOrder).within Exact).Run w₀ ops w ↔
        ((leader.restrict InOrder).restrict Untrimmed).Run w₀ ops w) :=
  ⟨fun h => pending_guards.reachable w ⟨w₀, ops, h0, h⟩, pending_guards.run_iff h0⟩

instance : ∀ w op, Decidable (InOrder w op ∧ Untrimmed w op) := fun w op => by
  cases op <;> simp only [InOrder, Untrimmed] <;> infer_instance

/-- A run that trims behind two replicas. -/
theorem pending_exact_trimmed :
    ∃ w, Exact w ∧ w.engine.pendingEntries = [⟨2, 0, 1, []⟩] ∧
      w.engine.acked "a" = some 2 ∧ w.engine.acked "b" = some 1 := by
  let ops : List EngineOp := [.addReplica "a" "127.0.0.1:9002", .addReplica "b" "127.0.0.1:9003",
    .recordEntry ⟨1, 0, 1, []⟩, .recordEntry ⟨2, 0, 1, []⟩, .ack "a" 2, .ack "b" 1, .trimAcked]
  have hrun : LTS.exec (fun w op => some (Leader.apply w op))
      (fun w op => InOrder w op ∧ Untrimmed w op) ⟨.new 0 {}, []⟩ ops =
      some (ops.foldl Leader.apply ⟨.new 0 {}, []⟩) := rfl
  have hrun' : ((leader.restrict InOrder).restrict Untrimmed).Run ⟨.new 0 {}, []⟩ ops _ :=
    (LTS.run_of_exec hrun).restrict_and
  exact ⟨_, (pending_exact_iff ⟨0, {}, rfl⟩ ops _).1 hrun', rfl, rfl, rfl⟩

/-- An entry is recorded, the only replica acknowledges it, and the queue is trimmed. The
replica that is added then is not sent the entry, and has not acknowledged it. -/
theorem pending_lost :
    ∃ w, (leader.restrict InOrder).Reachable w ∧ w.recorded = [⟨1, 0, 1, []⟩] ∧
      w.engine.acked "b" = some 0 ∧ w.engine.pendingForReplica "b" = [] ∧ ¬ Exact w := by
  let ops : List EngineOp := [.addReplica "a" "127.0.0.1:9002", .recordEntry ⟨1, 0, 1, []⟩,
    .ack "a" 1, .trimAcked, .addReplica "b" "127.0.0.1:9003"]
  have hrun : LTS.exec (fun w op => some (Leader.apply w op)) InOrder ⟨.new 0 {}, []⟩ ops =
      some (ops.foldl Leader.apply ⟨.new 0 {}, []⟩) := rfl
  refine ⟨_, LTS.reachable_of_exec ⟨0, {}, rfl⟩ hrun, rfl, rfl, rfl, ?_⟩
  intro hexact
  exact absurd (hexact "b" 0 rfl) (by decide)

end Tesseract.L6
