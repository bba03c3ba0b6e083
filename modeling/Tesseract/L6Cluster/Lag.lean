import Tesseract.L6Cluster.Failover

/-!
# The lag a promotion is decided on

A follower may take over a shard if it is not too far behind. How far that is the engine
takes from the last entry of its queue; a queue that has been trimmed, or filled out of
order, does not end with the largest id ever recorded.

* `LagTrue`: the lag reported for each replica is its distance to the largest id.
* `Sound`: a check promotes a node only if it is not further behind than allowed.
* `sound_iff`: the two say the same.
* `lag_true_iff`: a run keeps them just when no smaller id is recorded while some replica
  is behind, and no replica is added while the largest id is not the last of the queue.
* `stale_promoted`: a node 200 entries behind is promoted, 100 being allowed.
-/
namespace Tesseract.L6

open ReplicationEngine

/-- The lag reported for each replica is its distance to the largest id recorded. -/
def LagTrue (w : Leader) : Prop :=
  ∀ r a, w.engine.acked r = some a →
    ∃ lag, w.engine.replicationLag r = some lag ∧ lag.toNat = largest w.recorded - a.toNat

/-- Whichever node has the engine registered for a shard: if a check promotes the node for
that shard, then it is not further behind than its configuration allows. -/
def Sound [EscapeTable] (w : Leader) : Prop :=
  ∀ (m m' : FailoverManager) (rank : UInt64 → Nat) (now : Nat) (promoted : List UInt64)
    (shardId : UInt64), m.replications.lookup shardId = some w.engine →
    m.checkAndFailover rank now = (m', .ok promoted) → shardId ∈ promoted →
      largest w.recorded - ((w.engine.acked m.nodeId).getD 0).toNat ≤
        m.config.maxPromotionLag.toNat

/-- The id the engine takes for the largest. -/
def Leader.seen (w : Leader) : Nat := ((lastTxnId w.engine.pendingEntries).getD 0).toNat

/-- No smaller id is recorded while some replica is behind, and no replica is added while
the largest id is not the last of the queue. -/
def Tracks (w : Leader) : EngineOp → Prop
  | .recordEntry entry => largest w.recorded ≤ entry.txnId.toNat ∨
      ∀ r a, w.engine.acked r = some a → largest w.recorded ≤ a.toNat
  | .addReplica .. => w.seen = largest w.recorded
  | _ => True

theorem largest_lt (es : List ReplicationEntry) : largest es < 2 ^ 64 := by
  induction es with
  | nil => simp [largest]
  | cons e es ih =>
    have := e.txnId.toNat_lt
    simp only [largest]
    omega

theorem lastTxnId_append (es : List ReplicationEntry) (e : ReplicationEntry) :
    lastTxnId (es ++ [e]) = some e.txnId := by
  simp [lastTxnId]

theorem lastTxnId_filter {es : List ReplicationEntry} {k t : UInt64}
    (h : lastTxnId es = some t) (hk : k < t) :
    lastTxnId (es.filter fun e => k < e.txnId) = some t := by
  obtain ⟨e, he, rfl⟩ := Option.map_eq_some_iff.mp h
  obtain ⟨es', rfl⟩ := List.getLast?_eq_some_iff.mp he
  rw [List.filter_append, List.filter_cons_of_pos (by simpa using hk), List.filter_nil]
  exact lastTxnId_append _ e

/-! ## The invariant -/

/-- The queue holds nothing beyond what was recorded. -/
def Bounded (w : Leader) : Prop :=
  ∀ e ∈ w.engine.pendingEntries, e.txnId.toNat ≤ largest w.recorded

/-- The engine sees the largest id, or the replica has acknowledged it. -/
def Tracked (w : Leader) : Prop :=
  ∀ r a, w.engine.acked r = some a → w.seen = largest w.recorded ∨ largest w.recorded ≤ a.toNat

theorem Bounded.seen_le {w : Leader} (h : Bounded w) : w.seen ≤ largest w.recorded := by
  unfold Leader.seen lastTxnId
  cases hl : w.engine.pendingEntries.getLast? with
  | none => simp
  | some e => exact h e (List.mem_of_getLast? hl)

theorem Bounded.lagTrue_iff {w : Leader} (h : Bounded w) : LagTrue w ↔ Tracked w := by
  have hle := h.seen_le
  have hlag : ∀ r a, w.engine.acked r = some a → ∃ lag, w.engine.replicationLag r = some lag ∧
      lag.toNat = w.seen - a.toNat := by
    intro r a ha
    refine ⟨_, by rw [replicationLag_eq, ha, Option.map_some], ?_⟩
    rw [saturatingSub_toNat]
    rfl
  constructor
  · intro htrue r a ha
    obtain ⟨lag, hlag, heq⟩ := hlag r a ha
    obtain ⟨lag', hlag', heq'⟩ := htrue r a ha
    obtain rfl : lag = lag' := Option.some.inj (hlag.symm.trans hlag')
    omega
  · intro htracked r a ha
    obtain ⟨lag, hlag, heq⟩ := hlag r a ha
    have := htracked r a ha
    exact ⟨lag, hlag, by omega⟩

theorem Bounded.apply {w : Leader} (h : Bounded w) (op : EngineOp) : Bounded (w.apply op) := by
  cases op with
  | recordEntry entry =>
    intro e he
    simp only [Leader.apply, largest_append]
    rcases List.mem_append.mp he with he | he
    · have := h e he
      omega
    · obtain rfl := List.mem_singleton.mp he
      omega
  | ack replicaId txnId =>
    intro e he
    exact h e (by simpa [Leader.apply, ReplicationEngine.apply] using he)
  | trimAcked => exact fun e he => h e (List.mem_filter.mp he).1
  | addReplica nodeId addr => exact h
  | removeReplica nodeId => exact h

variable {w : Leader}

theorem Tracks.recordEntry {entry : ReplicationEntry}
    (ht : Tracks w (.recordEntry entry)) : Tracked (w.apply (.recordEntry entry)) := by
  intro r a ha
  have ha₀ : w.engine.acked r = some a := by
    simpa [Leader.apply, ReplicationEngine.apply] using ha
  have hseen : (w.apply (.recordEntry entry)).seen = entry.txnId.toNat := by
    simp [Leader.seen, Leader.apply, ReplicationEngine.apply, lastTxnId_append]
  rw [hseen, recorded_recordEntry, largest_append]
  rcases ht with hle | hpassed
  · omega
  · have := hpassed r a ha₀
    omega

theorem Tracked.ack (h : Tracked w) (replicaId : String) (txnId : UInt64) :
    Tracked (w.apply (.ack replicaId txnId)) := by
  intro r a ha
  have hseen : (w.apply (.ack replicaId txnId)).seen = w.seen := by
    simp [Leader.seen, Leader.apply, ReplicationEngine.apply]
  obtain ⟨a₀, ha₀, hle⟩ : ∃ a₀, w.engine.acked r = some a₀ ∧ a₀.toNat ≤ a.toNat := by
    simp only [Leader.apply, ReplicationEngine.apply, acked_ack] at ha
    split at ha
    · obtain ⟨a₀, ha₀, heq⟩ := Option.map_eq_some_iff.mp ha
      refine ⟨a₀, ha₀, ?_⟩
      split at heq
      · next hlt =>
        subst heq
        exact (UInt64.lt_iff_toNat_lt.mp hlt).le
      · exact heq ▸ le_refl _
    · exact ⟨a, ha, le_refl _⟩
  have := h r a₀ ha₀
  rw [hseen, recorded_ack]
  omega

/-- If the trim takes the last entry away, then every replica has acknowledged it. -/
theorem Tracked.trimAcked (h : Tracked w) : Tracked (w.apply .trimAcked) := by
  intro r a ha
  have ha₀ : w.engine.acked r = some a := ha
  have hmin := UInt64.le_iff_toNat_le.mp (minAcked_le _ ha₀)
  rcases h r a ha₀ with hseen | hpassed
  · cases hlast : lastTxnId w.engine.pendingEntries with
    | none =>
      simp only [Leader.seen, hlast, Option.getD_none, UInt64.toNat_zero] at hseen
      right
      simp only [Leader.apply]
      omega
    | some t =>
      simp only [Leader.seen, hlast, Option.getD_some] at hseen
      by_cases hlt : w.engine.minAcked < t
      · left
        simp only [Leader.seen, Leader.apply, ReplicationEngine.apply,
          ReplicationEngine.trimAcked, lastTxnId_filter hlast hlt, Option.getD_some, hseen]
      · right
        rw [UInt64.lt_iff_toNat_lt] at hlt
        simp only [Leader.apply]
        omega
  · exact .inr hpassed

theorem Tracked.removeReplica (h : Tracked w) (nodeId : String) :
    Tracked (w.apply (.removeReplica nodeId)) := by
  intro r a ha
  simp only [Leader.apply, ReplicationEngine.apply, acked_removeReplica] at ha
  split at ha
  · cases ha
  · exact h r a ha

theorem Tracked.apply (h : Tracked w) (op : EngineOp) (ht : Tracks w op) :
    Tracked (w.apply op) := by
  cases op with
  | recordEntry entry => exact Tracks.recordEntry ht
  | ack replicaId txnId => exact h.ack replicaId txnId
  | trimAcked => exact h.trimAcked
  | addReplica nodeId addr => exact fun _ _ _ => .inl ht
  | removeReplica nodeId => exact h.removeReplica nodeId

/-- A step that keeps the lags true meets the condition. -/
theorem Tracked.tracks (hb : Bounded w) (op : EngineOp) (h : Tracked (w.apply op)) :
    Tracks w op := by
  cases op with
  | recordEntry entry =>
    have hseen : (w.apply (.recordEntry entry)).seen = entry.txnId.toNat := by
      simp [Leader.seen, Leader.apply, ReplicationEngine.apply, lastTxnId_append]
    by_cases hle : largest w.recorded ≤ entry.txnId.toNat
    · exact .inl hle
    · right
      intro r a ha
      have := h r a (by simpa [Leader.apply, ReplicationEngine.apply] using ha)
      rw [hseen, recorded_recordEntry, largest_append] at this
      omega
  | addReplica nodeId addr =>
    have hle : w.seen ≤ largest w.recorded := hb.seen_le
    have hnew : w.seen = largest w.recorded ∨ largest w.recorded ≤ (0 : UInt64).toNat :=
      h nodeId 0 (by simp [Leader.apply, ReplicationEngine.apply])
    rw [UInt64.toNat_zero] at hnew
    show w.seen = largest w.recorded
    omega
  | _ => trivial

/-! ## Promotions -/

/-- The lag that makes a node eligible, with what `unwrap_or` puts for a node that is not
registered. -/
theorem eligible_iff {m : FailoverManager} {shardId : UInt64} {eng : ReplicationEngine}
    (h : m.replications.lookup shardId = some eng) :
    m.eligible shardId = true ↔
      (eng.replicationLag m.nodeId).getD u64Max ≤ m.config.maxPromotionLag := by
  simp only [FailoverManager.eligible, h, FailoverManager.isEligibleForPromotion,
    decide_eq_true_eq]

theorem LagTrue.sound [EscapeTable] (h : LagTrue w) : Sound w := by
  intro m m' rank now promoted shardId hrep hcheck hmem
  obtain ⟨m₁, promoted₁, hcheck₁, -, htakes⟩ := m.checkAndFailover_ok rank now
  obtain ⟨rfl, hok⟩ := Prod.mk.inj (hcheck₁.symm.trans hcheck)
  obtain rfl := Except.ok.inj hok
  obtain ⟨-, hdue⟩ := (htakes shardId).mp hmem
  have helig := (eligible_iff hrep).mp ((Bool.and_eq_true _ _).mp hdue).2
  rw [UInt64.le_iff_toNat_le] at helig
  cases ha : w.engine.acked m.nodeId with
  | none =>
    rw [replicationLag_eq, ha, Option.map_none, Option.getD_none] at helig
    have hmax : u64Max.toNat = 2 ^ 64 - 1 := rfl
    have := largest_lt w.recorded
    simp only [Option.getD_none, UInt64.toNat_zero]
    omega
  | some a =>
    obtain ⟨lag, hlag, heq⟩ := h m.nodeId a ha
    rw [hlag, Option.getD_some] at helig
    rw [Option.getD_some]
    omega

/-- A node that follows shard 0, has never heard of the leader, and allows a lag of
`maxPromotionLag`. -/
def follower (eng : ReplicationEngine) (nodeId : String) (maxPromotionLag : UInt64) :
    FailoverManager :=
  let m := FailoverManager.new nodeId ⟨3000, maxPromotionLag⟩ (.new nodeId)
  { m.setReplicationEngine 0 eng with election := m.election.setLeader 0 "leader-1" }

/-- The follower takes the shard as soon as its lag is reported to be small enough. -/
theorem follower_promoted [EscapeTable] {eng : ReplicationEngine} {nodeId : String} {lag : UInt64}
    (h : eng.replicationLag nodeId = some lag) :
    ∃ m' promoted, (follower eng nodeId lag).checkAndFailover (fun _ => 0) 0 =
      (m', .ok promoted) ∧ 0 ∈ promoted := by
  obtain ⟨m', promoted, hcheck, -, htakes⟩ :=
    (follower eng nodeId lag).checkAndFailover_ok (fun _ => 0) 0
  refine ⟨m', promoted, hcheck, (htakes 0).mpr ⟨⟨"leader-1", rfl⟩, ?_⟩⟩
  have hrep : (follower eng nodeId lag).replications.lookup 0 = some eng := rfl
  have helig := (eligible_iff hrep).mpr (by
    show (eng.replicationLag nodeId).getD u64Max ≤ lag
    rw [h, Option.getD_some]
    exact UInt64.le_refl lag)
  rw [FailoverManager.due, helig]
  rfl

theorem Bounded.sound_iff [EscapeTable] (hb : Bounded w) : Sound w ↔ LagTrue w := by
  refine ⟨fun hs => hb.lagTrue_iff.mpr ?_, LagTrue.sound⟩
  intro r a ha
  have hlag : w.engine.replicationLag r =
      some (saturatingSub ((lastTxnId w.engine.pendingEntries).getD 0) a) := by
    rw [replicationLag_eq, ha, Option.map_some]
  obtain ⟨m', promoted, hcheck, hmem⟩ := follower_promoted hlag
  have hle := hs _ _ _ _ _ 0 rfl hcheck hmem
  have hacked : w.engine.acked (follower w.engine r
      (saturatingSub ((lastTxnId w.engine.pendingEntries).getD 0) a)).nodeId = some a := ha
  rw [hacked, Option.getD_some] at hle
  have hmax : (follower w.engine r (saturatingSub ((lastTxnId w.engine.pendingEntries).getD 0)
      a)).config.maxPromotionLag.toNat = w.seen - a.toNat := saturatingSub_toNat _ _
  have := hb.seen_le
  omega

theorem tracked_guards : leader.Guards Tracks (fun w => Bounded w ∧ Tracked w) LagTrue where
  init w hw := by
    obtain ⟨shardId, config, rfl⟩ := hw
    exact ⟨List.forall_mem_nil _, fun r a ha => by simp at ha⟩
  holds w hw := hw.1.lagTrue_iff.mpr hw.2
  keeps w op w' hw hst ht := by
    obtain rfl := Option.some.inj hst
    exact ⟨hw.1.apply op, hw.2.apply op ht⟩
  exact w op w' hw hst htrue := by
    obtain rfl := Option.some.inj hst
    exact Tracked.tracks hw.1 op ((hw.1.apply op).lagTrue_iff.mp htrue)

theorem sound_guards [EscapeTable] :
    leader.Guards Tracks (fun w => Bounded w ∧ Tracked w) Sound where
  init := tracked_guards.init
  holds w hw := LagTrue.sound (tracked_guards.holds w hw)
  keeps := tracked_guards.keeps
  exact w op w' hw hst hs := by
    refine tracked_guards.exact w op w' hw hst ?_
    obtain rfl := Option.some.inj hst
    exact (hw.1.apply op).sound_iff.mp hs

/-- The runs in which every lag is reported as it is, and the runs in which no node is
promoted that is too far behind, are those that meet the condition in every step. -/
theorem lag_true_iff [EscapeTable] {w₀ : Leader} (h0 : leader.init w₀) (ops : List EngineOp)
    (w : Leader) :
    ((leader.restrict Tracks).Run w₀ ops w → LagTrue w ∧ Sound w) ∧
      ((leader.within LagTrue).Run w₀ ops w ↔ (leader.restrict Tracks).Run w₀ ops w) ∧
      ((leader.within Sound).Run w₀ ops w ↔ (leader.restrict Tracks).Run w₀ ops w) := by
  refine ⟨fun h => ?_, tracked_guards.run_iff h0, sound_guards.run_iff h0⟩
  have hw : (leader.restrict Tracks).Reachable w := ⟨w₀, ops, h0, h⟩
  exact ⟨tracked_guards.reachable w hw, sound_guards.reachable w hw⟩

attribute [local instance] EscapeTable.ascii

/-- A run in which one replica is ahead of the other. -/
theorem lag_true_two :
    ∃ w, LagTrue w ∧ Sound w ∧ largest w.recorded = 2 ∧
      w.engine.replicationLag "a" = some 0 ∧ w.engine.replicationLag "b" = some 2 := by
  let ops : List EngineOp := [.addReplica "a" "127.0.0.1:9002", .addReplica "b" "127.0.0.1:9003",
    .recordEntry ⟨1, 0, 1, []⟩, .recordEntry ⟨2, 0, 1, []⟩, .ack "a" 2, .trimAcked]
  let w := ops.foldl Leader.apply ⟨.new 0 {}, []⟩
  have hrun : (leader.restrict Tracks).Run ⟨.new 0 {}, []⟩ ops w :=
    .cons ⟨rfl, rfl⟩ (.cons ⟨rfl, rfl⟩ (.cons ⟨rfl, .inl (by decide)⟩
      (.cons ⟨rfl, .inl (by decide)⟩ (.cons ⟨rfl, trivial⟩ (.cons ⟨rfl, trivial⟩ (.nil _))))))
  have hw := (lag_true_iff ⟨0, {}, rfl⟩ ops w).1 hrun
  exact ⟨w, hw.1, hw.2, rfl, by decide, by decide⟩

/-- The largest id is acknowledged by one replica and trimmed. The replica that is added
then is reported to be up to date; it is 200 behind, and promoted though 100 is allowed. -/
theorem stale_promoted :
    ∃ w, leader.Reachable w ∧ largest w.recorded = 200 ∧ w.engine.acked "b" = some 0 ∧
      w.engine.replicationLag "b" = some 0 ∧
      ((follower w.engine "b" 100).checkAndFailover (fun _ => 0) 0).2 = .ok [0] ∧
      ¬ Sound w ∧ ¬ LagTrue w := by
  let ops : List EngineOp := [.addReplica "a" "127.0.0.1:9002", .recordEntry ⟨200, 0, 1, []⟩,
    .ack "a" 200, .trimAcked, .addReplica "b" "127.0.0.1:9003"]
  let w := ops.foldl Leader.apply ⟨.new 0 {}, []⟩
  have hcheck : ((follower w.engine "b" 100).checkAndFailover (fun _ => 0) 0).2 = .ok [0] := by
    decide +kernel
  have hunsound : ¬ Sound w := by
    intro hs
    have hle := hs (follower w.engine "b" 100) _ (fun _ => 0) 0 [0] 0 rfl
      (Prod.ext rfl hcheck) (by simp)
    exact absurd hle (by decide)
  have hrun : leader.Run ⟨.new 0 {}, []⟩ ops w :=
    .cons rfl (.cons rfl (.cons rfl (.cons rfl (.cons rfl (.nil _)))))
  exact ⟨w, ⟨_, ops, ⟨0, {}, rfl⟩, hrun⟩, rfl, rfl, by decide, hcheck, hunsound,
    fun htrue => hunsound htrue.sound⟩

end Tesseract.L6
