import Mathlib.Logic.Function.Basic
import Tesseract.L6Cluster.Replayed
import Tesseract.L6Cluster.ReplicaStates

/-!
# Shipping the log to the followers

The leader of a shard with its engine, the followers with their storage, and the network
between them. Part of what a replica is still to be sent may be posted to it at any time;
what has been posted may arrive at any time, any number of times or never, and so may the
answer to it. The loop that would drive this is not in the repository, so that no order of
the steps is taken for granted.

* `Shipped`: every follower holds what a prefix of the log makes, the prefix covers what it
  has acknowledged and what is on its way from it, and every batch on its way to it starts
  inside.
* `followers_hold_prefix`: so it is in every run.
* `catches_up`: one round without a fault brings a follower up to date.
-/
namespace Tesseract.L6

open ReplicationEngine Redelivery L3 L3.Serde L4

variable {α β : Type} [F64 α]

/-! ## The parties and the network -/

/-- `posted` and `answered` only grow: a message may be lost, late or doubled. -/
structure Shipping (α β : Type) [F64 α] where
  leader : Leader
  follower : String → Engine α β
  posted : List (String × List ReplicationEntry)
  answered : List (String × ReplicationResponse)

namespace Shipping

inductive Event where
  | recordEntry (entry : ReplicationEntry)
  | trimAcked
  | addReplica (nodeId addr : String)
  | removeReplica (nodeId : String)
  /-- up to `count` pending entries -/
  | post (nodeId : String) (count : Nat)
  | arrive (n : Nat) (env : OpenEnv)
  | answer (n : Nat)

/-- A follower that panics stops the run.
mirrors tesseract-cluster/src/replication_client.rs:41-55 -/
def step [F32 β] [Narrow α β] (P : Deps α) (w : Shipping α β) : Event → Option (Shipping α β)
  | .recordEntry entry => some { w with leader := w.leader.apply (.recordEntry entry) }
  | .trimAcked => some { w with leader := w.leader.apply .trimAcked }
  | .addReplica nodeId addr => some { w with leader := w.leader.apply (.addReplica nodeId addr) }
  | .removeReplica nodeId => some { w with leader := w.leader.apply (.removeReplica nodeId) }
  | .post nodeId count =>
    let batch := (w.leader.engine.pendingForReplica nodeId).take count
    some { w with posted := w.posted ++ [(nodeId, batch)] }
  | .arrive n env => do
    let (nodeId, batch) ← w.posted[n]?
    let (storage, _, resp) ←
      ClusterApiState.internalReplicateHandler P env batch (some (w.follower nodeId))
    some { w with
      follower := Function.update w.follower nodeId (storage.getD (w.follower nodeId))
      answered := w.answered ++ [(nodeId, resp)] }
  | .answer n => do
    let (nodeId, resp) ← w.answered[n]?
    some { w with leader := w.leader.apply (.ack nodeId resp.lastAckedTxnId) }

/-- A new engine, and followers with nothing in their hot stores. -/
def Start (w : Shipping α β) : Prop :=
  (∃ shardId config, w.leader = ⟨.new shardId config, []⟩) ∧
    (∀ nodeId, (w.follower nodeId).hot.vectors = []) ∧ w.posted = [] ∧ w.answered = []

/-- Ids increase from 1, and replicas come before anything has been trimmed away. -/
def Regular (w : Shipping α β) : Event → Prop
  | .recordEntry entry => InOrder w.leader (.recordEntry entry)
  | .addReplica nodeId addr => Untrimmed w.leader (.addReplica nodeId addr)
  | _ => True

instance (w : Shipping α β) : ∀ ev, Decidable (Regular w ev)
  | .recordEntry _ => inferInstanceAs (Decidable (_ < _))
  | .addReplica _ _ => inferInstanceAs (Decidable (_ = _))
  | .trimAcked => inferInstanceAs (Decidable True)
  | .removeReplica _ => inferInstanceAs (Decidable True)
  | .post _ _ => inferInstanceAs (Decidable True)
  | .arrive _ _ => inferInstanceAs (Decidable True)
  | .answer _ => inferInstanceAs (Decidable True)

def system [F32 β] [Narrow α β] (P : Deps α) : LTS (Shipping α β) Event := .ofFn Start (step P)

end Shipping

/-! ## The ids of the log -/

theorem drop_upTo_txn {log : List ReplicationEntry}
    (h : log.Pairwise fun x y => txn x < txn y) (a : UInt64) :
    (log.filter fun e => a < e.txnId) = log.drop (upTo txn log a.toNat) := by
  rw [drop_upTo h]
  refine List.filter_congr fun e _ => ?_
  simp only [txn, UInt64.lt_iff_toNat_lt]
  rfl

namespace Shipping

/-! ## The invariant -/

/-- `p` is how far each follower has come. -/
structure Shipped (P : Deps α) (w : Shipping α β) (p : String → Nat) : Prop where
  sorted : Increasing w.leader
  kept : ∃ k, Kept w.leader k
  le : ∀ r, p r ≤ w.leader.recorded.length
  rows : ∀ r, rows (w.follower r).hot =
    replayed P (w.follower r).hot.maxRecords (w.leader.recorded.take (p r))
  acked : ∀ r a, w.leader.engine.acked r = some a → upTo txn w.leader.recorded a.toNat ≤ p r
  posted : ∀ r batch, (r, batch) ∈ w.posted → ∃ a b, a ≤ p r ∧
    b ≤ w.leader.recorded.length ∧ batch = (w.leader.recorded.take b).drop a
  answered : ∀ r resp, (r, resp) ∈ w.answered →
    resp.lastAckedTxnId.toNat ≤ largest w.leader.recorded ∧
      upTo txn w.leader.recorded resp.lastAckedTxnId.toNat ≤ p r

variable {P : Deps α} {w : Shipping α β} {p : String → Nat}

theorem Shipped.positive (h : Shipped P w p) : ∀ e ∈ w.leader.recorded, 0 < txn e := by
  obtain ⟨k, hk⟩ := h.kept
  intro e he
  have := UInt64.lt_iff_toNat_lt.mp (hk.positive e he)
  simpa [txn] using this

theorem shipped_start (h : Start w) : Shipped P w fun _ => 0 := by
  obtain ⟨⟨shardId, config, hleader⟩, hhot, hposted, hanswered⟩ := h
  refine ⟨?_, ⟨0, ?_⟩, fun r => Nat.zero_le _, fun r => ?_, fun r a ha => ?_, fun r b hb => ?_,
    fun r resp hr => ?_⟩
  · rw [hleader]
    exact .nil
  · rw [hleader]
    exact Kept.new shardId config
  · simp [L6.rows, hhot r, replayed]
  · rw [hleader] at ha
    cases ha
  · simp [hposted] at hb
  · simp [hanswered] at hr

/-- An operation that records nothing, and acknowledges only what is covered. -/
theorem Shipped.setLeader (h : Shipped P w p) {leader : Leader}
    (hrec : leader.recorded = w.leader.recorded) (hkept : ∃ k, Kept leader k)
    (hacked : ∀ r a, leader.engine.acked r = some a → upTo txn w.leader.recorded a.toNat ≤ p r) :
    Shipped P { w with leader } p where
  sorted := by
    rw [Increasing, hrec]
    exact h.sorted
  kept := hkept
  le := by simpa [hrec] using h.le
  rows := by simpa [hrec] using h.rows
  acked := by simpa [hrec] using hacked
  posted := by simpa [hrec] using h.posted
  answered := by simpa [hrec] using h.answered

theorem Shipped.recordEntry (h : Shipped P w p) (entry : ReplicationEntry)
    (ho : InOrder w.leader (.recordEntry entry)) :
    Shipped P { w with leader := w.leader.apply (.recordEntry entry) } p := by
  have hlt : largest w.leader.recorded < txn entry := ho
  have htake : ∀ b ≤ w.leader.recorded.length,
      (w.leader.recorded ++ [entry]).take b = w.leader.recorded.take b :=
    fun b hb => List.take_append_of_le_length hb
  have hupTo : ∀ a ≤ largest w.leader.recorded,
      upTo txn (w.leader.recorded ++ [entry]) a = upTo txn w.leader.recorded a := by
    intro a ha
    rw [upTo_append, if_neg (by omega), Nat.add_zero]
  obtain ⟨k, hk⟩ := h.kept
  refine ⟨?_, ⟨k, hk.recordEntry entry ho⟩, fun r => ?_, fun r => ?_, fun r a ha => ?_,
    fun r batch hb => ?_, fun r resp hr => ?_⟩
  · exact h.sorted.recordEntry ho
  · rw [recorded_recordEntry, List.length_append]
    exact Nat.le_add_right_of_le (h.le r)
  · rw [recorded_recordEntry, htake _ (h.le r)]
    exact h.rows r
  · have ha' : w.leader.engine.acked r = some a := by
      simpa [Leader.apply, ReplicationEngine.apply] using ha
    rw [recorded_recordEntry, hupTo _ (hk.acked r a ha')]
    exact h.acked r a ha'
  · obtain ⟨a, b, hap, hb', rfl⟩ := h.posted r batch hb
    refine ⟨a, b, hap, ?_, ?_⟩
    · rw [recorded_recordEntry, List.length_append]
      exact Nat.le_add_right_of_le hb'
    · rw [recorded_recordEntry, htake b hb']
  · obtain ⟨hle, hcover⟩ := h.answered r resp hr
    refine ⟨?_, ?_⟩
    · rw [recorded_recordEntry, largest_append]
      omega
    · rw [recorded_recordEntry, hupTo _ hle]
      exact hcover

theorem Shipped.trimAcked (h : Shipped P w p) :
    Shipped P { w with leader := w.leader.apply .trimAcked } p := by
  obtain ⟨k, hk⟩ := h.kept
  exact h.setLeader rfl hk.trimAcked fun r a ha => h.acked r a ha

theorem Shipped.removeReplica (h : Shipped P w p) (nodeId : String) :
    Shipped P { w with leader := w.leader.apply (.removeReplica nodeId) } p := by
  obtain ⟨k, hk⟩ := h.kept
  refine h.setLeader rfl ⟨k, hk.removeReplica nodeId⟩ fun r a ha => ?_
  simp only [Leader.apply, ReplicationEngine.apply, acked_removeReplica] at ha
  split at ha
  · cases ha
  · exact h.acked r a ha

theorem Shipped.addReplica (h : Shipped P w p) (nodeId addr : String)
    (hall : w.leader.engine.pendingEntries = w.leader.recorded) :
    Shipped P { w with leader := w.leader.apply (.addReplica nodeId addr) } p := by
  obtain ⟨k, hk⟩ := h.kept
  refine h.setLeader rfl ⟨0, hk.addReplica nodeId addr hall⟩ fun r a ha => ?_
  simp only [Leader.apply, ReplicationEngine.apply, acked_addReplica] at ha
  split at ha
  · obtain rfl := Option.some.inj ha
    rw [UInt64.toNat_zero, upTo_eq_zero h.positive]
    exact Nat.zero_le _
  · exact h.acked r a ha

theorem Shipped.ack (h : Shipped P w p) {r : String} {resp : ReplicationResponse}
    (hr : (r, resp) ∈ w.answered) :
    Shipped P { w with leader := w.leader.apply (.ack r resp.lastAckedTxnId) } p := by
  obtain ⟨k, hk⟩ := h.kept
  obtain ⟨hle, hcover⟩ := h.answered r resp hr
  refine h.setLeader rfl ⟨k, hk.ack r resp.lastAckedTxnId hle⟩ fun r' a ha => ?_
  simp only [Leader.apply, ReplicationEngine.apply, acked_ack] at ha
  split at ha
  · next hr' =>
    subst hr'
    obtain ⟨a₀, ha₀, heq⟩ := Option.map_eq_some_iff.mp ha
    split at heq
    · rw [← heq]
      exact hcover
    · rw [← heq]
      exact h.acked r' a₀ ha₀
  · exact h.acked r' a ha

/-- What is posted is a part of the log that starts where the replica has acknowledged. -/
theorem Shipped.post (h : Shipped P w p) (nodeId : String) (count : Nat) :
    Shipped P { w with posted := w.posted ++
      [(nodeId, (w.leader.engine.pendingForReplica nodeId).take count)] } p := by
  refine ⟨h.sorted, h.kept, h.le, h.rows, h.acked, fun r batch hb => ?_, h.answered⟩
  rcases List.mem_append.mp hb with hb | hb
  · exact h.posted r batch hb
  obtain ⟨rfl, rfl⟩ := Prod.mk.inj (List.mem_singleton.mp hb)
  cases hacked : w.leader.engine.acked r with
  | none =>
    have hnone : w.leader.engine.pendingForReplica r = [] := by
      have hlookup : w.leader.engine.replicas.lookup r = none := Option.map_eq_none_iff.mp hacked
      rw [pendingForReplica, hlookup]
    exact ⟨0, 0, Nat.zero_le _, Nat.zero_le _, by simp [hnone]⟩
  | some a =>
    obtain ⟨k, hk⟩ := h.kept
    have hpending : w.leader.engine.pendingForReplica r =
        w.leader.recorded.drop (upTo txn w.leader.recorded a.toNat) :=
      (hk.exact r a hacked).trans (drop_upTo_txn h.sorted a)
    refine ⟨upTo txn w.leader.recorded a.toNat,
      min (upTo txn w.leader.recorded a.toNat + count) w.leader.recorded.length,
      h.acked r a hacked, Nat.min_le_right _ _, ?_⟩
    rw [hpending, List.take_drop]
    congr 1
    rcases Nat.le_total (upTo txn w.leader.recorded a.toNat + count)
      w.leader.recorded.length with hle | hle
    · rw [Nat.min_eq_left hle]
    · rw [Nat.min_eq_right hle, List.take_length, List.take_of_length_le hle]

/-- The follower `r` comes to `q`, and answers no more than that. -/
theorem Shipped.advance (h : Shipped P w p) {r : String} {out : Engine α β}
    {resp : ReplicationResponse} {q : Nat} (hpq : p r ≤ q) (hq : q ≤ w.leader.recorded.length)
    (hrows : L6.rows out.hot = replayed P out.hot.maxRecords (w.leader.recorded.take q))
    (hlargest : resp.lastAckedTxnId.toNat ≤ largest w.leader.recorded)
    (hcover : upTo txn w.leader.recorded resp.lastAckedTxnId.toNat ≤ q) :
    Shipped P { w with
      follower := Function.update w.follower r out
      answered := w.answered ++ [(r, resp)] } (Function.update p r q) := by
  have hfar : ∀ r', p r' ≤ Function.update p r q r' := by
    intro r'
    by_cases hr' : r' = r
    · rw [hr', Function.update_self]
      exact hpq
    · rw [Function.update_of_ne hr']
  refine ⟨h.sorted, h.kept, fun r' => ?_, fun r' => ?_,
    fun r' a ha => (h.acked r' a ha).trans (hfar r'), fun r' batch hb => ?_,
    fun r' resp' hr' => ?_⟩
  · by_cases hr' : r' = r
    · simpa [hr'] using hq
    · simpa [hr'] using h.le r'
  · by_cases hr' : r' = r
    · simpa [hr'] using hrows
    · simpa [hr'] using h.rows r'
  · obtain ⟨a, b, ha, hle, heq⟩ := h.posted r' batch hb
    exact ⟨a, b, ha.trans (hfar r'), hle, heq⟩
  · rcases List.mem_append.mp hr' with hr' | hr'
    · obtain ⟨hle, hcover'⟩ := h.answered r' resp' hr'
      exact ⟨hle, hcover'.trans (hfar r')⟩
    · obtain ⟨rfl, rfl⟩ := Prod.mk.inj (List.mem_singleton.mp hr')
      rw [Function.update_self]
      exact ⟨hlargest, hcover⟩

/-- The last id of a part of the log covers the log up to the end of the part. -/
theorem Shipped.lastTxnId_slice (h : Shipped P w p) (a : Nat) {b : Nat}
    (hb : b ≤ w.leader.recorded.length) {last : UInt64}
    (hlast : last = (lastTxnId ((w.leader.recorded.take b).drop a)).getD 0) :
    last.toNat ≤ largest w.leader.recorded ∧
      (b ≤ a ∧ last = 0 ∨ a < b ∧ upTo txn w.leader.recorded last.toNat = b) := by
  have hlen : (w.leader.recorded.take b).length = b := by
    rw [List.length_take, Nat.min_eq_left hb]
  rw [lastTxnId, List.getLast?_drop, hlen] at hlast
  split at hlast
  · next hba =>
    rw [hlast]
    exact ⟨Nat.zero_le _, .inl ⟨hba, rfl⟩⟩
  · next hab =>
    cases hl : (w.leader.recorded.take b).getLast? with
    | none =>
      rw [List.getLast?_eq_none_iff.mp hl, List.length_nil] at hlen
      omega
    | some e =>
      rw [hl] at hlast
      have he : last.toNat = txn e := by
        rw [hlast]
        rfl
      have hmem : e ∈ w.leader.recorded := List.mem_of_mem_take (List.mem_of_getLast? hl)
      rw [he]
      exact ⟨txn_le_largest hmem, .inr ⟨by omega, upTo_last h.sorted hb hl⟩⟩

variable [F32 β] [Narrow α β]

/-- A batch that arrives, whenever and how often it may be, takes the follower along the log,
or leaves it where it is. -/
theorem Shipped.arrive (h : Shipped P w p) {n : Nat} {env : OpenEnv} {w' : Shipping α β}
    (hstep : w.step P (.arrive n env) = some w') : ∃ p', Shipped P w' p' := by
  obtain ⟨⟨r, batch⟩, hget, hstep⟩ := Option.bind_eq_some_iff.mp hstep
  obtain ⟨⟨storage, status, resp⟩, hrun, hstep⟩ := Option.bind_eq_some_iff.mp hstep
  obtain ⟨out, rfl, k, hk, hmax, hrows, hsuccess, hfail⟩ := rows_handleReplicate hrun
  obtain rfl := Option.some.inj hstep
  obtain ⟨a, b, hap, hb, rfl⟩ := h.posted r batch (List.mem_of_getElem? hget)
  have hlen : ((w.leader.recorded.take b).drop a).length = b - a := by
    rw [List.length_drop, List.length_take, Nat.min_eq_left hb]
  -- the part of the batch that is applied ends at `min (a + k) b`
  have hpart : ((w.leader.recorded.take b).drop a).take k =
      (w.leader.recorded.take (min (a + k) b)).drop a := by
    rw [List.take_drop, List.take_take]
  have hnew : L6.rows out.hot = replayed P out.hot.maxRecords
      (w.leader.recorded.take (max (p r) (min (a + k) b))) := by
    rw [hrows, hpart, h.rows r, hmax]
    exact (settles_addEntry P _ []).foldl_slice _ _ hap
  have hanswer : resp.lastAckedTxnId.toNat ≤ largest w.leader.recorded ∧
      upTo txn w.leader.recorded resp.lastAckedTxnId.toNat ≤ max (p r) (min (a + k) b) := by
    cases hs : resp.success with
    | false =>
      rw [hfail hs, UInt64.toNat_zero, upTo_eq_zero h.positive]
      exact ⟨Nat.zero_le _, Nat.zero_le _⟩
    | true =>
      obtain ⟨hall, hlast⟩ := hsuccess hs
      obtain ⟨hlargest, ⟨-, hzero⟩ | ⟨hab, hcover⟩⟩ := h.lastTxnId_slice a hb hlast
      · rw [hzero, UInt64.toNat_zero, upTo_eq_zero h.positive]
        exact ⟨Nat.zero_le _, Nat.zero_le _⟩
      · exact ⟨hlargest, by omega⟩
  have hle := h.le r
  exact ⟨_, h.advance (Nat.le_max_left _ _) (by omega) hnew hanswer.1 hanswer.2⟩

theorem shipped_inductive (P : Deps α) :
    ((system (β := β) P).restrict Regular).Inductive fun w => ∃ p, Shipped P w p where
  init w hw := ⟨fun _ => 0, shipped_start hw⟩
  step w ev w' hw hst := by
    obtain ⟨p, hp⟩ := hw
    obtain ⟨hst, hregular⟩ := hst
    cases ev with
    | recordEntry entry =>
      obtain rfl := Option.some.inj hst
      exact ⟨p, hp.recordEntry entry hregular⟩
    | trimAcked =>
      obtain rfl := Option.some.inj hst
      exact ⟨p, hp.trimAcked⟩
    | addReplica nodeId addr =>
      obtain rfl := Option.some.inj hst
      exact ⟨p, hp.addReplica nodeId addr hregular⟩
    | removeReplica nodeId =>
      obtain rfl := Option.some.inj hst
      exact ⟨p, hp.removeReplica nodeId⟩
    | post nodeId count =>
      obtain rfl := Option.some.inj hst
      exact ⟨p, hp.post nodeId count⟩
    | arrive n env => exact hp.arrive hst
    | answer n =>
      obtain ⟨⟨r, resp⟩, hget, hst⟩ := Option.bind_eq_some_iff.mp hst
      obtain rfl := Option.some.inj hst
      exact ⟨p, hp.ack (List.mem_of_getElem? hget)⟩

/-- In every run, whatever is lost, late or doubled on the way: the hot store of a follower
is what a prefix of the log makes, and the prefix has every entry that the follower has
acknowledged and, if it is registered, every entry that the leader has trimmed away. -/
theorem followers_hold_prefix (P : Deps α) {w : Shipping α β}
    (h : ((system P).restrict Regular).Reachable w) (nodeId : String) :
    ∃ p ≤ w.leader.recorded.length,
      L6.rows (w.follower nodeId).hot =
        replayed P (w.follower nodeId).hot.maxRecords (w.leader.recorded.take p) ∧
      ∀ a, w.leader.engine.acked nodeId = some a → ∀ e ∈ w.leader.recorded,
        e.txnId ≤ a ∨ e ∉ w.leader.engine.pendingEntries → e ∈ w.leader.recorded.take p := by
  obtain ⟨p, hp⟩ := (shipped_inductive P).reachable w h
  refine ⟨p nodeId, hp.le nodeId, hp.rows nodeId, fun a ha e he hcover => ?_⟩
  have hle : txn e ≤ a.toNat := by
    rcases hcover with hle | hgone
    · exact UInt64.le_iff_toNat_le.mp hle
    · -- what is gone from the queue is below the watermark
      obtain ⟨k, hk⟩ := hp.kept
      have hlow : ¬ k < e.txnId := fun hlt => hgone (by simp [hk.queue, he, hlt])
      have hka := UInt64.le_iff_toNat_le.mp (hk.passed nodeId a ha)
      rw [UInt64.lt_iff_toNat_lt] at hlow
      unfold txn
      omega
  have hmem : e ∈ w.leader.recorded.take (upTo txn w.leader.recorded a.toNat) := by
    rw [take_upTo hp.sorted]
    simp [he, hle]
  exact (List.take_sublist_take_left (hp.acked nodeId a ha)).subset hmem

omit [F32 β] [Narrow α β] in
/-- All that is recorded is covered by what a replica has acknowledged of a whole round. -/
theorem Shipped.round (h : Shipped P w p) {a last : UInt64}
    (hlast : last = (lastTxnId (w.leader.recorded.drop
      (upTo txn w.leader.recorded a.toNat))).getD 0) :
    ∀ e ∈ w.leader.recorded, txn e ≤ (if a < last then last else a).toNat := by
  have hslice : last = (lastTxnId ((w.leader.recorded.take w.leader.recorded.length).drop
      (upTo txn w.leader.recorded a.toNat))).getD 0 := by
    rw [List.take_length]
    exact hlast
  have hbound : ∀ k, upTo txn w.leader.recorded k = w.leader.recorded.length →
      ∀ e ∈ w.leader.recorded, txn e ≤ k := by
    intro k hk e he
    simpa using List.countP_eq_length.mp hk e he
  intro e he
  rcases (h.lastTxnId_slice _ (Nat.le_refl _) hslice).2 with ⟨hall, hzero⟩ | ⟨hsome, hcover⟩
  · have hfull := Nat.le_antisymm (upTo_le w.leader.recorded a.toNat) hall
    have hnot : ¬ a < last := by
      rw [hzero]
      exact UInt64.not_lt_zero
    rw [if_neg hnot]
    exact hbound _ hfull e he
  · split
    · exact hbound _ hcover e he
    · next hnot =>
      have hle := UInt64.le_iff_toNat_le.mp (UInt64.not_lt.mp hnot)
      exact (hbound _ hcover e he).trans hle

/-- A round: all that is pending is posted, arrives and is answered. -/
theorem round_run {nodeId : String} {env : OpenEnv} {out : Engine α β} {status : Nat}
    {resp : ReplicationResponse}
    (hrun : ClusterApiState.internalReplicateHandler P env
      (w.leader.engine.pendingForReplica nodeId) (some (w.follower nodeId)) =
        some (some out, status, resp)) :
    ((system P).restrict Regular).Run w
      [.post nodeId (w.leader.engine.pendingForReplica nodeId).length,
        .arrive w.posted.length env, .answer w.answered.length]
      { w with
        leader := w.leader.apply (.ack nodeId resp.lastAckedTxnId)
        follower := Function.update w.follower nodeId out
        posted := w.posted ++ [(nodeId, w.leader.engine.pendingForReplica nodeId)]
        answered := w.answered ++ [(nodeId, resp)] } := by
  have hpost : step P w (.post nodeId (w.leader.engine.pendingForReplica nodeId).length) =
      some { w with
        posted := w.posted ++ [(nodeId, w.leader.engine.pendingForReplica nodeId)] } := by
    rw [step, List.take_length]
  have harrive : step P { w with
        posted := w.posted ++ [(nodeId, w.leader.engine.pendingForReplica nodeId)] }
      (.arrive w.posted.length env) =
      some { w with
        follower := Function.update w.follower nodeId out
        posted := w.posted ++ [(nodeId, w.leader.engine.pendingForReplica nodeId)]
        answered := w.answered ++ [(nodeId, resp)] } := by
    simp [step, hrun]
  refine .cons ⟨hpost, trivial⟩ (.cons ⟨harrive, trivial⟩ (.cons ⟨?_, trivial⟩ (.nil _)))
  simp [system, LTS.ofFn, step]

/-- One round brings a registered follower up to date from wherever a run has led, if its
handler reports success: what is pending for it is posted, arrives and is answered. -/
theorem catches_up (P : Deps α) {w : Shipping α β}
    (h : ((system P).restrict Regular).Reachable w) {nodeId : String} {a : UInt64}
    (hreg : w.leader.engine.acked nodeId = some a) {env : OpenEnv}
    {storage : Option (Engine α β)} {status : Nat} {resp : ReplicationResponse}
    (hrun : ClusterApiState.internalReplicateHandler P env
      (w.leader.engine.pendingForReplica nodeId) (some (w.follower nodeId)) =
        some (storage, status, resp))
    (hok : resp.success = true) :
    ∃ w', ((system P).restrict Regular).Run w
        [.post nodeId (w.leader.engine.pendingForReplica nodeId).length,
          .arrive w.posted.length env, .answer w.answered.length] w' ∧
      w'.leader.recorded = w.leader.recorded ∧
      L6.rows (w'.follower nodeId).hot =
        replayed P (w'.follower nodeId).hot.maxRecords w.leader.recorded ∧
      w'.leader.engine.replicationLag nodeId = some 0 := by
  obtain ⟨p, hp⟩ := (shipped_inductive P).reachable w h
  obtain ⟨k, hk⟩ := hp.kept
  have hpending : w.leader.engine.pendingForReplica nodeId =
      w.leader.recorded.drop (upTo txn w.leader.recorded a.toNat) :=
    (hk.exact nodeId a hreg).trans (drop_upTo_txn hp.sorted a)
  obtain ⟨out, rfl, k', -, hmax, hrows, hsuccess, -⟩ := rows_handleReplicate hrun
  obtain ⟨rfl, hlast⟩ := hsuccess hok
  refine ⟨_, round_run hrun, rfl, ?_, ?_⟩
  · have hall : L6.rows out.hot = replayed P out.hot.maxRecords w.leader.recorded := by
      rw [hrows, List.take_length, hpending, hp.rows nodeId, hmax]
      have hslice := (settles_addEntry P (w.follower nodeId).hot.maxRecords []).foldl_slice
        w.leader.recorded w.leader.recorded.length (hp.acked nodeId a hreg)
      rwa [List.take_length, Nat.max_eq_right (hp.le nodeId), List.take_length] at hslice
    simpa using hall
  · have hacked : ((w.leader.apply (.ack nodeId resp.lastAckedTxnId)).engine).acked nodeId =
        some (if a < resp.lastAckedTxnId then resp.lastAckedTxnId else a) := by
      simp only [Leader.apply, ReplicationEngine.apply, acked_ack, if_pos, hreg, Option.map_some]
    rw [replicationLag_eq, hacked, Option.map_some, Option.some.injEq]
    have hround := hp.round (hpending ▸ hlast)
    have hqueue : ((lastTxnId (w.leader.apply
        (.ack nodeId resp.lastAckedTxnId)).engine.pendingEntries).getD 0).toNat ≤
        (if a < resp.lastAckedTxnId then resp.lastAckedTxnId else a).toNat := by
      simp only [Leader.apply, ReplicationEngine.apply, pendingEntries_ack, lastTxnId]
      cases hl : w.leader.engine.pendingEntries.getLast? with
      | none => exact Nat.zero_le _
      | some e =>
        have hmem : e ∈ w.leader.engine.pendingEntries := List.mem_of_getLast? hl
        rw [hk.queue] at hmem
        exact hround e (List.mem_filter.mp hmem).1
    rw [← UInt64.toNat_inj, saturatingSub_toNat]
    exact Nat.sub_eq_zero_of_le hqueue

/-! ## A batch that arrives twice -/

/-- Two entries are posted to a follower with room for one record, the batch arrives twice,
and the second answer is heard. -/
def doubled : List Event := [.addReplica "a" "127.0.0.1:9002", .recordEntry (insertEntry 1 1 5),
  .recordEntry (insertEntry 2 2 6), .post "a" 2, .arrive 0 Engine.calmOpen,
  .arrive 0 Engine.calmOpen, .answer 1]

def quiet : Shipping Lit Lit := ⟨⟨.new 0 {}, []⟩, fun _ => single, [], []⟩

theorem quiet_start : Start quiet := by
  have hempty : single.hot.vectors = [] := List.isEmpty_iff.mp (by decide +kernel)
  exact ⟨⟨0, {}, rfl⟩, fun _ => hempty, rfl, rfl⟩

theorem followers_hold_doubled :
    ∃ w : Shipping Lit Lit, w.leader.engine.acked "a" = some 2 ∧
      ∃ p ≤ w.leader.recorded.length, L6.rows (w.follower "a").hot =
        replayed Engine.deps (w.follower "a").hot.maxRecords (w.leader.recorded.take p) := by
  have hacked : (LTS.exec (step Engine.deps) Regular quiet doubled).map
      (fun w => w.leader.engine.acked "a") = some (some 2) := by decide +kernel
  obtain ⟨w, hrun, hw⟩ := Option.map_eq_some_iff.mp hacked
  obtain ⟨p, hp, hrows, -⟩ :=
    followers_hold_prefix Engine.deps (LTS.reachable_of_exec quiet_start hrun) "a"
  exact ⟨w, hw, p, hp, hrows⟩

theorem catches_up_first :
    ∃ w : Shipping Lit Lit, w.leader.engine.replicationLag "a" = some 0 ∧
      w.leader.recorded.length = 2 := by
  have hsome : ((LTS.exec (step Engine.deps) Regular quiet (doubled.take 3)).bind fun w =>
      (ClusterApiState.internalReplicateHandler Engine.deps Engine.calmOpen
        (w.leader.engine.pendingForReplica "a") (some (w.follower "a"))).map fun q =>
          (w.leader.engine.acked "a", q.2.2.success, w.leader.recorded.length)) =
      some (some 0, true, 2) := by decide +kernel
  obtain ⟨w, hexec, hsome⟩ := Option.bind_eq_some_iff.mp hsome
  obtain ⟨⟨storage, status, resp⟩, hrun, heq⟩ := Option.map_eq_some_iff.mp hsome
  simp only [Prod.mk.injEq] at heq
  obtain ⟨w', -, hrec, -, hlag⟩ := catches_up Engine.deps
    (LTS.reachable_of_exec quiet_start hexec) heq.1 hrun heq.2.1
  exact ⟨w', hlag, by rw [hrec, heq.2.2]⟩

end Shipping

end Tesseract.L6
