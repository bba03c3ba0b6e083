import Mathlib.Logic.Function.Basic
import Tesseract.L6Cluster.Failover

/-!
# One leader per shard

Any number of nodes, each with its own failover manager, that have nothing in common but
the clock. A node learns of the leader by `set_leader`, hears of it by heartbeats, which
may come late or never, and checks whether to take over. Nobody else is asked.

* `OneLeader`: a shard has at most one leader.
* `Vacant`: a node takes a shard over only when no node leads it.
* `one_leader_iff`: a run keeps the leader of a shard unique just when every check that
  takes the shard over does so while nobody leads it.
* `two_leaders`: no heartbeat comes through for more than three seconds, and the follower
  takes over from a leader that is still there.
-/
namespace Tesseract.L6

/-- The nodes and the time on all their clocks, in nanoseconds. -/
structure Nodes (ι : Type) where
  now : Nat
  node : ι → FailoverManager

namespace Nodes

variable {ι : Type} [DecidableEq ι]

inductive Event (ι : Type) where
  /-- `receiver` is told that `leader` leads the shard -/
  | setLeader (receiver : ι) (shardId : UInt64) (leader : ι)
  | heartbeat (receiver : ι) (shardId : UInt64)
  | elapse (time : Nat)
  /-- `rank` is the order in which the node lists its shards -/
  | check (i : ι) (rank : UInt64 → Nat)

def Leads (w : Nodes ι) (i : ι) (shardId : UInt64) : Prop :=
  (w.node i).election.state shardId = .leader

instance (w : Nodes ι) (i : ι) (shardId : UInt64) : Decidable (w.Leads i shardId) :=
  inferInstanceAs (Decidable (_ = _))

def set (w : Nodes ι) (i : ι) (m : FailoverManager) : Nodes ι :=
  { w with node := Function.update w.node i m }

theorem leads_set (w : Nodes ι) (i j : ι) (m : FailoverManager) (shard : UInt64) :
    (w.set i m).Leads j shard ↔
      if j = i then m.election.state shard = .leader else w.Leads j shard := by
  simp only [Leads, set]
  split
  · next h => rw [h, Function.update_self]
  · next h => rw [Function.update_of_ne h]

/-- Only a leader of the moment is announced. -/
def step [EscapeTable] (w : Nodes ι) : Event ι → Option (Nodes ι)
  | .setLeader i s l =>
    let m := w.node i
    if w.Leads l s then
      some (w.set i { m with election := m.election.setLeader s (w.node l).nodeId })
    else none
  | .heartbeat i s =>
    let m := w.node i
    some (w.set i { m with election := m.election.recordLeaderHeartbeat w.now s })
  | .elapse t => some { w with now := w.now + t }
  | .check i rank => some (w.set i ((w.node i).checkAndFailover rank w.now).1)

/-- One node leads the shard, and all the others follow it. -/
def Start (shard : UInt64) (w : Nodes ι) : Prop :=
  ∃ l, w.Leads l shard ∧
    ∀ i, i ≠ l → (w.node i).election.state shard = .follower (w.node l).nodeId

def system [EscapeTable] (ι : Type) [DecidableEq ι] (shard : UInt64) : LTS (Nodes ι) (Event ι) :=
  .ofFn (Start shard) step

def OneLeader (shard : UInt64) (w : Nodes ι) : Prop :=
  ∀ i j, w.Leads i shard → w.Leads j shard → i = j

/-- A node takes the shard over only when no node leads it. -/
def Vacant (shard : UInt64) (w : Nodes ι) : Event ι → Prop
  | .check i _ => (w.node i).Takes w.now shard → ∀ j, ¬ w.Leads j shard
  | _ => True

/-- Who leads a shard after a check: who did before, and the node that has taken it. -/
theorem leads_check [EscapeTable] (w : Nodes ι) (i j : ι) (rank : UInt64 → Nat) (shard : UInt64)
    {w' : Nodes ι} (h : w.step (.check i rank) = some w') :
    w'.Leads j shard ↔ w.Leads j shard ∨ j = i ∧ (w.node i).Takes w.now shard := by
  obtain rfl := Option.some.inj h
  obtain ⟨m', promoted, hcheck, hm', htakes⟩ := (w.node i).checkAndFailover_ok rank w.now
  rw [leads_set, hcheck]
  by_cases hji : j = i
  · subst hji
    rw [if_pos rfl, hm'.state, ← htakes]
    by_cases hmem : shard ∈ promoted <;> simp [hmem, Leads]
  · simp [hji]

/-- A notification makes no node a leader. -/
theorem leads_setLeader [EscapeTable] {w w' : Nodes ι} {i l j : ι} {s shard : UInt64}
    (h : w.step (.setLeader i s l) = some w') (hj : w'.Leads j shard) : w.Leads j shard := by
  simp only [step] at h
  split at h
  · obtain rfl := Option.some.inj h
    rw [leads_set] at hj
    split at hj
    · next hji =>
      rw [LeaderElection.state_setLeader] at hj
      split at hj
      · cases hj
      · rw [hji]
        exact hj
    · exact hj
  · cases h

theorem leads_heartbeat [EscapeTable] {w w' : Nodes ι} {i j : ι} {s shard : UInt64}
    (h : w.step (.heartbeat i s) = some w') : w'.Leads j shard ↔ w.Leads j shard := by
  obtain rfl := Option.some.inj h
  rw [leads_set]
  split
  · next hji =>
    rw [LeaderElection.state_recordLeaderHeartbeat, hji]
    rfl
  · rfl

theorem oneLeader_guards [EscapeTable] (shard : UInt64) :
    (system ι shard).Guards (Vacant shard) (OneLeader shard) (OneLeader shard) where
  init w hw := by
    obtain ⟨l, -, hfollow⟩ := hw
    have honly : ∀ i, w.Leads i shard → i = l := by
      intro i hi
      by_contra hne
      rw [Leads, hfollow i hne] at hi
      cases hi
    intro i j hi hj
    rw [honly i hi, honly j hj]
  holds w hw := hw
  keeps w ev w' hw hst hc := by
    intro i j hi hj
    cases ev with
    | setLeader => exact hw i j (leads_setLeader hst hi) (leads_setLeader hst hj)
    | heartbeat => exact hw i j ((leads_heartbeat hst).mp hi) ((leads_heartbeat hst).mp hj)
    | elapse t =>
      obtain rfl := Option.some.inj hst
      exact hw i j hi hj
    | check k rank =>
      rcases (leads_check w k i rank shard hst).mp hi with hi | ⟨hik, hi⟩ <;>
        rcases (leads_check w k j rank shard hst).mp hj with hj | ⟨hjk, hj⟩
      · exact hw i j hi hj
      · exact absurd hi (hc hj i)
      · exact absurd hj (hc hi j)
      · exact hik.trans hjk.symm
  exact w ev w' hw hst hone := by
    cases ev with
    | check k rank =>
      intro htakes j hj
      have hk := (leads_check w k k rank shard hst).mpr (.inr ⟨rfl, htakes⟩)
      have hj' := (leads_check w k j rank shard hst).mpr (.inl hj)
      obtain rfl := hone j k hj' hk
      obtain ⟨leaderId, hfollow⟩ := htakes.1
      rw [Leads, hfollow] at hj
      cases hj
    | _ => trivial

/-- The runs that never have two leaders are those in which a shard is taken over only
when nobody leads it. -/
theorem one_leader_iff [EscapeTable] (ι : Type) [DecidableEq ι] (shard : UInt64) :
    (∀ w, ((system ι shard).restrict (Vacant shard)).Reachable w → OneLeader shard w) ∧
    ∀ w₀ evs w, Start shard w₀ →
      (((system ι shard).within (OneLeader shard)).Run w₀ evs w ↔
        ((system ι shard).restrict (Vacant shard)).Run w₀ evs w) :=
  ⟨(oneLeader_guards shard).reachable, fun _ _ _ h0 => (oneLeader_guards shard).run_iff h0⟩

/-! ## Two leaders -/

attribute [local instance] EscapeTable.ascii

/-- The engine of shard 0 that node "b" has registered, with "b" up to date. -/
def upToDate : ReplicationEngine := (ReplicationEngine.new 0 {}).addReplica "b" "127.0.0.1:9002"

/-- Node `false` leads shard 0 and node `true` follows it. -/
def pair : Nodes Bool where
  now := 0
  node i :=
    if i then
      let m := (FailoverManager.new "b" {} (.new "b")).setReplicationEngine 0 upToDate
      { m with election := m.election.setLeader 0 "a" }
    else ((FailoverManager.new "a" {} (.new "a")).promote 0 0).1

theorem pair_start : Start 0 pair := ⟨false, by decide +kernel, by decide +kernel⟩

/-- A heartbeat comes through, and the check a second later takes nothing over. -/
theorem one_leader_heard :
    ∃ w, OneLeader 0 w ∧ w.now = 1000000000 ∧ w.Leads false 0 ∧ ¬ w.Leads true 0 := by
  have hrun : ((system Bool 0).restrict (Vacant 0)).Run pair
      [.heartbeat true 0, .elapse 1000000000, .check true fun _ => 0] _ :=
    .cons ⟨rfl, trivial⟩ (.cons ⟨rfl, trivial⟩
      (.cons ⟨rfl, fun h => absurd h.2 (by decide +kernel)⟩ (.nil _)))
  exact ⟨_, (one_leader_iff Bool 0).1 _ ⟨pair, _, pair_start, hrun⟩, rfl, by decide +kernel,
    by decide +kernel⟩

/-- The leader is heard of, then no heartbeat comes through for four seconds. The check
makes the follower a leader too. -/
theorem two_leaders :
    ∃ w, (system Bool 0).Reachable w ∧ w.Leads false 0 ∧ w.Leads true 0 ∧ ¬ OneLeader 0 w := by
  have hrun : (system Bool 0).Run pair
      [.heartbeat true 0, .elapse 4000000000, .check true fun _ => 0] _ :=
    .cons rfl (.cons rfl (.cons rfl (.nil _)))
  exact ⟨_, ⟨pair, _, pair_start, hrun⟩, by decide +kernel, by decide +kernel,
    fun h => absurd (h false true (by decide +kernel) (by decide +kernel)) (by decide)⟩

end Nodes

end Tesseract.L6
