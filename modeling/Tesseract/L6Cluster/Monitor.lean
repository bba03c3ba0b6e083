import Tesseract.L6Cluster.ClusterState

/-!
# The failover monitor

Model of the task that `FailoverManager::start` spawns, and of a node under it: at every tick
of an interval the node takes over the shards whose leader is silent. The ticks come at any
time, and heartbeats and all else that happens to a node may come between them.

* `tick_eq`: a tick is a `check_and_failover`.
* `takeover_iff`: a follower that is not too far behind takes its shard over exactly if some
  tick comes later than the election timeout after the last heartbeat before it.
* `takeover_in_time`: of a leader that falls silent the shard is taken over within the
  timeout and one interval.
-/
namespace Tesseract.L6

namespace FailoverManager

/-- The body of the loop; a promotion that fails is passed over.
mirrors tesseract-cluster/src/failover.rs:116-143 -/
def tickLoop [EscapeTable] (now : Nat) : List (UInt64 × String) → FailoverManager → List UInt64 →
    FailoverManager × List UInt64
  | [], m, promoted => (m, promoted)
  | (shardId, _) :: rest, m, promoted =>
    if m.election.hasLeaderTimedOut shardId now = false then tickLoop now rest m promoted
    else if m.eligible shardId = false then tickLoop now rest m promoted
    else match m.promote now shardId with
      | (m, .error _) => tickLoop now rest m promoted
      | (m, .ok ()) => tickLoop now rest m (promoted ++ [shardId])

/-- mirrors tesseract-cluster/src/failover.rs:107-149 -/
def tick [EscapeTable] (m : FailoverManager) (rank : UInt64 → Nat) (now : Nat) :
    FailoverManager × List UInt64 :=
  tickLoop now (m.election.myFollowerships rank) m []

theorem tickLoop_eq [EscapeTable] (now : Nat) (rest : List (UInt64 × String)) (m : FailoverManager)
    (promoted : List UInt64) : checkLoop now rest m promoted =
      ((tickLoop now rest m promoted).1, .ok (tickLoop now rest m promoted).2) := by
  induction rest generalizing m promoted with
  | nil => rfl
  | cons p rest ih =>
    obtain ⟨shardId, leaderId⟩ := p
    obtain ⟨m', hpromote, -⟩ := m.promote_ok now shardId
    unfold checkLoop tickLoop
    simp only [hpromote, ih]
    split
    · rfl
    · split <;> rfl

/-- A tick is a `check_and_failover`, which never fails. -/
theorem tick_eq [EscapeTable] (m : FailoverManager) (rank : UInt64 → Nat) (now : Nat) :
    m.checkAndFailover rank now = ((m.tick rank now).1, .ok (m.tick rank now).2) :=
  tickLoop_eq now _ m []

end FailoverManager

namespace Cluster.ClusterState

/-! ## A node under the monitor -/

/-- Nothing but heartbeats and ticks happens to the shard `s`. -/
def Undisturbed (s : UInt64) : Call → Prop
  | .setLeader .failover shardId _ => shardId ≠ s
  | .promoteToLeader shardId => shardId ≠ s
  | .setReplicationEngine shardId _ => shardId ≠ s
  | .removeReplicationEngine shardId => shardId ≠ s
  | _ => True

/-- The last heartbeat is more than the timeout ago, or there was none. -/
def Late (timeoutMs : UInt64) (heard : Option Nat) (now : Nat) : Bool :=
  match heard with
  | some last => timeoutMs.toNat * 1000000 < now - last
  | none => true

/-- The last heartbeat of `s` behind a call. -/
def heardAfter (s : UInt64) (now : Nat) (heard : Option Nat) : Call → Option Nat
  | .heartbeat .failover shardId => if s = shardId then some now else heard
  | _ => heard

def clockAfter (now : Nat) : Call → Nat
  | .elapse t => now + t
  | _ => now

def isTick : Call → Bool
  | .checkAndFailover _ => true
  | _ => false

/-- Some tick finds the leader of `s` late. -/
def foundLate (s timeoutMs : UInt64) : Option Nat → Nat → List Call → Bool
  | _, _, [] => false
  | heard, now, call :: calls =>
    isTick call && Late timeoutMs heard now ||
      foundLate s timeoutMs (heardAfter s now heard call) (clockAfter now call) calls

def heard (m : FailoverManager) (s : UInt64) : Option Nat :=
  m.election.lastLeaderHeartbeat.lookup s

/-- The node has taken `s` over. -/
def Led (m : FailoverManager) (s : UInt64) : Prop :=
  m.election.state s = .leader ∧ m.shardManager.getLeader s = some m.nodeId

/-- Nothing about `s` has changed, but perhaps the last heartbeat. -/
structure Rests (s : UInt64) (m m' : FailoverManager) : Prop where
  nodeId : m'.nodeId = m.nodeId
  config : m'.config = m.config
  timeout : m'.election.electionTimeoutMs = m.election.electionTimeoutMs
  replication : m'.replications.lookup s = m.replications.lookup s
  state : m'.election.state s = m.election.state s
  leader : m'.shardManager.getLeader s = m.shardManager.getLeader s

variable {s : UInt64} {m m' : FailoverManager} {n : Node} {call : Call}

theorem Rests.refl (s : UInt64) (m : FailoverManager) : Rests s m m :=
  ⟨rfl, rfl, rfl, rfl, rfl, rfl⟩

theorem Rests.trans {m'' : FailoverManager} (h : Rests s m m') (h' : Rests s m' m'') :
    Rests s m m'' where
  nodeId := h'.nodeId.trans h.nodeId
  config := h'.config.trans h.config
  timeout := h'.timeout.trans h.timeout
  replication := h'.replication.trans h.replication
  state := h'.state.trans h.state
  leader := h'.leader.trans h.leader

theorem Rests.eligible (h : Rests s m m') : m'.eligible s = m.eligible s := by
  simp only [FailoverManager.eligible, FailoverManager.isEligibleForPromotion, h.replication,
    h.nodeId, h.config]

theorem rests_of_promoted {shards : List UInt64} (h : m.Promoted m' shards) (hs : s ∉ shards) :
    Rests s m m' ∧ heard m' s = heard m s := by
  refine ⟨⟨h.nodeId, h.config, h.timeout, by rw [h.replications], ?_, ?_⟩, h.heartbeat s hs⟩
  · rw [h.state, if_neg hs]
  · rw [h.leader, if_neg hs]

theorem led_of_promoted {shards : List UInt64} (h : m.Promoted m' shards) (hs : s ∈ shards) :
    Led m' s := by
  refine ⟨?_, ?_⟩
  · rw [h.state, if_pos hs]
  · rw [h.leader, if_pos hs, h.nodeId]

theorem clock_call [EscapeTable] (n : Node) (call : Call) :
    (n.call call).now = clockAfter n.now call := by
  cases call <;> rfl

/-- A call that does not take `s` over. -/
theorem rests_call [EscapeTable] (hc : Undisturbed s call)
    (hstay : isTick call = true → ¬ n.cluster.failover.Takes n.now s) :
    Rests s n.cluster.failover (n.call call).cluster.failover ∧
      heard (n.call call).cluster.failover s =
        heardAfter s n.now (heard n.cluster.failover s) call := by
  cases call with
  | heartbeat side shardId =>
    cases side with
    | reported => exact ⟨Rests.refl s _, rfl⟩
    | failover => exact ⟨⟨rfl, rfl, rfl, rfl, rfl, rfl⟩, Assoc.lookup_insert_eq _ _ _ _⟩
  | setLeader side shardId leaderId =>
    cases side with
    | reported => exact ⟨Rests.refl s _, rfl⟩
    | failover =>
      refine ⟨⟨rfl, rfl, rfl, rfl, ?_, rfl⟩, rfl⟩
      simp only [Node.call, setElection, election, LeaderElection.state_setLeader]
      exact if_neg (Ne.symm hc)
  | checkAndFailover rank =>
    obtain ⟨m', promoted, hcheck, hm', htakes⟩ := n.cluster.failover.checkAndFailover_ok rank n.now
    have hs : s ∉ promoted := fun hmem => hstay rfl ((htakes s).mp hmem)
    simpa only [Node.call, hcheck, heardAfter] using rests_of_promoted hm' hs
  | promoteToLeader shardId =>
    obtain ⟨m', hpromote, hm'⟩ := n.cluster.failover.promoteToLeader_ok n.now shardId
    have hs : s ∉ if n.cluster.failover.eligible shardId then [shardId] else [] := by
      split
      · simpa using Ne.symm hc
      · simp
    simpa only [Node.call, hpromote, heardAfter] using rests_of_promoted hm' hs
  | setReplicationEngine shardId replication =>
    refine ⟨⟨rfl, rfl, rfl, ?_, rfl, rfl⟩, rfl⟩
    simp only [Node.call, FailoverManager.setReplicationEngine]
    rw [Assoc.lookup_insert_eq, if_neg (Ne.symm hc)]
  | removeReplicationEngine shardId =>
    refine ⟨⟨rfl, rfl, rfl, ?_, rfl, rfl⟩, rfl⟩
    simp only [Node.call, FailoverManager.removeReplicationEngine]
    rw [Assoc.lookup_erase_eq, if_neg (Ne.symm hc)]
  | elapse t => exact ⟨Rests.refl s _, rfl⟩

/-- A node that leads `s` goes on leading it. -/
theorem led_call [EscapeTable] (h : Led n.cluster.failover s) (hc : Undisturbed s call) :
    Led (n.call call).cluster.failover s := by
  have hstay : ¬ n.cluster.failover.Takes n.now s := by
    rintro ⟨⟨leaderId, hfollows⟩, -⟩
    rw [h.1] at hfollows
    cases hfollows
  obtain ⟨hrests, -⟩ := rests_call hc fun _ => hstay
  exact ⟨by rw [hrests.state, h.1], by rw [hrests.leader, h.2, hrests.nodeId]⟩

theorem led_run [EscapeTable] (calls : List Call) (h : Led n.cluster.failover s)
    (hcalls : ∀ call ∈ calls, Undisturbed s call) :
    Led (calls.foldl Node.call n).cluster.failover s := by
  induction calls generalizing n with
  | nil => exact h
  | cons call calls ih =>
    obtain ⟨hc, hcalls⟩ := List.forall_mem_cons.mp hcalls
    exact ih (led_call h hc) hcalls

/-- A follower that may take over does so as soon as the leader is late. -/
theorem takes_iff {leaderId : String} (hfollows : m.election.state s = .follower leaderId)
    (helig : m.eligible s = true) (now : Nat) :
    m.Takes now s ↔ Late m.election.electionTimeoutMs (heard m s) now = true := by
  have htimed : m.election.hasLeaderTimedOut s now =
      Late m.election.electionTimeoutMs (heard m s) now := by
    unfold LeaderElection.hasLeaderTimedOut Late heard
    cases m.election.lastLeaderHeartbeat.lookup s <;> rfl
  rw [FailoverManager.Takes, FailoverManager.due, htimed, helig, Bool.and_true]
  exact and_iff_right ⟨leaderId, hfollows⟩

theorem led_tick [EscapeTable] (hcheck : isTick call = true)
    (htakes : n.cluster.failover.Takes n.now s) :
    Led (n.call call).cluster.failover s := by
  cases call with
  | checkAndFailover rank =>
    obtain ⟨m', promoted, hcheck, hm', hmem⟩ := n.cluster.failover.checkAndFailover_ok rank n.now
    simpa only [Node.call, hcheck] using led_of_promoted hm' ((hmem s).mpr htakes)
  | _ => cases hcheck

/-- A follower that is not too far behind, and has not been told otherwise, takes its shard
over when a tick finds the leader late; else nothing changes. -/
theorem takeover_run [EscapeTable] {leaderId : String}
    (hfollows : n.cluster.failover.election.state s = .follower leaderId)
    (helig : n.cluster.failover.eligible s = true) (calls : List Call)
    (hcalls : ∀ call ∈ calls, Undisturbed s call) :
    if foundLate s n.cluster.failover.election.electionTimeoutMs
        (heard n.cluster.failover s) n.now calls = true then
      Led (calls.foldl Node.call n).cluster.failover s
    else Rests s n.cluster.failover (calls.foldl Node.call n).cluster.failover := by
  induction calls generalizing n with
  | nil => exact Rests.refl s _
  | cons call calls ih =>
    obtain ⟨hc, hcalls⟩ := List.forall_mem_cons.mp hcalls
    rw [List.foldl_cons, foundLate]
    by_cases hlate : (isTick call && Late n.cluster.failover.election.electionTimeoutMs
        (heard n.cluster.failover s) n.now) = true
    · obtain ⟨htick, hsilent⟩ := (Bool.and_eq_true _ _).mp hlate
      rw [hlate, Bool.true_or, if_pos rfl]
      exact led_run calls (led_tick htick ((takes_iff hfollows helig n.now).mpr hsilent)) hcalls
    · have hstay : isTick call = true → ¬ n.cluster.failover.Takes n.now s := by
        intro htick htakes
        exact hlate (by rw [htick, (takes_iff hfollows helig n.now).mp htakes]; rfl)
      obtain ⟨hrests, hheard⟩ := rests_call hc hstay
      have hrun := ih (hrests.state.trans hfollows) (hrests.eligible.trans helig) hcalls
      rw [hheard, hrests.timeout, clock_call] at hrun
      rw [Bool.eq_false_iff.mpr hlate, Bool.false_or]
      split at hrun
      · next hfound => rwa [if_pos hfound]
      · next hfound =>
        rw [if_neg hfound]
        exact hrests.trans hrun

/-! ## A leader that falls silent -/

/-- How long the calls take. -/
def elapsed (calls : List Call) : Nat :=
  (calls.map fun call => clockAfter 0 call).sum

/-- How long ago the last tick was, behind a call. -/
def sinceTick (since : Nat) (call : Call) : Nat :=
  if isTick call then 0 else clockAfter since call

/-- There is never more than `interval` without a tick. -/
def Paced (interval : Nat) : Nat → List Call → Prop
  | _, [] => True
  | since, call :: calls =>
    sinceTick since call ≤ interval ∧ Paced interval (sinceTick since call) calls

theorem clockAfter_add (now : Nat) (call : Call) :
    clockAfter now call = now + clockAfter 0 call := by
  cases call <;> simp [clockAfter]

theorem heardAfter_silent {call : Call} (h : call ≠ .heartbeat .failover s) (now : Nat)
    (heard : Option Nat) : heardAfter s now heard call = heard := by
  unfold heardAfter
  split
  · next shardId =>
    split
    · next hs => exact absurd (by rw [hs]) h
    · rfl
  · rfl

/-- Behind the timeout and one interval more, some tick has found the leader late. -/
theorem foundLate_of_paced {timeoutMs : UInt64} {interval : Nat} {heard : Option Nat}
    (calls : List Call) (hsilent : ∀ call ∈ calls, call ≠ .heartbeat .failover s)
    {now since : Nat} (hpaced : Paced interval since calls) (hsince : since ≤ interval)
    (hlong : interval < since + elapsed calls)
    (hlate : ∀ last, heard = some last →
      last + timeoutMs.toNat * 1000000 + interval < now + elapsed calls) :
    foundLate s timeoutMs heard now calls = true := by
  induction calls generalizing now since with
  | nil =>
    rw [elapsed, List.map_nil, List.sum_nil] at hlong
    omega
  | cons call calls ih =>
    obtain ⟨hcall, hsilent⟩ := List.forall_mem_cons.mp hsilent
    obtain ⟨hle, hpaced⟩ := hpaced
    have hsum : elapsed (call :: calls) = clockAfter 0 call + elapsed calls := by
      simp [elapsed]
    have hclock := clockAfter_add now call
    have hclock' := clockAfter_add since call
    rw [foundLate, heardAfter_silent hcall]
    by_cases hfound : (isTick call && Late timeoutMs heard now) = true
    · rw [hfound, Bool.true_or]
    rw [Bool.eq_false_iff.mpr hfound, Bool.false_or]
    refine ih hsilent hpaced hle ?_ fun last hlast => ?_
    · unfold sinceTick
      split
      · -- the tick found the leader in time, so that the timeout is still to come
        next htick =>
        have hzero : clockAfter 0 call = 0 := by
          cases call <;> first | rfl | cases htick
        have hnot : Late timeoutMs heard now = false := by
          rw [htick, Bool.true_and] at hfound
          exact Bool.eq_false_iff.mpr hfound
        cases hheard : heard with
        | none => simp [hheard, Late] at hnot
        | some last =>
          have hin := hlate last hheard
          simp only [hheard, Late, decide_eq_false_iff_not] at hnot
          omega
      · omega
    · have := hlate last hlast
      omega

/-- A leader that sends no more heartbeats is replaced within the election timeout and one
interval of the monitor, by any follower that is not too far behind. -/
theorem takeover_in_time [EscapeTable] {leaderId : String} {interval : Nat}
    (hfollows : n.cluster.failover.election.state s = .follower leaderId)
    (helig : n.cluster.failover.eligible s = true) {calls : List Call}
    (hcalls : ∀ call ∈ calls, Undisturbed s call)
    (hsilent : ∀ call ∈ calls, call ≠ .heartbeat .failover s)
    (hpaced : Paced interval 0 calls) (hlong : interval < elapsed calls)
    (hlate : ∀ last, heard n.cluster.failover s = some last →
      last + n.cluster.failover.election.electionTimeoutMs.toNat * 1000000 + interval <
        n.now + elapsed calls) :
    Led (calls.foldl Node.call n).cluster.failover s := by
  have hfound := foundLate_of_paced calls hsilent hpaced (Nat.zero_le _)
    (by rwa [Nat.zero_add]) hlate
  have hrun := takeover_run hfollows helig calls hcalls
  rwa [if_pos hfound] at hrun

/-- In any run: such a follower leads the shard in the end exactly if some tick came more than
the election timeout after the last heartbeat before it, and else follows the leader it
followed. -/
theorem takeover_iff [EscapeTable] {leaderId : String}
    (hfollows : n.cluster.failover.election.state s = .follower leaderId)
    (helig : n.cluster.failover.eligible s = true) (calls : List Call)
    (hcalls : ∀ call ∈ calls, Undisturbed s call) :
    (Led (calls.foldl Node.call n).cluster.failover s ↔
      foundLate s n.cluster.failover.election.electionTimeoutMs
        (heard n.cluster.failover s) n.now calls = true) ∧
    ((calls.foldl Node.call n).cluster.failover.election.state s = .follower leaderId ↔
      foundLate s n.cluster.failover.election.electionTimeoutMs
        (heard n.cluster.failover s) n.now calls = false) := by
  have hrun := takeover_run hfollows helig calls hcalls
  split at hrun
  · next hfound =>
    simp [hfound, hrun, hrun.1]
  · next hfound =>
    have hstate := hrun.state.trans hfollows
    simp [hfound, hstate, Led]

/-! ## A follower in the know -/

attribute [local instance] EscapeTable.ascii

/-- The node "b" follows "a", of which it has just heard, and is not behind. -/
def followsA : Node :=
  [Call.setLeader .failover 0 "a",
    .setReplicationEngine 0 ((ReplicationEngine.new 0 {}).addReplica "b" "127.0.0.1:9002"),
    .heartbeat .failover 0].foldl Node.call start

theorem followsA_follows : followsA.cluster.failover.election.state 0 = .follower "a" ∧
    followsA.cluster.failover.eligible 0 = true := by decide +kernel

/-- A tick every two seconds, and no heartbeat. -/
def silence : List Call :=
  [.elapse 2000000000, .checkAndFailover fun _ => 0, .elapse 2000000000,
    .checkAndFailover fun _ => 0, .elapse 2000000000, .checkAndFailover fun _ => 0]

theorem silence_undisturbed : ∀ call ∈ silence, Undisturbed 0 call := by
  simp [silence, Undisturbed]

theorem takeover_iff_silence :
    Led (silence.foldl Node.call followsA).cluster.failover 0 ∧
      ((silence.take 3).foldl Node.call followsA).cluster.failover.election.state 0 =
        .follower "a" := by
  obtain ⟨hfollows, helig⟩ := followsA_follows
  refine ⟨(takeover_iff hfollows helig silence silence_undisturbed).1.mpr (by decide +kernel),
    (takeover_iff hfollows helig (silence.take 3) ?_).2.mpr (by decide +kernel)⟩
  exact fun call hcall => silence_undisturbed call (List.mem_of_mem_take hcall)

theorem takeover_in_time_silence :
    Led (silence.foldl Node.call followsA).cluster.failover 0 := by
  obtain ⟨hfollows, helig⟩ := followsA_follows
  have hheard : heard followsA.cluster.failover 0 = some 0 ∧ followsA.now = 0 ∧
      followsA.cluster.failover.election.electionTimeoutMs = 3000 := by decide +kernel
  have hpaced : Paced 2000000000 0 silence := by
    simp [silence, Paced, sinceTick, isTick, clockAfter]
  refine takeover_in_time hfollows helig silence_undisturbed (by simp [silence]) hpaced
    (by simp [silence, elapsed, clockAfter]) fun last hlast => ?_
  rw [hheard.1, Option.some.injEq] at hlast
  rw [hheard.2.1, hheard.2.2, ← hlast]
  decide

end Cluster.ClusterState

end Tesseract.L6
