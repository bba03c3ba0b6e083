import Mathlib.Data.List.Sort
import Tesseract.Core.Assoc
import Tesseract.Core.Error

/-!
# The election state of a node

Model of `tesseract-cluster/src/leader_election.rs`: for each shard what the node takes
itself to be, and when it last heard of the leader. An `Instant` is a number of
nanoseconds; the functions that read the clock are given `now`. The order in which a
`HashMap` is listed is a parameter, `rank`; so is what a `Debug` escapes beyond ASCII
(`EscapeTable`).

* `state_setLeader`, `winElection_candidate`: what the transitions do.
* `mem_myFollowerships`, `mem_myLeaderships`: what the lists report.
-/
namespace Tesseract.L6

open Assoc

/-- mirrors tesseract-cluster/src/leader_election.rs:22-31 -/
inductive ElectionState where
  | leader
  | candidate
  | follower (leaderId : String)
  | noLeader
  deriving DecidableEq, Repr

/-- What `char::escape_debug` escapes beyond ASCII, by the tables of the standard library. -/
class EscapeTable where
  escaped : Char → Bool

/-- Nothing beyond ASCII is escaped. -/
abbrev EscapeTable.ascii : EscapeTable := ⟨fun _ => false⟩

/-- `char::escape_debug` in a string. -/
def escapeDebug [EscapeTable] (c : Char) : List Char :=
  if c = '\x00' then ['\\', '0']
  else if c = '\t' then ['\\', 't']
  else if c = '\n' then ['\\', 'n']
  else if c = '\r' then ['\\', 'r']
  else if c = '"' then ['\\', '"']
  else if c = '\\' then ['\\', '\\']
  else if c.toNat < 32 ∨ c.toNat = 127 ∨ 127 < c.toNat ∧ EscapeTable.escaped c then
    ['\\', 'u', '\x7b'] ++ Nat.toDigits 16 c.toNat ++ ['\x7d']
  else [c]

/-- The derived `Debug`. -/
def ElectionState.debug [EscapeTable] : ElectionState → String
  | .leader => "Leader"
  | .candidate => "Candidate"
  | .follower leaderId => "Follower \x7b leader_id: \"" ++
      String.ofList (leaderId.toList.flatMap escapeDebug) ++ "\" \x7d"
  | .noLeader => "NoLeader"

/-- mirrors tesseract-cluster/src/leader_election.rs:38-47 -/
structure LeaderElection where
  shardStates : Map UInt64 ElectionState
  nodeId : String
  electionTimeoutMs : UInt64
  lastLeaderHeartbeat : Map UInt64 Nat

namespace LeaderElection

/-- mirrors tesseract-cluster/src/leader_election.rs:54-61 -/
def new (nodeId : String) (electionTimeoutMs : UInt64) : LeaderElection :=
  ⟨∅, nodeId, electionTimeoutMs, ∅⟩

/-- mirrors tesseract-cluster/src/leader_election.rs:76-79 -/
def state (e : LeaderElection) (shardId : UInt64) : ElectionState :=
  (e.shardStates.lookup shardId).getD .noLeader

/-- mirrors tesseract-cluster/src/leader_election.rs:87-90 -/
def setLeader (e : LeaderElection) (shardId : UInt64) (leaderId : String) : LeaderElection :=
  { e with shardStates := e.shardStates.insert shardId (.follower leaderId) }

/-- mirrors tesseract-cluster/src/leader_election.rs:95-98 -/
def becomeCandidate (e : LeaderElection) (shardId : UInt64) : LeaderElection :=
  { e with shardStates := e.shardStates.insert shardId .candidate }

/-- mirrors tesseract-cluster/src/leader_election.rs:108-133 -/
def winElection [EscapeTable] (e : LeaderElection) (now : Nat) (shardId : UInt64) :
    LeaderElection × Result Unit :=
  match e.shardStates.lookup shardId with
  | some .candidate =>
    ({ e with
        shardStates := e.shardStates.insert shardId .leader
        lastLeaderHeartbeat := e.lastLeaderHeartbeat.insert shardId now }, .ok ())
  | some .leader => (e, .ok ())
  | some st => (e, .error (.serviceError
      (s!"Cannot win election for shard {shardId.toNat}: current state is {st.debug}" ++
        ", expected Candidate")))
  | none => (e, .error (.serviceError
      s!"Cannot win election for shard {shardId.toNat}: no election state exists"))

/-- mirrors tesseract-cluster/src/leader_election.rs:140-143 -/
def recordLeaderHeartbeat (e : LeaderElection) (now : Nat) (shardId : UInt64) : LeaderElection :=
  { e with lastLeaderHeartbeat := e.lastLeaderHeartbeat.insert shardId now }

/-- mirrors tesseract-cluster/src/leader_election.rs:150-156 -/
def hasLeaderTimedOut (e : LeaderElection) (shardId : UInt64) (now : Nat) : Bool :=
  match e.lastLeaderHeartbeat.lookup shardId with
  | some last => e.electionTimeoutMs.toNat * 1000000 < now - last
  | none => true

/-- mirrors tesseract-cluster/src/leader_election.rs:159-162 -/
def myLeaderships (rank : UInt64 → Nat) (e : LeaderElection) : List UInt64 :=
  (e.shardStates.keys.insertionSort fun a b => rank a ≤ rank b).filter fun id =>
    e.state id = .leader

/-- mirrors tesseract-cluster/src/leader_election.rs:165-173 -/
def myFollowerships (rank : UInt64 → Nat) (e : LeaderElection) : List (UInt64 × String) :=
  (e.shardStates.keys.insertionSort fun a b => rank a ≤ rank b).filterMap fun id =>
    match e.state id with
    | .follower leaderId => some (id, leaderId)
    | _ => none

variable (e : LeaderElection)

@[simp] theorem state_setLeader (shardId s : UInt64) (leaderId : String) :
    (e.setLeader shardId leaderId).state s =
      if s = shardId then .follower leaderId else e.state s := by
  simp only [state, setLeader, lookup_insert_eq]
  split <;> rfl

@[simp] theorem state_recordLeaderHeartbeat (now : Nat) (shardId s : UInt64) :
    (e.recordLeaderHeartbeat now shardId).state s = e.state s := rfl

/-- Right after `become_candidate` an election is always won. -/
theorem winElection_candidate [EscapeTable] (now : Nat) (shardId : UInt64) :
    ∃ e', (e.becomeCandidate shardId).winElection now shardId = (e', .ok ()) ∧
      e'.nodeId = e.nodeId ∧
      e'.electionTimeoutMs = e.electionTimeoutMs ∧
      (∀ s, e'.state s = if s = shardId then .leader else e.state s) ∧
      ∀ s, s ≠ shardId → e'.lastLeaderHeartbeat.lookup s = e.lastLeaderHeartbeat.lookup s := by
  have hlookup : (e.becomeCandidate shardId).shardStates.lookup shardId = some .candidate :=
    AList.lookup_insert _
  have hwin : (e.becomeCandidate shardId).winElection now shardId =
      ({ e.becomeCandidate shardId with
          shardStates := (e.becomeCandidate shardId).shardStates.insert shardId .leader
          lastLeaderHeartbeat :=
            (e.becomeCandidate shardId).lastLeaderHeartbeat.insert shardId now }, .ok ()) := by
    simp only [winElection, hlookup]
  refine ⟨_, hwin, rfl, rfl, ?_, ?_⟩
  · intro s
    simp only [state, becomeCandidate, lookup_insert_eq]
    split <;> rfl
  · intro s hs
    exact AList.lookup_insert_ne hs

theorem mem_keys_of_state {s : UInt64} (h : e.state s ≠ .noLeader) :
    s ∈ e.shardStates.keys := by
  rw [← AList.mem_keys, ← AList.lookup_isSome]
  cases hl : e.shardStates.lookup s with
  | none => simp [state, hl] at h
  | some st => rfl

theorem mem_myFollowerships {rank : UInt64 → Nat} {s : UInt64} {leaderId : String} :
    (s, leaderId) ∈ e.myFollowerships rank ↔ e.state s = .follower leaderId := by
  simp only [myFollowerships, List.mem_filterMap, List.mem_insertionSort]
  constructor
  · rintro ⟨id, _, h⟩
    split at h
    · next hst =>
      cases h
      exact hst
    · cases h
  · intro h
    exact ⟨s, e.mem_keys_of_state (by simp [h]), by simp [h]⟩

theorem mem_myLeaderships {rank : UInt64 → Nat} {s : UInt64} :
    s ∈ e.myLeaderships rank ↔ e.state s = .leader := by
  simp only [myLeaderships, List.mem_filter, List.mem_insertionSort, decide_eq_true_eq]
  exact and_iff_right_of_imp fun h => e.mem_keys_of_state (h ▸ by simp)

theorem nodup_myFollowerships (rank : UInt64 → Nat) :
    ((e.myFollowerships rank).map Prod.fst).Nodup := by
  have hsub : ((e.myFollowerships rank).map Prod.fst).Sublist
      (e.shardStates.keys.insertionSort fun a b => rank a ≤ rank b) := by
    unfold myFollowerships
    induction e.shardStates.keys.insertionSort fun a b => rank a ≤ rank b with
    | nil => exact .slnil
    | cons id ids ih =>
      cases hst : e.state id with
      | follower leaderId => simpa [List.filterMap_cons, hst] using ih.cons_cons id
      | _ => simpa [List.filterMap_cons, hst] using ih.cons id
  have hkeys : e.shardStates.keys.Nodup := e.shardStates.nodupKeys
  exact ((List.perm_insertionSort _ _).nodup_iff.mpr hkeys).sublist hsub

end LeaderElection

end Tesseract.L6
