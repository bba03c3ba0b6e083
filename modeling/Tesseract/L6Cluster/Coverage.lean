import Tesseract.L6Cluster.QueryCoordinator

/-!
# When a distributed result is complete

A result that is not marked `partial` should cover all `NUM_SHARDS` shards. What the
flag compares is the number of answers with the number of assigned shards, and an
answer is any body that parses.

* `mem_gather`: a shard is gathered exactly when it is assigned and its task does not
  fail.
* `mem_gathered`: what is gathered for a shard is what the storage of its leader
  found, or the empty list the leader puts into an error response.
* `complete_iff`: when an unmarked result covers every shard.
-/
namespace Tesseract.L6

variable {β : Type}

/-! ## One task -/

/-- Ways a task can fail that the coordinator sees. -/
inductive Fails (c : ClusterState) (timeout : Nat) (t : TaskEnv β) (shardId : UInt64) : Prop where
  | late (h : ∀ took, t.took = some took → timeout < took)
  | poisoned {e : Error} (h : t.shards = .error e)
  | unassigned {shards : ShardManager} (h : t.shards = .ok shards)
      (hl : shards.getLeader shardId = none)
  | localSearch {shards : ShardManager} (h : t.shards = .ok shards)
      (hl : shards.getLeader shardId = some c.nodeId) (hr : ∀ rs, t.localSearch ≠ some (.ok rs))
  | unknown {shards : ShardManager} {leader : String} (h : t.shards = .ok shards)
      (hl : shards.getLeader shardId = some leader) (hne : leader ≠ c.nodeId)
      (hr : c.registry.lookup leader = none)
  | network {shards : ShardManager} {leader : String} (h : t.shards = .ok shards)
      (hl : shards.getLeader shardId = some leader) (hne : leader ≠ c.nodeId)
      (hd : t.delivery ≠ .intact)

/-- What the storage of the shard's leader found, if it searched without an error. -/
def searched (c : ClusterState) (t : TaskEnv β) (shardId : UInt64) :
    Option (List (UInt64 × β)) :=
  match t.shards with
  | .error _ => none
  | .ok shards =>
    (shards.getLeader shardId).bind fun leader =>
      (if leader = c.nodeId then t.localSearch else t.leaderSearch).bind Except.toOption

/-- The leader is another node, and answers with an error status. -/
def ErrorStatus (c : ClusterState) (t : TaskEnv β) (shardId : UInt64) : Prop :=
  ∃ shards leader, t.shards = .ok shards ∧ shards.getLeader shardId = some leader ∧
    leader ≠ c.nodeId ∧ (internalSearchHandler t.leaderSearch).1 ≠ 200

theorem searchShard_of_leader {c : ClusterState} {t : TaskEnv β} {shardId : UInt64}
    {shards : ShardManager} {leader : String} (h : t.shards = .ok shards)
    (hl : shards.getLeader shardId = some leader) :
    searchShard c t shardId =
      if leader = c.nodeId then localSearch c t shardId
      else some (remoteSearch c t leader shardId) := by
  rw [searchShard, h]
  dsimp only
  rw [hl]

theorem runTask_of_took {c : ClusterState} {timeout took : Nat} {t : TaskEnv β} {shardId : UInt64}
    (h : t.took = some took) (hle : took ≤ timeout) :
    (runTask c timeout t shardId).result = (searchShard c t shardId).bind Except.toOption := by
  rw [runTask, h]
  dsimp only
  rw [if_neg (by omega)]
  cases searchShard c t shardId with
  | none => rfl
  | some r => cases r <;> rfl

theorem fails_result {c : ClusterState} {timeout : Nat} {t : TaskEnv β} {shardId : UInt64}
    (h : Fails c timeout t shardId) : (runTask c timeout t shardId).result = none := by
  cases htook : t.took with
  | none =>
    rw [runTask, htook]
    rfl
  | some took =>
    by_cases hle : took ≤ timeout
    · rw [runTask_of_took htook hle]
      cases h with
      | late h => exact absurd (h took htook) (by omega)
      | poisoned h =>
        rw [searchShard, h]
        rfl
      | unassigned h hl =>
        rw [searchShard, h]
        dsimp only
        rw [hl]
        rfl
      | localSearch h hl hr =>
        rw [searchShard_of_leader h hl, if_pos rfl, L6.localSearch]
        cases hs : t.localSearch with
        | none => rfl
        | some r =>
          cases r with
          | error e => rfl
          | ok rs => exact absurd hs (hr rs)
      | unknown h hl hne hr =>
        rw [searchShard_of_leader h hl, if_neg hne, remoteSearch, hr]
        rfl
      | network h hl hne hd =>
        rw [searchShard_of_leader h hl, if_neg hne, remoteSearch]
        cases c.registry.lookup _ with
        | none => rfl
        | some addr =>
          cases hdel : t.delivery with
          | sendFailed e => rfl
          | garbled e => rfl
          | intact => exact absurd hdel hd
    · rw [runTask, htook]
      dsimp only
      rw [if_pos (by omega)]
      rfl

theorem errorStatus_iff {c : ClusterState} {t : TaskEnv β} {shardId : UInt64}
    {shards : ShardManager} {leader : String} (hshards : t.shards = .ok shards)
    (hl : shards.getLeader shardId = some leader) : ErrorStatus c t shardId ↔
      leader ≠ c.nodeId ∧ (internalSearchHandler t.leaderSearch).1 ≠ 200 := by
  constructor
  · rintro ⟨shards', leader', hshards', hl', hne, hs⟩
    rw [hshards] at hshards'
    cases hshards'
    rw [hl] at hl'
    cases hl'
    exact ⟨hne, hs⟩
  · exact fun ⟨hne, hs⟩ => ⟨shards, leader, hshards, hl, hne, hs⟩

theorem searched_of_leader {c : ClusterState} {t : TaskEnv β} {shardId : UInt64}
    {shards : ShardManager} {leader : String} (hshards : t.shards = .ok shards)
    (hl : shards.getLeader shardId = some leader) : searched c t shardId =
      (if leader = c.nodeId then t.localSearch else t.leaderSearch).bind Except.toOption := by
  rw [searched, hshards]
  dsimp only
  rw [hl]
  rfl

/-- The answer to a task that does not fail: what the leader's storage found, or the
empty list of an error response. -/
theorem answer_of_not_fails {c : ClusterState} {timeout : Nat} {t : TaskEnv β} {shardId : UInt64}
    (h : ¬ Fails c timeout t shardId) :
    ∃ r, (runTask c timeout t shardId).result = some r ∧ r.shardId = shardId ∧
      ((∃ rs, searched c t shardId = some rs ∧ r.results = scored rs) ∧
          ¬ ErrorStatus c t shardId ∨
        ErrorStatus c t shardId ∧ searched c t shardId = none ∧ r.results = []) := by
  obtain ⟨took, htook, hle⟩ : ∃ took, t.took = some took ∧ took ≤ timeout := by
    by_contra hnot
    exact h (.late fun took htook => Nat.lt_of_not_le fun hle => hnot ⟨took, htook, hle⟩)
  rw [runTask_of_took htook hle]
  cases hshards : t.shards with
  | error e => exact absurd (.poisoned hshards) h
  | ok shards =>
    cases hl : shards.getLeader shardId with
    | none => exact absurd (.unassigned hshards hl) h
    | some leader =>
      rw [errorStatus_iff hshards hl, searched_of_leader hshards hl,
        searchShard_of_leader hshards hl]
      by_cases hlocal : leader = c.nodeId
      · subst hlocal
        rw [if_pos rfl, if_pos rfl]
        obtain ⟨rs, hrs⟩ : ∃ rs, t.localSearch = some (.ok rs) := by
          by_contra hnot
          exact h (.localSearch hshards hl fun rs hrs => hnot ⟨rs, hrs⟩)
        rw [L6.localSearch, hrs]
        exact ⟨_, rfl, rfl, .inl ⟨⟨rs, rfl, rfl⟩, fun hs => hs.1 rfl⟩⟩
      · rw [if_neg hlocal, if_neg hlocal]
        obtain ⟨addr, haddr⟩ : ∃ addr, c.registry.lookup leader = some addr := by
          by_contra hnot
          refine h (.unknown hshards hl hlocal (Option.eq_none_iff_forall_ne_some.mpr ?_))
          exact fun addr haddr => hnot ⟨addr, haddr⟩
        have hdel : t.delivery = .intact := by
          by_contra hnot
          exact h (.network hshards hl hlocal hnot)
        rw [remoteSearch, haddr, hdel]
        refine ⟨_, rfl, rfl, ?_⟩
        cases ht : t.leaderSearch with
        | none => exact .inr ⟨⟨hlocal, by simp [internalSearchHandler]⟩, rfl, rfl⟩
        | some r =>
          cases r with
          | error e => exact .inr ⟨⟨hlocal, by simp [internalSearchHandler]⟩, rfl, rfl⟩
          | ok rs => exact .inl ⟨⟨rs, rfl, rfl⟩, fun hs => hs.2 rfl⟩

theorem result_eq_none {c : ClusterState} {timeout : Nat} {t : TaskEnv β} {shardId : UInt64} :
    (runTask c timeout t shardId).result = none ↔ Fails c timeout t shardId := by
  refine ⟨fun h => ?_, fails_result⟩
  by_contra hnot
  obtain ⟨r, hr, _⟩ := answer_of_not_fails hnot
  rw [h] at hr
  cases hr

/-! ## All tasks -/

theorem mem_gather {c : ClusterState} {timeout : Nat} {env : UInt64 → TaskEnv β}
    {leaders : List (UInt64 × String)} {r : ShardResult β} :
    r ∈ gather c timeout env leaders ↔
      ∃ p ∈ leaders, (runTask c timeout (env p.1) p.1).result = some r := by
  rw [gather, List.mem_filterMap]

/-- Fewer answers than shards means that some task failed. -/
theorem gather_short {c : ClusterState} {timeout : Nat} {env : UInt64 → TaskEnv β}
    {leaders : List (UInt64 × String)} :
    (gather c timeout env leaders).length < leaders.length ↔
      ∃ p ∈ leaders, Fails c timeout (env p.1) p.1 := by
  rw [gather, List.length_filterMap_lt_length_iff_exists]
  simp only [result_eq_none, exists_prop]

section Search

variable [F32 β] {S : StableSort (@cmpScore β _)} {rank : UInt64 → Nat} {queryTimeoutMs : Nat}
  {c : ClusterState} {env : UInt64 → TaskEnv β} {limit : Nat} {withinMs : Option Nat}

/-- The list a search hands to the merge. -/
def gathered (rank : UInt64 → Nat) (queryTimeoutMs : Nat) (c : ClusterState)
    (env : UInt64 → TaskEnv β) (withinMs : Option Nat) (shards : ShardManager) :
    List (ShardResult β) :=
  let leaders := shards.assignedLeaders rank
  gather c (perShardTimeout queryTimeoutMs leaders.length withinMs) env leaders

omit [F32 β] in
theorem gathered_nil {shards : ShardManager} (h : shards.assignedLeaders rank = []) :
    gathered rank queryTimeoutMs c env withinMs shards = [] := by
  simp only [gathered, h]
  rfl

/-- `result` is merged from `merged`, which has what was found for every shard. -/
structure Complete (S : StableSort (@cmpScore β _)) (c : ClusterState) (env : UInt64 → TaskEnv β)
    (limit : Nat) (merged : List (ShardResult β)) (result : DistributedQueryResult β) : Prop where
  results : result.results = mergeResults S merged limit
  covered : ∀ shardId < numShards, ∃ r ∈ merged, ∃ rs, r.shardId = shardId ∧
    searched c (env shardId) shardId = some rs ∧ r.results = scored rs

theorem search_eq_ok {shards : ShardManager} (hshards : c.shards = .ok shards)
    {result : DistributedQueryResult β} :
    search S rank queryTimeoutMs c env limit withinMs = .ok result ↔
      gathered rank queryTimeoutMs c env withinMs shards ≠ [] ∧
      result = ⟨mergeResults S (gathered rank queryTimeoutMs c env withinMs shards) limit,
        (shards.assignedLeaders rank).length,
        (gathered rank queryTimeoutMs c env withinMs shards).length,
        decide ((gathered rank queryTimeoutMs c env withinMs shards).length <
          (shards.assignedLeaders rank).length)⟩ := by
  have hnil : gathered rank queryTimeoutMs c env withinMs shards ≠ [] →
      shards.assignedLeaders rank ≠ [] := fun h hl => h (gathered_nil hl)
  unfold search
  rw [hshards]
  dsimp only
  split
  · next hl => exact ⟨nofun, fun h => absurd (List.isEmpty_iff.mp hl) (hnil h.1)⟩
  · split
    · next hg => exact ⟨nofun, fun h => absurd (List.isEmpty_iff.mp hg) h.1⟩
    · next hg =>
      constructor
      · intro h
        cases h
        exact ⟨fun h => hg (List.isEmpty_iff.mpr h), rfl⟩
      · rintro ⟨_, rfl⟩
        rfl

omit [F32 β] in
theorem mem_gathered {shards : ShardManager}
    (hok : ∀ p ∈ shards.assignedLeaders rank, ¬ Fails c
      (perShardTimeout queryTimeoutMs (shards.assignedLeaders rank).length withinMs) (env p.1) p.1)
    {r : ShardResult β} (hr : r ∈ gathered rank queryTimeoutMs c env withinMs shards) :
    (shards.getLeader r.shardId).isSome ∧
      ((∃ rs, searched c (env r.shardId) r.shardId = some rs ∧ r.results = scored rs) ∧
          ¬ ErrorStatus c (env r.shardId) r.shardId ∨
        ErrorStatus c (env r.shardId) r.shardId ∧ searched c (env r.shardId) r.shardId = none) := by
  obtain ⟨p, hp, hres⟩ := mem_gather.mp hr
  obtain ⟨r', hres', hid, hcase⟩ := answer_of_not_fails (hok p hp)
  rw [hres] at hres'
  cases hres'
  rw [hid]
  refine ⟨?_, hcase.imp_right fun h => ⟨h.1, h.2.1⟩⟩
  rw [ShardManager.mem_assignedLeaders.mp hp]
  rfl

/-- Every unmarked result covers all shards exactly when some task visibly fails, or
every shard is assigned and none is answered with an error status. -/
theorem complete_iff :
    (∀ shards, c.shards = .ok shards → ∀ result,
      search S rank queryTimeoutMs c env limit withinMs = .ok result →
      result.incomplete = false →
      Complete S c env limit (gathered rank queryTimeoutMs c env withinMs shards) result) ↔
    ∀ shards, c.shards = .ok shards →
      shards.assignedLeaders rank = [] ∨
      (∃ p ∈ shards.assignedLeaders rank, Fails c (perShardTimeout queryTimeoutMs
        (shards.assignedLeaders rank).length withinMs) (env p.1) p.1) ∨
      ∀ shardId < numShards, (shards.getLeader shardId).isSome ∧
        ¬ ErrorStatus c (env shardId) shardId := by
  refine forall_congr' fun shards => imp_congr_right fun hshards => ?_
  simp only [search_eq_ok hshards]
  constructor
  · intro h
    refine or_iff_not_imp_left.mpr fun hne => or_iff_not_imp_left.mpr fun hok => ?_
    have hok' : ∀ p ∈ shards.assignedLeaders rank, ¬ Fails c
        (perShardTimeout queryTimeoutMs (shards.assignedLeaders rank).length withinMs)
        (env p.1) p.1 := fun p hp hf => hok ⟨p, hp, hf⟩
    have hlen : ¬ (gathered rank queryTimeoutMs c env withinMs shards).length <
        (shards.assignedLeaders rank).length := fun hlt => hok (gather_short.mp hlt)
    have hsome : gathered rank queryTimeoutMs c env withinMs shards ≠ [] := by
      intro hnil
      rw [hnil, List.length_nil, Nat.not_lt, Nat.le_zero, List.length_eq_zero_iff] at hlen
      exact hne hlen
    intro shardId hlt
    obtain ⟨r, hr, rs, hid, hrs, _⟩ :=
      (h _ ⟨hsome, rfl⟩ (decide_eq_false hlen)).covered shardId hlt
    obtain ⟨hassigned, hcase⟩ := mem_gathered hok' hr
    subst hid
    refine ⟨hassigned, ?_⟩
    rcases hcase with ⟨_, hstatus⟩ | ⟨_, hnone⟩
    · exact hstatus
    · rw [hnone] at hrs
      cases hrs
  · rintro hcond _ ⟨hsome, rfl⟩ hflag
    have hlen := of_decide_eq_false hflag
    have hok : ∀ p ∈ shards.assignedLeaders rank, ¬ Fails c
        (perShardTimeout queryTimeoutMs (shards.assignedLeaders rank).length withinMs)
        (env p.1) p.1 := fun p hp hf => hlen (gather_short.mpr ⟨p, hp, hf⟩)
    have hall : ∀ shardId < numShards, (shards.getLeader shardId).isSome ∧
        ¬ ErrorStatus c (env shardId) shardId := by
      rcases hcond with hnil | ⟨p, hp, hf⟩ | hall
      · exact absurd (gathered_nil hnil) hsome
      · exact absurd hf (hok p hp)
      · exact hall
    refine ⟨rfl, fun shardId hlt => ?_⟩
    obtain ⟨hassigned, hstatus⟩ := hall shardId hlt
    obtain ⟨leader, hleader⟩ := Option.isSome_iff_exists.mp hassigned
    have hmem : (shardId, leader) ∈ shards.assignedLeaders rank :=
      ShardManager.mem_assignedLeaders.mpr hleader
    obtain ⟨r, hres, hid, hcase⟩ := answer_of_not_fails (hok _ hmem)
    rcases hcase with ⟨⟨rs, hrs, hresults⟩, _⟩ | ⟨hstatus', _⟩
    · exact ⟨r, mem_gather.mpr ⟨_, hmem, hres⟩, rs, hid, hrs, hresults⟩
    · exact absurd hstatus' hstatus

end Search

/-! ## Two unmarked results -/

def ledByB (shards : List UInt64) : ShardManager :=
  shards.foldl (fun m shardId => m.assignShard shardId "b") (ShardManager.new "a")

/-- Node `a`'s view when `b` leads the given shards. -/
def viewOf (shards : List UInt64) : ClusterState :=
  ⟨"a", .ok (ledByB shards), (∅ : AList fun _ : String => String).insert "b" "10.0.0.2:8080"⟩

/-- Tasks that get `b`'s answer at once. -/
def answers (shards : List UInt64) (leaderSearch : Result (List (UInt64 × Lit))) :
    UInt64 → TaskEnv Lit := fun _ => ⟨.ok (ledByB shards), none, some leaderSearch, .intact, some 5⟩

def everyShard : List UInt64 := (List.range 64).map UInt64.ofNat

/-- Node `b` leads all shards and has no index: 64 answers of status 500. -/
def failing : UInt64 → TaskEnv Lit := answers everyShard (.error .indexNotBuilt)

/-- Only shard 0 is assigned. -/
def alone : UInt64 → TaskEnv Lit := answers [0] (.ok [(7, .fin 1)])

/-- Neither result is marked, and neither covers all shards. -/
theorem unmarked_incomplete :
    (search (.insertion _) UInt64.toNat 1000 (viewOf everyShard) failing 10 none =
        .ok ⟨[], 64, 64, false⟩ ∧
      ¬ Complete (.insertion _) (viewOf everyShard) failing 10
        (gathered UInt64.toNat 1000 (viewOf everyShard) failing none (ledByB everyShard))
        ⟨[], 64, 64, false⟩) ∧
    (search (.insertion _) UInt64.toNat 1000 (viewOf [0]) alone 10 none =
        .ok ⟨[⟨7, .fin 1⟩], 1, 1, false⟩ ∧
      ¬ Complete (.insertion _) (viewOf [0]) alone 10
        (gathered UInt64.toNat 1000 (viewOf [0]) alone none (ledByB [0]))
        ⟨[⟨7, .fin 1⟩], 1, 1, false⟩) := by
  refine ⟨⟨by decide +kernel, fun h => ?_⟩, by decide +kernel, fun h => ?_⟩
  · have hnone : searched (viewOf everyShard) (failing 0) 0 = none := by decide +kernel
    obtain ⟨_, _, _, _, hrs, _⟩ := h.covered 0 (by decide)
    rw [hnone] at hrs
    cases hrs
  · have hnone : searched (viewOf [0]) (alone 1) 1 = none := by decide +kernel
    obtain ⟨_, _, _, _, hrs, _⟩ := h.covered 1 (by decide)
    rw [hnone] at hrs
    cases hrs

end Tesseract.L6
