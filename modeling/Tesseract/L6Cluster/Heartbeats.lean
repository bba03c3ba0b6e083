import Tesseract.L6Cluster.Discovery

/-!
# Who is thought to be alive

The status of a node over whole runs of the registry. A node shows a sign of life by a
heartbeat or a new registration; between two of them only the checks and `mark_dead` change
what is thought of it.

* `status_since`: what a run without a sign of life of a node makes of its status.
* `mem_reports`, `nodup_reports`: a check reports each active node that is overdue, once.
* `reports_le_signs`: a node is reported at most once for each sign of life.
* `addr_run`: a node keeps its address until it is removed.
-/
namespace Tesseract.L6.NodeRegistry

open Assoc

variable {reg : NodeRegistry} {k : String}

/-! ## Between two signs of life -/

/-- What replaces or removes the entry of the node `k` at `addr`. -/
def Touches (k addr : String) : RegistryOp → Prop
  | .register info => info.nodeId = k ∧ info.addr = addr
  | .heartbeat nodeId _ => nodeId = k
  | .removeNode nodeId => nodeId = k
  | _ => False

instance (k addr : String) : ∀ op, Decidable (Touches k addr op)
  | .register info => inferInstanceAs (Decidable (info.nodeId = k ∧ info.addr = addr))
  | .heartbeat nodeId _ => inferInstanceAs (Decidable (nodeId = k))
  | .removeNode nodeId => inferInstanceAs (Decidable (nodeId = k))
  | .markDead _ => inferInstanceAs (Decidable False)
  | .checkHeartbeats _ _ => inferInstanceAs (Decidable False)

/-- Some check of the run finds `n` overdue. -/
def FoundOverdue (timeoutSecs : UInt64) (n : NodeInfo) (ops : List RegistryOp) : Prop :=
  ∃ now rank, .checkHeartbeats now rank ∈ ops ∧ n.Overdue timeoutSecs now

/-- The status of a node that shows no sign of life, behind one operation. -/
def statusAfter (timeoutSecs : UInt64) (k : String) (n : NodeInfo) : RegistryOp → NodeStatus
  | .markDead nodeId => if nodeId = k then .dead else n.status
  | .checkHeartbeats now _ =>
    if n.status = .active ∧ n.Overdue timeoutSecs now then .suspect else n.status
  | _ => n.status

theorem getNode_quiet {n : NodeInfo} (hn : reg.getNode k = some n) {op : RegistryOp}
    (hquiet : ¬ Touches k n.addr op) :
    (reg.apply op).getNode k =
      some { n with status := statusAfter reg.heartbeatTimeout k n op } := by
  cases op with
  | register info =>
    simp only [apply, getNode_register]
    have hother : ¬ (k = info.nodeId ∧ ∀ m, reg.getNode k = some m → m.addr = info.addr) :=
      fun h => hquiet ⟨h.1.symm, (h.2 n hn).symm⟩
    rw [if_neg hother, hn]
    rfl
  | heartbeat nodeId now =>
    simp only [apply, heartbeat, getNode_update]
    rw [if_neg fun h => hquiet h.symm, hn]
    rfl
  | markDead nodeId =>
    simp only [apply, markDead, getNode_update, hn, statusAfter, Option.map_some]
    by_cases h : nodeId = k
    · simp [h]
    · simp [h, Ne.symm h]
  | removeNode nodeId =>
    simp only [apply, getNode_removeNode]
    rw [if_neg fun h => hquiet h.symm, hn]
    rfl
  | checkHeartbeats now rank =>
    simp only [apply, getNode_checkHeartbeats, hn, Option.map_some, NodeInfo.check, statusAfter]
    by_cases hdead : n.status = .dead
    · rw [if_pos hdead, if_neg (by simp [hdead])]
    · by_cases hover : n.Overdue reg.heartbeatTimeout now ∧ n.status = .active
      · rw [if_neg hdead, if_pos hover, if_pos hover.symm]
      · rw [if_neg hdead, if_neg hover, if_neg fun h => hover h.symm]

theorem statusAfter_eq_dead {timeoutSecs : UInt64} {n : NodeInfo} {op : RegistryOp} :
    statusAfter timeoutSecs k n op = .dead ↔ n.status = .dead ∨ op = .markDead k := by
  cases op with
  | markDead nodeId => by_cases h : nodeId = k <;> simp [statusAfter, h]
  | checkHeartbeats now rank =>
    simp only [statusAfter]
    split
    · next h => simp [h.1]
    · simp
  | _ => simp [statusAfter]

theorem statusAfter_eq_suspect {timeoutSecs : UInt64} {n : NodeInfo} {op : RegistryOp} :
    statusAfter timeoutSecs k n op = .suspect ↔ op ≠ .markDead k ∧
      (n.status = .suspect ∨ n.status = .active ∧ FoundOverdue timeoutSecs n [op]) := by
  cases op with
  | markDead nodeId => by_cases h : nodeId = k <;> simp [statusAfter, FoundOverdue, h]
  | checkHeartbeats now rank =>
    have hfound : FoundOverdue timeoutSecs n [.checkHeartbeats now rank] ↔
        n.Overdue timeoutSecs now := by simp [FoundOverdue]
    rw [hfound]
    simp only [statusAfter]
    split
    · next h => simp [h]
    · next h => simp [h]
  | _ => simp [statusAfter, FoundOverdue]

theorem foundOverdue_append {timeoutSecs : UInt64} {n : NodeInfo} {ops ops' : List RegistryOp} :
    FoundOverdue timeoutSecs n (ops ++ ops') ↔
      FoundOverdue timeoutSecs n ops ∨ FoundOverdue timeoutSecs n ops' := by
  simp only [FoundOverdue, List.mem_append, or_and_right, exists_or]

theorem heartbeatTimeout_foldl (ops : List RegistryOp) (reg : NodeRegistry) :
    (ops.foldl apply reg).heartbeatTimeout = reg.heartbeatTimeout := by
  induction ops generalizing reg with
  | nil => rfl
  | cons op ops ih => rw [List.foldl_cons, ih, heartbeatTimeout_apply]

/-- A node that is active at first and shows no sign of life: it is dead if it was marked
dead, suspect if not and a check found it overdue, else active. -/
theorem status_since {n : NodeInfo} (hn : reg.getNode k = some n) (hactive : n.status = .active)
    (ops : List RegistryOp) (hquiet : ∀ op ∈ ops, ¬ Touches k n.addr op) :
    ∃ status, (ops.foldl apply reg).getNode k = some { n with status := status } ∧
      (status = .dead ↔ .markDead k ∈ ops) ∧
      (status = .suspect ↔
        .markDead k ∉ ops ∧ FoundOverdue reg.heartbeatTimeout n ops) := by
  induction ops using List.reverseRecOn with
  | nil => exact ⟨.active, by rw [← hactive]; exact hn, by simp, by simp [FoundOverdue]⟩
  | append_singleton ops op ih =>
    obtain ⟨status, hget, hdead, hsuspect⟩ :=
      ih fun op' h => hquiet op' (List.mem_append_left _ h)
    have hstep := getNode_quiet hget (hquiet op (by simp))
    have htimeout : (ops.foldl apply reg).heartbeatTimeout = reg.heartbeatTimeout :=
      heartbeatTimeout_foldl ops reg
    rw [htimeout] at hstep
    rw [List.foldl_append, List.foldl_cons, List.foldl_nil]
    refine ⟨_, hstep, ?_, ?_⟩
    · rw [statusAfter_eq_dead, List.mem_append, List.mem_singleton, eq_comm (a := op)]
      exact or_congr_left hdead
    · rw [statusAfter_eq_suspect, foundOverdue_append, List.mem_append, List.mem_singleton,
        ne_comm, ne_eq]
      have hactive : status = .active ↔ ¬ status = .dead ∧ ¬ status = .suspect := by
        cases status <;> simp
      have hsame : FoundOverdue reg.heartbeatTimeout { n with status := status } [op] ↔
          FoundOverdue reg.heartbeatTimeout n [op] := Iff.rfl
      rw [hactive, hsame, hdead, hsuspect]
      clear hstep hget hquiet ih
      tauto

/-- A node that registers at 0 is found overdue behind the 30 seconds. -/
theorem status_since_overdue :
    ∃ n, ([RegistryOp.checkHeartbeats ⟨30000, by decide⟩ String.length,
        .checkHeartbeats ⟨30001, by decide⟩ String.length].foldl apply
          ((new 30).register (.new "a" "127.0.0.1:9001" [] ⟨0, by decide⟩)).1).getNode "a" =
      some n ∧ n.status = .suspect := by
  have hnew : ((new 30).register (.new "a" "127.0.0.1:9001" [] ⟨0, by decide⟩)).1.getNode "a" =
      some (.new "a" "127.0.0.1:9001" [] ⟨0, by decide⟩) := rfl
  obtain ⟨status, hget, -, hsuspect⟩ := status_since hnew rfl
    [.checkHeartbeats ⟨30000, by decide⟩ String.length,
      .checkHeartbeats ⟨30001, by decide⟩ String.length] (by simp [Touches])
  refine ⟨_, hget, hsuspect.mpr ⟨by simp, ⟨30001, by decide⟩, String.length, by simp, ?_⟩⟩
  rw [NodeInfo.Overdue, lastSeen_new]
  decide

/-! ## What is reported -/

def inOrder (rank : String → Nat) (reg : NodeRegistry) : List String :=
  reg.nodes.keys.insertionSort fun a b => rank a ≤ rank b

/-- The node is active, and would be found overdue. -/
def Lapsed (reg : NodeRegistry) (now : Millis) (k : String) : Prop :=
  ∃ n, reg.getNode k = some n ∧ n.status = .active ∧ n.Overdue reg.heartbeatTimeout now

theorem mem_inOrder {rank : String → Nat} : k ∈ reg.inOrder rank ↔ ∃ n, reg.getNode k = some n := by
  rw [inOrder, List.mem_insertionSort, ← AList.mem_keys, ← AList.lookup_isSome,
    Option.isSome_iff_exists]
  rfl

theorem nodup_inOrder (rank : String → Nat) : (reg.inOrder rank).Nodup :=
  (List.perm_insertionSort _ _).nodup_iff.mpr reg.nodes.nodupKeys

theorem check_report {timeoutSecs : UInt64} {now : Millis} {n : NodeInfo} {id : String} :
    (n.check timeoutSecs now).2 = some id ↔
      n.status = .active ∧ n.Overdue timeoutSecs now ∧ n.nodeId = id := by
  unfold NodeInfo.check
  split
  · next h => simp [h]
  · split
    · next h => simp [h.1, h.2]
    · next h => simpa using fun ha ho => absurd ⟨ho, ha⟩ h

/-- A check reports the active nodes that are overdue. -/
theorem mem_reports (hfiled : reg.Filed) (now : Millis) (rank : String → Nat) :
    k ∈ (reg.checkHeartbeats now rank).2 ↔ reg.Lapsed now k := by
  simp only [checkHeartbeats, allNodes, List.mem_filterMap, check_report]
  constructor
  · rintro ⟨n, ⟨k', -, hget⟩, hactive, hover, rfl⟩
    obtain rfl := hfiled k' n hget
    exact ⟨n, hget, hactive, hover⟩
  · rintro ⟨n, hget, hactive, hover⟩
    exact ⟨n, ⟨k, mem_inOrder.mpr ⟨n, hget⟩, hget⟩, hactive, hover, hfiled k n hget⟩

/-- No node is reported twice by one check. -/
theorem nodup_reports (hfiled : reg.Filed) (now : Millis) (rank : String → Nat) :
    (reg.checkHeartbeats now rank).2.Nodup := by
  rw [checkHeartbeats, allNodes, List.filterMap_filterMap]
  refine (nodup_inOrder rank).filterMap fun a a' id ha ha' => ?_
  -- what is reported for a key is the key
  have hkey : ∀ a, id ∈ (reg.getNode a).bind (fun n => (n.check reg.heartbeatTimeout now).2) →
      id = a := by
    intro a ha
    obtain ⟨n, hget, hid⟩ := Option.bind_eq_some_iff.mp ha
    exact (check_report.mp hid).2.2.symm.trans (hfiled a n hget)
  exact (hkey a ha).symm.trans (hkey a' ha')

/-- The nodes that an operation reports. -/
def reports (reg : NodeRegistry) : RegistryOp → List String
  | .checkHeartbeats now rank => (reg.checkHeartbeats now rank).2
  | _ => []

/-- A heartbeat or a registration of `k` that is accepted. -/
def SignOfLife (k : String) (reg : NodeRegistry) : RegistryOp → Prop
  | .register info => info.nodeId = k ∧ (reg.register info).2 = .ok ()
  | .heartbeat nodeId now => nodeId = k ∧ (reg.heartbeat nodeId now).2 = .ok ()
  | _ => False

instance (k : String) (reg : NodeRegistry) : ∀ op, Decidable (SignOfLife k reg op)
  | .register info =>
    inferInstanceAs (Decidable (info.nodeId = k ∧ (reg.register info).2 = .ok ()))
  | .heartbeat nodeId now =>
    inferInstanceAs (Decidable (nodeId = k ∧ (reg.heartbeat nodeId now).2 = .ok ()))
  | .removeNode _ => inferInstanceAs (Decidable False)
  | .markDead _ => inferInstanceAs (Decidable False)
  | .checkHeartbeats _ _ => inferInstanceAs (Decidable False)

/-- How often a run reports `k`. -/
def timesReported (k : String) : NodeRegistry → List RegistryOp → Nat
  | _, [] => 0
  | reg, op :: ops => (reg.reports op).count k + timesReported k (reg.apply op) ops

/-- How many signs of life a run has of `k`. -/
def signsOfLife (k : String) : NodeRegistry → List RegistryOp → Nat
  | _, [] => 0
  | reg, op :: ops => (if SignOfLife k reg op then 1 else 0) + signsOfLife k (reg.apply op) ops

/-- 1 if `k` is active. -/
def activity (k : String) (reg : NodeRegistry) : Nat :=
  if (reg.getNode k).any fun n => n.status = .active then 1 else 0

theorem activity_le_one (reg : NodeRegistry) : activity k reg ≤ 1 := by
  unfold activity
  split <;> omega

theorem activity_congr {reg reg' : NodeRegistry} (h : reg'.getNode k = reg.getNode k) :
    activity k reg' = activity k reg := by
  rw [activity, activity, h]

theorem activity_pos {reg : NodeRegistry} :
    activity k reg = 1 ↔ ∃ n, reg.getNode k = some n ∧ n.status = .active := by
  unfold activity
  cases reg.getNode k with
  | none => simp
  | some n => by_cases h : n.status = .active <;> simp [h]

theorem register_ok {info : NodeInfo} :
    (reg.register info).2 = .ok () ↔
      ∀ n, reg.getNode info.nodeId = some n → n.addr = info.addr := by
  unfold register
  cases reg.getNode info.nodeId with
  | none => simp
  | some existing => by_cases h : existing.addr = info.addr <;> simp [h]

theorem update_ok {nodeId : String} {f : NodeInfo → NodeInfo} :
    (reg.update nodeId f).2 = .ok () ↔ ∃ n, reg.getNode nodeId = some n := by
  unfold update
  cases reg.getNode nodeId <;> simp

theorem activity_of_map {reg reg' : NodeRegistry} {f : NodeInfo → NodeInfo}
    (hget : reg'.getNode k = (reg.getNode k).map f)
    (hf : ∀ n, (f n).status = .active → n.status = .active) : activity k reg' ≤ activity k reg := by
  unfold activity
  rw [hget]
  cases reg.getNode k with
  | none => exact Nat.le_refl _
  | some n =>
    by_cases h : (f n).status = .active
    · simp [h, hf n h]
    · simp [h]

/-- Only a sign of life makes a node active. -/
theorem activity_quiet {op : RegistryOp} (hquiet : ¬ SignOfLife k reg op) :
    activity k (reg.apply op) ≤ activity k reg := by
  cases op with
  | register info =>
    refine Nat.le_of_eq (activity_congr ?_)
    rw [apply, getNode_register, if_neg]
    rintro ⟨rfl, haddr⟩
    exact hquiet ⟨rfl, register_ok.mpr haddr⟩
  | heartbeat nodeId now =>
    refine Nat.le_of_eq (activity_congr ?_)
    rw [apply, heartbeat, getNode_update]
    split
    · next hk =>
      subst hk
      cases hget : reg.getNode k with
      | none => rfl
      | some n => exact absurd ⟨rfl, update_ok.mpr ⟨n, hget⟩⟩ hquiet
    · rfl
  | markDead nodeId =>
    by_cases hk : k = nodeId
    · refine activity_of_map (f := fun n => { n with status := .dead }) ?_ fun n h => ?_
      · rw [apply, markDead, getNode_update, if_pos hk]
      · cases h
    · refine Nat.le_of_eq (activity_congr ?_)
      rw [apply, markDead, getNode_update, if_neg hk]
  | removeNode nodeId =>
    unfold activity
    rw [apply, getNode_removeNode]
    split
    · simp
    · exact Nat.le_refl _
  | checkHeartbeats now rank =>
    refine activity_of_map (getNode_checkHeartbeats reg now rank k) fun n h => ?_
    unfold NodeInfo.check at h
    split at h
    · exact h
    · split at h
      · cases h
      · exact h

/-- A node that is reported was active, and is so no more. -/
theorem reports_check (hfiled : reg.Filed) (now : Millis) (rank : String → Nat) :
    (reg.checkHeartbeats now rank).2.count k + activity k (reg.checkHeartbeats now rank).1 ≤
      activity k reg := by
  by_cases hlapsed : reg.Lapsed now k
  · have hcount : (reg.checkHeartbeats now rank).2.count k ≤ 1 :=
      List.nodup_iff_count_le_one.mp (nodup_reports hfiled now rank) k
    obtain ⟨n, hget, hactive, hover⟩ := hlapsed
    have hbefore : activity k reg = 1 := activity_pos.mpr ⟨n, hget, hactive⟩
    have hafter : activity k (reg.checkHeartbeats now rank).1 = 0 := by
      unfold activity
      rw [getNode_checkHeartbeats, hget]
      simp [NodeInfo.check, hactive, hover]
    omega
  · have hnot : (reg.checkHeartbeats now rank).2.count k = 0 :=
      List.count_eq_zero.mpr (mt (mem_reports hfiled now rank).mp hlapsed)
    have hquiet : activity k (reg.apply (.checkHeartbeats now rank)) ≤ activity k reg :=
      activity_quiet id
    rw [apply] at hquiet
    omega

/-- Only a sign of life makes a node active, and being reported uses it up. -/
theorem reports_step (hfiled : reg.Filed) (op : RegistryOp) :
    (reg.reports op).count k + activity k (reg.apply op) ≤
      (if SignOfLife k reg op then 1 else 0) + activity k reg := by
  by_cases hsign : SignOfLife k reg op
  · have hle := activity_le_one (k := k) (reg.apply op)
    have hnone : reg.reports op = [] := by
      cases op with
      | checkHeartbeats now rank => exact hsign.elim
      | _ => rfl
    rw [if_pos hsign, hnone, List.count_nil]
    omega
  · have hquiet := activity_quiet hsign
    rw [if_neg hsign, Nat.zero_add]
    cases op with
    | checkHeartbeats now rank => exact reports_check hfiled now rank
    | _ => simpa [reports] using hquiet

/-- A node is reported at most once for each sign of life that it shows, and once more if it
was active at first. -/
theorem reports_le_signs (hfiled : reg.Filed) (k : String) (ops : List RegistryOp) :
    timesReported k reg ops + activity k (ops.foldl apply reg) ≤
      signsOfLife k reg ops + activity k reg := by
  induction ops generalizing reg with
  | nil => simp [timesReported, signsOfLife]
  | cons op ops ih =>
    have hstep := reports_step (k := k) hfiled op
    have hrest := ih (hfiled.apply op)
    simp only [timesReported, signsOfLife, List.foldl_cons]
    omega

/-- In any run of a registry, and any part of it: the reports of a node are no more than
its signs of life in that part, and one more if it was active before. -/
theorem reported_once (heartbeatTimeoutSecs : UInt64) (before ops : List RegistryOp)
    (k : String) :
    timesReported k (before.foldl apply (new heartbeatTimeoutSecs)) ops +
        activity k (ops.foldl apply (before.foldl apply (new heartbeatTimeoutSecs))) ≤
      signsOfLife k (before.foldl apply (new heartbeatTimeoutSecs)) ops +
        activity k (before.foldl apply (new heartbeatTimeoutSecs)) :=
  reports_le_signs (filed_run before (filed_new heartbeatTimeoutSecs)) k ops

/-! ## The address of a node -/

/-- As long as it is not removed, a node keeps the address it first came with, whoever
registers under its id. -/
theorem addr_run {n : NodeInfo} (hn : reg.getNode k = some n) (ops : List RegistryOp)
    (hstays : .removeNode k ∉ ops) :
    ∃ n', (ops.foldl apply reg).getNode k = some n' ∧ n'.addr = n.addr := by
  induction ops generalizing reg n with
  | nil => exact ⟨n, hn, rfl⟩
  | cons op ops ih =>
    have hkept : ∃ n₁, (reg.apply op).getNode k = some n₁ := by
      by_cases htouch : Touches k n.addr op
      · cases op with
        | register info =>
          obtain ⟨rfl, -⟩ := htouch
          rw [apply, getNode_register]
          split
          · exact ⟨_, rfl⟩
          · exact ⟨n, hn⟩
        | heartbeat nodeId now =>
          rw [apply, heartbeat, getNode_update, hn]
          split
          · exact ⟨_, rfl⟩
          · exact ⟨n, rfl⟩
        | removeNode nodeId => exact absurd (htouch ▸ List.mem_cons_self) hstays
        | markDead nodeId => exact htouch.elim
        | checkHeartbeats now rank => exact htouch.elim
      · exact ⟨_, getNode_quiet hn htouch⟩
    obtain ⟨n₁, hn₁⟩ := hkept
    have haddr : n₁.addr = n.addr := by
      rcases getNode_apply hn₁ with ⟨m, hm, -, haddr⟩ | ⟨-, -, haddr⟩
      · obtain rfl := Option.some.inj (hn.symm.trans hm)
        exact haddr
      · exact (haddr n hn).symm
    obtain ⟨n', hn', hsame⟩ := ih hn₁ fun h => hstays (List.mem_cons_of_mem _ h)
    exact ⟨n', hn', hsame.trans haddr⟩

end Tesseract.L6.NodeRegistry
