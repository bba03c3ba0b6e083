import Mathlib.Data.List.Induction
import Mathlib.Data.List.Sort
import Tesseract.Core.Assoc
import Tesseract.Core.Error

/-!
# The node registry

Model of `tesseract-cluster/src/discovery.rs`: the known nodes with their addresses, when
each was last heard of, and what is thought of it. The instant of a heartbeat is kept as a
text and read back by every check. The order in which the `HashMap` is listed is a
parameter, `rank`; no lock is poisoned.

* `parse_nowEpochMillis`: the text of an instant is read back.
* `Filed`: every node is filed under its own id, in any run (`filed_run`).
* `getNode_apply`: what an operation can make of an entry.
-/
namespace Tesseract.L6

open Assoc

/-- mirrors tesseract-cluster/src/discovery.rs:13-18 -/
inductive NodeStatus where
  | active
  | suspect
  | dead
  deriving DecidableEq, Repr

/-- mirrors tesseract-cluster/src/discovery.rs:22-29 -/
structure NodeInfo where
  nodeId : String
  addr : String
  status : NodeStatus
  lastHeartbeat : String
  shards : List UInt64
  deriving DecidableEq, Repr

/-- What the clock shows, in milliseconds since the epoch: a `u128`. -/
abbrev Millis := { ms : Nat // ms < 2 ^ 128 }

/-- mirrors tesseract-cluster/src/discovery.rs:48-50 -/
def nowEpochMillis (now : Millis) : String := toString now.1

/-- `str::parse::<u128>`: an optional `+`, then digits, below 2^128.
mirrors tesseract-cluster/src/discovery.rs:53-55 -/
def parseEpochMillis (s : String) : Option Nat :=
  let ds := match s.toList with
    | '+' :: r => r
    | r => r
  if ds ≠ [] ∧ ds.all Char.isDigit = true ∧ Nat.ofDigitChars 10 ds 0 < 2 ^ 128 then
    some (Nat.ofDigitChars 10 ds 0)
  else none

/-- A node that registers now.
mirrors tesseract-cluster/src/discovery.rs:33-41 -/
def NodeInfo.new (nodeId addr : String) (shards : List UInt64) (now : Millis) : NodeInfo :=
  ⟨nodeId, addr, .active, nowEpochMillis now, shards⟩

/-- When the node was last heard of; 0 if the text is no number.
mirrors tesseract-cluster/src/discovery.rs:162 -/
def NodeInfo.lastSeen (info : NodeInfo) : Nat := (parseEpochMillis info.lastHeartbeat).getD 0

/-- The elapsed milliseconds are cut to a `u64`.
mirrors tesseract-cluster/src/discovery.rs:162-165 -/
def NodeInfo.Overdue (timeoutSecs : UInt64) (now : Millis) (info : NodeInfo) : Prop :=
  timeoutSecs.toNat * 1000 < (now.1 - info.lastSeen) % 2 ^ 64

instance (timeoutSecs : UInt64) (now : Millis) (info : NodeInfo) :
    Decidable (info.Overdue timeoutSecs now) :=
  inferInstanceAs (Decidable (_ < _))

/-- The body of the loop: the node, and its id if it is newly suspect.
mirrors tesseract-cluster/src/discovery.rs:157-170 -/
def NodeInfo.check (timeoutSecs : UInt64) (now : Millis) (info : NodeInfo) :
    NodeInfo × Option String :=
  if info.status = .dead then (info, none)
  else if info.Overdue timeoutSecs now ∧ info.status = .active then
    ({ info with status := .suspect }, some info.nodeId)
  else (info, none)

/-- mirrors tesseract-cluster/src/discovery.rs:63-66 -/
structure NodeRegistry where
  nodes : Map String NodeInfo
  heartbeatTimeout : UInt64

namespace NodeRegistry

/-- mirrors tesseract-cluster/src/discovery.rs:70-72 -/
def new (heartbeatTimeoutSecs : UInt64) : NodeRegistry := ⟨∅, heartbeatTimeoutSecs⟩

/-- mirrors tesseract-cluster/src/discovery.rs:130-133 -/
def getNode (reg : NodeRegistry) (nodeId : String) : Option NodeInfo := reg.nodes.lookup nodeId

def conflict (nodeId addr : String) : Error :=
  .nodeConflict s!"node {nodeId} already registered at {addr}"

/-- mirrors tesseract-cluster/src/discovery.rs:79-94 -/
def register (reg : NodeRegistry) (info : NodeInfo) : NodeRegistry × Result Unit :=
  match reg.getNode info.nodeId with
  | some existing =>
    if existing.addr ≠ info.addr then (reg, .error (conflict info.nodeId existing.addr))
    else ({ reg with nodes := reg.nodes.insert info.nodeId info }, .ok ())
  | none => ({ reg with nodes := reg.nodes.insert info.nodeId info }, .ok ())

/-- `get_mut`, or `NotFound`. -/
def update (reg : NodeRegistry) (nodeId : String) (f : NodeInfo → NodeInfo) :
    NodeRegistry × Result Unit :=
  match reg.getNode nodeId with
  | some info => ({ reg with nodes := reg.nodes.insert nodeId (f info) }, .ok ())
  | none => (reg, .error (.notFound s!"node {nodeId}"))

/-- mirrors tesseract-cluster/src/discovery.rs:100-107 -/
def heartbeat (reg : NodeRegistry) (nodeId : String) (now : Millis) :
    NodeRegistry × Result Unit :=
  reg.update nodeId fun info => { info with lastHeartbeat := nowEpochMillis now, status := .active }

/-- mirrors tesseract-cluster/src/discovery.rs:112-118 -/
def markDead (reg : NodeRegistry) (nodeId : String) : NodeRegistry × Result Unit :=
  reg.update nodeId fun info => { info with status := .dead }

/-- mirrors tesseract-cluster/src/discovery.rs:136-140 -/
def removeNode (reg : NodeRegistry) (nodeId : String) : NodeRegistry :=
  { reg with nodes := reg.nodes.erase nodeId }

/-- mirrors tesseract-cluster/src/discovery.rs:182-188 -/
def allNodes (rank : String → Nat) (reg : NodeRegistry) : List NodeInfo :=
  (reg.nodes.keys.insertionSort fun a b => rank a ≤ rank b).filterMap reg.getNode

/-- mirrors tesseract-cluster/src/discovery.rs:121-127 -/
def activeNodes (rank : String → Nat) (reg : NodeRegistry) : List NodeInfo :=
  (reg.allNodes rank).filter fun n => n.status = .active

/-- mirrors tesseract-cluster/src/discovery.rs:148-174 -/
def checkHeartbeats (reg : NodeRegistry) (now : Millis) (rank : String → Nat) :
    NodeRegistry × List String :=
  ({ reg with nodes := mapValues (fun n => (n.check reg.heartbeatTimeout now).1) reg.nodes },
    (reg.allNodes rank).filterMap fun n => (n.check reg.heartbeatTimeout now).2)

/-- mirrors tesseract-cluster/src/discovery.rs:177-179 -/
def len (reg : NodeRegistry) : Nat := reg.nodes.keys.length

end NodeRegistry

/-! ## The clock as text -/

theorem toDigits_sign (n : Nat) :
    (match Nat.toDigits 10 n with
      | '+' :: r => r
      | r => r) = Nat.toDigits 10 n := by
  cases h : Nat.toDigits 10 n with
  | nil => rfl
  | cons c cs =>
    have hmem : c ∈ Nat.toDigits 10 n := by rw [h]; exact List.mem_cons_self
    have hc : c.isDigit = true := Nat.isDigit_of_mem_toDigits (by decide) (by decide) hmem
    split
    · next r heq =>
      obtain ⟨rfl, -⟩ := List.cons.inj heq
      exact absurd hc (by decide)
    · rfl

/-- The text of an instant is read back. -/
@[simp] theorem parse_nowEpochMillis (now : Millis) :
    parseEpochMillis (nowEpochMillis now) = some now.1 := by
  have hlist : (nowEpochMillis now).toList = Nat.toDigits 10 now.1 := by
    rw [nowEpochMillis, Nat.toString_eq_ofList_toDigits, String.toList_ofList]
  have hall : (Nat.toDigits 10 now.1).all Char.isDigit = true :=
    List.all_eq_true.mpr fun c hc => Nat.isDigit_of_mem_toDigits (by decide) (by decide) hc
  have hvalue : Nat.ofDigitChars 10 (Nat.toDigits 10 now.1) 0 = now.1 :=
    Nat.ofDigitChars_toDigits (by decide) (by decide)
  simp only [parseEpochMillis, hlist, toDigits_sign]
  rw [hvalue, if_pos ⟨Nat.toDigits_ne_nil, hall, now.2⟩]

@[simp] theorem lastSeen_new (nodeId addr : String) (shards : List UInt64) (now : Millis) :
    (NodeInfo.new nodeId addr shards now).lastSeen = now.1 := by
  simp [NodeInfo.lastSeen, NodeInfo.new]

/-! ## What an operation does to one node -/

inductive RegistryOp where
  | register (info : NodeInfo)
  | heartbeat (nodeId : String) (now : Millis)
  | markDead (nodeId : String)
  | removeNode (nodeId : String)
  | checkHeartbeats (now : Millis) (rank : String → Nat)

namespace NodeRegistry

def apply (reg : NodeRegistry) : RegistryOp → NodeRegistry
  | .register info => (reg.register info).1
  | .heartbeat nodeId now => (reg.heartbeat nodeId now).1
  | .markDead nodeId => (reg.markDead nodeId).1
  | .removeNode nodeId => reg.removeNode nodeId
  | .checkHeartbeats now rank => (reg.checkHeartbeats now rank).1

variable (reg : NodeRegistry)

/-- A registration is refused if the id is taken by another address. -/
theorem getNode_register (info : NodeInfo) (k : String) :
    (reg.register info).1.getNode k =
      if k = info.nodeId ∧ ∀ n, reg.getNode k = some n → n.addr = info.addr then some info
      else reg.getNode k := by
  unfold register
  by_cases hk : k = info.nodeId
  · subst hk
    cases hget : reg.getNode info.nodeId with
    | none => simp [getNode]
    | some existing =>
      by_cases haddr : existing.addr = info.addr
      · simp [getNode, haddr]
      · simpa [haddr] using hget
  · have hne : ∀ m : NodeRegistry, m.nodes = reg.nodes.insert info.nodeId info →
        m.getNode k = reg.getNode k := by
      intro m hm
      rw [getNode, hm, lookup_insert_eq, if_neg hk, getNode]
    rw [if_neg fun h => hk h.1]
    split
    · split
      · rfl
      · exact hne _ rfl
    · exact hne _ rfl

theorem getNode_update (nodeId : String) (f : NodeInfo → NodeInfo) (k : String) :
    (reg.update nodeId f).1.getNode k =
      if k = nodeId then (reg.getNode k).map f else reg.getNode k := by
  unfold update
  split
  · next info hget => exact lookup_insert_map hget f k
  · next hget =>
    split
    · next hk => rw [hk, hget, Option.map_none]
    · rfl

theorem getNode_removeNode (nodeId k : String) :
    (reg.removeNode nodeId).getNode k = if k = nodeId then none else reg.getNode k :=
  lookup_erase_eq reg.nodes nodeId k

theorem getNode_checkHeartbeats (now : Millis) (rank : String → Nat) (k : String) :
    (reg.checkHeartbeats now rank).1.getNode k =
      (reg.getNode k).map fun n => (n.check reg.heartbeatTimeout now).1 :=
  lookup_mapValues _ reg.nodes k

@[simp] theorem heartbeatTimeout_apply (op : RegistryOp) :
    (reg.apply op).heartbeatTimeout = reg.heartbeatTimeout := by
  cases op with
  | register info =>
    simp only [apply, register]
    split
    · split <;> rfl
    · rfl
  | heartbeat nodeId now =>
    simp only [apply, heartbeat, update]
    split <;> rfl
  | markDead nodeId =>
    simp only [apply, markDead, update]
    split <;> rfl
  | removeNode nodeId => rfl
  | checkHeartbeats now rank => rfl

/-! ## Invariants of the runs -/

/-- Every node is filed under its own id. -/
def Filed : Prop := ∀ k n, reg.getNode k = some n → n.nodeId = k

theorem filed_new (heartbeatTimeoutSecs : UInt64) : (new heartbeatTimeoutSecs).Filed := by
  intro k n h
  cases h

variable {reg}

theorem check_nodeId (timeoutSecs : UInt64) (now : Millis) (n : NodeInfo) :
    (n.check timeoutSecs now).1.nodeId = n.nodeId ∧ (n.check timeoutSecs now).1.addr = n.addr := by
  unfold NodeInfo.check
  split
  · exact ⟨rfl, rfl⟩
  · split <;> exact ⟨rfl, rfl⟩

/-- A node that stays registered over one operation stays what it is, but for a new
registration, which has the same address. -/
theorem getNode_apply {k : String} {op : RegistryOp} {n' : NodeInfo}
    (h : (reg.apply op).getNode k = some n') :
    (∃ n, reg.getNode k = some n ∧ n'.nodeId = n.nodeId ∧ n'.addr = n.addr) ∨
      op = .register n' ∧ n'.nodeId = k ∧ ∀ n, reg.getNode k = some n → n.addr = n'.addr := by
  have hupdate : ∀ (nodeId : String) (f : NodeInfo → NodeInfo),
      (∀ n, (f n).nodeId = n.nodeId ∧ (f n).addr = n.addr) →
      (reg.update nodeId f).1.getNode k = some n' →
      ∃ n, reg.getNode k = some n ∧ n'.nodeId = n.nodeId ∧ n'.addr = n.addr := by
    intro nodeId f hf h
    rw [getNode_update] at h
    split at h
    · obtain ⟨n, hn, rfl⟩ := Option.map_eq_some_iff.mp h
      exact ⟨n, hn, hf n⟩
    · exact ⟨n', h, rfl, rfl⟩
  cases op with
  | register info =>
    simp only [apply, getNode_register] at h
    split at h
    · next hk =>
      obtain ⟨rfl, haddr⟩ := hk
      obtain rfl := Option.some.inj h
      exact .inr ⟨rfl, rfl, haddr⟩
    · exact .inl ⟨n', h, rfl, rfl⟩
  | heartbeat nodeId now =>
    refine .inl (hupdate nodeId _ (fun n => ?_) h)
    exact ⟨rfl, rfl⟩
  | markDead nodeId =>
    refine .inl (hupdate nodeId _ (fun n => ?_) h)
    exact ⟨rfl, rfl⟩
  | removeNode nodeId =>
    simp only [apply, getNode_removeNode] at h
    split at h
    · cases h
    · exact .inl ⟨n', h, rfl, rfl⟩
  | checkHeartbeats now rank =>
    simp only [apply, getNode_checkHeartbeats] at h
    obtain ⟨n, hn, rfl⟩ := Option.map_eq_some_iff.mp h
    exact .inl ⟨n, hn, check_nodeId _ _ n⟩

theorem Filed.apply (h : reg.Filed) (op : RegistryOp) : (reg.apply op).Filed := by
  intro k n' hn'
  rcases getNode_apply hn' with ⟨n, hn, hid, -⟩ | ⟨-, hid, -⟩
  · exact hid.trans (h k n hn)
  · exact hid

theorem filed_run (ops : List RegistryOp) (h : reg.Filed) :
    (ops.foldl NodeRegistry.apply reg).Filed := by
  induction ops generalizing reg with
  | nil => exact h
  | cons op ops ih => exact ih (h.apply op)

end NodeRegistry

end Tesseract.L6
