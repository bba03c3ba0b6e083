import Mathlib.Data.List.Perm.Subperm
import Mathlib.Logic.Function.Basic
import Tesseract.Core.LTS
import Tesseract.L6Cluster.Api
import Tesseract.L6Cluster.Heartbeats

/-!
# Every insert at the leader of its shard

Nodes that take inserts from clients and send them on to one another. Each has its own
assignments and its own registry, which may lack a shard or a node; a request on the way may
be lost, and waits for as long as it likes. The node that a request reaches does not ask
whether it leads the shard. The JSON that a request is sent on in gives it back as it was;
numbers that JSON has no text for are left out.

* `sharded`: where the nodes name no leaders but those of `home`, and no name is registered
  with the address of another node, the storage of a node is what its own inserts have made of
  it, and these are of shards that the node leads.
* `no_insert_doubled`: what has been asked of a storage or is on the way was requested by a
  client, and no request is there twice, whatever the nodes know.
* `forwarded_as_direct`: the client is told what the leader itself would have told it.
-/
namespace Tesseract.L6

open L3 L3.Serde L4

variable {α β : Type} [F64 α]

/-- The shard of a vector. -/
def shardOf (id : UInt64) : UInt64 := (jumpHash 65 id numShards).getD 0

theorem shardFor_eq (m : ShardManager) (id : UInt64) : m.shardFor id = some (shardOf id) := by
  obtain ⟨r, hr, -⟩ := m.shardFor_lt id
  rw [hr, shardOf]
  exact congrArg some (congrArg (Option.getD · 0) hr).symm

namespace ClusterApiState

variable [F32 β] [Narrow α β] {P : Deps α} {env : Env} {c c' : ClusterApiState α β}
  {req : InsertRequest α}

/-- What the storage is asked for, if there is one. -/
def asks (env : Env) (c : ClusterApiState α β) (req : InsertRequest α) : List (Call α) :=
  if c.storage.isSome then [storageCall env req] else []

omit [F32 β] [Narrow α β] in
theorem id_of_asks {call : Call α} (h : call ∈ c.asks env req) : call.id = req.id := by
  unfold asks at h
  split at h
  · rw [List.mem_singleton.mp h]
    rfl
  · cases h

/-- What the storage is asked for where the insert is taken. -/
def asksAlong (env : Env) (c : ClusterApiState α β) (req : InsertRequest α) :
    Option Route → List (Call α)
  | some .here => c.asks env req
  | _ => []

/-- What a node sends on. -/
def sendsAlong (req : InsertRequest α) : Option Route → List (String × InsertRequest α)
  | some (.there _ addr) => [(addr, req)]
  | _ => []

end ClusterApiState

/-- `after` is `before` with the inserts `cs`; a node without a storage has none. -/
def Served [F32 β] [Narrow α β] (P : Deps α) (before : Option (Engine α β))
    (cs : List (Call α)) (after : Option (Engine α β)) : Prop :=
  match before with
  | none => cs = [] ∧ after = none
  | some s => ∃ s', s.insertAll P cs = some s' ∧ after = some s'

section Served

variable [F32 β] [Narrow α β] {P : Deps α}

theorem Served.refl (s : Option (Engine α β)) : Served P s [] s := by
  cases s with
  | none => exact ⟨rfl, rfl⟩
  | some s => exact ⟨s, rfl, rfl⟩

theorem Served.trans {s s' s'' : Option (Engine α β)} {cs cs' : List (Call α)}
    (h : Served P s cs s') (h' : Served P s' cs' s'') : Served P s (cs ++ cs') s'' := by
  cases s with
  | none =>
    obtain ⟨rfl, rfl⟩ := h
    exact h'
  | some s =>
    obtain ⟨s₁, hs₁, rfl⟩ := h
    obtain ⟨s₂, hs₂, rfl⟩ := h'
    exact ⟨s₂, (Engine.insertAll_append hs₁ cs').trans hs₂, rfl⟩

end Served

namespace ClusterApiState

variable [F32 β] [Narrow α β] {P : Deps α} {env : Env} {c c' : ClusterApiState α β}
  {req : InsertRequest α}

/-- A handler that calls `insert` changes the storage alone, by this insert. -/
theorem served_insert {out : Option (ClusterApiState α β)}
    (hout : out = match c.storage with
      | none => some c
      | some s => (s.insert P (storageCall env req)).map fun p => { c with storage := some p.1 })
    (h : out = some c') :
    c'.cluster = c.cluster ∧ c'.registry = c.registry ∧
      Served P c.storage (c.asks env req) c'.storage := by
  rw [hout] at h
  unfold asks
  cases hs : c.storage with
  | none =>
    simp only [hs] at h
    obtain rfl := Option.some.inj h
    exact ⟨rfl, rfl, by simp [Served, hs]⟩
  | some s =>
    simp only [hs] at h
    obtain ⟨p, hp, rfl⟩ := Option.map_eq_some_iff.mp h
    refine ⟨rfl, rfl, p.1, ?_, rfl⟩
    simp [Engine.insertAll, hp]

theorem internalInsertHandler_served {status : Nat} {resp : InternalInsertResponse}
    (h : internalInsertHandler P env c req = some (c', status, resp)) :
    c'.cluster = c.cluster ∧ c'.registry = c.registry ∧
      Served P c.storage (c.asks env req) c'.storage := by
  have hout : (internalInsertHandler P env c req).map Prod.fst = some c' := by rw [h]; rfl
  refine served_insert ?_ hout
  unfold internalInsertHandler
  cases c.storage with
  | none => rfl
  | some s =>
    simp only [Option.map_map]
    congr 1
    funext p
    obtain ⟨s', r⟩ := p
    cases r <;> rfl

theorem insertHere_served {status : Nat} {resp : InsertResponse}
    (h : c.insertHere P env req = some (c', status, resp)) :
    c'.cluster = c.cluster ∧ c'.registry = c.registry ∧
      Served P c.storage (c.asks env req) c'.storage := by
  have hout : (c.insertHere P env req).map Prod.fst = some c' := by rw [h]; rfl
  refine served_insert ?_ hout
  unfold insertHere
  cases c.storage with
  | none => rfl
  | some s =>
    simp only [Option.map_map]
    congr 1
    funext p
    obtain ⟨s', r⟩ := p
    cases r <;> rfl

omit [F32 β] [Narrow α β] in
theorem route_eq (c : ClusterApiState α β) (id : UInt64) :
    c.route id = some (c.leaderRoute (shardOf id)) := by
  rw [route, shardFor_eq, Option.map_some]

omit [F32 β] [Narrow α β] in
theorem leader_of_here {id : UInt64} (h : c.route id = some .here) :
    c.shards.getLeader (shardOf id) = some c.nodeId := by
  rw [route_eq, Option.some.injEq, leaderRoute] at h
  split at h
  · cases h
  · next leader hleader =>
    split at h
    · next hself => rw [hleader, hself]
    · split at h <;> cases h

omit [F32 β] [Narrow α β] in
theorem leader_of_there {id : UInt64} {leader addr : String}
    (h : c.route id = some (.there leader addr)) :
    c.shards.getLeader (shardOf id) = some leader ∧
      ∃ n, c.registry.getNode leader = some n ∧ n.addr = addr := by
  rw [route_eq, Option.some.injEq, leaderRoute] at h
  split at h
  · cases h
  · next leader' hleader =>
    split at h
    · cases h
    · split at h
      · cases h
      · next n hn =>
        obtain ⟨rfl, rfl⟩ := Route.there.inj h
        exact ⟨hleader, n, hn, rfl⟩

/-- A node that sends an insert on, or refuses it, changes nothing at home. -/
theorem insertAlong_served {forward : Forwarded} {status : Nat} {resp : InsertResponse}
    {route : Option Route}
    (h : c.insertAlong P env forward req route = some (c', status, resp)) :
    c'.cluster = c.cluster ∧ c'.registry = c.registry ∧
      Served P c.storage (c.asksAlong env req route) c'.storage := by
  cases route with
  | none => simp [insertAlong] at h
  | some r =>
    cases r with
    | here => exact insertHere_served h
    | refused text =>
      obtain rfl := (Prod.mk.inj (Option.some.inj h)).1
      exact ⟨rfl, rfl, Served.refl _⟩
    | there leader addr =>
      obtain rfl := (Prod.mk.inj (Option.some.inj h)).1
      exact ⟨rfl, rfl, Served.refl _⟩

theorem handleForwardInsert_served {forward : Forwarded} {status : Nat} {resp : InsertResponse}
    (h : handleForwardInsert P env forward c req = some (c', status, resp)) :
    c'.cluster = c.cluster ∧ c'.registry = c.registry ∧
      Served P c.storage (c.asksAlong env req (c.route req.id)) c'.storage :=
  insertAlong_served h

/-- The leader's two handlers do the same to its storage and give the same answer, but for
the status where there is no storage. -/
theorem insertHere_of_internal {status : Nat} {resp : InternalInsertResponse}
    (h : c.internalInsertHandler P env req = some (c', status, resp)) :
    ∃ direct, c.insertHere P env req =
        some (c', direct, ⟨resp.success, req.id, resp.error⟩) ∧
      direct = if c.storage.isNone then 500 else if resp.success then 201 else 400 := by
  unfold internalInsertHandler at h
  unfold insertHere
  cases hs : c.storage with
  | none =>
    rw [hs] at h
    obtain ⟨rfl, rfl, rfl⟩ := by simpa using h
    exact ⟨500, rfl, rfl⟩
  | some s =>
    rw [hs] at h
    obtain ⟨⟨s', r⟩, hp, heq⟩ := Option.map_eq_some_iff.mp h
    cases r with
    | ok u =>
      obtain ⟨rfl, rfl, rfl⟩ := by simpa using heq
      exact ⟨201, by simp [hp], rfl⟩
    | error e =>
      obtain ⟨rfl, rfl, rfl⟩ := by simpa using heq
      exact ⟨400, by simp [hp], rfl⟩

/-- What a client is told of an insert sent on to the leader is what the leader itself would
have told it, and its storage is the same; a leader without a storage is a bad request (400)
at one remove and a failure of the server (500) directly. -/
theorem forwarded_as_direct {leader : ClusterApiState α β} {name addr : String}
    {forward : Forwarded} {status : Nat} {resp : InternalInsertResponse}
    (hthere : c.route req.id = some (.there name addr))
    (hself : leader.shards.getLeader (shardOf req.id) = some leader.nodeId)
    (hrun : leader.internalInsertHandler P env req = some (c', status, resp)) :
    ∃ told direct body,
      c.handleForwardInsert P env (.answered resp) req = some (c, told, body) ∧
      leader.handleForwardInsert P env forward req = some (c', direct, body) ∧
      body.success = resp.success ∧
      if leader.storage.isNone then told = 400 ∧ direct = 500 else told = direct := by
  obtain ⟨direct, hdirect, hstatus⟩ := insertHere_of_internal hrun
  have hhere : leader.route req.id = some .here := by
    rw [route_eq, leaderRoute, hself]
    exact congrArg some (if_pos rfl)
  refine ⟨if resp.success then 201 else 400, direct, ⟨resp.success, req.id, resp.error⟩,
    ?_, ?_, rfl, ?_⟩
  · rw [handleForwardInsert, hthere]
    rfl
  · rw [handleForwardInsert, hhere]
    exact hdirect
  · cases hs : leader.storage with
    | none =>
      have hfail : resp.success = false := by
        simp only [internalInsertHandler, hs, Option.some.injEq, Prod.mk.injEq] at hrun
        rw [← hrun.2.2]
      rw [hs] at hstatus
      exact ⟨by rw [hfail]; rfl, hstatus⟩
    | some s =>
      rw [hs] at hstatus
      exact hstatus.symm

end ClusterApiState

/-! ## The nodes and the network -/

/-- `inFlight` are the requests on their way to an address, as they will be read there, `asked`
what has been asked of the storages, in order. -/
structure Sharded (α β : Type) [F64 α] where
  /-- the node at an address -/
  node : String → ClusterApiState α β
  inFlight : List (String × InsertRequest α)
  asked : List (String × Call α)

namespace Sharded

inductive Event (α : Type) [F64 α] where
  /-- a client's insert at the node; `forward` is what it will hear of its leader -/
  | client (addr : String) (env : Env) (req : InsertRequest α)
      (forward : ClusterApiState.Forwarded)
  | deliver (n : Nat) (env : Env)
  | lose (n : Nat)
  | assignShard (addr : String) (shardId : UInt64) (leader : String)
  | removeNode (addr : String) (rank : UInt64 → Nat) (nodeId : String)
  | registry (addr : String) (op : RegistryOp)

/-- The node at `addr` with the assignments `m`. -/
def setShards (w : Sharded α β) (addr : String) (m : ShardManager) : Sharded α β :=
  let c := w.node addr
  { w with node := Function.update w.node addr { c with cluster := { c.cluster with
      failover := { c.cluster.failover with shardManager := m } } } }

/-- An insert that panics stops the run. -/
def step [F32 β] [Narrow α β] (P : Deps α) (w : Sharded α β) : Event α → Option (Sharded α β)
  | .client addr env req forward => do
    let c := w.node addr
    let (c', _, _) ← c.handleForwardInsert P env forward req
    some { w with
      node := Function.update w.node addr c'
      inFlight := w.inFlight ++ ClusterApiState.sendsAlong req (c.route req.id)
      asked := w.asked ++ (c.asksAlong env req (c.route req.id)).map fun call => (addr, call) }
  | .deliver n env => do
    let (addr, req) ← w.inFlight[n]?
    let c := w.node addr
    let (c', _, _) ← c.internalInsertHandler P env req
    some { w with
      node := Function.update w.node addr c'
      inFlight := w.inFlight.eraseIdx n
      asked := w.asked ++ (c.asks env req).map fun call => (addr, call) }
  | .lose n => some { w with inFlight := w.inFlight.eraseIdx n }
  | .assignShard addr shardId leader =>
    some (w.setShards addr ((w.node addr).shards.assignShard shardId leader))
  | .removeNode addr rank nodeId =>
    some (w.setShards addr ((w.node addr).shards.removeNode rank nodeId).1)
  | .registry addr op =>
    let c := w.node addr
    some { w with node := Function.update w.node addr { c with registry := c.registry.apply op } }

/-- Leaders are those of `home`, and a name comes with the address of the node that has it. -/
def Regular (home : UInt64 → String) (w : Sharded α β) : Event α → Prop
  | .assignShard _ shardId leader => leader = home shardId
  | .registry _ (.register info) => (w.node info.addr).nodeId = info.nodeId
  | _ => True

instance (home : UInt64 → String) (w : Sharded α β) : ∀ ev, Decidable (Regular home w ev)
  | .client _ _ _ _ => inferInstanceAs (Decidable True)
  | .deliver _ _ => inferInstanceAs (Decidable True)
  | .lose _ => inferInstanceAs (Decidable True)
  | .assignShard _ _ _ => inferInstanceAs (Decidable (_ = _))
  | .removeNode _ _ _ => inferInstanceAs (Decidable True)
  | .registry _ (.register _) => inferInstanceAs (Decidable (_ = _))
  | .registry _ (.heartbeat _ _) => inferInstanceAs (Decidable True)
  | .registry _ (.markDead _) => inferInstanceAs (Decidable True)
  | .registry _ (.removeNode _) => inferInstanceAs (Decidable True)
  | .registry _ (.checkHeartbeats _ _) => inferInstanceAs (Decidable True)

/-- What the nodes know is right, be it little or much. -/
structure Placed (home : UInt64 → String) (w : Sharded α β) : Prop where
  leader : ∀ a s l, (w.node a).shards.getLeader s = some l → l = home s
  addr : ∀ a k n, (w.node a).registry.getNode k = some n → (w.node n.addr).nodeId = k

def Start (w : Sharded α β) : Prop := w.inFlight = [] ∧ w.asked = []

def system [F32 β] [Narrow α β] (P : Deps α) : LTS (Sharded α β) (Event α) :=
  .ofFn Start (step P)

/-- What has been asked of the storage at `a`. -/
def askedAt (w : Sharded α β) (a : String) : List (Call α) :=
  (w.asked.filter fun p => p.1 = a).map Prod.snd

/-! ## The invariant -/

/-- `w` has come about from `w₀`. -/
structure Kept [F32 β] [Narrow α β] (home : UInt64 → String) (P : Deps α)
    (w₀ w : Sharded α β) : Prop where
  name : ∀ a, (w.node a).nodeId = (w₀.node a).nodeId
  placed : w.Placed home
  inFlight : ∀ p ∈ w.inFlight, (w.node p.1).nodeId = home (shardOf p.2.id)
  asked : ∀ p ∈ w.asked, (w.node p.1).nodeId = home (shardOf p.2.id)
  served : ∀ a, Served P (w₀.node a).storage (w.askedAt a) (w.node a).storage

variable [F32 β] [Narrow α β] {home : UInt64 → String} {P : Deps α} {w₀ w w' : Sharded α β}

theorem kept_start (h : Start w) (hplaced : w.Placed home) : Kept home P w w := by
  obtain ⟨hflight, hasked⟩ := h
  refine ⟨fun a => rfl, hplaced, by simp [hflight], by simp [hasked], fun a => ?_⟩
  simpa [askedAt, hasked] using Served.refl _

/-- One node becomes `c`, and its storage has been asked for `calls`. -/
theorem Kept.setNode (h : Kept home P w₀ w) {a : String} {c : ClusterApiState α β}
    {flight : List (String × InsertRequest α)} {calls : List (Call α)}
    (hname : c.nodeId = (w.node a).nodeId)
    (hleader : ∀ s l, c.shards.getLeader s = some l → l = home s)
    (haddr : ∀ k n, c.registry.getNode k = some n → (w.node n.addr).nodeId = k)
    (hflight : ∀ p ∈ flight, (w.node p.1).nodeId = home (shardOf p.2.id))
    (hcalls : ∀ call ∈ calls, (w.node a).nodeId = home (shardOf call.id))
    (hserved : Served P (w.node a).storage calls c.storage) :
    Kept home P w₀ ⟨Function.update w.node a c, flight,
      w.asked ++ calls.map fun call => (a, call)⟩ := by
  have hsame : ∀ b, (Function.update w.node a c b).nodeId = (w.node b).nodeId := by
    intro b
    by_cases hb : b = a
    · rw [hb, Function.update_self, hname]
    · rw [Function.update_of_ne hb]
  refine ⟨fun b => (hsame b).trans (h.name b), ⟨fun b s l hl => ?_, fun b k n hn => ?_⟩,
    fun p hp => (hsame p.1).trans (hflight p hp), fun p hp => (hsame p.1).trans ?_, fun b => ?_⟩
  · by_cases hb : b = a
    · subst hb
      exact hleader s l (by simpa using hl)
    · exact h.placed.leader b s l (by simpa [hb] using hl)
  · refine (hsame n.addr).trans ?_
    by_cases hb : b = a
    · subst hb
      exact haddr k n (by simpa using hn)
    · exact h.placed.addr b k n (by simpa [hb] using hn)
  · rcases List.mem_append.mp hp with hp | hp
    · exact h.asked p hp
    · obtain ⟨call, hcall, rfl⟩ := List.mem_map.mp hp
      exact hcalls call hcall
  · by_cases hb : b = a
    · subst hb
      have hat : askedAt ⟨Function.update w.node b c, flight,
          w.asked ++ calls.map fun call => (b, call)⟩ b = w.askedAt b ++ calls := by
        simp [askedAt, List.filter_map, Function.comp_def]
      rw [hat]
      simpa using (h.served b).trans hserved
    · have hat : askedAt ⟨Function.update w.node a c, flight,
          w.asked ++ calls.map fun call => (a, call)⟩ b = w.askedAt b := by
        simp [askedAt, List.filter_map, Function.comp_def, Ne.symm hb]
      rw [hat]
      simpa [hb] using h.served b

/-- One node becomes `c`, with the storage it had. -/
theorem Kept.setKnown (h : Kept home P w₀ w) {a : String} {c : ClusterApiState α β}
    (hname : c.nodeId = (w.node a).nodeId)
    (hleader : ∀ s l, c.shards.getLeader s = some l → l = home s)
    (haddr : ∀ k n, c.registry.getNode k = some n → (w.node n.addr).nodeId = k)
    (hstorage : c.storage = (w.node a).storage) :
    Kept home P w₀ { w with node := Function.update w.node a c } := by
  have hnone : ∀ call ∈ ([] : List (Call α)), (w.node a).nodeId = home (shardOf call.id) := by
    simp
  have hkept := h.setNode hname hleader haddr h.inFlight hnone (hstorage ▸ Served.refl _)
  rwa [List.map_nil, List.append_nil] at hkept

/-- One node serves a request: it knows what it knew, and its storage has been asked for
`calls`. -/
theorem Kept.serves (h : Kept home P w₀ w) {a : String} {c : ClusterApiState α β}
    {flight : List (String × InsertRequest α)} {calls : List (Call α)}
    (hknown : c.cluster = (w.node a).cluster ∧ c.registry = (w.node a).registry ∧
      Served P (w.node a).storage calls c.storage)
    (hflight : ∀ p ∈ flight, (w.node p.1).nodeId = home (shardOf p.2.id))
    (hcalls : ∀ call ∈ calls, (w.node a).nodeId = home (shardOf call.id)) :
    Kept home P w₀ ⟨Function.update w.node a c, flight,
      w.asked ++ calls.map fun call => (a, call)⟩ := by
  obtain ⟨hcluster, hregistry, hserved⟩ := hknown
  refine h.setNode ?_ (fun s l hl => h.placed.leader a s l ?_) (fun k n hn => ?_) hflight hcalls
    hserved
  · rw [ClusterApiState.nodeId, hcluster, ClusterApiState.nodeId]
  · rwa [ClusterApiState.shards, hcluster] at hl
  · rw [hregistry] at hn
    exact h.placed.addr a k n hn

/-- What a node sends on goes to the leader of the shard. -/
theorem Kept.sends (h : Kept home P w₀ w) {a : String} {req : InsertRequest α}
    {route : Option ClusterApiState.Route} (hroute : (w.node a).route req.id = route) :
    ∀ p ∈ ClusterApiState.sendsAlong req route,
      (w.node p.1).nodeId = home (shardOf p.2.id) := by
  intro p hp
  cases route with
  | none => simp [ClusterApiState.sendsAlong] at hp
  | some r =>
    cases r with
    | refused text => simp [ClusterApiState.sendsAlong] at hp
    | here => simp [ClusterApiState.sendsAlong] at hp
    | there leader addr =>
      obtain rfl := List.mem_singleton.mp hp
      obtain ⟨hleader, n, hn, rfl⟩ := ClusterApiState.leader_of_there hroute
      exact (h.placed.addr a leader n hn).trans (h.placed.leader a _ _ hleader)

/-- What a node asks of its own storage is of a shard it leads. -/
theorem Kept.takes (h : Kept home P w₀ w) {a : String} {env : Env} {req : InsertRequest α}
    {route : Option ClusterApiState.Route} (hroute : (w.node a).route req.id = route) :
    ∀ call ∈ (w.node a).asksAlong env req route, (w.node a).nodeId = home (shardOf call.id) := by
  intro call hcall
  cases route with
  | none => simp [ClusterApiState.asksAlong] at hcall
  | some r =>
    cases r with
    | refused text => simp [ClusterApiState.asksAlong] at hcall
    | there leader addr => simp [ClusterApiState.asksAlong] at hcall
    | here =>
      have hid : call.id = req.id := ClusterApiState.id_of_asks hcall
      rw [hid]
      exact h.placed.leader a _ _ (ClusterApiState.leader_of_here hroute)

theorem Kept.step (h : Kept home P w₀ w) {ev : Event α} (hregular : w.Regular home ev)
    (hstep : w.step P ev = some w') : Kept home P w₀ w' := by
  cases ev with
  | client addr env req forward =>
    obtain ⟨⟨c', status, resp⟩, hrun, hstep⟩ := Option.bind_eq_some_iff.mp hstep
    obtain rfl := Option.some.inj hstep
    refine h.serves (ClusterApiState.handleForwardInsert_served hrun) (fun p hp => ?_)
      (h.takes rfl)
    rcases List.mem_append.mp hp with hp | hp
    · exact h.inFlight p hp
    · exact h.sends rfl p hp
  | deliver n env =>
    obtain ⟨⟨addr, req⟩, hget, hstep⟩ := Option.bind_eq_some_iff.mp hstep
    obtain ⟨⟨c', status, resp⟩, hrun, hstep⟩ := Option.bind_eq_some_iff.mp hstep
    obtain rfl := Option.some.inj hstep
    refine h.serves (ClusterApiState.internalInsertHandler_served hrun)
      (fun p hp => h.inFlight p (List.mem_of_mem_eraseIdx hp)) (fun call hcall => ?_)
    rw [ClusterApiState.id_of_asks hcall]
    exact h.inFlight _ (List.mem_of_getElem? hget)
  | lose n =>
    obtain rfl := Option.some.inj hstep
    exact ⟨h.name, ⟨h.placed.leader, h.placed.addr⟩,
      fun p hp => h.inFlight p (List.mem_of_mem_eraseIdx hp), h.asked, h.served⟩
  | assignShard addr shardId leader =>
    obtain rfl := Option.some.inj hstep
    refine h.setKnown rfl (fun s l hl => ?_) (h.placed.addr addr) rfl
    have hl' : ((w.node addr).shards.assignShard shardId leader).getLeader s = some l := hl
    rw [ShardManager.getLeader_assignShard] at hl'
    split at hl'
    · next hs =>
      obtain rfl := Option.some.inj hl'
      rw [hs]
      exact hregular
    · exact h.placed.leader addr s l hl'
  | removeNode addr rank nodeId =>
    obtain rfl := Option.some.inj hstep
    refine h.setKnown rfl (fun s l hl => ?_) (h.placed.addr addr) rfl
    exact h.placed.leader addr s l (ShardManager.getLeader_of_removeNode hl)
  | registry addr op =>
    obtain rfl := Option.some.inj hstep
    refine h.setKnown rfl (h.placed.leader addr) (fun k n hn => ?_) rfl
    rcases NodeRegistry.getNode_apply hn with ⟨n', hn', -, haddr⟩ | ⟨rfl, hid, -⟩
    · rw [haddr]
      exact h.placed.addr addr k n' hn'
    · rw [← hid]
      exact hregular

/-- In every run: the storage of a node is what the inserts asked of it have made of it, in
their order; each of them is of a shard that the node leads; and the inserts of one id are all
at one node. -/
theorem sharded {ls : List (Event α)} (h0 : Start w₀) (hplaced : w₀.Placed home)
    (hnames : ∀ a b, (w₀.node a).nodeId = (w₀.node b).nodeId → a = b)
    (hrun : ((system P).restrict (Regular home)).Run w₀ ls w) :
    (∀ a, Served P (w₀.node a).storage (w.askedAt a) (w.node a).storage) ∧
      (∀ p ∈ w.asked, (w₀.node p.1).nodeId = home (shardOf p.2.id)) ∧
      ∀ p ∈ w.asked, ∀ q ∈ w.asked, p.2.id = q.2.id → p.1 = q.1 := by
  have hkept : Kept home P w₀ w :=
    hrun.keeps (fun s ev s' hs hst => hs.step hst.2 hst.1) (kept_start h0 hplaced)
  have hhome : ∀ p ∈ w.asked, (w₀.node p.1).nodeId = home (shardOf p.2.id) := fun p hp =>
    (hkept.name p.1).symm.trans (hkept.asked p hp)
  refine ⟨hkept.served, hhome, fun p hp q hq hid => hnames _ _ ?_⟩
  rw [hhome p hp, hhome q hq, hid]

/-! ## Nothing is there twice -/

/-- What an insert is about: its id, its vector and its metadata. -/
abbrev Content (α : Type) [F64 α] := UInt64 × List α × Value α

def contentOf (req : InsertRequest α) : Content α :=
  (req.id, req.vector, req.metadata.getD (.obj []))

def contentOfCall (call : Call α) : Content α := (call.id, call.vector, call.metadata)

/-- What clients have requested. -/
def requested : Event α → Option (Content α)
  | .client _ _ req _ => some (contentOf req)
  | _ => none

/-- What the storages have been asked for, and what is on the way. -/
def held (w : Sharded α β) : List (Content α) :=
  w.asked.map (contentOfCall ∘ Prod.snd) ++ w.inFlight.map (contentOf ∘ Prod.snd)

omit [F32 β] [Narrow α β] in
theorem asks_content (c : ClusterApiState α β) (env : Env) (req : InsertRequest α) :
    ((c.asks env req).map contentOfCall).Sublist [contentOf req] := by
  unfold ClusterApiState.asks
  split
  · exact List.Sublist.refl _
  · exact List.nil_sublist _

omit [F32 β] [Narrow α β] in
/-- A request is asked of the storage or sent on, not both. -/
theorem along_content (c : ClusterApiState α β) (env : Env) (req : InsertRequest α)
    (route : Option ClusterApiState.Route) :
    ((c.asksAlong env req route).map contentOfCall ++
      (ClusterApiState.sendsAlong req route).map (contentOf ∘ Prod.snd)).Sublist
      [contentOf req] := by
  cases route with
  | none => exact List.nil_sublist _
  | some r =>
    cases r with
    | refused text => exact List.nil_sublist _
    | here => simpa [ClusterApiState.asksAlong, ClusterApiState.sendsAlong] using
        asks_content c env req
    | there leader addr => exact List.Sublist.refl _

theorem held_step {ev : Event α} (hstep : w.step P ev = some w') :
    w'.held.Subperm (w.held ++ (requested ev).toList) := by
  cases ev with
  | client addr env req forward =>
    obtain ⟨⟨c', status, resp⟩, -, hstep⟩ := Option.bind_eq_some_iff.mp hstep
    obtain rfl := Option.some.inj hstep
    have halong := (along_content (w.node addr) env req ((w.node addr).route req.id)).subperm
    refine List.Subperm.trans (List.Perm.subperm ?_) ((List.subperm_append_left _).mpr halong)
    simp only [held, List.map_append, List.map_map, List.append_assoc]
    exact (List.perm_append_left_iff _).mpr (List.perm_append_comm_assoc _ _ _)
  | deliver n env =>
    obtain ⟨⟨addr, req⟩, hget, hstep⟩ := Option.bind_eq_some_iff.mp hstep
    obtain ⟨⟨c', status, resp⟩, -, hstep⟩ := Option.bind_eq_some_iff.mp hstep
    obtain rfl := Option.some.inj hstep
    obtain ⟨hn, hget⟩ := List.getElem?_eq_some_iff.mp hget
    have herase : (contentOf req :: (w.inFlight.eraseIdx n).map (contentOf ∘ Prod.snd)).Perm
        (w.inFlight.map (contentOf ∘ Prod.snd)) := by
      have hperm := (List.getElem_cons_eraseIdx_perm hn).map (contentOf ∘ Prod.snd)
      rwa [hget] at hperm
    have hasks := ((asks_content (w.node addr) env req).append_right
      ((w.inFlight.eraseIdx n).map (contentOf ∘ Prod.snd))).subperm.trans herase.subperm
    simp only [held, List.map_append, List.map_map, List.append_assoc, requested,
      Option.toList_none, List.append_nil]
    exact (List.subperm_append_left _).mpr hasks
  | lose n =>
    obtain rfl := Option.some.inj hstep
    have hsub : (w.inFlight.eraseIdx n).Sublist w.inFlight := List.eraseIdx_sublist ..
    simpa [held, requested] using
      ((hsub.map (contentOf ∘ Prod.snd)).append_left _).subperm
  | assignShard addr shardId leader =>
    obtain rfl := Option.some.inj hstep
    exact (List.Perm.of_eq (List.append_nil w.held).symm).subperm
  | removeNode addr rank nodeId =>
    obtain rfl := Option.some.inj hstep
    exact (List.Perm.of_eq (List.append_nil w.held).symm).subperm
  | registry addr op =>
    obtain rfl := Option.some.inj hstep
    exact (List.Perm.of_eq (List.append_nil w.held).symm).subperm

/-- In every run, whatever the nodes know: what has been asked of a storage or is on the way
was requested by a client, and no request is there twice. -/
theorem no_insert_doubled {ls : List (Event α)} (h0 : Start w₀)
    (hrun : (system P).Run w₀ ls w) : w.held.Subperm (ls.filterMap requested) := by
  refine hrun.history (I := fun evs s => s.held.Subperm (evs.filterMap requested)) ?_ ?_
  · simp [held, h0.1, h0.2]
  · intro pre ev s s' _ hs hst
    have hsingle : [ev].filterMap requested = (requested ev).toList := by
      cases hev : requested ev <;> simp [hev]
    rw [List.filterMap_append, hsingle]
    exact (held_step hst).trans ((List.subperm_append_right _).mpr hs)

/-! ## An insert sent on -/

/-- At every address a node of that name, with a storage and no assignments. -/
def fresh : Sharded Lit Lit where
  node a := ⟨.new ⟨a, a⟩ (.new a), .new 30, some single⟩
  inFlight := []
  asked := []

theorem fresh_placed (home : UInt64 → String) : Placed home fresh := by
  refine ⟨fun a s l h => ?_, fun a k n h => ?_⟩
  · cases h
  · cases h

def request : InsertRequest Lit := ⟨7, [.fin 5], none⟩

/-- A client asks `a` for an insert of a shard of `b`. -/
def forwarding : List (Event Lit) := [.assignShard "a" (shardOf 7) "b",
  .registry "a" (.register (.new "b" "b" [] ⟨0, by decide⟩)),
  .client "a" Engine.calm request (.sendFailed "timed out"), .deliver 0 Engine.calm]

theorem forwarding_run : (LTS.exec (step Engine.deps) (Regular fun _ => "b") fresh
    forwarding).map (fun w => w.asked.map fun p => (p.1, p.2.id)) = some [("b", 7)] := by
  decide +kernel

theorem sharded_forwarding : ∃ w : Sharded Lit Lit,
    w.asked.map (fun p => (p.1, p.2.id)) = [("b", 7)] ∧
      Served Engine.deps (some single) (w.askedAt "b") (w.node "b").storage := by
  obtain ⟨w, hexec, hasked⟩ := Option.map_eq_some_iff.mp forwarding_run
  have hrun : ((system Engine.deps).restrict (Regular fun _ => "b")).Run fresh forwarding w :=
    LTS.run_of_exec hexec
  exact ⟨w, hasked, (sharded ⟨rfl, rfl⟩ (fresh_placed _) (fun a b h => h) hrun).1 "b"⟩

theorem no_insert_doubled_forwarding : ∃ w : Sharded Lit Lit,
    w.held.Subperm [contentOf request] ∧ w.asked.length = 1 := by
  obtain ⟨w, hexec, hasked⟩ := Option.map_eq_some_iff.mp forwarding_run
  have hrun : ((system Engine.deps).restrict (Regular fun _ => "b")).Run fresh forwarding w :=
    LTS.run_of_exec hexec
  exact ⟨w, no_insert_doubled ⟨rfl, rfl⟩ hrun.of_restrict, by
    simpa using congrArg List.length hasked⟩

end Sharded

end Tesseract.L6
