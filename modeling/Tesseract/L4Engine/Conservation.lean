import Tesseract.L3Index.MerkleInvariant
import Tesseract.L4Engine.Search

/-!
# From the buffer to the tree

An accepted insert puts its vector into the hot buffer, and a full buffer is drained into
the Merkle tree in the same call, as is the rest at shutdown. `Flagged` has the `merging`
flag, which the engine leaves out: `insert_eq` says that it may.

* `insert_tiers`: what an insert that returns does to buffer and tree.
* `conserved_of_reachable`: in a session that starts with an empty tree every accepted
  vector is counted in the buffer or in the root, the buffer is never full between calls,
  and the flag is down.
-/
namespace Tesseract.L4

open L1.Wal L2.Log L3 L3.Serde

variable {α β : Type} [F64 α] [F32 β] [Narrow α β] {P : Deps α}

/-! ## The flag -/

/-- An engine and the `merging` flag of its hot buffer.
mirrors tesseract-index/src/merkle/hot_buffer.rs:35-42 -/
structure Flagged (α β : Type) [F64 α] where
  engine : Engine α β
  merging : Bool

namespace Flagged

/-- mirrors tesseract-storage/src/engine.rs:318-346 -/
def bufferVector (P : Deps α) (s : Flagged α β) (id : UInt64) (vector : List α)
    (metadata : Value α) : Option (Flagged α β) :=
  match s.engine.hotBuffer with
  | none => some s
  | some buffer =>
    match buffer.insert ⟨id, vector.map Narrow.toF32, metadata⟩ with
    | (buffer, true) =>
      -- `swap(true)`: a merge that is under way keeps the others out
      if s.merging then some ⟨{ s.engine with hotBuffer := some buffer }, true⟩
      else (s.engine.mergeBuffer P buffer).map fun engine => ⟨engine, false⟩
    | (buffer, false) => some ⟨{ s.engine with hotBuffer := some buffer }, s.merging⟩

/-- mirrors tesseract-storage/src/engine.rs:222-349 -/
def insert (P : Deps α) (s : Flagged α β) (c : Call α) : Option (Flagged α β × Result Unit) :=
  match s.engine.appendEntry P c with
  | (engine, .error x) => some (⟨engine, s.merging⟩, .error x)
  | (engine, .ok ()) => do
    let engine ← engine.updateTrackers c.vector c.metadata
    match Engine.storeRecord P c.env engine.hot engine.cold (Engine.record c) with
    | (hot, cold, .error x) =>
      some (⟨{ engine with hot := hot, cold := cold }, s.merging⟩, .error x)
    | (hot, cold, .ok ()) =>
      let engine := { engine with hot := hot, cold := cold }
      match ← engine.insertIndex c.env c.id c.vector with
      | (engine, .error x) => some (⟨engine, s.merging⟩, .error x)
      | (engine, .ok ()) => do
        let s ← bufferVector P ⟨engine, s.merging⟩ c.id c.vector c.metadata
        some (s, .ok ())

theorem bufferVector_eq (s : Engine α β) (id : UInt64) (vector : List α) (metadata : Value α) :
    bufferVector P ⟨s, false⟩ id vector metadata =
      (s.bufferVector P id vector metadata).map fun engine => ⟨engine, false⟩ := by
  unfold bufferVector Engine.bufferVector
  cases s.hotBuffer with
  | none => rfl
  | some buffer =>
    dsimp only
    cases buffer.insert ⟨id, vector.map Narrow.toF32, metadata⟩ with
    | mk buffer full => cases full <;> rfl

/-- A flag that is down stays down, and without it the engine does the same. -/
theorem insert_eq (s : Engine α β) (c : Call α) :
    insert P ⟨s, false⟩ c = (s.insert P c).map fun p => (⟨p.1, false⟩, p.2) := by
  unfold insert Engine.insert
  cases s.appendEntry P c with
  | mk s₁ r₁ =>
    cases r₁ with
    | error x => rfl
    | ok u =>
      dsimp only
      cases s₁.updateTrackers c.vector c.metadata with
      | none => rfl
      | some s₂ =>
        simp only [Option.bind_eq_bind, Option.bind_some]
        cases Engine.storeRecord P c.env s₂.hot s₂.cold (Engine.record c) with
        | mk hot p =>
          obtain ⟨cold, r₂⟩ := p
          cases r₂ with
          | error x => rfl
          | ok u =>
            dsimp only
            cases Engine.insertIndex c.env { s₂ with hot := hot, cold := cold } c.id c.vector with
            | none => rfl
            | some q =>
              obtain ⟨s₃, r₃⟩ := q
              simp only [Option.bind_some]
              cases r₃ with
              | error x => rfl
              | ok u =>
                dsimp only
                rw [bufferVector_eq]
                cases s₃.bufferVector P c.id c.vector c.metadata with
                | none => rfl
                | some s₄ => rfl

/-- mirrors tesseract-storage/src/engine.rs:502-549 -/
def shutdown (P : Deps α) (s : Flagged α β) : Option (Flagged α β × Result Unit) :=
  (s.engine.shutdown P).map fun p => (⟨p.1, s.merging⟩, p.2)

end Flagged

namespace Engine

/-! ## Buffer and tree behind a call -/

/-- A call leaves the tier alone, or it was accepted and went through the buffer. -/
theorem insert_tiers {s s' : Engine α β} {c : Call α} {r : Result Unit}
    (h : s.insert P c = some (s', r)) :
    (∃ x, r = .error x ∧ s'.config = s.config ∧ s'.hotBuffer = s.hotBuffer ∧
        s'.merkleTree = s.merkleTree) ∨
      r = .ok () ∧ ∃ s₁ : Engine α β, s₁.config = s.config ∧ s₁.hotBuffer = s.hotBuffer ∧
        s₁.merkleTree = s.merkleTree ∧ s₁.bufferVector P c.id c.vector c.metadata = some s' := by
  cases r with
  | ok u =>
    obtain ⟨s₁, hconfig, hbuffer, htree, -, hlast⟩ := insert_ok_tiers h
    exact .inr ⟨rfl, s₁, hconfig, hbuffer, htree, hlast⟩
  | error x =>
    refine .inl ⟨x, rfl, ?_⟩
    unfold insert at h
    split at h
    · next s₁ x₁ happend =>
      obtain ⟨wal, rfl⟩ := appendEntry_tiers happend
      cases h
      exact ⟨rfl, rfl, rfl⟩
    · next s₁ happend =>
      obtain ⟨wal, rfl⟩ := appendEntry_tiers happend
      simp only [Option.bind_eq_bind, Option.bind_eq_some_iff] at h
      obtain ⟨s₂, htrack, h⟩ := h
      have hconfig := (updateTrackers_apart htrack).config
      obtain ⟨hbuffer, htree⟩ := updateTrackers_tiers htrack
      split at h
      · cases h
        exact ⟨hconfig, hbuffer, htree⟩
      · simp only [Option.bind_eq_some_iff] at h
        obtain ⟨⟨s₃, r₃⟩, hindex, h⟩ := h
        have hconfig' := (insertIndex_indexed hindex).1
        obtain ⟨hbuffer', htree'⟩ := insertIndex_tiers hindex
        split at h
        · next heq =>
          cases heq
          cases h
          exact ⟨hconfig'.trans hconfig, hbuffer'.trans hbuffer, htree'.trans htree⟩
        · simp only [Option.bind_eq_some_iff, Option.some.injEq, Prod.mk.injEq, reduceCtorEq,
            and_false, exists_false] at h

/-- The root count, 0 of an empty tree. -/
def rootCount (tree : MerkleTree β) : Nat :=
  ((tree.root.map MerkleNode.count).getD 0).toNat

/-- Buffer and tree hold `accepted` vectors of dimension `dim`. -/
structure Tier (blake3 : Bytes → Bytes) (dim accepted capacity : Nat)
    (buffer : HotBuffer β (Value α)) (tree : MerkleTree β) : Prop where
  capacity : buffer.capacity = capacity
  dims : ∀ bv ∈ buffer.vectors, bv.vector.length = dim
  max : 1 ≤ tree.maxClusterSize
  sparse : tree.Sparse
  merged : ∃ inserted, tree.WellFormed blake3 inserted ∧
    buffer.vectors.length + inserted = accepted

/-- The tier of an engine is of this kind, and the buffer is not full. -/
def Holds (P : Deps α) (dim accepted : Nat) (s : Engine α β) : Prop :=
  ∃ buffer tree, s.hotBuffer = some buffer ∧ s.merkleTree = some tree ∧
    Tier P.blake3 dim accepted s.config.merkle.hotBufferCapacity buffer tree ∧
    buffer.vectors.length < s.config.merkle.hotBufferCapacity

omit [Narrow α β] in
theorem Tier.merge {dim accepted capacity : Nat} {buffer : HotBuffer β (Value α)}
    {tree : MerkleTree β} {s s' : Engine α β}
    (h : Tier P.blake3 dim accepted capacity buffer tree) (htree : s.merkleTree = some tree)
    (hroom : accepted < 2 ^ 63) (hrun : s.mergeBuffer P buffer = some s') :
    ∃ buffer' tree', s'.hotBuffer = some buffer' ∧ s'.merkleTree = some tree' ∧
      Tier P.blake3 dim accepted capacity buffer' tree' ∧ buffer'.vectors = [] := by
  unfold mergeBuffer at hrun
  simp only [htree, Option.bind_eq_bind, Option.bind_eq_some_iff, Option.some.injEq] at hrun
  obtain ⟨tree', hbatch, rfl⟩ := hrun
  obtain ⟨inserted, hwf, hsum⟩ := h.merged
  have hlen : (HotBuffer.drain buffer).2.length = buffer.vectors.length := rfl
  obtain ⟨hwf', hsparse, hmax⟩ := hwf.insertBatch_sparse h.max h.sparse h.dims (by omega) hbatch
  refine ⟨_, tree', rfl, rfl, ⟨h.capacity, ?_, by rw [hmax]; exact h.max, hsparse, ?_⟩, rfl⟩
  · intro bv hbv
    cases hbv
  · refine ⟨_, hwf', ?_⟩
    simp only [HotBuffer.drain, List.length_nil]
    omega

/-- A vector goes into the buffer, and with it all that is there into the tree if it is
full. -/
theorem Holds.bufferVector {dim accepted : Nat} {s s' : Engine α β} {id : UInt64}
    {vector : List α} {metadata : Value α} (h : Holds P dim accepted s)
    (hdim : vector.length = dim) (hroom : accepted + 1 < 2 ^ 63)
    (hrun : s.bufferVector P id vector metadata = some s') : Holds P dim (accepted + 1) s' := by
  obtain ⟨buffer, tree, hbuffer, htree, htier, hfree⟩ := h
  have hconfig := (bufferVector_apart hrun).config
  obtain ⟨inserted, hwf, hsum⟩ := htier.merged
  have hcap := htier.capacity
  have hadded : Tier P.blake3 dim (accepted + 1) s.config.merkle.hotBufferCapacity
      (buffer.insert ⟨id, vector.map Narrow.toF32, metadata⟩).1 tree := by
    refine ⟨hcap, ?_, htier.max, htier.sparse, inserted, hwf, ?_⟩
    · intro bv hbv
      rcases List.mem_append.mp hbv with hbv | hbv
      · exact htier.dims bv hbv
      · rw [List.mem_singleton.mp hbv, List.length_map, hdim]
    · simp only [HotBuffer.insert, List.length_append, List.length_singleton]
      omega
  unfold Engine.bufferVector at hrun
  rw [hbuffer] at hrun
  dsimp only at hrun
  cases hfull : (buffer.insert ⟨id, vector.map Narrow.toF32, metadata⟩).2 with
  | true =>
    simp only [HotBuffer.insert] at hrun hfull hadded
    rw [hfull] at hrun
    obtain ⟨buffer', tree', hbuffer', htree', htier', hnil⟩ := hadded.merge htree hroom hrun
    refine ⟨buffer', tree', hbuffer', htree', by rw [hconfig]; exact htier', ?_⟩
    rw [hnil, hconfig, List.length_nil]
    omega
  | false =>
    simp only [HotBuffer.insert] at hrun hfull hadded
    rw [hfull] at hrun
    cases hrun
    refine ⟨_, tree, rfl, htree, hadded, ?_⟩
    simp only [decide_eq_false_iff_not, Nat.not_le] at hfull
    simp only [List.length_append, List.length_singleton]
    omega

omit [Narrow α β] in
theorem Holds.shutdown {dim accepted : Nat} {s s' : Engine α β} {r : Result Unit}
    (h : Holds P dim accepted s) (hroom : accepted < 2 ^ 63)
    (hrun : s.shutdown P = some (s', r)) : Holds P dim accepted s' := by
  obtain ⟨buffer, tree, hbuffer, htree, htier, hfree⟩ := h
  unfold Engine.shutdown at hrun
  by_cases hempty : buffer.vectors.isEmpty = true
  · simp only [hbuffer, hempty, if_true, Option.bind_eq_bind, Option.bind_some, Option.some.injEq,
      Prod.mk.injEq] at hrun
    obtain ⟨rfl, -⟩ := hrun
    exact ⟨buffer, tree, rfl, htree, htier, hfree⟩
  · simp only [hbuffer, hempty, if_false, Option.bind_eq_bind, Option.bind_eq_some_iff,
      Option.some.injEq, Prod.mk.injEq, Bool.false_eq_true] at hrun
    obtain ⟨s₁, hmerge, rfl, -⟩ := hrun
    have hconfig := (mergeBuffer_apart hmerge).config
    obtain ⟨buffer', tree', hbuffer', htree', htier', hnil⟩ :=
      htier.merge (by exact htree) hroom hmerge
    have hcap : s₁.config.merkle.hotBufferCapacity = s.config.merkle.hotBufferCapacity := by
      rw [hconfig]
    refine ⟨buffer', tree', hbuffer', htree', ?_, ?_⟩
    · rw [hcap]
      exact htier'
    · rw [hnil, hcap, List.length_nil]
      omega

/-- A session with the Merkle tier on an empty tree. The files of an earlier one may be
there. -/
def Started (P : Deps α) (s : Engine α β) : Prop :=
  ∃ env config walDir coldDisk indexFile merkleFile,
    openEngine P env config walDir coldDisk indexFile merkleFile = some (.ok s) ∧
      config.merkle.enabled = true ∧ 1 ≤ config.merkle.hotBufferCapacity ∧
      1 ≤ config.merkle.maxClusterSize ∧
      s.merkleTree = some (MerkleTree.new config.merkle.maxClusterSize)

omit [F32 β] [Narrow α β] in
theorem assemble_merkle {env : OpenEnv} {config : StorageConfig α} {wal : Session}
    {hot : HotStore α} {cold : ColdStore} {index indexFile : Option (HnswIndex β)}
    {merkleFile : Option (MerkleTree β)} {s : Engine α β} (hon : config.merkle.enabled = true)
    (h : assemble P env config wal hot cold index indexFile merkleFile = .ok s) :
    s.hotBuffer = some (HotBuffer.new config.merkle.hotBufferCapacity) ∧
      s.merkleTree = some ((if config.merkle.persisted then merkleFile else none).getD
        (MerkleTree.new config.merkle.maxClusterSize)) := by
  obtain ⟨_, _, rfl⟩ := assemble_inv h
  exact ⟨if_pos hon, if_pos hon⟩

/-- Without a saved tree the session starts with an empty one. -/
theorem started_of_open {env : OpenEnv} {config : StorageConfig α} {walDir : Dir}
    {coldDisk : Disk ColdFile} {indexFile : Option (HnswIndex β)}
    {merkleFile : Option (MerkleTree β)} {s : Engine α β}
    (hopen : openEngine P env config walDir coldDisk indexFile merkleFile = some (.ok s))
    (hon : config.merkle.enabled = true) (hcap : 1 ≤ config.merkle.hotBufferCapacity)
    (hmax : 1 ≤ config.merkle.maxClusterSize)
    (hnew : config.merkle.persisted = false ∨ merkleFile = none) : Started P s := by
  obtain ⟨cold, log, hot, index, -, -, -, -, hassemble⟩ := openEngine_eq_ok.mp hopen
  refine ⟨_, _, _, _, _, _, hopen, hon, hcap, hmax, ?_⟩
  rw [(assemble_merkle hon hassemble).2]
  rcases hnew with hoff | hnone
  · simp [hoff]
  · simp [hnone]

theorem Started.holds {s : Engine α β} (dim : Nat) (h : Started P s) : Holds P dim 0 s := by
  obtain ⟨env, config, walDir, coldDisk, indexFile, merkleFile, hopen, hon, hcap, hmax, htree⟩ := h
  obtain ⟨cold, log, hot, index, -, -, -, -, hassemble⟩ := openEngine_eq_ok.mp hopen
  have hconfig : s.config = config := (assemble_eq_ok hassemble).1
  refine ⟨_, _, (assemble_merkle hon hassemble).1, htree, ?_, by rw [hconfig]; exact hcap⟩
  rw [hconfig]
  refine ⟨rfl, by simp [HotBuffer.new], hmax, ?_, 0, MerkleTree.WellFormed.new _, rfl⟩
  exact Nat.le_refl 1

end Engine

/-! ## A session -/

/-- A session, how many inserts it accepted, and whether it was shut down. -/
structure Tally (α β : Type) [F64 α] where
  session : Flagged α β
  accepted : Nat
  closed : Bool

inductive Op (α : Type) [F64 α] where
  | insert (c : Call α)
  | promote (rank : UInt64 → Nat)
  | demote (env : Env)
  | shutdown

namespace Tally

def setEngine (w : Tally α β) (engine : Engine α β) : Tally α β :=
  { w with session := ⟨engine, w.session.merging⟩ }

/-- One call of the session, whatever it returns. -/
def call (P : Deps α) (w : Tally α β) : Op α → Option (Tally α β)
  | .insert c => (w.session.insert P c).map fun p =>
    { w with session := p.1, accepted := w.accepted + if p.2.isOk then 1 else 0 }
  | .promote rank => some (w.setEngine (w.session.engine.runPromotion P rank).1)
  | .demote env => some (w.setEngine (w.session.engine.runDemotion P env).1)
  | .shutdown => (w.session.shutdown P).map fun p => { w with session := p.1, closed := true }

def system (P : Deps α) : LTS (Tally α β) (Op α) :=
  LTS.ofFn (fun w => ∃ s, Engine.Started P s ∧ w = ⟨⟨s, false⟩, 0, false⟩) (call P)

/-- Vectors of one length, as many as the counters can take, and nothing behind the
shutdown. -/
def Fits (dim : Nat) (w : Tally α β) : Op α → Prop
  | .insert c => w.closed = false ∧ c.vector.length = dim ∧ w.accepted + 1 < 2 ^ 63
  | _ => w.closed = false

/-- The flag is down, and every accepted vector is in the buffer or the tree. -/
structure Conserved (P : Deps α) (dim : Nat) (w : Tally α β) : Prop where
  merging : w.session.merging = false
  holds : w.session.engine.Holds P dim w.accepted
  room : w.accepted < 2 ^ 63

theorem Conserved.insert {dim : Nat} {w w' : Tally α β} {c : Call α} (h : Conserved P dim w)
    (hfits : Fits dim w (.insert c)) (hrun : w.call P (.insert c) = some w') :
    Conserved P dim w' := by
  obtain ⟨⟨s, merging⟩, accepted, closed⟩ := w
  obtain ⟨hmerging, hholds, -⟩ := h
  obtain ⟨-, hdim, hroom⟩ := hfits
  simp only at hmerging hholds hroom
  subst hmerging
  simp only [call, Flagged.insert_eq, Option.map_map] at hrun
  obtain ⟨⟨s', r⟩, hins, rfl⟩ := Option.map_eq_some_iff.mp hrun
  rcases Engine.insert_tiers hins with ⟨x, rfl, hconfig, hbuffer, htree⟩ |
    ⟨rfl, s₁, hconfig, hbuffer, htree, hlast⟩
  · refine ⟨rfl, ?_, Nat.lt_of_succ_lt hroom⟩
    obtain ⟨buffer, tree, hb, ht, htier, hfree⟩ := hholds
    rw [← hconfig] at htier hfree
    exact ⟨buffer, tree, hbuffer.trans hb, htree.trans ht, htier, hfree⟩
  · have hholds₁ : s₁.Holds P dim accepted := by
      obtain ⟨buffer, tree, hb, ht, htier, hfree⟩ := hholds
      rw [← hconfig] at htier hfree
      exact ⟨buffer, tree, hbuffer.trans hb, htree.trans ht, htier, hfree⟩
    exact ⟨rfl, hholds₁.bufferVector hdim hroom hlast, hroom⟩

omit [Narrow α β] in
theorem Conserved.setEngine {dim : Nat} {w : Tally α β} {engine : Engine α β}
    (h : Conserved P dim w) (hconfig : engine.config = w.session.engine.config)
    (hbuffer : engine.hotBuffer = w.session.engine.hotBuffer)
    (htree : engine.merkleTree = w.session.engine.merkleTree) :
    Conserved P dim (w.setEngine engine) := by
  obtain ⟨buffer, tree, hb, ht, htier, hfree⟩ := h.holds
  rw [← hconfig] at htier hfree
  exact ⟨h.merging, ⟨buffer, tree, hbuffer.trans hb, htree.trans ht, htier, hfree⟩, h.room⟩

theorem Conserved.call {dim : Nat} {w w' : Tally α β} {op : Op α} (h : Conserved P dim w)
    (hfits : Fits dim w op) (hrun : w.call P op = some w') : Conserved P dim w' := by
  cases op with
  | insert c => exact h.insert hfits hrun
  | promote rank =>
    cases hrun
    exact h.setEngine rfl rfl rfl
  | demote env =>
    cases hrun
    unfold Engine.runDemotion
    split
    · exact h.setEngine rfl rfl rfl
    · exact h.setEngine rfl rfl rfl
  | shutdown =>
    simp only [Tally.call, Flagged.shutdown, Option.map_map] at hrun
    obtain ⟨⟨s', r⟩, hdown, rfl⟩ := Option.map_eq_some_iff.mp hrun
    exact ⟨h.merging, h.holds.shutdown h.room hdown, h.room⟩

theorem conserved_inductive (dim : Nat) :
    ((system (β := β) P).restrict (Fits dim)).Inductive (Conserved P dim) where
  init w h := by
    obtain ⟨s, hstarted, rfl⟩ := h
    exact ⟨rfl, hstarted.holds dim, Nat.two_pow_pos 63⟩
  step w op w' h hst := h.call hst.2 hst.1

/-- Every accepted vector is counted once, in the buffer or in the root of the tree. -/
theorem conserved_of_reachable {dim : Nat} {w : Tally α β}
    (h : ((system P).restrict (Fits dim)).Reachable w) :
    w.session.merging = false ∧
      ∃ buffer tree, w.session.engine.hotBuffer = some buffer ∧
        w.session.engine.merkleTree = some tree ∧
        buffer.vectors.length + Engine.rootCount tree = w.accepted ∧
        buffer.vectors.length < w.session.engine.config.merkle.hotBufferCapacity := by
  obtain ⟨hmerging, ⟨buffer, tree, hbuffer, htree, htier, hfree⟩, -⟩ :=
    (conserved_inductive dim).reachable w h
  obtain ⟨inserted, hwf, hsum⟩ := htier.merged
  refine ⟨hmerging, buffer, tree, hbuffer, htree, ?_, hfree⟩
  rw [Engine.rootCount, hwf.inserted]
  exact hsum

/-! ## Three vectors -/

instance (dim : Nat) (w : Tally α β) (op : Op α) : Decidable (Fits dim w op) := by
  cases op <;> unfold Fits <;> infer_instance

/-- A buffer for two vectors over clusters of one. -/
def buffering : StorageConfig Lit := { Engine.small 10 none with merkle := ⟨true, 2, 1, false⟩ }

def buffered : Engine Lit Lit := (Engine.opened buffering).get (by decide +kernel)

def threeOps : List (Op Lit) :=
  [.insert (Engine.call 7 [1]), .insert (Engine.call 8 [2]), .insert (Engine.call 9 [5]), .shutdown]

def threeBuffered : Tally Lit Lit :=
  (LTS.exec (call Engine.deps) (Fits 1) ⟨⟨buffered, false⟩, 0, false⟩ threeOps).get
    (by decide +kernel)

theorem buffered_started : Engine.Started Engine.deps buffered := by
  have hcreate := Engine.create_of_opened
    (show Engine.opened buffering = some buffered by rw [buffered, Option.some_get])
  exact Engine.started_of_open hcreate rfl (by decide) (by decide) (.inl rfl)

theorem threeBuffered_reachable :
    ((system Engine.deps).restrict (Fits 1)).Reachable threeBuffered := by
  have hrun : LTS.exec (call Engine.deps) (Fits 1) ⟨⟨buffered, false⟩, 0, false⟩ threeOps =
      some threeBuffered := by
    rw [threeBuffered, Option.some_get]
  exact LTS.reachable_of_exec ⟨buffered, buffered_started, rfl⟩ hrun

example : threeBuffered.accepted = 3 := by decide +kernel

theorem conserved_threeBuffered : threeBuffered.session.merging = false ∧
    ∃ buffer tree, threeBuffered.session.engine.hotBuffer = some buffer ∧
      threeBuffered.session.engine.merkleTree = some tree ∧
      buffer.vectors.length + Engine.rootCount tree = threeBuffered.accepted ∧
      buffer.vectors.length < threeBuffered.session.engine.config.merkle.hotBufferCapacity :=
  conserved_of_reachable threeBuffered_reachable

end Tally

end Tesseract.L4
