import Tesseract.Core.Assoc
import Tesseract.Core.LTS
import Tesseract.L2Wal.Log
import Tesseract.L3Index.Hnsw
import Tesseract.L3Index.Merkle
import Tesseract.L3Store.ColdStore
import Tesseract.L3Store.HotStore
import Tesseract.L3Store.Topological

/-!
# `StorageEngine`: open, insert, get, batch_get, lifecycle, shutdown

Model of `tesseract-storage/src/engine.rs` and `lifecycle.rs` over the models of
its parts. The third-party functions are the parameter `Deps`. What the code takes
from outside (clock, random levels, iteration order of the maps, failing calls)
is given by an `Env` for each call.

`none` stands for a panic or a call that does not return; a run ends there, so
that no lock is ever poisoned. The saved index and the saved Merkle tree are kept
as values: their files are written and read by `bincode`, which round-trips them.
The vector skeleton and the pages of the cache are left out: no function of this
model reads them.
-/
namespace Tesseract.L4

open L1.Wal L2.Log L3 L3.Serde

/-! ## Configuration -/

/-- mirrors tesseract-storage/src/types.rs:120-129 -/
structure IndexConfig where
  enabled : Bool
  dim : Nat
  hnsw : HnswConfig

/-- mirrors tesseract-storage/src/types.rs:147-162 -/
structure TopologicalConfig (α : Type) where
  enabled : Bool
  categoricalFields : List String
  numericalFields : List String
  numericalBuckets : List (String × List α)

/-- `persisted`: `merkle_tree_path` is set.
mirrors tesseract-storage/src/types.rs:166-175 -/
structure MerkleConfig where
  enabled : Bool
  hotBufferCapacity : Nat
  maxClusterSize : UInt64
  persisted : Bool

/-- mirrors tesseract-storage/src/types.rs:204-215 -/
structure StorageConfig (α : Type) where
  wal : WalConfig
  /-- `hot.max_records` -/
  maxRecords : UInt64
  /-- `cache.capacity` -/
  cacheCapacity : Nat
  /-- `lifecycle.hot_max_records` -/
  hotMaxRecords : Nat
  index : IndexConfig
  topological : TopologicalConfig α
  merkle : MerkleConfig

/-- The third-party functions. -/
structure Deps (α : Type) [F64 α] where
  wal : Crates
  codec : Codec α
  blake3 : Bytes → Bytes

/-- What one call takes from outside. -/
structure Env where
  walFault : Fault
  coldFault : WriteFault
  /-- iteration order of the hot store -/
  hotRank : UInt64 → Nat
  /-- iteration order of the partitions -/
  coldRank : UInt64 → Nat
  createdAt : UInt64
  day : UInt64
  level : Nat

/-- What `open` takes from outside, for each replayed entry. -/
structure OpenEnv where
  createdAt : Nat → UInt64
  level : Nat → Nat
  coldRank : UInt64 → Nat

/-- mirrors tesseract-storage/src/engine.rs:45-64 -/
structure Engine (α β : Type) [F64 α] where
  config : StorageConfig α
  wal : Session
  hot : HotStore α
  cold : ColdStore
  index : Option (HnswIndex β)
  centroids : Option (CentroidTracker α)
  correlations : Option (CorrelationTracker α)
  buckets : Option (NumericalBucketTracker α)
  hotBuffer : Option (HotBuffer β (Value α))
  merkleTree : Option (MerkleTree β)
  /-- the file at `index.path` -/
  indexFile : Option (HnswIndex β)
  /-- the file at `merkle_tree_path` -/
  merkleFile : Option (MerkleTree β)

/-- The arguments of an `insert`. -/
structure Call (α : Type) [F64 α] where
  env : Env
  id : UInt64
  vector : List α
  metadata : Value α
  mode : WriteMode

/-- The body of a request to insert, as the servers read it. -/
structure VectorBody (α : Type) [F64 α] where
  id : UInt64
  vector : List α
  metadata : Option (Value α)

/-- An insert for a client is durable, and has `{}` for metadata that is missing. -/
def VectorBody.call {α : Type} [F64 α] (req : VectorBody α) (env : Env) : Call α :=
  ⟨env, req.id, req.vector, req.metadata.getD (.obj []), .durable⟩

/-- What a client is told of its insert. -/
structure InsertReport where
  success : Bool
  id : UInt64
  error : Option String
  deriving DecidableEq, Repr

/-- `OpCode::InsertVector`
mirrors tesseract-storage/src/types.rs:60 -/
def insertVector : UInt8 := 1

variable {α β : Type} [F64 α] [F32 β] [Narrow α β]

/-- The distance computer `open` chooses. -/
def StorageConfig.computer (c : StorageConfig α) : DistanceComputer β :=
  c.index.hnsw.distanceMetric.computer

namespace Engine

/-! ## Insert -/

/-- mirrors tesseract-storage/src/engine.rs:234-235 -/
def payload (P : Deps α) (c : Call α) : Bytes :=
  P.codec.text.print (encodeEntry c.id c.vector c.metadata)

/-- mirrors tesseract-storage/src/engine.rs:229-247 -/
def appendEntry (P : Deps α) (s : Engine α β) (c : Call α) : Engine α β × Result Unit :=
  let (wal, r) := append P.wal c.env.walFault s.wal ⟨0, insertVector, payload P c⟩ c.mode
  ({ s with wal := wal }, r.map fun _ => ())

/-- Update each tracker that is configured.
mirrors tesseract-storage/src/engine.rs:251-275 -/
def updateTrackers (s : Engine α β) (vector : List α) (metadata : Value α) :
    Option (Engine α β) := do
  let topological := s.config.topological
  let centroids := s.centroids.map fun t => t.update vector metadata topological.categoricalFields
  let correlations ← s.correlations.mapM fun t =>
    t.updateAll vector metadata topological.numericalFields
  let buckets ← s.buckets.mapM fun t =>
    t.updateAll vector metadata (topological.numericalBuckets.map Prod.fst)
  some { s with centroids := centroids, correlations := correlations, buckets := buckets }

/-- Make room in a full hot store and try again.
mirrors tesseract-storage/src/engine.rs:292-304 -/
def evictAndRetry (P : Deps α) (env : Env) (hot : HotStore α) (cold : ColdStore)
    (record : VectorRecord α) :
    HotStore α × ColdStore × Result Unit :=
  let (hot, evicted) := hot.drainLeastAccessed env.hotRank 100
  match cold.writeBatch P.codec env.coldFault env.coldRank env.day evicted with
  | (cold, .error x) => (hot, cold, .error x)
  | (cold, .ok ()) =>
    let (hot, r) := hot.insert record
    (hot, cold, r)

/-- Only `StoreFull` is looked at: a known id is taken for success.
mirrors tesseract-storage/src/engine.rs:290-305 -/
def storeRecord (P : Deps α) (env : Env) (hot : HotStore α) (cold : ColdStore)
    (record : VectorRecord α) :
    HotStore α × ColdStore × Result Unit :=
  match hot.insert record with
  | (hot, .error (.storeFull _)) => evictAndRetry P env hot cold record
  | (hot, _) => (hot, cold, .ok ())

/-- mirrors tesseract-storage/src/engine.rs:309-315 -/
def insertIndex (env : Env) (s : Engine α β) (id : UInt64) (vector : List α) :
    Option (Engine α β × Result Unit) :=
  match s.index with
  | none => some (s, .ok ())
  | some idx => do
    let (idx, r) ← idx.insert s.config.computer env.level id vector
    some ({ s with index := some idx }, r)

/-- Merge the drained buffer into the tree, and save the tree.
mirrors tesseract-storage/src/engine.rs:327-342 -/
def mergeBuffer (P : Deps α) (s : Engine α β) (buffer : HotBuffer β (Value α)) :
    Option (Engine α β) :=
  let (buffer, snapshot) := buffer.drain
  match s.merkleTree with
  | none => some { s with hotBuffer := some buffer }
  | some tree => do
    let tree ← tree.insertBatch P.blake3 snapshot
    some { s with
      hotBuffer := some buffer, merkleTree := some tree,
      merkleFile := if s.config.merkle.persisted then some tree else s.merkleFile }

/-- mirrors tesseract-storage/src/engine.rs:318-346 -/
def bufferVector (P : Deps α) (s : Engine α β) (id : UInt64) (vector : List α)
    (metadata : Value α) :
    Option (Engine α β) :=
  match s.hotBuffer with
  | none => some s
  | some buffer =>
    match buffer.insert ⟨id, vector.map Narrow.toF32, metadata⟩ with
    | (buffer, true) => s.mergeBuffer P buffer
    | (buffer, false) => some { s with hotBuffer := some buffer }

/-- mirrors tesseract-storage/src/engine.rs:277-286 -/
def record (c : Call α) : VectorRecord α := ⟨c.id, c.vector, c.metadata, c.env.createdAt, 0⟩

/-- mirrors tesseract-storage/src/engine.rs:222-349 -/
def insert (P : Deps α) (s : Engine α β) (c : Call α) : Option (Engine α β × Result Unit) :=
  match s.appendEntry P c with
  | (s, .error x) => some (s, .error x)
  | (s, .ok ()) => do
    let s ← s.updateTrackers c.vector c.metadata
    match storeRecord P c.env s.hot s.cold (record c) with
    | (hot, cold, .error x) => some ({ s with hot := hot, cold := cold }, .error x)
    | (hot, cold, .ok ()) =>
      let s := { s with hot := hot, cold := cold }
      match ← s.insertIndex c.env c.id c.vector with
      | (s, .error x) => some (s, .error x)
      | (s, .ok ()) => do
        let s ← s.bufferVector P c.id c.vector c.metadata
        some (s, .ok ())

/-! ## Get -/

/-- The loop over the partitions.
mirrors tesseract-storage/src/engine.rs:363-378 -/
def findCold (P : Deps α) (cold : ColdStore) (id : UInt64) :
    List UInt64 → Result (Option (VectorRecord α))
  | [] => .ok none
  | partition :: rest => do
    let records ← cold.readPartition P.codec partition
    match records.find? fun r => r.id == id with
    | some record => .ok (some record)
    | none => findCold P cold id rest

/-- mirrors tesseract-storage/src/engine.rs:356-381 -/
def get (P : Deps α) (rank : UInt64 → Nat) (s : Engine α β) (id : UInt64) :
    Result (Option (VectorRecord α)) :=
  match s.hot.get id with
  | some record => .ok (some record)
  | none => findCold P s.cold id (s.cold.partitions rank)

/-- mirrors tesseract-storage/src/engine.rs:448-456 -/
def batchGet (s : Engine α β) (ids : List UInt64) :
    Result (Assoc.Map UInt64 (VectorRecord α)) :=
  .ok (ids.foldl (fun results id =>
    match s.hot.get id with
    | some record => results.insert id record
    | none => results) ∅)

/-! ## Open -/

/-- `from_slice` of the payload of an entry. -/
def decodePayload (P : Deps α) (entry : WalEntry) : Option (UInt64 × List α × Value α) :=
  P.codec.text.parse entry.payload >>= decodeEntry

/-- The result of the insert is dropped.
mirrors tesseract-storage/src/engine.rs:597-620 -/
def applyWalEntry (P : Deps α) (createdAt : UInt64) (hot : HotStore α) (entry : WalEntry) :
    Result (HotStore α) :=
  if entry.opCode ≠ insertVector then .ok hot
  else
    match decodePayload P entry with
    | none => .error (.jsonError "entry")
    | some (id, vector, metadata) => .ok (hot.insert ⟨id, vector, metadata, createdAt, 0⟩).1

/-- The result of the insert is dropped, a panic is not.
mirrors tesseract-storage/src/engine.rs:626-637 -/
def replayIndexEntry (P : Deps α) (D : DistanceComputer β) (level : Nat) (idx : HnswIndex β)
    (entry : WalEntry) :
    Option (Result (HnswIndex β)) :=
  if entry.opCode ≠ insertVector then some (.ok idx)
  else
    match decodePayload P entry with
    | none => some (.error (.jsonError "entry"))
    | some (id, vector, _) => (idx.insert D level id vector).map fun p => .ok p.1

/-- The replay of the `n`-th entry into the index, if there is one. -/
def replayIndex (P : Deps α) (D : DistanceComputer β) (level : Nat) (index : Option (HnswIndex β))
    (entry : WalEntry) :
    Option (Result (Option (HnswIndex β))) :=
  match index with
  | none => some (.ok none)
  | some idx => (replayIndexEntry P D level idx entry).map fun r => r.map some

/-- An entry of the leader of the shard, not written to the log.
mirrors tesseract-storage/src/engine.rs:485-495 -/
def applyReplicatedEntry (P : Deps α) (createdAt : UInt64) (level : Nat) (s : Engine α β)
    (entry : WalEntry) : Option (Engine α β × Result Unit) :=
  match applyWalEntry P createdAt s.hot entry with
  | .error x => some (s, .error x)
  | .ok hot =>
    match replayIndex P s.config.computer level s.index entry with
    | none => none
    | some (.error x) => some ({ s with hot := hot }, .error x)
    | some (.ok index) => some ({ s with hot := hot, index := index }, .ok ())

/-- The loop over the recovered entries, from entry `n` on.
mirrors tesseract-storage/src/engine.rs:110-119 -/
def replay (P : Deps α) (D : DistanceComputer β) (env : OpenEnv) :
    Nat → List WalEntry → HotStore α → Option (HnswIndex β) →
      Option (Result (HotStore α × Option (HnswIndex β)))
  | _, [], hot, index => some (.ok (hot, index))
  | n, entry :: rest, hot, index =>
    match applyWalEntry P (env.createdAt n) hot entry with
    | .error x => some (.error x)
    | .ok hot =>
      match replayIndex P D (env.level n) index entry with
      | none => none
      | some (.error x) => some (.error x)
      | some (.ok index) => replay P D env (n + 1) rest hot index

/-- Read every partition, for the skeleton.
mirrors tesseract-storage/src/engine.rs:123-129 -/
def readAll (P : Deps α) (cold : ColdStore) : List UInt64 → Result Unit
  | [] => .ok ()
  | partition :: rest => do
    let _ ← cold.readPartition P.codec partition
    readAll P cold rest

/-- mirrors tesseract-storage/src/page_cache.rs:40-45 -/
def checkCache (capacity : Nat) : Result Unit :=
  if capacity = 0 then .error (.invalidConfig "PageCache capacity must be > 0, got 0") else .ok ()

/-- A saved index is taken over whole, but for the metric, which the type of
the index fixes.
mirrors tesseract-storage/src/engine.rs:85-104, tesseract-index/src/serialization.rs:98-123 -/
def initIndex (config : StorageConfig α) (file : Option (HnswIndex β)) : Option (HnswIndex β) :=
  if config.index.enabled then
    match file with
    | some saved =>
      some { saved with
        config := { saved.config with distanceMetric := config.index.hnsw.distanceMetric } }
    | none => some (HnswIndex.new config.index.dim config.index.hnsw)
  else none

/-- mirrors tesseract-storage/src/engine.rs:153-166 -/
def initBuckets (config : StorageConfig α) : Result (Option (NumericalBucketTracker α)) :=
  if config.topological.enabled then do
    let t ← NumericalBucketTracker.registerAll config.topological.numericalBuckets
      (NumericalBucketTracker.new config.index.dim)
    .ok (some t)
  else .ok none

/-- `open` behind the replay: partitions, trackers, Merkle tier.
mirrors tesseract-storage/src/engine.rs:122-215 -/
def assemble (P : Deps α) (env : OpenEnv) (config : StorageConfig α) (wal : Session)
    (hot : HotStore α) (cold : ColdStore) (index : Option (HnswIndex β))
    (indexFile : Option (HnswIndex β)) (merkleFile : Option (MerkleTree β)) :
    Result (Engine α β) := do
  readAll P cold (cold.partitions env.coldRank)
  let buckets ← initBuckets config
  let tracked := config.topological.enabled
  let merkle := config.merkle.enabled
  let saved := if config.merkle.persisted then merkleFile else none
  .ok {
    config := config, wal := wal, hot := hot, cold := cold, index := index
    centroids := if tracked then some (CentroidTracker.new config.index.dim) else none
    correlations := if tracked then some (CorrelationTracker.new config.index.dim) else none
    buckets := buckets
    hotBuffer := if merkle then some (HotBuffer.new config.merkle.hotBufferCapacity) else none
    merkleTree := if merkle then some (saved.getD (MerkleTree.new config.merkle.maxClusterSize))
      else none
    indexFile := indexFile, merkleFile := merkleFile }

/-- `open` on what is on disk.
mirrors tesseract-storage/src/engine.rs:68-215 -/
def openEngine (P : Deps α) (env : OpenEnv) (config : StorageConfig α) (walDir : Dir)
    (coldDisk : Disk ColdFile) (indexFile : Option (HnswIndex β))
    (merkleFile : Option (MerkleTree β)) : Option (Result (Engine α β)) :=
  let wal := openLog P.wal config.wal walDir
  match ColdStore.openStore P.codec coldDisk, checkCache config.cacheCapacity,
    recover P.wal wal.disk with
  | .error x, _, _ => some (.error x)
  | .ok _, .error x, _ => some (.error x)
  | .ok _, .ok (), .error x => some (.error x)
  | .ok cold, .ok (), .ok recovered =>
    (replay P config.computer env 0 recovered (HotStore.new config.maxRecords)
      (initIndex config indexFile)).map
      fun r => do
        let (hot, index) ← r
        assemble P env config wal hot cold index indexFile merkleFile

/-- An engine on empty directories. -/
def create (P : Deps α) (env : OpenEnv) (config : StorageConfig α) : Option (Result (Engine α β)) :=
  openEngine P env config ∅ ∅ none none

/-- Drop the engine and open it again on the same configuration. -/
def reopen (P : Deps α) (env : OpenEnv) (s : Engine α β) : Option (Result (Engine α β)) :=
  openEngine P env s.config s.wal.disk s.cold.disk s.indexFile s.merkleFile

/-! ## Lifecycle and shutdown -/

/-- Copy the records of the partitions into the hot store.
mirrors tesseract-storage/src/lifecycle.rs:84-107 -/
def promotePartitions (P : Deps α) (cold : ColdStore) :
    List UInt64 → HotStore α → HotStore α × Result Unit
  | [], hot => (hot, .ok ())
  | partition :: rest, hot =>
    match cold.readPartition P.codec partition with
    | .error x => (hot, .error x)
    | .ok records => promotePartitions P cold rest (records.foldl (fun hot r =>
      (hot.insert r).1) hot)

/-- mirrors tesseract-storage/src/lifecycle.rs:73-110 -/
def runPromotion (P : Deps α) (rank : UInt64 → Nat) (s : Engine α β) : Engine α β × Result Unit :=
  let (hot, r) := promotePartitions P s.cold (s.cold.partitions rank) s.hot
  ({ s with hot := hot }, r)

/-- mirrors tesseract-storage/src/lifecycle.rs:117-139 -/
def runDemotion (P : Deps α) (env : Env) (s : Engine α β) : Engine α β × Result Unit :=
  if s.hot.vectors.length ≤ s.config.hotMaxRecords then (s, .ok ())
  else
    let (hot, drained) :=
      s.hot.drainLeastAccessed env.hotRank (s.hot.vectors.length - s.config.hotMaxRecords)
    let (cold, r) := s.cold.writeBatch P.codec env.coldFault env.coldRank 0 drained
    ({ s with hot := hot, cold := cold }, r)

/-- Save the index, drain the buffer into the tree, flush the log.
mirrors tesseract-storage/src/engine.rs:502-549 -/
def shutdown (P : Deps α) (s : Engine α β) : Option (Engine α β × Result Unit) := do
  let s := { s with indexFile := s.index.or s.indexFile }
  let s ← match s.hotBuffer with
    | none => some s
    | some buffer => if buffer.vectors.isEmpty then some s else s.mergeBuffer P buffer
  let (wal, r) := flush false s.wal
  some ({ s with wal := wal }, r)

end Engine

/-! ## Runs -/

inductive Label (α : Type) [F64 α] where
  | insert (c : Call α)
  | promote (rank : UInt64 → Nat)
  | demote (env : Env)
  | shutdown
  | reopen (env : OpenEnv)

namespace Engine

/-- One call, whatever it returns. A failing `open` leaves no engine. -/
def step (P : Deps α) (s : Engine α β) : Label α → Option (Engine α β)
  | .insert c => (s.insert P c).map Prod.fst
  | .promote rank => some (s.runPromotion P rank).1
  | .demote env => some (s.runDemotion P env).1
  | .shutdown => (s.shutdown P).map Prod.fst
  | .reopen env => (s.reopen P env).bind Except.toOption

/-- An engine just opened on empty directories. -/
def Fresh (P : Deps α) (s : Engine α β) : Prop := ∃ env config, create P env config = some (.ok s)

def system (P : Deps α) : LTS (Engine α β) (Label α) := LTS.ofFn (Fresh P) (step P)

end Engine

end Tesseract.L4
