import Tesseract.L3Store.HotBatch
import Tesseract.L4Engine.Insert
import Tesseract.L6Cluster.Replication

/-!
# The follower's end of the replication

Model of `tesseract-cluster/src/replication_handler.rs`: the entries of a batch are applied
one by one, and the id of the last one is acknowledged. What the hot store answers to an
entry is dropped on the way, so that an entry may be acknowledged that was refused.

* `handleReplicate_ok`: a batch of well-formed entries is acknowledged up to its last id,
  and the hot store is what the inserts left, refused ones included.
* `ack_sound_iff`: the acknowledged entries can be read on the follower just when there
  was room for them and no earlier entry of the batch took their ids.
* `full_store_acks`: a full follower acknowledges an entry that it does not have.
-/
namespace Tesseract.L6

open L1.Wal L3 L3.Serde L4

/-- mirrors tesseract-cluster/src/replication_client.rs:19-23 -/
structure ReplicationResponse where
  success : Bool
  lastAckedTxnId : UInt64
  error : Option String
  deriving DecidableEq, Repr

/-- mirrors tesseract-cluster/src/replication_handler.rs:29-30 -/
def ReplicationEntry.toWalEntry (e : ReplicationEntry) : WalEntry := ⟨e.txnId, e.opCode, e.payload⟩

variable {α β : Type} [F64 α] [F32 β] [Narrow α β]

/-- The loop, from entry `n` on.
mirrors tesseract-cluster/src/replication_handler.rs:28-33 -/
def replicateLoop (P : Deps α) (env : OpenEnv) :
    Nat → List ReplicationEntry → Engine α β → UInt64 → Option (Engine α β × Result UInt64)
  | _, [], s, lastAcked => some (s, .ok lastAcked)
  | n, entry :: rest, s, _ =>
    match s.applyReplicatedEntry P (env.createdAt n) (env.level n) entry.toWalEntry with
    | none => none
    | some (s, .error x) => some (s, .error x)
    | some (s, .ok ()) => replicateLoop P env (n + 1) rest s entry.txnId

/-- mirrors tesseract-cluster/src/replication_handler.rs:25-36 -/
def handleReplicate (P : Deps α) (env : OpenEnv) (entries : List ReplicationEntry)
    (s : Engine α β) : Option (Engine α β × Result ReplicationResponse) :=
  (replicateLoop P env 0 entries s 0).map fun p =>
    (p.1, p.2.map fun lastAcked => ⟨true, lastAcked, none⟩)

/-! ## What a batch leaves -/

/-- The id, vector and metadata of an insert. -/
def rowOf (P : Deps α) (e : ReplicationEntry) : Option (UInt64 × List α × Value α) :=
  Engine.decodePayload P e.toWalEntry

/-- An insert with a payload that can be read. -/
def WellFormed (P : Deps α) (e : ReplicationEntry) : Prop :=
  e.opCode = insertVector ∧ (rowOf P e).isSome

/-- The rows of a batch, in order. -/
def rowsOf (P : Deps α) (batch : List ReplicationEntry) : List (UInt64 × List α × Value α) :=
  batch.filterMap (rowOf P)

/-- The records that the rows of a batch make, from entry `n` on. -/
def recordsOf (P : Deps α) (env : OpenEnv) : Nat → List ReplicationEntry → List (VectorRecord α)
  | _, [] => []
  | n, e :: rest =>
    match rowOf P e with
    | some (id, vector, metadata) =>
      ⟨id, vector, metadata, env.createdAt n, 0⟩ :: recordsOf P env (n + 1) rest
    | none => recordsOf P env (n + 1) rest

/-- What a record has of its row. -/
def toRow (r : VectorRecord α) : UInt64 × List α × Value α := (r.id, r.vector, r.metadata)

variable {P : Deps α} {env : OpenEnv}

theorem map_recordsOf (env : OpenEnv) (n : Nat) (batch : List ReplicationEntry) :
    (recordsOf P env n batch).map toRow = rowsOf P batch := by
  induction batch generalizing n with
  | nil => rfl
  | cons e rest ih =>
    unfold recordsOf rowsOf
    cases hrow : rowOf P e with
    | none => rw [List.filterMap_cons_none hrow]; exact ih (n + 1)
    | some row =>
      rw [List.filterMap_cons_some hrow, List.map_cons]
      exact congrArg (row :: ·) (ih (n + 1))

theorem applyReplicatedEntry_ok {createdAt : UInt64} {level : Nat} {s s' : Engine α β}
    {e : ReplicationEntry} {r : Result Unit} {row : UInt64 × List α × Value α}
    (hop : e.opCode = insertVector) (hrow : rowOf P e = some row)
    (h : s.applyReplicatedEntry P createdAt level e.toWalEntry = some (s', r)) :
    r = .ok () ∧ s'.cold = s.cold ∧
      s'.hot = (s.hot.insert ⟨row.1, row.2.1, row.2.2, createdAt, 0⟩).1 := by
  have hdecode : Engine.decodePayload P e.toWalEntry = some row := hrow
  have hcode : ¬ e.toWalEntry.opCode ≠ insertVector := fun hne => hne hop
  have happly : Engine.applyWalEntry P createdAt s.hot e.toWalEntry =
      .ok (s.hot.insert ⟨row.1, row.2.1, row.2.2, createdAt, 0⟩).1 := by
    simp only [Engine.applyWalEntry, if_neg hcode, hdecode]
  simp only [Engine.applyReplicatedEntry, happly] at h
  cases hindex : s.index with
  | none =>
    simp only [hindex, Engine.replayIndex, Option.some.injEq, Prod.mk.injEq] at h
    obtain ⟨rfl, rfl⟩ := h
    exact ⟨rfl, rfl, rfl⟩
  | some idx =>
    simp only [hindex, Engine.replayIndex, Engine.replayIndexEntry, if_neg hcode, hdecode] at h
    cases hins : idx.insert s.config.computer level row.1 row.2.1 with
    | none => simp [hins] at h
    | some p =>
      simp only [hins, Option.map_some, Except.map, Option.some.injEq, Prod.mk.injEq] at h
      obtain ⟨rfl, rfl⟩ := h
      exact ⟨rfl, rfl, rfl⟩

theorem replicateLoop_ok {n : Nat} {batch : List ReplicationEntry} {s s' : Engine α β}
    {acked : UInt64} {r : Result UInt64} (hwf : ∀ e ∈ batch, WellFormed P e)
    (h : replicateLoop P env n batch s acked = some (s', r)) :
    r = .ok ((lastTxnId batch).getD acked) ∧ s'.cold = s.cold ∧
      s'.hot = s.hot.insertAll (recordsOf P env n batch) := by
  induction batch generalizing n s acked with
  | nil =>
    simp only [replicateLoop, Option.some.injEq, Prod.mk.injEq] at h
    obtain ⟨rfl, rfl⟩ := h
    exact ⟨rfl, rfl, rfl⟩
  | cons e rest ih =>
    obtain ⟨⟨hop, hsome⟩, hrest⟩ := List.forall_mem_cons.mp hwf
    obtain ⟨row, hrow⟩ := Option.isSome_iff_exists.mp hsome
    unfold replicateLoop at h
    cases happly : s.applyReplicatedEntry P (env.createdAt n) (env.level n) e.toWalEntry with
    | none => simp [happly] at h
    | some p =>
      obtain ⟨s₁, r₁⟩ := p
      obtain ⟨rfl, hcold, hhot⟩ := applyReplicatedEntry_ok hop hrow happly
      simp only [happly] at h
      obtain ⟨hr, hcold', hhot'⟩ := ih hrest h
      refine ⟨?_, hcold'.trans hcold, ?_⟩
      · rw [hr, lastTxnId, lastTxnId, List.getLast?_cons]
        cases rest.getLast? <;> rfl
      · rw [hhot', hhot, recordsOf, hrow]
        rfl

/-- A batch of well-formed entries is acknowledged up to its last id. -/
theorem handleReplicate_ok {batch : List ReplicationEntry} {s s' : Engine α β}
    {r : Result ReplicationResponse} (hwf : ∀ e ∈ batch, WellFormed P e)
    (h : handleReplicate P env batch s = some (s', r)) :
    r = .ok ⟨true, (lastTxnId batch).getD 0, none⟩ ∧ s'.cold = s.cold ∧
      s'.hot = s.hot.insertAll (recordsOf P env 0 batch) := by
  obtain ⟨⟨s₁, r₁⟩, hloop, heq⟩ := Option.map_eq_some_iff.mp h
  obtain ⟨hr, hcold, hhot⟩ := replicateLoop_ok hwf hloop
  cases heq
  exact ⟨by rw [hr]; rfl, hcold, hhot⟩

/-! ## What is acknowledged -/

/-- The store has room for the distinct ids of a batch up to the first `id`. -/
def RoomFor (hot : HotStore α) (ids : List UInt64) (id : UInt64) : Prop :=
  hot.maxRecords = 0 ∨
    hot.vectors.length + (ids.takeWhile (· ≠ id)).toFinset.card < hot.maxRecords.toNat

/-- Up to the last id of the batch there is room for every entry, and no entry before it
has its id with another vector or other metadata. -/
def Held (P : Deps α) (hot : HotStore α) (batch : List ReplicationEntry) : Prop :=
  ∀ e ∈ batch, e.txnId ≤ (lastTxnId batch).getD 0 → ∀ row, rowOf P e = some row →
    RoomFor hot ((rowsOf P batch).map Prod.fst) row.1 ∧
      (rowsOf P batch).find? (fun row' => row'.1 == row.1) = some row

/-- Every acknowledged entry can be read on the follower. -/
def Readable (P : Deps α) (s : Engine α β) (batch : List ReplicationEntry) (acked : UInt64) :
    Prop :=
  ∀ e ∈ batch, e.txnId ≤ acked → ∀ id vector metadata,
    rowOf P e = some (id, vector, metadata) → ∀ rank,
      ∃ r, s.get P rank id = .ok (some r) ∧ r.vector = vector ∧ r.metadata = metadata

omit [F32 β] [Narrow α β] in
theorem get_eq_of_cold {s s' : Engine α β} {id : UInt64} (hcold : s'.cold = s.cold)
    (hnew : ∀ rank, s.get P rank id = .ok none) (rank : UInt64 → Nat) :
    s'.get P rank id = .ok (s'.hot.get id) := by
  have hnone := hnew rank
  unfold Engine.get at hnone ⊢
  rw [hcold]
  cases hhot : s.hot.get id with
  | some r =>
    rw [hhot] at hnone
    cases hnone
  | none =>
    rw [hhot] at hnone
    cases s'.hot.get id with
    | some r => rfl
    | none => exact hnone

omit [F32 β] [Narrow α β] in
theorem hot_get_of_new {s : Engine α β} {id : UInt64} (hnew : ∀ rank, s.get P rank id = .ok none) :
    s.hot.get id = none := by
  have hnone := hnew fun _ => 0
  unfold Engine.get at hnone
  cases hhot : s.hot.get id with
  | some r =>
    rw [hhot] at hnone
    cases hnone
  | none => rfl

/-- The first record of a batch with a given id. -/
theorem first_record {rs : List (VectorRecord α)} {id : UInt64}
    (h : id ∈ rs.map VectorRecord.id) :
    ∃ pre r post, rs = pre ++ r :: post ∧ r.id = id ∧ (∀ x ∈ pre, x.id ≠ id) ∧
      (rs.map VectorRecord.id).takeWhile (· ≠ id) = pre.map VectorRecord.id ∧
      (rs.map toRow).find? (fun row => row.1 == id) = some (toRow r) := by
  obtain ⟨x, hx, hid⟩ := List.mem_map.mp h
  have hsome : (rs.find? fun r => r.id == id).isSome := by
    rw [List.find?_isSome]
    exact ⟨x, hx, by simpa using hid⟩
  obtain ⟨r, hr⟩ := Option.isSome_iff_exists.mp hsome
  obtain ⟨hrid, pre, post, rfl, hpre⟩ := List.find?_eq_some_iff_append.mp hr
  have hne : ∀ x ∈ pre, x.id ≠ id := by
    intro x hx
    simpa using hpre x hx
  refine ⟨pre, r, post, rfl, by simpa using hrid, hne, ?_, ?_⟩
  · rw [List.map_append, List.takeWhile_append_of_pos, List.map_cons,
      List.takeWhile_cons_of_neg, List.append_nil]
    · simpa using hrid
    · intro y hy
      obtain ⟨x, hx, rfl⟩ := List.mem_map.mp hy
      simpa using hne x hx
  · rw [List.find?_map]
    exact congrArg (Option.map toRow) hr

/-- What the follower has of an id that the batch brings. -/
theorem hot_get_batch (env : OpenEnv) (n : Nat) {s : HotStore α} {batch : List ReplicationEntry}
    {id : UInt64} (hnew : ∀ row ∈ rowsOf P batch, row.1 ∉ s.ids)
    (hid : id ∈ (rowsOf P batch).map Prod.fst) :
    ∃ r, (rowsOf P batch).find? (fun row => row.1 == id) = some (toRow r) ∧
      (RoomFor s ((rowsOf P batch).map Prod.fst) id →
        (s.insertAll (recordsOf P env n batch)).get id = some r) ∧
      (¬ RoomFor s ((rowsOf P batch).map Prod.fst) id →
        (s.insertAll (recordsOf P env n batch)).get id = none) := by
  have hids : (rowsOf P batch).map Prod.fst =
      (recordsOf P env n batch).map VectorRecord.id := by
    rw [← map_recordsOf env n batch, List.map_map]
    rfl
  rw [hids] at hid
  obtain ⟨pre, r, post, hrs, rfl, hne, htake, hfind⟩ := first_record hid
  have hout : ∀ x ∈ recordsOf P env n batch, x.id ∉ s.ids := by
    intro x hx
    refine hnew (toRow x) ?_
    rw [← map_recordsOf env n batch]
    exact List.mem_map_of_mem hx
  have hpre : ∀ x ∈ pre, x.id ∉ s.ids := fun x hx => hout x (by rw [hrs]; simp [hx])
  have hget := HotStore.get_insertAll post hpre (hout r (by rw [hrs]; simp)) hne
  have hroom : RoomFor s ((rowsOf P batch).map Prod.fst) r.id ↔ ¬ (s.insertAll pre).full := by
    rw [HotStore.insertAll_full hpre, RoomFor, hids, htake]
  rw [map_recordsOf] at hfind
  refine ⟨r, hfind, ?_, ?_⟩
  · intro h
    rw [hrs, hget, if_neg (hroom.mp h)]
  · intro h
    rw [hrs, hget, if_pos (not_not.mp (mt hroom.mpr h))]

/-- An acknowledgement is sound just when there was room for what it covers, and no entry
of the batch was shut out by an earlier one with its id. -/
theorem ack_sound_iff {batch : List ReplicationEntry} {s s' : Engine α β}
    {resp : ReplicationResponse} (hwf : ∀ e ∈ batch, WellFormed P e)
    (hnew : ∀ row ∈ rowsOf P batch, ∀ rank, s.get P rank row.1 = .ok none)
    (h : handleReplicate P env batch s = some (s', .ok resp)) :
    Readable P s' batch resp.lastAckedTxnId ↔ Held P s.hot batch := by
  obtain ⟨hok, hcold, hhot⟩ := handleReplicate_ok hwf h
  obtain rfl := Except.ok.inj hok
  have hfresh : ∀ row ∈ rowsOf P batch, row.1 ∉ s.hot.ids := fun row hrow =>
    HotStore.get_eq_none.mp (hot_get_of_new (hnew row hrow))
  have hrows : ∀ e ∈ batch, ∀ row, rowOf P e = some row → row ∈ rowsOf P batch :=
    fun e he row hrow => List.mem_filterMap.mpr ⟨e, he, hrow⟩
  constructor
  · intro hread e he hle row hrow
    obtain ⟨id, vector, metadata⟩ := row
    have hmem := hrows e he _ hrow
    obtain ⟨r, hfind, hin, hout⟩ := hot_get_batch env 0 hfresh
      (List.mem_map_of_mem hmem)
    obtain ⟨r', hget, hvector, hmetadata⟩ := hread e he hle id vector metadata hrow fun _ => 0
    rw [get_eq_of_cold hcold (hnew _ hmem), hhot] at hget
    by_cases hroom : RoomFor s.hot ((rowsOf P batch).map Prod.fst) id
    · rw [hin hroom] at hget
      obtain rfl := Option.some.inj (Except.ok.inj hget)
      have hrid : (toRow r).1 = id := by simpa using List.find?_some hfind
      refine ⟨hroom, hfind.trans (congrArg some ?_)⟩
      exact Prod.ext hrid (Prod.ext hvector hmetadata)
    · rw [hout hroom] at hget
      cases hget
  · intro hheld e he hle id vector metadata hrow rank
    have hmem := hrows e he _ hrow
    obtain ⟨r, hfind, hin, -⟩ := hot_get_batch env 0 hfresh
      (List.mem_map_of_mem hmem)
    obtain ⟨hroom, hfirst⟩ := hheld e he hle _ hrow
    have hsame : toRow r = (id, vector, metadata) := Option.some.inj (hfind.symm.trans hfirst)
    refine ⟨r, ?_, congrArg (·.2.1) hsame, congrArg (·.2.2) hsame⟩
    rw [get_eq_of_cold hcold (hnew _ hmem), hhot, hin hroom]

/-! ## A follower with room for one record -/

/-- The entry of the `txn`-th insert, of a vector of one number. -/
def insertEntry (txn id : UInt64) (x : Int) : ReplicationEntry :=
  ⟨txn, 0, insertVector, Engine.payload Engine.deps (Engine.call id [x])⟩

theorem opened_isSome : (Engine.opened (Engine.small 1 none)).isSome = true := by decide +kernel

def single : Engine Lit Lit := (Engine.opened (Engine.small 1 none)).get opened_isSome

theorem single_new (rank : UInt64 → Nat) (id : UInt64) :
    single.get Engine.deps rank id = .ok none := by
  have hhot : single.hot.vectors = [] := List.isEmpty_iff.mp (by decide +kernel)
  have hcold : single.cold.writers.keys = [] := by decide +kernel
  have hpart : single.cold.partitions rank = [] := by
    rw [ColdStore.partitions, ColdStore.keysInOrder, hcold]
    rfl
  rw [Engine.get, HotStore.get, hhot, hpart]
  rfl

def oneEntry : List ReplicationEntry := [insertEntry 1 1 5]

def twoEntries : List ReplicationEntry := [insertEntry 1 1 5, insertEntry 2 2 6]

theorem twoEntries_wellFormed : ∀ e ∈ twoEntries, WellFormed Engine.deps e := by
  have h : ∀ e ∈ twoEntries, e.opCode = insertVector ∧ (rowOf Engine.deps e).isSome := by
    decide +kernel
  exact h

/-- One entry, for which there is room. -/
theorem ack_sound_one :
    ∃ s' : Engine Lit Lit, Readable Engine.deps s' oneEntry 1 := by
  have hwf : ∀ e ∈ oneEntry, WellFormed Engine.deps e :=
    fun e he => twoEntries_wellFormed e (List.mem_of_mem_take (i := 1) he)
  obtain ⟨⟨s', r⟩, hrun⟩ : ∃ p, handleReplicate Engine.deps Engine.calmOpen oneEntry single =
      some p := Option.isSome_iff_exists.mp (by decide +kernel)
  obtain ⟨rfl, -, -⟩ := handleReplicate_ok hwf hrun
  have hheld : Held Engine.deps single.hot oneEntry := by
    intro e he _ row hrow
    obtain rfl := List.mem_singleton.mp he
    have hrows : rowsOf Engine.deps oneEntry = [row] := by
      rw [oneEntry, rowsOf, List.filterMap_cons_some hrow]
      rfl
    have hlen : single.hot.vectors.length < single.hot.maxRecords.toNat := by decide +kernel
    refine ⟨.inr ?_, ?_⟩
    · simpa [hrows] using hlen
    · simp [hrows]
  exact ⟨s', (ack_sound_iff hwf (fun row _ rank => single_new rank row.1) hrun).mpr hheld⟩

/-- Two entries for a store with room for one record: both are acknowledged, and the second
is nowhere. -/
theorem full_store_acks :
    ∃ s' : Engine Lit Lit,
      handleReplicate Engine.deps Engine.calmOpen twoEntries single =
        some (s', .ok ⟨true, 2, none⟩) ∧
      (∀ rank, s'.get Engine.deps rank 2 = .ok none) ∧
      ¬ Readable Engine.deps s' twoEntries 2 := by
  obtain ⟨⟨s', r⟩, hrun⟩ : ∃ p, handleReplicate Engine.deps Engine.calmOpen twoEntries single =
      some p := Option.isSome_iff_exists.mp (by decide +kernel)
  obtain ⟨rfl, hcold, hhot⟩ := handleReplicate_ok twoEntries_wellFormed hrun
  have hnone : s'.hot.get 2 = none := by
    rw [hhot]
    exact Option.isNone_iff_eq_none.mp (by decide +kernel)
  have hget : ∀ rank, s'.get Engine.deps rank 2 = .ok none := by
    intro rank
    rw [get_eq_of_cold hcold (fun rank => single_new rank 2), hnone]
  refine ⟨s', hrun, hget, ?_⟩
  intro hread
  obtain ⟨⟨id, vector, metadata⟩, hrow⟩ : ∃ row, rowOf Engine.deps (insertEntry 2 2 6) =
      some row := Option.isSome_iff_exists.mp (by decide +kernel)
  have hid : (rowOf Engine.deps (insertEntry 2 2 6)).map Prod.fst = some 2 := by decide +kernel
  rw [hrow] at hid
  obtain rfl := Option.some.inj hid
  obtain ⟨r, hr, -⟩ := hread _ (by simp [twoEntries]) (UInt64.le_refl 2) _ _ _ hrow fun _ => 0
  rw [hget] at hr
  cases hr

end Tesseract.L6
