import Tesseract.L2Wal.AppendLog
import Tesseract.L3Index.HnswSafe
import Tesseract.L4Engine.Engine

/-!
# What `open` does

`open` loads the recovered entries into an empty hot store of bounded size and
into the index. The hot store's answer to an entry is dropped, so that an entry
behind the capacity is dropped with it.

* `openEngine_eq_ok`: the stages of an `open` that succeeds.
* `replay_some`: entries that decode are replayed, into the index too while no
  distance is NaN.
* `loadAll_room`: while there is room, every entry with a new id gets its record.
* `loadAll_full`: a full store stays as it is.
-/
namespace Tesseract.L4.Engine

open L1.Wal L2.Log L3 L3.Serde

variable {α β : Type} [F64 α] [F32 β] [Narrow α β] {P : Deps α}

/-! ## The stages -/

omit [F32 β] [Narrow α β] in
/-- What is opened, with the trackers of the buckets. -/
theorem assemble_inv {env : OpenEnv} {config : StorageConfig α} {wal : Session}
    {hot : HotStore α} {cold : ColdStore} {index indexFile : Option (HnswIndex β)}
    {merkleFile : Option (MerkleTree β)} {s : Engine α β}
    (h : assemble P env config wal hot cold index indexFile merkleFile = .ok s) :
    ∃ buckets, initBuckets config = .ok buckets ∧ s = {
      config := config, wal := wal, hot := hot, cold := cold, index := index
      centroids := if config.topological.enabled then some (CentroidTracker.new config.index.dim)
        else none
      correlations := if config.topological.enabled then
        some (CorrelationTracker.new config.index.dim) else none
      buckets := buckets
      hotBuffer := if config.merkle.enabled then
        some (HotBuffer.new config.merkle.hotBufferCapacity) else none
      merkleTree := if config.merkle.enabled then
        some ((if config.merkle.persisted then merkleFile else none).getD
          (MerkleTree.new config.merkle.maxClusterSize)) else none
      indexFile := indexFile, merkleFile := merkleFile } := by
  unfold assemble at h
  cases hr : readAll P cold (cold.partitions env.coldRank) with
  | error x =>
    rw [hr] at h
    cases h
  | ok u =>
    cases hb : initBuckets config with
    | error x =>
      rw [hr, hb] at h
      cases h
    | ok buckets =>
      rw [hr, hb] at h
      cases h
      exact ⟨buckets, rfl, rfl⟩

omit [F32 β] [Narrow α β] in
theorem assemble_eq_ok {env : OpenEnv} {config : StorageConfig α} {wal : Session}
    {hot : HotStore α} {cold : ColdStore} {index indexFile : Option (HnswIndex β)}
    {merkleFile : Option (MerkleTree β)} {s : Engine α β}
    (h : assemble P env config wal hot cold index indexFile merkleFile = .ok s) :
    s.config = config ∧ s.wal = wal ∧ s.hot = hot ∧ s.cold = cold ∧ s.index = index ∧
      s.indexFile = indexFile ∧
      ∃ buckets, initBuckets config = .ok buckets := by
  obtain ⟨buckets, hb, rfl⟩ := assemble_inv h
  exact ⟨rfl, rfl, rfl, rfl, rfl, rfl, buckets, hb⟩

omit [F32 β] [Narrow α β] in
theorem assemble_ok {env : OpenEnv} {config : StorageConfig α} (wal : Session) (hot : HotStore α)
    {cold : ColdStore} (index indexFile : Option (HnswIndex β))
    (merkleFile : Option (MerkleTree β))
    (hread : readAll P cold (cold.partitions env.coldRank) = .ok ())
    (hb : ∃ buckets, initBuckets config = .ok buckets) :
    ∃ s, assemble P env config wal hot cold index indexFile merkleFile = .ok s := by
  obtain ⟨buckets, hb⟩ := hb
  unfold assemble
  rw [hread, hb]
  exact ⟨_, rfl⟩

/-- An `open` that succeeds, stage by stage. -/
theorem openEngine_eq_ok {env : OpenEnv} {config : StorageConfig α} {walDir : Dir}
    {coldDisk : Disk ColdFile} {indexFile : Option (HnswIndex β)}
    {merkleFile : Option (MerkleTree β)} {s : Engine α β} :
    openEngine P env config walDir coldDisk indexFile merkleFile = some (.ok s) ↔
      ∃ cold log hot index, ColdStore.openStore P.codec coldDisk = .ok cold ∧
        checkCache config.cacheCapacity = .ok () ∧
          recover P.wal (openLog P.wal config.wal walDir).disk = .ok log ∧
        replay P config.computer env 0 log (HotStore.new config.maxRecords)
          (initIndex config indexFile) =
          some (.ok (hot, index)) ∧
        assemble P env config (openLog P.wal config.wal walDir) hot cold index indexFile
          merkleFile = .ok s := by
  unfold openEngine
  constructor
  · intro h
    dsimp only at h
    split at h
    · cases h
    · cases h
    · cases h
    · next cold log hcold hcache hlog =>
      rw [Option.map_eq_some_iff] at h
      obtain ⟨r, hreplay, hr⟩ := h
      cases r with
      | error x => cases hr
      | ok p => exact ⟨cold, log, p.1, p.2, hcold, hcache, hlog, hreplay, hr⟩
  · intro ⟨cold, log, hot, index, hcold, hcache, hlog, hreplay, hs⟩
    simp only [hcold, hcache, hlog, hreplay, Option.map_some, Option.some.injEq]
    exact hs

/-- A new engine: everything is empty. -/
theorem create_eq_ok {env : OpenEnv} {config : StorageConfig α} {s : Engine α β}
    (h : create P env config = some (.ok s)) :
    s.config = config ∧ s.wal = openLog P.wal config.wal ∅ ∧
      s.hot = HotStore.new config.maxRecords ∧
      s.cold = ⟨∅, ∅⟩ ∧ s.index = initIndex config none ∧ s.indexFile = none ∧
      checkCache config.cacheCapacity = .ok () ∧ ∃ buckets, initBuckets config = .ok buckets := by
  obtain ⟨cold, log, hot, index, hcold, hcache, hlog, hreplay, hs⟩ := openEngine_eq_ok.mp h
  obtain ⟨hconfig, hwal, hhot, hcold', hindex, hfile, hbuckets⟩ := assemble_eq_ok hs
  rw [(Logs.create config.wal).recover, Except.ok.injEq] at hlog
  subst hlog
  simp only [replay, Option.some.injEq, Except.ok.injEq, Prod.mk.injEq] at hreplay
  cases hcold
  exact ⟨hconfig, hwal, hhot.trans hreplay.1.symm, hcold', hindex.trans hreplay.2.symm, hfile,
    hcache, hbuckets⟩

theorem create_logs {env : OpenEnv} {config : StorageConfig α} {s : Engine α β}
    (h : create P env config = some (.ok s)) : Logs P.wal s.wal [] := by
  rw [(create_eq_ok h).2.1]
  exact Logs.create config.wal

theorem reopen_logs {env : OpenEnv} {s s' : Engine α β} {log : List WalEntry}
    (h : s.reopen P env = some (.ok s')) (hlog : Logs P.wal s.wal log) : Logs P.wal s'.wal log := by
  obtain ⟨_, _, _, _, _, _, _, _, hs⟩ := openEngine_eq_ok.mp h
  rw [(assemble_eq_ok hs).2.1]
  exact hlog.open s.config.wal

/-! ## The replay -/

/-- The entry was written by `insert`, and is read as `d`. -/
def Decodes (P : Deps α) (e : WalEntry) (d : UInt64 × List α × Value α) : Prop :=
  e.opCode = insertVector ∧ decodePayload P e = some d

theorem decodes_of_mem {log : List WalEntry} {ds : List (UInt64 × List α × Value α)}
    (h : List.Forall₂ (Decodes P) log ds) {e : WalEntry} (he : e ∈ log) : ∃ d, Decodes P e d := by
  induction h with
  | nil => cases he
  | @cons e' d log ds hd _ ih =>
    rcases List.mem_cons.mp he with rfl | he
    · exact ⟨d, hd⟩
    · exact ih he

/-- What the replay does to the hot store. -/
def loadAll (env : OpenEnv) : Nat → List (UInt64 × List α × Value α) → HotStore α → HotStore α
  | _, [], hot => hot
  | n, (id, vector, metadata) :: rest, hot =>
    loadAll env (n + 1) rest (hot.insert ⟨id, vector, metadata, env.createdAt n, 0⟩).1

/-- No distance between two of the vectors is NaN. -/
def Comparable (D : DistanceComputer β) (S : Set (List β)) : Prop :=
  ∀ u ∈ S, ∀ v ∈ S, F32.isNaN (D.distance u v) = false

theorem applyWalEntry_ok {e : WalEntry} {id : UInt64} {vector : List α} {metadata : Value α}
    (h : Decodes P e (id, vector, metadata)) (createdAt : UInt64) (hot : HotStore α) :
    applyWalEntry P createdAt hot e = .ok (hot.insert ⟨id, vector, metadata, createdAt, 0⟩).1 := by
  rw [applyWalEntry, if_neg (by simp [h.1]), h.2]

/-- An entry of another length than the index has is refused, any other one is
inserted. -/
theorem replayIndexEntry_some [LawfulF32 β] {D : DistanceComputer β} {S : Set (List β)}
    (hS : Comparable D S) {e : WalEntry} {d : UInt64 × List α × Value α} (h : Decodes P e d)
    (level : Nat) {idx : HnswIndex β} (hw : idx.Wf) (hidx : ∀ v ∈ idx.vectors, v ∈ S)
    (hd : d.2.1.length = idx.dim → d.2.1.map Narrow.toF32 ∈ S) :
    ∃ idx', replayIndexEntry P D level idx e = some (.ok idx') ∧ idx'.Wf ∧ idx'.dim = idx.dim ∧
      ∀ v ∈ idx'.vectors, v ∈ S := by
  obtain ⟨id, vector, metadata⟩ := d
  rw [replayIndexEntry, if_neg (by simp [h.1]), h.2]
  by_cases hdim : vector.length = idx.dim
  · have hsub : ∀ v ∈ vector.map Narrow.toF32 :: idx.vectors, v ∈ S := by
      intro v hv
      rcases List.mem_cons.mp hv with rfl | hv
      · exact hd hdim
      · exact hidx v hv
    obtain ⟨idx', r, hins, hw', hdim', hvs⟩ := HnswIndex.insert_some (D := D) hw level id vector
      fun u hu v hv => hS u (hsub u hu) v (hsub v hv)
    exact ⟨idx', by simp only [hins, Option.map_some], hw', hdim', fun v hv => hsub v (hvs v hv)⟩
  · have hins : HnswIndex.insert D level idx id vector =
        some (idx, .error (.dimensionMismatch vector.length idx.dim)) := by
      rw [HnswIndex.insert, if_pos hdim]
    exact ⟨idx, by simp only [hins, Option.map_some], hw, rfl, hidx⟩

/-- Entries that decode are replayed. -/
theorem replay_some [LawfulF32 β] {D : DistanceComputer β} {S : Set (List β)}
    (hS : Comparable D S) (env : OpenEnv) {log : List WalEntry}
    {ds : List (UInt64 × List α × Value α)} (h : List.Forall₂ (Decodes P) log ds) :
    ∀ n (hot : HotStore α) (index : Option (HnswIndex β)),
    (∀ idx ∈ index, idx.Wf ∧ (∀ v ∈ idx.vectors, v ∈ S) ∧
      ∀ d ∈ ds, d.2.1.length = idx.dim → d.2.1.map Narrow.toF32 ∈ S) →
    ∃ index', replay P D env n log hot index = some (.ok (loadAll env n ds hot, index')) := by
  induction h with
  | nil => exact fun n hot index _ => ⟨index, rfl⟩
  | @cons e d log ds he _ ih =>
    intro n hot index hindex
    obtain ⟨id, vector, metadata⟩ := d
    rw [replay, applyWalEntry_ok he, loadAll]
    cases index with
    | none => exact ih (n + 1) _ none (by simp)
    | some idx =>
      obtain ⟨hw, hidx, hds⟩ := hindex idx rfl
      obtain ⟨idx', hr, hw', hdim', hidx'⟩ :=
        replayIndexEntry_some hS he (env.level n) hw hidx (hds _ (by simp))
      have hone : replayIndex P D (env.level n) (some idx) e = some (.ok (some idx')) := by
        rw [replayIndex, hr]
        rfl
      simp only [hone]
      apply ih (n + 1) _ (some idx')
      intro i hi
      cases hi
      refine ⟨hw', hidx', fun d hd hlen => ?_⟩
      exact hds d (List.mem_cons_of_mem _ hd) (hlen.trans hdim')

/-! ## Loading the hot store -/

/-- A full store stays as it is. -/
theorem loadAll_full (env : OpenEnv) :
    ∀ ds n (hot : HotStore α), hot.full → loadAll env n ds hot = hot := by
  intro ds
  induction ds with
  | nil => exact fun n hot _ => rfl
  | cons d ds ih =>
    intro n hot hfull
    have hins : (hot.insert ⟨d.1, d.2.1, d.2.2, env.createdAt n, 0⟩).1 = hot := by
      rw [HotStore.insert, dif_pos hfull]
    rw [loadAll, hins]
    exact ih (n + 1) hot hfull

/-- The replay removes no record. -/
theorem loadAll_keeps (env : OpenEnv) :
    ∀ ds n (hot : HotStore α) {id : UInt64} {r : VectorRecord α},
    hot.get id = some r → (loadAll env n ds hot).get id = some r := by
  intro ds
  induction ds with
  | nil => exact fun n hot id r h => h
  | cons d ds ih =>
    intro n hot id r h
    rw [loadAll]
    apply ih (n + 1)
    rcases hot.insert_cases ⟨d.1, d.2.1, d.2.2, env.createdAt n, 0⟩
      with ⟨_, heq⟩ | ⟨_, _, heq⟩ | ⟨_, _, _, _, hvec⟩
    · rw [heq]
      exact h
    · rw [heq]
      exact h
    · rw [HotStore.get_append hvec, h]
      rfl

/-- While there is room, every entry with a new id gets its record. -/
theorem loadAll_room (env : OpenEnv) : ∀ ds n (hot : HotStore α),
    (hot.vectors.map VectorRecord.id ++ ds.map Prod.fst).Nodup →
    hot.vectors.length + ds.length ≤ hot.maxRecords.toNat →
    ∀ d ∈ ds, ∃ r, (loadAll env n ds hot).get d.1 = some r ∧ r.vector = d.2.1 ∧
      r.metadata = d.2.2 := by
  intro ds
  induction ds with
  | nil =>
    intro n hot _ _ d hd
    cases hd
  | cons d₀ ds ih =>
    intro n hot hnd hroom d hd
    rw [List.length_cons] at hroom
    have hfull : ¬ hot.full := HotStore.not_full_of_lt (by omega)
    have hid : d₀.1 ∉ hot.vectors.map VectorRecord.id := by
      intro hc
      exact (List.nodup_append.mp hnd).2.2 d₀.1 hc d₀.1 (by simp) rfl
    obtain ⟨hmax, hvec⟩ :=
      HotStore.insert_new (r := ⟨d₀.1, d₀.2.1, d₀.2.2, env.createdAt n, 0⟩) hfull hid
    rw [loadAll]
    rcases List.mem_cons.mp hd with rfl | hd
    · refine ⟨⟨d.1, d.2.1, d.2.2, env.createdAt n, 0⟩, loadAll_keeps env ds (n + 1) _ ?_, rfl, rfl⟩
      rw [HotStore.get_append hvec, HotStore.get_eq_none.mpr hid]
      simp
    · apply ih (n + 1) _ _ _ d hd
      · rw [hvec, List.map_append, List.append_assoc]
        exact hnd
      · rw [hmax, hvec, List.length_append, List.length_singleton]
        omega

/-- Only as many entries are loaded as there is room for. -/
theorem loadAll_ids (env : OpenEnv) : ∀ ds n (hot : HotStore α),
    (hot.vectors.map VectorRecord.id ++ ds.map Prod.fst).Nodup → hot.maxRecords ≠ 0 →
    ∀ r ∈ (loadAll env n ds hot).vectors, r ∈ hot.vectors ∨
      r.id ∈ (ds.take (hot.maxRecords.toNat - hot.vectors.length)).map Prod.fst := by
  intro ds
  induction ds with
  | nil => exact fun n hot _ _ r hr => .inl hr
  | cons d ds ih =>
    intro n hot hnd hmax r hr
    by_cases hfull : hot.full
    · rw [loadAll_full env _ n hot hfull] at hr
      exact .inl hr
    · have hid : d.1 ∉ hot.vectors.map VectorRecord.id := by
        intro hc
        exact (List.nodup_append.mp hnd).2.2 d.1 hc d.1 (by simp) rfl
      have hlt : hot.vectors.length < hot.maxRecords.toNat := by
        by_contra hc
        exact hfull ⟨hmax, by omega⟩
      obtain ⟨hmax', hvec⟩ :=
        HotStore.insert_new (r := ⟨d.1, d.2.1, d.2.2, env.createdAt n, 0⟩) hfull hid
      rw [loadAll] at hr
      obtain ⟨k, hk⟩ : ∃ k, hot.maxRecords.toNat - hot.vectors.length = k + 1 :=
        ⟨hot.maxRecords.toNat - hot.vectors.length - 1, by omega⟩
      rcases ih (n + 1) _ (by rw [hvec, List.map_append, List.append_assoc]; exact hnd)
        (by rw [hmax']; exact hmax) r hr
        with hin | hin
      · rw [hvec, List.mem_append, List.mem_singleton] at hin
        rcases hin with hin | rfl
        · exact .inl hin
        · right
          rw [hk]
          simp
      · right
        rw [hmax', hvec, List.length_append, List.length_singleton,
          show hot.maxRecords.toNat - (hot.vectors.length + 1) = k by omega] at hin
        rw [hk, List.take_succ_cons, List.map_cons]
        exact List.mem_cons_of_mem _ hin

end Tesseract.L4.Engine
