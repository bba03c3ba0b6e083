import Tesseract.L3Index.HnswReplay
import Tesseract.L4Engine.Completeness

/-!
# A clean restart

`shutdown` saves the index, and no checkpoint is ever written. So `open` replays
the whole log over an index that has seen it.

* `replay_known`: replaying inserts of known ids only overwrites vectors.
* `Indexes`: the index of a running engine is settled under its log.
* `restart_keeps_index`: behind accepted inserts whose entries the log can hold,
  the index that is opened is the one that was saved.
* `restart_reverts`: an entry that is too long is not replayed, and an older vector
  comes back.
-/
namespace Tesseract.L4.Engine

open L1.Wal L2.Log L3 L3.Serde L3.HnswIndex

variable {α β : Type} [F64 α] [F32 β] [Narrow α β] {P : Deps α}

/-! ## The replay -/

/-- The vectors of read entries, as the index takes them. -/
def vectorsOf (ds : List (UInt64 × List α × Value α)) : List (UInt64 × List β) :=
  ds.map fun d => (d.1, d.2.1.map Narrow.toF32)

theorem replay_known {D : DistanceComputer β} (env : OpenEnv) {log : List WalEntry}
    {ds : List (UInt64 × List α × Value α)} (h : List.Forall₂ (Decodes P) log ds) :
    ∀ n (hot : HotStore α) (idx : HnswIndex β), Aligned idx →
    (∀ d ∈ ds, d.1 ∈ idx.idToNode ∧ d.2.1.length = idx.dim) →
    replay P D env n log hot (some idx) = some (.ok (loadAll env n ds hot,
      some { idx with vectors := overwrite idx.idToNode (vectorsOf ds) idx.vectors })) := by
  induction h with
  | nil => exact fun n hot idx _ _ => rfl
  | @cons e d log ds he _ ih =>
    intro n hot idx ha hds
    obtain ⟨id, vector, metadata⟩ := d
    obtain ⟨hid, hdim⟩ := hds (id, vector, metadata) (by simp)
    have hins := insert_known (D := D) (env.level n) ha hid hdim
    have hone : replayIndex P D (env.level n) (some idx) e = some (.ok (some { idx with
        vectors := overwrite idx.idToNode [(id, vector.map Narrow.toF32)] idx.vectors })) := by
      rw [replayIndex, replayIndexEntry, if_neg (by simp [he.1]), he.2]
      simp only [hins, Option.map_some]
      rfl
    have hlen : Aligned { idx with
        vectors := overwrite idx.idToNode [(id, vector.map Narrow.toF32)] idx.vectors } := by
      rw [Aligned, length_overwrite]
      exact ha
    rw [replay, applyWalEntry_ok he, loadAll]
    simp only [hone]
    rw [ih (n + 1) _ _ hlen fun d hd => hds d (List.mem_cons_of_mem _ hd), ← overwrite_append]
    rfl

theorem replay_none {D : DistanceComputer β} (env : OpenEnv) {log : List WalEntry}
    {ds : List (UInt64 × List α × Value α)} (h : List.Forall₂ (Decodes P) log ds) :
    ∀ n (hot : HotStore α), replay P D env n log hot (none : Option (HnswIndex β)) =
      some (.ok (loadAll env n ds hot, none)) := by
  induction h with
  | nil => exact fun n hot => rfl
  | @cons e d log ds he _ ih =>
    intro n hot
    rw [replay, applyWalEntry_ok he, loadAll]
    exact ih (n + 1) _

/-! ## The index of a run -/

/-- The inserts as the index takes them. -/
def indexedBy (cs : List (Call α)) : List (UInt64 × List β) :=
  cs.map fun c => (c.id, c.vector.map Narrow.toF32)

/-- No index where none is configured, else one that a replay of the calls leaves
as it is. -/
def Indexes (config : StorageConfig α) (cs : List (Call α)) (index : Option (HnswIndex β)) :
    Prop :=
  (config.index.enabled = false ∧ index = none) ∨
  (config.index.enabled = true ∧ ∃ idx, index = some idx ∧ Settled idx (indexedBy cs) ∧
    idx.config.distanceMetric = config.index.hnsw.distanceMetric ∧
    ∀ c ∈ cs, c.vector.length = idx.dim)

omit [F32 β] in
theorem Indexes.create (config : StorageConfig α) :
    Indexes config [] (initIndex config (none : Option (HnswIndex β))) := by
  unfold initIndex
  by_cases hon : config.index.enabled = true
  · rw [if_pos hon]
    exact .inr ⟨hon, _, rfl, Settled.new _ _, rfl, by simp⟩
  · rw [if_neg hon]
    exact .inl ⟨by simpa using hon, rfl⟩

theorem Indexes.insert {config : StorageConfig α} {cs : List (Call α)} {s s' : Engine α β}
    {c : Call α} (h : Indexes config cs s.index) (hins : Indexed s s' c (.ok ())) :
    Indexes config (cs ++ [c]) s'.index := by
  rcases h with ⟨hoff, hnone⟩ | ⟨hon, idx, hsome, hsettled, hmetric, hdims⟩
  · rcases hins with ⟨_, hnone', _⟩ | ⟨idx, _, hsome, _, _⟩
    · exact .inl ⟨hoff, hnone'⟩
    · rw [hnone] at hsome
      cases hsome
  · rcases hins with ⟨hnone, _, _⟩ | ⟨idx₀, idx', hsome₀, hsome', hinsert⟩
    · rw [hsome] at hnone
      cases hnone
    · obtain rfl : idx₀ = idx := Option.some.inj (hsome₀.symm.trans hsome)
      obtain ⟨hdim', hconfig'⟩ := insert_frame hinsert
      refine .inr ⟨hon, idx', hsome', ?_, ?_, ?_⟩
      · rw [indexedBy, List.map_append, List.map_singleton]
        exact hsettled.insert hinsert
      · rw [hconfig']
        exact hmetric
      · intro c' hc'
        rw [hdim']
        rcases List.mem_append.mp hc' with hc' | hc'
        · exact hdims c' hc'
        · rw [List.mem_singleton.mp hc']
          rcases insert_cases hinsert with ⟨_, _, hr⟩ | ⟨hdim, _⟩
          · cases hr
          · exact hdim

theorem indexes_run {env : OpenEnv} {config : StorageConfig α} {s₀ s : Engine α β}
    {cs : List (Call α)} (h₀ : Engine.create P env config = some (.ok s₀))
    (hrun : (accepting P).Run s₀ cs s) (hcs : ∀ c ∈ cs, c.env.Faultless) :
    Indexes config cs s.index := by
  apply hrun.history (I := fun cs s => Indexes config cs s.index)
  · rw [(create_eq_ok h₀).2.2.2.2.1]
    exact Indexes.create config
  · intro pre c s s' hpre h hst
    have hc : c ∈ cs := hpre.subset (by simp)
    obtain ⟨_, _, _, _, _, hrest⟩ := insert_inv (insertOk_eq_some.mp hst) (hcs c hc).1
    rcases hrest with ⟨x, _, hx, _⟩ | ⟨_, hins⟩
    · cases hx
    · exact h.insert hins

/-! ## Shutdown and open -/

omit [Narrow α β] in
/-- An engine without a Merkle tier saves its index and syncs its log. -/
theorem shutdown_plain (P : Deps α) {s : Engine α β} (h : s.hotBuffer = none) :
    s.shutdown P = some ({ s with
      wal := (flush false s.wal).1
      indexFile := s.index.or s.indexFile }, .ok ()) := by
  unfold shutdown
  simp only [h]
  rfl

/-- Behind a run of accepted inserts whose payloads fit their length field, and a
shutdown, the engine opens with the index that was saved. -/
theorem restart_keeps_index (hK : P.codec.Lawful) {env : OpenEnv} {config : StorageConfig α}
    {s₀ s s₁ : Engine α β} {cs : List (Call α)} {r : Result Unit}
    (h₀ : create P env config = some (.ok s₀)) (hrun : (accepting P).Run s₀ cs s)
    (hcs : ∀ c ∈ cs, c.env.Faultless ∧ RoundTrips P c ∧ (payload P c).length < 2 ^ 32)
    (hlen : cs.length < 2 ^ 64) (hdown : s.shutdown P = some (s₁, r)) :
    r = .ok () ∧ s₁.indexFile = s.index ∧
      ∀ env, ∃ s', s₁.reopen P env = some (.ok s') ∧ s'.index = s.index := by
  obtain ⟨parts, hkept⟩ := kept_run (S := Set.univ) hK h₀ hrun hcs
    (fun _ _ _ => Set.mem_univ _) hlen
  obtain ⟨log, hfiles⟩ := hkept.files
  obtain ⟨hok, hconfig, hwal, hcold, hindex, hfile⟩ := shutdown_inv hdown
  have hsaved : s₁.indexFile = s.index := by
    rw [hfile, hfiles.unsaved, Option.or_none]
  refine ⟨hok, hsaved, ?_⟩
  intro env'
  have hlog : recover P.wal (openLog P.wal s₁.config.wal s₁.wal.disk).disk = .ok log := by
    rw [hwal]
    exact (hfiles.logs.flush.open s₁.config.wal).recover
  have hread : (vectorsOf (cs.map (readBack P)) : List (UInt64 × List β)) = indexedBy cs := by
    rw [vectorsOf, indexedBy, List.map_map]
    refine List.map_congr_left ?_
    intro c hc
    simp only [Function.comp, readBack, (hcs c hc).2.1.vector]
  have hreplay : replay P s₁.config.computer env' 0 log (HotStore.new s₁.config.maxRecords)
      (initIndex s₁.config s₁.indexFile) = some (.ok
        (loadAll env' 0 (cs.map (readBack P)) (HotStore.new s₁.config.maxRecords), s.index)) := by
    unfold initIndex
    rw [hsaved, hconfig, hkept.config]
    rcases indexes_run h₀ hrun (fun c hc => (hcs c hc).1) with
      ⟨hoff, hnone⟩ | ⟨hon, idx, hsome, hsettled, hmetric, hdims⟩
    · rw [hnone, hoff]
      exact replay_none env' hfiles.decodes 0 _
    · have hsame : { idx with config := { idx.config with
          distanceMetric := config.index.hnsw.distanceMetric } } = idx := by
        rw [← hmetric]
      rw [hsome, if_pos hon]
      simp only [hsame]
      rw [replay_known env' hfiles.decodes 0 _ idx hsettled.aligned, hread, hsettled.fixed]
      intro d hd
      obtain ⟨c, hc, rfl⟩ := List.mem_map.mp hd
      refine ⟨hsettled.known (c.id, c.vector.map Narrow.toF32) (List.mem_map_of_mem hc), ?_⟩
      rw [readBack, List.length_map]
      exact hdims c hc
  have hholds : s₁.cold.Holds P.codec parts := by
    rw [hcold]
    exact hfiles.holds
  obtain ⟨s', hs', _, _, hindex'⟩ := reopen_of_replay hK hlog hholds
    (by rw [hconfig]; exact hfiles.cache) (by rw [hconfig]; exact hfiles.buckets) hreplay
  exact ⟨s', hs', hindex'⟩

theorem restart_keeps_two : ∃ s₁ s' : Engine Lit Lit,
    linearTwo.shutdown deps = some (s₁, .ok ()) ∧ s₁.indexFile = linearTwo.index ∧
    s₁.reopen deps calmOpen = some (.ok s') ∧ s'.index = linearTwo.index := by
  have hbare : linearTwo.hotBuffer = none := by
    rw [← Option.isNone_iff_eq_none]
    decide +kernel
  have hdown := shutdown_plain deps hbare
  have hcs : ∀ c ∈ [call 1 [5], call 2 [3]],
      c.env.Faultless ∧ RoundTrips deps c ∧ (payload deps c).length < 2 ^ 32 := by
    intro c hc
    rcases List.mem_cons.mp hc with rfl | hc
    · exact ⟨calm_faultless, call_roundTrips 1 5, by decide +kernel⟩
    · rw [List.mem_singleton.mp hc]
      exact ⟨calm_faultless, call_roundTrips 2 3, by decide +kernel⟩
  obtain ⟨_, hsaved, hopen⟩ :=
    restart_keeps_index plain_lawful linear_create linearTwo_run hcs (by decide) hdown
  obtain ⟨s', hs', hindex⟩ := hopen calmOpen
  exact ⟨_, s', hdown, hsaved, hs', hindex⟩

/-! ## A payload too long for its length field -/

/-- The insert of the vector `[3]` under the id 1, with a text of `n` characters. -/
def stuffed (n : Nat) : Call Lit :=
  { call 1 [3] with metadata := .str (String.ofList (List.replicate n 'x')) }

theorem flatMap_replicate_single {γ δ : Type} {f : γ → List δ} {a : γ} {b : δ} (h : f a = [b]) :
    ∀ n, (List.replicate n a).flatMap f = List.replicate n b := by
  intro n
  induction n with
  | zero => rfl
  | succ n ih =>
    rw [List.replicate_succ, List.flatMap_cons, h, ih]
    rfl

theorem payload_stuffed (n : Nat) : payload deps (stuffed n) =
    [91, 49, 44, 91, 51, 46, 48, 93, 44] ++ ([34] ++ List.replicate n 120 ++ [34] ++ [93]) := by
  have hvalue : printValue (encodeEntry 1 [Lit.fin 3]
      (.str (String.ofList (List.replicate n 'x')))) =
      ['[', '1', ',', '[', '3', '.', '0', ']', ','] ++
        (printString (String.ofList (List.replicate n 'x')) ++ [']']) := rfl
  have hstring : printString (String.ofList (List.replicate n 'x')) =
      ['"'] ++ List.replicate n 'x' ++ ['"'] := by
    rw [printString, String.toList_ofList,
      flatMap_replicate_single (by rfl : escapeChar 'x' = ['x'])]
    rfl
  have hutf8 := flatMap_replicate_single (by rfl : String.utf8EncodeChar 'x' = [120]) n
  show (printValue (encodeEntry 1 [Lit.fin 3]
    (.str (String.ofList (List.replicate n 'x'))))).flatMap String.utf8EncodeChar = _
  rw [hvalue, hstring]
  simp only [List.flatMap_append, hutf8]
  rfl

theorem stuffed_roundTrips (n : Nat) : RoundTrips deps (stuffed n) :=
  ⟨(call_roundTrips 1 3).finite, Nat.zero_le _, rfl, rfl⟩

/-- The length field of the entry is zero, and what follows it is not its CRC. -/
theorem stuffed_refused {n : Nat} (hn : n + 12 = 2 ^ 32) {wal : WriteAheadLog}
    (hid : wal.nextTxnId = 2) :
    (framing deps.wal.crc).dec ((framing deps.wal.crc).enc
      (stamped wal (entryOf deps (stuffed n)))) = none := by
  have hlen : (payload deps (stuffed n)).length = 2 ^ 32 := by
    rw [payload_stuffed]
    simp only [List.length_append, List.length_replicate, List.length_cons, List.length_nil]
    omega
  have henc : (framing deps.wal.crc).enc (stamped wal (entryOf deps (stuffed n))) =
      header 2 insertVector 0 ++ ([91, 49, 44, 91] ++ ([51, 46, 48, 93, 44] ++
        ([34] ++ List.replicate n 120 ++ [34] ++ [93]) ++ Endian.u32le (deps.wal.crc
          (header 2 insertVector 0 ++ payload deps (stuffed n))))) := by
    show WalEntry.toBytes _ _ = _
    simp only [WalEntry.toBytes, stamped, entryOf, hid, hlen]
    rw [show UInt32.ofNat (2 ^ 32) = 0 from rfl]
    simp only [payload_stuffed, List.append_assoc, List.cons_append, List.nil_append]
  rw [henc]
  show (WalEntry.fromBytes _ _).toOption = none
  rw [fromBytes_header _ _ _ _ _ (by simp), if_neg (by simp), if_pos]
  · rfl
  · rw [show slice ([91, 49, 44, 91] ++ _) (0 : UInt32).toNat 4 = [91, 49, 44, 91] from rfl]
    simp only [UInt32.toNat_zero, List.take_zero, List.append_nil]
    decide +kernel

theorem linearOne_insert : linear.insert deps (call 1 [5]) = some (linearOne, .ok ()) :=
  insert_of_get (by decide +kernel) (by decide +kernel)

theorem linearOne_recoverable : ∃ log parts,
    Recoverable deps (Set.univ : Set (List Lit)) linearOne log [readBack deps (call 1 [5])]
      parts := by
  have hsound : Sound deps (Set.univ : Set (List Lit)) linear (call 1 [5]) := by
    have hroom : ¬ linear.hot.full := by decide +kernel
    exact ⟨calm_faultless, by decide +kernel, by decide +kernel, (call_roundTrips 1 5).finite,
      Nat.zero_le _, fun _ _ => Set.mem_univ _, fun hfull => absurd hfull hroom⟩
  have hnew := create_recoverable deps (Set.univ : Set (List Lit)) linear_create
  exact ⟨_, _, (hnew.insert plain_lawful hsound linearOne_insert).2⟩

/-- The second insert replaces the vector in the index, and the log gets an
entry that it refuses. -/
theorem stuffed_insert (n : Nat) {idx : HnswIndex Lit} (hidx : linearOne.index = some idx)
    (ha : Aligned idx) (hid : 1 ∈ idx.idToNode) (hdim : idx.dim = 1) :
    ∃ s, linearOne.insert deps (stuffed n) = some (s, .ok ()) ∧ s.config = linearOne.config ∧
      s.cold = linearOne.cold ∧ s.indexFile = linearOne.indexFile ∧ s.hotBuffer = none ∧
      s.wal = (append deps.wal .none linearOne.wal (entryOf deps (stuffed n)) .durable).1 ∧
      s.index = some { idx with
        vectors := overwrite idx.idToNode [(1, [.fin 3])] idx.vectors } := by
  have hbare : linearOne.centroids.isNone ∧ linearOne.correlations.isNone ∧
    linearOne.buckets.isNone ∧ linearOne.hotBuffer.isNone := by decide +kernel
  simp only [Option.isNone_iff_eq_none] at hbare
  have huntracked : Untracked linearOne := ⟨hbare.1, hbare.2.1, hbare.2.2.1, hbare.2.2.2⟩
  have hroom : ¬ linearOne.hot.full := by decide +kernel
  have hknown : (linearOne.hot.get 1).isSome := by decide +kernel
  have hstore : storeRecord deps calm linearOne.hot linearOne.cold (record (stuffed n)) =
      (linearOne.hot, linearOne.cold, .ok ()) := by
    rcases storeRecord_cases (P := deps) calm rfl linearOne.hot linearOne.cold
      (record (stuffed n)) with ⟨_, hnone, _⟩ | ⟨_, _, heq⟩ | ⟨hfull, _⟩
    · rw [show (record (stuffed n)).id = 1 from rfl] at hnone
      rw [hnone] at hknown
      cases hknown
    · exact heq
    · exact absurd hfull hroom
  have hins : HnswIndex.insert linearOne.config.computer (stuffed n).env.level idx 1 [Lit.fin 3] =
      some ({ idx with vectors := overwrite idx.idToNode [(1, [.fin 3])] idx.vectors }, .ok ()) :=
    insert_known _ ha hid (by rw [hdim]; rfl)
  refine ⟨{ linearOne with
    wal := (append deps.wal .none linearOne.wal (entryOf deps (stuffed n)) .durable).1
    index := some { idx with
      vectors := overwrite idx.idToNode [(1, [.fin 3])] idx.vectors } },
    huntracked.insert rfl hstore ?_ hbare.2.2.2, rfl, rfl, rfl, hbare.2.2.2, rfl, rfl⟩
  simp only [insertIndex, hidx]
  show (HnswIndex.insert _ _ idx 1 [Lit.fin 3]).bind _ = _
  rw [hins]
  rfl

/-- A log with such an entry at its end is read without it. -/
theorem stuffed_recover {n : Nat} (hn : n + 12 = 2 ^ 32) {w w' : Session} {log : List WalEntry}
    (hlog : Logs deps.wal w log) (hid : w.wal.nextTxnId = 2) (hlen : log.length + 1 < 2 ^ 64)
    (hw : w' = (append deps.wal .none w (entryOf deps (stuffed n)) .durable).1)
    (config : WalConfig) :
    recover deps.wal (openLog deps.wal config (flush false w').1.disk).disk = .ok log := by
  obtain ⟨segs, hflat, _, hact⟩ := hlog.segments
  have hroom := hlog.room (by rw [hid]; decide) hlen
  obtain ⟨_, segs₁, _, hflat₁, hact₁⟩ :=
    append_active hact (entryOf deps (stuffed n)) .durable (hact.room hroom.2)
  have hsync : Active deps.wal (flush false w').1.disk (flush false w').1.wal.currentSegment
      segs₁ := by
    rw [hw]
    exact hact₁.sync ⟨rfl, rfl⟩
  obtain ⟨segs₂, _, hflat₂, hact₂⟩ := openLog_active hsync.layout config
  rw [hact₂.layout.recover, flatMap_reads_refused (stuffed_refused hn hid) hlog.good]
  rw [hflat₂, hflat₁, hflat]

/-- The log of the first insert alone, replayed over the vector of the second one. -/
theorem replay_first (config : StorageConfig Lit) (hot : HotStore Lit) (saved : HnswIndex Lit)
    {log : List WalEntry} (hdec : List.Forall₂ (Decodes deps) log [readBack deps (call 1 [5])])
    (hon : config.index.enabled = true) (hids : saved.idToNode = [1])
    (hvecs : saved.vectors = [[.fin 3]]) (hdim : saved.dim = 1) :
    ∃ idx, replay deps config.computer calmOpen 0 log hot (initIndex config (some saved)) =
      some (.ok (loadAll calmOpen 0 [readBack deps (call 1 [5])] hot, some idx)) ∧
      idx.idToNode = [1] ∧ idx.vectors = [[.fin 5]] := by
  rw [initIndex, if_pos hon]
  have h := replay_known (D := config.computer) calmOpen hdec 0 hot { saved with
    config := { saved.config with distanceMetric := config.index.hnsw.distanceMetric } }
    (by rw [Aligned, hids, hvecs]; rfl) ?_
  · refine ⟨_, h, hids, ?_⟩
    rw [hids, hvecs]
    rfl
  · intro d hd
    rw [List.mem_singleton.mp hd, hids, hdim]
    exact ⟨by simp [readBack, call], rfl⟩

theorem vectorOf_single {idx : HnswIndex Lit} {v : List Lit} (hids : idx.idToNode = [1])
    (hvecs : idx.vectors = [v]) : idx.vectorOf 1 = some v := by
  rw [vectorOf, hids, hvecs]
  rfl

theorem stuffed_reopens {n : Nat} (hn : n + 12 = 2 ^ 32) :
    ∃ s s₁ s', (accepting deps).Run linear [call 1 [5], stuffed n] s ∧
      s.shutdown deps = some (s₁, .ok ()) ∧ s₁.reopen deps calmOpen = some (.ok s') ∧
      s₁.indexFile.bind (fun idx => idx.vectorOf 1) = some [Lit.fin 3] ∧
      s'.index.bind (fun idx => idx.vectorOf 1) = some [Lit.fin 5] := by
  obtain ⟨log, parts, hrec⟩ := linearOne_recoverable
  have hone : linearOne.index.map (fun idx => (idx.idToNode, idx.vectors, idx.dim)) =
      some ([1], [[Lit.fin 5]], 1) := by decide +kernel
  have hon : linearOne.config.index.enabled = true := by decide +kernel
  have hnext : linearOne.wal.wal.nextTxnId = 2 := by decide +kernel
  have hshort : log.length + 1 < 2 ^ 64 := by
    rw [hrec.decodes.length_eq, List.length_singleton]
    omega
  obtain ⟨idx, hidx, hcols⟩ := Option.map_eq_some_iff.mp hone
  simp only [Prod.mk.injEq] at hcols
  obtain ⟨hids, hvecs, hdim⟩ := hcols
  obtain ⟨s, hins, hconfig, hcold, hfile, hbuffer, hwal, hindex⟩ :=
    stuffed_insert n hidx (by rw [Aligned, hids, hvecs]; rfl) (by rw [hids]; simp) hdim
  have hdown := shutdown_plain deps hbuffer
  rw [hindex, Option.some_or] at hdown
  have hlog := stuffed_recover hn hrec.logs hnext hshort hwal s.config.wal
  have hnew : overwrite idx.idToNode [(1, [Lit.fin 3])] idx.vectors = [[.fin 3]] := by
    rw [hids, hvecs]
    rfl
  have hholds : s.cold.Holds deps.codec parts := by
    rw [hcold]
    exact hrec.holds
  have hcache : checkCache s.config.cacheCapacity = .ok () := by
    rw [hconfig]
    exact hrec.cache
  have hbuckets : ∃ b, initBuckets s.config = .ok b := by
    rw [hconfig]
    exact hrec.buckets
  obtain ⟨i, hloaded, hi, hivecs⟩ := replay_first s.config (HotStore.new s.config.maxRecords)
    { idx with vectors := overwrite idx.idToNode [(1, [Lit.fin 3])] idx.vectors } hrec.decodes
    (by rw [hconfig]; exact hon) hids hnew hdim
  obtain ⟨s', hs', _, _, hindex'⟩ := reopen_of_replay
    (s := { s with
      wal := (flush false s.wal).1
      indexFile := some { idx with
        vectors := overwrite idx.idToNode [(1, [Lit.fin 3])] idx.vectors } })
    plain_lawful hlog hholds hcache hbuckets hloaded
  refine ⟨s, _, s', ?_, hdown, hs', vectorOf_single hids hnew, ?_⟩
  · exact .cons (insertOk_eq_some.mpr linearOne_insert)
      (.cons (insertOk_eq_some.mpr hins) (.nil s))
  · rw [hindex', Option.bind_some]
    exact vectorOf_single hi hivecs

/-- Both inserts are accepted and the shutdown saves the second vector, but the
engine opens with the first one. -/
theorem restart_reverts :
    create deps calmOpen (small 10 (some 1)) = some (.ok linear) ∧
    (∀ c ∈ [call 1 [5], stuffed (2 ^ 32 - 12)], c.env.Faultless ∧ RoundTrips deps c) ∧
    ∃ s s₁ s', (accepting deps).Run linear [call 1 [5], stuffed (2 ^ 32 - 12)] s ∧
      s.shutdown deps = some (s₁, .ok ()) ∧ s₁.reopen deps calmOpen = some (.ok s') ∧
      s₁.indexFile.bind (fun idx => idx.vectorOf 1) = some [Lit.fin 3] ∧
      s'.index.bind (fun idx => idx.vectorOf 1) = some [Lit.fin 5] := by
  refine ⟨linear_create, ?_, stuffed_reopens (by omega)⟩
  intro c hc
  rcases List.mem_cons.mp hc with rfl | hc
  · exact ⟨calm_faultless, call_roundTrips 1 5⟩
  · rw [List.mem_singleton.mp hc]
    exact ⟨calm_faultless, stuffed_roundTrips _⟩

end Tesseract.L4.Engine
