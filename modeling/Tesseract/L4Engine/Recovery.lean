import Tesseract.L4Engine.Insert
import Tesseract.L4Engine.Open

/-!
# Reopening an engine on its own files

`Recoverable` describes the files of an engine that was opened on empty
directories and took inserts only: what each entry of the log is read as, and
which batches the cold store holds.

* `entry_decodes`: the entry of a finite vector, with metadata that the parser can
  nest, is read back.
* `Recoverable.insert`: an insert keeps the files recoverable, whatever it returns.
* `Recoverable.reopen`: recoverable files can be opened, and what the hot store then
  holds are the entries of the log that there was room for.
-/
namespace Tesseract.L4.Engine

open L1.Wal L2.Log L3 L3.Serde

variable {α β : Type} [F64 α] [F32 β] [Narrow α β] {P : Deps α}

/-! ## Entries -/

/-- What the entry of a call is read back as. -/
def readBack (P : Deps α) (c : Call α) : UInt64 × List α × Value α :=
  (c.id, c.vector.map P.codec.text.back, c.metadata.map P.codec.text.reread)

theorem entry_decodes (hK : P.codec.Lawful) {c : Call α} (hfin : FiniteVec c.vector)
    (hdepth : c.metadata.depth ≤ 126) (wal : WriteAheadLog) :
    Decodes P (stamped wal (entryOf P c)) (readBack P c) := by
  refine ⟨rfl, ?_⟩
  have hlen : (encodeEntry c.id c.vector c.metadata).depth ≤ 127 := by
    rw [depth_encodeEntry]
    omega
  show P.codec.text.parse (payload P c) >>= decodeEntry = _
  rw [payload, hK.text _ hlen]
  exact decodeEntry_encodeEntry P.codec.text c.id hfin c.metadata

/-! ## Recoverable files -/

/-- The log is the list `log`, which is read as `ds`; the cold store holds
`parts`; and the vectors that the index takes are in `S`. -/
structure Recoverable (P : Deps α) (S : Set (List β)) (s : Engine α β) (log : List WalEntry)
    (ds : List (UInt64 × List α × Value α)) (parts : ColdStore.Parts α) : Prop where
  logs : Logs P.wal s.wal log
  next : s.wal.wal.nextTxnId = .ofNat (log.length + 1)
  bound : log.length + 1 ≤ 2 ^ 64
  decodes : List.Forall₂ (Decodes P) log ds
  indexed : s.config.index.enabled = true → ∀ d ∈ ds, d.2.1.length = s.config.index.dim →
    d.2.1.map Narrow.toF32 ∈ S
  holds : s.cold.Holds P.codec parts
  batches : ∀ p, (parts p).length ≤ log.length
  unsaved : s.indexFile = none
  cache : checkCache s.config.cacheCapacity = .ok ()
  buckets : ∃ b, initBuckets s.config = .ok b

/-- What a call may write so that it can be read: the vector is finite, the
metadata is not nested too deep, also in the records it evicts, and the vectors
the index takes are in `S`. -/
structure Sound (P : Deps α) (S : Set (List β)) (s : Engine α β) (c : Call α) : Prop where
  faultless : c.env.Faultless
  fits : (payload P c).length < 2 ^ 32
  counter : s.wal.wal.nextTxnId ≠ 0
  finite : FiniteVec c.vector
  depth : c.metadata.depth ≤ 126
  indexed : s.config.index.enabled = true → c.vector.length = s.config.index.dim →
    (c.vector.map P.codec.text.back).map Narrow.toF32 ∈ S
  evictable : s.hot.full → ∀ r ∈ evicted c.env s.hot, ColdStore.Readable r

theorem append_nextTxnId (C : Crates) (w : Session) (entry : WalEntry) (mode : WriteMode) :
    (append C .none w entry mode).1.wal.nextTxnId = w.wal.nextTxnId + 1 := rfl

theorem create_recoverable (P : Deps α) (S : Set (List β)) {env : OpenEnv}
    {config : StorageConfig α} {s : Engine α β} (h : create P env config = some (.ok s)) :
    Recoverable P S s [] [] fun _ => [] := by
  obtain ⟨hconfig, hwal, _, hcold, _, hfile, hcache, hbuckets⟩ := create_eq_ok h
  refine ⟨create_logs h, ?_, by simp, .nil, by simp, ?_, by simp, hfile, ?_, ?_⟩
  · rw [hwal]
    rfl
  · rw [hcold]
    exact ColdStore.Holds.empty P.codec
  · rw [hconfig]
    exact hcache
  · rw [hconfig]
    exact hbuckets

/-- An insert adds its entry, and a batch where it evicts. -/
theorem Recoverable.insert {S : Set (List β)} {s s' : Engine α β} {log : List WalEntry}
    {ds : List (UInt64 × List α × Value α)} {parts : ColdStore.Parts α} {c : Call α}
    {r : Result Unit} (hK : P.codec.Lawful) (h : Recoverable P S s log ds parts)
    (hc : Sound P S s c) (hins : s.insert P c = some (s', r)) :
    s'.config = s.config ∧
    Recoverable P S s' (log ++ [stamped s.wal.wal (entryOf P c)]) (ds ++ [readBack P c])
      (batchesAfter P c.env s.hot parts) := by
  obtain ⟨rh, hstore, hconfig, hwal, hfile, _⟩ := insert_inv hins hc.faultless.1
  have hlen : log.length + 1 < 2 ^ 64 := by
    have hbound := h.bound
    by_contra hcon
    have heq : log.length + 1 = 2 ^ 64 := by omega
    exact hc.counter (by rw [h.next, heq]; rfl)
  have hbatches := h.batches
  have hcold :=
    storeRecord_holds hK hc.faultless.2 hstore h.holds (by have := hbatches c.env.day; omega)
      hc.evictable
  refine ⟨hconfig, insert_logs hins hc.faultless.1 h.logs (h.logs.room hc.counter hlen) hc.fits, ?_,
    ?_, ?_, ?_, ?_, ?_, ?_, ?_, ?_⟩
  · rw [hwal, append_nextTxnId, h.next, List.length_append, List.length_singleton]
    exact (UInt64.ofNat_add _ _).symm
  · rw [List.length_append, List.length_singleton]
    omega
  · exact List.rel_append h.decodes (.cons (entry_decodes hK hc.finite hc.depth _) .nil)
  · intro hon d hd hdim
    rw [hconfig] at hon hdim
    rcases List.mem_append.mp hd with hd | hd
    · exact h.indexed hon d hd hdim
    · rw [List.mem_singleton.mp hd] at hdim ⊢
      exact hc.indexed hon (by simpa [readBack] using hdim)
  · exact hcold
  · intro p
    have hold := hbatches p
    rw [length_batchesAfter, List.length_append, List.length_singleton]
    split <;> omega
  · rw [hfile, h.unsaved]
  · rw [hconfig]
    exact h.cache
  · rw [hconfig]
    exact h.buckets

/-! ## Opening them again -/

theorem readAll_ok {cold : ColdStore} (h : ∀ p, ∃ rs, cold.readPartition P.codec p = .ok rs) :
    ∀ ps, readAll P cold ps = .ok () := by
  intro ps
  induction ps with
  | nil => rfl
  | cons p ps ih =>
    obtain ⟨rs, hrs⟩ := h p
    rw [readAll, hrs]
    exact ih

/-- A log that is replayed and a cold store that can be read make an engine. -/
theorem reopen_of_replay {s : Engine α β} {log : List WalEntry} {parts : ColdStore.Parts α}
    (hK : P.codec.Lawful)
    (hlog : recover P.wal (openLog P.wal s.config.wal s.wal.disk).disk = .ok log)
    (hholds : s.cold.Holds P.codec parts) (hcache : checkCache s.config.cacheCapacity = .ok ())
    (hbuckets : ∃ b, initBuckets s.config = .ok b) {env : OpenEnv} {hot : HotStore α}
    {index : Option (HnswIndex β)}
    (hreplay : replay P s.config.computer env 0 log (HotStore.new s.config.maxRecords)      
      (initIndex s.config s.indexFile) = some (.ok (hot, index))) :
    ∃ s', s.reopen P env = some (.ok s') ∧ s'.hot = hot ∧ s'.cold.disk = s.cold.disk ∧
      s'.index = index := by
  obtain ⟨writers, hcold⟩ := hholds.openStore hK
  have hread : ∀ p, ∃ rs, (⟨s.cold.disk, writers⟩ : ColdStore).readPartition P.codec p =
    .ok rs := by
    intro p
    obtain ⟨rs, hrs, _⟩ := hholds.readPartition_sub p
    exact ⟨rs, hrs⟩
  obtain ⟨s', hs'⟩ := assemble_ok (openLog P.wal s.config.wal s.wal.disk) hot index s.indexFile
    s.merkleFile (readAll_ok hread (ColdStore.partitions env.coldRank _)) hbuckets
  obtain ⟨_, _, hhot, hcold', hindex, _⟩ := assemble_eq_ok hs'
  refine ⟨s', openEngine_eq_ok.mpr ⟨_, log, _, index, hcold, hcache, hlog, hreplay, hs'⟩, hhot, ?_,
    hindex⟩
  rw [hcold']

/-- Recoverable files can be opened. -/
theorem Recoverable.reopen [LawfulF32 β] {S : Set (List β)} {s : Engine α β} {log : List WalEntry}
    {ds : List (UInt64 × List α × Value α)} {parts : ColdStore.Parts α} (hK : P.codec.Lawful)
    (hS : Comparable s.config.computer S) (h : Recoverable P S s log ds parts) (env : OpenEnv) :
    ∃ s', s.reopen P env = some (.ok s') ∧
      s'.hot = loadAll env 0 ds (HotStore.new s.config.maxRecords) ∧
      s'.cold.disk = s.cold.disk := by
  have hlog := (h.logs.open s.config.wal).recover
  have hindex : ∀ idx ∈ initIndex s.config s.indexFile, idx.Wf ∧ (∀ v ∈ idx.vectors, v ∈ S) ∧
      ∀ d ∈ ds, d.2.1.length = idx.dim → d.2.1.map Narrow.toF32 ∈ S := by
    intro idx hidx
    rw [h.unsaved, initIndex] at hidx
    split at hidx
    · next hon =>
      cases hidx
      exact ⟨HnswIndex.new_wf _ _, by simp [HnswIndex.new], h.indexed hon⟩
    · cases hidx
  obtain ⟨index, hreplay⟩ :=
    replay_some hS env h.decodes 0 (HotStore.new s.config.maxRecords) _ hindex
  obtain ⟨s', hs', hhot, hcold, _⟩ :=
    reopen_of_replay hK hlog h.holds h.cache h.buckets hreplay
  exact ⟨s', hs', hhot, hcold⟩

/-! ## Every run of inserts -/

/-- Inserts into a new engine, whatever they return. -/
def inserts (P : Deps α) : LTS (Engine α β) (Call α) :=
  LTS.ofFn (Fresh P) fun s c => (s.insert P c).map Prod.fst

theorem insert_step {s : Engine α β} {c : Call α} (h : (s.insert P c).isSome = true) :
    (inserts P).step s c ((s.insert P c).get h).1 := by
  show (s.insert P c).map Prod.fst = _
  conv => lhs; rw [← Option.some_get h]
  rfl

theorem recoverable_reachable (hK : P.codec.Lawful) (S : Set (List β)) {s : Engine α β}
    (h : ((inserts P).restrict (Sound P S)).Reachable s) :
    ∃ log ds parts, Recoverable P S s log ds parts := by
  apply LTS.Inductive.reachable (I := fun s => ∃ log ds parts, Recoverable P S s log ds parts) _ s h
  constructor
  · intro s ⟨env, config, hs⟩
    exact ⟨[], [], _, create_recoverable P S hs⟩
  · intro s c s' ⟨log, ds, parts, hr⟩ ⟨hst, hsound⟩
    obtain ⟨⟨s₁, r⟩, hins, rfl⟩ := Option.map_eq_some_iff.mp hst
    exact ⟨_, _, _, (hr.insert hK hsound hins).2⟩

/-- Every entry that was written is accepted, and the directory can be opened. -/
theorem reopens_when [LawfulF32 β] (hK : P.codec.Lawful) (S : Set (List β)) {s : Engine α β}
    (h : ((inserts P).restrict (Sound P S)).Reachable s) (hS : Comparable s.config.computer S) :
    (∃ log, recover P.wal s.wal.disk = .ok log ∧
      (∀ e ∈ log, ∀ createdAt hot, ∃ hot', applyWalEntry P createdAt hot e = .ok hot') ∧
      (∀ e ∈ log, ∀ level, ∀ idx : HnswIndex β, ∀ r,
        replayIndexEntry P s.config.computer level idx e = some r →
        ∃ idx', r = .ok idx')) ∧
    ∀ env, ∃ s', s.reopen P env = some (.ok s') := by
  obtain ⟨log, ds, parts, hr⟩ := recoverable_reachable hK S h
  refine ⟨⟨log, hr.logs.recover, ?_, ?_⟩, ?_⟩
  · intro e he createdAt hot
    obtain ⟨d, hd⟩ := decodes_of_mem hr.decodes he
    exact ⟨_, applyWalEntry_ok hd createdAt hot⟩
  · intro e he level idx r hres
    obtain ⟨d, hd⟩ := decodes_of_mem hr.decodes he
    rw [replayIndexEntry, if_neg (by simp [hd.1]), hd.2] at hres
    obtain ⟨p, _, rfl⟩ := Option.map_eq_some_iff.mp hres
    exact ⟨p.1, rfl⟩
  · intro env
    obtain ⟨s', hs', _⟩ := hr.reopen hK hS env
    exact ⟨s', hs'⟩

/-! ## Small runs -/

/-- A second insert into the engine with an index. -/
def linearTwo : Engine Lit Lit := ((linearOne.insert deps (call 2 [3])).get (by decide +kernel)).1

def fiveThree : Set (List Lit) := { v | v ∈ [[Lit.fin 5], [Lit.fin 3]] }

theorem fiveThree_comparable : Comparable linearTwo.config.computer fiveThree := by
  have h : ∀ u ∈ [[Lit.fin 5], [Lit.fin 3]], ∀ v ∈ [[Lit.fin 5], [Lit.fin 3]],
      F32.isNaN (linearTwo.config.computer.distance u v) = false := by decide +kernel
  exact fun u hu v hv => h u hu v hv

theorem call_sound {s : Engine Lit Lit} {id : UInt64} {n : Int}
    (hfits : (payload deps (call id [n])).length < 2 ^ 32) (hcounter : s.wal.wal.nextTxnId ≠ 0)
    (hfull : ¬ s.hot.full) (hn : [Lit.fin n] ∈ fiveThree) :
    Sound deps fiveThree s (call id [n]) := by
  refine ⟨calm_faultless, hfits, hcounter, ?_, Nat.zero_le _, fun _ _ => hn, fun h =>
    absurd h hfull⟩
  intro x hx
  rw [show (call id [n]).vector = [Lit.fin n] from rfl, List.mem_singleton] at hx
  rw [hx]
  rfl

theorem linearTwo_reachable :
    ((inserts deps).restrict (Sound deps fiveThree)).Reachable linearTwo := by
  have h₁ : (inserts deps).step linear (call 1 [5]) linearOne := insert_step _
  have h₂ : (inserts deps).step linearOne (call 2 [3]) linearTwo := insert_step _
  have hs₁ : Sound deps fiveThree linear (call 1 [5]) :=
    call_sound (by decide +kernel) (by decide +kernel) (by decide +kernel) (by simp [fiveThree])
  have hs₂ : Sound deps fiveThree linearOne (call 2 [3]) :=
    call_sound (by decide +kernel) (by decide +kernel) (by decide +kernel) (by simp [fiveThree])
  exact ⟨linear, _, ⟨calmOpen, _, linear_create⟩,
    .cons ⟨h₁, hs₁⟩ (.cons ⟨h₂, hs₂⟩ (.nil linearTwo))⟩

theorem reopens_two : ∃ s', linearTwo.reopen deps calmOpen = some (.ok s') :=
  (reopens_when plain_lawful fiveThree linearTwo_reachable fiveThree_comparable).2 calmOpen

/-- An engine without an index. -/
def bare : Engine Lit Lit := (opened (small 10 none)).get (by decide +kernel)

def notANumber : Call Lit := ⟨calm, 7, [.nan], .null, .durable⟩

def bareNaN : Engine Lit Lit := ((bare.insert deps notANumber).get (by decide +kernel)).1

/-- The insert returned `Ok` and wrote the NaN as `null`, which is refused. -/
theorem nan_blocks_open :
    bare.insert deps notANumber = some (bareNaN, .ok ()) ∧ (inserts deps).Reachable bareNaN ∧
    ∀ s', bareNaN.reopen deps calmOpen ≠ some (.ok s') := by
  have hstep : (inserts deps).step bare notANumber bareNaN := insert_step _
  have hfresh : Fresh deps bare := ⟨calmOpen, _, create_of_opened (by rw [bare, Option.some_get])⟩
  refine ⟨?_, ⟨bare, _, hfresh, .cons hstep (.nil bareNaN)⟩, ?_⟩
  · exact insert_of_get _ (by decide +kernel)
  · intro s' hs
    have hfail : (bareNaN.reopen deps calmOpen).map (fun r => r.isOk) = some false := by
      decide +kernel
    rw [hs] at hfail
    cases hfail

end Tesseract.L4.Engine
