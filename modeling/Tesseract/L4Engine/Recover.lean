import Tesseract.L4Engine.Restart

/-!
# Recovery of a running engine

`recover` replays the log into an engine that has already applied it
(`tesseract-storage/src/engine.rs:462-480`). A record that the hot store has moved to the
cold one has no place there any more, and comes back.

* `recoverLoop_of_replay`: the loop is the one of `open`, from where the engine stands.
* `loadAll_adds`: a replay only adds records to the hot store, of ids that it lacks.
* `loadAll_done`: it adds none that it has added before.
* `recover_live`: so recovery brings back what has gone as long as there is room, leaves
  everything else as it is, and has nothing left to do when it comes again.
-/
namespace Tesseract.L4.Engine

open L1.Wal L2.Log L3 L3.Serde L3.HnswIndex

variable {α β : Type} [F64 α] [F32 β] [Narrow α β] {P : Deps α}

/-- An entry is applied as one that was replicated.
mirrors tesseract-storage/src/engine.rs:465-474 -/
def recoverLoop (P : Deps α) (env : OpenEnv) :
    Nat → List WalEntry → Engine α β → Option (Engine α β × Result Unit)
  | _, [], s => some (s, .ok ())
  | n, entry :: rest, s =>
    match s.applyReplicatedEntry P (env.createdAt n) (env.level n) entry with
    | none => none
    | some (s, .error e) => some (s, .error e)
    | some (s, .ok ()) => recoverLoop P env (n + 1) rest s

/-- mirrors tesseract-storage/src/engine.rs:462-477 -/
def recoverEngine (P : Deps α) (env : OpenEnv) (s : Engine α β) :
    Option (Engine α β × Result Nat) :=
  match recover P.wal s.wal.disk with
  | .error e => some (s, .error e)
  | .ok entries =>
    (recoverLoop P env 0 entries s).map fun p => (p.1, p.2.map fun _ => entries.length)

theorem recoverLoop_of_replay {env : OpenEnv} {log : List WalEntry} {hot : HotStore α}
    {index : Option (HnswIndex β)} : ∀ {n : Nat} {s : Engine α β},
    replay P s.config.computer env n log s.hot s.index = some (.ok (hot, index)) →
    recoverLoop P env n log s = some ({ s with hot := hot, index := index }, .ok ()) := by
  induction log with
  | nil =>
    intro n s h
    obtain ⟨rfl, rfl⟩ := Prod.mk.inj (Except.ok.inj (Option.some.inj h))
    rfl
  | cons e log ih =>
    intro n s h
    unfold replay at h
    cases happly : applyWalEntry P (env.createdAt n) s.hot e with
    | error x => simp [happly] at h
    | ok hot₁ =>
      simp only [happly] at h
      cases hindex : replayIndex P s.config.computer (env.level n) s.index e with
      | none => simp [hindex] at h
      | some r =>
        cases r with
        | error x => simp [hindex] at h
        | ok index₁ =>
          simp only [hindex] at h
          have hstep : s.applyReplicatedEntry P (env.createdAt n) (env.level n) e =
              some ({ s with hot := hot₁, index := index₁ }, .ok ()) := by
            simp only [applyReplicatedEntry, happly, hindex]
          unfold recoverLoop
          rw [hstep]
          exact ih (s := { s with hot := hot₁, index := index₁ }) h

/-! ## The hot store -/

/-- The replay of the entry changes nothing. -/
def Done (hot : HotStore α) (d : UInt64 × List α × Value α) : Prop :=
  hot.full ∨ hot.get d.1 ≠ none

theorem insert_done {hot : HotStore α} {d : UInt64 × List α × Value α} (h : Done hot d)
    (createdAt : UInt64) : (hot.insert ⟨d.1, d.2.1, d.2.2, createdAt, 0⟩).1 = hot := by
  rcases hot.insert_cases ⟨d.1, d.2.1, d.2.2, createdAt, 0⟩ with
    ⟨-, heq⟩ | ⟨-, -, heq⟩ | ⟨hfull, hget, -⟩
  · rw [heq]
  · rw [heq]
  · exact absurd h (by simp [Done, hfull, hget])

theorem loadAll_done (env : OpenEnv) {ds : List (UInt64 × List α × Value α)} :
    ∀ {hot : HotStore α} (n : Nat), (∀ d ∈ ds, Done hot d) → loadAll env n ds hot = hot := by
  induction ds with
  | nil => exact fun _ _ => rfl
  | cons d ds ih =>
    intro hot n h
    have hone := insert_done (h d List.mem_cons_self) (env.createdAt n)
    rw [loadAll, hone]
    exact ih (n + 1) fun d hd => h d (List.mem_cons_of_mem _ hd)

theorem get_none_of_append {hot hot' : HotStore α} {new : List (VectorRecord α)}
    (h : hot'.vectors = hot.vectors ++ new) {id : UInt64} (hget : hot'.get id = none) :
    hot.get id = none := by
  rw [HotStore.get_eq_none] at hget ⊢
  rw [h, List.map_append, List.mem_append, not_or] at hget
  exact hget.1

theorem Done.grow {hot hot' : HotStore α} {new : List (VectorRecord α)}
    {d : UInt64 × List α × Value α} (h : Done hot d) (hvec : hot'.vectors = hot.vectors ++ new)
    (hmax : hot'.maxRecords = hot.maxRecords) : Done hot' d := by
  rcases h with ⟨hne, hle⟩ | hget
  · left
    rw [HotStore.full, hmax, hvec, List.length_append]
    exact ⟨hne, by omega⟩
  · exact .inr fun hnone => hget (get_none_of_append hvec hnone)

/-- A replay adds records of ids that the store lacks, and leaves no entry to be applied. -/
theorem loadAll_adds (env : OpenEnv) (ds : List (UInt64 × List α × Value α)) :
    ∀ (n : Nat) (hot : HotStore α), ∃ new,
      (loadAll env n ds hot).vectors = hot.vectors ++ new ∧
      (loadAll env n ds hot).maxRecords = hot.maxRecords ∧
      (∀ r ∈ new, hot.get r.id = none ∧ (r.id, r.vector, r.metadata) ∈ ds) ∧
      ∀ d ∈ ds, Done (loadAll env n ds hot) d := by
  induction ds with
  | nil => exact fun n hot => ⟨[], by simp [loadAll], rfl, by simp, by simp⟩
  | cons d ds ih =>
    intro n hot
    obtain ⟨new, hvec, hmax, hnew, hdone⟩ :=
      ih (n + 1) (hot.insert ⟨d.1, d.2.1, d.2.2, env.createdAt n, 0⟩).1
    rw [loadAll]
    by_cases hd : Done hot d
    · rw [insert_done hd] at hvec hmax hnew hdone ⊢
      refine ⟨new, hvec, hmax, fun r hr => ?_, fun d' hd' => ?_⟩
      · exact ⟨(hnew r hr).1, List.mem_cons_of_mem _ (hnew r hr).2⟩
      · rcases List.mem_cons.mp hd' with rfl | hd'
        · exact hd.grow hvec hmax
        · exact hdone d' hd'
    · simp only [Done, not_or, not_not] at hd
      rcases hot.insert_cases ⟨d.1, d.2.1, d.2.2, env.createdAt n, 0⟩ with
        ⟨hfull, -⟩ | ⟨-, hget, -⟩ | ⟨-, -, -, hmax₁, hvec₁⟩
      · exact absurd hfull hd.1
      · exact absurd hd.2 hget
      · have hall : (loadAll env (n + 1) ds
            (hot.insert ⟨d.1, d.2.1, d.2.2, env.createdAt n, 0⟩).1).vectors =
            hot.vectors ++ (⟨d.1, d.2.1, d.2.2, env.createdAt n, 0⟩ :: new) := by
          rw [hvec, hvec₁, List.append_assoc, List.singleton_append]
        refine ⟨_, hall, hmax.trans hmax₁, fun r hr => ?_, fun d' hd' => ?_⟩
        · rcases List.mem_cons.mp hr with rfl | hr
          · exact ⟨hd.2, List.mem_cons_self⟩
          · exact ⟨get_none_of_append hvec₁ (hnew r hr).1, List.mem_cons_of_mem _ (hnew r hr).2⟩
        · rcases List.mem_cons.mp hd' with rfl | hd'
          · -- it has just been added
            refine .inr fun hnone => ?_
            rw [HotStore.get_eq_none, hall] at hnone
            exact hnone (by simp)
          · exact hdone d' hd'

/-! ## The running engine -/

/-- The index takes no entry that it has not seen. -/
theorem replay_live (env : OpenEnv) {config : StorageConfig α} {cs : List (Call α)}
    {index : Option (HnswIndex β)} (h : Indexes config cs index) {log : List WalEntry}
    (hdecodes : List.Forall₂ (Decodes P) log (cs.map (readBack P)))
    (hcs : ∀ c ∈ cs, RoundTrips P c) (D : DistanceComputer β) (hot : HotStore α) :
    replay P D env 0 log hot index =
      some (.ok (loadAll env 0 (cs.map (readBack P)) hot, index)) := by
  have hread : (vectorsOf (cs.map (readBack P)) : List (UInt64 × List β)) = indexedBy cs := by
    rw [vectorsOf, indexedBy, List.map_map]
    refine List.map_congr_left fun c hc => ?_
    simp only [Function.comp, readBack, (hcs c hc).vector]
  rcases h with ⟨-, rfl⟩ | ⟨-, idx, rfl, hsettled, -, hdims⟩
  · exact replay_none env hdecodes 0 hot
  · rw [replay_known env hdecodes 0 hot idx hsettled.aligned, hread, hsettled.fixed]
    intro d hd
    obtain ⟨c, hc, rfl⟩ := List.mem_map.mp hd
    refine ⟨hsettled.known (c.id, c.vector.map Narrow.toF32) (List.mem_map_of_mem hc), ?_⟩
    rw [readBack, List.length_map]
    exact hdims c hc

/-- Behind a run of accepted inserts a recovery reports them all. It adds to the hot store
records of inserts that are gone from there, until it is full or has every id again, and does
not touch the index, the log and the cold store. A second one changes nothing at all. -/
theorem recover_live (hK : P.codec.Lawful) {env : OpenEnv} {config : StorageConfig α}
    {s₀ s : Engine α β} {cs : List (Call α)} (h₀ : create P env config = some (.ok s₀))
    (hrun : (accepting P).Run s₀ cs s)
    (hcs : ∀ c ∈ cs, c.env.Faultless ∧ RoundTrips P c ∧ (payload P c).length < 2 ^ 32)
    (hlen : cs.length < 2 ^ 64) (env₁ env₂ : OpenEnv) :
    ∃ hot new, s.recoverEngine P env₁ = some ({ s with hot := hot }, .ok cs.length) ∧
      hot.vectors = s.hot.vectors ++ new ∧
      (∀ r ∈ new, s.hot.get r.id = none ∧
        ∃ c ∈ cs, r.id = c.id ∧ r.vector = c.vector ∧ r.metadata = c.metadata) ∧
      (hot.full ∨ ∀ c ∈ cs, hot.get c.id ≠ none) ∧
      ({ s with hot := hot } : Engine α β).recoverEngine P env₂ =
        some ({ s with hot := hot }, .ok cs.length) := by
  obtain ⟨parts, hkept⟩ := kept_run (S := Set.univ) hK h₀ hrun hcs
    (fun _ _ _ => Set.mem_univ _) hlen
  obtain ⟨log, hfiles⟩ := hkept.files
  have hindexes := indexes_run h₀ hrun fun c hc => (hcs c hc).1
  have hcount : log.length = cs.length := by
    rw [hfiles.decodes.length_eq, List.length_map]
  have hrecover : ∀ (env : OpenEnv) (hot : HotStore α),
      ({ s with hot := hot } : Engine α β).recoverEngine P env =
        some ({ s with hot := loadAll env 0 (cs.map (readBack P)) hot }, .ok cs.length) := by
    intro env hot
    have hloop := recoverLoop_of_replay (s := { s with hot := hot }) (replay_live env
      hindexes hfiles.decodes (fun c hc => (hcs c hc).2.1) s.config.computer hot)
    simp only [recoverEngine, hfiles.logs.recover, hloop, Option.map_some, hcount]
    rfl
  obtain ⟨new, hvec, -, hnew, hdone⟩ := loadAll_adds env₁ (cs.map (readBack P)) 0 s.hot
  refine ⟨loadAll env₁ 0 (cs.map (readBack P)) s.hot, new, hrecover env₁ s.hot, hvec, ?_, ?_, ?_⟩
  · intro r hr
    obtain ⟨hgone, hmem⟩ := hnew r hr
    obtain ⟨c, hc, heq⟩ := List.mem_map.mp hmem
    rw [readBack, (hcs c hc).2.1.vector, (hcs c hc).2.1.metadata] at heq
    obtain ⟨hid, hvector, hmetadata⟩ : c.id = r.id ∧ c.vector = r.vector ∧
      c.metadata = r.metadata := by simpa using heq
    exact ⟨hgone, c, hc, hid.symm, hvector.symm, hmetadata.symm⟩
  · by_cases hfull : (loadAll env₁ 0 (cs.map (readBack P)) s.hot).full
    · exact .inl hfull
    · exact .inr fun c hc => (hdone (readBack P c) (List.mem_map_of_mem hc)).resolve_left hfull
  · rw [hrecover env₂, loadAll_done env₂ 0 hdone]

theorem recover_live_two : ∃ hot new,
    linearTwo.recoverEngine deps calmOpen = some ({ linearTwo with hot := hot }, .ok 2) ∧
      hot.vectors = linearTwo.hot.vectors ++ new ∧
      ({ linearTwo with hot := hot } : Engine Lit Lit).recoverEngine deps calmOpen =
        some ({ linearTwo with hot := hot }, .ok 2) := by
  have hcs : ∀ c ∈ [call 1 [5], call 2 [3]],
      c.env.Faultless ∧ RoundTrips deps c ∧ (payload deps c).length < 2 ^ 32 := by
    intro c hc
    rcases List.mem_cons.mp hc with rfl | hc
    · exact ⟨calm_faultless, call_roundTrips 1 5, by decide +kernel⟩
    · rw [List.mem_singleton.mp hc]
      exact ⟨calm_faultless, call_roundTrips 2 3, by decide +kernel⟩
  obtain ⟨hot, new, hfirst, hvec, -, -, hsecond⟩ :=
    recover_live plain_lawful linear_create linearTwo_run hcs (by decide) calmOpen calmOpen
  exact ⟨hot, new, hfirst, hvec, hsecond⟩

end Tesseract.L4.Engine
