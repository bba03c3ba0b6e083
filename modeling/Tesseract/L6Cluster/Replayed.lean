import Tesseract.Core.Redelivery
import Tesseract.L6Cluster.Api

/-!
# What the log makes of a follower

A follower that is sent the entries of the log, applied once and in order, gets the hot
store `replayed`. Its rows are compared without their instants of creation: these are the
follower's own.

* `rows_insert`, `rows_applyReplicatedEntry`: an insert, and an entry, seen through the rows.
* `settles_addEntry`: an entry that comes again changes nothing, also in a full store.
* `rows_handleReplicate`: a batch takes the hot store through some of its first entries, all
  of them if it is acknowledged.
-/
namespace Tesseract.L6

open Redelivery L1.Wal L3 L3.Serde L4

variable {α β : Type} [F64 α] [F32 β] [Narrow α β]

/-! ## What the log makes of a hot store -/

abbrev Row (α : Type) [F64 α] := UInt64 × List α × Value α

/-- The rows of a hot store, in order of arrival. -/
def rows (hot : HotStore α) : List (Row α) := hot.vectors.map toRow

/-- A full store refuses a row, and so does one that has the id. -/
def addRow (maxRecords : UInt64) (rs : List (Row α)) (row : Row α) : List (Row α) :=
  if (maxRecords ≠ 0 ∧ maxRecords.toNat ≤ rs.length) ∨ row.1 ∈ rs.map Prod.fst then rs
  else rs ++ [row]

/-- Only inserts that can be read add a row. -/
def addEntry (P : Deps α) (maxRecords : UInt64) (rs : List (Row α)) (e : ReplicationEntry) :
    List (Row α) :=
  if e.opCode ≠ insertVector then rs
  else match rowOf P e with
    | none => rs
    | some row => addRow maxRecords rs row

/-- The hot store that the entries of `log` make, one after the other. -/
def replayed (P : Deps α) (maxRecords : UInt64) (log : List ReplicationEntry) : List (Row α) :=
  log.foldl (addEntry P maxRecords) []

theorem rows_insert (hot : HotStore α) (r : VectorRecord α) :
    rows (hot.insert r).1 = addRow hot.maxRecords (rows hot) (toRow r) ∧
      (hot.insert r).1.maxRecords = hot.maxRecords := by
  have hids : (rows hot).map Prod.fst = hot.vectors.map VectorRecord.id := by
    rw [rows, List.map_map]
    rfl
  have hfull : (hot.maxRecords ≠ 0 ∧ hot.maxRecords.toNat ≤ (rows hot).length) ↔ hot.full := by
    rw [rows, List.length_map, HotStore.full]
  have hknown : (toRow r).1 ∈ (rows hot).map Prod.fst ↔ hot.get r.id ≠ none := by
    rw [hids, ne_eq, HotStore.get_eq_none, not_not]
    rfl
  rw [addRow]
  rcases hot.insert_cases r with ⟨hf, heq⟩ | ⟨-, hget, heq⟩ | ⟨hf, hget, -, hmax, hvec⟩
  · rw [if_pos (.inl (hfull.mpr hf)), heq]
    exact ⟨rfl, rfl⟩
  · rw [if_pos (.inr (hknown.mpr hget)), heq]
    exact ⟨rfl, rfl⟩
  · rw [if_neg fun h => h.elim (fun h => hf (hfull.mp h)) fun h => hknown.mp h hget]
    refine ⟨?_, hmax⟩
    rw [rows, hvec, List.map_append]
    rfl

/-- A row that has been applied is there, or the store is full. -/
theorem settles_addEntry (P : Deps α) (maxRecords : UInt64) (rs : List (Row α)) :
    Settles (addEntry P maxRecords) rs := by
  let Done : List (Row α) → ReplicationEntry → Prop := fun rs e =>
    e.opCode = insertVector → ∀ row, rowOf P e = some row →
      (maxRecords ≠ 0 ∧ maxRecords.toNat ≤ rs.length) ∨ row.1 ∈ rs.map Prod.fst
  have hgrow : ∀ rs e, ∃ new, addEntry P maxRecords rs e = rs ++ new := by
    intro rs e
    unfold addEntry
    split
    · exact ⟨[], by simp⟩
    · split
      · exact ⟨[], by simp⟩
      · unfold addRow
        split
        · exact ⟨[], by simp⟩
        · exact ⟨_, rfl⟩
  refine Settles.of_done Done ?_ ?_ ?_ rs
  · intro rs e hop row hrow
    have hadd : addEntry P maxRecords rs e = addRow maxRecords rs row := by
      rw [addEntry, if_neg (not_not.mpr hop), hrow]
    rw [hadd, addRow]
    split
    · next h => exact h
    · exact .inr (by simp)
  · intro rs e e' hdone hop row hrow
    obtain ⟨new, hnew⟩ := hgrow rs e'
    rw [hnew]
    rcases hdone hop row hrow with ⟨hne, hfull⟩ | hmem
    · exact .inl ⟨hne, by rw [List.length_append]; omega⟩
    · exact .inr (by rw [List.map_append]; exact List.mem_append_left _ hmem)
  · intro rs e hdone
    unfold addEntry
    split
    · rfl
    · next hop =>
      split
      · rfl
      · next row hrow =>
        rw [addRow, if_pos (hdone (not_not.mp hop) row hrow)]

/-! ## A batch at a follower -/

variable {P : Deps α}

theorem rows_applyWalEntry {createdAt : UInt64} {hot hot' : HotStore α} {e : ReplicationEntry}
    (h : Engine.applyWalEntry P createdAt hot e.toWalEntry = .ok hot') :
    rows hot' = addEntry P hot.maxRecords (rows hot) e ∧ hot'.maxRecords = hot.maxRecords := by
  unfold Engine.applyWalEntry at h
  split at h
  · next hop =>
    cases h
    have hskip : e.opCode ≠ insertVector := hop
    rw [addEntry, if_pos hskip]
    exact ⟨rfl, rfl⟩
  · next hop =>
    have hinsert : ¬ e.opCode ≠ insertVector := hop
    split at h
    · cases h
    · next hdecode =>
      cases h
      have hrow : rowOf P e = some _ := hdecode
      rw [addEntry, if_neg hinsert, hrow]
      exact rows_insert hot _

theorem addEntry_of_error {createdAt : UInt64} {hot : HotStore α} {e : ReplicationEntry}
    {x : Error} (h : Engine.applyWalEntry P createdAt hot e.toWalEntry = .error x)
    (maxRecords : UInt64) (rs : List (Row α)) : addEntry P maxRecords rs e = rs := by
  unfold Engine.applyWalEntry at h
  split at h
  · cases h
  · next hop =>
    have hinsert : ¬ e.opCode ≠ insertVector := hop
    split at h
    · next hdecode =>
      have hrow : rowOf P e = none := hdecode
      rw [addEntry, if_neg hinsert, hrow]
    · cases h

theorem rows_applyReplicatedEntry {createdAt : UInt64} {level : Nat} {s s' : Engine α β}
    {e : ReplicationEntry} {r : Result Unit}
    (h : s.applyReplicatedEntry P createdAt level e.toWalEntry = some (s', r)) :
    rows s'.hot = addEntry P s.hot.maxRecords (rows s.hot) e ∧
      s'.hot.maxRecords = s.hot.maxRecords := by
  unfold Engine.applyReplicatedEntry at h
  split at h
  · next happly =>
    cases h
    rw [addEntry_of_error happly]
    exact ⟨rfl, rfl⟩
  · next happly =>
    -- whatever the index makes of the entry, the hot store is what `apply_wal_entry` left
    have hrows := rows_applyWalEntry happly
    split at h
    · cases h
    · cases h
      exact hrows
    · cases h
      exact hrows

theorem rows_replicateLoop {env : OpenEnv} {n : Nat} {batch : List ReplicationEntry}
    {s s' : Engine α β} {acked : UInt64} {r : Result UInt64}
    (h : replicateLoop P env n batch s acked = some (s', r)) :
    ∃ k ≤ batch.length, s'.hot.maxRecords = s.hot.maxRecords ∧
      rows s'.hot = (batch.take k).foldl (addEntry P s.hot.maxRecords) (rows s.hot) ∧
      ∀ last, r = .ok last → k = batch.length ∧ last = (lastTxnId batch).getD acked := by
  induction batch generalizing n s acked with
  | nil =>
    cases h
    exact ⟨0, Nat.le_refl 0, rfl, rfl, fun last hr => ⟨rfl, (Except.ok.inj hr).symm⟩⟩
  | cons e rest ih =>
    unfold replicateLoop at h
    cases happly : s.applyReplicatedEntry P (env.createdAt n) (env.level n) e.toWalEntry with
    | none => simp [happly] at h
    | some p =>
      obtain ⟨s₁, r₁⟩ := p
      obtain ⟨hrows, hmax⟩ := rows_applyReplicatedEntry happly
      cases r₁ with
      | error x =>
        simp only [happly] at h
        cases h
        exact ⟨1, by simp, hmax, by simpa using hrows, fun last hr => by cases hr⟩
      | ok u =>
        simp only [happly] at h
        obtain ⟨k, hk, hmax', hrows', hlast⟩ := ih h
        refine ⟨k + 1, by simpa using hk, hmax'.trans hmax, ?_, fun last hr => ?_⟩
        · rw [hrows', hmax, hrows]
          rfl
        · obtain ⟨hk', hl⟩ := hlast last hr
          refine ⟨by rw [hk', List.length_cons], ?_⟩
          rw [hl, lastTxnId, lastTxnId, List.getLast?_cons]
          cases rest.getLast? <;> rfl

/-- What the handler leaves, and what it answers. -/
theorem rows_handleReplicate {env : OpenEnv} {batch : List ReplicationEntry}
    {s : Engine α β} {s' : Option (Engine α β)} {status : Nat} {resp : ReplicationResponse}
    (h : ClusterApiState.internalReplicateHandler P env batch (some s) =
      some (s', status, resp)) :
    ∃ out, s' = some out ∧ ∃ k ≤ batch.length, out.hot.maxRecords = s.hot.maxRecords ∧
      rows out.hot = (batch.take k).foldl (addEntry P s.hot.maxRecords) (rows s.hot) ∧
      (resp.success = true → k = batch.length ∧
        resp.lastAckedTxnId = (lastTxnId batch).getD 0) ∧
      (resp.success = false → resp.lastAckedTxnId = 0) := by
  unfold ClusterApiState.internalReplicateHandler handleReplicate at h
  obtain ⟨⟨out, r⟩, hrun, heq⟩ := Option.map_eq_some_iff.mp h
  obtain ⟨⟨out', r'⟩, hloop, heq'⟩ := Option.map_eq_some_iff.mp hrun
  obtain ⟨k, hk, hmax, hrows, hlast⟩ := rows_replicateLoop hloop
  cases heq'
  cases r' with
  | ok last =>
    cases heq
    obtain ⟨hk', hl⟩ := hlast last rfl
    exact ⟨out', rfl, k, hk, hmax, hrows, fun _ => ⟨hk', hl⟩, fun hf => by cases hf⟩
  | error x =>
    cases heq
    exact ⟨out', rfl, k, hk, hmax, hrows, fun ht => (by cases ht), fun _ => rfl⟩

end Tesseract.L6
