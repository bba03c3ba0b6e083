import Tesseract.L2Wal.AppendLog
import Tesseract.L3Index.HnswRewire
import Tesseract.L3Store.JsonText
import Tesseract.L4Engine.Engine

/-!
# What an `insert` does

The stages of `insert` change disjoint parts of the engine: log, trackers, hot
and cold store, index, hot buffer. `insert_stages` takes a returning call apart,
`insert_inv` one whose entry is written; `Logs` is the log as a list of entries.

* `storeRecord_cases`: the record is stored, taken for stored because its id is
  there, or comes in behind an eviction.
* `insert_ok_iff`: a call without a failing write is accepted exactly when the
  index takes the length and an eviction does not leave the id behind.
* `insert_logs`: every call that returns has added its entry to the log, accepted
  or not.
-/
namespace Tesseract.L4

open L1.Wal L2.Log L3 L3.Serde

/-- No write of the call fails. -/
def Env.Faultless (env : Env) : Prop := env.walFault = .none ∧ env.coldFault = .none

namespace Engine

variable {α β : Type} [F64 α] {P : Deps α}

/-! ## The stages -/

theorem append_none_ok (C : Crates) (w : Session) (entry : WalEntry) (mode : WriteMode) :
    (append C .none w entry mode).2 = .ok w.wal.nextTxnId := by
  have hok := writeLocked_none (s := w) ((stamped w.wal entry).toBytes C.crc) mode
  rw [append]
  generalize writeLocked .none w ((stamped w.wal entry).toBytes C.crc) mode = res at hok ⊢
  obtain ⟨d, seg, r⟩ := res
  obtain rfl : r = .ok () := hok
  rfl

/-- The entry an `insert` hands to the log. -/
def entryOf (P : Deps α) (c : Call α) : WalEntry := ⟨0, insertVector, payload P c⟩

theorem appendEntry_none {s : Engine α β} {c : Call α} (h : c.env.walFault = .none) :
    s.appendEntry P c = ({ s with wal := (append P.wal .none s.wal (entryOf P c) c.mode).1 },
      .ok ()) := by
  have hok := append_none_ok P.wal s.wal (entryOf P c) c.mode
  have happend : append P.wal .none s.wal ⟨0, insertVector, payload P c⟩ c.mode =
      ((append P.wal .none s.wal (entryOf P c) c.mode).1, .ok s.wal.wal.nextTxnId) :=
    Prod.ext rfl hok
  rw [appendEntry, h, happend]
  rfl

/-- Trackers and Merkle tier apart, the two engines are the same. -/
structure Apart (s s' : Engine α β) : Prop where
  config : s'.config = s.config
  wal : s'.wal = s.wal
  hot : s'.hot = s.hot
  cold : s'.cold = s.cold
  index : s'.index = s.index
  indexFile : s'.indexFile = s.indexFile

theorem updateTrackers_apart {s s' : Engine α β} {v : List α} {m : Value α}
    (h : s.updateTrackers v m = some s') :
    Apart s s' := by
  unfold updateTrackers at h
  simp only [Option.bind_eq_bind, Option.bind_eq_some_iff, Option.some.injEq] at h
  obtain ⟨_, _, _, _, rfl⟩ := h
  exact ⟨rfl, rfl, rfl, rfl, rfl, rfl⟩

variable [F32 β]

theorem mergeBuffer_apart {s s' : Engine α β} {b : HotBuffer β (Value α)}
    (h : s.mergeBuffer P b = some s') :
    Apart s s' := by
  unfold mergeBuffer at h
  dsimp only at h
  split at h
  · cases h
    exact ⟨rfl, rfl, rfl, rfl, rfl, rfl⟩
  · simp only [Option.bind_eq_bind, Option.bind_eq_some_iff, Option.some.injEq] at h
    obtain ⟨_, _, rfl⟩ := h
    exact ⟨rfl, rfl, rfl, rfl, rfl, rfl⟩

/-- A shutdown that returns saves the index, and changes neither the log nor the
cold store. -/
theorem shutdown_inv {s s₁ : Engine α β} {r : Result Unit} (h : s.shutdown P = some (s₁, r)) :
    r = .ok () ∧ s₁.config = s.config ∧ s₁.wal = (flush false s.wal).1 ∧ s₁.cold = s.cold ∧
      s₁.index = s.index ∧ s₁.indexFile = s.index.or s.indexFile := by
  have hmerged : ∃ s₂, Apart { s with indexFile := s.index.or s.indexFile } s₂ ∧
      some ({ s₂ with wal := (flush false s₂.wal).1 }, (flush false s₂.wal).2) = some (s₁, r) := by
    unfold shutdown at h
    dsimp only at h
    split at h
    · exact ⟨_, ⟨rfl, rfl, rfl, rfl, rfl, rfl⟩, h⟩
    · split at h
      · exact ⟨_, ⟨rfl, rfl, rfl, rfl, rfl, rfl⟩, h⟩
      · obtain ⟨s₂, hmerge, h⟩ := Option.bind_eq_some_iff.mp h
        exact ⟨s₂, mergeBuffer_apart hmerge, h⟩
  obtain ⟨s₂, hapart, h⟩ := hmerged
  simp only [Option.some.injEq, Prod.mk.injEq] at h
  obtain ⟨rfl, rfl⟩ := h
  exact ⟨rfl, hapart.config, by rw [hapart.wal], hapart.cold, hapart.index, hapart.indexFile⟩

variable [Narrow α β]

theorem bufferVector_apart {s s' : Engine α β} {id : UInt64} {v : List α} {m : Value α}
    (h : s.bufferVector P id v m = some s') : Apart s s' := by
  unfold bufferVector at h
  split at h
  · cases h
    exact ⟨rfl, rfl, rfl, rfl, rfl, rfl⟩
  · split at h
    · exact mergeBuffer_apart h
    · cases h
      exact ⟨rfl, rfl, rfl, rfl, rfl, rfl⟩

/-- What the index stage does: nothing without an index, else an insert. -/
def Indexed (s s' : Engine α β) (c : Call α) (r : Result Unit) : Prop :=
  (s.index = none ∧ s'.index = none ∧ r = .ok ()) ∨
  ∃ idx idx', s.index = some idx ∧ s'.index = some idx' ∧
    idx.insert s.config.computer c.env.level c.id c.vector = some (idx', r)

theorem insertIndex_indexed {s s' : Engine α β} {c : Call α} {r : Result Unit}
    (h : s.insertIndex c.env c.id c.vector = some (s', r)) :
    s'.config = s.config ∧ s'.wal = s.wal ∧ s'.hot = s.hot ∧ s'.cold = s.cold ∧
      s'.indexFile = s.indexFile ∧
      Indexed s s' c r := by
  unfold insertIndex at h
  split at h
  · next hnone =>
    cases h
    exact ⟨rfl, rfl, rfl, rfl, rfl, .inl ⟨hnone, hnone, rfl⟩⟩
  · next idx hsome =>
    simp only [Option.bind_eq_bind, Option.bind_eq_some_iff, Option.some.injEq, Prod.exists,
      Prod.mk.injEq] at h
    obtain ⟨idx', r', hins, rfl, rfl⟩ := h
    exact ⟨rfl, rfl, rfl, rfl, rfl, .inr ⟨idx, idx', hsome, rfl, hins⟩⟩

/-- The stages behind the stores: the index, then the hot buffer. -/
def indexAndBuffer (P : Deps α) (s : Engine α β) (c : Call α) : Option (Engine α β × Result Unit) :=
  do match ← s.insertIndex c.env c.id c.vector with
    | (s, .error x) => some (s, .error x)
    | (s, .ok ()) => do
      let s ← s.bufferVector P c.id c.vector c.metadata
      some (s, .ok ())

theorem indexAndBuffer_indexed {s s' : Engine α β} {c : Call α} {r : Result Unit}
    (h : s.indexAndBuffer P c = some (s', r)) :
    s'.config = s.config ∧ s'.wal = s.wal ∧ s'.hot = s.hot ∧ s'.cold = s.cold ∧
      s'.indexFile = s.indexFile ∧ Indexed s s' c r := by
  unfold indexAndBuffer at h
  simp only [Option.bind_eq_bind, Option.bind_eq_some_iff] at h
  obtain ⟨⟨s₁, r₁⟩, hindex, h⟩ := h
  obtain ⟨hcfg, hwal, hhot, hcold, hfile, hindexed⟩ := insertIndex_indexed hindex
  split at h
  · next s₂ x heq =>
    cases heq
    cases h
    exact ⟨hcfg, hwal, hhot, hcold, hfile, hindexed⟩
  · next s₂ heq =>
    cases heq
    simp only [Option.bind_eq_some_iff, Option.some.injEq, Prod.mk.injEq] at h
    obtain ⟨s₃, hbuf, rfl, rfl⟩ := h
    have h₃ := bufferVector_apart hbuf
    refine ⟨h₃.config.trans hcfg, h₃.wal.trans hwal, h₃.hot.trans hhot, h₃.cold.trans hcold,
      h₃.indexFile.trans hfile, ?_⟩
    unfold Indexed at hindexed ⊢
    rw [h₃.index]
    exact hindexed

/-- A returning call, taken apart: the entry is not written, or the call went as far
as the first later stage that failed. -/
theorem insert_stages {s s' : Engine α β} {c : Call α} {r : Result Unit}
    (h : s.insert P c = some (s', r)) :
    (∃ x, (s.appendEntry P c).2 = .error x ∧ s' = (s.appendEntry P c).1 ∧ r = .error x) ∨
    ∃ rh, (s.appendEntry P c).2 = .ok () ∧
      storeRecord P c.env s.hot s.cold (record c) = (s'.hot, s'.cold, rh) ∧
      s'.config = s.config ∧ s'.wal = (s.appendEntry P c).1.wal ∧ s'.indexFile = s.indexFile ∧
      ((∃ x, rh = .error x ∧ r = .error x ∧ s'.index = s.index) ∨
        (rh = .ok () ∧ Indexed s s' c r)) := by
  unfold insert at h
  -- an append changes the log only
  have happend : (s.appendEntry P c).1 = { s with wal := (s.appendEntry P c).1.wal } := rfl
  generalize s.appendEntry P c = p at h happend
  obtain ⟨s₀, r₀⟩ := p
  cases r₀ with
  | error x =>
    cases h
    exact .inl ⟨x, rfl, rfl, rfl⟩
  | ok u =>
    have hsame : s₀.hot = s.hot ∧ s₀.cold = s.cold ∧ s₀.config = s.config ∧
        s₀.index = s.index ∧ s₀.indexFile = s.indexFile := by
      rw [show s₀ = { s with wal := s₀.wal } from happend]
      exact ⟨rfl, rfl, rfl, rfl, rfl⟩
    obtain ⟨hhot, hcold, hcfg, hindex, hfile⟩ := hsame
    simp only [Option.bind_eq_bind, Option.bind_eq_some_iff] at h
    obtain ⟨s₁, htrack, h⟩ := h
    have h₁ := updateTrackers_apart htrack
    rw [h₁.hot, h₁.cold, hhot, hcold] at h
    refine .inr ?_
    split at h
    · next hot cold x hstore =>
      cases h
      exact ⟨.error x, rfl, hstore, h₁.config.trans hcfg, h₁.wal, h₁.indexFile.trans hfile,
        .inl ⟨x, rfl, rfl, h₁.index.trans hindex⟩⟩
    · next hot cold hstore =>
      change indexAndBuffer P { s₁ with hot := hot, cold := cold } c = some (s', r) at h
      obtain ⟨hcfg₂, hwal₂, hhot₂, hcold₂, hfile₂, hindexed⟩ := indexAndBuffer_indexed h
      refine ⟨.ok (), rfl, by rw [hhot₂, hcold₂]; exact hstore, hcfg₂.trans (h₁.config.trans hcfg),
        hwal₂.trans h₁.wal, hfile₂.trans (h₁.indexFile.trans hfile), .inr ⟨rfl, ?_⟩⟩
      unfold Indexed at hindexed ⊢
      simp only [h₁.index, h₁.config, hindex, hcfg] at hindexed
      exact hindexed

/-- Where no write of the log fails, the entry is in the log. -/
theorem insert_inv {s s' : Engine α β} {c : Call α} {r : Result Unit}
    (h : s.insert P c = some (s', r)) (hw : c.env.walFault = .none) :
    ∃ rh, storeRecord P c.env s.hot s.cold (record c) = (s'.hot, s'.cold, rh) ∧
      s'.config = s.config ∧
      s'.wal = (append P.wal .none s.wal (entryOf P c) c.mode).1 ∧ s'.indexFile = s.indexFile ∧
      ((∃ x, rh = .error x ∧ r = .error x ∧ s'.index = s.index) ∨
        (rh = .ok () ∧ Indexed s s' c r)) := by
  rcases insert_stages h with ⟨x, hx, _⟩ | ⟨rh, _, hstore, hcfg, hwal, hfile, hrest⟩
  · rw [appendEntry_none hw] at hx
    cases hx
  · rw [appendEntry_none hw] at hwal
    exact ⟨rh, hstore, hcfg, hwal, hfile, hrest⟩

/-! ## Storing the record -/

/-- Without a failing write: into a store with room; not at all, because the id
is known; or behind an eviction, which may leave the id in the store. -/
theorem storeRecord_cases (env : Env) (hf : env.coldFault = .none) (hot : HotStore α)
    (cold : ColdStore) (r : VectorRecord α) :
    (¬ hot.full ∧ hot.get r.id = none ∧ ∃ hot', storeRecord P env hot cold r =
      (hot', cold, .ok ()) ∧
      hot'.maxRecords = hot.maxRecords ∧ hot'.vectors = hot.vectors ++ [r]) ∨
    (¬ hot.full ∧ hot.get r.id ≠ none ∧ storeRecord P env hot cold r = (hot, cold, .ok ())) ∨
    (hot.full ∧ ∃ cold', (cold.writeBatch P.codec .none env.coldRank env.day
        (hot.drainLeastAccessed env.hotRank 100).2) = (cold', .ok ()) ∧
      (((hot.drainLeastAccessed env.hotRank 100).1.get r.id = none ∧
          ∃ hot', storeRecord P env hot cold r = (hot', cold', .ok ()) ∧
            hot'.maxRecords = hot.maxRecords ∧
            hot'.vectors = (hot.drainLeastAccessed env.hotRank 100).1.vectors ++ [r]) ∨
        ((hot.drainLeastAccessed env.hotRank 100).1.get r.id ≠ none ∧
          storeRecord P env hot cold r =
            ((hot.drainLeastAccessed env.hotRank 100).1, cold',
              .error (HotStore.alreadyExists r.id))))) := by
  unfold storeRecord
  rcases hot.insert_cases r with ⟨hfull, heq⟩ | ⟨hfull, hid, heq⟩ | ⟨hfull, hid, hok, hmax, hvec⟩
  · refine .inr (.inr ⟨hfull, ?_⟩)
    have hroom := HotStore.drain_room hfull env.hotRank (show 0 < 100 by omega)
    rw [heq]
    simp only [HotStore.storeFull, evictAndRetry, hf]
    have hkept := (hot.drainLeastAccessed_perm env.hotRank 100).2.1
    generalize hot.drainLeastAccessed env.hotRank 100 = drained at hroom hkept ⊢
    obtain ⟨rest, evicted⟩ := drained
    obtain ⟨cold', hcold⟩ : ∃ cold', cold.writeBatch P.codec .none env.coldRank env.day evicted =
      (cold', .ok ()) := by
      rcases List.eq_nil_or_concat evicted with rfl | ⟨init, x, rfl⟩
      · exact ⟨cold, cold.writeBatch_nil ..⟩
      · exact ⟨_, cold.writeBatch_none _ _ _ (by simp)⟩
    refine ⟨cold', hcold, ?_⟩
    simp only [hcold]
    rcases rest.insert_cases r with ⟨hc, _⟩ | ⟨_, hid, hins⟩ | ⟨_, hid, hok, hmax, hvec⟩
    · exact absurd hc hroom
    · exact .inr ⟨hid, by rw [hins]⟩
    · have hstored : rest.insert r = ((rest.insert r).1, .ok ()) := by rw [← hok]
      exact .inl ⟨hid, (rest.insert r).1, by rw [hstored], hmax.trans hkept, hvec⟩
  · exact .inr (.inl ⟨hfull, hid, by rw [heq]; rfl⟩)
  · refine .inl ⟨hfull, hid, (hot.insert r).1, ?_, hmax, hvec⟩
    generalize hot.insert r = res at hok ⊢
    obtain ⟨hot', r'⟩ := res
    obtain rfl : r' = .ok () := hok
    rfl

theorem storeRecord_ok_iff {env : Env} (hf : env.coldFault = .none) {hot hot' : HotStore α}
    {cold cold' : ColdStore} {r : VectorRecord α} {rh : Result Unit}
    (h : storeRecord P env hot cold r = (hot', cold', rh)) :
    rh = .ok () ↔ (hot.full → (hot.drainLeastAccessed env.hotRank 100).1.get r.id = none) := by
  rcases storeRecord_cases (P := P) env hf hot cold r with
    ⟨hfull, hid, _, heq, _⟩ | ⟨hfull, hid, heq⟩ | ⟨hfull, _, _, ⟨hid, _, heq, _⟩ | ⟨hid, heq⟩⟩
  all_goals
    rw [heq] at h
    cases h
    simp [hfull, hid]

/-- Storing a record adds no other record to the hot store. -/
theorem storeRecord_sub {env : Env} (hf : env.coldFault = .none) {hot hot' : HotStore α}
    {cold cold' : ColdStore} {r : VectorRecord α} {rh : Result Unit}
    (h : storeRecord P env hot cold r = (hot', cold', rh)) :
    ∀ r' ∈ hot'.vectors, r' ∈ hot.vectors ∨ r' = r := by
  have hdrained : ∀ r' ∈ (hot.drainLeastAccessed env.hotRank 100).1.vectors, r' ∈ hot.vectors := by
    intro r' hr'
    exact (hot.drainLeastAccessed_perm env.hotRank 100).1.mem_iff.mpr (List.mem_append_right _ hr')
  intro r' hr'
  rcases storeRecord_cases (P := P) env hf hot cold r with
    ⟨_, _, _, heq, _, hvec⟩ | ⟨_, _, heq⟩ | ⟨_, _, _, ⟨_, _, heq, _, hvec⟩ | ⟨_, heq⟩⟩
  all_goals
    rw [heq] at h
    cases h
  · rw [hvec] at hr'
    simpa using hr'
  · exact .inl hr'
  · rw [hvec, List.mem_append, List.mem_singleton] at hr'
    exact hr'.imp_left (hdrained r')
  · exact .inl (hdrained r' hr')

/-- The records a full hot store moves to the cold store. -/
def evicted (env : Env) (hot : HotStore α) : List (VectorRecord α) :=
  (hot.drainLeastAccessed env.hotRank 100).2

theorem evicted_sub {env : Env} {hot : HotStore α} : ∀ r ∈ evicted env hot, r ∈ hot.vectors := by
  intro r hr
  exact (hot.drainLeastAccessed_perm env.hotRank 100).1.mem_iff.mpr (List.mem_append_left _ hr)

/-- The batches of the cold store behind a stored record. -/
def batchesAfter (P : Deps α) (env : Env) (hot : HotStore α) (parts : ColdStore.Parts α) :
    ColdStore.Parts α :=
  if hot.full then
    Function.update parts env.day (parts env.day ++ [(evicted env hot).map P.codec.text.backRecord])
  else parts

theorem length_batchesAfter (env : Env) (hot : HotStore α) (parts : ColdStore.Parts α)
    (p : UInt64) :
    (batchesAfter P env hot parts p).length =
      (parts p).length + if hot.full ∧ p = env.day then 1 else 0 := by
  unfold batchesAfter
  split
  · next hfull => simp [ColdStore.length_more, hfull]
  · next hfull => simp [hfull]

/-- A record of the cold store was there before, or has been evicted. -/
theorem mem_batchesAfter {env : Env} {hot : HotStore α} {parts : ColdStore.Parts α} {p : UInt64}
    {r : VectorRecord α} : r ∈ (batchesAfter P env hot parts p).flatten ↔ r ∈ (parts p).flatten ∨
      hot.full ∧ p = env.day ∧ ∃ r₀ ∈ evicted env hot, P.codec.text.backRecord r₀ = r := by
  unfold batchesAfter
  split
  · next hfull =>
    rw [ColdStore.mem_flatten_more, List.mem_map]
    simp only [hfull, true_and]
  · next hfull => simp only [hfull, false_and, or_false]

/-- A batch more in the cold store behind an eviction, else none. -/
theorem storeRecord_holds (hK : P.codec.Lawful) {env : Env} (hf : env.coldFault = .none)
    {hot hot' : HotStore α} {cold cold' : ColdStore} {r : VectorRecord α} {rh : Result Unit}
    (h : storeRecord P env hot cold r = (hot', cold', rh)) {parts : ColdStore.Parts α}
    (hparts : cold.Holds P.codec parts) (hroom : (parts env.day).length + 1 < 2 ^ 64)
    (hread : hot.full → ∀ r ∈ evicted env hot, ColdStore.Readable r) :
    cold'.Holds P.codec (batchesAfter P env hot parts) := by
  unfold batchesAfter
  rcases storeRecord_cases (P := P) env hf hot cold r with
    ⟨hfull, _, _, heq, _⟩ | ⟨hfull, _, heq⟩ | ⟨hfull, cold'', hw, hcase⟩
  · rw [heq] at h
    cases h
    rw [if_neg hfull]
    exact hparts
  · rw [heq] at h
    cases h
    rw [if_neg hfull]
    exact hparts
  · have hne : evicted env hot ≠ [] := HotStore.drain_ne_nil hfull env.hotRank (by omega)
    obtain ⟨_, hholds⟩ := ColdStore.writeBatch_holds hK hparts hne (hread hfull) hroom hw
    obtain rfl : cold'' = cold' := by
      rcases hcase with ⟨_, _, heq, _⟩ | ⟨_, heq⟩
      · rw [heq] at h
        cases h
        rfl
      · rw [heq] at h
        cases h
        rfl
    rw [if_pos hfull]
    exact hholds

/-! ## Which calls are accepted -/

/-- The index takes the length, and an eviction does not leave the id in the hot
store. -/
def Accepted (s : Engine α β) (c : Call α) : Prop :=
  (∀ idx ∈ s.index, c.vector.length = idx.dim) ∧
  (s.hot.full → s.hot.get c.id = none ∨ c.id ∈ (s.hot.leastAccessed c.env.hotRank 100).map Prod.fst)

theorem insert_ok_iff {s s' : Engine α β} {c : Call α} {r : Result Unit}
    (h : s.insert P c = some (s', r)) (hf : c.env.Faultless) : r = .ok () ↔ Accepted s c := by
  obtain ⟨rh, hstore, _, _, _, hrest⟩ := insert_inv h hf.1
  have hhot := storeRecord_ok_iff hf.2 hstore
  have hdrain : ((s.hot.drainLeastAccessed c.env.hotRank 100).1.get c.id = none) ↔
      (s.hot.get c.id = none ∨ c.id ∈ (s.hot.leastAccessed c.env.hotRank 100).map Prod.fst) := by
    rw [HotStore.drain_get, HotStore.drain_ids]
    split
    · next hin => simp [hin]
    · next hout => simp [hout]
  rw [show (record c).id = c.id from rfl, hdrain] at hhot
  rcases hrest with ⟨x, rfl, rfl, _⟩ | ⟨rfl, hindex⟩
  · have hno := mt hhot.mpr (by simp)
    exact ⟨nofun, fun hacc => absurd hacc.2 hno⟩
  · have hyes := hhot.mp rfl
    rcases hindex with ⟨hnone, _, rfl⟩ | ⟨idx, idx', hsome, _, hins⟩
    · refine ⟨fun _ => ⟨?_, hyes⟩, fun _ => rfl⟩
      intro idx hidx
      rw [hnone] at hidx
      cases hidx
    · rcases HnswIndex.insert_cases hins with ⟨hdim, _, rfl⟩ | ⟨hdim, rfl, _⟩
      · exact ⟨nofun, fun hacc => absurd (hacc.1 idx hsome) hdim⟩
      · refine ⟨fun _ => ⟨?_, hyes⟩, fun _ => rfl⟩
        intro i hi
        rw [hsome] at hi
        cases hi
        exact hdim

/-- An insert that returns `Ok`. -/
def insertOk (P : Deps α) (s : Engine α β) (c : Call α) : Option (Engine α β) :=
  match s.insert P c with
  | some (s', .ok ()) => some s'
  | _ => none

/-- Inserts into a new engine that all return `Ok`. -/
def accepting (P : Deps α) : LTS (Engine α β) (Call α) := LTS.ofFn (Fresh P) (insertOk P)

theorem insertOk_eq_some {s s' : Engine α β} {c : Call α} :
    insertOk P s c = some s' ↔ s.insert P c = some (s', .ok ()) := by
  unfold insertOk
  constructor
  · intro h
    split at h
    · next heq =>
      cases h
      exact heq
    · cases h
  · intro h
    rw [h]

theorem insert_of_get {s : Engine α β} {c : Call α} (h : (s.insert P c).isSome = true)
    (hok : ((s.insert P c).get h).2 = .ok ()) :
    s.insert P c = some (((s.insert P c).get h).1, .ok ()) := by
  rw [← hok, Prod.mk.eta, Option.some_get]

theorem accepting_step {s : Engine α β} {c : Call α} (h : (s.insert P c).isSome = true)
    (hok : ((s.insert P c).get h).2 = .ok ()) : (accepting P).step s c ((s.insert P c).get h).1 :=
  insertOk_eq_some.mpr (insert_of_get h hok)

/-- No trackers and no Merkle tier. -/
structure Untracked (s : Engine α β) : Prop where
  centroids : s.centroids = none
  correlations : s.correlations = none
  buckets : s.buckets = none
  hotBuffer : s.hotBuffer = none

/-- Such an engine stores the record and goes on with the index. -/
theorem Untracked.insert {s s' : Engine α β} (h : Untracked s) {c : Call α}
    (hf : c.env.walFault = .none) {hot : HotStore α} {cold : ColdStore}
    (hstore : storeRecord P c.env s.hot s.cold (record c) = (hot, cold, .ok ()))
    (hindex : insertIndex c.env { s with
      wal := (append P.wal .none s.wal (entryOf P c) c.mode).1
      hot := hot
      cold := cold } c.id c.vector = some (s', .ok ()))
    (hbuffer : s'.hotBuffer = none) : s.insert P c = some (s', .ok ()) := by
  obtain ⟨config, wal, hot₀, cold₀, index, _, _, _, _, tree, file, merkle⟩ := s
  obtain ⟨rfl, rfl, rfl, rfl⟩ := h
  unfold Engine.insert
  rw [appendEntry_none hf]
  simp only [updateTrackers, Option.map_none, Option.mapM_none, Option.pure_def,
    Option.bind_eq_bind, Option.bind_some, hstore]
  rw [hindex]
  simp only [Option.bind_some, bufferVector, hbuffer]

/-- The log behind a call, accepted or not: one more entry. -/
theorem insert_logs {s s' : Engine α β} {c : Call α} {r : Result Unit}
    (h : s.insert P c = some (s', r)) (hf : c.env.walFault = .none) {log : List WalEntry}
    (hlog : Logs P.wal s.wal log) (hroom : Room s.wal) (hfit : (payload P c).length < 2 ^ 32) :
    Logs P.wal s'.wal (log ++ [stamped s.wal.wal (entryOf P c)]) := by
  obtain ⟨_, _, _, hwal, _⟩ := insert_inv h hf
  have hfits : Fits (entryOf P c) := hfit
  rw [hwal]
  exact hlog.append hfits hroom c.mode

/-- One insert after the other; `none` if one panics. -/
def insertAll (P : Deps α) (s : Engine α β) (cs : List (Call α)) : Option (Engine α β) :=
  cs.foldlM (fun s c => (s.insert P c).map Prod.fst) s

theorem insertAll_append {s s' : Engine α β} {cs : List (Call α)} (h : s.insertAll P cs = some s')
    (cs' : List (Call α)) : s.insertAll P (cs ++ cs') = s'.insertAll P cs' := by
  rw [insertAll, List.foldlM_append]
  exact (congrArg (Option.bind · _) h).trans rfl

/-! ## The scan of `get` -/

omit [F32 β] [Narrow α β] in
/-- One partition of the scan, if it can be read. -/
theorem findCold_read {cold : ColdStore} {id p : UInt64} {ps : List UInt64}
    {rs : List (VectorRecord α)} (h : cold.readPartition P.codec p = .ok rs) :
    findCold P cold id (p :: ps) =
      match rs.find? fun r => r.id == id with
      | some record => .ok (some record)
      | none => findCold P cold id ps := by
  rw [findCold, h]
  rfl

/-! ## Small engines -/

def deps : Deps Lit := ⟨crates, plain, id⟩

/-- At most `maxRecords` hot records, and an index of dimension `dim` if there
is one. -/
def small (maxRecords : UInt64) (dim : Option Nat) : StorageConfig Lit where
  wal := ⟨1024, 1000⟩
  maxRecords := maxRecords
  cacheCapacity := 16
  hotMaxRecords := 10000
  index := ⟨dim.isSome, dim.getD 0, ⟨16, 32, 200, .cosine⟩⟩
  topological := ⟨false, [], [], []⟩
  merkle := ⟨false, 0, 0, false⟩

/-- Nothing fails, and everything is iterated in the order of the ids. -/
def calm : Env := ⟨.none, .none, UInt64.toNat, UInt64.toNat, 0, 0, 0⟩

def calmOpen : OpenEnv := ⟨fun _ => 0, fun _ => 0, UInt64.toNat⟩

/-- A new engine, if `open` succeeds. -/
def opened (config : StorageConfig Lit) : Option (Engine Lit Lit) :=
  (create deps calmOpen config).bind Except.toOption

theorem eq_ok_of_toOption {σ : Type} {o : Option (Result σ)} {s : σ}
    (h : o.bind Except.toOption = some s) :
    o = some (.ok s) := by
  obtain ⟨r, hr, hs⟩ := Option.bind_eq_some_iff.mp h
  cases r with
  | error x => cases hs
  | ok s' =>
    cases hs
    exact hr

theorem create_of_opened {config : StorageConfig Lit} {s : Engine Lit Lit}
    (h : opened config = some s) :
    create deps calmOpen config = some (.ok s) :=
  eq_ok_of_toOption h

/-- `insert` of `id` with the integers `vector`. -/
def call (id : UInt64) (vector : List Int) : Call Lit :=
  ⟨calm, id, vector.map .fin, .null, .durable⟩

/-- A new engine with an index of dimension 1, and behind one insert. -/
def linear : Engine Lit Lit := (opened (small 10 (some 1))).get (by decide +kernel)

def linearOne : Engine Lit Lit := ((linear.insert deps (call 1 [5])).get (by decide +kernel)).1

theorem linear_create : create deps calmOpen (small 10 (some 1)) = some (.ok linear) :=
  create_of_opened (by rw [linear, Option.some_get])

theorem calm_faultless : calm.Faultless := ⟨rfl, rfl⟩

end Engine

end Tesseract.L4
