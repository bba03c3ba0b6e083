import Tesseract.L3Store.ColdSessions
import Tesseract.L4Engine.Agreement
import Tesseract.L4Engine.Lookup

/-!
# A cold write that fails

An eviction and a demotion take their records out of the hot store before they
write them to the cold store, and give up when the write fails.

* `writeBatch_batches`: of the three files of a write only the batch file matters to
  a reader; `afterBatch` is the store as far as that file was written.
* `drain_keeps_iff`: the records of the hot store are still returned exactly if the
  drained ones are found in that store.
* `recorded_iff`: new records are found there exactly if their batch file is written.
* `failed_write_keeps_iff`: so it is for a demotion and for an insert.
-/
namespace Tesseract.L3.ColdStore

open Serde

variable {α : Type} [F64 α]

/-- The batch file of a write, as far as it is written; the partition is known when the
whole file is. -/
def afterBatch (K : Codec α) (fault : WriteFault) (s : ColdStore) (partition : UInt64)
    (records : List (VectorRecord α)) : ColdStore :=
  let file := .batch partition (s.batchNum partition).toNat
  let compressed := K.encodeAll (K.text.print (encodeBatch records))
  match fault file with
  | some none => s
  | some (some k) => ⟨s.disk.put file (compressed.take k), s.writers⟩
  | none => ⟨s.disk.put file compressed,
      s.writers.insert partition (s.updateMeta partition records.length compressed.length)⟩

/-- The two stores have the same batch files and know the same partitions. -/
structure SameBatches (s s' : ColdStore) : Prop where
  batches : ∀ p n, s'.disk.read (.batch p n) = s.disk.read (.batch p n)
  writers : s'.writers = s.writers

theorem SameBatches.readPartition {s s' : ColdStore} (h : SameBatches s s') (K : Codec α)
    (p : UInt64) : s'.readPartition K p = s.readPartition K p := by
  have key : ∀ fuel n acc,
      readBatches K s'.disk p fuel n acc = readBatches K s.disk p fuel n acc := by
    intro fuel
    induction fuel with
    | zero => exact fun _ _ => rfl
    | succ fuel ih =>
      intro n acc
      simp only [readBatches, h.batches, ih]
  exact key (2 ^ 32) 1 []

theorem putFile_other (fault : WriteFault) (d : Disk ColdFile) (bs : Bytes) {f g : ColdFile}
    (h : g ≠ f) : (putFile fault d f bs).1.read g = d.read g := by
  unfold putFile
  split
  · rw [Disk.read_put, if_neg h]
  · rfl
  · rw [Disk.read_put, if_neg h]

/-- What a write leaves for a reader, whether it fails or not. -/
theorem writeBatch_batches (K : Codec α) (fault : WriteFault) (rank : UInt64 → Nat)
    (s : ColdStore) (p : UInt64) {rs : List (VectorRecord α)} (hne : rs ≠ []) :
    SameBatches (s.afterBatch K fault p rs) (s.writeBatch K fault rank p rs).1 := by
  have hemp : rs.isEmpty = false := by simpa using hne
  rw [writeBatch, hemp]
  simp only [Bool.false_eq_true, if_false]
  cases hf : fault (.batch p (s.batchNum p).toNat) with
  | some o =>
    cases o with
    | none =>
      simp only [putFile, hf, afterBatch]
      exact ⟨fun _ _ => rfl, rfl⟩
    | some k =>
      simp only [putFile, hf, afterBatch]
      exact ⟨fun _ _ => rfl, rfl⟩
  | none =>
    have hput : ∀ d bs, putFile fault d (.batch p (s.batchNum p).toNat) bs =
        (d.put (.batch p (s.batchNum p).toNat) bs, .ok ()) := by
      intro d bs
      rw [putFile, hf]
    simp only [hput, afterBatch, hf]
    -- `meta.json` and the manifest are no batch files
    have hmeta := fun q n => putFile_other fault
      (s.disk.put (.batch p (s.batchNum p).toNat) (K.encodeAll (K.text.print (encodeBatch rs))))
      (K.text.print (encodeMeta (α := α)
        (s.updateMeta p rs.length (K.encodeAll (K.text.print (encodeBatch rs))).length)))
      (show ColdFile.batch q n ≠ .meta p by simp)
    split
    · next d x heq =>
      rw [heq] at hmeta
      exact ⟨hmeta, rfl⟩
    · next d heq =>
      rw [heq] at hmeta
      exact ⟨fun q n => (putFile_other fault d _ (by simp)).trans (hmeta q n), rfl⟩

end Tesseract.L3.ColdStore

namespace Tesseract.L4.Engine

open L3 L3.Serde

variable {α β : Type} [F64 α] {P : Deps α}

theorem FirstIn.congr {cold cold' : ColdStore} (h : ColdStore.SameBatches cold cold')
    {rank : UInt64 → Nat} {id : UInt64} {r : VectorRecord α} :
    FirstIn P cold' (cold'.partitions rank) id r ↔ FirstIn P cold (cold.partitions rank) id r := by
  have hps : cold'.partitions rank = cold.partitions rank := by
    rw [ColdStore.partitions, ColdStore.partitions, h.writers]
  unfold FirstIn
  simp only [hps, h.readPartition]

/-- Every record of the hot store `hot` is returned by the engine `s`. -/
def Returns (P : Deps α) (rank : UInt64 → Nat) (hot : HotStore α) (s : Engine α β) : Prop :=
  ∀ r ∈ hot.vectors, s.hot.get r.id = some r ∨ s.get P rank r.id = .ok (some r)

/-- The cold store, with as much of the batch as a write leaves, has each record as the
first one of its id. -/
def Recorded (P : Deps α) (rank : UInt64 → Nat) (fault : WriteFault) (cold : ColdStore)
    (partition : UInt64) (records : List (VectorRecord α)) : Prop :=
  ∀ r ∈ records, FirstIn P (cold.afterBatch P.codec fault partition records)
    ((cold.afterBatch P.codec fault partition records).partitions rank) r.id r

/-- `n` records are drained and written: all are returned exactly if the drained ones are
found in what the write leaves. -/
theorem drain_keeps_iff {rank : UInt64 → Nat} {env : Env} {s s' : Engine α β} {n : Nat}
    {p : UInt64} (hne : (s.hot.drainLeastAccessed env.hotRank n).2 ≠ [])
    (hhot : s'.hot = (s.hot.drainLeastAccessed env.hotRank n).1)
    (hcold : s'.cold = (s.cold.writeBatch P.codec env.coldFault env.coldRank p
      (s.hot.drainLeastAccessed env.hotRank n).2).1) :
    Returns P rank s.hot s' ↔ Recorded P rank env.coldFault s.cold p
      (s.hot.drainLeastAccessed env.hotRank n).2 := by
  have hperm := (s.hot.drainLeastAccessed_perm env.hotRank n).1
  have hget := s.hot.drain_get env.hotRank n
  have hsame := ColdStore.writeBatch_batches P.codec env.coldFault env.coldRank s.cold p hne
  rw [← hcold] at hsame
  rw [← hhot] at hget
  constructor
  · intro h r hr
    have hgone : s'.hot.get r.id = none := by rw [hget, if_pos (List.mem_map_of_mem hr)]
    have hfound := (h r (hperm.mem_iff.mpr (List.mem_append_left _ hr))).resolve_left
      (by rw [hgone]; simp)
    rw [get_eq_some_iff, hgone] at hfound
    exact (FirstIn.congr hsame).mp (hfound.resolve_left (by simp)).2
  · intro h r hr
    by_cases hin : r.id ∈ (s.hot.drainLeastAccessed env.hotRank n).2.map VectorRecord.id
    · have hgone : s'.hot.get r.id = none := by rw [hget, if_pos hin]
      -- the drained record of this id is `r`
      obtain ⟨r', hr', hid⟩ := List.mem_map.mp hin
      have heq : r' = r :=
        HotStore.eq_of_id (hperm.mem_iff.mpr (List.mem_append_left _ hr')) hr hid
      have hfound := (FirstIn.congr hsame).mpr (h r (heq ▸ hr'))
      exact .inr (get_eq_some_iff.mpr (.inr ⟨hgone, hfound⟩))
    · left
      rw [hget, if_neg hin]
      exact HotStore.get_eq_some.mpr ⟨hr, rfl⟩

/-! ## Which writes leave the records to be found -/

/-- A batch file that is not opened leaves the store as it was. -/
theorem afterBatch_closed {K : Codec α} {fault : WriteFault} {cold : ColdStore}
    {p : UInt64} {rs : List (VectorRecord α)}
    (h : fault (.batch p (cold.batchNum p).toNat) = some none) :
    cold.afterBatch K fault p rs = cold := by
  simp only [ColdStore.afterBatch, h]

/-- A batch file that is written in full is all a reader needs. -/
theorem afterBatch_holds {K : Codec α} (hK : K.Lawful) {fault : WriteFault} {cold : ColdStore}
    {parts : ColdStore.Parts α} (hholds : cold.Holds K parts) {p : UInt64}
    {rs : List (VectorRecord α)} (hne : rs ≠ []) (hrs : ∀ r ∈ rs, ColdStore.Readable r)
    (hroom : (parts p).length + 1 < 2 ^ 64)
    (h : fault (.batch p (cold.batchNum p).toNat) = none) :
    ∃ cold', cold'.Holds K (Function.update parts p (parts p ++ [rs.map K.text.backRecord])) ∧
      ColdStore.SameBatches (cold.afterBatch K fault p rs) cold' := by
  have hsame := ColdStore.writeBatch_batches K .none UInt64.toNat cold p hne
  have heq : cold.afterBatch K .none p rs = cold.afterBatch K fault p rs := by
    simp only [ColdStore.afterBatch, h, WriteFault.none]
  rw [heq] at hsame
  exact ⟨_, (ColdStore.writeBatch_holds hK hholds hne hrs hroom rfl).2, hsame⟩

/-- The batches of the cold store are intact, and the records are new to it. -/
structure NewTo (P : Deps α) (cold : ColdStore) (parts : ColdStore.Parts α)
    (rs : List (VectorRecord α)) : Prop where
  holds : cold.Holds P.codec parts
  short : ∀ q, (parts q).length + 1 < 2 ^ 32
  ids : (rs.map VectorRecord.id).Nodup
  round : ∀ r ∈ rs, ColdStore.Readable r ∧ P.codec.text.backRecord r = r
  new : ∀ q, ∀ r ∈ (parts q).flatten, r.id ∉ rs.map VectorRecord.id

/-- A write of new records that cuts no file leaves them to be found exactly if it is not
the batch file that fails. -/
theorem recorded_iff (hK : P.codec.Lawful) {cold : ColdStore} {parts : ColdStore.Parts α}
    {rs : List (VectorRecord α)} (h : NewTo P cold parts rs) (hne : rs ≠ []) {p : UInt64}
    {fault : WriteFault} (hcut : ∀ k, fault (.batch p (cold.batchNum p).toNat) ≠ some (some k))
    (rank : UInt64 → Nat) :
    Recorded P rank fault cold p rs ↔ fault (.batch p (cold.batchNum p).toNat) = none := by
  constructor
  · intro hrec
    cases hf : fault (.batch p (cold.batchNum p).toNat) with
    | none => rfl
    | some o =>
      cases o with
      | some k => exact absurd hf (hcut k)
      | none =>
        obtain ⟨r, rs', rfl⟩ := List.exists_cons_of_ne_nil hne
        obtain ⟨front, q, back, found, _, _, hread, hfind⟩ := hrec r List.mem_cons_self
        rw [afterBatch_closed hf] at hread
        obtain ⟨found', hread', hsub⟩ := h.holds.readPartition_sub q
        rw [hread] at hread'
        cases hread'
        exact absurd (List.mem_map_of_mem List.mem_cons_self)
          (h.new q r (hsub r (List.mem_of_find?_eq_some hfind)))
  · intro hf r hr
    have hlen := h.short p
    obtain ⟨cold', hholds', hsame⟩ := afterBatch_holds hK h.holds hne
      (fun r hr => (h.round r hr).1) (by omega) hf
    rw [ColdStore.map_backRecord h.round] at hholds'
    have hfits := ColdStore.short_more (b := rs) (fun q => Nat.lt_of_succ_lt (h.short q)) hlen
    have hmem : r ∈ (Function.update parts p (parts p ++ [rs]) p).flatten :=
      ColdStore.mem_flatten_more.mpr (.inr ⟨rfl, hr⟩)
    have hp : p ∈ cold'.partitions rank := by
      rw [ColdStore.partitions, ColdStore.mem_keysInOrder, hholds'.writers p]
      exact ColdStore.ne_nil_more.mpr (.inl rfl)
    obtain ⟨q, r', hfound, hr', hid⟩ := findCold_some (P := P)
      (fun q => hholds'.readPartition (hfits q)) _ ⟨p, hp, r, hmem, rfl⟩
    rw [findCold_iff] at hfound
    -- the record that is found is the written one
    have heq : r' = r := by
      rcases ColdStore.mem_flatten_more.mp hr' with hold | ⟨_, hr'⟩
      · exact absurd (hid ▸ List.mem_map_of_mem hr) (h.new q r' hold)
      · exact List.inj_on_of_nodup_map h.ids hr' hr hid
    subst heq
    exact (FirstIn.congr hsame).mp hfound

/-! ## Demotion and eviction -/

/-- The records a demotion drains. -/
def demoted (s : Engine α β) (env : Env) : List (VectorRecord α) :=
  (s.hot.drainLeastAccessed env.hotRank (s.hot.vectors.length - s.config.hotMaxRecords)).2

theorem demotion_keeps_iff {rank : UInt64 → Nat} {s : Engine α β} {env : Env} {x : Error}
    (h : (s.runDemotion P env).2 = .error x) :
    Returns P rank s.hot (s.runDemotion P env).1 ↔
      Recorded P rank env.coldFault s.cold 0 (demoted s env) := by
  have hover : ¬ s.hot.vectors.length ≤ s.config.hotMaxRecords := by
    intro hle
    rw [runDemotion, if_pos hle] at h
    cases h
  have hlen := (s.hot.drainLeastAccessed_perm env.hotRank
    (s.hot.vectors.length - s.config.hotMaxRecords)).2.2
  refine drain_keeps_iff ?_ ?_ ?_
  · intro hnil
    rw [hnil, List.length_nil] at hlen
    omega
  · rw [runDemotion, if_neg hover]
  · rw [runDemotion, if_neg hover]

variable [F32 β] [Narrow α β]

/-- A failing write ends an insert on a full store. -/
theorem eviction_keeps_iff {rank : UInt64 → Nat} {s s' : Engine α β} {c : Call α}
    {r : Result Unit} {x : Error} (h : s.insert P c = some (s', r)) (hfull : s.hot.full)
    (hlog : (s.appendEntry P c).2 = .ok ())
    (hw : (s.cold.writeBatch P.codec c.env.coldFault c.env.coldRank c.env.day
      (evicted c.env s.hot)).2 = .error x) :
    Returns P rank s.hot s' ↔
      Recorded P rank c.env.coldFault s.cold c.env.day (evicted c.env s.hot) := by
  rcases insert_stages h with ⟨_, hfail, _⟩ | ⟨rh, _, hstore, _⟩
  · rw [hlog] at hfail
    cases hfail
  · have hstop : storeRecord P c.env s.hot s.cold (record c) =
        ((s.hot.drainLeastAccessed c.env.hotRank 100).1, (s.cold.writeBatch P.codec
          c.env.coldFault c.env.coldRank c.env.day (evicted c.env s.hot)).1, .error x) := by
      rw [storeRecord, HotStore.insert, dif_pos hfull]
      show evictAndRetry P c.env s.hot s.cold (record c) = _
      unfold evictAndRetry
      unfold evicted at hw ⊢
      generalize s.hot.drainLeastAccessed c.env.hotRank 100 = d at hw ⊢
      obtain ⟨hot, drained⟩ := d
      dsimp only at hw ⊢
      generalize s.cold.writeBatch P.codec c.env.coldFault c.env.coldRank c.env.day drained = w
        at hw ⊢
      obtain ⟨cold, r'⟩ := w
      obtain rfl : r' = .error x := hw
      rfl
    rw [hstop, Prod.mk.injEq, Prod.mk.injEq] at hstore
    exact drain_keeps_iff (HotStore.drain_ne_nil hfull c.env.hotRank (show 0 < 100 by omega))
      hstore.1.symm hstore.2.1.symm

/-- Behind a cold write that fails, the records that were in the hot store are returned
exactly if the drained ones are found in what the write leaves; new records are exactly
if their batch file is written. -/
theorem failed_write_keeps_iff (P : Deps α) (rank : UInt64 → Nat) (s : Engine α β) :
    (∀ env x, (s.runDemotion P env).2 = .error x →
      (Returns P rank s.hot (s.runDemotion P env).1 ↔
        Recorded P rank env.coldFault s.cold 0 (demoted s env))) ∧
    (∀ c s' r x, s.insert P c = some (s', r) → s.hot.full → (s.appendEntry P c).2 = .ok () →
      (s.cold.writeBatch P.codec c.env.coldFault c.env.coldRank c.env.day
        (evicted c.env s.hot)).2 = .error x →
      (Returns P rank s.hot s' ↔
        Recorded P rank c.env.coldFault s.cold c.env.day (evicted c.env s.hot))) ∧
    (P.codec.Lawful → ∀ parts p rs fault, NewTo P s.cold parts rs → rs ≠ [] →
      (∀ k, fault (.batch p (s.cold.batchNum p).toNat) ≠ some (some k)) →
      (Recorded P rank fault s.cold p rs ↔
        fault (.batch p (s.cold.batchNum p).toNat) = none)) :=
  ⟨fun _ _ => demotion_keeps_iff, fun _ _ _ _ => eviction_keeps_iff,
    fun hK _ _ _ _ hnew hne hcut => recorded_iff hK hnew hne hcut rank⟩

/-- No batch file can be opened. -/
def noBatch : WriteFault
  | .batch _ _ => some none
  | _ => none

/-- No `meta.json` can be opened. -/
def noMeta : WriteFault
  | .meta _ => some none
  | _ => none

/-- A second insert where there is one hot record. -/
def refused (fault : WriteFault) : Call Lit :=
  { call 2 [3] with env := { calm with coldFault := fault } }

def singleLost : Engine Lit Lit × Result Unit :=
  (singleOne.insert deps (refused noBatch)).get (by decide +kernel)

def singleKept : Engine Lit Lit × Result Unit :=
  (singleOne.insert deps (refused noMeta)).get (by decide +kernel)

/-- Where no record is to stay hot. -/
def crowded : Engine Lit Lit :=
  { singleOne with config := { singleOne.config with hotMaxRecords := 0 } }

theorem newTo_one : NewTo deps singleOne.cold (fun _ => []) [record (call 1 [5])] where
  holds := by
    rw [cold_empty singleOne_stays]
    exact ColdStore.Holds.empty _
  short _ := by decide
  ids := by simp
  round r hr := by
    rw [List.mem_singleton.mp hr]
    exact ⟨by decide, rfl⟩
  new _ r hr := by simp at hr

/-- The write of the drained record fails at the batch file, or behind it. -/
theorem failed_write_keeps_one :
    ¬ Returns deps UInt64.toNat singleOne.hot singleLost.1 ∧
      Returns deps UInt64.toNat singleOne.hot singleKept.1 ∧
      Returns deps UInt64.toNat crowded.hot
        (crowded.runDemotion deps { calm with coldFault := noMeta }).1 := by
  obtain ⟨-, hevict, hnew⟩ := failed_write_keeps_iff deps UInt64.toNat singleOne
  obtain ⟨hdemote, -, -⟩ := failed_write_keeps_iff deps UInt64.toNat crowded
  have hrecorded := hnew plain_lawful (fun _ => []) 0 [record (call 1 [5])]
  have hlost := hevict (refused noBatch) singleLost.1 singleLost.2 (.ioError "open")
    (by rw [singleLost, Option.some_get]) (by decide +kernel) rfl rfl
  have hkept := hevict (refused noMeta) singleKept.1 singleKept.2 (.ioError "open")
    (by rw [singleKept, Option.some_get]) (by decide +kernel) rfl rfl
  refine ⟨fun h => ?_, hkept.mpr ?_, (hdemote _ (.ioError "open") rfl).mpr ?_⟩
  · have hbatch := (hrecorded noBatch newTo_one (List.cons_ne_nil _ _) (by simp [noBatch])).mp
      (hlost.mp h)
    cases hbatch
  · exact (hrecorded noMeta newTo_one (List.cons_ne_nil _ _) (by simp [noMeta])).mpr rfl
  · exact (hrecorded noMeta newTo_one (List.cons_ne_nil _ _) (by simp [noMeta])).mpr rfl

/-- The drained record is in neither store. -/
theorem failed_write_loses : (system deps).Reachable singleOne ∧ singleOne.hot.full ∧
    singleOne.insert deps (refused noBatch) = some (singleLost.1, .error (.ioError "open")) ∧
    ¬ Returns deps UInt64.toNat singleOne.hot singleLost.1 := by
  have herr : singleLost.2 = .error (.ioError "open") := by decide +kernel
  refine ⟨singleOne_stays.of_restrict, by decide +kernel, ?_, ?_⟩
  · rw [← herr, singleLost, Option.some_get]
  · intro h
    have hids : singleOne.hot.vectors.map VectorRecord.id = [1] := by decide +kernel
    obtain ⟨r, hr, hid⟩ := List.mem_map.mp (hids ▸ List.mem_singleton_self 1)
    rcases h r hr with hhot | hget
    · have hnone : (singleLost.1.hot.get 1).isSome = false := by decide +kernel
      rw [hid] at hhot
      rw [hhot] at hnone
      cases hnone
    · have hnone : (singleLost.1.get deps UInt64.toNat 1).map Option.isSome = .ok false := by
        decide +kernel
      rw [hid] at hget
      rw [hget] at hnone
      cases hnone

end Tesseract.L4.Engine
