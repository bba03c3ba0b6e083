import Tesseract.Core.LTS
import Tesseract.L3Store.JsonText

/-!
# Sessions of the cold store

Runs of `write_batch` and `open`, one call after the other and without I/O
failures, from an empty directory. The metadata lives in memory, in
`meta.json` and in `manifest.json`; the reader uses none of them and probes the
batch numbers with a `u32`, while the writer counts with a `usize`.

* `Stored.writeBatch`, `Stored.reopen`: the three copies of the metadata and the
  batch files stay in step.
* `sessions_show`: while the numbers stay below the wrap, a partition reads as
  what was written to it, and metadata and partition list say so.
* `last_batch_is_lost`: the batch 2^32 of a partition is written and never read.
-/
namespace Tesseract.L3.ColdStore

open Serde

variable {α : Type} [F64 α] {K : Codec α}

/-- mirrors tesseract-storage/src/cold_store.rs:186-189 -/
def partitionMetadata (s : ColdStore) (partition : UInt64) : Option PartitionMeta :=
  s.writers.lookup partition

/-! ## Calls -/

inductive Op (α : Type) [F64 α] where
  /-- `rank` is the order of the `HashMap` at this call. -/
  | writeBatch (rank : UInt64 → Nat) (partition : UInt64) (records : List (VectorRecord α))
  | reopen

/-- A call without I/O failures. -/
def apply (K : Codec α) (s : ColdStore) : Op α → ColdStore × Result Unit
  | .writeBatch rank partition records => writeBatch K .none rank s partition records
  | .reopen =>
    match openStore K s.disk with
    | .ok s' => (s', .ok ())
    | .error x => (s, .error x)

/-- The store behind a call that returns `Ok`. -/
def applyOk (K : Codec α) (s : ColdStore) (op : Op α) : Option ColdStore :=
  match apply K s op with
  | (s', .ok ()) => some s'
  | (_, .error _) => none

def sessions (K : Codec α) : LTS ColdStore (Op α) := LTS.ofFn (· = ⟨∅, ∅⟩) (applyOk K)

/-- The batch a call writes to the partition `p`. -/
def Op.batchTo (p : UInt64) : Op α → Option (List (VectorRecord α))
  | .writeBatch _ partition records => if partition = p then some records else none
  | .reopen => none

/-- All batches written to `p`, the empty ones among them. -/
def batchesTo (ops : List (Op α)) (p : UInt64) : List (List (VectorRecord α)) :=
  ops.filterMap (Op.batchTo p)

/-- JSON reads every record of the call back as it was. -/
def Op.RoundTrips (K : Codec α) : Op α → Prop
  | .writeBatch _ _ records => ∀ r ∈ records, Readable r ∧ K.text.backRecord r = r
  | .reopen => True

/-- The records that `p` has so far, by its metadata. -/
def recorded (s : ColdStore) (p : UInt64) : Nat :=
  ((s.writers.lookup p).map fun m => m.recordCount.toNat).getD 0

/-- A non-empty batch gets a number that a `u32` can hold, and the count of the
records does not wrap. -/
def Fits (s : ColdStore) : Op α → Prop
  | .writeBatch _ partition records => records.isEmpty ∨
      ((s.batchNum partition).toNat < 2 ^ 32 ∧ s.recorded partition + records.length < 2 ^ 64)
  | .reopen => True

instance (s : ColdStore) (op : Op α) : Decidable (Fits s op) := by
  cases op
  · exact inferInstanceAs (Decidable (_ ∨ _))
  · exact inferInstanceAs (Decidable True)

/-! ## The copies of the metadata -/

/-- Memory, `meta.json`, `manifest.json` and the batch files agree on `parts`. -/
structure Stored (K : Codec α) (s : ColdStore) (parts : Parts α) : Prop where
  holds : Holds K s parts
  short : ∀ p, (parts p).length < 2 ^ 32
  records : ∀ p m, s.writers.lookup p = some m → m.recordCount.toNat = (parts p).flatten.length
  metaFile : ∀ p m, s.writers.lookup p = some m → readMeta K s.disk p = some m
  listed : ∃ pids, Listed K s.disk pids ∧ ∀ p, p ∈ pids ↔ p ∈ s.writers

theorem Stored.empty (K : Codec α) : Stored K ⟨∅, ∅⟩ fun _ => [] := by
  refine ⟨Holds.empty K, fun _ => by simp, ?_, ?_, [], .inl ⟨rfl, rfl⟩, fun p => by simp⟩
  · intro p m hm
    cases hm
  · intro p m hm
    cases hm

theorem Stored.recorded {s : ColdStore} {parts : Parts α} (h : Stored K s parts) (p : UInt64) :
    s.recorded p = (parts p).flatten.length := by
  unfold ColdStore.recorded
  cases hl : s.writers.lookup p with
  | some m => simpa using h.records p m hl
  | none =>
    have hp : parts p = [] := by
      by_contra hne
      exact AList.lookup_eq_none.mp hl ((h.holds.writers p).mpr hne)
    simp [hp]

theorem mem_keysInOrder {rank : UInt64 → Nat} {writers : AList fun _ : UInt64 => PartitionMeta}
    {p : UInt64} : p ∈ keysInOrder rank writers ↔ p ∈ writers := by
  rw [keysInOrder, List.mem_insertionSort, AList.mem_keys]

theorem written_meta (K : Codec α) (rank : UInt64 → Nat) (s : ColdStore) (p q : UInt64)
    (rs : List (VectorRecord α)) :
    (written K rank s p rs).disk.read (.meta q) =
      if q = p then some (K.text.print (encodeMeta (s.updateMeta p rs.length
        (K.encodeAll (K.text.print (encodeBatch rs))).length)))
      else s.disk.read (.meta q) := by
  simp only [written, Disk.read_put, reduceCtorEq, if_false, ColdFile.meta.injEq]

/-- The count of the records, while it does not wrap. -/
theorem updateMeta_recordCount {s : ColdStore} {p : UInt64} {count size : Nat}
    (h : s.recorded p + count < 2 ^ 64) :
    (s.updateMeta p count size).recordCount.toNat = s.recorded p + count := by
  unfold ColdStore.recorded at h ⊢
  simp only [updateMeta]
  cases hl : s.writers.lookup p with
  | none =>
    rw [hl] at h
    simp at h ⊢
    omega
  | some m =>
    rw [hl] at h
    simp at h ⊢
    omega

/-- A batch that fits is written to all four places. -/
theorem Stored.writeBatch (hK : K.Lawful) {s : ColdStore} {parts : Parts α} (h : Stored K s parts)
    {rank : UInt64 → Nat} {p : UInt64} {rs : List (VectorRecord α)} (hne : rs ≠ [])
    (hrs : ∀ r ∈ rs, Readable r ∧ K.text.backRecord r = r)
    (hnum : (s.batchNum p).toNat < 2 ^ 32) (hcount : s.recorded p + rs.length < 2 ^ 64) :
    Stored K (written K rank s p rs) (Function.update parts p (parts p ++ [rs])) := by
  have hlen := h.short p
  have hnext := h.holds.batchNum (p := p) (by omega)
  have hwrite := writeBatch_holds hK h.holds hne (fun r hr => (hrs r hr).1) (by omega)
    (writeBatch_none K rank s p hne)
  rw [map_backRecord hrs] at hwrite
  refine ⟨hwrite.2, short_more h.short (by omega), ?_, ?_, ?_⟩
  · intro q m hm
    rw [written_lookup] at hm
    by_cases hq : q = p
    · subst hq
      rw [if_pos rfl, Option.some.injEq] at hm
      rw [Function.update_self, List.flatten_concat, List.length_append, ← h.recorded q, ← hm,
        updateMeta_recordCount hcount]
    · rw [if_neg hq] at hm
      rw [Function.update_of_ne hq]
      exact h.records q m hm
  · intro q m hm
    rw [written_lookup] at hm
    by_cases hq : q = p
    · subst hq
      rw [if_pos rfl, Option.some.injEq] at hm
      apply readMeta_encodeMeta hK
      rw [written_meta, if_pos rfl, hm]
    · rw [if_neg hq] at hm
      have hread := written_meta K rank s p q rs
      rw [if_neg hq] at hread
      rw [readMeta, hread]
      exact h.metaFile q m hm
  · refine ⟨keysInOrder rank (written K rank s p rs).writers, .inr ?_, fun q => mem_keysInOrder⟩
    rw [written, Disk.read_put, if_pos rfl]

/-- Nothing but the three files of a partition is needed to open the store. -/
theorem Stored.reopen (hK : K.Lawful) {s : ColdStore} {parts : Parts α} (h : Stored K s parts) :
    ∃ s', openStore K s.disk = .ok s' ∧ Stored K s' parts := by
  obtain ⟨pids, hpids, hkeys⟩ := h.listed
  obtain ⟨writers, hw, hload⟩ := hpids.loadManifest hK
  have hlookup : ∀ p, writers.lookup p = s.writers.lookup p := by
    intro p
    rw [hload p]
    cases hl : s.writers.lookup p with
    | none =>
      rw [if_neg]
      rw [hkeys]
      exact AList.lookup_eq_none.mp hl
    | some m =>
      have hmem : p ∈ s.writers := AList.lookup_isSome.mp (by rw [hl]; rfl)
      rw [if_pos ((hkeys p).mpr hmem)]
      exact h.metaFile p m hl
  have hmem : ∀ p, p ∈ writers ↔ p ∈ s.writers := by
    intro p
    rw [← AList.lookup_isSome, ← AList.lookup_isSome, hlookup]
  refine ⟨⟨s.disk, writers⟩, by rw [openStore, hw]; rfl, ?_⟩
  refine ⟨⟨h.holds.batches, h.holds.noMore, ?_, ?_, h.holds.manifest⟩, h.short, ?_, ?_, pids,
    hpids, ?_⟩
  · exact fun p => (hmem p).trans (h.holds.writers p)
  · intro p m hm
    exact h.holds.count p m ((hlookup p).symm.trans hm)
  · intro p m hm
    exact h.records p m ((hlookup p).symm.trans hm)
  · intro p m hm
    exact h.metaFile p m ((hlookup p).symm.trans hm)
  · exact fun p => (hkeys p).trans (hmem p).symm

/-! ## Runs -/

/-- The batches that get a file. -/
def partsOf (ops : List (Op α)) : Parts α := fun p => (batchesTo ops p).filter (!·.isEmpty)

theorem partsOf_write (ops : List (Op α)) (rank : UInt64 → Nat) (p : UInt64)
    {rs : List (VectorRecord α)} (hne : rs ≠ []) :
    partsOf (ops ++ [.writeBatch rank p rs]) =
      Function.update (partsOf ops) p (partsOf ops p ++ [rs]) := by
  funext q
  by_cases hq : q = p
  · subst hq
    simp [partsOf, batchesTo, Op.batchTo, hne]
  · simp [partsOf, batchesTo, Op.batchTo, hq, Ne.symm hq]

theorem partsOf_empty (ops : List (Op α)) (rank : UInt64 → Nat) (p : UInt64) :
    partsOf (ops ++ [.writeBatch rank p []]) = partsOf ops := by
  funext q
  by_cases hq : p = q <;> simp [partsOf, batchesTo, Op.batchTo, hq]

theorem partsOf_reopen (ops : List (Op α)) : partsOf (ops ++ [.reopen]) = partsOf ops := by
  funext q
  simp [partsOf, batchesTo, Op.batchTo]

theorem applyOk_write {s s' : ColdStore} {rank : UInt64 → Nat} {p : UInt64}
    {rs : List (VectorRecord α)} (h : applyOk K s (.writeBatch rank p rs) = some s') :
    (rs = [] ∧ s' = s) ∨ (rs ≠ [] ∧ s' = written K rank s p rs) := by
  by_cases hne : rs = []
  · subst hne
    have heq : some s = some s' := h
    cases heq
    exact .inl ⟨rfl, rfl⟩
  · rw [applyOk, apply, writeBatch_none K rank s p hne, Option.some.injEq] at h
    exact .inr ⟨hne, h.symm⟩

/-- A run keeps memory, metadata files and batch files in step. -/
theorem stored_run (hK : K.Lawful) {ops : List (Op α)} {s : ColdStore}
    (hrun : ((sessions K).restrict Fits).Run ⟨∅, ∅⟩ ops s) (hops : ∀ op ∈ ops, op.RoundTrips K) :
    Stored K s (partsOf ops) := by
  refine hrun.history (I := fun ops s => Stored K s (partsOf ops)) (Stored.empty K) ?_
  intro pre op s s' hpre h hst
  obtain ⟨hstep, hfits⟩ := hst
  have hop : op.RoundTrips K := hops op (hpre.subset (by simp))
  cases op with
  | reopen =>
    obtain ⟨s'', hopen, hstored⟩ := h.reopen hK
    have heq : applyOk K s .reopen = some s'' := by
      rw [applyOk, apply, hopen]
    have hs' : some s' = some s'' := hstep.symm.trans heq
    cases hs'
    rw [partsOf_reopen]
    exact hstored
  | writeBatch rank p rs =>
    rcases applyOk_write hstep with ⟨rfl, rfl⟩ | ⟨hne, rfl⟩
    · rw [partsOf_empty]
      exact h
    · have hfit := hfits.resolve_left (by simpa using hne)
      rw [partsOf_write pre rank p hne]
      exact h.writeBatch hK hne hop hfit.1 hfit.2

/-- What the store says of the batches written to it. -/
structure Shows (K : Codec α) (s : ColdStore) (batches : Parts α) : Prop where
  read : ∀ p, readPartition K s p = .ok (batches p).flatten
  metadata : ∀ p m, s.partitionMetadata p = some m →
    m.recordCount.toNat = (batches p).flatten.length ∧
    m.batchCount.toNat = ((batches p).filter (!·.isEmpty)).length
  unknown : ∀ p, s.partitionMetadata p = none ↔ ∀ b ∈ batches p, b = []
  partitions : ∀ rank p, p ∈ s.partitions rank ↔ ∃ b ∈ batches p, b ≠ []
  nodup : ∀ rank, (s.partitions rank).Nodup

theorem flatten_partsOf (ops : List (Op α)) (p : UInt64) :
    (partsOf ops p).flatten = (batchesTo ops p).flatten :=
  List.flatten_filter_not_isEmpty

theorem partsOf_eq_nil (ops : List (Op α)) (p : UInt64) :
    partsOf ops p = [] ↔ ∀ b ∈ batchesTo ops p, b = [] := by
  simp [partsOf, List.filter_eq_nil_iff]

theorem Stored.shows {s : ColdStore} {ops : List (Op α)} (h : Stored K s (partsOf ops)) :
    Shows K s (batchesTo ops) := by
  have hmem : ∀ p, p ∈ s.writers ↔ ∃ b ∈ batchesTo ops p, b ≠ [] := by
    intro p
    rw [h.holds.writers p, Ne, partsOf_eq_nil]
    simp
  refine ⟨?_, ?_, ?_, ?_, ?_⟩
  · intro p
    rw [h.holds.readPartition (h.short p), flatten_partsOf]
  · intro p m hm
    rw [← flatten_partsOf]
    exact ⟨h.records p m hm, h.holds.count p m hm⟩
  · intro p
    rw [partitionMetadata, AList.lookup_eq_none, hmem]
    simp
  · intro rank p
    rw [partitions, mem_keysInOrder, hmem]
  · intro rank
    exact (List.perm_insertionSort _ _).nodup_iff.mpr s.writers.keys_nodup

/-- While every write fits, the store reads as it was written, and every further
call returns. -/
theorem sessions_show (hK : K.Lawful) {ops : List (Op α)} {s : ColdStore}
    (hrun : ((sessions K).restrict Fits).Run ⟨∅, ∅⟩ ops s) (hops : ∀ op ∈ ops, op.RoundTrips K) :
    Shows K s (batchesTo ops) ∧ ∀ op, (apply K s op).2 = .ok () := by
  have hstored := stored_run hK hrun hops
  refine ⟨hstored.shows, ?_⟩
  intro op
  cases op with
  | reopen =>
    obtain ⟨s', hopen, _⟩ := hstored.reopen hK
    rw [apply, hopen]
  | writeBatch rank p rs =>
    by_cases hne : rs = []
    · subst hne
      rfl
    · rw [apply, writeBatch_none K rank s p hne]

/-! ## Concrete runs -/

def one : VectorRecord Lit := ⟨1, [.fin 5], .null, 0, 0⟩

theorem one_roundTrips : Readable one ∧ plain.text.backRecord one = one := ⟨by decide, rfl⟩

/-- Two partitions, an empty batch and a reopen between the batches of the first. -/
def twoSessions : List (Op Lit) :=
  [.writeBatch UInt64.toNat 3 [one, one], .writeBatch UInt64.toNat 8 [one], .reopen,
    .writeBatch UInt64.toNat 3 [], .writeBatch UInt64.toNat 3 [one]]

def twoSessionsStore : ColdStore :=
  (LTS.exec (applyOk plain) Fits ⟨∅, ∅⟩ twoSessions).get (by decide +kernel)

theorem sessions_show_two :
    Shows plain twoSessionsStore (batchesTo twoSessions) ∧
      ∀ op, (apply plain twoSessionsStore op).2 = .ok () := by
  refine sessions_show plain_lawful (LTS.run_of_exec (Option.some_get _).symm) ?_
  intro op hop
  simp only [twoSessions, List.mem_cons, List.not_mem_nil, or_false] at hop
  rcases hop with rfl | rfl | rfl | rfl | rfl <;> simp [Op.RoundTrips, one_roundTrips]

def fill : Op Lit := .writeBatch UInt64.toNat 0 [one]

def filled (k : Nat) : Parts Lit := Function.update (fun _ => []) 0 (List.replicate k [one])

theorem fill_run : ∀ n k s, Holds plain s (filled k) → k + n < 2 ^ 64 →
    ∃ s', (sessions plain).Run s (List.replicate n fill) s' ∧ Holds plain s' (filled (k + n)) := by
  intro n
  induction n with
  | zero => exact fun k s h _ => ⟨s, .nil s, h⟩
  | succ n ih =>
    intro k s h hroom
    have hlen : (filled k 0).length = k := by simp [filled]
    have hwrite := writeBatch_holds plain_lawful h (by simp : [one] ≠ [])
      (by simp [one_roundTrips.1]) (p := 0) (by omega)
      (writeBatch_none plain UInt64.toNat s 0 (by simp))
    have hnext : Function.update (filled k) 0 (filled k 0 ++ [[one].map plain.text.backRecord]) =
        filled (k + 1) := by
      rw [List.map_singleton, one_roundTrips.2]
      simp [filled, List.replicate_succ']
    rw [hnext] at hwrite
    obtain ⟨s', hrun, hs'⟩ := ih (k + 1) _ hwrite.2 (by omega)
    rw [Nat.add_assoc, Nat.add_comm 1 n] at hs'
    exact ⟨s', .cons rfl hrun, hs'⟩

theorem batchesTo_fill (n : Nat) :
    batchesTo (List.replicate n fill) 0 = List.replicate n [one] := by
  simp [batchesTo, fill, Op.batchTo]

theorem fill_short {s : ColdStore} {n : Nat} (hs : Holds plain s (filled n)) (hn : 2 ^ 32 ≤ n) :
    readPartition plain s 0 ≠ .ok (batchesTo (List.replicate n fill) 0).flatten := by
  rw [hs.readPartition_take, batchesTo_fill]
  intro heq
  rw [Except.ok.injEq] at heq
  have hlen := congrArg List.length heq
  simp [filled] at hlen
  omega

theorem fill_roundTrips (n : Nat) : ∀ op ∈ List.replicate n fill, op.RoundTrips plain := by
  intro op hop
  rw [List.eq_of_mem_replicate hop]
  simp [fill, Op.RoundTrips, one_roundTrips]

/-- The batch `2 ^ 32` is written, but the reader stops in front of it. -/
theorem last_batch_is_lost : ∃ s,
    (sessions plain).Run ⟨∅, ∅⟩ (List.replicate (2 ^ 32) fill) s ∧
    (∀ op ∈ List.replicate (2 ^ 32) fill, op.RoundTrips plain) ∧
    readPartition plain s 0 ≠ .ok (batchesTo (List.replicate (2 ^ 32) fill) 0).flatten := by
  have hstart : Holds plain ⟨∅, ∅⟩ (filled 0) := by
    have hnone : filled 0 = fun _ => [] := by
      funext p
      simp [filled, Function.update_apply]
    rw [hnone]
    exact Holds.empty plain
  obtain ⟨s, hrun, hs⟩ := fill_run (2 ^ 32) 0 _ hstart (by omega)
  rw [Nat.zero_add] at hs
  exact ⟨s, hrun, fill_roundTrips _, fill_short hs (Nat.le_refl _)⟩

end Tesseract.L3.ColdStore
