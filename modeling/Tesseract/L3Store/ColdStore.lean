import Mathlib.Data.List.Sort
import Tesseract.Core.Disk
import Tesseract.Core.Error
import Tesseract.L3Store.Json

/-!
# The cold store

Model of `tesseract-storage/src/cold_store.rs` over a `Disk`. `serde_json` and
`zstd` are the parameter `Codec`. The order in which the `HashMap` of partitions
is iterated is given by a `rank` of their ids; which writes fail is told by a
`WriteFault`.

* `writeBatch_holds`: a batch of readable records is added at the end of its
  partition, and the other partitions stay as they are.
* `Holds.readPartition`: a partition is read as the concatenation of its batches.
* `Holds.openStore`: a store that was written to can be opened.
-/
namespace Tesseract.L3

open Serde

variable {α : Type} [F64 α]

/-- The files below `data_dir`: `partition_{id}/batch_{n:06}.zstd`,
`partition_{id}/meta.json` and `manifest.json`. -/
inductive ColdFile where
  | batch (partition : UInt64) (n : Nat)
  | «meta» (partition : UInt64)
  | manifest
  deriving DecidableEq, Repr

/-- mirrors tesseract-storage/src/cold_store.rs:36-43 -/
structure PartitionMeta where
  recordCount : UInt64
  batchCount : UInt64
  sizeBytes : UInt64
  deriving DecidableEq, Repr

/-- `serde_json`, and `zstd::{encode_all, decode_all}` at the configured level. -/
structure Codec (α : Type) [F64 α] where
  text : Text α
  encodeAll : Bytes → Bytes
  decodeAll : Bytes → Option Bytes

/-- What is compressed is decompressed, and printed JSON is parsed. -/
structure Codec.Lawful (K : Codec α) : Prop where
  text : K.text.Lawful
  zstd : ∀ bs, K.decodeAll (K.encodeAll bs) = some bs

/-- mirrors tesseract-storage/src/cold_store.rs:77-82 -/
structure ColdStore where
  disk : Disk ColdFile
  writers : AList fun _ : UInt64 => PartitionMeta

/-- What happens to the write of a file: `none`, it succeeds; `some none`, the
file cannot be opened; `some (some k)`, it stops behind `k` bytes. -/
abbrev WriteFault := ColdFile → Option (Option Nat)

def WriteFault.none : WriteFault := fun _ => Option.none

namespace ColdStore

/-! ## JSON of the metadata files -/

/-- The derived `Serialize for PartitionMeta` -/
def encodeMeta (m : PartitionMeta) : Value α :=
  .obj [("record_count", .nat m.recordCount), ("batch_count", .nat m.batchCount),
    ("size_bytes", .nat m.sizeBytes)]

/-- The derived `Deserialize for PartitionMeta` -/
def decodeMeta : Value α → Option PartitionMeta
  | .obj fields => do
    let recordCount ← field fields "record_count" >>= decodeU64
    let batchCount ← field fields "batch_count" >>= decodeU64
    let sizeBytes ← field fields "size_bytes" >>= decodeU64
    some ⟨recordCount, batchCount, sizeBytes⟩
  | .arr [recordCount, batchCount, sizeBytes] => do
    let recordCount ← decodeU64 recordCount
    let batchCount ← decodeU64 batchCount
    let sizeBytes ← decodeU64 sizeBytes
    some ⟨recordCount, batchCount, sizeBytes⟩
  | _ => none

def decodeIds : Value α → Option (List UInt64)
  | .arr xs => xs.mapM decodeU64
  | _ => none

/-- The derived `Serialize for Manifest`
mirrors tesseract-storage/src/cold_store.rs:53-55 -/
def encodeManifest (partitions : List UInt64) : Value α :=
  .obj [("partitions", .arr (partitions.map .nat))]

/-- The derived `Deserialize for Manifest` -/
def decodeManifest : Value α → Option (List UInt64)
  | .obj fields => field fields "partitions" >>= decodeIds
  | .arr [partitions] => decodeIds partitions
  | _ => none

/-! ## Write -/

/-- `tokio::fs::write` -/
def putFile (fault : WriteFault) (d : Disk ColdFile) (f : ColdFile) (bs : Bytes) :
    Disk ColdFile × Result Unit :=
  match fault f with
  | none => (d.put f bs, .ok ())
  | some none => (d, .error (.ioError "open"))
  | some (some k) => (d.put f (bs.take k), .error (.ioError "write"))

/-- `HashMap::keys` -/
def keysInOrder (rank : UInt64 → Nat) (writers : AList fun _ : UInt64 => PartitionMeta) :
    List UInt64 :=
  writers.keys.insertionSort fun a b => rank a ≤ rank b

/-- mirrors tesseract-storage/src/cold_store.rs:122-125 -/
def batchNum (s : ColdStore) (partition : UInt64) : UInt64 :=
  match s.writers.lookup partition with
  | some m => m.batchCount + 1
  | none => 1

/-- The metadata behind a batch of `count` records in `size` bytes.
mirrors tesseract-storage/src/cold_store.rs:134-137 -/
def updateMeta (s : ColdStore) (partition : UInt64) (count size : Nat) : PartitionMeta :=
  let m := (s.writers.lookup partition).getD ⟨0, 0, 0⟩
  ⟨m.recordCount + .ofNat count, s.batchNum partition, m.sizeBytes + .ofNat size⟩

/-- mirrors tesseract-storage/src/cold_store.rs:108-152 -/
def writeBatch (K : Codec α) (fault : WriteFault) (rank : UInt64 → Nat) (s : ColdStore)
    (partition : UInt64) (records : List (VectorRecord α)) : ColdStore × Result Unit :=
  if records.isEmpty then (s, .ok ())
  else
    let compressed := K.encodeAll (K.text.print (encodeBatch records))
    match putFile fault s.disk (.batch partition (s.batchNum partition).toNat) compressed with
    | (d, .error x) => (⟨d, s.writers⟩, .error x)
    | (d, .ok ()) =>
      let m := s.updateMeta partition records.length compressed.length
      let writers := s.writers.insert partition m
      match putFile fault d (.meta partition) (K.text.print (encodeMeta m)) with
      | (d, .error x) => (⟨d, writers⟩, .error x)
      | (d, .ok ()) =>
        let (d, r) :=
          putFile fault d .manifest (K.text.print (encodeManifest (keysInOrder rank writers)))
        (⟨d, writers⟩, r)

/-! ## Read and open -/

/-- The records of one batch file.
mirrors tesseract-storage/src/cold_store.rs:174-177 -/
def decodeFile (K : Codec α) (compressed : Bytes) : Result (List (VectorRecord α)) :=
  match K.decodeAll compressed with
  | none => .error (.ioError "zstd")
  | some decompressed =>
    match K.text.parse decompressed >>= decodeBatch with
    | none => .error (.jsonError "batch")
    | some batch => .ok batch

/-- The loop over the batch files. `batch_num` is a `u32`: 2^32 rounds try
every number.
mirrors tesseract-storage/src/cold_store.rs:168-180 -/
def readBatches (K : Codec α) (d : Disk ColdFile) (partition : UInt64) :
    Nat → UInt32 → List (VectorRecord α) → Result (List (VectorRecord α))
  | 0, _, allRecords => .ok allRecords
  | fuel + 1, batchNum, allRecords =>
    match d.read (.batch partition batchNum.toNat) with
    | none => .ok allRecords
    | some compressed => do
      let batch ← decodeFile K compressed
      readBatches K d partition fuel (batchNum + 1) (allRecords ++ batch)

/-- mirrors tesseract-storage/src/cold_store.rs:158-183 -/
def readPartition (K : Codec α) (s : ColdStore) (partition : UInt64) :
    Result (List (VectorRecord α)) :=
  readBatches K s.disk partition (2 ^ 32) 1 []

/-- mirrors tesseract-storage/src/cold_store.rs:192-195 -/
def partitions (rank : UInt64 → Nat) (s : ColdStore) : List UInt64 := keysInOrder rank s.writers

/-- `meta.json` of a partition, if it can be read.
mirrors tesseract-storage/src/cold_store.rs:212-219 -/
def readMeta (K : Codec α) (d : Disk ColdFile) (partition : UInt64) : Option PartitionMeta :=
  (d.read (.meta partition)).bind K.text.parse >>= decodeMeta

/-- mirrors tesseract-storage/src/cold_store.rs:200-222 -/
def loadManifest (K : Codec α) (d : Disk ColdFile) :
    Result (AList fun _ : UInt64 => PartitionMeta) :=
  match d.read .manifest with
  | none => .ok ∅
  | some content =>
    match K.text.parse content >>= decodeManifest with
    | none => .error (.jsonError "manifest")
    | some pids =>
      .ok (pids.foldl (fun map pid =>
        match readMeta K d pid with
        | some m => map.insert pid m
        | none => map) ∅)

/-- mirrors tesseract-storage/src/cold_store.rs:89-93 -/
def openStore (K : Codec α) (d : Disk ColdFile) : Result ColdStore := do
  let writers ← loadManifest K d
  .ok ⟨d, writers⟩

/-! ## What the batch files hold -/

/-- A record that JSON can carry through a batch file: finite components, and
metadata that leaves room for the two containers around it. -/
def Readable (r : VectorRecord α) : Prop := FiniteVec r.vector ∧ r.metadata.depth ≤ 125

instance (r : VectorRecord α) : Decidable (Readable r) := inferInstanceAs (Decidable (_ ∧ _))

theorem decodeFile_encode {K : Codec α} (hK : K.Lawful) {rs : List (VectorRecord α)}
    (h : ∀ r ∈ rs, Readable r) :
    decodeFile K (K.encodeAll (K.text.print (encodeBatch rs))) =
      .ok (rs.map K.text.backRecord) := by
  have hdepth : (encodeBatch rs).depth ≤ 125 + 2 := by
    refine depth_encodeBatch fun r hr => ?_
    have := (h r hr).2
    omega
  have hparse := hK.text (encodeBatch rs) (by omega)
  have hdecode := decodeBatch_encodeBatch K.text fun r hr => (h r hr).1
  rw [decodeFile, hK.zstd]
  simp only [hparse, Option.bind_eq_bind, Option.bind_some, hdecode]

/-- The batches of each partition, in the order they were written and as they
are read. -/
abbrev Parts (α : Type) [F64 α] := UInt64 → List (List (VectorRecord α))

/-- The store holds the batches `parts`. -/
structure Holds (K : Codec α) (s : ColdStore) (parts : Parts α) : Prop where
  batches : ∀ p i b, (parts p)[i]? = some b → ∃ c, s.disk.read (.batch p (i + 1)) = some c ∧
    decodeFile K c = .ok b
  noMore : ∀ p n, n = 0 ∨ (parts p).length < n → s.disk.read (.batch p n) = none
  writers : ∀ p, p ∈ s.writers ↔ parts p ≠ []
  count : ∀ p m, s.writers.lookup p = some m → m.batchCount.toNat = (parts p).length
  manifest : s.disk.read .manifest = none ∨
    ∃ pids : List UInt64, s.disk.read .manifest = some (K.text.print (encodeManifest pids))

theorem Holds.empty (K : Codec α) : Holds K ⟨∅, ∅⟩ fun _ => [] := by
  refine ⟨?_, fun _ _ _ => rfl, ?_, ?_, .inl rfl⟩
  · intro p i b hi
    simp at hi
  · intro p
    simp
  · intro p m hm
    cases hm

/-- The number behind `n` batches, while the numbers do not wrap. -/
theorem batchNum_eq {s : ColdStore} {p : UInt64} {n : Nat} (hknown : p ∈ s.writers ↔ n ≠ 0)
    (hcount : ∀ m, s.writers.lookup p = some m → m.batchCount.toNat = n) (hroom : n + 1 < 2 ^ 64) :
    (s.batchNum p).toNat = n + 1 := by
  unfold ColdStore.batchNum
  cases hl : s.writers.lookup p with
  | none =>
    have hn : n = 0 := by
      by_contra hne
      exact AList.lookup_eq_none.mp hl (hknown.mpr hne)
    rw [hn]
    rfl
  | some m =>
    have hm := hcount m hl
    show (m.batchCount + 1).toNat = _
    rw [UInt64.toNat_add, UInt64.toNat_one, hm]
    omega

/-- The batch number of the next write, while the numbers do not wrap. -/
theorem Holds.batchNum {K : Codec α} {s : ColdStore} {parts : Parts α} (h : Holds K s parts)
    {p : UInt64} (hroom : (parts p).length + 1 < 2 ^ 64) :
    (s.batchNum p).toNat = (parts p).length + 1 :=
  batchNum_eq (by rw [h.writers, Ne, ← List.length_eq_zero_iff]) (h.count p) hroom

theorem writeBatch_nil (K : Codec α) (fault : WriteFault) (rank : UInt64 → Nat) (s : ColdStore)
    (p : UInt64) :
    writeBatch K fault rank s p [] = (s, .ok ()) := rfl

/-- The store behind a write that succeeds. -/
def written (K : Codec α) (rank : UInt64 → Nat) (s : ColdStore) (p : UInt64)
    (rs : List (VectorRecord α)) :
    ColdStore :=
  let compressed := K.encodeAll (K.text.print (encodeBatch rs))
  let m := s.updateMeta p rs.length compressed.length
  let writers := s.writers.insert p m
  ⟨((s.disk.put (.batch p (s.batchNum p).toNat) compressed).put (.meta p)
    (K.text.print (encodeMeta m))).put .manifest
    (K.text.print (encodeManifest (keysInOrder rank writers))), writers⟩

theorem writeBatch_none (K : Codec α) (rank : UInt64 → Nat) (s : ColdStore) (p : UInt64)
    {rs : List (VectorRecord α)} (hne : rs ≠ []) :
    writeBatch K .none rank s p rs = (written K rank s p rs, .ok ()) := by
  have hemp : rs.isEmpty = false := by simpa using hne
  rw [writeBatch, hemp]
  rfl

theorem written_batch (K : Codec α) (rank : UInt64 → Nat) (s : ColdStore) (p q : UInt64) (n : Nat)
    (rs : List (VectorRecord α)) : (written K rank s p rs).disk.read (.batch q n) =
      if q = p ∧ n = (s.batchNum p).toNat then some (K.encodeAll (K.text.print (encodeBatch rs)))
      else s.disk.read (.batch q n) := by
  simp only [written, Disk.read_put, reduceCtorEq, if_false, ColdFile.batch.injEq]

theorem length_more (parts : Parts α) (p q : UInt64) (b : List (VectorRecord α)) :
    (Function.update parts p (parts p ++ [b]) q).length =
      (parts q).length + if q = p then 1 else 0 := by
  by_cases hq : q = p
  · subst hq
    rw [Function.update_self, List.length_append, List.length_singleton, if_pos rfl]
  · rw [Function.update_of_ne hq, if_neg hq, Nat.add_zero]

theorem getElem?_more (parts : Parts α) (p q : UInt64) (b : List (VectorRecord α)) (i : Nat) :
    (Function.update parts p (parts p ++ [b]) q)[i]? =
      if q = p ∧ i = (parts p).length then some b else (parts q)[i]? := by
  by_cases hq : q = p
  · subst hq
    rw [Function.update_self, List.getElem?_append]
    by_cases hlt : i < (parts q).length
    · rw [if_pos hlt, if_neg (by omega)]
    · rw [if_neg hlt, List.getElem?_singleton, List.getElem?_eq_none (by omega)]
      by_cases hi : i = (parts q).length
      · rw [if_pos (by omega), if_pos ⟨rfl, hi⟩]
      · rw [if_neg (by omega), if_neg (fun hc => hi hc.2)]
  · rw [Function.update_of_ne hq, if_neg (fun hc => hq hc.1)]

theorem mem_more {parts : Parts α} {p q : UInt64} {b b' : List (VectorRecord α)}
    (h : b' ∈ parts q) : b' ∈ Function.update parts p (parts p ++ [b]) q := by
  by_cases hq : q = p
  · subst hq
    simp [h]
  · rw [Function.update_of_ne hq]
    exact h

theorem ne_nil_more {parts : Parts α} {p q : UInt64} {b : List (VectorRecord α)} :
    Function.update parts p (parts p ++ [b]) q ≠ [] ↔ q = p ∨ parts q ≠ [] := by
  by_cases hq : q = p
  · subst hq
    simp
  · simp [hq]

theorem mem_flatten_more {parts : Parts α} {p q : UInt64} {b : List (VectorRecord α)}
    {r : VectorRecord α} : r ∈ (Function.update parts p (parts p ++ [b]) q).flatten ↔
      r ∈ (parts q).flatten ∨ q = p ∧ r ∈ b := by
  by_cases hq : q = p
  · subst hq
    simp
  · simp [hq]

theorem short_more {parts : Parts α} {p : UInt64} {b : List (VectorRecord α)} {n : Nat}
    (h : ∀ q, (parts q).length < n) (hp : (parts p).length + 1 < n) :
    ∀ q, (Function.update parts p (parts p ++ [b]) q).length < n := by
  intro q
  have := h q
  rw [length_more]
  split
  · next hq => subst hq; omega
  · omega

/-- Records that are read back as they are. -/
theorem map_backRecord {K : Codec α} {rs : List (VectorRecord α)}
    (h : ∀ r ∈ rs, Readable r ∧ K.text.backRecord r = r) : rs.map K.text.backRecord = rs := by
  rw [List.map_congr_left fun r hr => (h r hr).2, List.map_id']

theorem written_lookup (K : Codec α) (rank : UInt64 → Nat) (s : ColdStore) (p q : UInt64)
    (rs : List (VectorRecord α)) :
    (written K rank s p rs).writers.lookup q =
      if q = p then some (s.updateMeta p rs.length
        (K.encodeAll (K.text.print (encodeBatch rs))).length)
      else s.writers.lookup q := by
  by_cases hq : q = p
  · subst hq
    rw [if_pos rfl]
    exact AList.lookup_insert s.writers
  · rw [if_neg hq]
    exact AList.lookup_insert_ne hq

/-- A written batch is the last one of its partition. -/
theorem writeBatch_holds {K : Codec α} (hK : K.Lawful) {s s' : ColdStore} {parts : Parts α}
    (h : Holds K s parts) {rank : UInt64 → Nat} {p : UInt64} {rs : List (VectorRecord α)}
    {r : Result Unit} (hne : rs ≠ []) (hrs : ∀ r ∈ rs, Readable r)
    (hroom : (parts p).length + 1 < 2 ^ 64) (hw : writeBatch K .none rank s p rs = (s', r)) :
    r = .ok () ∧ Holds K s' (Function.update parts p (parts p ++ [rs.map K.text.backRecord])) := by
  rw [writeBatch_none K rank s p hne] at hw
  cases hw
  refine ⟨rfl, ?_⟩
  have hnum := h.batchNum hroom
  have hbatch := fun q n => written_batch K rank s p q n rs
  simp only [hnum] at hbatch
  have hwriters : (written K rank s p rs).writers = s.writers.insert p _ := rfl
  refine ⟨?_, ?_, ?_, ?_, ?_⟩
  · intro q i b hi
    rw [getElem?_more] at hi
    rw [hbatch]
    split at hi
    · next hlast =>
      cases hi
      rw [if_pos ⟨hlast.1, by omega⟩]
      exact ⟨_, rfl, decodeFile_encode hK hrs⟩
    · next hold =>
      rw [if_neg (fun hc => hold ⟨hc.1, by omega⟩)]
      exact h.batches q i b hi
  · intro q n hn
    rw [length_more] at hn
    rw [hbatch, if_neg]
    · exact h.noMore q n (by omega)
    · rintro ⟨rfl, rfl⟩
      rw [if_pos rfl] at hn
      omega
  · intro q
    rw [hwriters, AList.mem_insert, ne_nil_more, h.writers q]
  · intro q m' hm'
    rw [written_lookup] at hm'
    rw [length_more]
    by_cases hq : q = p
    · subst hq
      rw [if_pos rfl, Option.some.injEq] at hm'
      rw [if_pos rfl, ← hm']
      exact hnum
    · rw [if_neg hq] at hm'
      rw [if_neg hq]
      exact h.count q m' hm'
  · exact .inr ⟨_, by rw [written, Disk.read_put, if_pos rfl]⟩

/-! ## Reading back -/

/-- Behind the batch `2 ^ 32 - 1` the counter is zero, and no file has that number. -/
theorem readBatches_eq {K : Codec α} {s : ColdStore} {parts : Parts α} (h : Holds K s parts)
    (p : UInt64) :
    ∀ fuel i acc, 2 ^ 32 ≤ fuel + i → i < 2 ^ 32 →
    readBatches K s.disk p fuel (.ofNat (i + 1)) acc =
      .ok (acc ++ (((parts p).take (2 ^ 32 - 1)).drop i).flatten) := by
  intro fuel
  induction fuel with
  | zero => intro i acc hf hi; omega
  | succ fuel ih =>
    intro i acc hf hi
    have hlen := List.length_take (i := 2 ^ 32 - 1) (l := parts p)
    have hnum : (UInt32.ofNat (i + 1)).toNat = (i + 1) % 2 ^ 32 := UInt32.toNat_ofNat'
    rw [readBatches, hnum]
    by_cases hlt : i < ((parts p).take (2 ^ 32 - 1)).length
    · have hi' : i < (parts p).length := by omega
      obtain ⟨c, hc, hdec⟩ := h.batches p i (parts p)[i] (List.getElem?_eq_getElem hi')
      have hnext : UInt32.ofNat (i + 1) + 1 = UInt32.ofNat (i + 1 + 1) := by
        rw [UInt32.ofNat_add (i + 1) 1]
        rfl
      rw [Nat.mod_eq_of_lt (by omega), hc]
      simp only [hdec, hnext]
      show readBatches K s.disk p fuel (UInt32.ofNat (i + 1 + 1)) (acc ++ (parts p)[i]) = _
      rw [ih (i + 1) _ (by omega) (by omega), List.drop_eq_getElem_cons hlt, List.flatten_cons,
        List.getElem_take, List.append_assoc]
    · rw [h.noMore p ((i + 1) % 2 ^ 32) (by omega), List.drop_eq_nil_of_le (by omega)]
      simp

/-- A partition is read as its first `2 ^ 32 - 1` batches, one after the other. -/
theorem Holds.readPartition_take {K : Codec α} {s : ColdStore} {parts : Parts α}
    (h : Holds K s parts) (p : UInt64) :
    readPartition K s p = .ok ((parts p).take (2 ^ 32 - 1)).flatten := by
  have heq := readBatches_eq h p (2 ^ 32) 0 [] (by omega) (by omega)
  rw [List.drop_zero, List.nil_append] at heq
  exact heq

/-- A partition is read as its batches, one after the other. -/
theorem Holds.readPartition {K : Codec α} {s : ColdStore} {parts : Parts α} (h : Holds K s parts)
    {p : UInt64} (hroom : (parts p).length < 2 ^ 32) :
    readPartition K s p = .ok (parts p).flatten := by
  rw [h.readPartition_take, List.take_of_length_le (by omega)]

/-- However many batches there are, reading succeeds and returns records of the
partition only. -/
theorem Holds.readPartition_sub {K : Codec α} {s : ColdStore} {parts : Parts α}
    (h : Holds K s parts) (p : UInt64) :
    ∃ rs, ColdStore.readPartition K s p = .ok rs ∧ ∀ r ∈ rs, r ∈ (parts p).flatten := by
  refine ⟨_, h.readPartition_take p, ?_⟩
  intro r hr
  obtain ⟨b, hb, hr⟩ := List.mem_flatten.mp hr
  exact List.mem_flatten.mpr ⟨b, List.mem_of_mem_take hb, hr⟩

theorem decodeManifest_encodeManifest (t : Text α) (pids : List UInt64) :
    decodeManifest ((encodeManifest pids).map t.reread) = some pids := by
  have hids : ∀ l : List UInt64, (l.map (Json.map t.reread ∘ Json.nat)).mapM decodeU64 =
    some l := by
    intro l
    induction l with
    | nil => rfl
    | cons n l ih =>
      rw [List.map_cons, List.mapM_cons, ih]
      rfl
  rw [encodeManifest, Json.map_obj, Json.mapFields_cons, Json.mapFields_nil, Json.map_arr,
    Json.mapList_eq, List.map_map]
  exact hids pids

theorem depth_encodeManifest (pids : List UInt64) :
    (encodeManifest pids : Value α).depth ≤ 127 := by
  have hlist : Json.depthList (pids.map (@Json.nat (Finite α))) ≤ 0 := by
    rw [Json.depthList_le]
    intro x hx
    obtain ⟨n, _, rfl⟩ := List.mem_map.mp hx
    exact Nat.le_refl 0
  simp only [encodeManifest, Json.depth_obj, Json.depthFields_cons, Json.depthFields_nil,
    Json.depth_arr]
  omega

/-- What the manifest lists. -/
def Listed (K : Codec α) (d : Disk ColdFile) (pids : List UInt64) : Prop :=
  (d.read .manifest = none ∧ pids = []) ∨
    d.read .manifest = some (K.text.print (encodeManifest pids))

theorem lookup_foldl (K : Codec α) (d : Disk ColdFile) (p : UInt64) :
    ∀ (pids : List UInt64) (map : AList fun _ : UInt64 => PartitionMeta),
    (pids.foldl (fun map pid =>
        match readMeta K d pid with
        | some m => map.insert pid m
        | none => map) map).lookup p =
      if p ∈ pids then (readMeta K d p).or (map.lookup p) else map.lookup p := by
  intro pids
  induction pids with
  | nil => simp
  | cons pid pids ih =>
    intro map
    rw [List.foldl_cons, ih]
    by_cases hp : p = pid
    · subst hp
      cases hm : readMeta K d p <;> simp
    · have hstep : (match readMeta K d pid with
          | some m => map.insert pid m
          | none => map).lookup p = map.lookup p := by
        cases readMeta K d pid with
        | none => rfl
        | some m => exact AList.lookup_insert_ne hp
      rw [hstep]
      simp [hp]

/-- A partition is known behind an open when the manifest lists it and its
`meta.json` can be read. -/
theorem Listed.loadManifest {K : Codec α} (hK : K.Lawful) {d : Disk ColdFile} {pids : List UInt64}
    (h : Listed K d pids) :
    ∃ writers, loadManifest K d = .ok writers ∧
      ∀ p, writers.lookup p = if p ∈ pids then readMeta K d p else none := by
  unfold ColdStore.loadManifest
  rcases h with ⟨hm, rfl⟩ | hm
  · rw [hm]
    exact ⟨∅, rfl, fun p => by simp⟩
  · have hparse := hK.text _ (depth_encodeManifest pids)
    rw [hm]
    simp only [hparse, Option.bind_eq_bind, Option.bind_some, decodeManifest_encodeManifest]
    refine ⟨_, rfl, fun p => ?_⟩
    rw [lookup_foldl]
    simp

/-- A store that was written to can be opened. -/
theorem Holds.openStore {K : Codec α} (hK : K.Lawful) {s : ColdStore} {parts : Parts α}
    (h : Holds K s parts) :
    ∃ writers, ColdStore.openStore K s.disk = .ok ⟨s.disk, writers⟩ := by
  have hlisted : ∃ pids, Listed K s.disk pids := by
    rcases h.manifest with hm | ⟨pids, hm⟩
    · exact ⟨[], .inl ⟨hm, rfl⟩⟩
    · exact ⟨pids, .inr hm⟩
  obtain ⟨pids, hpids⟩ := hlisted
  obtain ⟨writers, hw, _⟩ := hpids.loadManifest hK
  refine ⟨writers, ?_⟩
  rw [ColdStore.openStore, hw]
  rfl

theorem decodeMeta_encodeMeta (t : Text α) (m : PartitionMeta) :
    decodeMeta ((encodeMeta m).map t.reread) = some m := by
  simp [encodeMeta, decodeMeta, field, decodeU64]

/-- `meta.json` is read back. -/
theorem readMeta_encodeMeta {K : Codec α} (hK : K.Lawful) {d : Disk ColdFile} {p : UInt64}
    {m : PartitionMeta} (h : d.read (.meta p) = some (K.text.print (encodeMeta m))) :
    readMeta K d p = some m := by
  have hparse := hK.text (encodeMeta m) (by simp [encodeMeta])
  rw [readMeta, h]
  simp only [Option.bind_some, hparse, Option.bind_eq_bind, decodeMeta_encodeMeta]

end ColdStore

end Tesseract.L3
