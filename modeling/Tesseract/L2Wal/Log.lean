import Mathlib.Data.List.Sort
import Tesseract.Core.Crc32
import Tesseract.Core.Disk
import Tesseract.L1Encoding.SegmentName
import Tesseract.L1Encoding.WalEntry

/-!
# `WriteAheadLog`: open, append, recover, compact, checkpoint

Model of `tesseract-storage/src/wal.rs` over a `Disk`. Every operation is a
function of the directory and the in-memory `WriteAheadLog`; an I/O call that
can fail is told so by a `Fault`, so that each `?` of the source has its branch.
`crc32fast` and `bincode` are the parameter `Crates`.

A write is in the file when `write_all` returns: the buffer inside
`tokio::fs::File` is not modelled, nor is the order of directory entries on disk.

* `listSegments_unique`: the listing is determined by the names in the
  directory.
* `recover_eq`: recovery is the concatenation, over the listed segments in the
  order of their ids, of the entries of each segment past the checkpoint. The
  reader stops at a damaged entry of a segment, not at the damaged segment.
-/
namespace Tesseract.L2.Log

open L1.Wal L1.SegmentName Endian

/-- mirrors tesseract-storage/src/types.rs:22-27 -/
structure Checkpoint where
  lastFlushedTxnId : UInt64
  segmentId : UInt64
  deriving DecidableEq, Repr

/-- The third-party functions the log calls: `crc32fast::Hasher` and
`bincode::{serialize, deserialize}` of a `Checkpoint`. -/
structure Crates where
  crc : Bytes → UInt32
  serialize : Checkpoint → Bytes
  deserialize : Bytes → Option Checkpoint

/-- The crates themselves: CRC-32, and the fixed-width little-endian fields of
bincode 1.3, whose `deserialize` ignores what follows. -/
def crates : Crates where
  crc := Crc32.hash
  serialize cp := u64le cp.lastFlushedTxnId ++ u64le cp.segmentId
  deserialize bs :=
    if bs.length < 16 then none else some ⟨u64of (slice bs 0 8), u64of (slice bs 8 8)⟩

/-- mirrors tesseract-storage/src/types.rs:29-36 -/
inductive WriteMode where
  | durable | fast
  deriving DecidableEq, Repr

/-- `wal_dir` is the directory itself; `fsync_interval_ms` is read nowhere.
mirrors tesseract-storage/src/types.rs:38-45 -/
structure WalConfig where
  segmentSize : Nat
  fsyncIntervalOps : Nat
  deriving DecidableEq, Repr

/-- `file` is the path the handle was opened on.
mirrors tesseract-storage/src/wal.rs:135-140 -/
structure SegmentWriter where
  file : FileName
  segmentId : UInt64
  bytesWritten : Nat
  opsSinceFsync : Nat
  deriving DecidableEq, Repr

/-- mirrors tesseract-storage/src/wal.rs:180-184 -/
structure WriteAheadLog where
  config : WalConfig
  currentSegment : SegmentWriter
  nextTxnId : UInt64
  deriving DecidableEq, Repr

abbrev Dir := Disk FileName

/-- An open log on its directory. -/
structure Session where
  disk : Dir
  wal : WriteAheadLog

/-- The I/O call of an `append` that fails: the fsync or the create of a
rotation, the `write_all` (after `k` bytes reached the file), the last fsync. -/
inductive Fault where
  | none | rotateFsync | rotateCreate | write (k : Nat) | fsync
  deriving DecidableEq, Repr

/-! ## Segment writer -/

/-- mirrors tesseract-storage/src/wal.rs:144-147 -/
def SegmentWriter.create (d : Dir) (path : FileName) (id : UInt64) : Dir × SegmentWriter :=
  (d.create path, ⟨path, id, 0, 0⟩)

/-- mirrors tesseract-storage/src/wal.rs:150-155 -/
def SegmentWriter.append (d : Dir) (path : FileName) (id : UInt64) : SegmentWriter :=
  ⟨path, id, ((d.read path).getD []).length, 0⟩

/-- mirrors tesseract-storage/src/wal.rs:158-163 -/
def SegmentWriter.writeEntry (fault : Fault) (d : Dir) (seg : SegmentWriter) (entryBytes : Bytes) :
    Dir × SegmentWriter × Result Unit :=
  match fault with
  | .write k => (d.write seg.file (entryBytes.take k), seg, .error (.ioError "write"))
  | _ =>
    (d.write seg.file entryBytes,
      { seg with bytesWritten := seg.bytesWritten + entryBytes.length,
                 opsSinceFsync := seg.opsSinceFsync + 1 }, .ok ())

/-- mirrors tesseract-storage/src/wal.rs:166-171 -/
def SegmentWriter.fsync (fails : Bool) (d : Dir) (seg : SegmentWriter) :
    Dir × SegmentWriter × Result Unit :=
  if fails then (d, seg, .error (.ioError "fsync"))
  else (d.sync seg.file, { seg with opsSinceFsync := 0 }, .ok ())

/-! ## Listing and reading the directory -/

/-- mirrors tesseract-storage/src/wal.rs:371-393 -/
def listSegments (d : Dir) : List (UInt64 × FileName) :=
  (d.keys.filterMap fun n => (segmentIdOf n).map fun id => (id, n)).insertionSort fun a b =>
    a.1 ≤ b.1

/-- mirrors tesseract-storage/src/wal.rs:449-454 -/
def readCheckpoint (C : Crates) (d : Dir) : Option Checkpoint :=
  (d.read checkpointName).bind C.deserialize

/-- The loop over the segments.
mirrors tesseract-storage/src/wal.rs:270-277 -/
def recoverLoop (C : Crates) (d : Dir) (lastFlushed : UInt64) :
    List (UInt64 × FileName) → List WalEntry → Result (List WalEntry)
  | [], entries => .ok entries
  | (segId, segPath) :: rest, entries => do
    let segEntries ← readSegmentEntries C.crc (d.read segPath) segId lastFlushed
    recoverLoop C d lastFlushed rest (entries ++ segEntries)

/-- The `last_flushed` of `recover`, 0 without a readable checkpoint. -/
def lastFlushed (C : Crates) (d : Dir) : UInt64 :=
  match readCheckpoint C d with
  | some cp => cp.lastFlushedTxnId
  | none => 0

/-- mirrors tesseract-storage/src/wal.rs:263-281 -/
def recover (C : Crates) (d : Dir) : Result (List WalEntry) :=
  recoverLoop C d (lastFlushed C d) (listSegments d) []

/-! ## Open and append -/

/-- `next_txn_id` comes from the checkpoint alone.
mirrors tesseract-storage/src/wal.rs:187-219 -/
def openLog (C : Crates) (config : WalConfig) (d : Dir) : Session :=
  let nextId := match readCheckpoint C d with
    | some cp => cp.lastFlushedTxnId + 1
    | none => 1
  match (listSegments d).getLast? with
  | some (maxId, maxPath) => ⟨d, ⟨config, SegmentWriter.append d maxPath maxId, nextId⟩⟩
  | none =>
    let (d', seg) := SegmentWriter.create d (segmentName 0) 0
    ⟨d', ⟨config, seg, nextId⟩⟩

/-- The current segment has no room for `len` more bytes. -/
def WriteAheadLog.full (wal : WriteAheadLog) (len : Nat) : Prop :=
  wal.config.segmentSize < wal.currentSegment.bytesWritten + len

instance (wal : WriteAheadLog) (len : Nat) : Decidable (wal.full len) :=
  inferInstanceAs (Decidable (_ < _))

/-- Rotate if the current segment is full.
mirrors tesseract-storage/src/wal.rs:233-241 -/
def rotateIfFull (fault : Fault) (s : Session) (len : Nat) : Dir × SegmentWriter × Result Unit :=
  if s.wal.full len then
    match s.wal.currentSegment.fsync (fault = .rotateFsync) s.disk with
    | (d, seg, .error x) => (d, seg, .error x)
    | (d, seg, .ok ()) =>
      if fault = .rotateCreate then (d, seg, .error (.ioError "create"))
      else
        let newId := seg.segmentId + 1
        let (d', seg') := SegmentWriter.create d (segmentName newId) newId
        (d', seg', .ok ())
  else (s.disk, s.wal.currentSegment, .ok ())

/-- `should_fsync`, after the entry was written.
mirrors tesseract-storage/src/wal.rs:245 -/
def shouldFsync (config : WalConfig) (mode : WriteMode) (seg : SegmentWriter) : Prop :=
  mode = .durable ∨ config.fsyncIntervalOps ≤ seg.opsSinceFsync

instance (config : WalConfig) (mode : WriteMode) (seg : SegmentWriter) :
    Decidable (shouldFsync config mode seg) :=
  inferInstanceAs (Decidable (_ ∨ _))

/-- Under the lock: rotate, write, fsync.
mirrors tesseract-storage/src/wal.rs:231-248 -/
def writeLocked (fault : Fault) (s : Session) (entryBytes : Bytes) (mode : WriteMode) :
    Dir × SegmentWriter × Result Unit :=
  match rotateIfFull fault s entryBytes.length with
  | (d, seg, .error x) => (d, seg, .error x)
  | (d, seg, .ok ()) =>
    match seg.writeEntry fault d entryBytes with
    | (d, seg, .error x) => (d, seg, .error x)
    | (d, seg, .ok ()) =>
      if shouldFsync s.wal.config mode seg then seg.fsync (fault = .fsync) d else (d, seg, .ok ())

/-- The entry `append` writes: the caller's `txn_id` is overridden. -/
def stamped (wal : WriteAheadLog) (entry : WalEntry) : WalEntry :=
  { entry with txnId := wal.nextTxnId }

/-- mirrors tesseract-storage/src/wal.rs:225-251 -/
def append (C : Crates) (fault : Fault) (s : Session) (entry : WalEntry) (mode : WriteMode) :
    Session × Result UInt64 :=
  let txnId := s.wal.nextTxnId
  let entryBytes := (stamped s.wal entry).toBytes C.crc
  match writeLocked fault s entryBytes mode with
  | (d, seg, r) =>
    (⟨d, { s.wal with currentSegment := seg, nextTxnId := txnId + 1 }⟩, r.map fun _ => txnId)

/-- mirrors tesseract-storage/src/wal.rs:254-257 -/
def flush (fails : Bool) (s : Session) : Session × Result Unit :=
  let (d, seg, r) := s.wal.currentSegment.fsync fails s.disk
  (⟨d, { s.wal with currentSegment := seg }⟩, r)

/-! ## Compaction and checkpoint -/

/-- `BTreeMap::insert` of the dedup map: sorted by key, the last value wins. -/
def btreeInsert (k : UInt64) (e : WalEntry) : List (UInt64 × WalEntry) → List (UInt64 × WalEntry)
  | [] => [(k, e)]
  | (k', e') :: rest =>
    if k < k' then (k, e) :: (k', e') :: rest
    else if k = k' then (k, e) :: rest
    else (k', e') :: btreeInsert k e rest

/-- `dedup.insert(entry.txn_id.0, entry)` for every entry, in reading order.
mirrors tesseract-storage/src/wal.rs:309-311 -/
def dedup (entries : List WalEntry) (m : List (UInt64 × WalEntry)) : List (UInt64 × WalEntry) :=
  entries.foldl (fun m e => btreeInsert e.txnId e m) m

/-- mirrors tesseract-storage/src/wal.rs:304-312 -/
def dedupSegments (C : Crates) (d : Dir) :
    List (UInt64 × FileName) → List (UInt64 × WalEntry) → Result (List (UInt64 × WalEntry))
  | [], m => .ok m
  | (segId, segPath) :: rest, m => do
    let entries ← readSegmentEntries C.crc (d.read segPath) segId 0
    dedupSegments C d rest (dedup entries m)

/-- The sealed segments: those listed below the active one.
mirrors tesseract-storage/src/wal.rs:291-297 -/
def sealedSegments (s : Session) : List (UInt64 × FileName) :=
  (listSegments s.disk).filter fun p => decide (p.1 < s.wal.currentSegment.segmentId)

/-- `timestamp`: seconds since the epoch when it runs.
mirrors tesseract-storage/src/wal.rs:290-351 -/
def compact (C : Crates) (timestamp : UInt64) (s : Session) : Session × Result Unit :=
  let sealed := sealedSegments s
  if sealed = [] then (s, .ok ())
  else
    match dedupSegments C s.disk sealed [] with
    | .error x => (s, .error x)
    | .ok m =>
      let mergedBytes := (m.map fun p => p.2.toBytes C.crc).flatten
      let d := ((s.disk.create (tmpName timestamp)).write (tmpName timestamp) mergedBytes).sync
        (tmpName timestamp)
      let d := d.rename (tmpName timestamp) (mergedName timestamp)
      let d := sealed.foldl (fun d p => d.erase p.2) d
      ({ s with disk := d }, .ok ())

/-- `fault = write k` stops after `k` bytes reached the truncated file, any
other fault before the fsync.
mirrors tesseract-storage/src/wal.rs:354-363 -/
def writeCheckpoint (C : Crates) (fault : Fault) (s : Session) (cp : Checkpoint) :
    Session × Result Unit :=
  let d := s.disk.create checkpointName
  match fault with
  | .none => ({ s with disk := (d.write checkpointName (C.serialize cp)).sync checkpointName },
               .ok ())
  | .write k =>
    ({ s with disk := d.write checkpointName ((C.serialize cp).take k) }, .error (.ioError "write"))
  | _ => ({ s with disk := d.write checkpointName (C.serialize cp) }, .error (.ioError "fsync"))

/-! ## Which files are listed -/

theorem mem_listSegments {d : Dir} {id : UInt64} {n : FileName} :
    (id, n) ∈ listSegments d ↔ n ∈ d.keys ∧ segmentIdOf n = some id := by
  unfold listSegments
  rw [List.mem_insertionSort, List.mem_filterMap]
  constructor
  · rintro ⟨m, hm, h⟩
    rw [Option.map_eq_some_iff] at h
    obtain ⟨i, hi, he⟩ := h
    simp only [Prod.mk.injEq] at he
    obtain ⟨rfl, rfl⟩ := he
    exact ⟨hm, hi⟩
  · rintro ⟨hn, hi⟩
    exact ⟨n, hn, by simp [hi]⟩

theorem listSegments_sorted (d : Dir) : (listSegments d).Pairwise fun a b => a.1 ≤ b.1 :=
  List.pairwise_insertionSort _ _

theorem listSegments_nodup (d : Dir) : (listSegments d).Nodup := by
  have hmap : ((d.keys.filterMap fun n => (segmentIdOf n).map fun id => (id, n))).Nodup := by
    refine List.Nodup.filterMap ?_ d.keys_nodup
    intro a b p ha hb
    rw [Option.mem_def, Option.map_eq_some_iff] at ha hb
    obtain ⟨_, _, rfl⟩ := ha
    obtain ⟨_, _, h⟩ := hb
    simp only [Prod.mk.injEq] at h
    exact h.2.symm
  exact (List.perm_insertionSort _ _).nodup_iff.mpr hmap

/-- A list with increasing ids and the right members is the listing. -/
theorem listSegments_unique {d : Dir} {l : List (UInt64 × FileName)}
    (hs : l.Pairwise fun a b => a.1 < b.1)
    (hm : ∀ p, p ∈ l ↔ p.2 ∈ d.keys ∧ segmentIdOf p.2 = some p.1) : listSegments d = l := by
  have hnd : l.Nodup := hs.imp fun h he => by rw [he] at h; exact absurd h (UInt64.lt_irrefl _)
  have hperm : (listSegments d).Perm l := by
    rw [List.perm_ext_iff_of_nodup (listSegments_nodup d) hnd]
    rintro ⟨id, n⟩
    rw [mem_listSegments, hm]
  refine hperm.eq_of_pairwise ?_ (listSegments_sorted d) (hs.imp fun h => UInt64.le_of_lt h)
  -- two members of `l` with the same id are the same member
  intro a b ha hb hab hba
  have hne : l.Pairwise fun a b => a.1 ≠ b.1 := hs.imp fun h => UInt64.ne_of_lt h
  have : Std.Symm fun a b : UInt64 × FileName => a.1 ≠ b.1 := ⟨fun _ _ h => h.symm⟩
  by_contra hdiff
  exact hne.forall (hperm.mem_iff.mp ha) hb hdiff (UInt64.le_antisymm hab hba)

/-- Every listed file has the name `segment_path` gives its id. -/
def Canonical (d : Dir) : Prop := ∀ n ∈ d.keys, ∀ id, segmentIdOf n = some id → n = segmentName id

theorem listSegments_strict {d : Dir} (h : Canonical d) :
    (listSegments d).Pairwise fun a b => a.1 < b.1 := by
  have hboth := (listSegments_sorted d).and (listSegments_nodup d)
  refine hboth.imp_of_mem ?_
  rintro ⟨i, n⟩ ⟨j, m⟩ ha hb ⟨hle, hne⟩
  obtain ⟨hn, hi⟩ := mem_listSegments.mp ha
  obtain ⟨hm, hj⟩ := mem_listSegments.mp hb
  refine UInt64.lt_of_le_of_ne hle ?_
  rintro rfl
  exact hne (by rw [h n hn i hi, h m hm i hj])

/-! ## What recovery reads -/

/-- The entries recovery takes from the file `n`. -/
def entriesIn (C : Crates) (d : Dir) (skip : UInt64) (n : FileName) : List WalEntry :=
  ((framing C.crc).frames ((d.read n).getD [])).filter fun e => decide (skip < e.txnId)

theorem readSegmentEntries_eq (C : Crates) (d : Dir) (n : FileName) (id skip : UInt64) :
    readSegmentEntries C.crc (d.read n) id skip = .ok (entriesIn C d skip n) := by
  unfold entriesIn
  cases d.read n with
  | none => rfl
  | some data => rw [readSegmentEntries_some]; rfl

theorem recoverLoop_eq (C : Crates) (d : Dir) (skip : UInt64) : ∀ l entries,
    recoverLoop C d skip l entries =
      .ok (entries ++ l.flatMap fun p => entriesIn C d skip p.2) := by
  intro l
  induction l with
  | nil => intro entries; simp [recoverLoop]
  | cons p l ih =>
    intro entries
    obtain ⟨id, n⟩ := p
    rw [recoverLoop, readSegmentEntries_eq]
    show recoverLoop C d skip l (entries ++ entriesIn C d skip n) = _
    rw [ih, List.flatMap_cons, List.append_assoc]

/-- Recovery never fails, and reads segment after segment. -/
theorem recover_eq (C : Crates) (d : Dir) :
    recover C d = .ok ((listSegments d).flatMap fun p => entriesIn C d (lastFlushed C d) p.2) := by
  rw [recover, recoverLoop_eq]
  rfl

/-- Recovery never returns an entry that the format cannot hold. -/
theorem recover_fits {C : Crates} {d : Dir} {es : List WalEntry} (h : recover C d = .ok es) :
    ∀ e ∈ es, Fits e := by
  rw [recover_eq, Except.ok.injEq] at h
  rw [← h]
  intro e he
  obtain ⟨p, _, hp⟩ := List.mem_flatMap.mp he
  exact of_mem_frames_fits C.crc (List.mem_of_mem_filter hp)

theorem dedupSegments_eq (C : Crates) (d : Dir) : ∀ l m,
    dedupSegments C d l m = .ok (dedup (l.flatMap fun p => entriesIn C d 0 p.2) m) := by
  intro l
  induction l with
  | nil => intro m; rfl
  | cons p l ih =>
    intro m
    obtain ⟨id, n⟩ := p
    rw [dedupSegments, readSegmentEntries_eq]
    show dedupSegments C d l (dedup (entriesIn C d 0 n) m) = _
    rw [ih, List.flatMap_cons, dedup, dedup, dedup, List.foldl_append]

end Tesseract.L2.Log
