import Mathlib.Logic.Relation
import Tesseract.L2Wal.Log

/-!
# What the writer does to the directory

Under the segment lock an append is a sequence of syncs, writes and at most one
rotation (`writeLocked_moves`), whatever call fails; so an invariant of the
directory and the writer is checked on three moves. `writeLocked_ok` says what
else is known when the append returns `Ok`.

* `Move.wf`: file names stay canonical and the writer stays on a listed file.
* `Move.top`, `Move.grows`: while segment ids do not wrap, the writer is on the
  last segment and no byte of any file is lost.
* `openLog_wf`, `openLog_grows`: so it is after `open`.
-/
namespace Tesseract.L2.Log

open L1.Wal L1.SegmentName

/-! ## What an append does to the directory -/

/-- One write to the directory under the segment lock. `P` is what is known of
the id of a segment that is rotated away. -/
inductive Move (P : UInt64 → Prop) : Dir × SegmentWriter → Dir × SegmentWriter → Prop
  | fsync (d : Dir) (seg : SegmentWriter) : Move P (d, seg) (d.sync seg.file,
    { seg with opsSinceFsync := 0 })
  | rotate (d : Dir) (seg : SegmentWriter) : P seg.segmentId →
      Move P (d, seg) (SegmentWriter.create d (segmentName (seg.segmentId + 1)) (seg.segmentId + 1))
  | write (d : Dir) (seg : SegmentWriter) (bs : Bytes) (n m : Nat) :
      Move P (d, seg) (d.write seg.file bs, { seg with bytesWritten := n, opsSinceFsync := m })

/-- The writes of one call, in order. -/
abbrev Moves (P : UInt64 → Prop) := Relation.ReflTransGen (Move P)

theorem Moves.keeps {P : UInt64 → Prop} {I : Dir × SegmentWriter → Prop}
    (hI : ∀ a b, I a → Move P a b → I b) {a b : Dir × SegmentWriter} (h : Moves P a b) (ha : I a) :
    I b := by
  induction h with
  | refl => exact ha
  | tail _ hm ih => exact hI _ _ ih hm

variable {P : UInt64 → Prop} {s : Session}

theorem fsync_moves (fails : Bool) (d : Dir) (seg : SegmentWriter) :
    Moves P (d, seg) ((seg.fsync fails d).1, (seg.fsync fails d).2.1) := by
  unfold SegmentWriter.fsync
  cases fails with
  | true => exact .refl
  | false => exact .single (.fsync d seg)

theorem writeEntry_moves (fault : Fault) (d : Dir) (seg : SegmentWriter) (bs : Bytes) :
    Moves P (d, seg) ((seg.writeEntry fault d bs).1, (seg.writeEntry fault d bs).2.1) := by
  unfold SegmentWriter.writeEntry
  split
  · exact .single (.write d seg _ seg.bytesWritten seg.opsSinceFsync)
  · exact .single (.write d seg _ _ _)

theorem rotateIfFull_moves (fault : Fault) {len : Nat}
    (hP : s.wal.full len → P s.wal.currentSegment.segmentId) :
    Moves P (s.disk, s.wal.currentSegment) ((rotateIfFull fault s len).1,
      (rotateIfFull fault s len).2.1) := by
  unfold rotateIfFull SegmentWriter.fsync
  by_cases hfull : s.wal.full len
  · rw [if_pos hfull]
    by_cases hf : fault = .rotateFsync
    · simp only [hf, decide_true, if_true]
      exact .refl
    · simp only [hf, decide_false, Bool.false_eq_true, if_false]
      have hsync := Move.fsync (P := P) s.disk s.wal.currentSegment
      by_cases hc : fault = .rotateCreate
      · rw [if_pos hc]
        exact .single hsync
      · rw [if_neg hc]
        exact .tail (.single hsync) (.rotate _ _ (hP hfull))
  · simp only [hfull, if_false]
    exact .refl

/-- Whatever fails, the call under the lock is a sequence of writes. -/
theorem writeLocked_moves (fault : Fault) (entryBytes : Bytes) (mode : WriteMode)
    (hP : s.wal.full entryBytes.length → P s.wal.currentSegment.segmentId) :
    Moves P (s.disk, s.wal.currentSegment)
      ((writeLocked fault s entryBytes mode).1, (writeLocked fault s entryBytes mode).2.1) := by
  have hrot := rotateIfFull_moves fault hP
  unfold writeLocked
  generalize rotateIfFull fault s entryBytes.length = a at hrot ⊢
  obtain ⟨d, seg, r⟩ := a
  cases r with
  | error x => exact hrot
  | ok u =>
    have hwrite := hrot.trans (writeEntry_moves fault d seg entryBytes)
    dsimp only
    generalize seg.writeEntry fault d entryBytes = b at hwrite ⊢
    obtain ⟨d', seg', r'⟩ := b
    cases r' with
    | error x => exact hwrite
    | ok u' =>
      dsimp only
      split
      · exact hwrite.trans (fsync_moves _ d' seg')
      · exact hwrite

/-- Directory and writer behind a rotation that succeeds. -/
def rotated (s : Session) (len : Nat) : Dir × SegmentWriter :=
  if s.wal.full len then
    SegmentWriter.create (s.disk.sync s.wal.currentSegment.file)
      (segmentName (s.wal.currentSegment.segmentId + 1)) (s.wal.currentSegment.segmentId + 1)
  else (s.disk, s.wal.currentSegment)

theorem rotateIfFull_ok {fault : Fault} {len : Nat} {d : Dir} {seg : SegmentWriter}
    (h : rotateIfFull fault s len = (d, seg, .ok ())) : rotated s len = (d, seg) := by
  unfold rotateIfFull SegmentWriter.fsync at h
  unfold rotated
  by_cases hfull : s.wal.full len
  · rw [if_pos hfull] at h ⊢
    by_cases hf : fault = .rotateFsync
    · simp [hf] at h
    · simp only [hf, decide_false, Bool.false_eq_true, if_false] at h
      split at h
      · simp at h
      · simp only [Prod.mk.injEq] at h
        rw [← h.1, ← h.2.1]
  · rw [if_neg hfull] at h ⊢
    simp only [Prod.mk.injEq, and_true] at h
    rw [h.1, h.2]

theorem rotateIfFull_none (len : Nat) :
    rotateIfFull .none s len = ((rotated s len).1, (rotated s len).2, .ok ()) := by
  unfold rotateIfFull rotated SegmentWriter.fsync
  split <;> simp

theorem fsync_ok {fails : Bool} {d d' : Dir} {seg seg' : SegmentWriter}
    (h : seg.fsync fails d = (d', seg', .ok ())) :
    d' = d.sync seg.file ∧ seg' = { seg with opsSinceFsync := 0 } := by
  unfold SegmentWriter.fsync at h
  split at h
  · simp at h
  · simp only [Prod.mk.injEq, and_true] at h
    exact ⟨h.1.symm, h.2.symm⟩

theorem writeEntry_ok {fault : Fault} {d d' : Dir} {seg seg' : SegmentWriter} {bs : Bytes}
    (h : seg.writeEntry fault d bs = (d', seg', .ok ())) :
    d' = d.write seg.file bs ∧
      seg' = { seg with
        bytesWritten := seg.bytesWritten + bs.length
        opsSinceFsync := seg.opsSinceFsync + 1 } := by
  unfold SegmentWriter.writeEntry at h
  split at h
  · simp at h
  · simp only [Prod.mk.injEq, and_true] at h
    exact ⟨h.1.symm, h.2.symm⟩

/-- What an `Ok` says: the entry went whole to the (perhaps new) active
segment, and a durable one was synced there. -/
theorem writeLocked_ok {fault : Fault} {bs : Bytes} {mode : WriteMode} {d : Dir}
    {seg : SegmentWriter} (h : writeLocked fault s bs mode = (d, seg, .ok ())) :
    ∃ n m, seg = { (rotated s bs.length).2 with bytesWritten := n, opsSinceFsync := m } ∧
      n = (rotated s bs.length).2.bytesWritten + bs.length ∧
      (d = ((rotated s bs.length).1.write seg.file bs).sync seg.file ∨
        mode = .fast ∧ d = (rotated s bs.length).1.write seg.file bs) := by
  unfold writeLocked at h
  split at h
  · simp at h
  · next d₀ seg₀ hrot =>
    rw [rotateIfFull_ok hrot]
    split at h
    · simp at h
    · next d₁ seg₁ hw =>
      obtain ⟨rfl, rfl⟩ := writeEntry_ok hw
      split at h
      · obtain ⟨rfl, rfl⟩ := fsync_ok h
        exact ⟨_, _, rfl, rfl, .inl rfl⟩
      · next hno =>
        simp only [Prod.mk.injEq, and_true] at h
        obtain ⟨rfl, rfl⟩ := h
        refine ⟨_, _, rfl, rfl, .inr ⟨?_, rfl⟩⟩
        cases mode with
        | durable => exact absurd (.inl rfl) hno
        | fast => rfl

/-- Without a failing call an append succeeds. -/
theorem writeLocked_none (bs : Bytes) (mode : WriteMode) :
    (writeLocked .none s bs mode).2.2 = .ok () := by
  unfold writeLocked
  rw [rotateIfFull_none]
  simp only [SegmentWriter.writeEntry, SegmentWriter.fsync]
  split <;> simp

/-! ## Names and the active segment -/

/-- All listed files have canonical names, and the writer is on one of them. -/
structure Wf (d : Dir) (seg : SegmentWriter) : Prop where
  canonical : Canonical d
  file : seg.file = segmentName seg.segmentId
  present : seg.file ∈ d

theorem mem_modify {d : Dir} {n m : FileName} {g : File → File} : m ∈ d.modify n g ↔ m ∈ d := by
  unfold Disk.modify
  split
  · next f hf =>
    have hn : n ∈ d := AList.lookup_isSome.mp (by rw [hf]; rfl)
    rw [AList.mem_insert]
    constructor
    · rintro (rfl | h)
      · exact hn
      · exact h
    · exact .inr
  · exact Iff.rfl

theorem mem_create {d : Dir} {n m : FileName} : m ∈ d.create n ↔ m = n ∨ m ∈ d := AList.mem_insert _

theorem Canonical.modify {d : Dir} (h : Canonical d) (n : FileName) (g : File → File) :
    Canonical (d.modify n g) :=
  fun m hm => h m (mem_modify.mp hm)

theorem Canonical.create {d : Dir} (h : Canonical d) (id : UInt64) :
    Canonical (d.create (segmentName id)) := by
  intro m hm i hi
  rcases mem_create.mp hm with rfl | hm
  · rw [segmentIdOf_segmentName, Option.some.injEq] at hi
    rw [hi]
  · exact h m hm i hi

theorem Move.wf {a b : Dir × SegmentWriter} (ha : Wf a.1 a.2) (h : Move P a b) : Wf b.1 b.2 := by
  cases h with
  | fsync d seg => exact ⟨ha.canonical.modify _ _, ha.file, mem_modify.mpr ha.present⟩
  | rotate d seg _ => exact ⟨ha.canonical.create _, rfl, mem_create.mpr (.inl rfl)⟩
  | write d seg bs n m => exact ⟨ha.canonical.modify _ _, ha.file, mem_modify.mpr ha.present⟩

/-- The writer is on the segment with the largest id. -/
def Top (d : Dir) (seg : SegmentWriter) : Prop :=
  ∀ n ∈ d, ∀ id, segmentIdOf n = some id → id ≤ seg.segmentId

theorem lt_succ_of_ne {a : UInt64} (h : a + 1 ≠ 0) : a < a + 1 := by
  have h0 : (a + 1).toNat ≠ 0 := fun he => h (UInt64.toNat_inj.mp he)
  rw [UInt64.toNat_add, UInt64.toNat_one] at h0
  rw [UInt64.lt_iff_toNat_lt, UInt64.toNat_add, UInt64.toNat_one]
  have := a.toNat_lt
  omega

/-- As long as the ids do not wrap, a rotation makes a new file. -/
theorem Top.fresh {d : Dir} {seg : SegmentWriter} (h : Top d seg) (hne : seg.segmentId + 1 ≠ 0) :
    segmentName (seg.segmentId + 1) ∉ d := by
  intro hm
  have hle := h _ hm _ (segmentIdOf_segmentName _)
  exact absurd (lt_succ_of_ne hne) (UInt64.not_lt.mpr hle)

theorem Move.top {a b : Dir × SegmentWriter} (ha : Top a.1 a.2)
    (h : Move (fun id => id + 1 ≠ 0) a b) :
    Top b.1 b.2 := by
  cases h with
  | fsync d seg => exact fun n hn => ha n (mem_modify.mp hn)
  | write d seg bs n m => exact fun n hn => ha n (mem_modify.mp hn)
  | rotate d seg hne =>
    intro n hn id hid
    rcases mem_create.mp hn with rfl | hn
    · rw [segmentIdOf_segmentName, Option.some.injEq] at hid
      subst hid
      exact UInt64.le_refl _
    · exact UInt64.le_of_lt (UInt64.lt_of_le_of_lt (ha n hn id hid) (lt_succ_of_ne hne))

/-- A move of a log whose ids do not wrap destroys nothing. -/
theorem Move.grows {a b : Dir × SegmentWriter} (ha : Top a.1 a.2)
    (h : Move (fun id => id + 1 ≠ 0) a b) :
    a.1.Grows b.1 := by
  cases h with
  | fsync d seg => exact Disk.grows_sync d seg.file
  | write d seg bs n m => exact Disk.grows_write d seg.file bs
  | rotate d seg hne => exact Disk.grows_create (AList.lookup_eq_none.mpr (ha.fresh hne))

theorem segmentName_ne_checkpoint (id : UInt64) : checkpointName ≠ segmentName id := by
  intro he
  have := congrArg segmentIdOf he
  simp at this

theorem Move.checkpoint {a b : Dir × SegmentWriter} (h : Move P a b) :
    checkpointName ∈ b.1 ↔ checkpointName ∈ a.1 := by
  cases h with
  | fsync d seg => exact mem_modify
  | write d seg bs n m => exact mem_modify
  | rotate d seg _ =>
    refine mem_create.trans ⟨?_, .inr⟩
    rintro (he | hm)
    · exact absurd he (segmentName_ne_checkpoint _)
    · exact hm

/-! ## Open -/

/-- Opening a directory with canonical names: an existing last segment is taken
as it is, else segment 0 is made. -/
theorem openLog_cases (C : Crates) (config : WalConfig) {d : Dir} (h : Canonical d) :
    (∃ id, segmentName id ∈ d ∧ (∀ n ∈ d, ∀ i, segmentIdOf n = some i → i ≤ id) ∧
      (openLog C config d).disk = d ∧
      (openLog C config d).wal.currentSegment = SegmentWriter.append d (segmentName id) id) ∨
    ((∀ n ∈ d, segmentIdOf n = none) ∧ (openLog C config d).disk = d.create (segmentName 0) ∧
      (openLog C config d).wal.currentSegment = ⟨segmentName 0, 0, 0, 0⟩) := by
  unfold openLog
  cases hl : (listSegments d).getLast? with
  | none =>
    right
    rw [List.getLast?_eq_none_iff] at hl
    refine ⟨?_, rfl, rfl⟩
    intro n hn
    cases hi : segmentIdOf n with
    | none => rfl
    | some id =>
      have hmem := mem_listSegments.mpr ⟨hn, hi⟩
      rw [hl] at hmem
      cases hmem
  | some p =>
    left
    obtain ⟨id, name⟩ := p
    obtain ⟨l, hl⟩ := List.getLast?_eq_some_iff.mp hl
    obtain ⟨hn, hi⟩ := mem_listSegments.mp (by rw [hl]; simp : (id, name) ∈ listSegments d)
    obtain rfl := h name hn id hi
    refine ⟨id, hn, ?_, rfl, rfl⟩
    intro n hn i hi
    have hmem := mem_listSegments.mpr ⟨hn, hi⟩
    have hsorted := listSegments_sorted d
    rw [hl] at hmem hsorted
    rcases List.mem_append.mp hmem with hm | hm
    · exact (List.pairwise_append.mp hsorted).2.2 _ hm (id, segmentName id) (by simp)
    · simp only [List.mem_singleton, Prod.mk.injEq] at hm
      rw [hm.1]
      exact UInt64.le_refl _

theorem openLog_wf (C : Crates) (config : WalConfig) {d : Dir} (h : Canonical d) :
    Wf (openLog C config d).disk (openLog C config d).wal.currentSegment ∧
      Top (openLog C config d).disk (openLog C config d).wal.currentSegment := by
  rcases openLog_cases C config h with ⟨id, hid, htop, hd, hseg⟩ | ⟨hnone, hd, hseg⟩
  · rw [hd, hseg]
    exact ⟨⟨h, rfl, hid⟩, htop⟩
  · rw [hd, hseg]
    refine ⟨⟨h.create 0, rfl, mem_create.mpr (.inl rfl)⟩, ?_⟩
    intro n hn id hid
    rcases mem_create.mp hn with rfl | hn
    · rw [segmentIdOf_segmentName, Option.some.injEq] at hid
      subst hid
      exact UInt64.le_refl _
    · rw [hnone n hn] at hid
      cases hid

theorem openLog_grows (C : Crates) (config : WalConfig) {d : Dir} (h : Canonical d) :
    d.Grows (openLog C config d).disk := by
  rcases openLog_cases C config h with ⟨_, _, _, hd, _⟩ | ⟨hnone, hd, _⟩
  · rw [hd]
    exact Disk.Grows.refl d
  · rw [hd]
    refine Disk.grows_create (AList.lookup_eq_none.mpr ?_)
    intro hm
    have := hnone _ hm
    simp at this

theorem openLog_checkpoint (C : Crates) (config : WalConfig) (d : Dir) :
    (openLog C config d).disk.lookup checkpointName = d.lookup checkpointName := by
  unfold openLog
  dsimp only
  split
  · rfl
  · show (d.create (segmentName 0)).lookup checkpointName = _
    rw [Disk.lookup_create, if_neg (segmentName_ne_checkpoint 0)]

end Tesseract.L2.Log
