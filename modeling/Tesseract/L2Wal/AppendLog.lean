import Tesseract.L2Wal.Writer

/-!
# The log as an append-only list

What the segment files are for: a list of entries, cut into segments, that
grows at its end. `Layout d cs` says that the directory is the segments with
contents `cs`; `Active C d seg segs` that these are the encodings of `segs` and
the writer is on the last one.

* `Layout.recover`: recovery reads the segments in order.
* `Active.recover`: so it returns the list, for entries that the format holds.
* `Active.rotated`, `Active.write`, `append_active`: an append without a failing
  call adds its entry at the end, whether it rotates or not.
* `openLog_active`: a reopen adds nothing.
* `Logs`: an open log is the list of its entries, from `open` over appends,
  flushes and reopens.
-/
namespace Tesseract.L2.Log

open L1.Wal L1.SegmentName

variable {C : Crates}

/-- Segment `i` has content `cs[i]`, and there is no other segment and no
checkpoint. -/
structure Layout (d : Dir) (cs : List Bytes) : Prop where
  bound : cs.length ≤ 2 ^ 64
  listed : ∀ n ∈ d, ∀ id, segmentIdOf n = some id → n = segmentName id ∧ id.toNat < cs.length
  files : ∀ i bs, cs[i]? = some bs → d.read (segmentName (.ofNat i)) = some bs
  noCheckpoint : checkpointName ∉ d

/-- The entries recovery takes from a segment with content `bs`. -/
def reads (C : Crates) (bs : Bytes) : List WalEntry :=
  ((framing C.crc).frames bs).filter fun e => decide (0 < e.txnId)

theorem toNat_ofNat {i : Nat} (h : i < 2 ^ 64) : (UInt64.ofNat i).toNat = i := by
  rw [UInt64.toNat_ofNat', Nat.mod_eq_of_lt h]

theorem Layout.mem {d : Dir} {cs : List Bytes} (h : Layout d cs) {i : Nat} (hi : i < cs.length) :
    segmentName (.ofNat i) ∈ d := by
  have hread := h.files i cs[i] (List.getElem?_eq_getElem hi)
  rw [Disk.read, Option.map_eq_some_iff] at hread
  obtain ⟨f, hf, _⟩ := hread
  exact AList.lookup_isSome.mp (by rw [hf]; rfl)

theorem Layout.canonical {d : Dir} {cs : List Bytes} (h : Layout d cs) : Canonical d :=
  fun n hn id hid => (h.listed n hn id hid).1

theorem Layout.listSegments {d : Dir} {cs : List Bytes} (h : Layout d cs) :
    listSegments d = (List.range cs.length).map fun i =>
      (UInt64.ofNat i, segmentName (.ofNat i)) := by
  have hbound := h.bound
  refine listSegments_unique ?_ ?_
  · rw [List.pairwise_map]
    refine List.pairwise_lt_range.imp_of_mem ?_
    intro i j hi hj hij
    rw [List.mem_range] at hi hj
    rw [UInt64.lt_iff_toNat_lt, toNat_ofNat (by omega), toNat_ofNat (by omega)]
    exact hij
  · rintro ⟨id, n⟩
    rw [List.mem_map]
    constructor
    · rintro ⟨i, hi, heq⟩
      rw [List.mem_range] at hi
      simp only [Prod.mk.injEq] at heq
      obtain ⟨rfl, rfl⟩ := heq
      exact ⟨h.mem hi, segmentIdOf_segmentName _⟩
    · rintro ⟨hn, hid⟩
      obtain ⟨rfl, hlt⟩ := h.listed n hn id hid
      exact ⟨id.toNat, List.mem_range.mpr hlt, by rw [UInt64.ofNat_toNat]⟩

theorem Layout.lastFlushed {d : Dir} {cs : List Bytes} (h : Layout d cs) : lastFlushed C d = 0 := by
  rw [Log.lastFlushed, readCheckpoint, Disk.read, AList.lookup_eq_none.mpr h.noCheckpoint]
  rfl

/-- Recovery reads the segments in order. -/
theorem Layout.recover {d : Dir} {cs : List Bytes} (h : Layout d cs) :
    recover C d = .ok (cs.flatMap (reads C)) := by
  have hcs : (List.range cs.length).map (fun i => (d.read (segmentName (.ofNat i))).getD []) =
    cs := by
    refine List.ext_getElem (by simp) ?_
    intro i h₁ h₂
    rw [List.getElem_map, List.getElem_range, h.files i cs[i] (List.getElem?_eq_getElem h₂)]
    rfl
  rw [recover_eq, h.lastFlushed, h.listSegments, List.flatMap_map]
  conv => rhs; rw [← hcs, List.flatMap_map]
  rfl

/-! ## Changing the directory -/

/-- Replacing the content of segment `i`. -/
theorem Layout.set {d d' : Dir} {cs : List Bytes} (h : Layout d cs) {i : Nat} (hi : i < cs.length)
    {f : File} (hd : ∀ m, d'.lookup m = if m = segmentName (.ofNat i) then some f else d.lookup m) :
    Layout d' (cs.set i f.bytes) := by
  have hmem : ∀ m, m ∈ d' ↔ m ∈ d := by
    intro m
    rw [← AList.lookup_isSome, ← AList.lookup_isSome, hd]
    by_cases hm : m = segmentName (.ofNat i)
    · rw [if_pos hm, hm]
      exact ⟨fun _ => AList.lookup_isSome.mpr (h.mem hi), fun _ => rfl⟩
    · rw [if_neg hm]
  refine ⟨by rw [List.length_set]; exact h.bound, ?_, ?_, fun hc => h.noCheckpoint ((hmem _).mp hc)⟩
  · intro n hn id hid
    rw [List.length_set]
    exact h.listed n ((hmem n).mp hn) id hid
  · intro j bs hj
    rw [Disk.read, hd]
    by_cases hij : j = i
    · subst hij
      rw [List.getElem?_set_self hi, Option.some.injEq] at hj
      rw [if_pos rfl, Option.map_some, hj]
    · have hne : segmentName (.ofNat j) ≠ segmentName (.ofNat i) := by
        intro he
        have hlt : j < cs.length := by
          rw [List.getElem?_set_ne (fun h => hij h.symm)] at hj
          exact (List.getElem?_eq_some_iff.mp hj).1
        have hn := congrArg UInt64.toNat (segmentName_injective he)
        have hbound := h.bound
        rw [toNat_ofNat (by omega), toNat_ofNat (by omega)] at hn
        exact hij hn
      rw [List.getElem?_set_ne (fun h => hij h.symm)] at hj
      rw [if_neg hne]
      exact h.files j bs hj

/-- A new segment behind the last one. -/
theorem Layout.create {d : Dir} {cs : List Bytes} (h : Layout d cs) (hroom : cs.length < 2 ^ 64) :
    Layout (d.create (segmentName (.ofNat cs.length))) (cs ++ [[]]) := by
  refine ⟨by rw [List.length_append, List.length_singleton]; omega, ?_, ?_, ?_⟩
  · intro n hn id hid
    rw [List.length_append, List.length_singleton]
    rcases mem_create.mp hn with rfl | hn
    · rw [segmentIdOf_segmentName, Option.some.injEq] at hid
      subst hid
      rw [toNat_ofNat hroom]
      exact ⟨rfl, by omega⟩
    · obtain ⟨hname, hlt⟩ := h.listed n hn id hid
      exact ⟨hname, by omega⟩
  · intro i bs hi
    rw [Disk.read, Disk.lookup_create]
    by_cases hlt : i < cs.length
    · rw [List.getElem?_append_left hlt] at hi
      have hne : segmentName (.ofNat i) ≠ segmentName (.ofNat cs.length) := by
        intro he
        have hn := congrArg UInt64.toNat (segmentName_injective he)
        rw [toNat_ofNat (by omega), toNat_ofNat hroom] at hn
        omega
      rw [if_neg hne]
      exact h.files i bs hi
    · obtain ⟨hle, hbs⟩ := List.getElem?_eq_some_iff.mp hi
      rw [List.length_append, List.length_singleton] at hle
      obtain rfl : i = cs.length := by omega
      rw [List.getElem_append_right (by omega)] at hbs
      rw [if_pos rfl, ← hbs]
      simp [File.empty]
  · intro hc
    rcases mem_create.mp hc with he | hm
    · exact segmentName_ne_checkpoint _ he
    · exact h.noCheckpoint hm

/-! ## The writer on the last segment -/

structure Active (C : Crates) (d : Dir) (seg : SegmentWriter) (segs : List (List WalEntry)) :
    Prop where
  layout : Layout d (segs.map (framing C.crc).stream)
  file : seg.file = segmentName seg.segmentId
  last : seg.segmentId.toNat + 1 = segs.length

theorem Active.name {d : Dir} {seg : SegmentWriter} {segs : List (List WalEntry)}
    (h : Active C d seg segs) :
    seg.file = segmentName (.ofNat (segs.length - 1)) := by
  have hlast := h.last
  rw [h.file, ← hlast, Nat.add_sub_cancel, UInt64.ofNat_toNat]

/-- Changing the file of the active segment. -/
theorem Active.modify {d : Dir} {seg seg' : SegmentWriter} {init : List (List WalEntry)}
    {es es' : List WalEntry} (h : Active C d seg (init ++ [es])) {g : File → File}
    (hg : ∀ f, f.bytes = (framing C.crc).stream es → (g f).bytes = (framing C.crc).stream es')
    (hseg : seg'.file = seg.file ∧ seg'.segmentId = seg.segmentId) :
    Active C (d.modify seg.file g) seg' (init ++ [es']) := by
  have hname := h.name
  rw [List.length_append, List.length_singleton, Nat.add_sub_cancel] at hname
  have hlen : init.length < ((init ++ [es]).map (framing C.crc).stream).length := by simp
  have hread := h.layout.files init.length ((framing C.crc).stream es) (by simp)
  rw [← hname, Disk.read, Option.map_eq_some_iff] at hread
  obtain ⟨f, hf, hb⟩ := hread
  refine ⟨?_, by rw [hseg.1, hseg.2, h.file], ?_⟩
  · have hlookup : ∀ m, (d.modify seg.file g).lookup m =
        if m = segmentName (.ofNat init.length) then some (g f) else d.lookup m := by
      intro m
      rw [Disk.lookup_modify, ← hname, hf]
      rfl
    have hset := h.layout.set hlen hlookup
    rw [hg f hb] at hset
    simpa using hset
  · have hlast := h.last
    rw [hseg.2]
    simpa using hlast

theorem Active.nonempty {d : Dir} {seg : SegmentWriter} {segs : List (List WalEntry)}
    (h : Active C d seg segs) :
    ∃ init es, segs = init ++ [es] := by
  have hlast := h.last
  rcases List.eq_nil_or_concat segs with rfl | ⟨init, es, rfl⟩
  · simp at hlast
  · exact ⟨init, es, List.concat_eq_append⟩

/-- A segment id that has a successor leaves room for one more segment. -/
theorem Active.room {d : Dir} {seg : SegmentWriter} {segs : List (List WalEntry)}
    (h : Active C d seg segs) (hne : seg.segmentId + 1 ≠ 0) : segs.length < 2 ^ 64 := by
  have hlt := lt_succ_of_ne hne
  have hlast := h.last
  have hbig := (seg.segmentId + 1).toNat_lt
  rw [UInt64.lt_iff_toNat_lt, UInt64.toNat_add, UInt64.toNat_one] at hlt
  omega

theorem Active.sync {d : Dir} {seg seg' : SegmentWriter} {segs : List (List WalEntry)}
    (h : Active C d seg segs) (hseg : seg'.file = seg.file ∧ seg'.segmentId = seg.segmentId) :
    Active C (d.sync seg.file) seg' segs := by
  obtain ⟨init, es, rfl⟩ := h.nonempty
  exact h.modify (fun f hf => hf) hseg

/-- Writing an entry adds it at the end. -/
theorem Active.write {d : Dir} {seg : SegmentWriter} {segs : List (List WalEntry)}
    (h : Active C d seg segs) (e : WalEntry) (seg' : SegmentWriter)
    (hseg : seg'.file = seg.file ∧ seg'.segmentId = seg.segmentId) :
    ∃ segs', segs'.length = segs.length ∧ segs'.flatten = segs.flatten ++ [e] ∧
      Active C (d.write seg.file (e.toBytes C.crc)) seg' segs' := by
  obtain ⟨init, es, rfl⟩ := h.nonempty
  refine ⟨init ++ [es ++ [e]], by simp, by simp, h.modify ?_ hseg⟩
  intro f hf
  rw [File.extend_bytes, hf, Framing.stream_append]
  simp [Framing.stream, framing]

/-- The room a rotation needs: one more segment id. -/
theorem Active.rotated {s : Session} {len : Nat} {segs : List (List WalEntry)}
    (h : Active C s.disk s.wal.currentSegment segs)
    (hroom : s.wal.full len → segs.length < 2 ^ 64) :
    ∃ segs', segs'.length ≤ segs.length + 1 ∧ segs'.flatten = segs.flatten ∧
      Active C (rotated s len).1 (rotated s len).2 segs' := by
  unfold Log.rotated
  by_cases hfull : s.wal.full len
  · rw [if_pos hfull]
    have hsync : Active C (s.disk.sync s.wal.currentSegment.file) s.wal.currentSegment segs :=
      h.sync ⟨rfl, rfl⟩
    have hlen := hroom hfull
    have hid : s.wal.currentSegment.segmentId + 1 = UInt64.ofNat segs.length := by
      rw [← h.last, UInt64.ofNat_add, UInt64.ofNat_toNat]
      rfl
    have hcreate := hsync.layout.create (by simpa using hlen)
    rw [List.length_map, ← hid] at hcreate
    refine ⟨segs ++ [[]], by simp, by simp, ?_, rfl, ?_⟩
    · rw [List.map_append]
      exact hcreate
    · show (s.wal.currentSegment.segmentId + 1).toNat + 1 = _
      rw [hid, toNat_ofNat hlen]
      simp
  · rw [if_neg hfull]
    exact ⟨segs, by omega, rfl, h⟩

/-- An append without a failing call returns the next id and adds its entry at
the end of the log. -/
theorem append_active {s : Session} {segs : List (List WalEntry)}
    (h : Active C s.disk s.wal.currentSegment segs) (entry : WalEntry) (mode : WriteMode)
    (hroom : segs.length < 2 ^ 64) :
    (append C .none s entry mode).2 = .ok s.wal.nextTxnId ∧
    ∃ segs', segs'.length ≤ segs.length + 1 ∧
      segs'.flatten = segs.flatten ++ [stamped s.wal entry] ∧
      Active C (append C .none s entry mode).1.disk
        (append C .none s entry mode).1.wal.currentSegment segs' := by
  have hok := writeLocked_none (s := s) ((stamped s.wal entry).toBytes C.crc) mode
  have hrot := h.rotated fun (_ : s.wal.full ((stamped s.wal entry).toBytes C.crc).length) => hroom
  obtain ⟨segs₁, hlen₁, hflat₁, h₁⟩ := hrot
  rcases hl : writeLocked .none s ((stamped s.wal entry).toBytes C.crc) mode with ⟨d, seg, r⟩
  rw [hl] at hok
  obtain rfl : r = .ok () := hok
  obtain ⟨n, m, hseg, _, hd⟩ := writeLocked_ok hl
  have hfile : seg.file = (rotated s ((stamped s.wal entry).toBytes C.crc).length).2.file := by
    rw [hseg]
  have hid : seg.segmentId =
    (rotated s ((stamped s.wal entry).toBytes C.crc).length).2.segmentId := by rw [hseg]
  obtain ⟨segs₂, hlen₂, hflat₂, h₂⟩ := h₁.write (stamped s.wal entry) seg ⟨hfile, hid⟩
  have happ : append C .none s entry mode =
      (⟨d, { s.wal with currentSegment := seg, nextTxnId := s.wal.nextTxnId + 1 }⟩,
        .ok s.wal.nextTxnId) := by
    rw [append]
    simp only [hl]
    rfl
  rw [happ]
  refine ⟨rfl, segs₂, by omega, by rw [hflat₂, hflat₁], ?_⟩
  rw [← hfile] at h₂
  rcases hd with hd | ⟨_, hd⟩
  · show Active C d seg segs₂
    rw [hd]
    exact h₂.sync ⟨rfl, rfl⟩
  · show Active C d seg segs₂
    rw [hd]
    exact h₂

/-! ## Open and recover -/

/-- Opening a log adds no entry: the last segment becomes the active one, and
only an empty directory gets its first segment. -/
theorem openLog_active {d : Dir} {segs : List (List WalEntry)}
    (h : Layout d (segs.map (framing C.crc).stream)) (config : WalConfig) :
    ∃ segs', segs'.length ≤ max 1 segs.length ∧ segs'.flatten = segs.flatten ∧
      Active C (openLog C config d).disk (openLog C config d).wal.currentSegment segs' := by
  rcases openLog_cases C config h.canonical with ⟨id, hid, htop, hd, hseg⟩ | ⟨hnone, hd, hseg⟩
  · refine ⟨segs, by omega, rfl, by rw [hd]; exact h, by rw [hseg]; rfl, ?_⟩
    rw [hseg]
    show id.toNat + 1 = segs.length
    have hlt := (h.listed _ hid id (segmentIdOf_segmentName id)).2
    have hbound := h.bound
    rw [List.length_map] at hlt hbound
    -- the last segment of the layout is listed, so its id is at most `id`
    have hle := htop _ (h.mem (i := segs.length - 1) (by rw [List.length_map]; omega)) _
      (segmentIdOf_segmentName _)
    rw [UInt64.le_iff_toNat_le, toNat_ofNat (by omega)] at hle
    omega
  · have hnil : segs = [] := by
      rcases segs with _ | ⟨es, segs⟩
      · rfl
      · have := hnone _ (h.mem (i := 0) (by simp))
        simp at this
    subst hnil
    refine ⟨[[]], by simp, by simp, ?_, by rw [hseg], by rw [hseg]; rfl⟩
    rw [hd]
    exact h.create (by simp)

/-- The entries the format can hold and recovery does not skip. -/
def Good (e : WalEntry) : Prop := Fits e ∧ e.txnId ≠ 0

theorem reads_stream {es : List WalEntry} (hes : ∀ e ∈ es, Good e) (tail : Bytes) :
    reads C ((framing C.crc).stream es ++ tail) = es ++ reads C tail := by
  have hfit : ∀ e ∈ es, (framing C.crc).Fits e := fun e he => (hes e he).1
  rw [reads, (framing C.crc).frames_stream hfit, List.filter_append, List.filter_eq_self.mpr, reads]
  intro e he
  exact decide_eq_true (UInt64.pos_iff_ne_zero.mpr (hes e he).2)

theorem flatMap_reads {segs : List (List WalEntry)} (hes : ∀ e ∈ segs.flatten, Good e) :
    (segs.map (framing C.crc).stream).flatMap (reads C) = segs.flatten := by
  rw [List.flatMap_map, List.flatten_eq_flatMap]
  refine List.flatMap_congr ?_
  intro es hin
  have h := reads_stream (C := C) (fun e he => hes e (List.mem_flatten.mpr ⟨es, hin, he⟩)) []
  simpa [reads] using h

/-- Recovery returns the log. -/
theorem Layout.recover_stream {d : Dir} {segs : List (List WalEntry)}
    (h : Layout d (segs.map (framing C.crc).stream)) (hes : ∀ e ∈ segs.flatten, Good e) :
    Log.recover C d = .ok segs.flatten := by
  rw [h.recover, flatMap_reads hes]

/-- The reader does not get past an entry it refuses. -/
theorem flatMap_reads_refused {bad : WalEntry}
    (hbad : (framing C.crc).dec ((framing C.crc).enc bad) = none) :
    ∀ {segs : List (List WalEntry)} {es : List WalEntry}, (∀ e ∈ es, Good e) →
    segs.flatten = es ++ [bad] → (segs.map (framing C.crc).stream).flatMap (reads C) = es := by
  have hread : reads C ((framing C.crc).enc bad) = [] := by
    rw [reads, (framing C.crc).frames_stop hbad]
    rfl
  have hgood : ∀ {es : List WalEntry}, (∀ e ∈ es, Good e) →
      reads C ((framing C.crc).stream es) = es := by
    intro es hes
    simpa [reads] using reads_stream (C := C) hes []
  intro segs
  induction segs with
  | nil =>
    intro es _ hflat
    simp at hflat
  | cons seg segs ih =>
    intro es hes hflat
    rw [List.map_cons, List.flatMap_cons]
    rw [List.flatten_cons] at hflat
    rcases List.append_eq_append_iff.mp hflat with ⟨t, rfl, ht⟩ | ⟨t, rfl, ht⟩
    · rw [hgood fun e he => hes e (List.mem_append_left _ he),
        ih (fun e he => hes e (List.mem_append_right _ he)) ht]
    · cases t with
      | nil =>
        rw [List.append_nil] at hflat ⊢
        have hrest := ih (by simp : ∀ e ∈ [], Good e) ht.symm
        rw [hgood hes, hrest, List.append_nil]
      | cons b t =>
        rw [List.cons_append, List.cons.injEq] at ht
        obtain ⟨rfl, hrest⟩ := ht
        obtain ⟨rfl, hempty⟩ := List.append_eq_nil_iff.mp hrest.symm
        -- the refused entry ends its segment, and the segments behind are empty
        have hnil : (segs.map (framing C.crc).stream).flatMap (reads C) = [] := by
          have hgoods : ∀ e ∈ segs.flatten, Good e := by
            rw [hempty]
            simp
          rw [flatMap_reads hgoods, hempty]
        have hlast : (framing C.crc).stream (es ++ [bad]) =
            (framing C.crc).stream es ++ (framing C.crc).enc bad := by
          simp [Framing.stream]
        rw [hnil, hlast, reads_stream hes, hread, List.append_nil, List.append_nil]

/-! ## An open log -/

/-- The log that is open in `s` is the list `log`. -/
structure Logs (C : Crates) (s : Session) (log : List WalEntry) : Prop where
  good : ∀ e ∈ log, Good e
  segments : ∃ segs, segs.flatten = log ∧ segs.length ≤ log.length + 1 ∧
    Active C s.disk s.wal.currentSegment segs

/-- The counters have room for one more entry. -/
def Room (s : Session) : Prop := s.wal.nextTxnId ≠ 0 ∧ s.wal.currentSegment.segmentId + 1 ≠ 0

theorem Logs.recover {s : Session} {log : List WalEntry} (h : Logs C s log) :
    Log.recover C s.disk = .ok log := by
  obtain ⟨segs, hflat, _, hact⟩ := h.segments
  rw [hact.layout.recover_stream (by rw [hflat]; exact h.good), hflat]

theorem Logs.room {s : Session} {log : List WalEntry} (h : Logs C s log) (hid : s.wal.nextTxnId ≠ 0)
    (hlen : log.length + 1 < 2 ^ 64) : Room s := by
  obtain ⟨segs, _, hshort, hact⟩ := h.segments
  refine ⟨hid, fun hc => ?_⟩
  have hlast := hact.last
  have hsucc := congrArg UInt64.toNat hc
  rw [UInt64.toNat_add, UInt64.toNat_one, UInt64.toNat_zero] at hsucc
  omega

theorem Logs.append {s : Session} {log : List WalEntry} (h : Logs C s log) {entry : WalEntry}
    (hfit : Fits entry) (hroom : Room s) (mode : WriteMode) :
    Logs C (append C .none s entry mode).1 (log ++ [stamped s.wal entry]) := by
  obtain ⟨segs, hflat, hshort, hact⟩ := h.segments
  obtain ⟨_, segs', hlen', hflat', hact'⟩ := append_active hact entry mode (hact.room hroom.2)
  have hbound : segs'.length ≤ (log ++ [stamped s.wal entry]).length + 1 := by
    simp only [List.length_append, List.length_singleton]
    omega
  refine ⟨?_, segs', by rw [hflat', hflat], hbound, hact'⟩
  intro e he
  rcases List.mem_append.mp he with he | he
  · exact h.good e he
  · rw [List.mem_singleton.mp he]
    exact ⟨hfit, hroom.1⟩

theorem Logs.flush {s : Session} {log : List WalEntry} (h : Logs C s log) :
    Logs C (flush false s).1 log := by
  obtain ⟨segs, hflat, hshort, hact⟩ := h.segments
  exact ⟨h.good, segs, hflat, hshort, hact.sync ⟨rfl, rfl⟩⟩

/-- An open log can be opened again. -/
theorem Logs.open {s : Session} {log : List WalEntry} (h : Logs C s log) (config : WalConfig) :
    Logs C (openLog C config s.disk) log := by
  obtain ⟨segs, hflat, hshort, hact⟩ := h.segments
  obtain ⟨segs', hlen', hflat', hact'⟩ := openLog_active hact.layout config
  exact ⟨h.good, segs', hflat'.trans hflat, by omega, hact'⟩

theorem Layout.empty : Layout ∅ [] := by
  refine ⟨by simp, ?_, ?_, ?_⟩
  · intro n hn
    cases hn
  · intro i bs hi
    simp at hi
  · intro hc
    cases hc

theorem Logs.create (config : WalConfig) : Logs C (openLog C config ∅) [] := by
  have hempty : Layout ∅ (([] : List (List WalEntry)).map (framing C.crc).stream) := Layout.empty
  obtain ⟨segs, hlen, hflat, hact⟩ := openLog_active hempty config
  exact ⟨by simp, segs, hflat, by simpa using hlen, hact⟩

end Tesseract.L2.Log
