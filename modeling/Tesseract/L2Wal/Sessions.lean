import Tesseract.Core.LTS
import Tesseract.L2Wal.Compaction

/-!
# Sessions on one WAL directory

The life of a log: sessions open the directory, append, flush, write
checkpoints and compact, and end by a close or a crash. `step` runs one
operation of `wal.rs` on the directory; a label says which one and which I/O
call fails in it. `appended` and `acked` record what the callers were told.

* `wf_reachable`: in every state names are canonical and an open session is on
  a listed file, whatever failed and whatever crashed.
-/
namespace Tesseract.L2.Sessions

open L1.Wal L1.SegmentName L2.Log

/-- `appended`: entries whose append returned `Ok`. `acked`: those of them in
`Durable` mode. `covered`: when the last session was opened, the checkpoint's
`last_flushed_txn_id` was no smaller than any id appended before. -/
structure World where
  disk : Dir
  wal : Option WriteAheadLog
  appended : List WalEntry
  acked : List WalEntry
  covered : Bool

inductive Label where
  | open (config : WalConfig)
  | append (entry : WalEntry) (mode : WriteMode) (fault : Fault)
  | flush (fails : Bool)
  | checkpoint (cp : Checkpoint) (fault : Fault)
  | compact (timestamp : UInt64)
  | close
  | crash (keep : FileName → Option Nat)

def World.start : World := ⟨∅, none, [], [], true⟩

/-- The ids handed out so far are all at most `last_flushed_txn_id`. -/
def Covered (C : Crates) (w : World) : Prop := ∀ e ∈ w.appended, e.txnId ≤ lastFlushed C w.disk

instance (C : Crates) (w : World) : Decidable (Covered C w) :=
  inferInstanceAs (Decidable (∀ e ∈ w.appended, e.txnId ≤ lastFlushed C w.disk))

/-- Bookkeeping of an append that answered `r`. -/
def World.record (w : World) (s : Session) (e : WalEntry) (mode : WriteMode) (r : Result UInt64) :
    World :=
  match r with
  | .ok _ =>
    { w with disk := s.disk, wal := some s.wal, appended := w.appended ++ [e],
             acked := if mode = .durable then w.acked ++ [e] else w.acked }
  | .error _ => { w with disk := s.disk, wal := some s.wal }

def step (C : Crates) (w : World) : Label → Option World
  | .open config =>
    match w.wal with
    | some _ => none
    | none =>
      let s := openLog C config w.disk
      some { w with disk := s.disk, wal := some s.wal, covered := decide (Covered C w) }
  | .append entry mode fault => w.wal.map fun wal =>
    let (s, r) := append C fault ⟨w.disk, wal⟩ entry mode
    w.record s (stamped wal entry) mode r
  | .flush fails => w.wal.map fun wal =>
    let (s, _) := flush fails ⟨w.disk, wal⟩
    { w with disk := s.disk, wal := some s.wal }
  | .checkpoint cp fault => w.wal.map fun wal =>
    let (s, _) := writeCheckpoint C fault ⟨w.disk, wal⟩ cp
    { w with disk := s.disk }
  | .compact timestamp => w.wal.map fun wal =>
    let (s, _) := compact C timestamp ⟨w.disk, wal⟩
    { w with disk := s.disk }
  | .close => w.wal.map fun _ => { w with wal := none }
  | .crash keep => some { w with disk := w.disk.crash keep, wal := none }

/-- All runs on a directory that is empty at first. -/
def system (C : Crates) : LTS World Label := LTS.ofFn (· = World.start) (step C)

/-! ## Inversion of the steps -/

theorem step_open {C : Crates} {w w' : World} {config : WalConfig}
    (h : step C w (.open config) = some w') :
    w.wal = none ∧ w' = { w with disk := (openLog C config w.disk).disk,
                                 wal := some (openLog C config w.disk).wal,
                                 covered := decide (Covered C w) } := by
  simp only [step] at h
  split at h
  · cases h
  · next hn =>
    simp only [Option.some.injEq] at h
    exact ⟨hn, h.symm⟩

theorem step_append {C : Crates} {w w' : World} {entry : WalEntry} {mode : WriteMode}
    {fault : Fault} (h : step C w (.append entry mode fault) = some w') :
    ∃ wal, w.wal = some wal ∧
      w' = w.record (append C fault ⟨w.disk, wal⟩ entry mode).1 (stamped wal entry) mode
        (append C fault ⟨w.disk, wal⟩ entry mode).2 := by
  simp only [step, Option.map_eq_some_iff] at h
  obtain ⟨wal, hw, rfl⟩ := h
  exact ⟨wal, hw, rfl⟩

theorem step_flush {C : Crates} {w w' : World} {fails : Bool}
    (h : step C w (.flush fails) = some w') :
    ∃ wal, w.wal = some wal ∧
      w' = { w with
        disk := (flush fails ⟨w.disk, wal⟩).1.disk
        wal := some (flush fails ⟨w.disk, wal⟩).1.wal } := by
  simp only [step, Option.map_eq_some_iff] at h
  obtain ⟨wal, hw, rfl⟩ := h
  exact ⟨wal, hw, rfl⟩

theorem step_checkpoint {C : Crates} {w w' : World} {cp : Checkpoint} {fault : Fault}
    (h : step C w (.checkpoint cp fault) = some w') :
    ∃ wal, w.wal = some wal ∧
      w' = { w with disk := (writeCheckpoint C fault ⟨w.disk, wal⟩ cp).1.disk } := by
  simp only [step, Option.map_eq_some_iff] at h
  obtain ⟨wal, hw, rfl⟩ := h
  exact ⟨wal, hw, rfl⟩

theorem step_compact {C : Crates} {w w' : World} {timestamp : UInt64}
    (h : step C w (.compact timestamp) = some w') :
    ∃ wal, w.wal = some wal ∧
      w' = { w with disk := (compact C timestamp ⟨w.disk, wal⟩).1.disk } := by
  simp only [step, Option.map_eq_some_iff] at h
  obtain ⟨wal, hw, rfl⟩ := h
  exact ⟨wal, hw, rfl⟩

theorem step_close {C : Crates} {w w' : World} (h : step C w .close = some w') :
    w' = { w with wal := none } := by
  simp only [step, Option.map_eq_some_iff] at h
  obtain ⟨_, _, rfl⟩ := h
  rfl

theorem step_crash {C : Crates} {w w' : World} {keep : FileName → Option Nat}
    (h : step C w (.crash keep) = some w') :
    w' = { w with disk := w.disk.crash keep, wal := none } := by
  simp only [step, Option.some.injEq] at h
  exact h.symm

theorem record_disk (w : World) (s : Session) (e : WalEntry) (mode : WriteMode)
    (r : Result UInt64) :
    (w.record s e mode r).disk = s.disk ∧ (w.record s e mode r).wal = some s.wal := by
  cases r <;> exact ⟨rfl, rfl⟩

/-! ## Names and active segment, over whole runs -/

/-- Listed files have canonical names, and an open session is on one of them. -/
structure WorldWf (w : World) : Prop where
  canonical : Canonical w.disk
  session : ∀ wal, w.wal = some wal → Wf w.disk wal.currentSegment

theorem WorldWf.running {w : World} {wal : WriteAheadLog} (hw : w.wal = some wal)
    (hwf : Wf w.disk wal.currentSegment) : WorldWf w := by
  refine ⟨hwf.canonical, ?_⟩
  intro wal' hwal'
  obtain rfl : wal = wal' := Option.some.inj (hw.symm.trans hwal')
  exact hwf

theorem WorldWf.ended {w : World} (hw : w.wal = none) (hcanon : Canonical w.disk) : WorldWf w := by
  refine ⟨hcanon, ?_⟩
  intro wal hwal
  rw [hw] at hwal
  cases hwal

theorem mem_of_crash {d : Dir} {keep : FileName → Option Nat} {m : FileName}
    (h : m ∈ d.crash keep) : m ∈ d := by
  rw [← AList.lookup_isSome] at h ⊢
  rw [Disk.lookup_crash] at h
  cases hl : d.lookup m with
  | none => rw [hl] at h; cases h
  | some f => rfl

theorem mem_writeCheckpoint {C : Crates} {fault : Fault} {s : Session} {cp : Checkpoint}
    {m : FileName} :
    m ∈ (writeCheckpoint C fault s cp).1.disk ↔ m = checkpointName ∨ m ∈ s.disk := by
  unfold writeCheckpoint Disk.write Disk.sync
  cases fault <;> simp only [mem_modify, mem_create]

theorem WorldWf.step {C : Crates} {w w' : World} {l : Label} (hw : WorldWf w)
    (h : Sessions.step C w l = some w') : WorldWf w' := by
  cases l with
  | «open» config =>
    obtain ⟨_, rfl⟩ := step_open h
    exact .running rfl (openLog_wf C config hw.canonical).1
  | append entry mode fault =>
    obtain ⟨wal, hwal, rfl⟩ := step_append h
    have hmoves := writeLocked_moves (P := fun _ => True) (s := ⟨w.disk, wal⟩) fault
      ((stamped wal entry).toBytes C.crc) mode (fun _ => trivial)
    have hwf := hmoves.keeps (I := fun a => Wf a.1 a.2) (fun _ _ ha hm =>
      hm.wf ha) (hw.session wal hwal)
    obtain ⟨hd, hs⟩ := record_disk w (append C fault ⟨w.disk, wal⟩ entry mode).1
      (stamped wal entry) mode
      (append C fault ⟨w.disk, wal⟩ entry mode).2
    refine .running hs ?_
    rw [hd]
    exact hwf
  | flush fails =>
    obtain ⟨wal, hwal, rfl⟩ := step_flush h
    have hmoves := fsync_moves (P := fun _ => True) fails w.disk wal.currentSegment
    have hwf := hmoves.keeps (I := fun a => Wf a.1 a.2) (fun _ _ ha hm =>
      hm.wf ha) (hw.session wal hwal)
    exact .running rfl hwf
  | checkpoint cp fault =>
    obtain ⟨wal, hwal, rfl⟩ := step_checkpoint h
    have hcanon : Canonical (writeCheckpoint C fault ⟨w.disk, wal⟩ cp).1.disk := by
      intro m hm id hid
      rcases mem_writeCheckpoint.mp hm with rfl | hm
      · simp at hid
      · exact hw.canonical m hm id hid
    have hses := hw.session wal hwal
    exact .running hwal ⟨hcanon, hses.file, mem_writeCheckpoint.mpr (.inr hses.present)⟩
  | compact timestamp =>
    obtain ⟨wal, hwal, rfl⟩ := step_compact h
    have hcanon := compact_canonical (C := C) (s := ⟨w.disk, wal⟩) timestamp hw.canonical
    have hses := hw.session wal hwal
    refine .running hwal ⟨hcanon, hses.file, ?_⟩
    have hid : segmentIdOf wal.currentSegment.file = some wal.currentSegment.segmentId := by
      rw [hses.file, segmentIdOf_segmentName]
    exact (mem_compact hid).mpr ⟨hses.present, UInt64.lt_irrefl _⟩
  | close =>
    obtain rfl := step_close h
    exact .ended rfl hw.canonical
  | crash keep =>
    obtain rfl := step_crash h
    exact .ended rfl fun m hm => hw.canonical m (mem_of_crash hm)

theorem wf_reachable {C : Crates} {w : World} (h : (system C).Reachable w) : WorldWf w := by
  refine LTS.Inductive.reachable (T := system C) ⟨?_, fun _ _ _ hw hst => hw.step hst⟩ w h
  rintro _ rfl
  refine ⟨?_, ?_⟩
  · intro m hm
    cases hm
  · intro wal hwal
    cases hwal

/-! ## Compaction against recovery -/

/-- Runs of appends without a failing call: no crash, no checkpoint, no
earlier compaction. -/
def AppendsOnly : Label → Prop
  | .open _ | .close => True
  | .append _ _ fault => fault = .none
  | .flush fails => fails = false
  | _ => False

instance : DecidablePred AppendsOnly
  | .open _ | .close => inferInstanceAs (Decidable True)
  | .append _ _ fault => inferInstanceAs (Decidable (fault = .none))
  | .flush fails => inferInstanceAs (Decidable (fails = false))
  | .checkpoint .. | .compact _ | .crash _ => inferInstanceAs (Decidable False)

/-- **When compaction preserves recovery.** In every reachable state, compaction
succeeds, and recovery after it, in the same session and after a reopen, returns
what it returned before, exactly when no segment below the active one has an
entry for the reader. -/
theorem compact_preserves_recovery_iff (C : Crates) {w : World} {wal : WriteAheadLog}
    (h : (system C).Reachable w) (hwal : w.wal = some wal) (timestamp : UInt64)
    (config : WalConfig) :
    (compact C timestamp ⟨w.disk, wal⟩).2 = .ok () ∧
    ((recover C (compact C timestamp ⟨w.disk, wal⟩).1.disk = recover C w.disk ∧
        recover C (openLog C config (compact C timestamp ⟨w.disk, wal⟩).1.disk).disk =
          recover C w.disk) ↔
      ∀ p ∈ listSegments w.disk, p.1 < wal.currentSegment.segmentId →
        readSegmentEntries C.crc (w.disk.read p.2) p.1 (lastFlushed C w.disk) = .ok []) := by
  refine ⟨compact_ok timestamp, ?_⟩
  have hwf := (wf_reachable h).session wal hwal
  rw [compact_keeps_iff (s := ⟨w.disk, wal⟩) timestamp config hwf, sealedEntries,
    List.flatMap_eq_nil_iff]
  constructor
  · intro hnil p hp hlt
    rw [readSegmentEntries_eq, hnil p (List.mem_filter.mpr ⟨hp, decide_eq_true hlt⟩)]
  · intro hread p hp
    obtain ⟨hp, hlt⟩ := List.mem_filter.mp hp
    have := hread p hp (of_decide_eq_true hlt)
    rw [readSegmentEntries_eq] at this
    exact Except.ok.inj this

/-- Two appends of 18 bytes with a `segment_size` of 20: the second rotates. -/
def twoSegments : List Label :=
  [.open ⟨20, 1000⟩, .append ⟨0, 1, [7]⟩ .durable .none, .append ⟨0, 1, [8]⟩ .durable .none]

def afterTwo : World :=
  (LTS.exec (step crates) (fun _ l => AppendsOnly l) .start twoSegments).get (by decide +kernel)

def walOfTwo : WriteAheadLog := afterTwo.wal.get (by decide +kernel)

theorem afterTwo_reachable :
    ((system crates).restrict fun _ l => AppendsOnly l).Reachable afterTwo :=
  LTS.reachable_of_exec rfl (Option.some_get _).symm

theorem afterTwo_wal : afterTwo.wal = some walOfTwo := (Option.some_get _).symm

/-- The first of the two entries is in a sealed segment, and gone after the
compaction. -/
theorem compact_drops_sealed :
    ¬ ∀ (w : World) (wal : WriteAheadLog) (timestamp : UInt64) (config : WalConfig),
      ((system crates).restrict fun _ l => AppendsOnly l).Reachable w → w.wal = some wal →
      (compact crates timestamp ⟨w.disk, wal⟩).2 = .ok () →
      recover crates (compact crates timestamp ⟨w.disk, wal⟩).1.disk = recover crates w.disk ∧
        recover crates (openLog crates config (compact crates timestamp ⟨w.disk,
          wal⟩).1.disk).disk =
          recover crates w.disk := by
  intro h
  have hsame :=
    (h afterTwo walOfTwo 1700000000 ⟨20, 1000⟩ afterTwo_reachable afterTwo_wal (compact_ok _)).1
  have hbefore : recover crates afterTwo.disk = .ok [⟨1, 1, [7]⟩, ⟨2, 1, [8]⟩] := by decide +kernel
  have hafter : recover crates (compact crates 1700000000 ⟨afterTwo.disk, walOfTwo⟩).1.disk =
      .ok [⟨2, 1, [8]⟩] := by decide +kernel
  rw [hbefore, hafter] at hsame
  exact absurd hsame (by decide)

theorem compact_preserves_recovery_two :
    ¬ (recover crates (compact crates 1700000000 ⟨afterTwo.disk, walOfTwo⟩).1.disk =
      recover crates afterTwo.disk ∧
      recover crates (openLog crates ⟨20, 1000⟩
        (compact crates 1700000000 ⟨afterTwo.disk, walOfTwo⟩).1.disk).disk =
          recover crates afterTwo.disk) := by
  rw [(compact_preserves_recovery_iff crates afterTwo_reachable.of_restrict afterTwo_wal 1700000000
    ⟨20, 1000⟩).2]
  decide +kernel

end Tesseract.L2.Sessions
