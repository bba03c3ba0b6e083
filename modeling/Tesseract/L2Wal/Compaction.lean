import Tesseract.L2Wal.Writer

/-!
# What `compact` does to the log

`compact` merges the sealed segments into `wal-merged-{secs}.log` and deletes them;
`list_segments` skips every merged file. So recovery after a compaction reads
the unsealed segments only.

* `compact_listSegments`: the listing afterwards is the unsealed part of the
  listing before.
* `recover_compact`: recovery before is what the sealed segments hold followed
  by recovery after.
* `compact_keeps_iff`: so a compaction loses nothing only if they hold nothing.
-/
namespace Tesseract.L2.Log

open L1.Wal L1.SegmentName

variable {C : Crates} {s : Session}

/-- Recovery, and compaction, never fail on what they read. -/
theorem compact_ok (timestamp : UInt64) : (compact C timestamp s).2 = .ok () := by
  unfold compact
  dsimp only
  split
  · rfl
  · rw [dedupSegments_eq]

theorem lookup_eraseAll (m : FileName) : ∀ (l : List (UInt64 × FileName)) (d : Dir),
    (l.foldl (fun d p => d.erase p.2) d).lookup m =
      if m ∈ l.map Prod.snd then none else d.lookup m := by
  intro l
  induction l with
  | nil => intro d; simp
  | cons p l ih =>
    intro d
    rw [List.foldl_cons, ih]
    by_cases hp : m = p.2
    · subst hp
      simp
    · have hiff : m ∈ (p :: l).map Prod.snd ↔ m ∈ l.map Prod.snd := by
        rw [List.map_cons, List.mem_cons]
        exact or_iff_right hp
      simp only [hiff, AList.lookup_erase_ne hp]

/-- The deleted files. -/
def sealedNames (s : Session) : List FileName := (sealedSegments s).map Prod.snd

/-- Apart from the merged file, compaction deletes the sealed segments and
leaves the rest. -/
theorem compact_lookup (timestamp : UInt64) {m : FileName} (hm : m ≠ mergedName timestamp)
    (ht : m ≠ tmpName timestamp) :
    (compact C timestamp s).1.disk.lookup m =
      if m ∈ sealedNames s then none else s.disk.lookup m := by
  unfold compact sealedNames
  by_cases hnil : sealedSegments s = []
  · simp [hnil]
  · simp only [hnil, if_false, dedupSegments_eq]
    rw [lookup_eraseAll]
    by_cases hsealed : m ∈ (sealedSegments s).map Prod.snd
    · rw [if_pos hsealed, if_pos hsealed]
    · rw [if_neg hsealed, if_neg hsealed]
      generalize hd : (((s.disk.create (tmpName timestamp)).write (tmpName timestamp) _).sync
        (tmpName timestamp)) = d
      have hother : d.lookup m = s.disk.lookup m := by
        rw [← hd, Disk.sync, Disk.write, Disk.lookup_modify, if_neg ht,
          Disk.lookup_modify, if_neg ht, Disk.lookup_create, if_neg ht]
      obtain ⟨f, hf⟩ : ∃ f, d.lookup (tmpName timestamp) = some f := by
        rw [← hd, Disk.sync, Disk.write, Disk.lookup_modify, Disk.lookup_modify, Disk.lookup_create]
        simp only [if_true, Option.map_some]
        exact ⟨_, rfl⟩
      rw [Disk.lookup_rename hf, if_neg hm, if_neg ht, hother]

theorem ne_merged_of_listed {m : FileName} {id : UInt64} (h : segmentIdOf m = some id)
    (timestamp : UInt64) :
    m ≠ mergedName timestamp ∧ m ≠ tmpName timestamp := by
  constructor
  · rintro rfl
    simp at h
  · rintro rfl
    simp at h

theorem checkpoint_ne_merged (timestamp : UInt64) :
    checkpointName ≠ mergedName timestamp ∧ checkpointName ≠ tmpName timestamp := by
  have hc : checkpointName.head? = some 'c' := rfl
  have hw : (mergedName timestamp).head? = some 'w' := rfl
  have ht : (tmpName timestamp).head? = some 'w' := rfl
  constructor
  · intro he
    rw [he, hw] at hc
    exact absurd hc (by decide)
  · intro he
    rw [he, ht] at hc
    exact absurd hc (by decide)

theorem mem_sealedNames {m : FileName} :
    m ∈ sealedNames s ↔ ∃ id, (id, m) ∈ listSegments s.disk ∧
      id < s.wal.currentSegment.segmentId := by
  unfold sealedNames sealedSegments
  simp [List.mem_filter]

/-- A listed file is deleted exactly when its id is below the active one. -/
theorem sealed_iff {m : FileName} {id : UInt64} (hm : m ∈ s.disk) (h : segmentIdOf m = some id) :
    m ∈ sealedNames s ↔ id < s.wal.currentSegment.segmentId := by
  rw [mem_sealedNames]
  constructor
  · rintro ⟨i, hi, hlt⟩
    have := (mem_listSegments.mp hi).2
    rw [h, Option.some.injEq] at this
    rw [this]
    exact hlt
  · intro hlt
    exact ⟨id, mem_listSegments.mpr ⟨hm, h⟩, hlt⟩

theorem mem_compact {timestamp : UInt64} {m : FileName} {id : UInt64}
    (h : segmentIdOf m = some id) :
    m ∈ (compact C timestamp s).1.disk ↔ m ∈ s.disk ∧ ¬ id < s.wal.currentSegment.segmentId := by
  obtain ⟨hm, ht⟩ := ne_merged_of_listed h timestamp
  rw [← AList.lookup_isSome, compact_lookup timestamp hm ht]
  by_cases hin : m ∈ s.disk
  · have hsome := AList.lookup_isSome.mpr hin
    have hiff := sealed_iff hin h
    by_cases hlt : id < s.wal.currentSegment.segmentId
    · rw [if_pos (hiff.mpr hlt)]
      simp [hlt]
    · rw [if_neg (fun hs => hlt (hiff.mp hs))]
      simp [hlt, hsome, hin]
  · have hnone : s.disk.lookup m = none := AList.lookup_eq_none.mpr hin
    simp [hnone, hin]

theorem compact_canonical (timestamp : UInt64) (h : Canonical s.disk) :
    Canonical (compact C timestamp s).1.disk := by
  intro m hm id hid
  exact h m ((mem_compact hid).mp hm).1 id hid

theorem compact_listSegments (timestamp : UInt64) (h : Canonical s.disk) :
    listSegments (compact C timestamp s).1.disk =
      (listSegments s.disk).filter fun p => decide (¬ p.1 < s.wal.currentSegment.segmentId) := by
  refine listSegments_unique ((listSegments_strict h).filter _) ?_
  rintro ⟨id, m⟩
  rw [List.mem_filter, mem_listSegments, decide_eq_true_iff]
  constructor
  · rintro ⟨⟨hm, hid⟩, hlt⟩
    exact ⟨(mem_compact hid).mpr ⟨hm, hlt⟩, hid⟩
  · rintro ⟨hm, hid⟩
    obtain ⟨hm, hlt⟩ := (mem_compact hid).mp hm
    exact ⟨⟨hm, hid⟩, hlt⟩

/-- A file that is still listed has its content. -/
theorem compact_read {timestamp : UInt64} {m : FileName} {id : UInt64} (h : segmentIdOf m = some id)
    (hm : m ∈ s.disk) (hlt : ¬ id < s.wal.currentSegment.segmentId) :
    (compact C timestamp s).1.disk.read m = s.disk.read m := by
  obtain ⟨hne, ht⟩ := ne_merged_of_listed h timestamp
  have hkeep : m ∉ sealedNames s := fun hs => hlt ((sealed_iff hm h).mp hs)
  rw [Disk.read, compact_lookup timestamp hne ht, if_neg hkeep, Disk.read]

theorem compact_lastFlushed (timestamp : UInt64) :
    lastFlushed C (compact C timestamp s).1.disk = lastFlushed C s.disk := by
  obtain ⟨hne, ht⟩ := checkpoint_ne_merged timestamp
  have hkeep : checkpointName ∉ sealedNames s := by
    rw [mem_sealedNames]
    rintro ⟨id, hid, _⟩
    have := (mem_listSegments.mp hid).2
    simp at this
  have hread : (compact C timestamp s).1.disk.read checkpointName = s.disk.read checkpointName := by
    rw [Disk.read, compact_lookup timestamp hne ht, if_neg hkeep, Disk.read]
  rw [lastFlushed, lastFlushed, readCheckpoint, readCheckpoint, hread]

/-- A list sorted by id falls into the part below `k` and the rest. -/
theorem sorted_split {l : List (UInt64 × FileName)} (h : l.Pairwise fun a b => a.1 < b.1)
    (k : UInt64) :
    l = l.filter (fun p => decide (p.1 < k)) ++ l.filter (fun p => decide (¬ p.1 < k)) := by
  induction l with
  | nil => rfl
  | cons p l ih =>
    obtain ⟨hp, hl⟩ := List.pairwise_cons.mp h
    by_cases hk : p.1 < k
    · have := ih hl
      simp only [List.filter_cons, hk, decide_true, if_true, not_true, decide_false,
        Bool.false_eq_true, if_false, List.cons_append]
      rw [← this]
    · -- nothing behind `p` is below `k` either
      have hnone : l.filter (fun p => decide (p.1 < k)) = [] := by
        rw [List.filter_eq_nil_iff]
        intro q hq hlt
        rw [decide_eq_true_iff] at hlt
        exact hk (UInt64.lt_trans (hp q hq) hlt)
      have hall : l.filter (fun p => decide (¬ p.1 < k)) = l := by
        have := ih hl
        rw [hnone, List.nil_append] at this
        exact this.symm
      simp only [List.filter_cons, hk, decide_false, Bool.false_eq_true, if_false,
        not_false_eq_true, decide_true, if_true, hnone, hall, List.nil_append]

/-- What recovery takes from the sealed segments. -/
def sealedEntries (C : Crates) (s : Session) : List WalEntry :=
  (sealedSegments s).flatMap fun p => entriesIn C s.disk (lastFlushed C s.disk) p.2

/-- Recovery before a compaction: the entries of the sealed segments, then
recovery after it. -/
theorem recover_compact (timestamp : UInt64) (h : Canonical s.disk) :
    ∃ rest, recover C (compact C timestamp s).1.disk = .ok rest ∧
      recover C s.disk = .ok (sealedEntries C s ++ rest) := by
  refine ⟨_, recover_eq C _, ?_⟩
  rw [recover_eq, compact_listSegments timestamp h, compact_lastFlushed]
  have hsame : ((listSegments s.disk).filter fun p =>
    decide (¬ p.1 < s.wal.currentSegment.segmentId)).flatMap
        (fun p => entriesIn C (compact C timestamp s).1.disk (lastFlushed C s.disk) p.2) =
      ((listSegments s.disk).filter fun p =>
        decide (¬ p.1 < s.wal.currentSegment.segmentId)).flatMap
        (fun p => entriesIn C s.disk (lastFlushed C s.disk) p.2) := by
    refine List.flatMap_congr ?_
    rintro ⟨id, m⟩ hp
    rw [List.mem_filter, mem_listSegments, decide_eq_true_iff] at hp
    rw [entriesIn, compact_read hp.1.2 hp.1.1 hp.2, entriesIn]
  rw [hsame, sealedEntries, sealedSegments, ← List.flatMap_append,
    ← sorted_split (listSegments_strict h)]

/-- Reopening a directory that lists a segment changes nothing. -/
theorem openLog_disk (C : Crates) (config : WalConfig) {d : Dir} {m : FileName} {id : UInt64}
    (h : Canonical d) (hm : m ∈ d) (hid : segmentIdOf m = some id) :
    (openLog C config d).disk = d := by
  rcases openLog_cases C config h with ⟨_, _, _, hd, _⟩ | ⟨hnone, _, _⟩
  · exact hd
  · rw [hnone m hm] at hid
    cases hid

/-- Compaction followed by recovery, in the same session or after a reopen,
loses exactly what the sealed segments hold. -/
theorem compact_keeps_iff (timestamp : UInt64) (config : WalConfig)
    (h : Wf s.disk s.wal.currentSegment) :
    (recover C (compact C timestamp s).1.disk = recover C s.disk ∧
      recover C (openLog C config (compact C timestamp s).1.disk).disk = recover C s.disk) ↔
    sealedEntries C s = [] := by
  obtain ⟨rest, hafter, hbefore⟩ := recover_compact (C := C) timestamp h.canonical
  have hid : segmentIdOf s.wal.currentSegment.file = some s.wal.currentSegment.segmentId := by
    rw [h.file, segmentIdOf_segmentName]
  have hactive : s.wal.currentSegment.file ∈ (compact C timestamp s).1.disk :=
    (mem_compact hid).mpr ⟨h.present, UInt64.lt_irrefl _⟩
  rw [openLog_disk C config (compact_canonical timestamp h.canonical) hactive hid, hafter, hbefore]
  constructor
  · rintro ⟨he, _⟩
    simp only [Except.ok.injEq] at he
    exact List.self_eq_append_left.mp he
  · intro hnil
    rw [hnil]
    exact ⟨rfl, rfl⟩

end Tesseract.L2.Log
