import Tesseract.L2Wal.Sessions

/-!
# Acknowledged writes across crashes

`open` appends behind whatever the last session left, also behind a torn entry,
and the reader stops at a torn entry. So an acknowledged entry survives when it
was written behind whole entries only (`Intact`), which a rotation always gives.

* `Stored`: the entry lies behind whole entries inside the synced bytes of its
  segment. Every later write keeps it (`Stored.grows`), so does a crash
  (`Stored.crash`), and recovery finds it (`Stored.recovered`).
* `acked_survive_when`: in every run of intact appends, with any crashes and
  failures, every acknowledged entry is recovered after the next open.
* `torn_tail_hides_acked`: without that it need not be.
-/
namespace Tesseract.L2.Durability

open L1.Wal L1.SegmentName L2.Log L2.Sessions

variable {C : Crates}

/-- `e` is readable from the synced bytes of some segment. -/
def Stored (C : Crates) (d : Dir) (e : WalEntry) : Prop :=
  ∃ id f es t, d.lookup (segmentName id) = some f ∧ (∀ x ∈ es ++ [e], Fits x) ∧
    f.bytes = (framing C.crc).stream (es ++ [e]) ++ t ∧
    ((framing C.crc).stream (es ++ [e])).length ≤ f.synced

theorem Stored.grows {d d' : Dir} {e : WalEntry} (h : Stored C d e) (hg : d.Grows d') :
    Stored C d' e := by
  obtain ⟨id, f, es, t, hf, hfit, hb, hs⟩ := h
  obtain ⟨f', hf', ⟨u, hu⟩, hs'⟩ := hg _ f hf
  refine ⟨id, f', es, t ++ u, hf', hfit, ?_, Nat.le_trans hs hs'⟩
  rw [← hu, hb, List.append_assoc]

theorem Stored.crash {d : Dir} {e : WalEntry} (h : Stored C d e) (keep : FileName → Option Nat) :
    Stored C (d.crash keep) e := by
  obtain ⟨id, f, es, t, hf, hfit, hb, hs⟩ := h
  have hpos : 0 < f.synced := by
    have he := (framing C.crc).enc_pos (hfit e (by simp))
    rw [Framing.stream_append, List.length_append, Framing.stream_cons, List.length_append] at hs
    omega
  obtain ⟨n, hn, hsurv⟩ := File.survive_synced hpos (keep (segmentName id))
  refine ⟨id, File.durable (f.bytes.take n), es,
    t.take (n - ((framing C.crc).stream (es ++ [e])).length), ?_, hfit, ?_, ?_⟩
  · rw [Disk.lookup_crash, hf]
    exact hsurv
  · show f.bytes.take n = _
    rw [hb, List.take_append, List.take_of_length_le (by omega)]
  · show _ ≤ (f.bytes.take n).length
    have := f.synced_le
    rw [List.length_take]
    omega

theorem Stored.recovered {d : Dir} {e : WalEntry} (h : Stored C d e)
    (hid : lastFlushed C d < e.txnId) :
    ∃ es, recover C d = .ok es ∧ e ∈ es := by
  obtain ⟨id, f, es, t, hf, hfit, hb, _⟩ := h
  refine ⟨_, recover_eq C d, ?_⟩
  rw [List.mem_flatMap]
  have hmem : segmentName id ∈ d := AList.lookup_isSome.mp (by rw [hf]; rfl)
  refine ⟨(id, segmentName id), mem_listSegments.mpr ⟨hmem, segmentIdOf_segmentName id⟩, ?_⟩
  have hread : d.read (segmentName id) = some f.bytes := by rw [Disk.read, hf]; rfl
  have hframes : (framing C.crc).frames f.bytes = (es ++ [e]) ++ (framing C.crc).frames t := by
    rw [hb]
    exact (framing C.crc).frames_stream hfit t
  rw [entriesIn, hread, Option.getD_some, hframes, List.mem_filter]
  exact ⟨by simp, decide_eq_true hid⟩

/-! ## The condition and the invariant -/

/-- The file holds whole entries only. -/
def Whole (C : Crates) (d : Dir) (n : FileName) : Prop :=
  ∃ es, (∀ e ∈ es, Fits e) ∧ d.read n = some ((framing C.crc).stream es)

/-- Reading the file decides it. -/
theorem whole_iff {d : Dir} {n : FileName} :
    Whole C d n ↔ ∃ bs ∈ d.read n, (framing C.crc).stream ((framing C.crc).frames bs) = bs ∧
      ∀ e ∈ (framing C.crc).frames bs, Fits e := by
  constructor
  · rintro ⟨es, hfit, hread⟩
    have hframes := (framing C.crc).frames_stream hfit []
    rw [List.append_nil, Framing.frames_nil, List.append_nil] at hframes
    exact ⟨_, hread, by rw [hframes], by rwa [hframes]⟩
  · rintro ⟨bs, hread, hstream, hfit⟩
    exact ⟨_, hfit, by rw [hstream]; exact hread⟩

instance (e : WalEntry) : Decidable (Fits e) := inferInstanceAs (Decidable (_ < _))

instance (C : Crates) (d : Dir) (n : FileName) : Decidable (Whole C d n) :=
  decidable_of_iff _ whole_iff.symm

/-- No checkpoint and no compaction in the run. -/
def NoMaintenance : Label → Prop
  | .checkpoint .. | .compact .. => False
  | _ => True

instance : DecidablePred NoMaintenance
  | .checkpoint .. | .compact .. => inferInstanceAs (Decidable False)
  | .open _ | .append .. | .flush _ | .close | .crash _ => inferInstanceAs (Decidable True)

/-- What a step must meet. A rotation has a next segment id; an append
acknowledged in `Durable` mode has an id and a payload length that the entry
format can hold, and is written behind whole entries, in the active segment or
in a new one. -/
def Intact (C : Crates) (w : World) : Label → Prop
  | .append entry mode fault => ∀ wal, w.wal = some wal →
    let bytes := (stamped wal entry).toBytes C.crc
    (wal.full bytes.length → wal.currentSegment.segmentId + 1 ≠ 0) ∧
    (mode = .durable → (append C fault ⟨w.disk, wal⟩ entry mode).2.isOk = true →
      wal.nextTxnId ≠ 0 ∧ entry.payload.length < 2 ^ 32 ∧
      (wal.full bytes.length ∨ Whole C w.disk wal.currentSegment.file))
  | l => NoMaintenance l

instance (C : Crates) (w : World) : DecidablePred (Intact C w)
  | .append entry mode fault => inferInstanceAs (Decidable (∀ wal ∈ w.wal,
      (wal.full ((stamped wal entry).toBytes C.crc).length →
        wal.currentSegment.segmentId + 1 ≠ 0) ∧
      (mode = .durable → (append C fault ⟨w.disk, wal⟩ entry mode).2.isOk = true →
        wal.nextTxnId ≠ 0 ∧ entry.payload.length < 2 ^ 32 ∧
        (wal.full ((stamped wal entry).toBytes C.crc).length ∨
          Whole C w.disk wal.currentSegment.file))))
  | .open _ | .flush _ | .close | .crash _ => inferInstanceAs (Decidable True)
  | .checkpoint .. | .compact _ => inferInstanceAs (Decidable False)

/-- The invariant of intact runs. -/
structure Safe (C : Crates) (w : World) : Prop where
  noCheckpoint : checkpointName ∉ w.disk
  canonical : Canonical w.disk
  session : ∀ wal, w.wal = some wal →
    Wf w.disk wal.currentSegment ∧ Log.Top w.disk wal.currentSegment
  acked : ∀ e ∈ w.acked, Stored C w.disk e ∧ e.txnId ≠ 0

/-- The part of the invariant that single writes keep. -/
structure Kept (d₀ : Dir) (a : Dir × SegmentWriter) : Prop where
  wf : Wf a.1 a.2
  top : Log.Top a.1 a.2
  noCheckpoint : checkpointName ∉ a.1
  grows : d₀.Grows a.1

theorem Kept.move {d₀ : Dir} {a b : Dir × SegmentWriter} (ha : Kept d₀ a)
    (h : Move (fun id => id + 1 ≠ 0) a b) : Kept d₀ b where
  wf := h.wf ha.wf
  top := h.top ha.top
  noCheckpoint := fun hc => ha.noCheckpoint (h.checkpoint.mp hc)
  grows := ha.grows.trans (h.grows ha.top)

theorem Safe.kept {w : World} {wal : WriteAheadLog} (h : Safe C w) (hwal : w.wal = some wal) :
    Kept w.disk (w.disk, wal.currentSegment) :=
  ⟨(h.session wal hwal).1, (h.session wal hwal).2, h.noCheckpoint, Disk.Grows.refl _⟩

/-- A session whose directory moved on from a safe one is safe, if nothing new
is acknowledged that is not stored. -/
theorem Safe.of_kept {w w' : World} {wal : WriteAheadLog} (h : Safe C w) (hwal : w'.wal = some wal)
    (hk : Kept w.disk (w'.disk, wal.currentSegment))
    (hack : ∀ e ∈ w'.acked, e ∈ w.acked ∨ Stored C w'.disk e ∧ e.txnId ≠ 0) : Safe C w' where
  noCheckpoint := hk.noCheckpoint
  canonical := hk.wf.canonical
  session := by
    intro wal' hwal'
    obtain rfl : wal = wal' := by rw [hwal] at hwal'; exact Option.some.inj hwal'
    exact ⟨hk.wf, hk.top⟩
  acked := by
    intro e he
    rcases hack e he with he | hs
    · exact ⟨(h.acked e he).1.grows hk.grows, (h.acked e he).2⟩
    · exact hs

/-! ## The steps -/

/-- The segment an intact append writes to holds whole entries. -/
theorem rotated_whole {s : Session} {len : Nat} (hwf : Wf s.disk s.wal.currentSegment)
    (h : s.wal.full len ∨ Whole C s.disk s.wal.currentSegment.file) :
    ∃ id f es, (rotated s len).2.file = segmentName id ∧
      (rotated s len).1.lookup (segmentName id) = some f ∧
      (∀ x ∈ es, Fits x) ∧ f.bytes = (framing C.crc).stream es := by
  unfold rotated
  by_cases hfull : s.wal.full len
  · rw [if_pos hfull]
    refine ⟨s.wal.currentSegment.segmentId + 1, File.empty, [], rfl, ?_, ?_, rfl⟩
    · show (Disk.create _ _).lookup _ = _
      rw [Disk.lookup_create, if_pos rfl]
    · intro x hx
      cases hx
  · rw [if_neg hfull]
    obtain ⟨es, hfit, hread⟩ := h.resolve_left hfull
    rw [Disk.read, Option.map_eq_some_iff, hwf.file] at hread
    obtain ⟨f, hf, hb⟩ := hread
    exact ⟨_, f, es, hwf.file, hf, hfit, hb⟩

/-- An intact append that is acknowledged stores its entry. -/
theorem stored_of_ok {s : Session} {fault : Fault} {e : WalEntry} {d : Dir} {seg : SegmentWriter}
    (hwf : Wf s.disk s.wal.currentSegment) (hfit : Fits e)
    (hok : writeLocked fault s (e.toBytes C.crc) .durable = (d, seg, .ok ()))
    (h : s.wal.full (e.toBytes C.crc).length ∨ Whole C s.disk s.wal.currentSegment.file) :
    Stored C d e := by
  obtain ⟨id, f, es, hfile, hf, hes, hb⟩ := rotated_whole hwf h
  obtain ⟨n, m, hseg, _, hd⟩ := writeLocked_ok hok
  have hname : seg.file = segmentName id := by rw [hseg]; exact hfile
  rw [hname] at hd
  rcases hd with hd | ⟨hmode, _⟩
  · refine ⟨id, (f.extend (e.toBytes C.crc)).sync, es, [], ?_, ?_, ?_, ?_⟩
    · rw [hd, Disk.sync, Disk.lookup_modify, if_pos rfl, Disk.write, Disk.lookup_modify,
        if_pos rfl, hf]
      rfl
    · intro x hx
      rcases List.mem_append.mp hx with hx | hx
      · exact hes x hx
      · rw [List.mem_singleton.mp hx]
        exact hfit
    · rw [File.sync_bytes, File.extend_bytes, hb, Framing.stream_append, List.append_nil]
      simp [Framing.stream, framing]
    · rw [File.sync_synced, File.extend_bytes, hb, Framing.stream_append]
      simp [Framing.stream, framing]
  · cases hmode

theorem append_result (C : Crates) (fault : Fault) (s : Session) (entry : WalEntry)
    (mode : WriteMode) :
    (append C fault s entry mode).2 =
      (writeLocked fault s ((stamped s.wal entry).toBytes C.crc) mode).2.2.map fun _ =>
        s.wal.nextTxnId := rfl

theorem Safe.append {w w' : World} {entry : WalEntry} {mode : WriteMode} {fault : Fault}
    (hs : Safe C w) (h : step C w (.append entry mode fault) = some w')
    (hi : Intact C w (.append entry mode fault)) :
    Safe C w' := by
  obtain ⟨wal, hwal, rfl⟩ := step_append h
  obtain ⟨hnext, hdur⟩ := hi wal hwal
  have hmoves := writeLocked_moves (P := fun id => id + 1 ≠ 0) (s := ⟨w.disk, wal⟩) fault
    ((stamped wal entry).toBytes C.crc) mode hnext
  have hk := hmoves.keeps (fun _ _ ha hm => ha.move hm) (hs.kept hwal)
  rw [append_result] at hdur ⊢
  rcases hlocked : writeLocked fault ⟨w.disk, wal⟩ ((stamped wal entry).toBytes C.crc) mode
    with ⟨d, seg, r⟩
  have hd : (L2.Log.append C fault ⟨w.disk, wal⟩ entry mode).1 =
      ⟨d, { wal with currentSegment := seg, nextTxnId := wal.nextTxnId + 1 }⟩ := by
    rw [L2.Log.append]
    simp only [hlocked]
  rw [hlocked] at hk hdur
  rw [hd]
  cases r with
  | error x => exact hs.of_kept rfl hk fun e he => .inl he
  | ok u =>
    refine hs.of_kept rfl hk ?_
    intro e he
    cases mode with
    | fast => exact .inl he
    | durable =>
      have he' : e ∈ w.acked ++ [stamped wal entry] := he
      rcases List.mem_append.mp he' with he | he
      · exact .inl he
      · obtain ⟨hid, hlen, hwhole⟩ := hdur rfl rfl
        rw [List.mem_singleton.mp he]
        exact .inr ⟨stored_of_ok (hs.session wal hwal).1 hlen hlocked hwhole, hid⟩

theorem Safe.step {w w' : World} {l : Label} (hs : Safe C w) (h : Sessions.step C w l = some w')
    (hi : Intact C w l) : Safe C w' := by
  cases l with
  | «open» config =>
    obtain ⟨_, rfl⟩ := step_open h
    obtain ⟨hwf, htop⟩ := openLog_wf C config hs.canonical
    refine hs.of_kept rfl ⟨hwf, htop, ?_, openLog_grows C config hs.canonical⟩ fun e he => .inl he
    rw [← AList.lookup_eq_none, openLog_checkpoint, AList.lookup_eq_none]
    exact hs.noCheckpoint
  | append entry mode fault => exact hs.append h hi
  | flush fails =>
    obtain ⟨wal, hwal, rfl⟩ := step_flush h
    have hmoves := fsync_moves (P := fun id => id + 1 ≠ 0) fails w.disk wal.currentSegment
    exact hs.of_kept rfl (hmoves.keeps (fun _ _ ha hm => ha.move hm) (hs.kept hwal)) fun e he =>
      .inl he
  | checkpoint cp fault => exact hi.elim
  | compact timestamp => exact hi.elim
  | close =>
    obtain rfl := step_close h
    refine ⟨hs.noCheckpoint, hs.canonical, ?_, hs.acked⟩
    intro wal hwal
    cases hwal
  | crash keep =>
    obtain rfl := step_crash h
    refine ⟨fun hc => hs.noCheckpoint (mem_of_crash hc), fun m hm =>
      hs.canonical m (mem_of_crash hm), ?_, ?_⟩
    · intro wal hwal
      cases hwal
    · intro e he
      exact ⟨(hs.acked e he).1.crash keep, (hs.acked e he).2⟩

theorem safe_reachable {w : World} (h : ((system C).restrict (Intact C)).Reachable w) :
    Safe C w := by
  refine LTS.Inductive.reachable (T := (system C).restrict (Intact C))
    ⟨?_, fun _ _ _ hs hst => hs.step hst.1 hst.2⟩ w h
  rintro _ rfl
  refine ⟨?_, ?_, ?_, ?_⟩
  · intro hm
    cases hm
  · intro m hm
    cases hm
  · intro wal hwal
    cases hwal
  · intro e he
    cases he

theorem lastFlushed_zero {d : Dir} (h : checkpointName ∉ d) : lastFlushed C d = 0 := by
  rw [lastFlushed, readCheckpoint, Disk.read, AList.lookup_eq_none.mpr h]
  rfl

/-- **When acknowledged writes survive.** Over every run of sessions, crashes
and failed calls whose steps are intact, recovery after the next open returns
every entry acknowledged in `Durable` mode. -/
theorem acked_survive_when (C : Crates) {w w' : World} {config : WalConfig}
    (h : ((system C).restrict (Intact C)).Reachable w)
    (hopen : Sessions.step C w (.open config) = some w') :
    ∃ es, recover C w'.disk = .ok es ∧ ∀ e ∈ w.acked, e ∈ es := by
  have hs := (safe_reachable h).step hopen trivial
  refine ⟨_, recover_eq C w'.disk, ?_⟩
  intro e he
  obtain ⟨_, rfl⟩ := step_open hopen
  obtain ⟨hstored, hid⟩ := hs.acked e he
  have hpos : lastFlushed C (openLog C config w.disk).disk < e.txnId := by
    rw [lastFlushed_zero hs.noCheckpoint]
    exact UInt64.pos_iff_ne_zero.mpr hid
  obtain ⟨es, hrec, hmem⟩ := hstored.recovered hpos
  rw [recover_eq, Except.ok.injEq] at hrec
  rw [hrec]
  exact hmem

/-! ## The torn tail -/

/-- The first append fails after five bytes, the second one, in the next
session, is acknowledged behind them; both sessions end in a crash. -/
def tornTail : List Label :=
  [.open ⟨1024, 1000⟩, .append ⟨0, 1, [7]⟩ .durable (.write 5), .crash fun _ => some 5,
   .open ⟨1024, 1000⟩, .append ⟨0, 1, [8]⟩ .durable .none, .crash fun _ => none]

def afterTorn : World :=
  (LTS.exec (step crates) (fun _ l => NoMaintenance l) .start tornTail).get (by decide +kernel)

def reopened : World := (step crates afterTorn (.open ⟨1024, 1000⟩)).get (by decide +kernel)

/-- The acknowledged entry is not recovered. -/
theorem torn_tail_hides_acked :
    ¬ ∀ (w w' : World) (config : WalConfig),
      ((system crates).restrict fun _ l => NoMaintenance l).Reachable w →
      step crates w (.open config) = some w' →
      ∃ es, recover crates w'.disk = .ok es ∧ ∀ e ∈ w.acked, e ∈ es := by
  intro h
  obtain ⟨es, hrec, hall⟩ := h afterTorn reopened ⟨1024, 1000⟩
    (LTS.reachable_of_exec rfl (Option.some_get _).symm) (Option.some_get _).symm
  have hnil : recover crates reopened.disk = .ok [] := by decide +kernel
  have hack : (⟨1, 1, [8]⟩ : WalEntry) ∈ afterTorn.acked := by decide +kernel
  rw [hnil, Except.ok.injEq] at hrec
  have := hall _ hack
  rw [← hrec] at this
  cases this

/-- Entries of 18 bytes in segments of 40. The first session tears its second entry; the next
one rotates past it, and its last append, which is not acknowledged, is lost in the crash;
the third one appends behind what is left. -/
def threeSessions : List Label :=
  [.open ⟨40, 1000⟩, .append ⟨0, 1, [7]⟩ .durable .none, .append ⟨0, 1, [8]⟩ .durable (.write 5),
    .crash fun _ => some 23,
    .open ⟨40, 1000⟩, .append ⟨0, 1, [9]⟩ .durable .none, .append ⟨0, 1, [10]⟩ .fast .none,
    .crash fun _ => none,
    .open ⟨40, 1000⟩, .append ⟨0, 1, [11]⟩ .durable .none, .crash fun _ => none]

def afterThree : World :=
  (LTS.exec (step crates) (Intact crates) .start threeSessions).get (by decide +kernel)

def reopenedThree : World :=
  (step crates afterThree (.open ⟨40, 1000⟩)).get (by decide +kernel)

theorem acked_survive_three : afterThree.acked.map WalEntry.payload = [[7], [9], [11]] ∧
    ∃ es, recover crates reopenedThree.disk = .ok es ∧ ∀ e ∈ afterThree.acked, e ∈ es :=
  ⟨by decide +kernel, acked_survive_when crates
    (LTS.reachable_of_exec rfl (Option.some_get _).symm) (Option.some_get _).symm⟩

end Tesseract.L2.Durability
