import Tesseract.L2Wal.Durability

/-!
# Transaction ids over the life of a log

`open` restarts the counter behind the checkpoint's `last_flushed_txn_id`; ids
handed out after the checkpoint are not looked at. Ids are unique as long as
every session that appends was opened on a checkpoint that covers all ids
handed out before.

* `ids_reachable`: then every id is below the counter of the open session.
* `appended_reachable`: where the appends are legible, every entry that a segment
  holds was appended; appends behind whole entries are (`legible_of_whole`).
* `txnIds_unique_when`: so ids are pairwise distinct, and the dedup of `compact`
  keeps every entry of the sealed segments.
* `reopen_repeats_id`: without a checkpoint the second session repeats id 1.
-/
namespace Tesseract.L2.TxnIds

open L1.Wal L1.SegmentName L2.Log L2.Sessions

variable {C : Crates}

/-! ## The dedup map -/

theorem mem_btreeInsert_self (k : UInt64) (e : WalEntry) (m : List (UInt64 × WalEntry)) :
    (k, e) ∈ btreeInsert k e m := by
  induction m with
  | nil => exact List.mem_singleton.mpr rfl
  | cons p m ih =>
    unfold btreeInsert
    split
    · exact List.mem_cons_self
    · split
      · exact List.mem_cons_self
      · exact List.mem_cons_of_mem _ ih

theorem mem_btreeInsert_of_ne {k : UInt64} {p : UInt64 × WalEntry} (hne : p.1 ≠ k) (e : WalEntry)
    {m : List (UInt64 × WalEntry)} (h : p ∈ m) : p ∈ btreeInsert k e m := by
  induction m with
  | nil => cases h
  | cons q m ih =>
    unfold btreeInsert
    split
    · exact List.mem_cons_of_mem _ h
    · split
      · next heq =>
        rcases List.mem_cons.mp h with rfl | h
        · exact absurd heq.symm hne
        · exact List.mem_cons_of_mem _ h
      · rcases List.mem_cons.mp h with rfl | h
        · exact List.mem_cons_self
        · exact List.mem_cons_of_mem _ (ih h)

theorem of_mem_btreeInsert {k : UInt64} {e : WalEntry} {p : UInt64 × WalEntry}
    {m : List (UInt64 × WalEntry)} (h : p ∈ btreeInsert k e m) : p = (k, e) ∨ p ∈ m := by
  induction m with
  | nil => exact .inl (List.mem_singleton.mp h)
  | cons q m ih =>
    unfold btreeInsert at h
    split at h
    · exact List.mem_cons.mp h
    · split at h
      · rcases List.mem_cons.mp h with h | h
        · exact .inl h
        · exact .inr (List.mem_cons_of_mem _ h)
      · rcases List.mem_cons.mp h with h | h
        · exact .inr (List.mem_cons.mpr (.inl h))
        · exact (ih h).imp id (List.mem_cons_of_mem _)

/-- Every key that was there or is inserted keeps a value, and the value is one
of those with that key. -/
theorem dedup_has (k : UInt64) : ∀ (es : List WalEntry) (m : List (UInt64 × WalEntry)),
    (∃ e, (k, e) ∈ m) ∨ (∃ e ∈ es, e.txnId = k) →
    ∃ e, (k, e) ∈ dedup es m ∧ ((k, e) ∈ m ∨ e ∈ es ∧ e.txnId = k) := by
  intro es
  induction es with
  | nil =>
    rintro m (⟨e, he⟩ | ⟨e, he, _⟩)
    · exact ⟨e, he, .inl he⟩
    · cases he
  | cons x es ih =>
    intro m h
    show ∃ e, (k, e) ∈ dedup es (btreeInsert x.txnId x m) ∧ _
    have hstart : (∃ e, (k, e) ∈ btreeInsert x.txnId x m) ∨ (∃ e ∈ es, e.txnId = k) := by
      by_cases hx : x.txnId = k
      · exact .inl ⟨x, hx ▸ mem_btreeInsert_self x.txnId x m⟩
      · rcases h with ⟨e, he⟩ | ⟨e, he, hk⟩
        · exact .inl ⟨e, mem_btreeInsert_of_ne (fun hk => hx hk.symm) x he⟩
        · rcases List.mem_cons.mp he with rfl | he
          · exact absurd hk hx
          · exact .inr ⟨e, he, hk⟩
    obtain ⟨e, he, horig⟩ := ih (btreeInsert x.txnId x m) hstart
    refine ⟨e, he, ?_⟩
    rcases horig with hm | ⟨hes, hk⟩
    · rcases of_mem_btreeInsert hm with heq | hm
      · simp only [Prod.mk.injEq] at heq
        exact .inr ⟨heq.2 ▸ List.mem_cons_self, by rw [heq.1, heq.2]⟩
      · exact .inl hm
    · exact .inr ⟨List.mem_cons_of_mem _ hes, hk⟩

/-! ## The counter -/

/-- The steps of the log's life: calls that succeed, checkpoints of an id that
was handed out, crashes. -/
def Life (w : World) : Label → Prop
  | .append _ _ fault => fault = .none
  | .checkpoint cp _ => ∃ e ∈ w.appended, e.txnId = cp.lastFlushedTxnId
  | .compact _ => False
  | _ => True

instance (w : World) : DecidablePred (Life w)
  | .append _ _ fault => inferInstanceAs (Decidable (fault = .none))
  | .checkpoint cp _ =>
    inferInstanceAs (Decidable (∃ e ∈ w.appended, e.txnId = cp.lastFlushedTxnId))
  | .compact _ => inferInstanceAs (Decidable False)
  | .open _ | .flush _ | .close | .crash _ => inferInstanceAs (Decidable True)

/-- An append is made in a session that was opened on a checkpoint covering all
ids handed out before, and the counter has not wrapped around. -/
def Covering (w : World) : Label → Prop
  | .append .. => w.covered = true ∧ w.wal.map WriteAheadLog.nextTxnId ≠ some 0
  | _ => True

instance (w : World) : DecidablePred (Covering w)
  | .append .. => inferInstanceAs
    (Decidable (w.covered = true ∧ w.wal.map WriteAheadLog.nextTxnId ≠ some 0))
  | .open _ | .flush _ | .checkpoint .. | .compact _ | .close | .crash _ =>
    inferInstanceAs (Decidable True)

/-- All ids are distinct, and in a covered session below the counter (or the
counter is back at 0). -/
structure Ids (w : World) : Prop where
  nodup : (w.appended.map WalEntry.txnId).Nodup
  below : ∀ wal, w.wal = some wal → w.covered = true → wal.nextTxnId ≠ 0 →
    ∀ e ∈ w.appended, e.txnId < wal.nextTxnId

theorem openLog_nextTxnId (C : Crates) (config : WalConfig) (d : Dir) :
    (openLog C config d).wal.nextTxnId = lastFlushed C d + 1 := by
  unfold openLog lastFlushed
  dsimp only
  cases readCheckpoint C d with
  | none => split <;> rfl
  | some cp => split <;> rfl

theorem append_nextTxnId (C : Crates) (fault : Fault) (s : Session) (entry : WalEntry)
    (mode : WriteMode) :
    (append C fault s entry mode).1.wal.nextTxnId = s.wal.nextTxnId + 1 := rfl

theorem record_appended (w : World) (s : Session) (e : WalEntry) (mode : WriteMode)
    (r : Result UInt64) :
    ((w.record s e mode r).appended = w.appended ∨ (w.record s e mode r).appended =
      w.appended ++ [e]) ∧
      (w.record s e mode r).covered = w.covered := by
  cases r with
  | error x => exact ⟨.inl rfl, rfl⟩
  | ok id => exact ⟨.inr rfl, rfl⟩

theorem Ids.append {w w' : World} {entry : WalEntry} {mode : WriteMode} {fault : Fault}
    (hi : Ids w) (h : step C w (.append entry mode fault) = some w')
    (hc : Covering w (.append entry mode fault)) : Ids w' := by
  obtain ⟨wal, hwal, rfl⟩ := step_append h
  obtain ⟨hcov, hne⟩ := hc
  have hne : wal.nextTxnId ≠ 0 := fun he => hne (by rw [hwal, Option.map_some, he])
  have hbelow := hi.below wal hwal hcov hne
  obtain ⟨_, hs⟩ := record_disk w (L2.Log.append C fault ⟨w.disk, wal⟩ entry mode).1
    (stamped wal entry) mode
    (L2.Log.append C fault ⟨w.disk, wal⟩ entry mode).2
  obtain ⟨happ, _⟩ := record_appended w (L2.Log.append C fault ⟨w.disk, wal⟩ entry mode).1
    (stamped wal entry) mode
    (L2.Log.append C fault ⟨w.disk, wal⟩ entry mode).2
  constructor
  · rcases happ with happ | happ
    · rw [happ]
      exact hi.nodup
    · rw [happ, List.map_append, List.nodup_append]
      refine ⟨hi.nodup, by simp, ?_⟩
      intro a ha b hb
      obtain ⟨e, he, rfl⟩ := List.mem_map.mp ha
      rw [List.mem_singleton.mp hb]
      exact UInt64.ne_of_lt (hbelow e he)
  · intro wal' hwal' _ hne' e he
    rw [hs, Option.some.injEq] at hwal'
    rw [← hwal', append_nextTxnId] at hne' ⊢
    have hlt : wal.nextTxnId < wal.nextTxnId + 1 := lt_succ_of_ne hne'
    rcases happ with happ | happ
    · rw [happ] at he
      exact UInt64.lt_trans (hbelow e he) hlt
    · rw [happ] at he
      rcases List.mem_append.mp he with he | he
      · exact UInt64.lt_trans (hbelow e he) hlt
      · rw [List.mem_singleton.mp he]
        exact hlt

/-- Steps that hand out no id and keep the session's counter. -/
theorem Ids.of_same {w w' : World} (hi : Ids w) (happ : w'.appended = w.appended)
    (hwal : ∀ wal', w'.wal = some wal' → w'.covered = w.covered ∧
      ∃ wal, w.wal = some wal ∧ wal'.nextTxnId = wal.nextTxnId) : Ids w' := by
  constructor
  · rw [happ]
    exact hi.nodup
  · intro wal' hwal' hcov hne
    obtain ⟨hc, wal, hw, hn⟩ := hwal wal' hwal'
    rw [hn] at hne ⊢
    rw [happ]
    exact hi.below wal hw (hc ▸ hcov) hne

theorem Ids.step {w w' : World} {l : Label} (hi : Ids w) (h : Sessions.step C w l = some w')
    (hc : Covering w l) : Ids w' := by
  cases l with
  | «open» config =>
    obtain ⟨_, rfl⟩ := step_open h
    refine ⟨hi.nodup, ?_⟩
    intro wal hwal hcov hne e he
    cases hwal
    have hle : e.txnId ≤ lastFlushed C w.disk := of_decide_eq_true hcov e he
    rw [openLog_nextTxnId] at hne ⊢
    exact UInt64.lt_of_le_of_lt hle (lt_succ_of_ne hne)
  | append entry mode fault => exact hi.append h hc
  | flush fails =>
    obtain ⟨wal, hwal, rfl⟩ := step_flush h
    refine hi.of_same rfl ?_
    intro wal' hwal'
    cases hwal'
    exact ⟨rfl, wal, hwal, rfl⟩
  | checkpoint cp fault =>
    obtain ⟨wal, hwal, rfl⟩ := step_checkpoint h
    exact hi.of_same rfl fun wal' hwal' => ⟨rfl, wal', hwal', rfl⟩
  | compact timestamp =>
    obtain ⟨wal, hwal, rfl⟩ := step_compact h
    exact hi.of_same rfl fun wal' hwal' => ⟨rfl, wal', hwal', rfl⟩
  | close =>
    obtain rfl := step_close h
    refine hi.of_same rfl ?_
    intro wal' hwal'
    cases hwal'
  | crash keep =>
    obtain rfl := step_crash h
    refine hi.of_same rfl ?_
    intro wal' hwal'
    cases hwal'

theorem ids_reachable {w : World} (h : ((system C).restrict Covering).Reachable w) : Ids w := by
  refine LTS.Inductive.reachable (T := (system C).restrict Covering)
    ⟨?_, fun _ _ _ hi hst => hi.step hst.1 hst.2⟩ w h
  rintro _ rfl
  refine ⟨List.nodup_nil, ?_⟩
  intro wal hwal
  cases hwal

theorem eq_of_txnId {w : World} (hi : Ids w) {e e' : WalEntry} (he : e ∈ w.appended)
    (he' : e' ∈ w.appended) (heq : e'.txnId = e.txnId) : e' = e := by
  have hinj := List.inj_on_of_nodup_map hi.nodup
  exact hinj he' he heq

/-! ## What the segments hold -/

/-- What the active segment holds before `len` more bytes go to it. -/
def activeBytes (d : Dir) (wal : WriteAheadLog) (len : Nat) : Bytes :=
  if wal.full len then [] else (d.read wal.currentSegment.file).getD []

/-- An append succeeds, and in the active segment with its bytes a reader finds the entry
and what it found there before, nothing else. -/
def Legible (C : Crates) (w : World) : Label → Prop
  | .append entry _ fault => fault = .none ∧ ∀ wal ∈ w.wal,
    let bytes := (stamped wal entry).toBytes C.crc
    let old := activeBytes w.disk wal bytes.length
    ∀ e ∈ (framing C.crc).frames (old ++ bytes),
      e ∈ (framing C.crc).frames old ∨ e = stamped wal entry
  | _ => True

instance (C : Crates) (w : World) : DecidablePred (Legible C w)
  | .append entry _ fault => inferInstanceAs (Decidable (fault = .none ∧ ∀ wal ∈ w.wal,
      ∀ e ∈ (framing C.crc).frames (activeBytes w.disk wal
        ((stamped wal entry).toBytes C.crc).length ++ (stamped wal entry).toBytes C.crc),
        e ∈ (framing C.crc).frames (activeBytes w.disk wal
          ((stamped wal entry).toBytes C.crc).length) ∨ e = stamped wal entry))
  | .open _ | .flush _ | .checkpoint .. | .compact _ | .close | .crash _ =>
    inferInstanceAs (Decidable True)

/-- So is an append behind whole entries of an entry whose length fits its field. -/
theorem legible_of_whole {w : World} {entry : WalEntry} (hfit : Fits entry)
    (h : ∀ wal ∈ w.wal, wal.full ((stamped wal entry).toBytes C.crc).length ∨
      Durability.Whole C w.disk wal.currentSegment.file) (mode : WriteMode) :
    Legible C w (.append entry mode .none) := by
  refine ⟨rfl, ?_⟩
  intro wal hwal bytes old e he
  have hfit : (framing C.crc).Fits (stamped wal entry) := hfit
  obtain ⟨es, hes, hold⟩ : ∃ es, (∀ x ∈ es, Fits x) ∧ old = (framing C.crc).stream es := by
    show ∃ es, _ ∧ activeBytes _ _ _ = _
    unfold activeBytes
    split
    · exact ⟨[], by simp, rfl⟩
    · next hfull =>
      obtain ⟨es, hes, hread⟩ := (h wal hwal).resolve_left hfull
      exact ⟨es, hes, by rw [hread]; rfl⟩
  have hnew := (framing C.crc).frames_enc hfit []
  rw [List.append_nil, Framing.frames_nil] at hnew
  rw [hold, (framing C.crc).frames_stream hes, List.mem_append] at he
  rcases he with he | he
  · left
    rw [hold, ← List.append_nil ((framing C.crc).stream es), (framing C.crc).frames_stream hes]
    exact List.mem_append_left _ he
  · right
    rw [show bytes = (framing C.crc).enc (stamped wal entry) from rfl, hnew] at he
    exact List.mem_singleton.mp he

/-- Whatever a reader finds in a segment satisfies `P`. -/
def Reads (C : Crates) (d : Dir) (P : WalEntry → Prop) : Prop :=
  ∀ n id, segmentIdOf n = some id → ∀ bytes, d.read n = some bytes →
    ∀ e ∈ (framing C.crc).frames bytes, P e

variable {P Q : WalEntry → Prop} {d : Dir}

theorem Reads.imp (h : Reads C d P) (hPQ : ∀ e, P e → Q e) : Reads C d Q :=
  fun n id hid bytes hread e he => hPQ e (h n id hid bytes hread e he)

/-- A directory whose segments were all there before, with no more in them. -/
theorem Reads.of_read {d' : Dir} (h : Reads C d P)
    (hd : ∀ n id, segmentIdOf n = some id → ∀ bytes, d'.read n = some bytes →
      bytes = [] ∨ d.read n = some bytes) : Reads C d' P := by
  intro n id hid bytes hread e he
  rcases hd n id hid bytes hread with rfl | hread
  · cases he
  · exact h n id hid bytes hread e he

theorem read_modify (d : Dir) (n m : FileName) (g : File → File) :
    (d.modify n g).read m = if m = n then (d.lookup n).map fun f => (g f).bytes else d.read m := by
  rw [Disk.read, Disk.lookup_modify]
  split
  · rw [Option.map_map]
    rfl
  · rfl

theorem read_create (d : Dir) (n m : FileName) :
    (d.create n).read m = if m = n then some [] else d.read m := by
  rw [Disk.read, Disk.lookup_create]
  split <;> rfl

theorem read_sync (d : Dir) (n m : FileName) : (d.sync n).read m = d.read m := by
  rw [Disk.sync, read_modify]
  split
  · next h => rw [h]; rfl
  · rfl

theorem Reads.open (h : Reads C d P) (config : WalConfig) : Reads C (openLog C config d).disk P := by
  unfold openLog
  dsimp only
  split
  · exact h
  · refine h.of_read ?_
    intro n id _ bytes hread
    replace hread : (d.create (segmentName 0)).read n = some bytes := hread
    rw [read_create] at hread
    split at hread
    · exact .inl (Option.some.inj hread).symm
    · exact .inr hread

theorem Reads.fsync (h : Reads C d P) (fails : Bool) (seg : SegmentWriter) :
    Reads C (seg.fsync fails d).1 P := by
  unfold SegmentWriter.fsync
  split
  · exact h
  · exact h.of_read fun n _ _ bytes hread => .inr (by rw [← read_sync d seg.file n]; exact hread)

theorem Reads.checkpoint (h : Reads C d P) (fault : Fault) (wal : WriteAheadLog)
    (cp : Checkpoint) : Reads C (writeCheckpoint C fault ⟨d, wal⟩ cp).1.disk P := by
  refine h.of_read ?_
  intro n id hid bytes hread
  have hne : n ≠ checkpointName := by
    rintro rfl
    simp at hid
  right
  rw [← hread]
  unfold writeCheckpoint
  cases fault <;>
    simp only [Disk.write, Disk.sync, read_modify, read_create, if_neg hne]

theorem Reads.compact (h : Reads C d P) (timestamp : UInt64) (wal : WriteAheadLog) :
    Reads C (compact C timestamp ⟨d, wal⟩).1.disk P := by
  refine h.of_read ?_
  intro n id hid bytes hread
  have hin : n ∈ (L2.Log.compact C timestamp ⟨d, wal⟩).1.disk := by
    rw [← AList.lookup_isSome]
    rw [Disk.read, Option.map_eq_some_iff] at hread
    obtain ⟨f, hf, _⟩ := hread
    rw [hf]
    rfl
  obtain ⟨hd, hlt⟩ := (mem_compact hid).mp hin
  exact .inr ((compact_read hid hd hlt).symm.trans hread)

/-- A crash leaves a front part of every file, and a reader finds the front part of what it
found. -/
theorem Reads.crash (h : Reads C d P) (keep : FileName → Option Nat) :
    Reads C (d.crash keep) P := by
  intro n id hid bytes hread e he
  rw [Disk.read, Disk.lookup_crash, Option.map_eq_some_iff] at hread
  obtain ⟨f', hf', rfl⟩ := hread
  obtain ⟨f, hf, hsurv⟩ := Option.bind_eq_some_iff.mp hf'
  obtain ⟨k, hk⟩ : ∃ k, f'.bytes = f.bytes.take k := by
    unfold File.survive at hsurv
    split at hsurv
    · split at hsurv
      · cases hsurv
      · exact ⟨_, by rw [← Option.some.inj hsurv]; rfl⟩
    · exact ⟨_, by rw [← Option.some.inj hsurv]; rfl⟩
  have hpre := (framing C.crc).frames_ext (framing_ext C.crc) (f.bytes.take k) (f.bytes.drop k)
  rw [List.take_append_drop, ← hk] at hpre
  exact h n id hid f.bytes (by rw [Disk.read, hf]; rfl) e (hpre.subset he)

/-- What the segments hold when the rotation is done. -/
theorem read_rotated {s : Session} {len : Nat} {n : FileName} {bytes : Bytes}
    (h : (rotated s len).1.read n = some bytes) :
    n = (rotated s len).2.file ∧ bytes = activeBytes s.disk s.wal len ∨
      n ≠ (rotated s len).2.file ∧ s.disk.read n = some bytes := by
  unfold rotated at h ⊢
  unfold activeBytes
  by_cases hfull : s.wal.full len
  · rw [if_pos hfull] at h ⊢
    rw [if_pos hfull]
    simp only [SegmentWriter.create, read_create, read_sync] at h ⊢
    split at h
    · next hn => exact .inl ⟨hn, (Option.some.inj h).symm⟩
    · next hn => exact .inr ⟨hn, h⟩
  · rw [if_neg hfull] at h ⊢
    rw [if_neg hfull]
    by_cases hn : n = s.wal.currentSegment.file
    · exact .inl ⟨hn, by rw [← hn, h]; rfl⟩
    · exact .inr ⟨hn, h⟩

/-- An append that succeeds puts its bytes behind what the active segment holds. -/
theorem read_append {s : Session} {entry : WalEntry} {mode : WriteMode} {n : FileName}
    {bytes : Bytes} (h : (append C .none s entry mode).1.disk.read n = some bytes) :
    bytes = activeBytes s.disk s.wal ((stamped s.wal entry).toBytes C.crc).length ++
        (stamped s.wal entry).toBytes C.crc ∨ s.disk.read n = some bytes := by
  have hok := writeLocked_none (s := s) ((stamped s.wal entry).toBytes C.crc) mode
  rcases hw : writeLocked .none s ((stamped s.wal entry).toBytes C.crc) mode with ⟨d, seg, r⟩
  rw [hw] at hok
  obtain rfl : r = .ok () := hok
  have hdisk : (append C .none s entry mode).1.disk = d := by
    rw [L2.Log.append]
    simp only [hw]
  obtain ⟨k, m, hseg, _, hd⟩ := writeLocked_ok hw
  generalize (stamped s.wal entry).toBytes C.crc = bs at hseg hd ⊢
  have hfile : seg.file = (rotated s bs.length).2.file := by rw [hseg]
  have hread : ((rotated s bs.length).1.write seg.file bs).read n = some bytes := by
    rw [← h, hdisk]
    rcases hd with rfl | ⟨_, rfl⟩
    · exact (read_sync _ _ _).symm
    · rfl
  rw [Disk.write, read_modify, hfile] at hread
  split at hread
  · obtain ⟨f, hf, rfl⟩ := Option.map_eq_some_iff.mp hread
    have hold : (rotated s bs.length).1.read (rotated s bs.length).2.file = some f.bytes := by
      rw [Disk.read, hf]
      rfl
    rcases read_rotated hold with ⟨_, he⟩ | ⟨hne, _⟩
    · exact .inl (by rw [File.extend_bytes, he])
    · exact absurd rfl hne
  · next hn =>
    rcases read_rotated hread with ⟨he, _⟩ | ⟨_, hr⟩
    · exact absurd he hn
    · exact .inr hr

/-- A legible append adds its entry. -/
theorem Reads.append {w : World} {wal : WriteAheadLog} {entry : WalEntry} {mode : WriteMode}
    (h : Reads C w.disk P) (hwal : w.wal = some wal) (hfile : ∃ id,
      segmentIdOf wal.currentSegment.file = some id)
    (hl : Legible C w (.append entry mode .none)) :
    Reads C (append C .none ⟨w.disk, wal⟩ entry mode).1.disk
      fun e => P e ∨ e = stamped wal entry := by
  intro n id hid bytes hread e he
  rcases read_append hread with rfl | hread
  · refine (hl.2 wal hwal e he).imp_left fun he => ?_
    unfold activeBytes at he
    split at he
    · cases he
    · obtain ⟨id', hid'⟩ := hfile
      cases hr : w.disk.read wal.currentSegment.file with
      | none =>
        rw [hr] at he
        cases he
      | some old =>
        rw [hr] at he
        exact h _ id' hid' old hr e he
  · exact .inl (h n id hid bytes hread e he)

/-- Every entry a reader finds in a segment was appended. -/
def AllAppended (C : Crates) (w : World) : Prop := Reads C w.disk (· ∈ w.appended)

theorem AllAppended.step {w w' : World} {l : Label} (hwf : WorldWf w) (ha : AllAppended C w)
    (h : Sessions.step C w l = some w') (hl : Legible C w l) : AllAppended C w' := by
  cases l with
  | «open» config =>
    obtain ⟨_, rfl⟩ := step_open h
    exact Reads.open ha config
  | append entry mode fault =>
    obtain ⟨wal, hwal, rfl⟩ := step_append h
    obtain rfl := hl.1
    have hfile : segmentIdOf wal.currentSegment.file = some wal.currentSegment.segmentId := by
      rw [(hwf.session wal hwal).file, segmentIdOf_segmentName]
    have hreads := Reads.append ha hwal ⟨_, hfile⟩ hl
    have hok : (L2.Log.append C .none ⟨w.disk, wal⟩ entry mode).2 = .ok wal.nextTxnId := by
      rw [Durability.append_result, writeLocked_none]
      rfl
    rw [hok]
    refine Reads.imp hreads ?_
    rintro e (he | rfl)
    · exact List.mem_append_left _ he
    · exact List.mem_append_right _ List.mem_cons_self
  | flush fails =>
    obtain ⟨wal, _, rfl⟩ := step_flush h
    exact Reads.fsync ha fails wal.currentSegment
  | checkpoint cp fault =>
    obtain ⟨wal, _, rfl⟩ := step_checkpoint h
    exact Reads.checkpoint ha fault wal cp
  | compact timestamp =>
    obtain ⟨wal, _, rfl⟩ := step_compact h
    exact Reads.compact ha timestamp wal
  | close =>
    obtain rfl := step_close h
    exact ha
  | crash keep =>
    obtain rfl := step_crash h
    exact Reads.crash ha keep

theorem appended_reachable {w : World}
    (h : ((system C).restrict fun w l => Covering w l ∧ Legible C w l).Reachable w) :
    WorldWf w ∧ AllAppended C w := by
  refine LTS.Inductive.reachable
    (T := (system C).restrict fun w l => Covering w l ∧ Legible C w l)
    (I := fun w => WorldWf w ∧ AllAppended C w)
    ⟨?_, fun _ _ _ hi hst => ⟨hi.1.step hst.1, hi.2.step hi.1 hst.1 hst.2.2⟩⟩ w h
  rintro _ rfl
  refine ⟨wf_reachable (C := C) ⟨.start, [], rfl, .nil _⟩, ?_⟩
  intro n id _ bytes hread
  cases hread

/-- **When transaction ids are unique.** Over every run whose appends are made
in covered sessions, no two appended entries have the same id. If the appends are
legible too, the dedup of `compact` keeps every entry of the sealed segments. -/
theorem txnIds_unique_when (C : Crates) :
    (∀ w, ((system C).restrict Covering).Reachable w →
      (w.appended.map WalEntry.txnId).Nodup) ∧
    ∀ w wal, ((system C).restrict fun w l => Covering w l ∧ Legible C w l).Reachable w →
      w.wal = some wal →
      ∃ m, dedupSegments C w.disk (sealedSegments ⟨w.disk, wal⟩) [] = .ok m ∧
        ∀ p ∈ sealedSegments ⟨w.disk, wal⟩, ∀ e ∈ entriesIn C w.disk 0 p.2,
          (e.txnId, e) ∈ m := by
  refine ⟨fun w h => (ids_reachable h).nodup, ?_⟩
  intro w wal h _
  have hids := ids_reachable h.restrict_and.of_restrict
  obtain ⟨_, happ⟩ := appended_reachable h
  refine ⟨_, dedupSegments_eq C w.disk _ _, ?_⟩
  -- what is read is appended, and an appended entry is known by its id
  have hread : ∀ e ∈ (sealedSegments ⟨w.disk, wal⟩).flatMap fun p => entriesIn C w.disk 0 p.2,
      e ∈ w.appended := by
    intro e he
    obtain ⟨p, hp, he⟩ := List.mem_flatMap.mp he
    have hlisted : (p.1, p.2) ∈ listSegments w.disk := List.mem_of_mem_filter hp
    obtain ⟨_, hid⟩ := mem_listSegments.mp hlisted
    have he := List.mem_of_mem_filter he
    cases hr : w.disk.read p.2 with
    | none =>
      rw [hr] at he
      cases he
    | some bytes =>
      rw [hr] at he
      exact happ p.2 p.1 hid bytes hr e he
  intro p hp e he
  have hin : e ∈ (sealedSegments ⟨w.disk, wal⟩).flatMap fun p => entriesIn C w.disk 0 p.2 :=
    List.mem_flatMap.mpr ⟨p, hp, he⟩
  obtain ⟨e', hm, hfrom⟩ := dedup_has e.txnId _ [] (.inr ⟨e, hin, rfl⟩)
  rcases hfrom with hnil | ⟨hin', heq⟩
  · cases hnil
  · rw [eq_of_txnId hids (hread e hin) (hread e' hin') heq] at hm
    exact hm

/-- Two sessions, with a checkpoint of the first one's entries in between; every
append after the first rotates. -/
def checkpointed : List Label :=
  [.open ⟨20, 1000⟩, .append ⟨0, 1, [7]⟩ .durable .none, .append ⟨0, 1, [8]⟩ .fast .none,
   .checkpoint ⟨2, 0⟩ .none, .close, .open ⟨20, 1000⟩, .append ⟨0, 1, [9]⟩ .durable .none]

def afterCheckpointed : World :=
  (LTS.exec (step crates) (fun w l => Covering w l ∧ Legible crates w l) .start
    checkpointed).get (by decide +kernel)

def walOfCheckpointed : WriteAheadLog := afterCheckpointed.wal.get (by decide +kernel)

theorem afterCheckpointed_reachable :
    ((system crates).restrict fun w l => Covering w l ∧ Legible crates w l).Reachable
      afterCheckpointed :=
  LTS.reachable_of_exec rfl (Option.some_get _).symm

/-- The first two entries are in sealed segments, and the dedup keeps both. -/
theorem txnIds_unique_checkpointed :
    (afterCheckpointed.appended.map WalEntry.txnId).Nodup ∧
      ∃ m, dedupSegments crates afterCheckpointed.disk
          (sealedSegments ⟨afterCheckpointed.disk, walOfCheckpointed⟩) [] = .ok m ∧
        (1, ⟨1, 1, [7]⟩) ∈ m ∧ (2, ⟨2, 1, [8]⟩) ∈ m := by
  have hreach := afterCheckpointed_reachable
  obtain ⟨hids, hdedup⟩ := txnIds_unique_when crates
  obtain ⟨m, hm, hkeep⟩ := hdedup afterCheckpointed walOfCheckpointed hreach
    (Option.some_get _).symm
  refine ⟨hids afterCheckpointed hreach.restrict_and.of_restrict, m, hm, ?_, ?_⟩
  · exact hkeep (0, segmentName 0) (by decide +kernel) ⟨1, 1, [7]⟩ (by decide +kernel)
  · exact hkeep (1, segmentName 1) (by decide +kernel) ⟨2, 1, [8]⟩ (by decide +kernel)

/-- The same without the checkpoint: both entries get id 1. -/
theorem reopen_repeats_id :
    ¬ ∀ w : World, ((system crates).restrict Life).Reachable w →
      (w.appended.map WalEntry.txnId).Nodup := by
  intro h
  have hw := h ((LTS.exec (step crates) Life .start
    [.open ⟨20, 1000⟩, .append ⟨0, 1, [7]⟩ .durable .none, .close,
     .open ⟨20, 1000⟩, .append ⟨0, 1, [8]⟩ .durable .none]).get (by decide +kernel))
    (LTS.reachable_of_exec rfl (Option.some_get _).symm)
  revert hw
  decide +kernel

end Tesseract.L2.TxnIds
