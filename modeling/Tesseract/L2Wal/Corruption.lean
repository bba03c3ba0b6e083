import Tesseract.L2Wal.AppendLog
import Tesseract.L2Wal.Sessions

/-!
# Recovery of a damaged log

The reader leaves a segment at the first entry it cannot decode, and recovery
goes on with the next segment. So the entries behind a damaged one are dropped
in its own segment only.

* `logged_reachable`: after any appends without a failing call the directory
  is a layout of the appended entries.
* `reads_damaged`: what is read of a damaged segment are the entries before the
  damaged one.
* `damaged_prefix_iff`: recovery of a damaged log is a prefix exactly when no
  entry was appended to a later segment.
-/
namespace Tesseract.L2.Corruption

open L1.Wal L1.SegmentName L2.Log L2.Sessions

variable {C : Crates}

/-! ## Logs made by appends -/

/-- An append that the format can hold and that no call fails in. -/
def Orderly (w : World) : Label → Prop
  | .append entry _ fault => fault = .none ∧ entry.payload.length < 2 ^ 32 ∧
    ∀ wal ∈ w.wal, wal.nextTxnId ≠ 0 ∧ wal.currentSegment.segmentId + 1 ≠ 0
  | l => AppendsOnly l

instance (w : World) : DecidablePred (Orderly w)
  | .append entry _ fault => inferInstanceAs (Decidable (fault = .none ∧
    entry.payload.length < 2 ^ 32 ∧
    ∀ wal ∈ w.wal, wal.nextTxnId ≠ 0 ∧ wal.currentSegment.segmentId + 1 ≠ 0))
  | .open _ | .close => inferInstanceAs (Decidable True)
  | .flush fails => inferInstanceAs (Decidable (fails = false))
  | .checkpoint .. | .compact _ | .crash _ => inferInstanceAs (Decidable False)

/-- The directory holds the appended entries, cut into the segments `segs`. -/
structure Logged (C : Crates) (w : World) (segs : List (List WalEntry)) : Prop where
  entries : segs.flatten = w.appended
  good : ∀ e ∈ w.appended, Good e
  layout : Layout w.disk (segs.map (framing C.crc).stream)
  session : ∀ wal, w.wal = some wal → Active C w.disk wal.currentSegment segs

theorem Logged.append {w w' : World} {segs : List (List WalEntry)} {entry : WalEntry}
    {mode : WriteMode} {fault : Fault} (hl : Logged C w segs)
    (h : step C w (.append entry mode fault) = some w')
    (ho : Orderly w (.append entry mode fault)) : ∃ segs', Logged C w' segs' := by
  obtain ⟨wal, hwal, rfl⟩ := step_append h
  obtain ⟨rfl, hfit, hnext⟩ := ho
  obtain ⟨hid, hseg⟩ := hnext wal hwal
  have hact := hl.session wal hwal
  obtain ⟨hok, segs', _, hflat, hact'⟩ :=
    append_active (s := ⟨w.disk, wal⟩) hact entry mode (hact.room hseg)
  rw [hok]
  refine ⟨segs', ?_, ?_, hact'.layout, ?_⟩
  · show segs'.flatten = w.appended ++ [stamped wal entry]
    rw [hflat, hl.entries]
  · intro e he
    have he' : e ∈ w.appended ++ [stamped wal entry] := he
    rcases List.mem_append.mp he' with he | he
    · exact hl.good e he
    · rw [List.mem_singleton.mp he]
      exact ⟨hfit, hid⟩
  · intro wal' hwal'
    cases hwal'
    exact hact'

theorem Logged.step {w w' : World} {l : Label} {segs : List (List WalEntry)} (hl : Logged C w segs)
    (h : Sessions.step C w l = some w') (ho : Orderly w l) : ∃ segs', Logged C w' segs' := by
  cases l with
  | «open» config =>
    obtain ⟨_, rfl⟩ := step_open h
    obtain ⟨segs', _, hflat, hact⟩ := openLog_active hl.layout config
    refine ⟨segs', by rw [hflat]; exact hl.entries, hl.good, hact.layout, ?_⟩
    intro wal hwal
    cases hwal
    exact hact
  | append entry mode fault => exact hl.append h ho
  | flush fails =>
    obtain ⟨wal, hwal, rfl⟩ := step_flush h
    obtain rfl : fails = false := ho
    have hact := hl.session wal hwal
    have hsync : Active C (w.disk.sync wal.currentSegment.file)
      { wal.currentSegment with opsSinceFsync := 0 } segs :=
      hact.sync ⟨rfl, rfl⟩
    refine ⟨segs, hl.entries, hl.good, hsync.layout, ?_⟩
    intro wal' hwal'
    cases hwal'
    exact hsync
  | checkpoint cp fault => exact ho.elim
  | compact timestamp => exact ho.elim
  | close =>
    obtain rfl := step_close h
    refine ⟨segs, hl.entries, hl.good, hl.layout, ?_⟩
    intro wal hwal
    cases hwal
  | crash keep => exact ho.elim

theorem logged_reachable {w : World} (h : ((system C).restrict Orderly).Reachable w) :
    ∃ segs, Logged C w segs := by
  refine LTS.Inductive.reachable (T := (system C).restrict Orderly) (I := fun w => ∃ segs,
    Logged C w segs)
    ⟨?_, fun _ _ _ ⟨segs, hl⟩ hst => hl.step hst.1 hst.2⟩ w h
  rintro _ rfl
  refine ⟨[], rfl, ?_, Layout.empty, ?_⟩
  · intro e he
    cases he
  · intro wal hwal
    cases hwal

/-! ## Damage -/

/-- `bs` is what stands in place of the entry `e` and the bytes `rest` behind
it: altered bytes of `e` that do not decode, with `rest` behind them, or a cut
inside `e`. -/
def Damaged (C : Crates) (e : WalEntry) (rest bs : Bytes) : Prop :=
  (∃ b, b.length = (e.toBytes C.crc).length ∧ bs = b ++ rest ∧
    ∃ x, WalEntry.fromBytes C.crc (b ++ rest) = .error x) ∨
  (bs <+: e.toBytes C.crc ∧ bs ≠ e.toBytes C.crc)

theorem reads_damaged {e : WalEntry} {rest bs : Bytes} (he : Fits e) (h : Damaged C e rest bs) :
    reads C bs = [] := by
  have hframes : (framing C.crc).frames bs = [] := by
    rcases h with ⟨b, _, rfl, x, hx⟩ | ⟨hp, hne⟩
    · refine (framing C.crc).frames_stop ?_
      simp [framing, hx, Except.toOption]
    · exact (framing C.crc).frames_torn ⟨e, he, hp, hne⟩
  rw [reads, hframes]
  rfl

/-- Replace the content of segment `i`. -/
def corrupt (d : Dir) (i : Nat) (bs : Bytes) : Dir :=
  d.insert (segmentName (.ofNat i)) (File.durable bs)

theorem corrupt_layout {d : Dir} {front back : List Bytes} {mid : Bytes}
    (h : Layout d (front ++ mid :: back)) (bs : Bytes) :
    Layout (corrupt d front.length bs) (front ++ bs :: back) := by
  have hlookup : ∀ m, (corrupt d front.length bs).lookup m =
      if m = segmentName (.ofNat front.length) then some (File.durable bs) else d.lookup m := by
    intro m
    unfold corrupt
    by_cases hm : m = segmentName (.ofNat front.length)
    · rw [if_pos hm, hm, AList.lookup_insert]
    · rw [if_neg hm, AList.lookup_insert_ne hm]
  have hset := h.set (i := front.length) (by simp) hlookup
  simpa [File.durable] using hset

/-- **When a damaged log is recovered as a prefix.** Take the log of any run of
appends that the format can hold, cut into segments as the directory has it, and
damage any one of its entries. Recovery returns exactly the entries appended
before it when no entry lies in a later segment, and only then. -/
theorem damaged_prefix_iff (C : Crates) {w : World}
    (h : ((system C).restrict Orderly).Reachable w) :
    (∃ segs : List (List WalEntry), segs.flatten = w.appended ∧
      Layout w.disk (segs.map (framing C.crc).stream)) ∧
    ∀ segs : List (List WalEntry), segs.flatten = w.appended →
      Layout w.disk (segs.map (framing C.crc).stream) →
      ∀ front before e after back bs, segs = front ++ (before ++ e :: after) :: back →
        Damaged C e ((framing C.crc).stream after) bs →
        (recover C (corrupt w.disk front.length ((framing C.crc).stream before ++ bs)) =
            .ok (front.flatten ++ before) ↔ back.flatten = []) := by
  obtain ⟨segs₀, hl⟩ := logged_reachable h
  refine ⟨⟨segs₀, hl.entries, hl.layout⟩, ?_⟩
  rintro segs hflat hlay front before e after back bs rfl hdam
  have hgood : ∀ x ∈ front.flatten ++ ((before ++ e :: after) ++ back.flatten), Good x := by
    rw [List.flatten_append, List.flatten_cons] at hflat
    rw [hflat]
    exact hl.good
  have hfront : (front.map (framing C.crc).stream).flatMap (reads C) = front.flatten :=
    flatMap_reads fun x hx => hgood x (List.mem_append_left _ hx)
  have hback : (back.map (framing C.crc).stream).flatMap (reads C) = back.flatten :=
    flatMap_reads fun x hx => hgood x (List.mem_append_right _ (List.mem_append_right _ hx))
  have hmid : reads C ((framing C.crc).stream before ++ bs) = before := by
    rw [reads_stream fun x hx => hgood x (by simp [hx]), reads_damaged (hgood e (by simp)).1 hdam,
      List.append_nil]
  rw [List.map_append, List.map_cons] at hlay
  have hcor := corrupt_layout hlay ((framing C.crc).stream before ++ bs)
  rw [List.length_map] at hcor
  rw [hcor.recover, List.flatMap_append, List.flatMap_cons, hfront, hback, hmid, Except.ok.injEq,
    List.append_cancel_left_eq]
  exact List.append_right_eq_self

/-! ## A log of two segments -/

/-- The state behind `twoSegments`: one entry in each of two segments. -/
def orderlyTwo : World :=
  (LTS.exec (step crates) Orderly .start twoSegments).get (by decide +kernel)

def segsTwo : List (List WalEntry) := [[⟨1, 1, [7]⟩], [⟨2, 1, [8]⟩]]

theorem orderlyTwo_reachable : ((system crates).restrict Orderly).Reachable orderlyTwo :=
  LTS.reachable_of_exec rfl (Option.some_get _).symm

theorem orderlyTwo_layout : Layout orderlyTwo.disk (segsTwo.map (framing crates.crc).stream) := by
  have hkeys : orderlyTwo.disk.keys = [segmentName 1, segmentName 0] := by decide +kernel
  have hread : ∀ i < 2, orderlyTwo.disk.read (segmentName (.ofNat i)) =
      (segsTwo.map (framing crates.crc).stream)[i]? := by decide +kernel
  refine ⟨by decide, ?_, ?_, by decide +kernel⟩
  · intro n hn id hid
    have hn' : n ∈ orderlyTwo.disk.keys := hn
    rw [hkeys] at hn'
    simp only [List.mem_cons, List.not_mem_nil, or_false] at hn'
    rcases hn' with rfl | rfl
    · rw [segmentIdOf_segmentName, Option.some.injEq] at hid
      subst hid
      exact ⟨rfl, by decide⟩
    · rw [segmentIdOf_segmentName, Option.some.injEq] at hid
      subst hid
      exact ⟨rfl, by decide⟩
  · intro i bs hi
    rw [hread i (List.getElem?_eq_some_iff.mp hi).1, hi]

/-- The first entry with its payload byte changed from 7 to 9. -/
def alteredFirst : Bytes := ((⟨1, 1, [7]⟩ : WalEntry).toBytes crates.crc).set 13 9

theorem alteredFirst_damaged :
    Damaged crates ⟨1, 1, [7]⟩ ((framing crates.crc).stream []) alteredFirst := by
  refine .inl ⟨alteredFirst, by decide +kernel, (List.append_nil _).symm, ?_⟩
  refine ⟨.crcMismatch (crates.crc (header 1 1 1 ++ [7])) (crates.crc (header 1 1 1 ++ [9])), ?_⟩
  decide +kernel

/-- With the first entry damaged, the second one, in the next segment, is
returned. -/
theorem damaged_first_segment_skipped :
    ¬ ∀ (w : World) (segs : List (List WalEntry)), ((system crates).restrict Orderly).Reachable w →
      segs.flatten = w.appended → Layout w.disk (segs.map (framing crates.crc).stream) →
      ∀ front before e after back bs, segs = front ++ (before ++ e :: after) :: back →
        Damaged crates e ((framing crates.crc).stream after) bs →
        recover crates (corrupt w.disk front.length ((framing crates.crc).stream before ++ bs)) =
          .ok (front.flatten ++ before) := by
  intro h
  have hrec := h orderlyTwo segsTwo orderlyTwo_reachable (by decide +kernel) orderlyTwo_layout
    [] [] ⟨1, 1, [7]⟩ [] [[⟨2, 1, [8]⟩]] alteredFirst rfl alteredFirst_damaged
  have hsecond : recover crates (corrupt orderlyTwo.disk 0 alteredFirst) = .ok [⟨2, 1, [8]⟩] := by
    decide +kernel
  have hcontra := hsecond.symm.trans hrec
  exact absurd hcontra (by decide)

theorem damaged_prefix_two :
    recover crates (corrupt orderlyTwo.disk 0 alteredFirst) ≠ .ok [] := by
  have hiff := (damaged_prefix_iff crates orderlyTwo_reachable).2 segsTwo (by decide +kernel)
    orderlyTwo_layout
    [] [] ⟨1, 1, [7]⟩ [] [[⟨2, 1, [8]⟩]] alteredFirst rfl alteredFirst_damaged
  intro hnil
  exact absurd (hiff.mp hnil) (by decide)

end Tesseract.L2.Corruption
