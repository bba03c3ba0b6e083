import Tesseract.Core.Error
import Tesseract.Core.Frames

/-!
# The WAL entry codec and the segment reader (`tesseract-storage/src/wal.rs`)

An entry is `txn_id (u64) ‖ op_code (u8) ‖ payload_len (u32) ‖ payload ‖ crc32
(u32)`, little-endian, the CRC over everything before it. `crc32fast` is a
parameter `crc`: nothing below depends on which function it is.

`payload_len` is `payload.len() as u32`, which truncates; `Fits` are the
entries whose length survives.

* `fromBytes_toBytes`: the decoder reads back an encoded entry whatever
  follows it.
* `fromBytes_torn`: it answers `PayloadTruncated` on every strict prefix of one.
* `framing`: so encoder and decoder are a `Framing`, and `readLoop_eq` says
  the reader of a segment returns the frames with `txn_id > skip_up_to`, for
  every content of the file.
* `codec_inverse`: reader and encoder are inverse, for every torn tail.
-/
namespace Tesseract.L1.Wal

open Endian

/-- mirrors tesseract-storage/src/wal.rs:34-40 -/
structure WalEntry where
  txnId : UInt64
  opCode : UInt8
  payload : Bytes
  deriving DecidableEq, Repr

/-- `data[off..off + n]` -/
def slice (data : Bytes) (off n : Nat) : Bytes := (data.drop off).take n

/-- The thirteen bytes before the payload. -/
def header (txnId : UInt64) (opCode : UInt8) (payloadLen : UInt32) : Bytes :=
  u64le txnId ++ [opCode] ++ u32le payloadLen

/-- mirrors tesseract-storage/src/wal.rs:124-131 -/
def serializeFieldsForCrc (txnId : UInt64) (opCode : UInt8) (payloadLen : UInt32)
    (payload : Bytes) : Bytes :=
  header txnId opCode payloadLen ++ payload

variable (crc : Bytes → UInt32)

/-- mirrors tesseract-storage/src/wal.rs:47-67 -/
def WalEntry.toBytes (e : WalEntry) : Bytes :=
  let payloadLen := UInt32.ofNat e.payload.length
  let buf := header e.txnId e.opCode payloadLen ++ e.payload
  buf ++ u32le (crc buf)

/-- The entry and the number of bytes consumed.
mirrors tesseract-storage/src/wal.rs:74-120 -/
def WalEntry.fromBytes (data : Bytes) : Result (WalEntry × Nat) :=
  let minLen := 8 + 1 + 4 + 4
  if data.length < minLen then .error (.payloadTruncated minLen data.length)
  else
    let txnId := u64of (slice data 0 8)
    let opCode := data.getD 8 0
    let payloadLen := (u32of (slice data 9 4)).toNat
    let needed := 13 + payloadLen + 4
    if data.length < needed then .error (.payloadTruncated needed data.length)
    else
      let payload := slice data 13 payloadLen
      let storedCrc := u32of (slice data (13 + payloadLen) 4)
      let computedCrc := crc (serializeFieldsForCrc txnId opCode (UInt32.ofNat payloadLen) payload)
      if storedCrc ≠ computedCrc then .error (.crcMismatch storedCrc computedCrc)
      else .ok (⟨txnId, opCode, payload⟩, 13 + payloadLen + 4)

/-- The `while offset < data.len()` loop, at most `fuel` rounds. Every round
that goes on consumes at least 17 bytes, so `fuel = data.len()` is enough
(`readLoop_eq`).
mirrors tesseract-storage/src/wal.rs:414-446 -/
def readLoop (segmentId skipUpTo : UInt64) (data : Bytes) :
    Nat → Nat → List WalEntry → Result (List WalEntry)
  | 0, _, entries => .ok entries
  | fuel + 1, offset, entries =>
    if offset < data.length then
      match WalEntry.fromBytes crc (data.drop offset) with
      | .ok (entry, consumed) =>
        readLoop segmentId skipUpTo data fuel (offset + consumed)
          (if skipUpTo < entry.txnId then entries ++ [entry] else entries)
      | .error (.payloadTruncated _ _) => .ok entries
      | .error (.crcMismatch _ _) => .ok entries
      | .error _ => .error (.corruptWal segmentId offset)
    else .ok entries

/-- `file` is the content of the segment file, `none` when it is not there.
mirrors tesseract-storage/src/wal.rs:404-446 -/
def readSegmentEntries (file : Option Bytes) (segmentId skipUpTo : UInt64) :
    Result (List WalEntry) :=
  match file with
  | none => .ok []
  | some data => readLoop crc segmentId skipUpTo data data.length 0 []

/-! ## The decoder behind a header -/

@[simp] theorem header_length (id : UInt64) (op : UInt8) (len : UInt32) :
    (header id op len).length = 13 := by
  simp [header]

theorem slice_zero (data : Bytes) (n : Nat) : slice data 0 n = data.take n := rfl

theorem header_txnId (id : UInt64) (op : UInt8) (len : UInt32) (rest : Bytes) :
    slice (header id op len ++ rest) 0 8 = u64le id := by
  rw [slice_zero, header, List.append_assoc, List.append_assoc]
  exact List.take_left' (u64le_length id)

theorem header_opCode (id : UInt64) (op : UInt8) (len : UInt32) (rest : Bytes) :
    (header id op len ++ rest).getD 8 0 = op := by
  simp [header]

theorem header_payloadLen (id : UInt64) (op : UInt8) (len : UInt32) (rest : Bytes) :
    slice (header id op len ++ rest) 9 4 = u32le len := by
  have h9 : (u64le id ++ [op]).length = 9 := by simp
  rw [slice, header, List.append_assoc, List.drop_left' h9]
  exact List.take_left' (u32le_length len)

theorem header_slice (id : UInt64) (op : UInt8) (len : UInt32) (rest : Bytes) (n k : Nat) :
    slice (header id op len ++ rest) (13 + n) k = slice rest n k := by
  have h13 : (header id op len ++ rest).drop 13 = rest := List.drop_left' (header_length id op len)
  rw [slice, ← List.drop_drop, h13, slice]

/-- What the decoder does with a header followed by at least the room of a CRC. -/
theorem fromBytes_header (id : UInt64) (op : UInt8) (len : UInt32) (rest : Bytes)
    (h4 : 4 ≤ rest.length) :
    WalEntry.fromBytes crc (header id op len ++ rest) =
      if rest.length < len.toNat + 4 then
        .error (.payloadTruncated (13 + len.toNat + 4) (13 + rest.length))
      else if u32of (slice rest len.toNat 4) ≠ crc (header id op len ++ rest.take len.toNat) then
        .error (.crcMismatch (u32of (slice rest len.toNat 4))
          (crc (header id op len ++ rest.take len.toNat)))
      else .ok (⟨id, op, rest.take len.toNat⟩, 13 + len.toNat + 4) := by
  have hlen : (header id op len ++ rest).length = 13 + rest.length := by simp
  have hpay := header_slice id op len rest 0 len.toNat
  rw [Nat.add_zero, slice_zero] at hpay
  unfold WalEntry.fromBytes
  simp only [header_txnId, header_opCode, header_payloadLen, u64of_u64le, u32of_u32le,
    header_slice, hlen, hpay, serializeFieldsForCrc, UInt32.ofNat_toNat]
  rw [if_neg (by omega)]
  by_cases h : rest.length < len.toNat + 4
  · rw [if_pos h, if_pos (by omega)]
  · rw [if_neg h, if_neg (by omega)]

/-! ## Round trip and torn entries -/

/-- `payload.len() as u32` does not truncate. -/
def Fits (e : WalEntry) : Prop := e.payload.length < 2 ^ 32

theorem fits_len {e : WalEntry} (h : Fits e) :
    (UInt32.ofNat e.payload.length).toNat = e.payload.length := by
  simp only [UInt32.toNat_ofNat']
  exact Nat.mod_eq_of_lt h

theorem toBytes_length (e : WalEntry) : (e.toBytes crc).length = 17 + e.payload.length := by
  simp [WalEntry.toBytes]; omega

/-- The decoder reads an encoded entry back, whatever follows. -/
theorem fromBytes_toBytes {e : WalEntry} (h : Fits e) (suffix : Bytes) :
    WalEntry.fromBytes crc (e.toBytes crc ++ suffix) = .ok (e, (e.toBytes crc).length) := by
  have hl := fits_len h
  have hlen := toBytes_length crc e
  rw [hlen]
  unfold WalEntry.toBytes
  generalize hcb : crc (header e.txnId e.opCode (UInt32.ofNat e.payload.length) ++ e.payload) = c
  simp only [hcb, List.append_assoc]
  have hstored : slice (e.payload ++ (u32le c ++ suffix)) e.payload.length 4 = u32le c := by
    rw [slice, List.drop_left]
    exact List.take_left' (u32le_length c)
  have hpay : (e.payload ++ (u32le c ++ suffix)).take e.payload.length = e.payload :=
    List.take_left' rfl
  have hroom : (e.payload ++ (u32le c ++ suffix)).length =
    e.payload.length + (4 + suffix.length) := by
    simp
  rw [fromBytes_header crc _ _ _ _ (by omega), hl, if_neg (by omega), hpay, hstored,
    u32of_u32le, hcb, if_neg (by simp)]
  simp only [Except.ok.injEq, Prod.mk.injEq, true_and]
  omega

/-- Every strict prefix of an encoded entry is a truncated payload. -/
theorem fromBytes_torn {e : WalEntry} (h : Fits e) {p : Bytes} (hp : p <+: e.toBytes crc)
    (hne : p ≠ e.toBytes crc) :
    ∃ n, WalEntry.fromBytes crc p = .error (.payloadTruncated n p.length) := by
  have hlt : p.length < 17 + e.payload.length := by
    have h1 := hp.length_le
    rw [toBytes_length] at h1
    have h2 : p.length ≠ 17 + e.payload.length := by
      intro he
      exact hne (hp.eq_of_length (by rw [toBytes_length]; exact he))
    omega
  by_cases h17 : p.length < 17
  · exact ⟨17, by simp [WalEntry.fromBytes, h17]⟩
  · -- the header is whole, and it announces more bytes than there are
    have hl := fits_len h
    obtain ⟨rest, hr⟩ : ∃ rest, p = header e.txnId e.opCode (UInt32.ofNat e.payload.length) ++
      rest := by
      obtain ⟨t, ht⟩ := hp
      unfold WalEntry.toBytes at ht
      simp only [List.append_assoc] at ht
      rcases List.append_eq_append_iff.mp ht with ⟨a, ha, -⟩ | ⟨a, ha, -⟩
      · exact ⟨[], by
          have := congrArg List.length ha
          simp only [List.length_append, header_length] at this
          omega⟩
      · exact ⟨a, ha⟩
    have hplen : p.length = 13 + rest.length := by rw [hr]; simp
    refine ⟨13 + e.payload.length + 4, ?_⟩
    rw [hplen, hr, fromBytes_header crc _ _ _ _ (by omega), hl, if_pos (by omega)]

/-- A decoded entry takes at least the 17 bytes around a payload, all of them
there. -/
theorem fromBytes_size {data : Bytes} {e : WalEntry} {k : Nat}
    (h : WalEntry.fromBytes crc data = .ok (e, k)) : 17 ≤ k ∧ k ≤ data.length := by
  unfold WalEntry.fromBytes at h
  dsimp only at h
  split at h
  · cases h
  · split at h
    · cases h
    · split at h
      · cases h
      · simp only [Except.ok.injEq, Prod.mk.injEq] at h
        omega

/-- A decoded payload is below the limit of its length field. -/
theorem fromBytes_fits {data : Bytes} {e : WalEntry} {k : Nat}
    (h : WalEntry.fromBytes crc data = .ok (e, k)) : Fits e := by
  unfold WalEntry.fromBytes at h
  dsimp only at h
  split at h
  · cases h
  · split at h
    · cases h
    · split at h
      · cases h
      · simp only [Except.ok.injEq, Prod.mk.injEq] at h
        rw [← h.1]
        show (slice data 13 (u32of (slice data 9 4)).toNat).length < 2 ^ 32
        have hlen := (u32of (slice data 9 4)).toNat_lt
        rw [slice, List.length_take]
        omega

/-- The decoder has two kinds of error only. -/
theorem fromBytes_error {data : Bytes} {x : Error} (h : WalEntry.fromBytes crc data = .error x) :
    (∃ n m, x = .payloadTruncated n m) ∨ (∃ n m, x = .crcMismatch n m) := by
  unfold WalEntry.fromBytes at h
  dsimp only at h
  split at h
  · simp only [Except.error.injEq] at h
    exact .inl ⟨_, _, h.symm⟩
  · split at h
    · simp only [Except.error.injEq] at h
      exact .inl ⟨_, _, h.symm⟩
    · split at h
      · simp only [Except.error.injEq] at h
        exact .inr ⟨_, _, h.symm⟩
      · cases h

theorem slice_append {data : Bytes} {off n : Nat} (h : off + n ≤ data.length) (rest : Bytes) :
    slice (data ++ rest) off n = slice data off n := by
  rw [slice, slice, List.drop_append_of_le_length (by omega),
    List.take_append_of_le_length (by rw [List.length_drop]; omega)]

/-- The decoder does not look behind the entry it returns. -/
theorem fromBytes_append {data : Bytes} {e : WalEntry} {k : Nat}
    (h : WalEntry.fromBytes crc data = .ok (e, k)) (rest : Bytes) :
    WalEntry.fromBytes crc (data ++ rest) = .ok (e, k) := by
  have hlen : (data ++ rest).length = data.length + rest.length := List.length_append
  unfold WalEntry.fromBytes at h ⊢
  dsimp only at h ⊢
  split at h
  · cases h
  next hmin =>
  split at h
  · cases h
  next hneeded =>
  have hop : (data ++ rest).getD 8 0 = data.getD 8 0 := by
    rw [List.getD_eq_getElem?_getD, List.getD_eq_getElem?_getD,
      List.getElem?_append_left (by omega)]
  rw [slice_append (by omega : 0 + 8 ≤ data.length), slice_append (by omega : 9 + 4 ≤ data.length),
    hop, slice_append (by omega), slice_append (by omega), if_neg (by omega), if_neg (by omega)]
  exact h

/-! ## The segment reader -/

/-- Encoder and decoder of the log as a framing. -/
def framing : Framing UInt8 WalEntry where
  Fits := Fits
  enc := WalEntry.toBytes crc
  dec bs := (WalEntry.fromBytes crc bs).toOption
  dec_size := by
    intro bs a k h
    cases hd : WalEntry.fromBytes crc bs with
    | error x => rw [hd] at h; cases h
    | ok r =>
      rw [hd] at h
      simp only [Except.toOption, Option.some.injEq] at h
      subst h
      have := fromBytes_size crc hd
      omega
  dec_enc := by
    intro a s h
    rw [fromBytes_toBytes crc h]
    rfl
  dec_torn := by
    intro a p h hp hne
    obtain ⟨n, hn⟩ := fromBytes_torn crc h hp hne
    rw [hn]
    rfl

theorem framing_ext : (framing crc).Ext := by
  intro bs rest e k h
  cases hd : WalEntry.fromBytes crc bs with
  | error x => simp [framing, hd, Except.toOption] at h
  | ok r =>
    obtain rfl : r = (e, k) := by simpa [framing, hd, Except.toOption] using h
    simp [framing, fromBytes_append crc hd, Except.toOption]

/-- The loop returns what it had, then the frames from `offset` on that are
past the skip value; `fuel = data.len() - offset` rounds are enough. -/
theorem readLoop_eq (seg skip : UInt64) (data : Bytes) :
    ∀ (fuel offset : Nat) (acc : List WalEntry),
    data.length - offset ≤ fuel →
    readLoop crc seg skip data fuel offset acc =
      .ok (acc ++ ((framing crc).frames (data.drop offset)).filter (fun e =>
        decide (skip < e.txnId))) := by
  intro fuel
  induction fuel with
  | zero =>
    intro offset acc hf
    have hnil : data.drop offset = [] := List.drop_of_length_le (by omega)
    simp [readLoop, hnil]
  | succ fuel ih =>
    intro offset acc hf
    rw [readLoop]
    by_cases hlt : offset < data.length
    · rw [if_pos hlt, Framing.frames_eq]
      cases hd : WalEntry.fromBytes crc (data.drop offset) with
      | error x =>
        have hdec : (framing crc).dec (data.drop offset) = none := by
          simp [framing, hd, Except.toOption]
        rw [hdec]
        rcases fromBytes_error crc hd with ⟨n, m, rfl⟩ | ⟨n, m, rfl⟩ <;> simp
      | ok r =>
        obtain ⟨e, k⟩ := r
        have hdec : (framing crc).dec (data.drop offset) = some (e, k) := by
          simp [framing, hd, Except.toOption]
        have hk := fromBytes_size crc hd
        rw [hdec]
        simp only [List.drop_drop]
        rw [ih (offset + k) _ (by omega)]
        by_cases hs : skip < e.txnId <;> simp [hs]
    · have hnil : data.drop offset = [] := List.drop_of_length_le (by omega)
      simp [hlt, hnil]

/-- The reader never fails: it returns the frames past the skip value. -/
theorem readSegmentEntries_some (data : Bytes) (seg skip : UInt64) :
    readSegmentEntries crc (some data) seg skip =
      .ok (((framing crc).frames data).filter (fun e => decide (skip < e.txnId))) := by
  simp only [readSegmentEntries]
  rw [readLoop_eq crc seg skip data data.length 0 [] (by omega)]
  simp

/-- So is every entry the reader returns. -/
theorem of_mem_frames_fits {data : Bytes} {e : WalEntry} (h : e ∈ (framing crc).frames data) :
    Fits e := by
  obtain ⟨s, k, hd⟩ := (framing crc).of_mem_frames h
  cases hr : WalEntry.fromBytes crc s with
  | error x => simp [framing, hr, Except.toOption] at hd
  | ok r =>
    simp only [framing, hr, Except.toOption, Option.some.injEq] at hd
    subst hd
    exact fromBytes_fits crc hr

/-- **Codec and reader are inverse.** On the encodings of any entries followed
by nothing or by a strict prefix of an encoded entry, the reader returns
exactly the entries with `txn_id > s`, in order; and the decoder reads back any
encoded entry, whatever follows. -/
theorem codec_inverse (es : List WalEntry) (hes : ∀ e ∈ es, e.payload.length < 2 ^ 32)
    (seg s : UInt64) (tail : Bytes)
    (ht : tail = [] ∨ ∃ e : WalEntry, e.payload.length < 2 ^ 32 ∧ tail <+: e.toBytes crc ∧
      tail ≠ e.toBytes crc) :
    readSegmentEntries crc (some ((es.map (WalEntry.toBytes crc)).flatten ++ tail)) seg s =
        .ok (es.filter (fun e => decide (s < e.txnId))) ∧
      ∀ (e : WalEntry) (suffix : Bytes), e.payload.length < 2 ^ 32 →
        WalEntry.fromBytes crc (e.toBytes crc ++ suffix) = .ok (e, (e.toBytes crc).length) := by
  refine ⟨?_, fun e suffix he => fromBytes_toBytes crc he suffix⟩
  have hfit : ∀ e ∈ es, (framing crc).Fits e := hes
  have hstream := (framing crc).frames_stream hfit tail
  rw [(framing crc).frames_tail ht, List.append_nil] at hstream
  rw [readSegmentEntries_some]
  exact congrArg (fun l => Except.ok (l.filter (fun e => decide (s < e.txnId)))) hstream

/-- Two entries, the second one past the skip value, and a torn third. -/
theorem codec_inverse_two :
    readSegmentEntries (fun bs => UInt32.ofNat bs.length)
        (some (([⟨1, 1, [7]⟩, ⟨2, 1, [8, 9]⟩].map (WalEntry.toBytes fun bs =>
          UInt32.ofNat bs.length)).flatten ++
          [3, 0, 0])) 0 1 = .ok [⟨2, 1, [8, 9]⟩] := by
  have h := (codec_inverse (fun bs => UInt32.ofNat bs.length) [⟨1, 1, [7]⟩, ⟨2, 1, [8, 9]⟩]
    (by decide) 0 1 [3, 0, 0] (.inr ⟨⟨3, 1, []⟩, by decide, by decide, by decide⟩)).1
  rw [h]
  decide

end Tesseract.L1.Wal
