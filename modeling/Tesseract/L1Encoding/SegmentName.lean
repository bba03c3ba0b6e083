import Tesseract.Core.Error

/-!
# File names of the WAL directory

Segments are `wal-{id:010}.log`, a compaction writes `wal-merged-{secs:010}.log`
(through a `.tmp`), the checkpoint is `checkpoint.bin`. `list_segments` finds
the segments by parsing the names back (`segmentIdOf`).

* `segmentIdOf_segmentName`: the name of a segment parses back to its id, for
  every `u64`; so the names of distinct segments are distinct.
* `segmentIdOf_mergedName`, `segmentIdOf_tmpName`, `segmentIdOf_checkpoint`: no
  other file of the directory is taken for a segment.
-/
namespace Tesseract.L1.SegmentName

abbrev FileName := List Char

/-- `format!("{n:010}")` -/
def fmt010 (n : UInt64) : FileName :=
  List.replicate (10 - (Nat.toDigits 10 n.toNat).length) '0' ++ Nat.toDigits 10 n.toNat

/-- `str::parse::<u64>`: an optional `+`, then digits, below 2^64. -/
def parseU64 (s : FileName) : Option UInt64 :=
  let ds := match s with
    | '+' :: r => r
    | r => r
  if ds ≠ [] ∧ ds.all Char.isDigit = true ∧ Nat.ofDigitChars 10 ds 0 < 2 ^ 64 then
    some (UInt64.ofNat (Nat.ofDigitChars 10 ds 0))
  else none

/-- `str::strip_prefix` -/
def stripFront (p s : FileName) : Option FileName :=
  if p.isPrefixOf s then some (s.drop p.length) else none

/-- `str::strip_suffix` -/
def stripBack (p s : FileName) : Option FileName :=
  if p.isSuffixOf s then some (s.take (s.length - p.length)) else none

def walDash : FileName := ['w', 'a', 'l', '-']
def dotLog : FileName := ['.', 'l', 'o', 'g']
def dotTmp : FileName := ['.', 't', 'm', 'p']
def merged : FileName := ['m', 'e', 'r', 'g', 'e', 'd']

/-- mirrors tesseract-storage/src/wal.rs:395-398 -/
def segmentName (segmentId : UInt64) : FileName := walDash ++ fmt010 segmentId ++ dotLog

/-- `final_name` of `compact`.
mirrors tesseract-storage/src/wal.rs:319-320 -/
def mergedName (timestamp : UInt64) : FileName :=
  walDash ++ (merged ++ '-' :: fmt010 timestamp) ++ dotLog

/-- `merged_name` of `compact`.
mirrors tesseract-storage/src/wal.rs:317-318 -/
def tmpName (timestamp : UInt64) : FileName := mergedName timestamp ++ dotTmp

/-- mirrors tesseract-storage/src/wal.rs:355,450 -/
def checkpointName : FileName :=
  ['c', 'h', 'e', 'c', 'k', 'p', 'o', 'i', 'n', 't', '.', 'b', 'i', 'n']

/-- The test `list_segments` applies to a file name.
mirrors tesseract-storage/src/wal.rs:377-387 -/
def segmentIdOf (name : FileName) : Option UInt64 := do
  let rest ← stripFront walDash name
  let idStr ← stripBack dotLog rest
  if merged.isPrefixOf idStr then none else parseU64 idStr

theorem stripFront_append (p s : FileName) : stripFront p (p ++ s) = some s := by
  have h : p.isPrefixOf (p ++ s) = true := List.isPrefixOf_iff_prefix.mpr (List.prefix_append p s)
  simp [stripFront, h]

theorem stripBack_append (p s : FileName) : stripBack p (s ++ p) = some s := by
  have h : p.isSuffixOf (s ++ p) = true := List.isSuffixOf_iff_suffix.mpr (List.suffix_append s p)
  simp [stripBack, h]

theorem segmentIdOf_wal (s : FileName) :
    segmentIdOf (walDash ++ s ++ dotLog) = if merged.isPrefixOf s then none else parseU64 s := by
  rw [segmentIdOf, List.append_assoc, stripFront_append]
  simp [stripBack_append]

/-! ## Segment names -/

theorem fmt010_isDigit (n : UInt64) : ∀ c ∈ fmt010 n, c.isDigit = true := by
  intro c hc
  rcases List.mem_append.mp hc with h | h
  · rw [(List.mem_replicate.mp h).2]; decide
  · exact Nat.isDigit_of_mem_toDigits (by decide) (by decide) h

theorem fmt010_ne_nil (n : UInt64) : fmt010 n ≠ [] := by
  intro h
  exact Nat.toDigits_ne_nil (List.append_eq_nil_iff.mp h).2

theorem fmt010_value (n : UInt64) : Nat.ofDigitChars 10 (fmt010 n) 0 = n.toNat := by
  rw [fmt010, Nat.ofDigitChars_append, Nat.ofDigitChars_replicate_zero, Nat.mul_zero]
  exact Nat.ofDigitChars_toDigits (by decide) (by decide)

theorem parseU64_fmt010 (n : UInt64) : parseU64 (fmt010 n) = some n := by
  have hd := fmt010_isDigit n
  have hne := fmt010_ne_nil n
  have hv := fmt010_value n
  have hall : (fmt010 n).all Char.isDigit = true := List.all_eq_true.mpr hd
  -- a digit is not the sign, so nothing is stripped
  have hsign : (match fmt010 n with
      | '+' :: r => r
      | r => r) = fmt010 n := by
    cases h : fmt010 n with
    | nil => rfl
    | cons c cs =>
      have hc : c.isDigit = true := hd c (by rw [h]; exact List.mem_cons_self)
      split
      · next r heq =>
        simp only [List.cons.injEq] at heq
        rw [heq.1] at hc
        exact absurd hc (by decide)
      · rfl
  unfold parseU64
  simp only [hsign]
  rw [if_pos ⟨hne, hall, by rw [hv]; exact n.toNat_lt⟩, hv]
  simp

theorem not_merged_fmt010 (n : UInt64) : merged.isPrefixOf (fmt010 n) = false := by
  cases hb : merged.isPrefixOf (fmt010 n) with
  | false => rfl
  | true =>
    have hp := List.isPrefixOf_iff_prefix.mp hb
    have hm : 'm' ∈ fmt010 n := hp.subset (by decide)
    exact absurd (fmt010_isDigit n 'm' hm) (by decide)

/-- A segment's name parses back to its id. -/
@[simp] theorem segmentIdOf_segmentName (id : UInt64) : segmentIdOf (segmentName id) = some id := by
  rw [segmentName, segmentIdOf_wal, not_merged_fmt010, parseU64_fmt010]
  rfl

theorem segmentName_injective {a b : UInt64} (h : segmentName a = segmentName b) : a = b := by
  have := congrArg segmentIdOf h
  simpa using this

/-! ## The other files -/

/-- A merged segment is not listed. -/
@[simp] theorem segmentIdOf_mergedName (ts : UInt64) : segmentIdOf (mergedName ts) = none := by
  have h : merged.isPrefixOf (merged ++ '-' :: fmt010 ts) = true :=
    List.isPrefixOf_iff_prefix.mpr (List.prefix_append _ _)
  rw [mergedName, segmentIdOf_wal, h]
  rfl

@[simp] theorem segmentIdOf_tmpName (ts : UInt64) : segmentIdOf (tmpName ts) = none := by
  have hfront : stripFront walDash (tmpName ts) =
      some ((merged ++ '-' :: fmt010 ts) ++ dotLog ++ dotTmp) := by
    simp only [tmpName, mergedName, List.append_assoc, stripFront_append]
  -- the name ends in "p", the suffix in "g"
  have hback : ∀ s : FileName, stripBack dotLog (s ++ dotTmp) = none := by
    intro s
    have hb : dotLog.isSuffixOf (s ++ dotTmp) = false := by
      cases hb : dotLog.isSuffixOf (s ++ dotTmp) with
      | false => rfl
      | true =>
        obtain ⟨t, ht⟩ := List.isSuffixOf_iff_suffix.mp hb
        have := (List.append_inj' ht (by decide)).2
        exact absurd this (by decide)
    simp [stripBack, hb]
  rw [segmentIdOf, hfront]
  simp only [Option.bind_eq_bind, Option.bind_some]
  rw [hback]
  rfl

@[simp] theorem segmentIdOf_checkpoint : segmentIdOf checkpointName = none := by decide

end Tesseract.L1.SegmentName
