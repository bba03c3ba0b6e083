import Tesseract.Core.Error

/-!
# The texts of the errors

The `Display` that `thiserror` derives.
-/
namespace Tesseract

/-- `format!("{n:#x}")` -/
def hexText (n : Nat) : String := "0x" ++ String.ofList (Nat.toDigits 16 n)

/-- `e.to_string()`
mirrors tesseract-common/src/error.rs:7-74 -/
def Error.text : Error → String
  | .dimensionMismatch self other =>
    s!"Dimension mismatch: self has {self} dimensions, other has {other}"
  | .indexOutOfBounds index len => s!"Index {index} out of bounds for vector of length {len}"
  | .parseError line col message => s!"Parse error at line {line}, column {col}: {message}"
  | .ioError text => s!"I/O error: {text}"
  | .corruptWal segment offset =>
    s!"Corrupt WAL at segment {segment}: CRC mismatch at offset {offset}"
  | .crcMismatch expected actual =>
    s!"CRC mismatch: expected {hexText expected.toNat}, got {hexText actual.toNat}"
  | .payloadTruncated expected actual =>
    s!"Payload truncated: expected {expected} bytes, got {actual}"
  | .invalidVector text => s!"Invalid vector: {text}"
  | .invalidConfig text => s!"Invalid config: {text}"
  | .lockPoisoned text => s!"Lock poisoned: {text}"
  | .serializationError text => s!"Serialization error: {text}"
  | .jsonError text => s!"JSON error: {text}"
  | .storeFull text => s!"Store is full: {text}"
  | .alreadyExists text => s!"{text} already exists"
  | .notFound text => s!"{text} not found"
  | .indexNotBuilt => "Index not built"
  | .unsupportedDimension dim => s!"Unsupported dimension: {dim}"
  | .graphCorrupt text => s!"Graph corrupt: {text}"
  | .shardNotAssigned shard => s!"Shard {shard} is not assigned to any node"
  | .allShardsFailed => "All shards failed during distributed query"
  | .nodeConflict text => s!"Node conflict: {text}"
  | .serviceError text => text

end Tesseract
