import Tesseract.Core.Endian

/-!
# The unified error type of the crates
-/
namespace Tesseract

/-- mirrors tesseract-common/src/error.rs:7-74 (an `IoError` keeps the text of
the operating system's error only). -/
inductive Error where
  | dimensionMismatch (self other : Nat)
  | indexOutOfBounds (index len : Nat)
  | parseError (line col : Nat) (message : String)
  | ioError (text : String)
  | corruptWal (segment : UInt64) (offset : Nat)
  | crcMismatch (expected actual : UInt32)
  | payloadTruncated (expected actual : Nat)
  | invalidVector (text : String)
  | invalidConfig (text : String)
  | lockPoisoned (text : String)
  | serializationError (text : String)
  | jsonError (text : String)
  | storeFull (text : String)
  | alreadyExists (text : String)
  | notFound (text : String)
  | indexNotBuilt
  | unsupportedDimension (dim : Nat)
  | graphCorrupt (text : String)
  | shardNotAssigned (shard : UInt64)
  | allShardsFailed
  | nodeConflict (text : String)
  | serviceError (text : String)
  deriving DecidableEq, Repr

/-- `tesseract_common::error::Result` -/
abbrev Result (α : Type) := Except Error α

instance {α : Type} [DecidableEq α] : DecidableEq (Result α)
  | .ok a, .ok b => if h : a = b then isTrue (by rw [h]) else isFalse (by simp [h])
  | .error a, .error b => if h : a = b then isTrue (by rw [h]) else isFalse (by simp [h])
  | .ok _, .error _ => isFalse (by simp)
  | .error _, .ok _ => isFalse (by simp)

end Tesseract
