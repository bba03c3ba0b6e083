import Tesseract.Core.Endian

/-!
# CRC-32

The function of the `crc32fast` crate (reflected polynomial 0xEDB88320, initial
and final complement), bit by bit. The model takes it as a parameter; concrete
runs use this one.
-/
namespace Tesseract.Crc32

/-- Eight shifts of the register, one for each bit of a byte. -/
def shift : Nat → UInt32 → UInt32
  | 0, r => r
  | n + 1, r => shift n (if r &&& 1 = 1 then (r >>> 1) ^^^ 0xEDB88320 else r >>> 1)

def update (r : UInt32) (b : UInt8) : UInt32 := shift 8 (r ^^^ b.toUInt32)

/-- `crc32fast::hash` -/
def hash (bs : Bytes) : UInt32 := (bs.foldl update 0xFFFFFFFF) ^^^ 0xFFFFFFFF

/-- The check value of CRC-32, of the digits 1 to 9 as ASCII text. -/
example : hash [0x31, 0x32, 0x33, 0x34, 0x35, 0x36, 0x37, 0x38, 0x39] = 0xCBF43926 := by
  decide +kernel

end Tesseract.Crc32
