import Mathlib.Algebra.Group.Nat.Defs

/-!
# Little-endian integers

`to_le_bytes` / `from_le_bytes` of a fixed-width unsigned integer, on its
natural-number value.
-/
namespace Tesseract

abbrev Bytes := List UInt8

namespace Endian

/-- The `w` low-order bytes of `n`, least significant first. -/
def leBytes : Nat → Nat → Bytes
  | 0, _ => []
  | w + 1, n => UInt8.ofNat n :: leBytes w (n / 256)

def leNat : Bytes → Nat
  | [] => 0
  | b :: bs => b.toNat + 256 * leNat bs

@[simp] theorem leBytes_length (w n : Nat) : (leBytes w n).length = w := by
  induction w generalizing n with
  | zero => rfl
  | succ w ih => simp [leBytes, ih]

/-- Decoding reads the value back modulo the width. -/
theorem leNat_leBytes (w n : Nat) : leNat (leBytes w n) = n % 256 ^ w := by
  induction w generalizing n with
  | zero => simp [leBytes, leNat, Nat.mod_one]
  | succ w ih =>
    have hb : (UInt8.ofNat n).toNat = n % 256 := by simp
    rw [leBytes, leNat, ih, hb, Nat.pow_succ, Nat.mul_comm (256 ^ w) 256, Nat.mod_mul]

theorem leNat_lt (bs : Bytes) : leNat bs < 256 ^ bs.length := by
  induction bs with
  | nil => simp [leNat]
  | cons b bs ih =>
    have hb := b.toNat_lt
    rw [leNat, List.length_cons, Nat.pow_succ]
    omega

/-- Every string of bytes is the encoding of its value. -/
theorem leBytes_leNat (bs : Bytes) : leBytes bs.length (leNat bs) = bs := by
  induction bs with
  | nil => rfl
  | cons b bs ih =>
    have hb := b.toNat_lt
    have hhead : UInt8.ofNat (b.toNat + 256 * leNat bs) = b := by
      apply UInt8.toNat_inj.mp
      rw [UInt8.toNat_ofNat']
      omega
    have htail : (b.toNat + 256 * leNat bs) / 256 = leNat bs := by omega
    rw [leNat, List.length_cons, leBytes, hhead, htail, ih]

/-- `u64::to_le_bytes` -/
def u64le (x : UInt64) : Bytes := leBytes 8 x.toNat

/-- `u64::from_le_bytes` -/
def u64of (bs : Bytes) : UInt64 := UInt64.ofNat (leNat bs)

/-- `u32::to_le_bytes` -/
def u32le (x : UInt32) : Bytes := leBytes 4 x.toNat

/-- `u32::from_le_bytes` -/
def u32of (bs : Bytes) : UInt32 := UInt32.ofNat (leNat bs)

@[simp] theorem u64le_length (x : UInt64) : (u64le x).length = 8 := leBytes_length 8 _

@[simp] theorem u32le_length (x : UInt32) : (u32le x).length = 4 := leBytes_length 4 _

@[simp] theorem u64of_u64le (x : UInt64) : u64of (u64le x) = x := by
  have h : x.toNat % 256 ^ 8 = x.toNat := Nat.mod_eq_of_lt x.toNat_lt
  rw [u64of, u64le, leNat_leBytes, h]
  exact UInt64.ofNat_toNat

@[simp] theorem u32of_u32le (x : UInt32) : u32of (u32le x) = x := by
  have h : x.toNat % 256 ^ 4 = x.toNat := Nat.mod_eq_of_lt x.toNat_lt
  rw [u32of, u32le, leNat_leBytes, h]
  exact UInt32.ofNat_toNat

theorem u64le_u64of {bs : Bytes} (h : bs.length = 8) : u64le (u64of bs) = bs := by
  have hlt : leNat bs < 2 ^ 64 := by
    have := leNat_lt bs
    rw [h] at this
    omega
  rw [u64le, u64of, UInt64.toNat_ofNat', Nat.mod_eq_of_lt hlt, ← h]
  exact leBytes_leNat bs

theorem u32le_u32of {bs : Bytes} (h : bs.length = 4) : u32le (u32of bs) = bs := by
  have hlt : leNat bs < 2 ^ 32 := by
    have := leNat_lt bs
    rw [h] at this
    omega
  rw [u32le, u32of, UInt32.toNat_ofNat', Nat.mod_eq_of_lt hlt, ← h]
  exact leBytes_leNat bs

end Endian

end Tesseract
