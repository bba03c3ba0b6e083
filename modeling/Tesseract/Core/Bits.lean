import Tesseract.Core.Endian
import Tesseract.Core.Floats

/-!
# The bytes of an `f32`

`F32Bytes` is what the proofs use of `to_le_bytes`. `Bits` is an instance: an `f32`
given by its bits, with the arithmetic of `Lit` on integers, infinities and NaN.
-/
namespace Tesseract

open Endian

/-- An `f32` is four bytes, and any four bytes are an `f32`. -/
class F32Bytes (β : Type) [F32 β] : Prop where
  length : ∀ x : β, (F32.toLeBytes x).length = 4
  onto : ∀ bs : Bytes, bs.length = 4 → ∃ x : β, F32.toLeBytes x = bs

structure Bits where
  bits : UInt32
  deriving DecidableEq, Repr

namespace Bits

/-- The integer, infinity or NaN with these bits. A fraction is read as a NaN. -/
def toLit (x : Bits) : Lit :=
  let n := x.bits.toNat % 2 ^ 31
  let exponent := n / 2 ^ 23
  let significand : Int := (2 ^ 23 + n % 2 ^ 23 : Nat)
  let sign : Int := if x.bits.toNat < 2 ^ 31 then 1 else -1
  if exponent = 255 then
    if n % 2 ^ 23 = 0 then .inf (sign < 0) else .nan
  else if n = 0 then .fin 0
  else if 150 ≤ exponent then .fin (sign * significand * 2 ^ (exponent - 150))
  else if significand % 2 ^ (150 - exponent) = 0 then
    .fin (sign * (significand / 2 ^ (150 - exponent)))
  else .nan

/-- Exact below 2^24. -/
def ofLit : Lit → Bits
  | .nan => ⟨0x7fc00000⟩
  | .inf negative => ⟨if negative then 0xff800000 else 0x7f800000⟩
  | .fin n =>
    let log := n.natAbs.log2
    let sign := if n < 0 then 2 ^ 31 else 0
    if n = 0 then ⟨0⟩
    else ⟨.ofNat (sign + (log + 127) * 2 ^ 23 + (n.natAbs * 2 ^ 23 / 2 ^ log - 2 ^ 23))⟩

def lift (f : Lit → Lit → Lit) (x y : Bits) : Bits := ofLit (f x.toLit y.toLit)

instance : F32 Bits where
  zero := ofLit F32.zero
  one := ofLit F32.one
  add := lift F32.add
  sub := lift F32.sub
  mul := lift F32.mul
  div := lift F32.div
  sqrt x := ofLit (F32.sqrt x.toLit)
  partialCmp x y := F32.partialCmp x.toLit y.toLit
  ofNat n := ofLit (F32.ofNat n)
  centi := ⟨0x3c23d70a⟩
  toLeBytes x := u32le x.bits

instance : F32Bytes Bits where
  length x := u32le_length x.bits
  onto bs h := ⟨⟨u32of bs⟩, u32le_u32of h⟩

example : (ofLit (.fin (-5))).bits = 0xc0a00000 ∧ (ofLit (.fin (-5))).toLit = .fin (-5) := by
  decide

end Bits

end Tesseract
