import Mathlib.Algebra.Order.Field.Basic
import Mathlib.Data.Rat.Floor
import Mathlib.Data.Rat.Sqrt
import Mathlib.Tactic.Linarith
import Tesseract.Core.Floats

/-!
# Exact arithmetic

An ordered field as an instance of `f64`: every operation is exact, and no value
is infinite or NaN. Of the square root only its sign is asked for, of `as usize`
that it rounds down.
-/
namespace Tesseract

variable {K : Type}

/-- Without rounding both widths have the same numbers. -/
instance (priority := low) exactNarrow : Narrow K K where
  toF32 := id

instance (priority := low) exactWiden : Widen K K where
  toF64 := id

@[simp] theorem exact_toF32 (a : K) : (Narrow.toF32 a : K) = a := rfl

@[simp] theorem exact_toF64 (a : K) : (Widen.toF64 a : K) = a := rfl

section Field

variable [Field K] [LinearOrder K]

instance (priority := low) exactF64 : F64 K where
  zero := 0
  add a b := a + b
  sub a b := a - b
  mul a b := a * b
  div a b := a / b
  lt a b := decide (a < b)
  isFinite _ := true
  ofInt n := n

@[simp] theorem exact_zero : (F64.zero : K) = 0 := rfl

@[simp] theorem exact_add (a b : K) : F64.add a b = a + b := rfl

@[simp] theorem exact_sub (a b : K) : F64.sub a b = a - b := rfl

@[simp] theorem exact_mul (a b : K) : F64.mul a b = a * b := rfl

@[simp] theorem exact_div (a b : K) : F64.div a b = a / b := rfl

@[simp] theorem exact_lt (a b : K) : F64.lt a b = decide (a < b) := rfl

@[simp] theorem exact_ofInt (n : Int) : (F64.ofInt n : K) = n := rfl

/-- A clamped value is zero only where the value is. -/
theorem clamp_eq_zero [IsStrictOrderedRing K] {lo hi x : K} (hlo : lo < 0) (hhi : 0 < hi) :
    F64.clamp lo hi x = 0 ↔ x = 0 := by
  unfold F64.clamp
  simp only [exact_lt, decide_eq_true_eq]
  split_ifs with h₁ h₂ h₂ <;> constructor <;> intro h <;> linarith

end Field

/-- What the proofs use of the square root of exact numbers. -/
class LawfulMath (K : Type) [Field K] [LinearOrder K] [F64Math K] : Prop where
  le_iff : ∀ a b : K, F64Math.le a b = true ↔ a ≤ b
  sqrt_pos : ∀ a : K, 0 < a → 0 < F64Math.sqrt a

/-- Exact on the squares of rationals. -/
instance : F64Math ℚ where
  le a b := decide (a ≤ b)
  sqrt := Rat.sqrt

instance : LawfulMath ℚ where
  le_iff a b := decide_eq_true_iff
  sqrt_pos a ha := by
    have hnum : 0 < Int.sqrt a.num := by
      have h : 0 < a.num.toNat := by
        have := Rat.num_pos.mpr ha
        omega
      exact Int.natCast_pos.mpr (Nat.sqrt_pos.mpr h)
    have hden : 0 < Nat.sqrt a.den := Nat.sqrt_pos.mpr a.den_pos
    show 0 < Rat.sqrt a
    rw [Rat.sqrt, Rat.mkRat_eq_div]
    have hnum' : (0 : ℚ) < (Int.sqrt a.num : ℚ) := by exact_mod_cast hnum
    have hden' : (0 : ℚ) < (Nat.sqrt a.den : ℚ) := by exact_mod_cast hden
    exact div_pos hnum' hden'

instance (priority := low) (K : Type) [Field K] [LinearOrder K] [F64Math K] [LawfulMath K] :
    OrderF64 K where
  le_of_lt a b h := (LawfulMath.le_iff a b).mpr (of_decide_eq_true h).le
  lt_of_le_of_lt a b _ hab hbc :=
    decide_eq_true (((LawfulMath.le_iff a b).mp hab).trans_lt (of_decide_eq_true hbc))

/-- `f32` without rounding. Which square root and which order, the proofs do not use. -/
class ExactF32 (K : Type) [Field K] [F32 K] : Prop where
  zero : (F32.zero : K) = 0
  add : ∀ a b : K, F32.add a b = a + b
  sub : ∀ a b : K, F32.sub a b = a - b
  mul : ∀ a b : K, F32.mul a b = a * b
  div : ∀ a b : K, F32.div a b = a / b
  ofNat : ∀ n : Nat, (F32.ofNat n : K) = n
  centi : (F32.centi : K) = 1 / 100

attribute [simp] ExactF32.zero ExactF32.add ExactF32.sub ExactF32.mul ExactF32.div ExactF32.ofNat
  ExactF32.centi

instance : F32 ℚ where
  zero := 0
  one := 1
  add a b := a + b
  sub a b := a - b
  mul a b := a * b
  div a b := a / b
  sqrt := Rat.sqrt
  partialCmp a b := some (compare a b)
  ofNat n := n
  centi := 1 / 100
  toLeBytes x := [UInt8.ofNat x.num.natAbs, UInt8.ofNat x.den]

instance : ExactF32 ℚ where
  zero := rfl
  add _ _ := rfl
  sub _ _ := rfl
  mul _ _ := rfl
  div _ _ := rfl
  ofNat _ := rfl
  centi := rfl

/-- The literal `1.0_f32` without rounding. -/
class ExactOne (K : Type) [Field K] [F32 K] : Prop where
  one : (F32.one : K) = 1

attribute [simp] ExactOne.one

instance : ExactOne ℚ where
  one := rfl

/-- What the proofs use of `as usize` on exact numbers. -/
class LawfulPlan (K : Type) [Field K] [LinearOrder K] [F64Plan K] : Prop where
  toUsize_le : ∀ x : K, 0 ≤ x → (F64Plan.toUsize x : K) ≤ x
  lt_toUsize : ∀ x : K, 0 ≤ x → x < 2 ^ 64 → x < F64Plan.toUsize x + 1

/-- `ln` is that of 10000 to two decimals. -/
instance : F64Plan ℚ where
  ln _ := 921 / 100
  ceil x := ⌈x⌉
  toUsize x := min ⌊x⌋.toNat (2 ^ 64 - 1)
  fixed1 x := toString (⌊x * 10 + 1 / 2⌋ / 10) ++ "." ++ toString (⌊x * 10 + 1 / 2⌋ % 10)

instance : LawfulPlan ℚ where
  toUsize_le x hx := by
    have hfloor : 0 ≤ ⌊x⌋ := Int.floor_nonneg.mpr hx
    calc ((min ⌊x⌋.toNat (2 ^ 64 - 1) : Nat) : ℚ) ≤ (⌊x⌋.toNat : ℚ) := by
          exact_mod_cast Nat.min_le_left _ _
      _ = (⌊x⌋ : ℚ) := by exact_mod_cast Int.toNat_of_nonneg hfloor
      _ ≤ x := Int.floor_le x
  lt_toUsize x hx hlt := by
    have hfloor : 0 ≤ ⌊x⌋ := Int.floor_nonneg.mpr hx
    have hbound : ⌊x⌋ < 2 ^ 64 := Int.floor_lt.mpr (by exact_mod_cast hlt)
    have hmin : min ⌊x⌋.toNat (2 ^ 64 - 1) = ⌊x⌋.toNat := by omega
    calc x < (⌊x⌋ : ℚ) + 1 := Int.lt_floor_add_one x
      _ = (⌊x⌋.toNat : ℚ) + 1 := by
          rw [show (⌊x⌋.toNat : ℚ) = (⌊x⌋ : ℚ) by exact_mod_cast Int.toNat_of_nonneg hfloor]
      _ = ((min ⌊x⌋.toNat (2 ^ 64 - 1) : Nat) : ℚ) + 1 := by rw [hmin]

end Tesseract
