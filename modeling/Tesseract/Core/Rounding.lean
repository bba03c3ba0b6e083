import Mathlib.Data.Nat.Log
import Mathlib.Data.Rat.Sqrt
import Tesseract.Core.Floats

/-!
# Integers as doubles

`roundInt n` is the value of `n as f64`: the nearest integer with 53 significant bits, of
two the one with the even last bit.

* `roundInt_eq_iff`: up to 2^53 only the number itself is rounded to a number, but for
  `2^53 + 1`.

`Dbl` is a small instance for runs in which this matters: rationals, with every integer
rounded.
-/
namespace Tesseract

/-- The nearest multiple of `d`, of two the even one. -/
def nearestMultiple (d n : Nat) : Nat :=
  if 2 * (n % d) < d ∨ 2 * (n % d) = d ∧ n / d % 2 = 0 then n / d * d else (n / d + 1) * d

/-- A number of `52 + e` bits or more is rounded to a multiple of `2 ^ e`. -/
def roundNat (n : Nat) : Nat := nearestMultiple (2 ^ (n.log2 - 52)) n

def roundInt : Int → Int
  | .ofNat n => roundNat n
  | .negSucc n => -roundNat (n + 1)

/-- `j` is the one number rounded to `i` that is not `i`. -/
def RoundedTo (j i : Int) : Prop :=
  i = 2 ^ 53 ∧ j = 2 ^ 53 + 1 ∨ i = -2 ^ 53 ∧ j = -2 ^ 53 - 1

instance (j i : Int) : Decidable (RoundedTo j i) := inferInstanceAs (Decidable (_ ∨ _))

theorem le_nearestMultiple (d n : Nat) : n / d * d ≤ nearestMultiple d n := by
  unfold nearestMultiple
  split
  · exact Nat.le_refl _
  · exact Nat.mul_le_mul_right d (Nat.le_succ _)

theorem roundNat_of_lt {n : Nat} (h : n < 2 ^ 53) : roundNat n = n := by
  have hlog : n.log2 - 52 = 0 := by
    by_cases hn : n = 0
    · simp [hn]
    · have := (Nat.log2_lt hn).mpr h
      omega
  rw [roundNat, hlog]
  simp [nearestMultiple, Nat.mod_one]

theorem roundNat_of_lt_double {n : Nat} (hlo : 2 ^ 53 ≤ n) (hhi : n < 2 ^ 54) :
    roundNat n = nearestMultiple 2 n := by
  have hn : n ≠ 0 := by omega
  have hlo' := (Nat.le_log2 hn).mpr hlo
  have hhi' := (Nat.log2_lt hn).mpr hhi
  have hlog : n.log2 - 52 = 1 := by omega
  rw [roundNat, hlog, Nat.pow_one]

theorem le_roundNat {n : Nat} (h : 2 ^ 54 ≤ n) : 2 ^ 54 ≤ roundNat n := by
  have hn : n ≠ 0 := by omega
  have hlog := (Nat.le_log2 hn).mpr h
  obtain ⟨e, he⟩ : ∃ e, n.log2 = 52 + e := ⟨n.log2 - 52, by omega⟩
  have hpow : 2 ^ 52 * 2 ^ e ≤ n := by
    rw [← Nat.pow_add, ← he]
    exact Nat.log2_self_le hn
  have hquot : 2 ^ 52 ≤ n / 2 ^ e := (Nat.le_div_iff_mul_le (Nat.two_pow_pos e)).mpr hpow
  calc 2 ^ 54 ≤ 2 ^ 52 * 2 ^ e := by
        rw [← Nat.pow_add]
        exact Nat.pow_le_pow_right (by omega) (by omega)
    _ ≤ n / 2 ^ e * 2 ^ e := Nat.mul_le_mul_right _ hquot
    _ ≤ nearestMultiple (2 ^ e) n := le_nearestMultiple _ _
    _ = roundNat n := by rw [roundNat, he, Nat.add_sub_cancel_left]

theorem roundNat_eq_iff {i j : Nat} (hi : i ≤ 2 ^ 53) :
    roundNat j = roundNat i ↔ j = i ∨ i = 2 ^ 53 ∧ j = 2 ^ 53 + 1 := by
  have hround : roundNat i = i := by
    rcases Nat.lt_or_eq_of_le hi with hlt | rfl
    · exact roundNat_of_lt hlt
    · rw [roundNat_of_lt_double (Nat.le_refl _) (by omega)]
      rfl
  rw [hround]
  rcases Nat.lt_or_ge j (2 ^ 53) with hj | hj
  · rw [roundNat_of_lt hj]
    omega
  · rcases Nat.lt_or_ge j (2 ^ 54) with hj' | hj'
    · rw [roundNat_of_lt_double hj hj', nearestMultiple]
      split <;> omega
    · have := le_roundNat hj'
      omega

theorem roundInt_eq_iff {i j : Int} (hi : i.natAbs ≤ 2 ^ 53) :
    roundInt j = roundInt i ↔ j = i ∨ RoundedTo j i := by
  have hpos : ∀ n, roundNat (n + 1) ≠ 0 := fun n h => by
    have := (roundNat_eq_iff (Nat.zero_le _)).mp (h.trans (roundNat_of_lt (by omega)).symm)
    omega
  unfold RoundedTo
  cases i with
  | ofNat n =>
    cases j with
    | ofNat m =>
      have hround := roundNat_eq_iff (i := n) (j := m) (by simpa using hi)
      simp only [roundInt, Int.ofNat_eq_natCast]
      omega
    | negSucc m =>
      have hm := hpos m
      simp only [roundInt, Int.ofNat_eq_natCast]
      omega
  | negSucc n =>
    cases j with
    | ofNat m =>
      have hn := hpos n
      simp only [roundInt, Int.ofNat_eq_natCast]
      omega
    | negSucc m =>
      have hround := roundNat_eq_iff (i := n + 1) (j := m + 1) (by simpa using hi)
      simp only [roundInt]
      omega

structure Dbl where
  val : ℚ
  deriving DecidableEq

namespace Dbl

instance : F64 Dbl where
  zero := ⟨0⟩
  add a b := ⟨a.val + b.val⟩
  sub a b := ⟨a.val - b.val⟩
  mul a b := ⟨a.val * b.val⟩
  div a b := ⟨a.val / b.val⟩
  lt a b := decide (a.val < b.val)
  isFinite _ := true
  ofInt n := ⟨roundInt n⟩

instance : F64Math Dbl where
  le a b := decide (a.val ≤ b.val)
  sqrt a := ⟨Rat.sqrt a.val⟩

end Dbl

end Tesseract
