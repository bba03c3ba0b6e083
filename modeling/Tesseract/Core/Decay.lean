import Mathlib.Algebra.Order.Field.Basic
import Mathlib.Algebra.BigOperators.Group.List.Basic
import Mathlib.Algebra.BigOperators.Ring.List
import Mathlib.Data.List.GetD
import Mathlib.Data.List.Induction
import Mathlib.Tactic.Linarith
import Mathlib.Tactic.Ring

/-!
# Decaying averages

A value that moves towards each new one by the same part of the way.

* `decayed_eq`: it is a weighted sum, in which a value counts `a` times less with each that
  follows it.
* `decayed_sub`: what it began with is forgotten at the same pace.
* `decayed_mem`: it never leaves an interval that has all the values.
-/
namespace Tesseract

variable {K : Type} [Field K]

/-- `x`, moved towards each of `bs` in order. -/
def decayed (a x : K) (bs : List K) : K := bs.foldl (fun x b => a * x + (1 - a) * b) x

@[simp] theorem decayed_nil (a x : K) : decayed a x [] = x := rfl

@[simp] theorem decayed_cons (a x b : K) (bs : List K) :
    decayed a x (b :: bs) = decayed a (a * x + (1 - a) * b) bs := rfl

theorem decayed_concat (a x b : K) (bs : List K) :
    decayed a x (bs ++ [b]) = a * decayed a x bs + (1 - a) * b := by
  simp [decayed]

/-- The weight of a value goes with the number of those that follow. -/
def decayingSum (a : K) (bs : List K) : K :=
  ((List.range bs.length).map fun j => a ^ (bs.length - 1 - j) * bs.getD j 0).sum

theorem decayingSum_concat (a b : K) (bs : List K) :
    decayingSum a (bs ++ [b]) = a * decayingSum a bs + b := by
  have hinit : (List.range bs.length).map (fun j =>
        a ^ (bs.length + 1 - 1 - j) * (bs ++ [b]).getD j 0) =
      (List.range bs.length).map fun j => a * (a ^ (bs.length - 1 - j) * bs.getD j 0) := by
    refine List.map_congr_left fun j hj => ?_
    have hlt : j < bs.length := List.mem_range.mp hj
    have hget : (bs ++ [b]).getD j 0 = bs.getD j 0 := List.getD_append _ _ _ _ hlt
    rw [hget, show bs.length + 1 - 1 - j = bs.length - 1 - j + 1 by omega, pow_succ]
    ring
  rw [decayingSum, List.length_append, List.length_singleton, List.range_succ, List.map_append,
    List.sum_append, hinit, List.sum_map_mul_left]
  simp [decayingSum]

theorem decayed_eq (a x : K) (bs : List K) :
    decayed a x bs = a ^ bs.length * x + (1 - a) * decayingSum a bs := by
  induction bs using List.reverseRecOn with
  | nil => simp [decayingSum]
  | append_singleton bs b ih =>
    rw [decayed_concat, decayingSum_concat, ih, List.length_append, List.length_singleton,
      pow_succ]
    ring

theorem decayed_sub (a x y : K) (bs : List K) :
    decayed a x bs - decayed a y bs = a ^ bs.length * (x - y) := by
  rw [decayed_eq, decayed_eq]
  ring

theorem decayed_mem [LinearOrder K] [IsStrictOrderedRing K] {a lo hi : K} (ha : 0 ≤ a)
    (ha' : a ≤ 1) {bs : List K} (hbs : ∀ b ∈ bs, lo ≤ b ∧ b ≤ hi) {x : K}
    (hx : lo ≤ x ∧ x ≤ hi) : lo ≤ decayed a x bs ∧ decayed a x bs ≤ hi := by
  induction bs generalizing x with
  | nil => exact hx
  | cons b bs ih =>
    obtain ⟨hlo, hhi⟩ := hbs b List.mem_cons_self
    have ha'' : 0 ≤ 1 - a := by linarith
    refine ih (fun b hb => hbs b (List.mem_cons_of_mem _ hb)) ⟨?_, ?_⟩
    · have h₁ := mul_le_mul_of_nonneg_left hx.1 ha
      have h₂ := mul_le_mul_of_nonneg_left hlo ha''
      linarith
    · have h₁ := mul_le_mul_of_nonneg_left hx.2 ha
      have h₂ := mul_le_mul_of_nonneg_left hhi ha''
      linarith

end Tesseract
