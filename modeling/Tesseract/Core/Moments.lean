import Mathlib.Algebra.Order.Field.Basic
import Mathlib.Algebra.BigOperators.Group.List.Basic
import Mathlib.Algebra.BigOperators.Fin
import Mathlib.Algebra.BigOperators.Ring.List
import Mathlib.Algebra.Order.BigOperators.Ring.Finset
import Mathlib.Tactic.FieldSimp
import Mathlib.Tactic.Linarith
import Mathlib.Tactic.Ring

/-!
# Means and products of deviations

* `mean_concat`: the mean moves by the last deviation over the count.
* `cross_concat`: the sum of the products of the deviations from two means grows by
  the product of the last deviations from the old means, `n / (n + 1)` times.
* `cross_sq_le`: it is at most the product of the sums of the squares (Cauchy-Schwarz).
* `mean_perm`, `cross_perm`: the order does not matter.
* `weighted_mean_iff`: when a weighted mean is the mean.
-/
namespace Tesseract

variable {K : Type} [Field K]

/-- The sum of the components `d`; a vector too short for one counts as zero. -/
def total (d : Nat) (vs : List (List K)) : K := (vs.map fun v => v.getD d 0).sum

theorem total_append (d : Nat) (vs ws : List (List K)) :
    total d (vs ++ ws) = total d vs + total d ws := by
  simp [total]

theorem total_replicate (d k : Nat) (v : List K) :
    total d (List.replicate k v) = k * v.getD d 0 := by
  simp [total]

def mean (xs : List K) : K := xs.sum / xs.length

/-- The mean of the components `d`. -/
def meanAt (d : Nat) (vs : List (List K)) : K := mean (vs.map fun v => v.getD d 0)

theorem meanAt_eq (d : Nat) (vs : List (List K)) : meanAt d vs = total d vs / vs.length := by
  simp [meanAt, mean, total]

/-- The sum of the products of the deviations from the means. -/
def cross (ps : List (K × K)) : K :=
  (ps.map fun p => (p.1 - mean (ps.map Prod.fst)) * (p.2 - mean (ps.map Prod.snd))).sum

/-- The sum of the squares of the deviations from the mean. -/
def squares (xs : List K) : K := (xs.map fun x => (x - mean xs) ^ 2).sum

theorem squares_eq_cross (xs : List K) : squares xs = cross (xs.map fun x => (x, x)) := by
  simp only [squares, cross, List.map_map, Function.comp_def, List.map_id', pow_two]

/-- The first numbers alone, in the sum of the products. -/
theorem cross_fst (ps : List (K × K)) :
    squares (ps.map Prod.fst) = (ps.map fun p => (p.1 - mean (ps.map Prod.fst)) ^ 2).sum := by
  simp only [squares, List.map_map, Function.comp_def]

theorem cross_snd (ps : List (K × K)) :
    squares (ps.map Prod.snd) = (ps.map fun p => (p.2 - mean (ps.map Prod.snd)) ^ 2).sum := by
  simp only [squares, List.map_map, Function.comp_def]

theorem mean_perm {xs ys : List K} (h : xs.Perm ys) : mean xs = mean ys := by
  rw [mean, mean, h.sum_eq, h.length_eq]

theorem meanAt_perm (d : Nat) {vs ws : List (List K)} (h : vs.Perm ws) :
    meanAt d vs = meanAt d ws := mean_perm (h.map _)

theorem cross_perm {ps qs : List (K × K)} (h : ps.Perm qs) : cross ps = cross qs := by
  rw [cross, cross, mean_perm (h.map Prod.fst), mean_perm (h.map Prod.snd)]
  exact (h.map _).sum_eq

theorem squares_perm {xs ys : List K} (h : xs.Perm ys) : squares xs = squares ys := by
  rw [squares_eq_cross, squares_eq_cross, cross_perm (h.map _)]

theorem mean_single (x : K) : mean [x] = x := by simp [mean]

section CharZero

variable [CharZero K]

theorem mean_concat {xs : List K} (h : xs ≠ []) (x : K) :
    mean (xs ++ [x]) = mean xs + (x - mean xs) / (xs.length + 1 : Nat) := by
  have hn : (xs.length : K) ≠ 0 := by simpa using h
  have hn' : ((xs.length : K) + 1) ≠ 0 := by exact_mod_cast Nat.succ_ne_zero xs.length
  simp only [mean, List.sum_append, List.sum_singleton, List.length_append, List.length_singleton,
    Nat.cast_add, Nat.cast_one]
  field_simp
  ring

omit [CharZero K] in
/-- The sum of the products of the deviations from any two numbers. -/
theorem sum_deviations (ps : List (K × K)) (a b : K) :
    (ps.map fun p => (p.1 - a) * (p.2 - b)).sum =
      (ps.map fun p => p.1 * p.2).sum - a * (ps.map Prod.snd).sum - b * (ps.map Prod.fst).sum +
        ps.length * (a * b) := by
  induction ps with
  | nil => simp
  | cons p ps ih =>
    simp only [List.map_cons, List.sum_cons, List.length_cons, ih]
    push_cast
    ring

theorem cross_concat {ps : List (K × K)} (h : ps ≠ []) (x y : K) :
    cross (ps ++ [(x, y)]) = cross ps +
      (x - mean (ps.map Prod.fst)) * (y - mean (ps.map Prod.snd)) *
        (ps.length / (ps.length + 1 : Nat)) := by
  have hn : (ps.length : K) ≠ 0 := by simpa using h
  have hn' : ((ps.length : K) + 1) ≠ 0 := by exact_mod_cast Nat.succ_ne_zero ps.length
  unfold cross
  rw [sum_deviations, sum_deviations]
  simp only [mean, List.map_append, List.map_singleton, List.sum_append, List.sum_singleton,
    List.length_append, List.length_singleton, List.length_map]
  push_cast
  field_simp
  ring

/-- The sum of the products less what the means account for. -/
theorem cross_eq (ps : List (K × K)) : cross ps =
    (ps.map fun p => p.1 * p.2).sum - (ps.map Prod.fst).sum * mean (ps.map Prod.snd) := by
  cases ps with
  | nil => simp [cross]
  | cons p ps =>
    have hn : (((p :: ps).length : Nat) : K) ≠ 0 := Nat.cast_ne_zero.mpr (by simp)
    unfold cross
    rw [sum_deviations]
    simp only [mean, List.length_map]
    field_simp
    ring

/-- Weights that do not covary with the numbers leave the mean as it is, and no others. -/
theorem weighted_mean_iff {ps : List (K × K)} (hw : (ps.map Prod.fst).sum ≠ 0) :
    (ps.map fun p => p.1 * p.2).sum / (ps.map Prod.fst).sum = mean (ps.map Prod.snd) ↔
      cross ps = 0 := by
  rw [div_eq_iff hw, cross_eq, sub_eq_zero, mul_comm (mean _)]

theorem squares_concat {xs : List K} (h : xs ≠ []) (x : K) :
    squares (xs ++ [x]) = squares xs +
      (x - mean xs) * (x - mean xs) * (xs.length / (xs.length + 1 : Nat)) := by
  have hpairs : xs.map (fun y => (y, y)) ≠ [] := by simpa using h
  have hstep := cross_concat hpairs x x
  simp only [List.map_map, Function.comp_def, List.map_id', List.length_map] at hstep
  rw [squares_eq_cross, squares_eq_cross, List.map_append, List.map_singleton, hstep]

end CharZero

theorem cross_single (p : K × K) : cross [p] = 0 := by simp [cross, mean]

theorem mean_replicate [CharZero K] {n : Nat} (hn : n ≠ 0) (x : K) :
    mean (List.replicate n x) = x := by
  have hn' : (n : K) ≠ 0 := Nat.cast_ne_zero.mpr hn
  rw [mean, List.sum_replicate, List.length_replicate, nsmul_eq_mul, mul_div_cancel_left₀ x hn']

/-- A number that is the same in all pairs does not deviate. -/
theorem cross_const [CharZero K] {ps : List (K × K)} {x : K} (h : ∀ p ∈ ps, p.1 = x) :
    cross ps = 0 := by
  have hconst : ps.map Prod.fst = List.replicate ps.length x := by
    rw [List.eq_replicate_iff]
    simpa using h
  refine List.sum_eq_zero ?_
  intro y hy
  obtain ⟨p, hp, rfl⟩ := List.mem_map.mp hy
  have hlen : ps.length ≠ 0 := List.length_pos_of_mem hp |>.ne'
  rw [hconst, mean_replicate hlen, h p hp, sub_self, zero_mul]

theorem squares_single (x : K) : squares [x] = 0 := by simp [squares, mean]

section Order

variable [LinearOrder K] [IsStrictOrderedRing K]

theorem cross_sq_le (ps : List (K × K)) :
    cross ps ^ 2 ≤ squares (ps.map Prod.fst) * squares (ps.map Prod.snd) := by
  rw [cross_fst, cross_snd, cross]
  simp only [← Fin.sum_univ_fun_getElem]
  exact Finset.sum_mul_sq_le_sq_mul_sq _ _ _

end Order

end Tesseract
