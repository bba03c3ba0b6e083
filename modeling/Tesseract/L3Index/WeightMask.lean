import Mathlib.Algebra.BigOperators.Group.List.Basic
import Mathlib.Algebra.BigOperators.Group.Finset.Basic
import Mathlib.Algebra.BigOperators.Group.Finset.Piecewise
import Mathlib.Tactic.LinearCombination
import Tesseract.Core.Exact
import Tesseract.L3Index.HnswQuery

/-!
# Two readings of a weight mask

`Projection::project` (`tesseract-core/src/projection.rs`) multiplies a component by every
weight that the mask has for it; `mask_to_dense` (`tesseract-index/src/distance.rs`) keeps
the last one, and `distance_weighted` applies it.

* `project_eq`, `maskToDense_eq`: both as one list of weights, of the products and of the
  last weights.
* `dot_weights`, `squares_weights`: the fused sums are those of the weighted vectors.
* `fused_eq_project_iff`: when the two agree on all vectors.
-/
namespace Tesseract.L3

variable {α β : Type}

/-- mirrors tesseract-core/src/projection.rs:23-34 -/
def project [F64 α] [Widen β α] (v : List α) (mask : List (Nat × β)) : Result (List α) :=
  match mask.find? fun p => v.length ≤ p.1 with
  | some (idx, _) => .error (.indexOutOfBounds idx v.length)
  | none => .ok (mask.foldl
      (fun result (idx, weight) => result.modify idx fun x => F64.mul x (Widen.toF64 weight)) v)

section Sums

variable [F32 β]

/-- The sum in `CosineComputer::distance`. -/
def dot (a b : List β) : β := F32.sum (List.zipWith F32.mul a b)

/-- The sum in `CosineComputer::distance_weighted`. -/
def weightedDot (a b weights : List β) : β :=
  F32.sum (List.zipWith (fun (x, y) w => F32.mul (F32.mul (F32.mul w w) x) y) (a.zip b) weights)

/-- The sum in `EuclideanComputer::distance`. -/
def squaredDistance (a b : List β) : β :=
  F32.sum (List.zipWith (fun x y => F32.mul (F32.sub x y) (F32.sub x y)) a b)

/-- The sum in `EuclideanComputer::distance_weighted`. -/
def weightedSquaredDistance (a b weights : List β) : β :=
  F32.sum (List.zipWith
    (fun (x, y) w => F32.mul (F32.mul w w) (F32.mul (F32.sub x y) (F32.sub x y)))
    (a.zip b) weights)

theorem cosine_sums (a b weights : List β) :
    cosineComputer.distance a b = F32.sub F32.one (dot a b) ∧
    cosineComputer.distanceWeighted a b weights = F32.sub F32.one (weightedDot a b weights) :=
  ⟨rfl, rfl⟩

theorem euclidean_sums (a b weights : List β) :
    euclideanComputer.distance a b = F32.sqrt (squaredDistance a b) ∧
    euclideanComputer.distanceWeighted a b weights =
      F32.sqrt (weightedSquaredDistance a b weights) := ⟨rfl, rfl⟩

end Sums

/-! ## In exact arithmetic -/

variable {K : Type}

/-- The weights of the mask for one component, in order. -/
def weightsAt (i : Nat) (mask : List (Nat × K)) : List K :=
  (mask.filter fun p => p.1 = i).map Prod.snd

theorem weightsAt_concat (i : Nat) (mask : List (Nat × K)) (j : Nat) (w : K) :
    weightsAt i (mask ++ [(j, w)]) =
      if j = i then weightsAt i mask ++ [w] else weightsAt i mask := by
  unfold weightsAt
  split
  · next h => simp [h]
  · next h => simp [h]

variable [Field K]

/-- What `project` multiplies the components by. -/
def products (mask : List (Nat × K)) (dim : Nat) : List K :=
  (List.range dim).map fun i => (weightsAt i mask).prod

/-- The last weight of each component. -/
def lasts (mask : List (Nat × K)) (dim : Nat) : List K :=
  (List.range dim).map fun i => (weightsAt i mask).getLast?.getD 1

section Exact

variable [F32 K] [ExactF32 K]

theorem sum_exact (xs : List K) : F32.sum xs = xs.sum := by
  have key : ∀ (ys : List K) (c : K), ys.foldl F32.add c = c + ys.sum := by
    intro ys
    induction ys with
    | nil => exact fun c => (add_zero c).symm
    | cons y ys ih =>
      intro c
      rw [List.foldl_cons, ih, ExactF32.add, List.sum_cons, add_assoc]
  rw [F32.sum, key, ExactF32.zero, zero_add]

omit [ExactF32 K] in
theorem maskToDense_eq [ExactOne K] (mask : List (Nat × K)) (dim : Nat) :
    maskToDense mask dim = lasts mask dim := by
  induction mask using List.reverseRecOn with
  | nil => simp [maskToDense, lasts, weightsAt, List.map_const']
  | append_singleton mask p ih =>
    obtain ⟨j, w⟩ := p
    have hstep : maskToDense (mask ++ [(j, w)]) dim =
        if j < dim then (maskToDense mask dim).set j w else maskToDense mask dim := by
      simp only [maskToDense, List.foldl_append, List.foldl_cons, List.foldl_nil]
    rw [hstep, ih]
    apply List.ext_getElem?
    intro i
    by_cases hi : i < dim
    · by_cases hj : j = i
      · simp [lasts, weightsAt_concat, hi, hj]
      · split <;> simp [lasts, weightsAt_concat, hi, hj]
    · split <;> simp [lasts, hi]

/-! ## Weighting is projection -/

theorem dot_weights (a b weights : List K) :
    dot (List.zipWith (· * ·) a weights) (List.zipWith (· * ·) b weights) =
      weightedDot a b weights := by
  simp only [dot, weightedDot, sum_exact]
  induction a generalizing b weights with
  | nil => rfl
  | cons x a ih =>
    cases b with
    | nil => cases weights <;> rfl
    | cons y b =>
      cases weights with
      | nil => rfl
      | cons w weights =>
        have hterm : x * w * (y * w) = w * w * x * y := by ring
        simpa [hterm] using ih b weights

theorem squares_weights (a b weights : List K) :
    squaredDistance (List.zipWith (· * ·) a weights) (List.zipWith (· * ·) b weights) =
      weightedSquaredDistance a b weights := by
  simp only [squaredDistance, weightedSquaredDistance, sum_exact]
  induction a generalizing b weights with
  | nil => rfl
  | cons x a ih =>
    cases b with
    | nil => cases weights <;> rfl
    | cons y b =>
      cases weights with
      | nil => rfl
      | cons w weights =>
        have hterm : (x * w - y * w) * (x * w - y * w) = w * w * ((x - y) * (x - y)) := by ring
        simpa [hterm] using ih b weights

/-- The fused sums depend on the squares of the weights only. -/
theorem weighted_congr {ws ws' : List K} (h : ws.map (fun w => w * w) = ws'.map fun w => w * w)
    (a b : List K) : weightedDot a b ws = weightedDot a b ws' ∧
      weightedSquaredDistance a b ws = weightedSquaredDistance a b ws' := by
  have hdot : ∀ vs : List K, weightedDot a b vs =
      (List.zipWith (fun p s => s * p.1 * p.2) (a.zip b) (vs.map fun w => w * w)).sum := by
    intro vs
    rw [List.zipWith_map_right, weightedDot, sum_exact]
    simp only [ExactF32.mul]
  have hsquares : ∀ vs : List K, weightedSquaredDistance a b vs =
      (List.zipWith (fun p s => s * ((p.1 - p.2) * (p.1 - p.2))) (a.zip b)
        (vs.map fun w => w * w)).sum := by
    intro vs
    rw [List.zipWith_map_right, weightedSquaredDistance, sum_exact]
    simp only [ExactF32.mul, ExactF32.sub]
  rw [hdot, hdot, hsquares, hsquares, h]
  exact ⟨rfl, rfl⟩

/-- The vector with a one at `i`. -/
def unit (dim i : Nat) : List K := (List.range dim).map fun j => if j = i then 1 else 0

theorem weightedDot_unit {dim i : Nat} (hi : i < dim) (f : Nat → K) :
    weightedDot (unit dim i) (unit dim i) ((List.range dim).map f) = f i * f i := by
  have hterms : weightedDot (unit dim i) (unit dim i) ((List.range dim).map f) =
      ((List.range dim).map fun j => if j = i then f j * f j else 0).sum := by
    rw [weightedDot, sum_exact, unit, List.zip_map', List.zipWith_map, List.zipWith_self]
    congr 1
    refine List.map_congr_left fun j _ => ?_
    simp only [ExactF32.mul]
    split <;> ring
  have hrange : ((List.range dim).map fun j => if j = i then f j * f j else 0).sum =
      ∑ j ∈ Finset.range dim, if j = i then f j * f j else 0 := rfl
  rw [hterms, hrange, Finset.sum_ite_eq' (Finset.range dim) i, if_pos (Finset.mem_range.mpr hi)]

end Exact

section Project

variable [LinearOrder K]

theorem project_eq {v : List K} {mask : List (Nat × K)} (h : ∀ p ∈ mask, p.1 < v.length) :
    project v mask = .ok (List.zipWith (· * ·) v (products mask v.length)) := by
  have hfind : (mask.find? fun p => v.length ≤ p.1) = none := by
    rw [List.find?_eq_none]
    intro p hp
    have := h p hp
    simp only [decide_eq_true_eq]
    omega
  simp only [project, hfind]
  congr 1
  clear hfind h
  induction mask using List.reverseRecOn with
  | nil =>
    apply List.ext_getElem?
    intro i
    by_cases hi : i < v.length
    · simp [products, weightsAt, hi]
    · simp [products, hi]
  | append_singleton mask p ih =>
    obtain ⟨j, w⟩ := p
    rw [List.foldl_append, List.foldl_cons, List.foldl_nil, ih]
    apply List.ext_getElem?
    intro i
    by_cases hi : i < v.length
    · by_cases hj : j = i
      · simp [products, weightsAt_concat, hi, hj, Widen.toF64, mul_assoc]
      · simp [products, weightsAt_concat, hi, hj]
    · simp [products, hi]

end Project

/-! ## When the two readings agree -/

/-- The last weight of a component is 0, or those before it multiply to 1 or −1. -/
def Consistent (mask : List (Nat × K)) : Prop :=
  ∀ i, ∀ w ∈ (weightsAt i mask).getLast?, w = 0 ∨ (weightsAt i mask).dropLast.prod ^ 2 = 1

theorem square_prod_iff (ws : List K) :
    ws.prod * ws.prod = ws.getLast?.getD 1 * ws.getLast?.getD 1 ↔
      ∀ w ∈ ws.getLast?, w = 0 ∨ ws.dropLast.prod ^ 2 = 1 := by
  cases ws using List.reverseRecOn with
  | nil => simp
  | append_singleton ws w =>
    simp only [List.prod_append, List.prod_singleton, List.getLast?_concat, Option.getD_some,
      List.dropLast_concat, Option.mem_def, Option.some.injEq, forall_eq']
    have hfactor : ws.prod * w * (ws.prod * w) - w * w = w ^ 2 * (ws.prod ^ 2 - 1) := by ring
    rw [← sub_eq_zero, hfactor, mul_eq_zero, pow_eq_zero_iff (by decide), sub_eq_zero]

theorem consistent_iff {mask : List (Nat × K)} {dim : Nat} (h : ∀ p ∈ mask, p.1 < dim) :
    Consistent mask ↔ (lasts mask dim).map (fun w => w * w) =
      (products mask dim).map fun w => w * w := by
  rw [lasts, products, List.map_map, List.map_map, List.map_inj_left]
  constructor
  · intro hc i _
    exact ((square_prod_iff _).mpr (hc i)).symm
  · intro heq i
    rcases Nat.lt_or_ge i dim with hi | hi
    · exact (square_prod_iff _).mp (heq i (List.mem_range.mpr hi)).symm
    · -- the mask has no weight for a component past the last
      have hnone : weightsAt i mask = [] := by
        rw [weightsAt, List.map_eq_nil_iff, List.filter_eq_nil_iff]
        intro p hp
        have := h p hp
        simp only [decide_eq_true_eq]
        omega
      simp [hnone]

/-- On all vectors the fused sums are those of the projected vectors exactly if the last
weight of every component is 0 or the weights before it multiply to 1 or −1. -/
theorem fused_eq_project_iff [LinearOrder K] [F32 K] [ExactF32 K] [ExactOne K]
    (mask : List (Nat × K)) (dim : Nat) (h : ∀ p ∈ mask, p.1 < dim) :
    (∀ a b : List K, a.length = dim → b.length = dim → ∃ a' b',
      project a mask = .ok a' ∧ project b mask = .ok b' ∧
      weightedDot a b (maskToDense mask dim) = dot a' b' ∧
      weightedSquaredDistance a b (maskToDense mask dim) = squaredDistance a' b') ↔
    Consistent mask := by
  rw [consistent_iff h]
  constructor
  · intro hall
    rw [lasts, products, List.map_map, List.map_map, List.map_inj_left]
    intro i hi
    have hlt := List.mem_range.mp hi
    have hlen : (unit dim i : List K).length = dim := by simp [unit]
    obtain ⟨a', b', ha, hb, hdot, _⟩ := hall (unit dim i) (unit dim i) hlen hlen
    rw [project_eq (by rw [hlen]; exact h), hlen, Except.ok.injEq] at ha hb
    rw [← ha, ← hb, dot_weights, maskToDense_eq, lasts, products, weightedDot_unit hlt,
      weightedDot_unit hlt] at hdot
    exact hdot
  · intro hsquares a b ha hb
    obtain ⟨hdot, hdist⟩ := weighted_congr hsquares a b
    refine ⟨_, _, project_eq (by rw [ha]; exact h), project_eq (by rw [hb]; exact h), ?_, ?_⟩
    · rw [ha, hb, dot_weights, maskToDense_eq, hdot]
    · rw [ha, hb, squares_weights, maskToDense_eq, hdist]

/-- Two weights for the first component, of which the earlier one only turns its sign. -/
def turned : List (Nat × ℚ) := [(0, -1), (0, 2), (1, 1 / 2)]

theorem fused_eq_project_turned : ∃ a' b', project [(3 : ℚ), 4] turned = .ok a' ∧
    project [(5 : ℚ), 6] turned = .ok b' ∧
    weightedDot [3, 4] [5, 6] (maskToDense turned 2) = dot a' b' ∧
    weightedSquaredDistance [3, 4] [5, 6] (maskToDense turned 2) = squaredDistance a' b' := by
  have hin : ∀ p ∈ turned, p.1 < 2 := by decide
  refine (fused_eq_project_iff turned 2 hin).mpr ?_ [3, 4] [5, 6] rfl rfl
  rw [consistent_iff hin]
  decide +kernel

/-- A `<` and a `=` predicate on one component: the weight of the `<` is lost. -/
theorem fused_ne_project : ¬ ∀ (mask : List (Nat × ℚ)) (dim : Nat), (∀ p ∈ mask, p.1 < dim) →
    ∀ a b : List ℚ, a.length = dim → b.length = dim → ∃ a' b',
      project a mask = .ok a' ∧ project b mask = .ok b' ∧
      weightedDot a b (maskToDense mask dim) = dot a' b' ∧
      weightedSquaredDistance a b (maskToDense mask dim) = squaredDistance a' b' := by
  intro h
  obtain ⟨a', b', ha, hb, hdot, _⟩ := h [(0, 1 / 2), (0, 1)] 1 (by decide) [1] [1] rfl rfl
  rw [project_eq (by decide), Except.ok.injEq] at ha hb
  rw [← ha, ← hb] at hdot
  exact absurd hdot (by decide +kernel)

end Tesseract.L3
