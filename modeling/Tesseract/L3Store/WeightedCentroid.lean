import Tesseract.L3Store.BiasNeutral

/-!
# The two global centroids

The centroid tracker is updated once with a vector. The bucket tracker is updated for
each bucketed field that has a number, and every update adds to the global sum: a
vector weighs as much as its metadata have such fields.

* `CentroidTracker.globalCentroid_means`: the mean of the vectors.
* `NumericalBucketTracker.globalCentroid_means`: the mean of the weighted vectors.
* `meanAt_numbersOf_iff`: when one is the other.
* `balanced_of_even`: the same number of fields in every row will do.
-/
namespace Tesseract.L3

open Serde

/-- The updates of the bucket tracker with one row. -/
def weight {α : Type} [F64 α] (fields : List String) (r : Row α) : Nat :=
  fields.countP fun f => (numberOf r.2 f).isSome

theorem numbersIn_eq {α : Type} [F64 α] (fields : List String) (r : Row α) :
    numbersIn fields r = List.replicate (weight fields r) r.1 := by
  rw [numbersIn, List.map_const', weight, List.countP_eq_length_filter]

variable {K : Type} [Field K] [LinearOrder K]

/-- The weights with the components `d`. -/
def weighted (fields : List String) (rows : List (Row K)) (d : Nat) : List (K × K) :=
  rows.map fun r => ((weight fields r : K), r.1.getD d 0)

/-- The weights do not covary with any component, and vectors without a weight have
the mean of no vectors. -/
structure Balanced (dim : Nat) (fields : List String) (rows : List (Row K)) : Prop where
  uncorrelated : ∀ d < dim, cross (weighted fields rows d) = 0
  centred : (∀ r ∈ rows, weight fields r = 0) → ∀ d < dim, meanAt d (rows.map Prod.fst) = 0

/-! ## The weighted mean -/

variable {config : List (String × List K)} {rows : List (Row K)}

theorem total_numbersOf (d : Nat) (config : List (String × List K)) (rows : List (Row K)) :
    total d (numbersOf config rows) =
      ((weighted (config.map Prod.fst) rows d).map fun p => p.1 * p.2).sum := by
  unfold numbersOf
  induction rows with
  | nil => rfl
  | cons r rows ih =>
    rw [List.flatMap_cons, total_append, ih, numbersIn_eq, total_replicate]
    rfl

theorem length_numbersOf (config : List (String × List K)) (rows : List (Row K)) :
    (numbersOf config rows).length = (rows.map (weight (config.map Prod.fst))).sum := by
  simp only [numbersOf, List.length_flatMap, numbersIn_eq, List.length_replicate]

theorem sum_weights (d : Nat) (config : List (String × List K)) (rows : List (Row K)) :
    ((weighted (config.map Prod.fst) rows d).map Prod.fst).sum =
      ((numbersOf config rows).length : K) := by
  rw [length_numbersOf, Nat.cast_list_sum]
  simp only [weighted, List.map_map, Function.comp_def]

theorem mean_components (d : Nat) (fields : List String) (rows : List (Row K)) :
    mean ((weighted fields rows d).map Prod.snd) = meanAt d (rows.map Prod.fst) := by
  simp only [weighted, meanAt, List.map_map, Function.comp_def]

theorem weights_eq_zero (h : numbersOf config rows = []) :
    ∀ r ∈ rows, weight (config.map Prod.fst) r = 0 := by
  have hlen := length_numbersOf config rows
  rw [h, List.length_nil] at hlen
  intro r hr
  exact List.sum_eq_zero_iff.mp hlen.symm _ (List.mem_map_of_mem hr)

theorem weights_ne_zero (h : numbersOf config rows ≠ []) :
    ¬ ∀ r ∈ rows, weight (config.map Prod.fst) r = 0 := by
  intro hzero
  apply h
  rw [← List.length_eq_zero_iff, length_numbersOf, List.sum_eq_zero_iff]
  intro n hn
  obtain ⟨r, hr, rfl⟩ := List.mem_map.mp hn
  exact hzero r hr

variable [IsStrictOrderedRing K]

theorem cross_weighted_of_even {fields : List String} {k : Nat}
    (h : ∀ r ∈ rows, weight fields r = k) (d : Nat) : cross (weighted fields rows d) = 0 := by
  apply cross_const (x := (k : K))
  intro p hp
  obtain ⟨r, hr, rfl⟩ := List.mem_map.mp hp
  exact congrArg Nat.cast (h r hr)

/-- One component of the two means. -/
theorem meanAt_numbersOf_iff (d : Nat) (hne : numbersOf config rows ≠ []) :
    meanAt d (numbersOf config rows) = meanAt d (rows.map Prod.fst) ↔
      cross (weighted (config.map Prod.fst) rows d) = 0 := by
  have hweights : ((weighted (config.map Prod.fst) rows d).map Prod.fst).sum ≠ 0 := by
    rw [sum_weights, Nat.cast_ne_zero]
    exact List.length_eq_zero_iff.not.mpr hne
  rw [← weighted_mean_iff hweights, sum_weights, mean_components, ← total_numbersOf, meanAt_eq]

theorem balanced_iff (dim : Nat) (config : List (String × List K)) (rows : List (Row K)) :
    (∀ d < dim, meanAt d (numbersOf config rows) = meanAt d (rows.map Prod.fst)) ↔
      Balanced dim (config.map Prod.fst) rows := by
  by_cases hnil : numbersOf config rows = []
  · have hzero := weights_eq_zero hnil
    have hempty : ∀ d, meanAt d ([] : List (List K)) = 0 := by simp [meanAt, mean]
    rw [hnil]
    simp only [hempty]
    exact ⟨fun h => ⟨fun d _ => cross_weighted_of_even hzero d, fun _ d hd => (h d hd).symm⟩,
      fun h d hd => (h.centred hzero d hd).symm⟩
  · simp only [meanAt_numbersOf_iff _ hnil]
    exact ⟨fun h => ⟨h, fun hzero => absurd hzero (weights_ne_zero hnil)⟩,
      fun h => h.uncorrelated⟩

/-- The same number of bucketed fields in every row. -/
theorem balanced_of_even (dim : Nat) {fields : List String} {k : Nat} (hk : k ≠ 0)
    (h : ∀ r ∈ rows, weight fields r = k) : Balanced dim fields rows := by
  refine ⟨fun d _ => cross_weighted_of_even h d, ?_⟩
  intro hzero d _
  cases rows with
  | nil => simp [meanAt, mean]
  | cons r rows => exact absurd ((h r (by simp)).symm.trans (hzero r (by simp))) hk

/-! ## The trackers -/

omit [IsStrictOrderedRing K] in
/-- A running sum over its count, or zeros without a count. -/
theorem centroid_means (dim : Nat) {vs : List (List K)} (h : vs.length < 2 ^ 64) :
    (if UInt64.ofNat vs.length = 0 then zeros K (running dim vs).length
      else divideBy (UInt64.ofNat vs.length) (running dim vs)) =
        (List.range dim).map fun d => meanAt d vs := by
  by_cases hnil : vs = []
  · subst hnil
    rw [List.length_nil, if_pos (by rfl), length_running, NumericalBucketTracker.zeros_eq]
    simp [meanAt, mean]
  · rw [if_neg (length_ne_zero h hnil), divideBy_running dim h]

omit [IsStrictOrderedRing K] in
theorem CentroidTracker.globalCentroid_means {t : CentroidTracker K} {dim : Nat}
    {fields : List String} (h : t.Tracks dim fields rows) (hlen : rows.length < 2 ^ 64) :
    t.globalCentroid = (List.range dim).map fun d => meanAt d (rows.map Prod.fst) := by
  have hlen' : (rows.map Prod.fst).length < 2 ^ 64 := by simpa using hlen
  rw [← centroid_means dim hlen', List.length_map, globalCentroid, h.count, h.sum]

omit [IsStrictOrderedRing K] in
theorem NumericalBucketTracker.globalCentroid_means {t : NumericalBucketTracker K} {dim : Nat}
    {vs : List (List K)} {obs : String → List (K × List K)} (h : t.Tracks dim config vs obs)
    (hlen : vs.length < 2 ^ 64) :
    t.globalCentroid = (List.range dim).map fun d => meanAt d vs := by
  rw [← centroid_means dim hlen, globalCentroid, h.count, h.sum]

/-- The two trackers agree exactly behind balanced rows. -/
theorem NumericalBucketTracker.globalCentroid_iff {t : NumericalBucketTracker K} {dim : Nat}
    {obs : String → List (K × List K)} (h : t.Tracks dim config (numbersOf config rows) obs)
    (hlen : (numbersOf config rows).length < 2 ^ 64) :
    t.globalCentroid = ((List.range dim).map fun d => meanAt d (rows.map Prod.fst)) ↔
      Balanced dim (config.map Prod.fst) rows := by
  rw [globalCentroid_means h hlen, List.map_inj_left, ← balanced_iff]
  simp only [List.mem_range]

end Tesseract.L3
