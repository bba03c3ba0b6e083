import Tesseract.L3Store.Topological

/-!
# The topological bias

Model of the queries of `tesseract-core/src/topological.rs`: what a tracker shifts
a query vector by, and the shifts of a list of filters one after the other.

* `applyTopologicalBias_of_still`: filters that shift nothing leave the query as it is.
-/
namespace Tesseract.L3

open Serde

variable {α : Type} [F64 α]

/-! ## Filters -/

/-- mirrors tesseract-core/src/topological.rs:44-57 -/
inductive RangeOp (α : Type) where
  | eq
  | gte
  | gt
  | lte
  | lt
  | range (low high : α)

/-- mirrors tesseract-core/src/topological.rs:61-70 -/
inductive BiasKind (α : Type) where
  | category (value : String)
  | numerical (value : α) (op : RangeOp α)

/-- mirrors tesseract-core/src/topological.rs:35-40 -/
structure BiasFilter (α : Type) where
  field : String
  kind : BiasKind α

/-- `x / n as f64` for every component. -/
def divideBy (n : UInt64) (sum : List α) : List α :=
  sum.map fun s => F64.div s (F64.ofInt n.toNat)

/-! ## Centroids of categories -/

namespace CentroidTracker

/-- mirrors tesseract-core/src/topological.rs:164-170 -/
def globalCentroid (t : CentroidTracker α) : List α :=
  if t.globalCount = 0 then zeros α t.globalSum.length else divideBy t.globalCount t.globalSum

/-- The running stats of a category. -/
def entry (t : CentroidTracker α) (field value : String) : Option (List α × UInt64) :=
  (t.categories.lookup field).bind fun values => values.lookup value

/-- mirrors tesseract-core/src/topological.rs:141-159 -/
def delta (t : CentroidTracker α) (field value : String) : Option (List α) :=
  if t.globalCount = 0 then none
  else
    match t.entry field value with
    | none => none
    | some (catSum, catCount) =>
      if catCount = 0 then none
      else some (List.zipWith (fun g c => F64.sub c g) t.globalCentroid (divideBy catCount catSum))

end CentroidTracker

/-! ## Correlations -/

section Correlations

variable [F64Math α]

/-- The coefficient of dimension `d`.
mirrors tesseract-core/src/topological.rs:307-320 -/
def NumericalStats.pearson (s : NumericalStats α) (fieldStd : α) (d : Nat) : α :=
  match s.dimM2[d]?, s.dimCross[d]? with
  | some m2, some cross =>
    let n : α := F64.ofInt s.count.toNat
    let dimVar := F64.div m2 n
    if F64Math.le dimVar F64.zero then F64.zero
    else
      let dimStd := F64Math.sqrt dimVar
      F64.clamp (F64.ofInt (-1)) (F64.ofInt 1)
        (F64.div cross (F64.mul (F64.mul n fieldStd) dimStd))
  | _, _ => F64.zero

namespace CorrelationTracker

/-- mirrors tesseract-core/src/topological.rs:294-322 -/
def correlations (t : CorrelationTracker α) (field : String) : Option (List α) :=
  match t.fields.lookup field with
  | none => none
  | some stats =>
    if stats.count < 2 then some (zeros α t.dim)
    else
      let fieldVar := F64.div stats.fieldM2 (F64.ofInt stats.count.toNat)
      if F64Math.le fieldVar F64.zero then some (zeros α t.dim)
      else some ((List.range t.dim).map (stats.pearson (F64Math.sqrt fieldVar)))

omit [F64Math α] in
/-- mirrors tesseract-core/src/topological.rs:325-331 -/
def fieldMean (t : CorrelationTracker α) (field : String) : Option α :=
  match t.fields.lookup field with
  | none => none
  | some stats => if stats.count = 0 then none else some stats.fieldMean

end CorrelationTracker

end Correlations

/-! ## Buckets -/

namespace NumericalBucketTracker

/-- mirrors tesseract-core/src/topological.rs:450-456 -/
def globalCentroid (t : NumericalBucketTracker α) : List α :=
  if t.globalCount = 0 then zeros α t.globalSum.length else divideBy t.globalCount t.globalSum

/-- The buckets a filter asks for.
mirrors tesseract-core/src/topological.rs:479-488 -/
def candidateIndices (buckets : NumericalBuckets α) (valueIdx : Nat) :
    RangeOp α → Option (List Nat)
  | .eq => some [valueIdx]
  | .gte | .gt => some (List.range' valueIdx (buckets.counts.length - valueIdx))
  | .lte | .lt => some (List.range (valueIdx + 1))
  | .range low high => do
    let lowIdx ← bucketIndex buckets.boundaries low
    let highIdx ← bucketIndex buckets.boundaries high
    some (List.range' lowIdx (min highIdx (buckets.counts.length - 1) + 1 - lowIdx))

/-- Add what the centroid of one bucket differs from the global one. `global` has
all the `dim` components.
mirrors tesseract-core/src/topological.rs:499-504 -/
def addShift (count : UInt64) : List α → List α → List α → List α
  | sumDelta :: rest, s :: sums, g :: global =>
    F64.add sumDelta (F64.sub (F64.div s (F64.ofInt count.toNat)) g) ::
      addShift count rest sums global
  | sumDelta, _, _ => sumDelta

/-- The loop over the candidates, with `sum_delta` and `valid_count`.
mirrors tesseract-core/src/topological.rs:494-507 -/
def sumShifts (buckets : NumericalBuckets α) (global : List α) :
    List Nat → List α × Nat → List α × Nat
  | [], acc => acc
  | idx :: rest, (sumDelta, validCount) =>
    match buckets.counts[idx]?, buckets.sums[idx]? with
    | some count, some sum =>
      if 0 < count then
        sumShifts buckets global rest (addShift count sumDelta sum global, validCount + 1)
      else sumShifts buckets global rest (sumDelta, validCount)
    | _, _ => sumShifts buckets global rest (sumDelta, validCount)

/-- No boundaries and no data are both `None`.
mirrors tesseract-core/src/topological.rs:469-518 -/
def delta (t : NumericalBucketTracker α) (field : String) (value : α) (op : RangeOp α) :
    Option (List α) := do
  let buckets ← t.fields.lookup field
  let valueIdx ← bucketIndex buckets.boundaries value
  if t.globalCount = 0 then none
  else do
    let candidates ← candidateIndices buckets valueIdx op
    let (sumDelta, validCount) := sumShifts buckets t.globalCentroid candidates (zeros α t.dim, 0)
    if validCount = 0 then none
    else if validCount = 1 then some sumDelta
    else some (sumDelta.map fun s => F64.div s (F64.ofInt validCount))

end NumericalBucketTracker

/-! ## The shifted query -/

section Apply

variable [F64Math α]

/-- One filter.
mirrors tesseract-core/src/topological.rs:551-586 -/
def biasBy (centroids : CentroidTracker α) (correlations : CorrelationTracker α)
    (buckets : NumericalBucketTracker α) (alpha : α) (biased : List α) (filter : BiasFilter α) :
    List α :=
  match filter.kind with
  | .category value =>
    match centroids.delta filter.field value with
    | some delta => addInto biased (delta.map fun d => F64.mul alpha d)
    | none => biased
  | .numerical value op =>
    match buckets.delta filter.field value op with
    | some delta => addInto biased (delta.map fun d => F64.mul alpha d)
    | none =>
      match correlations.correlations filter.field, correlations.fieldMean filter.field with
      | some corrs, some mean =>
        addInto biased (corrs.map fun c => F64.mul (F64.mul alpha c) (F64.sub value mean))
      | _, _ => biased

/-- mirrors tesseract-core/src/topological.rs:541-589 -/
def applyTopologicalBias (query : List α) (filters : List (BiasFilter α))
    (centroids : CentroidTracker α) (correlations : CorrelationTracker α)
    (buckets : NumericalBucketTracker α) (alpha : α) :
    List α :=
  filters.foldl (biasBy centroids correlations buckets alpha) query

/-- Filters that shift nothing leave the query as it is. -/
theorem applyTopologicalBias_of_still {centroids : CentroidTracker α}
    {correlations : CorrelationTracker α} {buckets : NumericalBucketTracker α} {alpha : α}
    (h : ∀ biased filter, biasBy centroids correlations buckets alpha biased filter = biased)
    (query : List α) (filters : List (BiasFilter α)) :
    applyTopologicalBias query filters centroids correlations buckets alpha = query := by
  unfold applyTopologicalBias
  induction filters with
  | nil => rfl
  | cons filter filters ih => rw [List.foldl_cons, h, ih]

end Apply

end Tesseract.L3
