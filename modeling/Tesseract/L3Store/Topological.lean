import Mathlib.Data.List.AList
import Tesseract.Core.Error
import Tesseract.L3Store.Json

/-!
# The topological trackers

Model of the updates of `tesseract-core/src/topological.rs`: running sums for
categorical fields, Welford statistics for numerical fields and sums in buckets.
A function that can panic on an index out of range returns an `Option`.
-/
namespace Tesseract.L3

open Serde

variable {α : Type} [F64 α]

/-- `Value::get` -/
def Json.get (j : Value α) (name : String) : Option (Value α) :=
  match j with
  | .obj fields => (fields.find? fun f => f.1 = name).map Prod.snd
  | _ => none

/-- `vec![0.0; dim]` -/
def zeros (α : Type) [F64 α] (dim : Nat) : List α := List.replicate dim F64.zero

/-- `sum[i] += v` for every component `v` of the vector that `sum` has a place
for. -/
def addInto : List α → List α → List α
  | s :: sum, v :: vector => F64.add s v :: addInto sum vector
  | sum, _ => sum

/-! ## Centroids of categories -/

/-- mirrors tesseract-core/src/topological.rs:82-90 -/
structure CentroidTracker (α : Type) where
  globalSum : List α
  globalCount : UInt64
  categories : AList fun _ : String => AList fun _ : String => List α × UInt64

namespace CentroidTracker

/-- mirrors tesseract-core/src/topological.rs:94-100 -/
def new (dim : Nat) : CentroidTracker α := ⟨zeros α dim, 0, ∅⟩

/-- One tracked field.
mirrors tesseract-core/src/topological.rs:119-134 -/
def updateField (vector : List α) (metadata : Value α) (t : CentroidTracker α) (field : String) :
    CentroidTracker α :=
  match Json.get metadata field with
  | some (.str cat) =>
    let values := (t.categories.lookup field).getD ∅
    let entry := (values.lookup cat).getD (zeros α t.globalSum.length, 0)
    { t with
      categories :=
        t.categories.insert field (values.insert cat (addInto entry.1 vector, entry.2 + 1)) }
  | _ => t

/-- mirrors tesseract-core/src/topological.rs:109-135 -/
def update (t : CentroidTracker α) (vector : List α) (metadata : Value α)
    (trackedFields : List String) :
    CentroidTracker α :=
  trackedFields.foldl (updateField vector metadata)
    { t with globalSum := addInto t.globalSum vector, globalCount := t.globalCount + 1 }

end CentroidTracker

/-! ## Correlations -/

/-- mirrors tesseract-core/src/topological.rs:187-200 -/
structure NumericalStats (α : Type) where
  count : UInt64
  fieldMean : α
  fieldM2 : α
  dimMeans : List α
  dimM2 : List α
  dimCross : List α

namespace NumericalStats

/-- mirrors tesseract-core/src/topological.rs:204-213 -/
def new (dim : Nat) : NumericalStats α :=
  ⟨0, F64.zero, F64.zero, zeros α dim, zeros α dim, zeros α dim⟩

/-- The loop over the dimensions, with `dim_means`, `dim_m2` and `dim_cross`.
mirrors tesseract-core/src/topological.rs:238-249 -/
def updateDims (deltaF ratio nNew : α) :
    List α → List α → List α → List α → Option (List α × List α × List α)
  | dimVal :: vector, dimMean :: dimMeans, m2 :: dimM2, cross :: dimCross => do
    let deltaD := F64.sub dimVal dimMean
    let (dimMeans, dimM2, dimCross) ← updateDims deltaF ratio nNew vector dimMeans dimM2 dimCross
    some (F64.add dimMean (F64.div deltaD nNew) :: dimMeans,
      F64.add m2 (F64.mul (F64.mul deltaD deltaD) ratio) :: dimM2,
      F64.add cross (F64.mul (F64.mul deltaF deltaD) ratio) :: dimCross)
  | _ :: _, _ :: _, _, _ => none
  | _, dimMeans, dimM2, dimCross => some (dimMeans, dimM2, dimCross)

/-- mirrors tesseract-core/src/topological.rs:220-254 -/
def update (s : NumericalStats α) (fieldValue : α) (vector : List α) : Option (NumericalStats α) :=
  if s.count = 0 then some { s with count := 1, fieldMean := fieldValue, dimMeans := vector }
  else do
    let nNew : α := F64.ofInt (s.count + 1).toNat
    let ratio := F64.div (F64.ofInt s.count.toNat) nNew
    let deltaF := F64.sub fieldValue s.fieldMean
    let (dimMeans, dimM2, dimCross) ← updateDims deltaF ratio nNew vector s.dimMeans
      s.dimM2 s.dimCross
    some ⟨s.count + 1, F64.add s.fieldMean (F64.div deltaF nNew),
      F64.add s.fieldM2 (F64.mul (F64.mul deltaF deltaF) ratio), dimMeans, dimM2, dimCross⟩

end NumericalStats

/-- mirrors tesseract-core/src/topological.rs:261-266 -/
structure CorrelationTracker (α : Type) where
  dim : Nat
  fields : AList fun _ : String => NumericalStats α

namespace CorrelationTracker

/-- mirrors tesseract-core/src/topological.rs:270-275 -/
def new (dim : Nat) : CorrelationTracker α := ⟨dim, ∅⟩

/-- mirrors tesseract-core/src/topological.rs:279-285 -/
def update (t : CorrelationTracker α) (field : String) (fieldValue : α) (vector : List α) :
    Option (CorrelationTracker α) := do
  let stats ← ((t.fields.lookup field).getD (NumericalStats.new t.dim)).update fieldValue vector
  some { t with fields := t.fields.insert field stats }

/-- The loop of `StorageEngine::insert` over the numerical fields; `as_f64`
takes every number.
mirrors tesseract-storage/src/engine.rs:257-263 -/
def updateAll (vector : List α) (metadata : Value α) :
    List String → CorrelationTracker α → Option (CorrelationTracker α)
  | [], t => some t
  | field :: rest, t =>
    match Json.get metadata field >>= decodeF64 with
    | some num => t.update field num vector >>= updateAll vector metadata rest
    | none => updateAll vector metadata rest t

end CorrelationTracker

/-! ## Buckets -/

/-- mirrors tesseract-core/src/topological.rs:339-351 -/
structure NumericalBuckets (α : Type) where
  boundaries : List α
  sums : List (List α)
  counts : List UInt64

/-- mirrors tesseract-core/src/topological.rs:361-369 -/
structure NumericalBucketTracker (α : Type) where
  dim : Nat
  globalSum : List α
  globalCount : UInt64
  fields : AList fun _ : String => NumericalBuckets α

namespace NumericalBucketTracker

/-- mirrors tesseract-core/src/topological.rs:373-375 -/
def new (dim : Nat) : NumericalBucketTracker α := ⟨dim, zeros α dim, 0, ∅⟩

/-- mirrors tesseract-core/src/topological.rs:387-401 -/
def registerField (t : NumericalBucketTracker α) (field : String) (boundaries : List α) :
    Result (NumericalBucketTracker α) :=
  if boundaries.isEmpty then .error (.invalidConfig "bucket boundaries must not be empty")
  else
    let n := boundaries.length
    let buckets : NumericalBuckets α :=
      ⟨boundaries, List.replicate n (zeros α t.dim), List.replicate n 0⟩
    .ok { t with fields := t.fields.insert field buckets }

/-- `boundaries[0]` panics on no boundaries.
mirrors tesseract-core/src/topological.rs:404-415 -/
def bucketIndex (boundaries : List α) (value : α) : Option Nat :=
  match boundaries with
  | [] => none
  | first :: rest =>
    if F64.lt value first then some 0
    else some ((rest.findIdx? fun b => F64.lt value b).getD rest.length)

/-- mirrors tesseract-core/src/topological.rs:423-447 -/
def update (t : NumericalBucketTracker α) (field : String) (value : α) (vector : List α) :
    Option (NumericalBucketTracker α) :=
  let t := { t with globalSum := addInto t.globalSum vector, globalCount := t.globalCount + 1 }
  match t.fields.lookup field with
  | none => some t
  | some buckets => do
    let idx ← bucketIndex buckets.boundaries value
    if idx < buckets.sums.length then
      guard (idx < buckets.counts.length)
      let sums := buckets.sums.modify idx fun sum => addInto sum vector
      let counts := buckets.counts.modify idx (· + 1)
      some { t with
        fields := t.fields.insert field { buckets with sums := sums, counts := counts } }
    else some t

/-- The loop of `StorageEngine::insert` over the bucketed fields.
mirrors tesseract-storage/src/engine.rs:268-274 -/
def updateAll (vector : List α) (metadata : Value α) :
    List String → NumericalBucketTracker α → Option (NumericalBucketTracker α)
  | [], t => some t
  | field :: rest, t =>
    match Json.get metadata field >>= decodeF64 with
    | some num => t.update field num vector >>= updateAll vector metadata rest
    | none => updateAll vector metadata rest t

/-- The loop of `StorageEngine::open` over the configured fields.
mirrors tesseract-storage/src/engine.rs:157-159 -/
def registerAll :
    List (String × List α) → NumericalBucketTracker α → Result (NumericalBucketTracker α)
  | [], t => .ok t
  | (field, boundaries) :: rest, t => do
    let t ← t.registerField field boundaries
    registerAll rest t

end NumericalBucketTracker

end Tesseract.L3
