import Tesseract.Core.Assoc
import Tesseract.L3Store.BiasExact

/-!
# The skeleton of the cold partitions

Model of the centroids of `tesseract-storage/src/skeleton.rs`: the mean of a partition is
computed from all its vectors, or moved by a batch of new ones.

* `addPartition_error`, `updateCentroid_error`: a call that fails leaves the skeleton as it
  was; `addPartition_ok_iff`, `updateCentroid_ok_iff`: which calls do not.
* `updateCentroid_means`: in exact arithmetic a batch moves the mean of the vectors so far
  to that of all of them.
* `updates_eq_addPartition`: batch after batch is the same as all at once.
-/
namespace Tesseract.L3

open Assoc

variable {α β : Type} [F64 α] [Narrow α β] [Widen β α]

/-- A `PartitionId` is its number. `record_count` is a natural: the `usize` counts
vectors that callers handed over one by one, and could wrap only behind `2 ^ 64` of them.
mirrors tesseract-storage/src/skeleton.rs:15-20 -/
structure Centroid (β : Type) where
  partitionId : UInt64
  mean : List β
  recordCount : Nat
  deriving DecidableEq, Repr

/-- mirrors tesseract-storage/src/skeleton.rs:50-53 -/
structure VectorSkeleton (β : Type) where
  centroids : Map UInt64 (Centroid β)

namespace VectorSkeleton

/-- mirrors tesseract-storage/src/skeleton.rs:57-59 -/
def new : VectorSkeleton β := ⟨∅⟩

/-- The loop over the vectors, which stops at one of another length.
mirrors tesseract-storage/src/skeleton.rs:78-85 -/
def sumVectors (dim : Nat) : List (List α) → List α → Result (List α)
  | [], sum => .ok sum
  | v :: vs, sum =>
    if v.length ≠ dim then .error (.dimensionMismatch dim v.length)
    else sumVectors dim vs (addInto sum v)

/-- mirrors tesseract-storage/src/skeleton.rs:70-95 -/
def addPartition (s : VectorSkeleton β) (partitionId : UInt64) (vectors : List (List α)) :
    VectorSkeleton β × Result Unit :=
  match vectors with
  | [] => (s, .error (.notFound "cannot compute centroid from empty vector set"))
  | v :: _ =>
    let dim := v.length
    match sumVectors dim vectors (zeros α dim) with
    | .error e => (s, .error e)
    | .ok sum =>
      let count : α := F64.ofInt vectors.length
      let mean := sum.map fun x => Narrow.toF32 (F64.div x count)
      (⟨s.centroids.insert partitionId ⟨partitionId, mean, vectors.length⟩⟩, .ok ())

/-- mirrors tesseract-storage/src/skeleton.rs:150-192 -/
def updateCentroid (s : VectorSkeleton β) (partitionId : UInt64) (newVectors : List (List α)) :
    VectorSkeleton β × Result Unit :=
  if newVectors.isEmpty then (s, .ok ())
  else match s.centroids.lookup partitionId with
    | none =>
      (s, .error (.notFound ("partition " ++ toString partitionId ++ " not found in skeleton")))
    | some centroid =>
      let dim := centroid.mean.length
      let oldCount : α := F64.ofInt centroid.recordCount
      match newVectors.find? fun v => v.length ≠ dim with
      | some v => (s, .error (.dimensionMismatch dim v.length))
      | none =>
        let newSum := newVectors.foldl addInto (zeros α dim)
        let newCount := centroid.recordCount + newVectors.length
        let newMean := List.zipWith (fun m x => Narrow.toF32
          (F64.div (F64.add (F64.mul (Widen.toF64 m) oldCount) x) (F64.ofInt newCount)))
          centroid.mean newSum
        (⟨s.centroids.insert partitionId
          { centroid with mean := newMean, recordCount := newCount }⟩, .ok ())

/-- One batch after the other, up to one that fails. -/
def updates (partitionId : UInt64) : VectorSkeleton β → List (List (List α)) →
    Result (VectorSkeleton β)
  | s, [] => .ok s
  | s, batch :: batches =>
    match s.updateCentroid partitionId batch with
    | (s, .ok ()) => updates partitionId s batches
    | (_, .error e) => .error e

/-! ## Calls that fail -/

omit [Widen β α] in
theorem addPartition_error {s : VectorSkeleton β} {id : UInt64} {vs : List (List α)} {e : Error}
    (h : (s.addPartition id vs).2 = .error e) : (s.addPartition id vs).1 = s := by
  cases vs with
  | nil => rfl
  | cons v vs =>
    simp only [addPartition] at h ⊢
    cases hsum : sumVectors v.length (v :: vs) (zeros α v.length) with
    | error e' => rfl
    | ok sum =>
      rw [hsum] at h
      cases h

theorem updateCentroid_error {s : VectorSkeleton β} {id : UInt64} {vs : List (List α)}
    {e : Error} (h : (s.updateCentroid id vs).2 = .error e) :
    (s.updateCentroid id vs).1 = s := by
  unfold updateCentroid at h ⊢
  split at h
  · cases h
  · next hne =>
    rw [if_neg hne]
    cases hc : s.centroids.lookup id with
    | none => rfl
    | some centroid =>
      rw [hc] at h
      simp only at h ⊢
      cases hv : vs.find? fun v => v.length ≠ centroid.mean.length with
      | some v => rfl
      | none =>
        rw [hv] at h
        cases h

theorem sumVectors_ok_iff (dim : Nat) (vs : List (List α)) : ∀ sum : List α,
    (∃ out, sumVectors dim vs sum = .ok out) ↔ ∀ v ∈ vs, v.length = dim := by
  induction vs with
  | nil => simp [sumVectors]
  | cons v vs ih =>
    intro sum
    rw [sumVectors]
    split
    · next h => simp [h]
    · next h =>
      rw [ih, List.forall_mem_cons]
      exact (and_iff_right (Decidable.not_not.mp h)).symm

theorem sumVectors_eq {dim : Nat} {vs : List (List α)} (h : ∀ v ∈ vs, v.length = dim)
    (sum : List α) : sumVectors dim vs sum = .ok (vs.foldl addInto sum) := by
  induction vs generalizing sum with
  | nil => rfl
  | cons v vs ih =>
    rw [sumVectors, if_neg (not_not.mpr (h v (by simp))), ih fun w hw => h w (by simp [hw])]
    rfl

omit [Widen β α] in
/-- A partition is added from vectors of one length, and at least one. -/
theorem addPartition_ok_iff {s : VectorSkeleton β} {id : UInt64} {vs : List (List α)} :
    (s.addPartition id vs).2 = .ok () ↔ ∃ v ∈ vs.head?, ∀ w ∈ vs, w.length = v.length := by
  cases vs with
  | nil => simp [addPartition]
  | cons v vs =>
    rw [List.head?_cons]
    simp only [Option.mem_def, Option.some.injEq, exists_eq_left']
    rw [← sumVectors_ok_iff v.length (v :: vs) (zeros α v.length), addPartition]
    cases sumVectors v.length (v :: vs) (zeros α v.length) with
    | error e => simp
    | ok sum => simp

/-- A batch of no vectors is no call; any other is for a known partition, with vectors of
its length. -/
theorem updateCentroid_ok_iff {s : VectorSkeleton β} {id : UInt64} {vs : List (List α)} :
    (s.updateCentroid id vs).2 = .ok () ↔ vs = [] ∨
      ∃ c ∈ s.centroids.lookup id, ∀ v ∈ vs, v.length = c.mean.length := by
  unfold updateCentroid
  cases vs with
  | nil => simp
  | cons v vs =>
    simp only [List.isEmpty_cons, Bool.false_eq_true, if_false, reduceCtorEq, false_or]
    cases s.centroids.lookup id with
    | none => simp
    | some c =>
      simp only [Option.mem_def, Option.some.injEq, exists_eq_left']
      cases hv : (v :: vs).find? fun v => v.length ≠ c.mean.length with
      | some w =>
        have hw := List.find?_some hv
        have hmem := List.mem_of_find?_eq_some hv
        simp only [reduceCtorEq, false_iff]
        intro hall
        simp [hall w hmem] at hw
      | none =>
        rw [List.find?_eq_none] at hv
        simpa using hv

/-! ## Means of means -/

section Exact

variable {K : Type} [Field K] [LinearOrder K]

/-- The centroid of the vectors. -/
def centroidOf (id : UInt64) (dim : Nat) (vs : List (List K)) : Centroid K :=
  ⟨id, (List.range dim).map fun d => meanAt d vs, vs.length⟩

theorem addPartition_means (s : VectorSkeleton K) (id : UInt64) {dim : Nat} {vs : List (List K)}
    (hne : vs ≠ []) (hdim : ∀ v ∈ vs, v.length = dim) :
    s.addPartition id vs = (⟨s.centroids.insert id (centroidOf id dim vs)⟩, .ok ()) := by
  cases vs with
  | nil => exact absurd rfl hne
  | cons v vs =>
    have hv : v.length = dim := hdim v (by simp)
    have hsum := sumVectors_eq hdim (zeros K dim)
    have hmean : ((v :: vs).foldl addInto (zeros K dim)).map (fun x =>
        (Narrow.toF32 (F64.div x (F64.ofInt (v :: vs).length)) : K)) =
        (List.range dim).map fun d => meanAt d (v :: vs) := by
      show (running dim (v :: vs)).map _ = _
      simp [running_eq, meanAt_eq, Function.comp_def]
    simp only [addPartition, hv, hsum, hmean, centroidOf]

variable [CharZero K]

omit [LinearOrder K] in
/-- The mean so far and the sum of a batch give the mean of all. -/
theorem meanAt_append (d : Nat) {vs ws : List (List K)} (hne : vs ≠ []) :
    (meanAt d vs * vs.length + total d ws) / (vs.length + ws.length : Nat) =
      meanAt d (vs ++ ws) := by
  have hn : (vs.length : K) ≠ 0 := by simpa using hne
  rw [meanAt_eq, meanAt_eq, total_append, List.length_append, div_mul_cancel₀ _ hn]

theorem updateCentroid_means {s : VectorSkeleton K} {id : UInt64} {dim : Nat}
    {vs ws : List (List K)} (hne : vs ≠ [])
    (hc : s.centroids.lookup id = some (centroidOf id dim vs)) (hdim : ∀ w ∈ ws, w.length = dim) :
    (s.updateCentroid id ws).2 = .ok () ∧
      (s.updateCentroid id ws).1.centroids.lookup id = some (centroidOf id dim (vs ++ ws)) := by
  cases ws with
  | nil => exact ⟨rfl, by rw [List.append_nil]; exact hc⟩
  | cons w ws =>
    have hlen : (centroidOf id dim vs).mean.length = dim := by simp [centroidOf]
    have hfind : (w :: ws).find? (fun v => v.length ≠ dim) = none := by
      rw [List.find?_eq_none]
      intro v hv
      simpa using hdim v hv
    have hmean : List.zipWith (fun m x => (Narrow.toF32 (F64.div (F64.add (F64.mul
          (Widen.toF64 m) (F64.ofInt (vs.length : Int))) x)
          (F64.ofInt ((vs.length + (w :: ws).length : Nat) : Int))) : K))
        (centroidOf id dim vs).mean ((w :: ws).foldl addInto (zeros K dim)) =
        (List.range dim).map fun d => meanAt d (vs ++ w :: ws) := by
      show List.zipWith _ ((List.range dim).map _) (running dim (w :: ws)) = _
      rw [running_eq, List.zipWith_map, List.zipWith_self]
      refine List.map_congr_left fun d _ => ?_
      rw [← meanAt_append d hne]
      simp
    have hstep : s.updateCentroid id (w :: ws) =
        (⟨s.centroids.insert id (centroidOf id dim (vs ++ w :: ws))⟩, .ok ()) := by
      unfold updateCentroid
      simp only [List.isEmpty_cons, Bool.false_eq_true, if_false, hc, hlen, hfind]
      rw [show (centroidOf id dim vs).recordCount = vs.length from rfl, hmean,
        ← List.length_append]
      rfl
    rw [hstep]
    exact ⟨rfl, by rw [lookup_insert_eq, if_pos rfl]⟩

theorem updates_means (id : UInt64) {dim : Nat} (batches : List (List (List K))) :
    ∀ {s : VectorSkeleton K} {vs : List (List K)}, vs ≠ [] →
      s.centroids.lookup id = some (centroidOf id dim vs) →
      (∀ batch ∈ batches, ∀ v ∈ batch, v.length = dim) →
      ∃ s', s.updates id batches = .ok s' ∧
        s'.centroids.lookup id = some (centroidOf id dim (vs ++ batches.flatten)) := by
  induction batches with
  | nil =>
    intro s vs _ hc _
    exact ⟨s, rfl, by rw [List.flatten_nil, List.append_nil]; exact hc⟩
  | cons batch batches ih =>
    intro s vs hne hc hdim
    obtain ⟨hok, hnext⟩ := updateCentroid_means hne hc (hdim batch (by simp))
    obtain ⟨s', hs', hlast⟩ := ih (List.append_ne_nil_of_left_ne_nil hne batch) hnext
      fun b hb => hdim b (by simp [hb])
    refine ⟨s', ?_, by rw [List.flatten_cons, ← List.append_assoc]; exact hlast⟩
    have hpair : s.updateCentroid id batch = ((s.updateCentroid id batch).1, .ok ()) := by
      rw [← hok]
    rw [updates, hpair]
    exact hs'

/-- A partition that is added and then updated batch by batch has the centroid of all its
vectors added at once; a call that fails changes nothing. -/
theorem updates_eq_addPartition (s : VectorSkeleton K) (id : UInt64) :
    (∀ (dim : Nat) (vs : List (List K)) (batches : List (List (List K))), vs ≠ [] →
      (∀ v ∈ vs, v.length = dim) → (∀ batch ∈ batches, ∀ v ∈ batch, v.length = dim) →
      ∃ s₁ s₂ s₃ c, s.addPartition id vs = (s₁, .ok ()) ∧ s₁.updates id batches = .ok s₂ ∧
        s.addPartition id (vs ++ batches.flatten) = (s₃, .ok ()) ∧
        s₂.centroids.lookup id = some c ∧ s₃.centroids.lookup id = some c) ∧
    (∀ (vs : List (List K)) e, (s.addPartition id vs).2 = .error e →
      (s.addPartition id vs).1 = s) ∧
    (∀ (vs : List (List K)) e, (s.updateCentroid id vs).2 = .error e →
      (s.updateCentroid id vs).1 = s) := by
  refine ⟨fun dim vs batches hne hvs hbatches => ?_, fun vs e => addPartition_error,
    fun vs e => updateCentroid_error⟩
  have hadd := addPartition_means s id hne hvs
  have hall := addPartition_means s id (List.append_ne_nil_of_left_ne_nil hne batches.flatten)
    (fun v hv => by
      rcases List.mem_append.mp hv with hv | hv
      · exact hvs v hv
      · obtain ⟨batch, hbatch, hv⟩ := List.mem_flatten.mp hv
        exact hbatches batch hbatch v hv)
  have hfirst := lookup_insert_eq s.centroids id id (centroidOf id dim vs)
  rw [if_pos rfl] at hfirst
  obtain ⟨s₂, hs₂, hlast⟩ := updates_means id batches
    (s := ⟨s.centroids.insert id (centroidOf id dim vs)⟩) hne hfirst hbatches
  exact ⟨_, s₂, _, _, hadd, hs₂, hall, hlast, by rw [lookup_insert_eq, if_pos rfl]⟩

theorem updates_eq_rational : ∃ s₁ s₂ s₃ c,
    (new : VectorSkeleton ℚ).addPartition 1 [[(0 : ℚ), 0]] = (s₁, .ok ()) ∧
    s₁.updates 1 [[[(10 : ℚ), 10]], [[20, 20], [10, 0]]] = .ok s₂ ∧
    (new : VectorSkeleton ℚ).addPartition 1 [[(0 : ℚ), 0], [10, 10], [20, 20], [10, 0]] =
      (s₃, .ok ()) ∧
    s₂.centroids.lookup 1 = some c ∧ s₃.centroids.lookup 1 = some c :=
  (updates_eq_addPartition (new : VectorSkeleton ℚ) 1).1 2 [[0, 0]]
    [[[10, 10]], [[20, 20], [10, 0]]] (by decide) (by decide) (by decide)

end Exact

end VectorSkeleton

end Tesseract.L3
