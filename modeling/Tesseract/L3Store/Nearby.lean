import Mathlib.Data.List.Sort
import Mathlib.Logic.Function.Basic
import Tesseract.L3Store.Skeleton

/-!
# Which partitions a query wakes

The rest of `tesseract-storage/src/skeleton.rs`: partitions are looked for by their centroids
and removed. `Partition` is what a centroid stands for, vectors of one length.

* `Refines.apply`: in exact arithmetic a centroid stays that of the vectors it was given,
  over any call.
* `nearby_iff`: so a query wakes a partition, after any run, if the mean of the vectors that
  the run left in it is near enough.
-/
namespace Tesseract.L3

open Assoc

variable {α β : Type} [F64 α] [Narrow α β] [Widen β α]

namespace VectorSkeleton

/-- mirrors tesseract-storage/src/skeleton.rs:121-124 -/
def removePartition (s : VectorSkeleton β) (partitionId : UInt64) : VectorSkeleton β :=
  ⟨s.centroids.erase partitionId⟩

section Nearby

variable [F32 β]

/-- mirrors tesseract-storage/src/skeleton.rs:196-205 -/
def euclideanDistance (a b : List β) : β :=
  F32.sqrt (F32.sum (List.zipWith (fun x y => F32.mul (F32.sub x y) (F32.sub x y)) a b))

/-- mirrors tesseract-storage/src/skeleton.rs:109-115 -/
def isNear (wakeThreshold : α) (queryF32 : List β) (c : Centroid β) : Bool :=
  if c.mean.length ≠ queryF32.length then false
  else F64.lt (Widen.toF64 (euclideanDistance queryF32 c.mean)) wakeThreshold

/-- The `HashMap` is listed by `rank`.
mirrors tesseract-storage/src/skeleton.rs:103-118 -/
def findNearby (wakeThreshold : α) (rank : UInt64 → Nat) (s : VectorSkeleton β)
    (query : List α) : List UInt64 :=
  let queryF32 := query.map Narrow.toF32
  (((s.centroids.keys.insertionSort fun a b => rank a ≤ rank b).filterMap
    s.centroids.lookup).filter (isNear wakeThreshold queryF32)).map Centroid.partitionId

end Nearby

end VectorSkeleton

theorem VectorSkeleton.updateCentroid_frame (s : VectorSkeleton β) {id i : UInt64}
    (vs : List (List α)) (h : i ≠ id) :
    (s.updateCentroid id vs).1.centroids.lookup i = s.centroids.lookup i := by
  unfold VectorSkeleton.updateCentroid
  split
  · rfl
  · split
    · rfl
    · simp only
      split
      · rfl
      · exact AList.lookup_insert_ne h

/-- A call that writes. -/
inductive SkeletonOp (α : Type) where
  | addPartition (partitionId : UInt64) (vectors : List (List α))
  | updateCentroid (partitionId : UInt64) (newVectors : List (List α))
  | removePartition (partitionId : UInt64)

def VectorSkeleton.apply (s : VectorSkeleton β) : SkeletonOp α → VectorSkeleton β
  | .addPartition partitionId vectors => (s.addPartition partitionId vectors).1
  | .updateCentroid partitionId newVectors => (s.updateCentroid partitionId newVectors).1
  | .removePartition partitionId => s.removePartition partitionId

/-! ## Partitions -/

/-- The vectors of a partition. -/
structure Partition (α : Type) where
  dim : Nat
  vectors : List (List α)
  nonempty : vectors ≠ []
  uniform : ∀ v ∈ vectors, v.length = dim

namespace Partition

omit [F64 α]

def ofVectors : List (List α) → Option (Partition α)
  | [] => none
  | v :: vs =>
    if h : ∀ w ∈ v :: vs, w.length = v.length then some ⟨v.length, v :: vs, by simp, h⟩ else none

/-- A batch with a vector of another length is not taken. -/
def append (p : Partition α) (batch : List (List α)) : Partition α :=
  if h : ∀ w ∈ batch, w.length = p.dim then
    ⟨p.dim, p.vectors ++ batch, List.append_ne_nil_of_left_ne_nil p.nonempty batch, fun v hv =>
      (List.mem_append.mp hv).elim (p.uniform v) (h v)⟩
  else p

end Partition

/-- What the skeleton is about. -/
abbrev Partitions (α : Type) := UInt64 → Option (Partition α)

def Partitions.apply (ps : Partitions α) : SkeletonOp α → Partitions α
  | .addPartition partitionId vectors =>
    match Partition.ofVectors vectors with
    | some p => Function.update ps partitionId (some p)
    | none => ps
  | .updateCentroid partitionId newVectors =>
    Function.update ps partitionId ((ps partitionId).map fun p => p.append newVectors)
  | .removePartition partitionId => Function.update ps partitionId none

/-! ## The refinement -/

section Exact

variable {K : Type} [Field K] [LinearOrder K]

/-- The mean of the vectors. -/
def Partition.mean (p : Partition K) : List K := (List.range p.dim).map fun d => meanAt d p.vectors

def Partition.centroid (id : UInt64) (p : Partition K) : Centroid K :=
  VectorSkeleton.centroidOf id p.dim p.vectors

namespace VectorSkeleton

/-- Every partition has the centroid of its vectors. -/
def Refines (s : VectorSkeleton K) (ps : Partitions K) : Prop :=
  ∀ id, s.centroids.lookup id = (ps id).map (Partition.centroid id)

variable {s : VectorSkeleton K} {ps : Partitions K}

theorem exists_error {r : Result Unit} (h : r ≠ .ok ()) : ∃ e, r = .error e := by
  cases r with
  | ok u => exact absurd rfl h
  | error e => exact ⟨e, rfl⟩

theorem Refines.addPartition (h : s.Refines ps) (id : UInt64) (vs : List (List K)) :
    (s.addPartition id vs).1.Refines (ps.apply (.addPartition id vs)) := by
  cases vs with
  | nil => exact h
  | cons v vs =>
    by_cases hdim : ∀ w ∈ v :: vs, w.length = v.length
    · intro i
      rw [addPartition_means s id (by simp) hdim]
      simp only [Partitions.apply, Partition.ofVectors, dif_pos hdim, lookup_insert_eq,
        Function.update_apply]
      split
      · next hi => rw [hi]; rfl
      · exact h i
    · have hfails : (s.addPartition id (v :: vs)).2 ≠ .ok () := by
        rw [Ne, addPartition_ok_iff]
        simpa using hdim
      obtain ⟨e, he⟩ := exists_error hfails
      rw [addPartition_error he]
      simpa only [Partitions.apply, Partition.ofVectors, dif_neg hdim] using h

omit [LinearOrder K] in
theorem Refines.removePartition (h : s.Refines ps) (id : UInt64) :
    (s.removePartition id).Refines (Function.update ps id none) := by
  intro i
  rw [VectorSkeleton.removePartition, lookup_erase_eq, Function.update_apply]
  split
  · rfl
  · exact h i

variable [CharZero K]

theorem Refines.updateCentroid (h : s.Refines ps) (id : UInt64) (batch : List (List K)) :
    (s.updateCentroid id batch).1.Refines (ps.apply (.updateCentroid id batch)) := by
  have hid := h id
  by_cases hok : (s.updateCentroid id batch).2 = .ok ()
  · cases hp : ps id with
    | none =>
      -- only a batch of no vectors is taken, and it changes nothing
      rw [hp] at hid
      have hempty : batch = [] := by
        rcases updateCentroid_ok_iff.mp hok with hempty | ⟨c, hc, -⟩
        · exact hempty
        · simp [hid] at hc
      have hsame : Function.update ps id none = ps := by rw [← hp, Function.update_eq_self]
      subst hempty
      rw [Partitions.apply, hp, Option.map_none, hsame]
      exact h
    | some p =>
      rw [hp, Option.map_some] at hid
      have hdim : ∀ w ∈ batch, w.length = p.dim := by
        rcases updateCentroid_ok_iff.mp hok with rfl | ⟨c, hc, hall⟩
        · simp
        · rw [hid, Option.mem_def, Option.some.injEq] at hc
          subst hc
          simpa [Partition.centroid, centroidOf] using hall
      obtain ⟨-, hlookup⟩ := updateCentroid_means p.nonempty hid hdim
      intro i
      by_cases hi : i = id
      · subst hi
        simp [Partitions.apply, hp, Partition.append, dif_pos hdim, hlookup, Partition.centroid]
      · rw [updateCentroid_frame s batch hi, h i, Partitions.apply, Function.update_of_ne hi]
  · obtain ⟨e, he⟩ := exists_error hok
    have hsame : ps.apply (.updateCentroid id batch) = ps := by
      funext i
      rw [Partitions.apply, Function.update_apply]
      split
      · next hi =>
        subst hi
        cases hp : ps i with
        | none => rfl
        | some p =>
          rw [hp, Option.map_some] at hid
          have hdim : ¬ ∀ w ∈ batch, w.length = p.dim := fun hdim =>
            hok (updateCentroid_means p.nonempty hid hdim).1
          rw [Option.map_some, Partition.append, dif_neg hdim]
      · rfl
    rw [updateCentroid_error he, hsame]
    exact h

theorem Refines.apply (h : s.Refines ps) (op : SkeletonOp K) :
    (s.apply op).Refines (ps.apply op) := by
  cases op with
  | addPartition id vs => exact h.addPartition id vs
  | updateCentroid id batch => exact h.updateCentroid id batch
  | removePartition id => exact h.removePartition id

theorem Refines.run (h : s.Refines ps) (ops : List (SkeletonOp K)) :
    (ops.foldl VectorSkeleton.apply s).Refines (ops.foldl Partitions.apply ps) := by
  induction ops generalizing s ps with
  | nil => exact h
  | cons op ops ih => exact ih (h.apply op)

/-! ## Queries -/

section Query

variable [F32 K]

omit [CharZero K] in
theorem Refines.mem_findNearby (h : s.Refines ps) (wakeThreshold : K) (rank : UInt64 → Nat)
    (query : List K) (id : UInt64) : id ∈ findNearby wakeThreshold rank s query ↔
      ∃ p, ps id = some p ∧ p.dim = query.length ∧
        euclideanDistance query p.mean < wakeThreshold := by
  have hnear : ∀ (i : UInt64) (p : Partition K),
      isNear wakeThreshold (query.map Narrow.toF32) (p.centroid i) = true ↔
        p.dim = query.length ∧ euclideanDistance query p.mean < wakeThreshold := by
    intro i p
    have hmean : (p.centroid i).mean = p.mean := rfl
    have hlen : p.mean.length = p.dim := by simp [Partition.mean]
    have hquery : query.map (Narrow.toF32 : K → K) = query := List.map_id query
    rw [isNear, hmean, hlen, hquery]
    by_cases hdim : p.dim = query.length
    · simp [hdim]
    · simp [hdim]
  simp only [findNearby, List.mem_map, List.mem_filter, List.mem_filterMap,
    List.mem_insertionSort, ← AList.mem_keys]
  constructor
  · rintro ⟨c, ⟨⟨i, -, hi⟩, hc⟩, rfl⟩
    rw [h i] at hi
    obtain ⟨p, hp, rfl⟩ := Option.map_eq_some_iff.mp hi
    obtain ⟨hdim, hdist⟩ := (hnear i p).mp hc
    exact ⟨p, hp, hdim, hdist⟩
  · rintro ⟨p, hp, hdim, hdist⟩
    have hlookup : s.centroids.lookup id = some (p.centroid id) := by
      rw [h id, hp, Option.map_some]
    have hmem : id ∈ s.centroids := AList.lookup_isSome.mp (by rw [hlookup]; rfl)
    exact ⟨p.centroid id, ⟨⟨id, hmem, hlookup⟩, (hnear id p).mpr ⟨hdim, hdist⟩⟩, rfl⟩

/-- After any calls, in whatever order, a query wakes a partition exactly if the calls left
vectors in it, of the length of the query, whose mean is nearer than the threshold. -/
theorem nearby_iff (ops : List (SkeletonOp K)) (wakeThreshold : K) (rank : UInt64 → Nat)
    (query : List K) (id : UInt64) :
    id ∈ findNearby wakeThreshold rank
        (ops.foldl VectorSkeleton.apply (new : VectorSkeleton K)) query ↔
      ∃ p, ops.foldl Partitions.apply (fun _ => none) id = some p ∧ p.dim = query.length ∧
        euclideanDistance query p.mean < wakeThreshold := by
  have hnew : (new : VectorSkeleton K).Refines fun _ => none := fun _ => rfl
  exact (hnew.run ops).mem_findNearby wakeThreshold rank query id

/-- Three vectors in two calls, and one that fails. -/
def threeVectors : List (SkeletonOp ℚ) :=
  [.addPartition 1 [[0], [2]], .addPartition 1 [[1, 1], [2]], .updateCentroid 1 [[4]]]

theorem nearby_iff_threeVectors :
    1 ∈ findNearby (3 / 2) UInt64.toNat
        (threeVectors.foldl VectorSkeleton.apply (new : VectorSkeleton ℚ)) [(3 : ℚ)] ↔
      ∃ p, threeVectors.foldl Partitions.apply (fun _ => none) 1 = some p ∧
        p.dim = [(3 : ℚ)].length ∧ euclideanDistance [(3 : ℚ)] p.mean < 3 / 2 :=
  nearby_iff threeVectors (3 / 2) UInt64.toNat [3] 1

end Query

end VectorSkeleton

end Exact

end Tesseract.L3
