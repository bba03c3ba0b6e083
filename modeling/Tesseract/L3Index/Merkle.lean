import Mathlib.Algebra.GroupWithZero.Nat
import Mathlib.Data.List.AList
import Mathlib.Data.List.Sort
import Tesseract.Core.Endian
import Tesseract.Core.Floats

/-!
# Hot buffer and Merkle tree

Model of `tesseract-index/src/merkle`: vectors are buffered, and a full buffer is
merged into a tree of cluster centroids. `blake3` is a parameter. The `merging`
flag is only set inside one locked section, so between calls it is false and is
left out.

`none` stands for a panic, or for the split loop not ending: one that ends has
halved every count below 2^64 to at most 1 within 64 rounds.
-/
namespace Tesseract.L3

open Endian

variable {β μ : Type} [F32 β]

/-! ## Sorting -/

/-- `sort_by` with `partial_cmp(..).unwrap_or(Equal)`: stable where no distance is
NaN. A NaN makes the comparison inconsistent, and the order is unspecified. -/
structure ScoreSort (β : Type) [F32 β] where
  sort : List (UInt64 × β) → List (UInt64 × β)
  perm : ∀ xs, (sort xs).Perm xs
  stable : ∀ xs, (∀ p ∈ xs, F32.isNaN p.2 = false) →
    sort xs = xs.insertionSort fun a b => F32.gt a.2 b.2 = false

/-- The sort that treats a NaN as equal to its neighbours too. -/
def ScoreSort.insertion : ScoreSort β where
  sort xs := xs.insertionSort fun a b => F32.gt a.2 b.2 = false
  perm xs := List.perm_insertionSort _ xs
  stable _ _ := rfl

/-! ## Hot buffer -/

/-- `μ` is the type of the metadata.
mirrors tesseract-index/src/merkle/hot_buffer.rs:14-22 -/
structure BufferedVector (β μ : Type) where
  id : UInt64
  vector : List β
  metadata : μ

/-- mirrors tesseract-index/src/merkle/hot_buffer.rs:35-42 -/
structure HotBuffer (β μ : Type) where
  vectors : List (BufferedVector β μ)
  capacity : Nat

namespace HotBuffer

def new (capacity : Nat) : HotBuffer β μ := ⟨[], capacity⟩

/-- With whether the buffer is full now.
mirrors tesseract-index/src/merkle/hot_buffer.rs:61-64 -/
def insert (b : HotBuffer β μ) (bv : BufferedVector β μ) : HotBuffer β μ × Bool :=
  (⟨b.vectors ++ [bv], b.capacity⟩, decide (b.capacity ≤ b.vectors.length + 1))

/-- mirrors tesseract-index/src/merkle/hot_buffer.rs:100-102 -/
def drain (b : HotBuffer β μ) : HotBuffer β μ × List (BufferedVector β μ) :=
  (⟨[], b.capacity⟩, b.vectors)

/-- mirrors tesseract-index/src/merkle/hot_buffer.rs:74-94 -/
def search (S : ScoreSort β) (b : HotBuffer β μ) (query : List β) (k : Nat) : List (UInt64 × β) :=
  if b.vectors.isEmpty || k == 0 then []
  else
    let results := b.vectors.map fun bv =>
      (bv.id, F32.sub F32.one (F32.sum (List.zipWith F32.mul bv.vector query)))
    (S.sort results).take k

/-- A result is a vector of the buffer, with one minus the dot product. -/
theorem mem_search {S : ScoreSort β} {b : HotBuffer β μ} {query : List β} {k : Nat}
    {p : UInt64 × β} (hp : p ∈ b.search S query k) :
    ∃ bv ∈ b.vectors, bv.id = p.1 ∧
      p.2 = F32.sub F32.one (F32.sum (List.zipWith F32.mul bv.vector query)) := by
  unfold search at hp
  split at hp
  · cases hp
  · have hmem := (S.perm _).mem_iff.mp (List.mem_of_mem_take hp)
    obtain ⟨bv, hbv, rfl⟩ := List.mem_map.mp hmem
    exact ⟨bv, hbv, rfl, rfl⟩

end HotBuffer

/-! ## Nodes -/

/-- mirrors tesseract-index/src/merkle/node.rs:21-46 -/
inductive MerkleNode (β : Type) where
  | leaf (centroid : List β) (clusterId count : UInt64) (hash : Bytes)
  | internal (hash : Bytes) (left right : MerkleNode β) (centroid : List β) (count : UInt64)

namespace MerkleNode

def centroid : MerkleNode β → List β
  | .leaf centroid _ _ _ => centroid
  | .internal _ _ _ centroid _ => centroid

def hash : MerkleNode β → Bytes
  | .leaf _ _ _ hash => hash
  | .internal hash _ _ _ _ => hash

def count : MerkleNode β → UInt64
  | .leaf _ _ count _ => count
  | .internal _ _ _ _ count => count

def clusterId : MerkleNode β → Option UInt64
  | .leaf _ clusterId _ _ => some clusterId
  | .internal _ _ _ _ _ => none

/-- mirrors tesseract-index/src/merkle/node.rs:53-72 -/
def recomputeHash (blake3 : Bytes → Bytes) : MerkleNode β → MerkleNode β
  | .leaf centroid clusterId count _ =>
    .leaf centroid clusterId count (blake3 ((centroid.map F32.toLeBytes).flatten ++ u64le count ++
      u64le clusterId))
  | .internal _ left right centroid count =>
    .internal (blake3 (left.hash ++ right.hash)) left right centroid count

def norm (v : List β) : β := F32.sqrt (F32.sum (v.map fun x => F32.mul x x))

/-- mirrors tesseract-index/src/merkle/node.rs:79-88 -/
def centroidDistance (node : MerkleNode β) (query : List β) : β :=
  let dot := F32.sum (List.zipWith F32.mul query node.centroid)
  if F32.eq (norm query) F32.zero || F32.eq (norm node.centroid) F32.zero then F32.one
  else F32.sub F32.one (F32.div dot (F32.mul (norm query) (norm node.centroid)))

/-- mirrors tesseract-index/src/merkle/node.rs:142-156 -/
def collectLeaves : MerkleNode β → List (MerkleNode β)
  | .leaf centroid clusterId count hash => [.leaf centroid clusterId count hash]
  | .internal _ left right _ _ => left.collectLeaves ++ right.collectLeaves

end MerkleNode

/-! ## Tree -/

/-- `path` is read nowhere.
mirrors tesseract-index/src/merkle/tree.rs:27-36 -/
structure MerkleTree (β : Type) where
  root : Option (MerkleNode β)
  nextClusterId : UInt64
  maxClusterSize : UInt64

namespace MerkleTree

/-- mirrors tesseract-index/src/merkle/tree.rs:48-55 -/
def new (maxClusterSize : UInt64) : MerkleTree β := ⟨none, 1, maxClusterSize⟩

/-- `min_by`: the first of the closest; an incomparable pair is equal.
mirrors tesseract-index/src/merkle/tree.rs:216-228 -/
def findNearestInLeaves (leaves : List (MerkleNode β)) (vector : List β) : Option (UInt64 × β) :=
  (leaves.filterMap fun leaf => leaf.clusterId.map fun id =>
    (id, leaf.centroidDistance vector)).foldl
    (fun best p =>
      match best with
      | none => some p
      | some b => if F32.gt b.2 p.2 then some p else some b) none

/-- `*s += x` over the two. -/
def addSum : List β → List β → List β
  | s :: sum, x :: vector => F32.add s x :: addSum sum vector
  | sum, _ => sum

/-- The accumulators of phase 1. -/
structure Assigned (β : Type) where
  newLeaves : List (MerkleNode β)
  clusterSums : AList fun _ : UInt64 => List β
  clusterAdditions : AList fun _ : UInt64 => UInt64
  nextClusterId : UInt64

/-- Phase 1: assign a vector to the nearest of the leaves.
mirrors tesseract-index/src/merkle/tree.rs:107-136 -/
def assign (leaves : List (MerkleNode β)) (dim : Nat) (a : Assigned β) (vector : List β) :
    Assigned β :=
  if vector.length ≠ dim then a
  else
    match findNearestInLeaves leaves vector with
    | some (clusterId, _) =>
      let sum := (a.clusterSums.lookup clusterId).getD (List.replicate dim F32.zero)
      { a with
        clusterAdditions :=
          a.clusterAdditions.insert clusterId ((a.clusterAdditions.lookup clusterId).getD 0 + 1),
        clusterSums := a.clusterSums.insert clusterId (addSum sum vector) }
    | none =>
      { a with
        newLeaves := a.newLeaves ++ [.leaf vector a.nextClusterId 1 (List.replicate 32 0)],
        nextClusterId := a.nextClusterId + 1 }

/-- `*c = (*c * old + s) / total` over the two. -/
def shiftCentroid (oldCount totalCount : UInt64) : List β → List β → List β
  | c :: centroid, s :: sum =>
    F32.div (F32.add (F32.mul c (F32.ofNat oldCount.toNat)) s) (F32.ofNat totalCount.toNat) ::
      shiftCentroid oldCount totalCount centroid sum
  | centroid, _ => centroid

/-- Phase 2: a sum is taken out when its leaf is updated.
mirrors tesseract-index/src/merkle/tree.rs:139-151 -/
def updateLeaves (additions : AList fun _ : UInt64 => UInt64) :
    List (MerkleNode β) → (AList fun _ : UInt64 => List β) → Option (List (MerkleNode β))
  | [], _ => some []
  | .leaf centroid clusterId count hash :: rest, sums =>
    match additions.lookup clusterId with
    | some added => do
      let sum ← sums.lookup clusterId
      let leaves ← updateLeaves additions rest (sums.erase clusterId)
      some (.leaf (shiftCentroid count (count + added) centroid sum) clusterId (count + added)
        hash :: leaves)
    | none => do
      let leaves ← updateLeaves additions rest sums
      some (.leaf centroid clusterId count hash :: leaves)
  | node :: rest, sums => do
    let leaves ← updateLeaves additions rest sums
    some (node :: leaves)

/-- mirrors tesseract-index/src/merkle/tree.rs:234-239 -/
def splitCentroid (centroid : List β) : List β × List β :=
  (centroid.map fun x => F32.add x F32.centi, centroid.map fun x => F32.sub x F32.centi)

/-- One round over the leaves: those behind the split, the next cluster id,
and whether one was split.
mirrors tesseract-index/src/merkle/tree.rs:165-201 -/
def splitRound (blake3 : Bytes → Bytes) (maxClusterSize : UInt64) :
    List (MerkleNode β) → UInt64 → List (MerkleNode β) × UInt64 × Bool
  | [], nextId => ([], nextId, false)
  | .leaf centroid clusterId count hash :: rest, nextId =>
    if maxClusterSize < count then
      let (c₁, c₂) := splitCentroid centroid
      let leaf₁ :=
        (MerkleNode.leaf c₁ nextId (count / 2) (List.replicate 32 0)).recomputeHash blake3
      let leaf₂ :=
        (MerkleNode.leaf c₂ (nextId + 1) (count - count / 2) (List.replicate 32 0)).recomputeHash
          blake3
      let (leaves, nextId, _) := splitRound blake3 maxClusterSize rest (nextId + 2)
      (leaf₁ :: leaf₂ :: leaves, nextId, true)
    else
      let (leaves, nextId, split) := splitRound blake3 maxClusterSize rest nextId
      (.leaf centroid clusterId count hash :: leaves, nextId, split)
  | node :: rest, nextId =>
    let (leaves, nextId, split) := splitRound blake3 maxClusterSize rest nextId
    (node :: leaves, nextId, split)

/-- Phase 4: the `while`, at most `fuel` rounds.
mirrors tesseract-index/src/merkle/tree.rs:162-204 -/
def splitLoop (blake3 : Bytes → Bytes) (maxClusterSize : UInt64) :
    Nat → List (MerkleNode β) → UInt64 → Option (List (MerkleNode β) × UInt64)
  | 0, _, _ => none
  | fuel + 1, leaves, nextId =>
    let (leaves, nextId, split) := splitRound blake3 maxClusterSize leaves nextId
    if split then splitLoop blake3 maxClusterSize fuel leaves nextId else some (leaves, nextId)

/-- mirrors tesseract-index/src/merkle/tree.rs:295-301 -/
def weightedAverage (a : List β) (countA : UInt64) (b : List β) (countB : UInt64) : List β :=
  List.zipWith (fun x y =>
    F32.div (F32.add (F32.mul x (F32.ofNat countA.toNat)) (F32.mul y (F32.ofNat countB.toNat)))
    (F32.ofNat (countA + countB).toNat)) a b

/-- One level: neighbours are paired, an odd one is promoted.
mirrors tesseract-index/src/merkle/tree.rs:262-287 -/
def pairUp (blake3 : Bytes → Bytes) : List (MerkleNode β) → List (MerkleNode β)
  | left :: right :: rest =>
    (MerkleNode.internal (List.replicate 32 0) left right
      (weightedAverage left.centroid left.count right.centroid right.count)
      (left.count + right.count)).recomputeHash blake3 :: pairUp blake3 rest
  | nodes => nodes

/-- The `while nodes.len() > 1`: every level is shorter than the one below. -/
def buildLevels (blake3 : Bytes → Bytes) : Nat → List (MerkleNode β) → Option (MerkleNode β)
  | 0, nodes => nodes.head?
  | fuel + 1, nodes =>
    if 1 < nodes.length then buildLevels blake3 fuel (pairUp blake3 nodes) else nodes.head?

/-- mirrors tesseract-index/src/merkle/tree.rs:245-292 -/
def buildTree (blake3 : Bytes → Bytes) (leaves : List (MerkleNode β)) : Option (MerkleNode β) :=
  let sorted := leaves.insertionSort fun a b =>
    a.clusterId.getD (.ofNat (2 ^ 64 - 1)) ≤ b.clusterId.getD (.ofNat (2 ^ 64 - 1))
  buildLevels blake3 sorted.length sorted

/-- mirrors tesseract-index/src/merkle/tree.rs:89-211 -/
def insertBatch (blake3 : Bytes → Bytes) (t : MerkleTree β) (vectors : List (BufferedVector β μ)) :
    Option (MerkleTree β) :=
  match vectors with
  | [] => some t
  | first :: _ => do
    let leaves := (t.root.map MerkleNode.collectLeaves).getD []
    let a := (vectors.map BufferedVector.vector).foldl (assign leaves first.vector.length)
      ⟨[], ∅, ∅, t.nextClusterId⟩
    let updated ← updateLeaves a.clusterAdditions leaves a.clusterSums
    let leaves := (updated ++ a.newLeaves).map (MerkleNode.recomputeHash blake3)
    let (leaves, nextId) ← splitLoop blake3 t.maxClusterSize 65 leaves a.nextClusterId
    some { t with root := buildTree blake3 leaves, nextClusterId := nextId }

/-- `root.collect_leaves()`, of a tree that may be empty. -/
def leaves (t : MerkleTree β) : List (MerkleNode β) :=
  (t.root.map MerkleNode.collectLeaves).getD []

/-- mirrors tesseract-index/src/merkle/tree.rs:73-78 -/
def numCentroids (t : MerkleTree β) : Nat := t.leaves.length

/-- mirrors tesseract-index/src/merkle/tree.rs:332-353 -/
def search (S : ScoreSort β) (t : MerkleTree β) (query : List β) (k : Nat) : List (UInt64 × β) :=
  if k = 0 then []
  else
    let results := t.leaves.filterMap fun leaf =>
      leaf.clusterId.map fun id => (id, leaf.centroidDistance query)
    (S.sort results).take k

/-- A result is a leaf of the tree, with the distance of its centroid. -/
theorem mem_search {S : ScoreSort β} {t : MerkleTree β} {query : List β} {k : Nat}
    {p : UInt64 × β} (hp : p ∈ t.search S query k) :
    ∃ leaf ∈ t.leaves, leaf.clusterId = some p.1 ∧ p.2 = leaf.centroidDistance query := by
  unfold search at hp
  split at hp
  · cases hp
  · have hmem := (S.perm _).mem_iff.mp (List.mem_of_mem_take hp)
    obtain ⟨leaf, hleaf, heq⟩ := List.mem_filterMap.mp hmem
    obtain ⟨id, hid, rfl⟩ := Option.map_eq_some_iff.mp heq
    exact ⟨leaf, hleaf, hid, rfl⟩

end MerkleTree

end Tesseract.L3
