import Mathlib.Data.List.Sort
import Tesseract.Core.BinaryHeap
import Tesseract.Core.Error
import Tesseract.Core.Floats

/-!
# The HNSW index

Model of `tesseract-index/src/hnsw.rs` and `distance.rs`. A function that can
panic returns an `Option`: `none` stands for an index out of range, an `unwrap`
of `None`, or a loop that does not end. The outcome of `random_level` before its
caps is an argument.

The weighted and the unweighted searches differ in the distance only, so both
are instances of one definition over a distance `f`.
-/
namespace Tesseract.L3

variable {α β : Type}

/-! ## Distances -/

/-- mirrors tesseract-index/src/distance.rs:9-16 -/
structure DistanceComputer (β : Type) where
  distance : List β → List β → β
  distanceWeighted : List β → List β → List β → β

variable [F32 β]

/-- mirrors tesseract-index/src/distance.rs:24-35 -/
def cosineComputer : DistanceComputer β where
  distance a b := F32.sub F32.one (F32.sum (List.zipWith F32.mul a b))
  distanceWeighted a b weights :=
    F32.sub F32.one (F32.sum (List.zipWith (fun (x, y) w => F32.mul (F32.mul (F32.mul w w) x) y)
      (a.zip b) weights))

/-- mirrors tesseract-index/src/distance.rs:41-53 -/
def euclideanComputer : DistanceComputer β where
  distance a b :=
    F32.sqrt (F32.sum (List.zipWith (fun x y => F32.mul (F32.sub x y) (F32.sub x y)) a b))
  distanceWeighted a b weights :=
    F32.sqrt (F32.sum (List.zipWith
      (fun (x, y) w => F32.mul (F32.mul w w) (F32.mul (F32.sub x y) (F32.sub x y)))
        (a.zip b) weights))

/-- mirrors tesseract-index/src/types.rs:22-28 -/
inductive DistanceMetric where
  | cosine | euclidean
  deriving DecidableEq, Repr

def DistanceMetric.computer : DistanceMetric → DistanceComputer β
  | .cosine => cosineComputer
  | .euclidean => euclideanComputer

/-! ## The graph -/

/-- `ml` only enters `random_level`.
mirrors tesseract-index/src/types.rs:6-19 -/
structure HnswConfig where
  m : Nat
  mMax0 : Nat
  efConstruction : Nat
  distanceMetric : DistanceMetric
  deriving DecidableEq, Repr

/-- `edges[layer]`: the neighbours at that layer.
mirrors tesseract-index/src/hnsw.rs:63-66 -/
structure HnswNode where
  edges : List (List Nat)
  deriving DecidableEq, Repr

/-- mirrors tesseract-index/src/hnsw.rs:78-98 -/
structure HnswIndex (β : Type) where
  config : HnswConfig
  dim : Nat
  nodes : List HnswNode
  idToNode : List UInt64
  vectors : List (List β)
  entryPoint : Option Nat
  maxLayer : Nat
  deleted : List Bool

namespace HnswIndex

/-- mirrors tesseract-index/src/hnsw.rs:106-119 -/
def new (dim : Nat) (config : HnswConfig) : HnswIndex β := ⟨config, dim, [], [], [], none, 0, []⟩

/-- `nodes[i].edges[layer]` -/
def edgesAt (idx : HnswIndex β) (i layer : Nat) : Option (List Nat) :=
  idx.nodes[i]?.bind fun node => node.edges[layer]?

/-- The distance of node `i` from the query. -/
def distTo (f : List β → List β → β) (idx : HnswIndex β) (query : List β) (i : Nat) : Option β :=
  idx.vectors[i]?.map fun v => f v query

/-! ## Levels -/

/-- `(n as f64).log2().ceil()` -/
def ceilLog2 (n : Nat) : Nat := if n ≤ 1 then 0 else Nat.log2 (n - 1) + 1

/-- mirrors tesseract-index/src/hnsw.rs:306-313 -/
def maxAllowedLevel (idx : HnswIndex β) : Nat :=
  if idx.nodes.length = 0 then 0 else max 1 (ceilLog2 idx.nodes.length)

/-- `level` is what the random number gives, 32 is `MAX_LAYER`.
mirrors tesseract-index/src/hnsw.rs:318-323 -/
def randomLevel (idx : HnswIndex β) (level : Nat) : Nat := min (min level 32) idx.maxAllowedLevel

/-! ## Greedy descent -/

/-- One round: the `for` over the neighbours of the node the round began at.
mirrors tesseract-index/src/hnsw.rs:336-346 -/
def greedyRound (f : List β → List β → β) (idx : HnswIndex β) (query : List β) :
    List Nat → Nat → β → Bool → Option (Nat × β × Bool)
  | [], curr, currDist, changed => some (curr, currDist, changed)
  | neighbor :: rest, curr, currDist, changed => do
    let deleted ← idx.deleted[neighbor]?
    if deleted then greedyRound f idx query rest curr currDist changed
    else
      let dist ← idx.distTo f query neighbor
      if F32.lt dist currDist then greedyRound f idx query rest neighbor dist true
      else greedyRound f idx query rest curr currDist changed

/-- The `loop`, at most `fuel` rounds; `none` when it has not ended by then. -/
def greedyLoop (f : List β → List β → β) (idx : HnswIndex β) (query : List β) (layer : Nat) :
    Nat → Nat → β → Option (Nat × β)
  | 0, _, _ => none
  | fuel + 1, curr, currDist => do
    let edges ← idx.edgesAt curr layer
    let (curr, currDist, changed) ← greedyRound f idx query edges curr currDist false
    if changed then greedyLoop f idx query layer fuel curr currDist else some (curr, currDist)

/-- A round that goes on moves to a closer node, so there is one round for
each node and a last one.
mirrors tesseract-index/src/hnsw.rs:331-352 -/
def greedyWith (f : List β → List β → β) (idx : HnswIndex β) (start : Nat) (query : List β)
    (layer : Nat) :
    Option (Nat × β) := do
  let startDist ← idx.distTo f query start
  greedyLoop f idx query layer (idx.nodes.length + 1) start startDist

def greedySearchLayer (D : DistanceComputer β) (idx : HnswIndex β) (start : Nat) (query : List β)
    (layer : Nat) :
    Option (Nat × β) :=
  greedyWith D.distance idx start query layer

/-- mirrors tesseract-index/src/hnsw.rs:357-378 -/
def greedySearchLayerWeighted (D : DistanceComputer β) (idx : HnswIndex β) (start : Nat)
    (query : List β) (layer : Nat) (weights : List β) : Option (Nat × β) :=
  greedyWith (fun a b => D.distanceWeighted a b weights) idx start query layer

/-! ## Search of one layer -/

/-- `Ord` of `(Distance, usize)`: an incomparable pair of distances is equal.
mirrors tesseract-index/src/hnsw.rs:43-57 -/
def cmpDist (a b : β × Nat) : Ordering := ((F32.partialCmp a.1 b.1).getD .eq).then (compare a.2 b.2)

/-- `Ord` of `Reverse` -/
def cmpReverse (a b : β × Nat) : Ordering := cmpDist b a

/-- The local state of `search_layer`. -/
structure LayerSearch (β : Type) where
  visited : List Bool
  candidates : List (β × Nat)
  results : List (β × Nat)

/-- Both heaps take the neighbour; beyond `ef` the farthest result goes.
mirrors tesseract-index/src/hnsw.rs:419-423 -/
def LayerSearch.accept (s : LayerSearch β) (ef : Nat) (dist : β) (neighbor : Nat) : LayerSearch β :=
  let candidates := BinaryHeap.push cmpReverse s.candidates (dist, neighbor)
  let results := BinaryHeap.push cmpDist s.results (dist, neighbor)
  if ef < results.length then
    ⟨s.visited, candidates, ((BinaryHeap.pop cmpDist results).map Prod.snd).getD []⟩
  else ⟨s.visited, candidates, results⟩

/-- `results.len() < ef || nd < results.peek().unwrap().0` -/
def LayerSearch.accepts (s : LayerSearch β) (ef : Nat) (dist : β) : Option Bool :=
  if s.results.length < ef then some true else s.results.head?.map fun top => F32.lt dist top.1

/-- The `for` over the neighbours of a candidate.
mirrors tesseract-index/src/hnsw.rs:409-425 -/
def visitNeighbors (f : List β → List β → β) (idx : HnswIndex β) (query : List β) (ef : Nat) :
    List Nat → LayerSearch β → Option (LayerSearch β)
  | [], s => some s
  | neighbor :: rest, s => do
    let visited ← s.visited[neighbor]?
    let deleted ← if visited then some true else idx.deleted[neighbor]?
    if deleted then visitNeighbors f idx query ef rest s
    else
      let dist ← idx.distTo f query neighbor
      let s := { s with visited := s.visited.set neighbor true }
      let accepted ← s.accepts ef dist
      visitNeighbors f idx query ef rest (if accepted then s.accept ef dist neighbor else s)

/-- The closest candidate is farther than the farthest of `ef` results.
mirrors tesseract-index/src/hnsw.rs:403-407 -/
def LayerSearch.done (s : LayerSearch β) (ef : Nat) (dist : β) : Bool :=
  match s.results.head? with
  | some farthest => F32.gt dist farthest.1 && decide (ef ≤ s.results.length)
  | none => false

/-- The `while`, at most `fuel` rounds; `none` when it has not ended by then. -/
def searchLoop (f : List β → List β → β) (idx : HnswIndex β) (query : List β) (ef layer : Nat) :
    Nat → LayerSearch β → Option (LayerSearch β)
  | 0, _ => none
  | fuel + 1, s =>
    match BinaryHeap.pop cmpReverse s.candidates with
    | none => some s
    | some ((dist, i), candidates) =>
      if s.done ef dist then some { s with candidates := candidates }
      else do
        let edges ← idx.edgesAt i layer
        let s ← visitNeighbors f idx query ef edges { s with candidates := candidates }
        searchLoop f idx query ef layer fuel s

/-- Every node is a candidate at most once, so there is one round for each
node and a last one.
mirrors tesseract-index/src/hnsw.rs:388-430 -/
def searchWith (f : List β → List β → β) (idx : HnswIndex β) (start : Nat) (query : List β)
    (ef layer : Nat) :
    Option (List (Nat × β)) := do
  let startDist ← idx.distTo f query start
  guard (start < idx.nodes.length)
  let visited := (List.replicate idx.nodes.length false).set start true
  let s ← searchLoop f idx query ef layer (idx.nodes.length + 1)
    ⟨visited, BinaryHeap.push cmpReverse [] (startDist, start),
      BinaryHeap.push cmpDist [] (startDist, start)⟩
  some ((BinaryHeap.intoSortedVec cmpDist s.results).map fun p => (p.2, p.1))

def searchLayer (D : DistanceComputer β) (idx : HnswIndex β) (start : Nat) (query : List β)
    (ef layer : Nat) :
    Option (List (Nat × β)) :=
  searchWith D.distance idx start query ef layer

/-- mirrors tesseract-index/src/hnsw.rs:436-481 -/
def searchLayerWeighted (D : DistanceComputer β) (idx : HnswIndex β) (start : Nat)
    (query : List β) (ef layer : Nat) (weights : List β) : Option (List (Nat × β)) :=
  searchWith (fun a b => D.distanceWeighted a b weights) idx start query ef layer

/-! ## Neighbours -/

/-- mirrors tesseract-index/src/hnsw.rs:487-489 -/
def selectNeighbors (candidates : List (Nat × β)) (m : Nat) : List Nat :=
  (candidates.take m).map Prod.fst

/-- `edges[layer]` of node `i` becomes `edges`. -/
def setEdges (idx : HnswIndex β) (i layer : Nat) (edges : List Nat) : HnswIndex β :=
  { idx with nodes := idx.nodes.modify i fun node => ⟨node.edges.set layer edges⟩ }

/-- `self.nodes[i].edges[layer].push(j)` -/
def pushEdge (idx : HnswIndex β) (i layer j : Nat) : Option (HnswIndex β) := do
  let edges ← idx.edgesAt i layer
  some (idx.setEdges i layer (edges ++ [j]))

/-- The per-layer maximum of connections. -/
def maxConn (idx : HnswIndex β) (layer : Nat) : Nat :=
  if layer = 0 then idx.config.mMax0 else idx.config.m

/-- `sort_by` with `partial_cmp(..).unwrap()`: every element of two or more is
compared, so a NaN panics; else the sort is stable. -/
def sortByDistance {κ : Type} (xs : List (κ × β)) : Option (List (κ × β)) :=
  if 2 ≤ xs.length ∧ xs.any (fun p => F32.isNaN p.2) then none
  else some (xs.insertionSort fun a b => F32.gt a.2 b.2 = false)

/-- mirrors tesseract-index/src/hnsw.rs:495-508 -/
def shrinkConnections (D : DistanceComputer β) (idx : HnswIndex β) (nodeIdx layer : Nat) :
    Option (HnswIndex β) := do
  let edges ← idx.edgesAt nodeIdx layer
  if edges.length ≤ idx.maxConn layer then some idx
  else
    let center ← idx.vectors[nodeIdx]?
    let pairs ← edges.mapM fun n => idx.vectors[n]?.map fun v => (n, D.distance center v)
    let sorted ← sortByDistance pairs
    some (idx.setEdges nodeIdx layer ((sorted.take (idx.maxConn layer)).map Prod.fst))

/-! ## Insert -/

/-- `(lo..=hi).rev()` -/
def layersDown (lo hi : Nat) : List Nat := ((List.range (hi + 1)).drop lo).reverse

/-- One layer of the descent.
mirrors tesseract-index/src/hnsw.rs:178-181 -/
def descendStep (D : DistanceComputer β) (idx : HnswIndex β) (query : List β) (curr layer : Nat) :
    Option Nat := do
  let node ← idx.nodes[curr]?
  if layer < node.edges.length then (idx.greedySearchLayer D curr query layer).map Prod.fst
  else some curr

/-- The bidirectional connections of a new node.
mirrors tesseract-index/src/hnsw.rs:198-201 -/
def linkAll (nodeIdx layer : Nat) : List Nat → HnswIndex β → Option (HnswIndex β)
  | [], idx => some idx
  | neighbor :: rest, idx => do
    let idx ← idx.pushEdge nodeIdx layer neighbor
    let idx ← idx.pushEdge neighbor layer nodeIdx
    linkAll nodeIdx layer rest idx

/-- mirrors tesseract-index/src/hnsw.rs:203-205 -/
def shrinkAll (D : DistanceComputer β) (layer : Nat) : List Nat → HnswIndex β → Option (HnswIndex β)
  | [], idx => some idx
  | neighbor :: rest, idx => do
    let idx ← idx.shrinkConnections D neighbor layer
    shrinkAll D layer rest idx

/-- Search and connect at one layer, with the node the next layer starts at.
mirrors tesseract-index/src/hnsw.rs:190-210 -/
def connectStep (D : DistanceComputer β) (nodeIdx : Nat) (s : HnswIndex β × Nat) (layer : Nat) :
    Option (HnswIndex β × Nat) := do
  let query ← s.1.vectors[nodeIdx]?
  let candidates ← s.1.searchLayer D s.2 query s.1.config.efConstruction layer
  let nearest := selectNeighbors candidates (s.1.maxConn layer)
  let idx ← linkAll nodeIdx layer nearest s.1
  let idx ← shrinkAll D layer nearest idx
  some (idx, nearest.head?.getD s.2)

/-- The new node, not yet connected.
mirrors tesseract-index/src/hnsw.rs:154-160 -/
def pushNode (idx : HnswIndex β) (level : Nat) (id : UInt64) (vector : List β) : HnswIndex β :=
  { idx with
    nodes := idx.nodes ++ [⟨List.replicate (level + 1) []⟩],
    idToNode := idx.idToNode ++ [id],
    vectors := idx.vectors ++ [vector],
    deleted := idx.deleted ++ [false] }

/-- Connect node `nodeIdx` of top layer `level`.
mirrors tesseract-index/src/hnsw.rs:170-216 -/
def connect (D : DistanceComputer β) (idx : HnswIndex β) (nodeIdx level : Nat) :
    Option (HnswIndex β) := do
  let entry ← idx.entryPoint
  let entryNode ← idx.nodes[entry]?
  let query ← idx.vectors[nodeIdx]?
  let descentTop := min idx.maxLayer (entryNode.edges.length - 1)
  let curr ← (layersDown (level + 1) descentTop).foldlM (idx.descendStep D query) entry
  let (idx, _) ← (layersDown 0 (min level idx.maxLayer)).foldlM (connectStep D nodeIdx) (idx, curr)
  if idx.maxLayer < level then some { idx with maxLayer := level, entryPoint := some nodeIdx }
  else some idx

/-- `level` is the random level before its caps.
mirrors tesseract-index/src/hnsw.rs:139-219 -/
def insert [Narrow α β] (D : DistanceComputer β) (level : Nat) (idx : HnswIndex β) (id : UInt64)
    (vector : List α) : Option (HnswIndex β × Result Unit) :=
  if vector.length ≠ idx.dim then some (idx, .error (.dimensionMismatch vector.length idx.dim))
  else
    let vecF32 : List β := vector.map Narrow.toF32
    match idx.idToNode.findIdx? (· == id) with
    | some existing =>
      if existing < idx.vectors.length then
        some ({ idx with vectors := idx.vectors.set existing vecF32 }, .ok ())
      else none
    | none =>
      let nodeIdx := idx.nodes.length
      let level := idx.randomLevel level
      let idx := idx.pushNode level id vecF32
      if nodeIdx = 0 then some ({ idx with entryPoint := some 0, maxLayer := level }, .ok ())
      else (idx.connect D nodeIdx level).map fun idx => (idx, .ok ())

end HnswIndex

end Tesseract.L3
