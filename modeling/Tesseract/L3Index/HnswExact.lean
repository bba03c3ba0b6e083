import Tesseract.Core.HeapSort
import Tesseract.L3Index.HnswResults

/-!
# A search of a layer that prunes nothing

With `ef` at least the number of nodes `search_layer` lists the nodes its walk reaches, and
its result heap is sorted where distances can be compared. A NaN compares as equal to
everything, which leaves the heap without an order.

* `searchWith_ascending`: without NaN the result is ascending.
* `searchLayer_explores`: the nodes of the result, their distances and their order.
* `nan_out_of_order`: with a NaN among them, 5 can come before 3.
-/
namespace Tesseract.L3.HnswIndex

variable {β : Type} [F32 β]

/-! ## The order of the result heap -/

section Order

variable [LawfulF32 β] [SwapF32 β] [OrderF32 β]

omit [F32 β] [LawfulF32 β] [SwapF32 β] [OrderF32 β] in
theorem totalOn_compare (xs : List (β × Nat)) :
    TotalOn (fun a b : β × Nat => compare a.2 b.2) xs := by
  refine ⟨fun a _ b _ => (Nat.compare_swap a.2 b.2).symm, fun a _ b _ c _ hab hbc => ?_⟩
  rw [ne_eq, Nat.compare_eq_gt] at *
  omega

theorem totalOn_cmpDist {xs : List (β × Nat)} (hnan : ∀ p ∈ xs, F32.isNaN p.1 = false) :
    TotalOn cmpDist xs :=
  (TotalOn.byFloat hnan).then (totalOn_compare xs)

omit [SwapF32 β] [OrderF32 β] in
theorem le_of_cmpDist {a b : β × Nat} (ha : F32.isNaN a.1 = false) (hb : F32.isNaN b.1 = false)
    (h : cmpDist a b ≠ .gt) : F32.le a.1 b.1 = true := by
  rw [← cmpFloat_not_gt (f := Prod.fst) ha hb]
  intro hgt
  refine h ?_
  unfold cmpFloat at hgt
  rw [cmpDist, hgt]
  rfl

variable {f : List β → List β → β} {idx : HnswIndex β} {query : List β} {ef layer start : Nat}

omit [LawfulF32 β] [SwapF32 β] [OrderF32 β] in
/-- While there is room a result is only pushed. -/
theorem accept_room {s : LayerSearch β} {d : β} {n : Nat} (hroom : s.results.length < ef) :
    (s.accept ef d n).results = BinaryHeap.push cmpDist s.results (d, n) := by
  have hlen := (BinaryHeap.push_perm cmpDist s.results (d, n)).length_eq
  rw [List.length_cons] at hlen
  unfold LayerSearch.accept
  dsimp only
  rw [if_neg (by omega)]

/-- No node the walk reaches is at a NaN from the query. -/
def Comparable (f : List β → List β → β) (idx : HnswIndex β) (query : List β)
    (layer start : Nat) : Prop :=
  ∀ j d, idx.Reaches layer start j → idx.distTo f query j = some d → F32.isNaN d = false

/-- What holds of a search with room for every node: its results are a heap. -/
structure Ordered (f : List β → List β → β) (idx : HnswIndex β) (query : List β)
    (layer start : Nat) (s : LayerSearch β) : Prop extends Walk f idx query layer start s where
  length : s.visited.length = idx.nodes.length
  heap : BinaryHeap.Heap cmpDist s.results s.results.length

/-- A visit only pushes. -/
theorem Ordered.visit (hnan : Comparable f idx query layer start) {s : LayerSearch β}
    (hs : Ordered f idx query layer start s) (hef : idx.nodes.length ≤ ef) {n : Nat} {d : β}
    {accepted : Bool} (hv : s.visited[n]? = some false)
    (hdist : idx.distTo f query n = some d) (hreach : idx.Reaches layer start n) :
    Ordered f idx query layer start (s.visit ef d n accepted) := by
  have hwalk := hs.toWalk.visit hv hdist hreach ef accepted
  have hlen : (s.visit ef d n accepted).visited.length = idx.nodes.length := by
    rw [visit_visited, List.length_set]
    exact hs.length
  refine ⟨hwalk, hlen, ?_⟩
  cases accepted with
  | false => exact hs.heap
  | true =>
    have hroom : s.results.length < ef :=
      Nat.lt_of_lt_of_le (hs.toWalk.room hs.length hv) hef
    have htotal : TotalOn cmpDist (s.results ++ [(d, n)]) := by
      refine totalOn_cmpDist fun p hp => ?_
      rcases List.mem_append.mp hp with hp | hp
      · exact hnan p.2 p.1 (hs.results p hp).reach (hs.results p hp).dist
      · rw [List.mem_singleton.mp hp]
        exact hnan n d hreach hdist
    have hpush : (s.visit ef d n true).results = BinaryHeap.push cmpDist s.results (d, n) :=
      accept_room (s := { s with visited := s.visited.set n true }) hroom
    rw [hpush]
    exact BinaryHeap.push_heap htotal hs.heap

/-- One round of the search. -/
theorem Ordered.round (hnan : Comparable f idx query layer start) {s s' : LayerSearch β}
    (hs : Ordered f idx query layer start s) (hef : idx.nodes.length ≤ ef) {d : β} {i : Nat}
    {candidates : List (β × Nat)} {es : List Nat}
    (hpop : BinaryHeap.pop cmpReverse s.candidates = some ((d, i), candidates))
    (hes : idx.edgesAt i layer = some es)
    (h : visitNeighbors f idx query ef es { s with candidates := candidates } = some s') :
    Ordered f idx query layer start s' := by
  have hperm := BinaryHeap.pop_perm cmpReverse hpop
  have hi := (hs.candidates (d, i) (hperm.mem_iff.mpr List.mem_cons_self)).reach
  have hwalk : Walk f idx query layer start { s with candidates := candidates } :=
    ⟨fun p hp => hs.candidates p (hperm.mem_iff.mpr (List.mem_cons_of_mem _ hp)), hs.results,
      hs.distinct⟩
  refine visitNeighbors_keeps h ?_ ⟨hwalk, hs.length, hs.heap⟩
  intro n hn d s accepted hv hd hdist _ hs
  exact hs.visit hnan hef hv hdist (hi.tail ⟨es, hes, hn, hd⟩)

omit [LawfulF32 β] [SwapF32 β] [OrderF32 β] in
theorem Ordered.init {d : β} (hd : idx.distTo f query start = some d)
    (hlt : start < idx.nodes.length) :
    Ordered f idx query layer start (LayerSearch.init idx d start) := by
  refine ⟨Walk.init hd hlt, by simp [LayerSearch.init], fun c hc hclt => ?_⟩
  simp [LayerSearch.init] at hclt
  omega

/-- The result of a search that prunes nothing is ascending. -/
theorem searchWith_ascending (hnan : Comparable f idx query layer start)
    (hef : idx.nodes.length ≤ ef) {rs : List (Nat × β)}
    (h : searchWith f idx start query ef layer = some rs) :
    rs.Pairwise fun p q => F32.le p.2 q.2 = true := by
  obtain ⟨d, s, hd, hlt, hloop, rfl⟩ := searchWith_loop h
  obtain ⟨s₁, hs₁, hres, _⟩ := searchLoop_keeps
    (fun _ _ _ _ _ _ hpop hes hvisit hs => hs.round hnan hef hpop hes hvisit) hloop
    (show Ordered f idx query layer start _ from Ordered.init hd hlt)
  have hresults : ∀ p ∈ s₁.results, F32.isNaN p.1 = false := fun p hp =>
    hnan p.2 p.1 (hs₁.results p hp).reach (hs₁.results p hp).dist
  have hsorted := BinaryHeap.intoSortedVec_pairwise (totalOn_cmpDist hresults) hs₁.heap
  rw [hres, List.pairwise_map]
  refine hsorted.imp_of_mem fun ha hb hab => ?_
  rw [(BinaryHeap.intoSortedVec_perm cmpDist s₁.results).mem_iff] at ha hb
  exact le_of_cmpDist (hresults _ ha) (hresults _ hb) hab

end Order

/-! ## A search is an exploration -/

section Explore

variable [LawfulF32 β] [SwapF32 β] [OrderF32 β] {D : DistanceComputer β} {idx : HnswIndex β}

/-- With `ef` at least the number of nodes, `search_layer` ends and lists the start and the
nodes that are reached from it through nodes without tombstone, each once and at its
distance. The list is ascending if no distance is NaN. -/
theorem searchLayer_explores (hinv : Inv idx) {start layer : Nat} (hs : idx.HasLayer start layer)
    (query : List β) {ef : Nat} (hef : idx.nodes.length ≤ ef) :
    ∃ rs, idx.searchLayer D start query ef layer = some rs ∧ (rs.map Prod.fst).Nodup ∧
      (∀ j, j ∈ rs.map Prod.fst ↔ idx.Reaches layer start j) ∧
      (∀ p ∈ rs, idx.distTo D.distance query p.1 = some p.2) ∧
      (Comparable D.distance idx query layer start →
        rs.Pairwise fun p q => F32.le p.2 q.2 = true) := by
  have hlinked := hinv.wf.linked
  obtain ⟨rs, hrs, _⟩ := searchWith_some hlinked D.distance query hs ef
  obtain ⟨hnodup, hwalk⟩ := searchWith_walk hrs
  refine ⟨rs, hrs, hnodup, fun j => ⟨fun hj => ?_, searchWith_full hlinked hs hef hrs⟩,
    fun p hp => (hwalk p hp).1, fun hnan => searchWith_ascending hnan hef hrs⟩
  obtain ⟨p, hp, rfl⟩ := List.mem_map.mp hj
  exact (hwalk p hp).2

end Explore

/-- The middle node of the bridge is removed, so only the first is reached. -/
theorem bridge_explored :
    ∃ rs, bridge.searchLayer lineComputer 0 [Lit.fin 1] 3 0 = some rs ∧
      (∀ j, j ∈ rs.map Prod.fst ↔ bridge.Reaches 0 0 j) ∧
      rs.Pairwise fun p q => F32.le p.2 q.2 = true := by
  have hinv : Inv bridge := (reachable_inv bridge_reachable).1
  have hlayer : bridge.HasLayer 0 0 := ⟨[1], by decide +kernel⟩
  have hlen : bridge.nodes.length ≤ 3 := by decide +kernel
  obtain ⟨rs, hrs, _, hnodes, _, hsorted⟩ :=
    searchLayer_explores (D := lineComputer) hinv hlayer [Lit.fin 1] hlen
  refine ⟨rs, hrs, hnodes, hsorted fun j d _ hd => ?_⟩
  obtain ⟨v, _, rfl⟩ := Option.map_eq_some_iff.mp hd
  rfl

/-! ## A NaN among the distances -/

/-- Three vectors, one of them beyond the range of `f32`. -/
def beyond : List (Op Lit) :=
  [.insert 0 1 [.fin (-4), .fin 0], .insert 0 2 [.fin 0, .inf false],
    .insert 0 3 [.fin (-2), .fin 0]]

def threeLinks : HnswConfig := ⟨3, 3, 3, .cosine⟩

def beyondIndex : HnswIndex Lit :=
  (LTS.exec (fun idx op => (idx.apply cosineComputer op).map Prod.fst) (fun _ _ => True)
    (new 2 threeLinks) beyond).get (by decide +kernel)

theorem beyond_inv : Inv beyondIndex := by
  have hreach : (calls (α := Lit) cosineComputer 2 threeLinks).Reachable beyondIndex :=
    LTS.Reachable.of_restrict ⟨new 2 threeLinks, beyond, rfl,
      LTS.run_of_exec (Option.some_get _).symm⟩
  exact (reachable_inv hreach).1

/-- The distances 5, NaN and 3 stay in this order. -/
theorem nan_out_of_order :
    Inv beyondIndex ∧ beyondIndex.HasLayer 0 0 ∧ beyondIndex.nodes.length ≤ 3 ∧
      ∃ rs, beyondIndex.searchLayer cosineComputer 0 [Lit.fin 1, .fin 0] 3 0 = some rs ∧
        ¬ rs.Pairwise fun p q => F32.gt p.2 q.2 = false := by
  refine ⟨beyond_inv, ⟨_, rfl⟩, by decide +kernel,
    [(0, .fin 5), (1, .nan), (2, .fin 3)], by decide +kernel, by decide⟩

end Tesseract.L3.HnswIndex
