import Tesseract.Core.StableSort
import Tesseract.L3Index.HnswEdges
import Tesseract.L3Index.HnswInvariant

/-!
# The nearest nodes of the HNSW index

Two loops of `tesseract-index/src/hnsw.rs` follow the distances alone: the greedy descent
of a layer (lines 331-378) and the trimming of an edge list (lines 503-516).

* `greedyRound_still`: a round that moves nowhere saw no live neighbour that is closer.
* `greedyLoop_minimum`, `greedySearchLayer_minimum`: so the descent ends at a local minimum,
  no farther than its start.
* `shrinkConnections_keeps`: a trimmed list keeps as many edges as it may, none of them
  farther than one it drops.
-/
namespace Tesseract.L3.HnswIndex

variable {β : Type} [F32 β]

/-! ## Greedy descent -/

section Greedy

variable {f : List β → List β → β} {idx : HnswIndex β} {query : List β} {layer : Nat}

/-- A node of the layer with its distance, no farther than the start, and with no live
neighbour that is closer. -/
structure LocalMinimum (f : List β → List β → β) (idx : HnswIndex β) (query : List β)
    (layer start : Nat) (r : Nat × β) : Prop where
  hasLayer : idx.HasLayer r.1 layer
  dist : idx.distTo f query r.1 = some r.2
  near : ∃ d, idx.distTo f query start = some d ∧ F32.le r.2 d = true
  least : ∀ es, idx.edgesAt r.1 layer = some es → ∀ n ∈ es, idx.deleted[n]? = some false →
    ∀ d, idx.distTo f query n = some d → F32.lt d r.2 = false

theorem greedyRound_changed : ∀ (es : List Nat) {curr curr' : Nat} {d d' : β} {changed : Bool},
    greedyRound f idx query es curr d true = some (curr', d', changed) → changed = true := by
  intro es
  induction es with
  | nil =>
    intro curr curr' d d' changed h
    cases h
    rfl
  | cons n es ih =>
    intro curr curr' d d' changed h
    rw [greedyRound] at h
    simp only [Option.bind_eq_bind, Option.bind_eq_some_iff] at h
    obtain ⟨b, _, h⟩ := h
    cases b with
    | true => exact ih h
    | false =>
      simp only [Bool.false_eq_true, if_false, Option.bind_eq_some_iff] at h
      obtain ⟨e, _, h⟩ := h
      split at h
      · exact ih h
      · exact ih h

theorem greedyRound_still : ∀ (es : List Nat) {curr curr' : Nat} {d d' : β},
    greedyRound f idx query es curr d false = some (curr', d', false) →
    ∀ n ∈ es, idx.deleted[n]? = some false → ∀ e, idx.distTo f query n = some e →
      F32.lt e d = false := by
  intro es
  induction es with
  | nil =>
    intro curr curr' d d' _ n hn
    exact absurd hn (List.not_mem_nil)
  | cons n es ih =>
    intro curr curr' d d' h m hm hlive e he
    rw [greedyRound] at h
    simp only [Option.bind_eq_bind, Option.bind_eq_some_iff] at h
    obtain ⟨b, hb, h⟩ := h
    cases b with
    | true =>
      rcases List.mem_cons.mp hm with rfl | hm
      · rw [hlive] at hb
        cases hb
      · exact ih h m hm hlive e he
    | false =>
      simp only [Bool.false_eq_true, if_false, Option.bind_eq_some_iff] at h
      obtain ⟨e', he', h⟩ := h
      cases hlt : F32.lt e' d with
      | true =>
        rw [hlt, if_pos rfl] at h
        cases greedyRound_changed es h
      | false =>
        rw [hlt, if_neg Bool.false_ne_true] at h
        rcases List.mem_cons.mp hm with rfl | hm
        · rw [he'] at he
          cases he
          exact hlt
        · exact ih h m hm hlive e he

variable [LawfulF32 β]

/-- Where the loop ends: the last round moved nowhere, and every other one moved closer. -/
theorem greedyLoop_minimum (hg : Linked idx) : ∀ (fuel curr : Nat) (d : β) (r : Nat × β),
    greedyLoop f idx query layer fuel curr d = some r → idx.HasLayer curr layer →
    idx.distTo f query curr = some d →
    idx.HasLayer r.1 layer ∧ idx.distTo f query r.1 = some r.2 ∧
      (r.2 = d ∨ F32.lt r.2 d = true) ∧
      ∀ es, idx.edgesAt r.1 layer = some es → ∀ n ∈ es, idx.deleted[n]? = some false →
        ∀ e, idx.distTo f query n = some e → F32.lt e r.2 = false := by
  intro fuel
  induction fuel with
  | zero =>
    intro curr d r h
    cases h
  | succ fuel ih =>
    intro curr d r h hc hd
    obtain ⟨es, hes⟩ := hc
    obtain ⟨c', d', changed, heq, hc', hd', hcase⟩ :=
      greedyRound_some hg es curr d false (hg.targets curr layer es hes) ⟨es, hes⟩ hd
    rw [greedyLoop, hes] at h
    simp only [Option.bind_eq_bind, Option.bind_some, heq] at h
    rcases hcase with ⟨rfl, rfl, rfl⟩ | ⟨rfl, hlt⟩
    · cases h
      refine ⟨hc', hd', .inl rfl, fun es' hes' => ?_⟩
      rw [hes] at hes'
      cases hes'
      exact greedyRound_still es heq
    · obtain ⟨hlayer, hdist, hnear, hleast⟩ := ih c' d' r h hc' hd'
      refine ⟨hlayer, hdist, .inr ?_, hleast⟩
      rcases hnear with heq' | hlt'
      · rw [heq']
        exact hlt
      · exact LawfulF32.lt_trans _ _ _ hlt' hlt

theorem greedyWith_minimum [SwapF32 β] (hg : Linked idx) {start : Nat}
    (hs : idx.HasLayer start layer)
    (hnan : ∀ v ∈ idx.vectors, F32.isNaN (f v query) = false) :
    ∃ r, greedyWith f idx start query layer = some r ∧
      LocalMinimum f idx query layer start r := by
  obtain ⟨curr, dist, hsome, _⟩ := greedyWith_some hg f query hs
  obtain ⟨d, hd⟩ := hg.distTo f query hs.lt
  have hloop := hsome
  rw [greedyWith, hd] at hloop
  obtain ⟨hlayer, hdist, hnear, hleast⟩ := greedyLoop_minimum hg _ start d _ hloop hs hd
  refine ⟨_, hsome, hlayer, hdist, ⟨d, hd, ?_⟩, hleast⟩
  obtain ⟨v, hv, rfl⟩ := Option.map_eq_some_iff.mp hd
  rcases hnear with heq | hlt
  · rw [heq]
    exact F32.le_refl (hnan v (List.mem_of_getElem? hv))
  · exact F32.le_iff.mpr (.inl (F32.lt_iff.mp hlt))

/-- On an index with the invariant both descents end, at a local minimum of their distance. -/
theorem greedySearchLayer_minimum [SwapF32 β] (D : DistanceComputer β) (hinv : Inv idx)
    {start : Nat} (hs : idx.HasLayer start layer) (query : List β) :
    ((∀ v ∈ idx.vectors, F32.isNaN (D.distance v query) = false) →
      ∃ r, idx.greedySearchLayer D start query layer = some r ∧
        LocalMinimum D.distance idx query layer start r) ∧
    ∀ weights, (∀ v ∈ idx.vectors, F32.isNaN (D.distanceWeighted v query weights) = false) →
      ∃ r, idx.greedySearchLayerWeighted D start query layer weights = some r ∧
        LocalMinimum (fun a b => D.distanceWeighted a b weights) idx query layer start r :=
  ⟨greedyWith_minimum hinv.wf.linked hs, fun weights =>
    greedyWith_minimum (f := fun a b => D.distanceWeighted a b weights) hinv.wf.linked hs⟩

/-- From the first node of the bridge, past the removed one. -/
theorem greedySearchLayer_bridge : ∃ r,
    bridge.greedySearchLayer lineComputer 0 [.fin 10] 0 = some r ∧
    LocalMinimum lineComputer.distance bridge [.fin 10] 0 0 r :=
  have hs : bridge.HasLayer 0 0 := ⟨[1], by decide +kernel⟩
  (greedySearchLayer_minimum lineComputer calls_inv_bridge.1 hs [.fin 10]).1
    fun v _ => lineComputer_nanFree.distance v [.fin 10]

end Greedy

/-! ## Trimming -/

section Shrink

variable [LawfulF32 β] [SwapF32 β] [OrderF32 β]

/-- Behind the sort the first pairs are no farther than the others. -/
theorem sortByDistance_split {κ : Type} {xs sorted : List (κ × β)}
    (h : sortByDistance xs = some sorted) (hnan : ∀ p ∈ xs, F32.isNaN p.2 = false) (m : Nat) :
    sorted.Perm xs ∧ ∀ p ∈ sorted.take m, ∀ q ∈ sorted.drop m, F32.le p.2 q.2 = true := by
  unfold sortByDistance at h
  split at h
  · cases h
  · cases h
    refine ⟨List.perm_insertionSort _ _, ?_⟩
    have hsorted := pairwise_insertionSort_float hnan
    rw [← List.take_append_drop m (xs.insertionSort _), List.pairwise_append] at hsorted
    exact hsorted.2.2

/-- A trimmed list is what it was without some of its edges, as long as it may be, with no
edge to a node that is farther than one it dropped. Nothing else of the index changes. -/
theorem shrinkConnections_keeps (D : DistanceComputer β) {idx : HnswIndex β} (hg : Linked idx)
    {i layer : Nat} {es : List Nat} (hes : idx.edgesAt i layer = some es)
    (hnan : ∀ n ∈ es, F32.isNaN (D.distance (idx.vectorAt i) (idx.vectorAt n)) = false) :
    ∃ idx' kept dropped, idx.shrinkConnections D i layer = some idx' ∧
      idx'.edgesAt i layer = some kept ∧ es.Perm (kept ++ dropped) ∧
      kept.length = min es.length (idx.maxConn layer) ∧
      (∀ n ∈ kept, ∀ m ∈ dropped, F32.le (D.distance (idx.vectorAt i) (idx.vectorAt n))
        (D.distance (idx.vectorAt i) (idx.vectorAt m)) = true) ∧
      (∀ k l, ¬ (k = i ∧ l = layer) → idx'.edgesAt k l = idx.edgesAt k l) ∧
      Rewired idx idx' := by
  have heq := shrinkConnections_eq (D := D) hg hes
  by_cases hle : es.length ≤ idx.maxConn layer
  · rw [if_pos hle] at heq
    refine ⟨idx, es, [], heq, hes, by rw [List.append_nil], by omega, ?_, fun _ _ _ => rfl,
      Rewired.refl idx⟩
    intro n _ m hm
    exact absurd hm (List.not_mem_nil)
  · rw [if_neg hle] at heq
    have hranked : ∀ p ∈ ranked D idx i es, F32.isNaN p.2 = false := by
      intro p hp
      obtain ⟨n, hn, rfl⟩ := List.mem_map.mp hp
      exact hnan n hn
    obtain ⟨sorted, hsort⟩ := sortByDistance_some hranked
    obtain ⟨hperm, hnear⟩ := sortByDistance_split hsort hranked (idx.maxConn layer)
    rw [hsort, Option.map_some] at heq
    have hlayer : idx.HasLayer i layer := ⟨es, hes⟩
    have hedges := edgesAt_setEdges hlayer ((sorted.take (idx.maxConn layer)).map Prod.fst)
    -- the distance of a pair is that of its node
    have hdist : ∀ p ∈ sorted, p.2 = D.distance (idx.vectorAt i) (idx.vectorAt p.1) := by
      intro p hp
      obtain ⟨n, _, rfl⟩ := List.mem_map.mp (hperm.mem_iff.mp hp)
      rfl
    have hfst : (ranked D idx i es).map Prod.fst = es := by simp [ranked, Function.comp_def]
    refine ⟨_, _, (sorted.drop (idx.maxConn layer)).map Prod.fst, heq,
      (hedges i layer).trans (if_pos ⟨rfl, rfl⟩), ?_, ?_, ?_,
      fun k l hkl => (hedges k l).trans (if_neg hkl), setEdges_rewired idx i layer _⟩
    · rw [← List.map_append, List.take_append_drop, ← hfst]
      exact (hperm.map Prod.fst).symm
    · have hlen := (hperm.map Prod.fst).length_eq
      rw [hfst, List.length_map] at hlen
      rw [List.length_map, List.length_take, hlen]
      omega
    · intro n hn m hm
      obtain ⟨p, hp, rfl⟩ := List.mem_map.mp hn
      obtain ⟨q, hq, rfl⟩ := List.mem_map.mp hm
      have hpq := hnear p hp q hq
      rwa [hdist p (List.mem_of_mem_take hp), hdist q (List.mem_of_mem_drop hq)] at hpq

/-- The bridge, with room for one edge. -/
def narrow : HnswIndex Lit := { bridge with config := ⟨1, 1, 1, .euclidean⟩ }

theorem narrow_linked : Linked narrow :=
  have hg := calls_inv_bridge.1.wf.linked
  ⟨hg.vectors, hg.deleted, hg.targets⟩

/-- The two neighbours of the middle node are equally far. -/
theorem shrinkConnections_narrow : ∃ idx' kept dropped,
    narrow.shrinkConnections lineComputer 1 0 = some idx' ∧
    idx'.edgesAt 1 0 = some kept ∧ [0, 2].Perm (kept ++ dropped) ∧ kept.length = 1 := by
  obtain ⟨idx', kept, dropped, hshrink, hkept, hperm, hlen, _⟩ :=
    shrinkConnections_keeps lineComputer narrow_linked
      (by decide +kernel : narrow.edgesAt 1 0 = some [0, 2])
      fun n _ => lineComputer_nanFree.distance _ _
  exact ⟨idx', kept, dropped, hshrink, hkept, hperm, hlen.trans (by decide +kernel)⟩

end Shrink

end Tesseract.L3.HnswIndex
