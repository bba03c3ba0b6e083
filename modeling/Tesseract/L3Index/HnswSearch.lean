import Tesseract.L3Index.Hnsw

/-!
# The searches of the HNSW index end

`Linked` is what the code relies on when it follows edges: a neighbour at a
layer is a node that has the layer.

* `greedyWith_some`: the greedy descent ends, because every round that goes on
  leaves fewer vectors closer to the query.
* `searchWith_some`: the search of a layer ends, because a node becomes a
  candidate at most once.

Both end at nodes of the layer.
-/
namespace Tesseract.L3.HnswIndex

variable {β : Type}

/-- Node `i` has the layer. -/
def HasLayer (idx : HnswIndex β) (i layer : Nat) : Prop := ∃ es, idx.edgesAt i layer = some es

structure Linked (idx : HnswIndex β) : Prop where
  vectors : idx.vectors.length = idx.nodes.length
  deleted : idx.deleted.length = idx.nodes.length
  targets : ∀ i layer es, idx.edgesAt i layer = some es → ∀ j ∈ es, idx.HasLayer j layer

theorem hasLayer_iff {idx : HnswIndex β} {i layer : Nat} :
    idx.HasLayer i layer ↔ ∃ node, idx.nodes[i]? = some node ∧ layer < node.edges.length := by
  unfold HasLayer edgesAt
  constructor
  · intro ⟨es, hes⟩
    rw [Option.bind_eq_some_iff] at hes
    obtain ⟨node, hnode, hes⟩ := hes
    exact ⟨node, hnode, (List.getElem?_eq_some_iff.mp hes).1⟩
  · intro ⟨node, hnode, hlt⟩
    exact ⟨node.edges[layer], by rw [hnode, Option.bind_some, List.getElem?_eq_getElem hlt]⟩

theorem HasLayer.lt {idx : HnswIndex β} {i layer : Nat} (h : idx.HasLayer i layer) :
    i < idx.nodes.length := by
  obtain ⟨node, hnode, _⟩ := hasLayer_iff.mp h
  exact (List.getElem?_eq_some_iff.mp hnode).1

theorem HasLayer.mono {idx : HnswIndex β} {i layer layer' : Nat} (h : idx.HasLayer i layer)
    (hle : layer' ≤ layer) :
    idx.HasLayer i layer' := by
  obtain ⟨node, hnode, hlt⟩ := hasLayer_iff.mp h
  exact hasLayer_iff.mpr ⟨node, hnode, by omega⟩

theorem Linked.distTo {idx : HnswIndex β} (hg : Linked idx) (f : List β → List β → β)
    (query : List β) {i : Nat} (hi : i < idx.nodes.length) :
    ∃ d, idx.distTo f query i = some d := by
  have hlt : i < idx.vectors.length := by rw [hg.vectors]; exact hi
  exact ⟨f idx.vectors[i] query, by rw [HnswIndex.distTo, List.getElem?_eq_getElem hlt]; rfl⟩

theorem Linked.deletedAt {idx : HnswIndex β} (hg : Linked idx) {i : Nat}
    (hi : i < idx.nodes.length) :
    ∃ b, idx.deleted[i]? = some b := by
  have hlt : i < idx.deleted.length := by rw [hg.deleted]; exact hi
  exact ⟨_, List.getElem?_eq_getElem hlt⟩

section Search

variable [F32 β] {f : List β → List β → β} {idx : HnswIndex β} {query : List β} {layer : Nat}

/-! ## Greedy descent -/

/-- A round stays where it is or moves to a closer node of the layer. -/
theorem greedyRound_some [LawfulF32 β] (hg : Linked idx) :
    ∀ es curr d changed, (∀ j ∈ es, idx.HasLayer j layer) →
    idx.HasLayer curr layer → idx.distTo f query curr = some d →
    ∃ curr' d' changed', greedyRound f idx query es curr d changed = some (curr', d', changed') ∧
      idx.HasLayer curr' layer ∧ idx.distTo f query curr' = some d' ∧
      ((curr' = curr ∧ d' = d ∧ changed' = changed) ∨ (changed' = true ∧ F32.lt d' d = true)) := by
  intro es
  induction es with
  | nil => exact fun curr d changed _ hc hd => ⟨curr, d, changed, rfl, hc, hd, .inl ⟨rfl, rfl, rfl⟩⟩
  | cons n es ih =>
    intro curr d changed hes hc hd
    have hn := hes n (by simp)
    have hes' := fun j hj => hes j (List.mem_cons_of_mem n hj)
    obtain ⟨b, hb⟩ := hg.deletedAt hn.lt
    obtain ⟨e, he⟩ := hg.distTo f query hn.lt
    rw [greedyRound, hb]
    cases b with
    | true => exact ih curr d changed hes' hc hd
    | false =>
      simp only [Option.bind_eq_bind, Option.bind_some, Bool.false_eq_true, if_false, he]
      cases hlt : F32.lt e d with
      | false => exact ih curr d changed hes' hc hd
      | true =>
        obtain ⟨c', d', ch', heq, hc', hd', hcase⟩ := ih n e true hes' hn he
        refine ⟨c', d', ch', heq, hc', hd', .inr ?_⟩
        rcases hcase with ⟨_, rfl, rfl⟩ | ⟨rfl, hd''⟩
        · exact ⟨rfl, hlt⟩
        · exact ⟨rfl, LawfulF32.lt_trans d' e d hd'' hlt⟩

/-- How many stored vectors are closer to the query than `d`. -/
def closer (f : List β → List β → β) (idx : HnswIndex β) (query : List β) (d : β) : Nat :=
  idx.vectors.countP fun v => F32.lt (f v query) d

theorem closer_lt [LawfulF32 β] {i : Nat} {d d' : β} (hi : idx.distTo f query i = some d')
    (hlt : F32.lt d' d = true) : closer f idx query d' < closer f idx query d := by
  rw [HnswIndex.distTo, Option.map_eq_some_iff] at hi
  obtain ⟨v, hv, rfl⟩ := hi
  have hmem := List.mem_of_getElem? hv
  obtain ⟨front, back, hsplit⟩ := List.append_of_mem hmem
  unfold closer
  rw [hsplit, List.countP_append, List.countP_append, List.countP_cons, List.countP_cons, hlt,
    LawfulF32.lt_irrefl]
  -- the node at distance `d'` is closer than `d` and not closer than itself
  have hfront := List.countP_mono_left (l := front) fun u _ hu =>
    LawfulF32.lt_trans (f u query) (f v query) d hu hlt
  have hback := List.countP_mono_left (l := back) fun u _ hu =>
    LawfulF32.lt_trans (f u query) (f v query) d hu hlt
  simp only [Bool.false_eq_true, if_false, if_true]
  omega

theorem greedyLoop_some [LawfulF32 β] (hg : Linked idx) :
    ∀ fuel curr d, closer f idx query d < fuel →
    idx.HasLayer curr layer → idx.distTo f query curr = some d →
    ∃ curr' d', greedyLoop f idx query layer fuel curr d = some (curr', d') ∧
      idx.HasLayer curr' layer := by
  intro fuel
  induction fuel with
  | zero => intro curr d hf; omega
  | succ fuel ih =>
    intro curr d hf hc hd
    obtain ⟨es, hes⟩ := hc
    obtain ⟨c', d', ch', heq, hc', hd', hcase⟩ :=
      greedyRound_some hg es curr d false (hg.targets curr layer es hes) ⟨es, hes⟩ hd
    rw [greedyLoop, hes]
    simp only [Option.bind_eq_bind, Option.bind_some, heq]
    rcases hcase with ⟨rfl, rfl, rfl⟩ | ⟨rfl, hlt⟩
    · exact ⟨c', d', rfl, hc'⟩
    · have := closer_lt hd' hlt
      exact ih c' d' (by omega) hc' hd'

theorem greedyWith_some [LawfulF32 β] (hg : Linked idx) (f : List β → List β → β) (query : List β)
    {start : Nat} (hs : idx.HasLayer start layer) :
    ∃ curr d, greedyWith f idx start query layer = some (curr, d) ∧ idx.HasLayer curr layer := by
  obtain ⟨d, hd⟩ := hg.distTo f query hs.lt
  have hle : closer f idx query d ≤ idx.nodes.length := by
    rw [← hg.vectors]
    exact List.countP_le_length
  rw [greedyWith, hd]
  exact greedyLoop_some hg _ start d (by omega) hs hd

/-! ## Search of one layer -/

/-- What the heaps and the visited flags of a search hold. -/
structure Searching (idx : HnswIndex β) (layer : Nat) (s : LayerSearch β) : Prop where
  visited : s.visited.length = idx.nodes.length
  candidates : ∀ p ∈ s.candidates, idx.HasLayer p.2 layer
  results : ∀ p ∈ s.results, idx.HasLayer p.2 layer
  nonempty : s.results ≠ []

/-- Every candidate was visited first: this never grows, and a round of the
search takes one candidate away. -/
def LayerSearch.rest (s : LayerSearch β) : Nat := s.candidates.length + s.visited.count false

theorem Searching.accept {s : LayerSearch β} (h : Searching idx layer s) (ef : Nat) (d : β)
    {n : Nat} (hn : idx.HasLayer n layer) :
    Searching idx layer (s.accept ef d n) ∧ (s.accept ef d n).visited = s.visited ∧
      (s.accept ef d n).candidates.length = s.candidates.length + 1 := by
  have hc := BinaryHeap.push_perm cmpReverse s.candidates (d, n)
  have hr := BinaryHeap.push_perm cmpDist s.results (d, n)
  have hcand : ∀ p ∈ BinaryHeap.push cmpReverse s.candidates (d, n), idx.HasLayer p.2 layer := by
    intro p hp
    rcases List.mem_cons.mp (hc.mem_iff.mp hp) with rfl | hp
    · exact hn
    · exact h.candidates p hp
  have hres : ∀ p ∈ BinaryHeap.push cmpDist s.results (d, n), idx.HasLayer p.2 layer := by
    intro p hp
    rcases List.mem_cons.mp (hr.mem_iff.mp hp) with rfl | hp
    · exact hn
    · exact h.results p hp
  unfold LayerSearch.accept
  dsimp only
  split
  · cases hpop : BinaryHeap.pop cmpDist (BinaryHeap.push cmpDist s.results (d, n)) with
    | none =>
      have hnil := (BinaryHeap.pop_eq_none cmpDist).mp hpop
      have hlen := hr.length_eq
      rw [hnil] at hlen
      simp at hlen
    | some popped =>
      obtain ⟨top, rest⟩ := popped
      have hperm := BinaryHeap.pop_perm cmpDist hpop
      refine ⟨⟨h.visited, hcand, ?_, ?_⟩, rfl, ?_⟩
      · intro p hp
        exact hres p (hperm.mem_iff.mpr (List.mem_cons_of_mem top hp))
      · -- two results before the pop leave one
        have hlen := hr.length_eq.symm.trans hperm.length_eq
        have hpos := List.length_pos_of_ne_nil h.nonempty
        rw [List.length_cons, List.length_cons] at hlen
        show rest ≠ []
        exact List.ne_nil_of_length_pos (by omega)
      · show (BinaryHeap.push cmpReverse s.candidates (d, n)).length = _
        rw [hc.length_eq, List.length_cons]
  · refine ⟨⟨h.visited, hcand, hres, ?_⟩, rfl, ?_⟩
    · have hlen := hr.length_eq
      show BinaryHeap.push cmpDist s.results (d, n) ≠ []
      exact List.ne_nil_of_length_pos (by rw [hlen, List.length_cons]; omega)
    · show (BinaryHeap.push cmpReverse s.candidates (d, n)).length = _
      rw [hc.length_eq, List.length_cons]

theorem Searching.accepts {s : LayerSearch β} (h : Searching idx layer s) (ef : Nat) (d : β) :
    ∃ b, s.accepts ef d = some b := by
  unfold LayerSearch.accepts
  split
  · exact ⟨true, rfl⟩
  · obtain ⟨top, rest, hres⟩ := List.exists_cons_of_ne_nil h.nonempty
    exact ⟨F32.lt d top.1, by rw [hres]; rfl⟩

/-- Visiting a node uses up one unvisited flag. -/
theorem count_visit {visited : List Bool} {n : Nat} (h : visited[n]? = some false) :
    (visited.set n true).count false + 1 = visited.count false := by
  obtain ⟨hlt, hn⟩ := List.getElem?_eq_some_iff.mp h
  have hpos : 0 < visited.count false := List.count_pos_iff.mpr (hn ▸ List.getElem_mem hlt)
  rw [List.count_set hlt, hn]
  simp
  omega

theorem visitNeighbors_some (hg : Linked idx) (f : List β → List β → β) (query : List β)
    (ef : Nat) :
    ∀ es (s : LayerSearch β),
    (∀ j ∈ es, idx.HasLayer j layer) → Searching idx layer s →
    ∃ s', visitNeighbors f idx query ef es s = some s' ∧ Searching idx layer s' ∧
      s'.rest ≤ s.rest := by
  intro es
  induction es with
  | nil => exact fun s _ hs => ⟨s, rfl, hs, Nat.le_refl _⟩
  | cons n es ih =>
    intro s hes hs
    have hn := hes n (by simp)
    have hes' := fun j hj => hes j (List.mem_cons_of_mem n hj)
    have hvis : n < s.visited.length := by rw [hs.visited]; exact hn.lt
    obtain ⟨b, hb⟩ := hg.deletedAt hn.lt
    obtain ⟨d, hd⟩ := hg.distTo f query hn.lt
    rw [visitNeighbors, List.getElem?_eq_getElem hvis]
    simp only [Option.bind_eq_bind, Option.bind_some, hb, hd]
    cases hv : s.visited[n] with
    | true => exact ih s hes' hs
    | false =>
      cases b with
      | true => exact ih s hes' hs
      | false =>
        simp only [Bool.false_eq_true, if_false]
        have hcount := count_visit (List.getElem?_eq_some_iff.mpr ⟨hvis, hv⟩)
        have hs' : Searching idx layer { s with visited := s.visited.set n true } :=
          ⟨by rw [List.length_set]; exact hs.visited, hs.candidates, hs.results, hs.nonempty⟩
        obtain ⟨b', hb'⟩ := hs'.accepts ef d
        rw [hb', Option.bind_some]
        cases b' with
        | false =>
          obtain ⟨s'', heq, hs'', hle⟩ := ih _ hes' hs'
          refine ⟨s'', heq, hs'', ?_⟩
          simp only [LayerSearch.rest] at hle ⊢
          omega
        | true =>
          obtain ⟨hacc, hvisited, hlen⟩ := hs'.accept ef d hn
          obtain ⟨s'', heq, hs'', hle⟩ := ih _ hes' hacc
          refine ⟨s'', heq, hs'', ?_⟩
          simp only [LayerSearch.rest, hvisited, hlen] at hle ⊢
          omega

theorem searchLoop_some (hg : Linked idx) (f : List β → List β → β) (query : List β) (ef : Nat) :
    ∀ fuel (s : LayerSearch β), Searching idx layer s → s.rest < fuel →
    ∃ s', searchLoop f idx query ef layer fuel s = some s' ∧ Searching idx layer s' := by
  intro fuel
  induction fuel with
  | zero => intro s _ hf; omega
  | succ fuel ih =>
    intro s hs hf
    rw [searchLoop]
    cases hpop : BinaryHeap.pop cmpReverse s.candidates with
    | none => exact ⟨s, rfl, hs⟩
    | some popped =>
      obtain ⟨⟨d, i⟩, candidates⟩ := popped
      have hperm := BinaryHeap.pop_perm cmpReverse hpop
      have hs' : Searching idx layer { s with candidates := candidates } :=
        ⟨hs.visited, fun p hp => hs.candidates p (hperm.mem_iff.mpr (List.mem_cons_of_mem _ hp)),
          hs.results, hs.nonempty⟩
      dsimp only
      split
      · exact ⟨_, rfl, hs'⟩
      · obtain ⟨es, hes⟩ := hs.candidates (d, i) (hperm.mem_iff.mpr List.mem_cons_self)
        obtain ⟨s'', heq, hs'', hle⟩ :=
          visitNeighbors_some hg f query ef es _ (hg.targets i layer es hes) hs'
        have hlen := hperm.length_eq
        rw [List.length_cons] at hlen
        rw [hes]
        simp only [Option.bind_eq_bind, Option.bind_some, heq]
        apply ih s'' hs''
        simp only [LayerSearch.rest] at hle hf ⊢
        omega

/-- A search of a layer from a node of the layer ends with nodes of the layer. -/
theorem searchWith_some (hg : Linked idx) (f : List β → List β → β) (query : List β) {start : Nat}
    (hs : idx.HasLayer start layer) (ef : Nat) :
    ∃ rs, searchWith f idx start query ef layer = some rs ∧ ∀ p ∈ rs, idx.HasLayer p.1 layer := by
  obtain ⟨d, hd⟩ := hg.distTo f query hs.lt
  have hpush : ∀ cmp : β × Nat → β × Nat → Ordering, BinaryHeap.push cmp [] (d, start) =
    [(d, start)] :=
    fun cmp => List.perm_singleton.mp (BinaryHeap.push_perm cmp [] (d, start))
  have hflag : (List.replicate idx.nodes.length false)[start]? = some false := by
    rw [List.getElem?_replicate, if_pos hs.lt]
  have hcount := count_visit hflag
  rw [List.count_replicate_self] at hcount
  obtain ⟨s, heq, hsearch⟩ := searchLoop_some hg f query ef (idx.nodes.length + 1)
    ⟨(List.replicate idx.nodes.length false).set start true, [(d, start)], [(d, start)]⟩
    ⟨by simp, by simpa using hs, by simpa using hs, by simp⟩
    (by simp only [LayerSearch.rest, List.length_singleton]; omega)
  rw [searchWith, hd]
  simp only [Option.bind_eq_bind, Option.bind_some, hpush, hs.lt, guard, if_true, heq,
    Option.pure_def]
  refine ⟨_, rfl, ?_⟩
  intro p hp
  obtain ⟨q, hq, rfl⟩ := List.mem_map.mp hp
  exact hsearch.results q ((BinaryHeap.intoSortedVec_perm cmpDist s.results).mem_iff.mp hq)

end Search

end Tesseract.L3.HnswIndex
