import Tesseract.L3Index.HnswSearch

/-!
# What `insert` changes in the HNSW index

Connecting a node rewires edges and touches nothing else (`Rewired`), so the
table of ids and vectors is what the head of `insert` makes of it.

* `connect_frame`: connecting leaves ids and vectors alone.
* `insert_cases`: a vector of the wrong length is refused, else it replaces the
  one of its id or is appended.
* `insert_vectorOf`: an `insert` that returns `Ok` stores the vector under its
  id and leaves every other id alone.
-/
namespace Tesseract.L3.HnswIndex

variable {α β : Type}

/-! ## Rewiring -/

/-- Only the targets of edges differ: every node keeps its number of layers. -/
structure Rewired (idx idx' : HnswIndex β) : Prop where
  rest : { idx' with nodes := idx.nodes } = idx
  layers : (idx'.nodes.map fun node => node.edges.length) = idx.nodes.map fun node =>
    node.edges.length

namespace Rewired

variable {idx idx' idx'' : HnswIndex β}

theorem refl (idx : HnswIndex β) : Rewired idx idx := ⟨rfl, rfl⟩

theorem trans (h : Rewired idx idx') (h' : Rewired idx' idx'') : Rewired idx idx'' := by
  refine ⟨?_, h'.layers.trans h.layers⟩
  have hrest := congrArg (fun i : HnswIndex β => { i with nodes := idx.nodes }) h'.rest
  exact hrest.trans h.rest

theorem vectors (h : Rewired idx idx') : idx'.vectors = idx.vectors := by
  have hrest := congrArg HnswIndex.vectors h.rest
  exact hrest

theorem idToNode (h : Rewired idx idx') : idx'.idToNode = idx.idToNode := by
  have hrest := congrArg HnswIndex.idToNode h.rest
  exact hrest

theorem dim (h : Rewired idx idx') : idx'.dim = idx.dim := by
  have hrest := congrArg HnswIndex.dim h.rest
  exact hrest

theorem config (h : Rewired idx idx') : idx'.config = idx.config := by
  have hrest := congrArg HnswIndex.config h.rest
  exact hrest

theorem deleted (h : Rewired idx idx') : idx'.deleted = idx.deleted := by
  have hrest := congrArg HnswIndex.deleted h.rest
  exact hrest

theorem maxConn (h : Rewired idx idx') (layer : Nat) : idx'.maxConn layer = idx.maxConn layer := by
  rw [HnswIndex.maxConn, HnswIndex.maxConn, h.config]

theorem entry (h : Rewired idx idx') :
    idx'.entryPoint = idx.entryPoint ∧ idx'.maxLayer = idx.maxLayer := by
  have hentry := congrArg HnswIndex.entryPoint h.rest
  have hmax := congrArg HnswIndex.maxLayer h.rest
  exact ⟨hentry, hmax⟩

theorem length (h : Rewired idx idx') : idx'.nodes.length = idx.nodes.length := by
  simpa using congrArg List.length h.layers

theorem hasLayer (h : Rewired idx idx') {i layer : Nat} :
    idx'.HasLayer i layer ↔ idx.HasLayer i layer := by
  have hmap : ∀ x : HnswIndex β, x.HasLayer i layer ↔
      ∃ n, (x.nodes.map fun node => node.edges.length)[i]? = some n ∧ layer < n := by
    intro x
    rw [hasLayer_iff]
    simp only [List.getElem?_map, Option.map_eq_some_iff]
    constructor
    · intro ⟨node, hnode, hlt⟩
      exact ⟨_, ⟨node, hnode, rfl⟩, hlt⟩
    · intro ⟨n, ⟨node, hnode, hn⟩, hlt⟩
      exact ⟨node, hnode, by omega⟩
  rw [hmap, hmap, h.layers]

end Rewired

theorem setEdges_rewired (idx : HnswIndex β) (i layer : Nat) (es : List Nat) :
    Rewired idx (idx.setEdges i layer es) := by
  refine ⟨rfl, List.ext_getElem? ?_⟩
  intro j
  simp only [setEdges, List.getElem?_map, List.getElem?_modify]
  cases idx.nodes[j]? with
  | none => rfl
  | some node => by_cases h : i = j <;> simp [h]

theorem edgesAt_setEdges {idx : HnswIndex β} {i layer : Nat} (h : idx.HasLayer i layer)
    (es : List Nat) (j l : Nat) :
    (idx.setEdges i layer es).edgesAt j l =
      if j = i ∧ l = layer then some es else idx.edgesAt j l := by
  obtain ⟨node, hnode, hlt⟩ := hasLayer_iff.mp h
  unfold edgesAt setEdges
  dsimp only
  rw [List.getElem?_modify]
  by_cases hj : j = i
  · subst hj
    rw [hnode]
    simp only [if_true, Option.map_eq_map, Option.map_some, Option.bind_some, true_and]
    by_cases hl : l = layer
    · subst hl
      rw [if_pos rfl, List.getElem?_set_self hlt]
    · rw [if_neg hl, List.getElem?_set_ne (fun h => hl h.symm)]
  · rw [if_neg (fun hc => hj hc.1)]
    simp only [show i ≠ j from fun hc => hj hc.symm, if_false]
    cases idx.nodes[j]? <;> rfl

/-! ## The vector of an id -/

/-- The vector stored for `id`. -/
def vectorOf (idx : HnswIndex β) (id : UInt64) : Option (List β) :=
  (idx.idToNode.findIdx? (· == id)).bind fun i => idx.vectors[i]?

/-! A column `xs` beside the ids, looked up by id. -/

theorem column_set {τ : Type} {ids : List UInt64} {xs : List τ} {i : Nat} {id : UInt64}
    (hi : ids.findIdx? (· == id) = some i) (hlt : i < xs.length) (x : τ) (j : UInt64) :
    ((ids.findIdx? (· == j)).bind fun k => (xs.set i x)[k]?) =
      if j = id then some x else (ids.findIdx? (· == j)).bind fun k => xs[k]? := by
  by_cases hj : j = id
  · subst hj
    rw [if_pos rfl, hi, Option.bind_some, List.getElem?_set_self hlt]
  · rw [if_neg hj]
    cases hk : ids.findIdx? (· == j) with
    | none => rfl
    | some k =>
      -- another id stands at another place
      have hne : i ≠ k := by
        intro he
        obtain ⟨hl, hik, _⟩ := List.findIdx?_eq_some_iff_getElem.mp hi
        obtain ⟨_, hkk, _⟩ := List.findIdx?_eq_some_iff_getElem.mp hk
        subst he
        rw [beq_iff_eq] at hik hkk
        exact hj (hkk.symm.trans hik)
      rw [Option.bind_some, Option.bind_some, List.getElem?_set_ne hne]

theorem column_append {τ : Type} {ids : List UInt64} {xs : List τ} {id : UInt64}
    (hlen : ids.length = xs.length) (hnone : ids.findIdx? (· == id) = none) (x : τ) (j : UInt64) :
    (((ids ++ [id]).findIdx? (· == j)).bind fun k => (xs ++ [x])[k]?) =
      if j = id then some x else (ids.findIdx? (· == j)).bind fun k => xs[k]? := by
  rw [List.findIdx?_append]
  by_cases hj : j = id
  · subst hj
    rw [if_pos rfl, hnone, List.findIdx?_singleton, hlen]
    simp
  · rw [if_neg hj]
    cases hk : ids.findIdx? (· == j) with
    | none =>
      have hne : (id == j) = false := by simpa using fun hc : id = j => hj hc.symm
      rw [List.findIdx?_singleton, hne]
      rfl
    | some k =>
      obtain ⟨hl, _⟩ := List.findIdx?_eq_some_iff_getElem.mp hk
      rw [Option.some_or, Option.bind_some, Option.bind_some,
        List.getElem?_append_left (by rw [← hlen]; exact hl)]

theorem pushEdge_rewired {idx idx' : HnswIndex β} {i layer j : Nat}
    (h : idx.pushEdge i layer j = some idx') :
    Rewired idx idx' := by
  unfold pushEdge at h
  simp only [Option.bind_eq_bind, Option.bind_eq_some_iff, Option.some.injEq] at h
  obtain ⟨es, _, rfl⟩ := h
  exact setEdges_rewired idx i layer _

theorem linkAll_rewired {nodeIdx layer : Nat} : ∀ ns (idx idx' : HnswIndex β),
    linkAll nodeIdx layer ns idx = some idx' → Rewired idx idx' := by
  intro ns
  induction ns with
  | nil =>
    intro idx idx' h
    cases h
    exact Rewired.refl idx
  | cons n ns ih =>
    intro idx idx' h
    rw [linkAll] at h
    simp only [Option.bind_eq_bind, Option.bind_eq_some_iff] at h
    obtain ⟨idx₁, h₁, idx₂, h₂, h₃⟩ := h
    exact ((pushEdge_rewired h₁).trans (pushEdge_rewired h₂)).trans (ih idx₂ idx' h₃)

section Frame

variable [F32 β] {D : DistanceComputer β}

theorem shrinkConnections_rewired {idx idx' : HnswIndex β} {nodeIdx layer : Nat}
    (h : idx.shrinkConnections D nodeIdx layer = some idx') : Rewired idx idx' := by
  unfold shrinkConnections at h
  simp only [Option.bind_eq_bind, Option.bind_eq_some_iff] at h
  obtain ⟨es, _, h⟩ := h
  split at h
  · cases h
    exact Rewired.refl idx
  · simp only [Option.bind_eq_some_iff, Option.some.injEq] at h
    obtain ⟨_, _, _, _, _, _, rfl⟩ := h
    exact setEdges_rewired idx _ _ _

theorem shrinkAll_rewired {layer : Nat} : ∀ ns (idx idx' : HnswIndex β),
    shrinkAll D layer ns idx = some idx' → Rewired idx idx' := by
  intro ns
  induction ns with
  | nil =>
    intro idx idx' h
    cases h
    exact Rewired.refl idx
  | cons n ns ih =>
    intro idx idx' h
    rw [shrinkAll] at h
    simp only [Option.bind_eq_bind, Option.bind_eq_some_iff] at h
    obtain ⟨idx₁, h₁, h₂⟩ := h
    exact (shrinkConnections_rewired h₁).trans (ih idx₁ idx' h₂)

theorem connectStep_rewired {nodeIdx layer : Nat} {s s' : HnswIndex β × Nat}
    (h : connectStep D nodeIdx s layer = some s') : Rewired s.1 s'.1 := by
  unfold connectStep at h
  simp only [Option.bind_eq_bind, Option.bind_eq_some_iff, Option.some.injEq] at h
  obtain ⟨_, _, _, _, idx₁, h₁, idx₂, h₂, rfl⟩ := h
  exact (linkAll_rewired _ _ _ h₁).trans (shrinkAll_rewired _ _ _ h₂)

theorem connectLayers_rewired {nodeIdx : Nat} : ∀ (layers : List Nat) (s s' : HnswIndex β × Nat),
    layers.foldlM (connectStep D nodeIdx) s = some s' → Rewired s.1 s'.1 := by
  intro layers
  induction layers with
  | nil =>
    intro s s' h
    cases h
    exact Rewired.refl _
  | cons layer layers ih =>
    intro s s' h
    rw [List.foldlM_cons] at h
    simp only [Option.bind_eq_bind, Option.bind_eq_some_iff] at h
    obtain ⟨s₁, h₁, h₂⟩ := h
    exact (connectStep_rewired h₁).trans (ih s₁ s' h₂)

/-- Connecting descends to the layers of the node, connects it there and raises the
entry point if the node rises above it. -/
theorem connect_inv {idx idx' : HnswIndex β} {nodeIdx level : Nat}
    (h : idx.connect D nodeIdx level = some idx') :
    ∃ entry entryNode query curr s, idx.entryPoint = some entry ∧
      idx.nodes[entry]? = some entryNode ∧ idx.vectors[nodeIdx]? = some query ∧
      (layersDown (level + 1) (min idx.maxLayer (entryNode.edges.length - 1))).foldlM
        (idx.descendStep D query) entry = some curr ∧
      (layersDown 0 (min level idx.maxLayer)).foldlM (connectStep D nodeIdx) (idx, curr) = some s ∧
      idx' = if idx.maxLayer < level then
        { s.1 with maxLayer := level, entryPoint := some nodeIdx } else s.1 := by
  unfold connect at h
  simp only [Option.bind_eq_bind, Option.bind_eq_some_iff] at h
  obtain ⟨entry, hentry, entryNode, hnode, query, hquery, curr, hdesc, s, hfold, h⟩ := h
  refine ⟨entry, entryNode, query, curr, s, hentry, hnode, hquery, hdesc, hfold, ?_⟩
  rw [(connectLayers_rewired _ _ _ hfold).entry.2] at h
  split at h
  · next hlt =>
    cases h
    rw [if_pos hlt]
  · next hge =>
    cases h
    rw [if_neg hge]

theorem connect_frame {idx idx' : HnswIndex β} {nodeIdx level : Nat}
    (h : idx.connect D nodeIdx level = some idx') :
    idx'.idToNode = idx.idToNode ∧ idx'.vectors = idx.vectors ∧ idx'.dim = idx.dim := by
  obtain ⟨_, _, _, _, s, _, _, _, _, hfold, rfl⟩ := connect_inv h
  have hr := connectLayers_rewired _ _ _ hfold
  split
  · exact ⟨hr.idToNode, hr.vectors, hr.dim⟩
  · exact ⟨hr.idToNode, hr.vectors, hr.dim⟩

variable [Narrow α β]

/-- The branches of `insert`: a vector of the wrong length, a known id, the first
node, and a node to connect. -/
theorem insert_branches {idx idx' : HnswIndex β} {level : Nat} {id : UInt64} {vector : List α}
    {r : Result Unit} (h : insert D level idx id vector = some (idx', r)) :
    (vector.length ≠ idx.dim ∧ idx' = idx ∧ r = .error (.dimensionMismatch vector.length idx.dim)) ∨
    (vector.length = idx.dim ∧ r = .ok () ∧
      ((∃ i, idx.idToNode.findIdx? (· == id) = some i ∧ i < idx.vectors.length ∧
        idx' = { idx with vectors := idx.vectors.set i (vector.map Narrow.toF32) }) ∨
      (idx.idToNode.findIdx? (· == id) = none ∧ idx.nodes = [] ∧
        idx' = { idx.pushNode (idx.randomLevel level) id (vector.map Narrow.toF32) with
          entryPoint := some 0
          maxLayer := idx.randomLevel level }) ∨
      (idx.idToNode.findIdx? (· == id) = none ∧ idx.nodes ≠ [] ∧
        (idx.pushNode (idx.randomLevel level) id (vector.map Narrow.toF32)).connect D
          idx.nodes.length (idx.randomLevel level) = some idx'))) := by
  unfold insert at h
  split at h
  · next hdim =>
    cases h
    exact .inl ⟨hdim, rfl, rfl⟩
  · next hdim =>
    refine .inr ⟨by simpa using hdim, ?_⟩
    dsimp only at h
    split at h
    · next i hi =>
      split at h
      · next hlt =>
        cases h
        exact ⟨rfl, .inl ⟨i, hi, hlt, rfl⟩⟩
      · cases h
    · next hnone =>
      split at h
      · next hzero =>
        cases h
        exact ⟨rfl, .inr (.inl ⟨hnone, List.length_eq_zero_iff.mp hzero, rfl⟩)⟩
      · next hpos =>
        rw [Option.map_eq_some_iff] at h
        obtain ⟨idx₁, hconn, heq⟩ := h
        cases heq
        exact ⟨rfl, .inr (.inr ⟨hnone, fun hnil => hpos (by rw [hnil]; rfl), hconn⟩)⟩

theorem insert_frame {idx idx' : HnswIndex β} {level : Nat} {id : UInt64} {vector : List α}
    {r : Result Unit} (h : insert D level idx id vector = some (idx', r)) :
    idx'.dim = idx.dim ∧ idx'.config = idx.config := by
  rcases insert_branches h with ⟨_, rfl, _⟩ | ⟨_, _, ⟨_, _, _, rfl⟩ | ⟨_, _, rfl⟩ | ⟨_, _, hconn⟩⟩
  · exact ⟨rfl, rfl⟩
  · exact ⟨rfl, rfl⟩
  · exact ⟨rfl, rfl⟩
  · obtain ⟨_, _, _, _, s, _, _, _, _, hfold, rfl⟩ := connect_inv hconn
    have hr := connectLayers_rewired _ _ _ hfold
    split
    · exact ⟨hr.dim, hr.config⟩
    · exact ⟨hr.dim, hr.config⟩

/-- The table behind an `insert`: nothing on a wrong length, else the vector is
replaced or appended. -/
theorem insert_cases {idx idx' : HnswIndex β} {level : Nat} {id : UInt64} {vector : List α}
    {r : Result Unit} (h : insert D level idx id vector = some (idx', r)) :
    (vector.length ≠ idx.dim ∧ idx' = idx ∧ r = .error (.dimensionMismatch vector.length idx.dim)) ∨
    (vector.length = idx.dim ∧ r = .ok () ∧ idx'.dim = idx.dim ∧
      ((∃ i, idx.idToNode.findIdx? (· == id) = some i ∧ i < idx.vectors.length ∧
        idx'.idToNode = idx.idToNode ∧
          idx'.vectors = idx.vectors.set i (vector.map Narrow.toF32)) ∨
        (idx.idToNode.findIdx? (· == id) = none ∧ idx'.idToNode = idx.idToNode ++ [id] ∧
          idx'.vectors = idx.vectors ++ [vector.map Narrow.toF32]))) := by
  rcases insert_branches h with hbad | ⟨hdim, hr, hcase⟩
  · exact .inl hbad
  · refine .inr ⟨hdim, hr, ?_⟩
    rcases hcase with ⟨i, hi, hlt, rfl⟩ | ⟨hnone, _, rfl⟩ | ⟨hnone, _, hconn⟩
    · exact ⟨rfl, .inl ⟨i, hi, hlt, rfl, rfl⟩⟩
    · exact ⟨rfl, .inr ⟨hnone, rfl, rfl⟩⟩
    · obtain ⟨hids, hvecs, hdim'⟩ := connect_frame hconn
      exact ⟨hdim', .inr ⟨hnone, hids, hvecs⟩⟩

/-- Every id has its vector. -/
def Aligned (idx : HnswIndex β) : Prop := idx.idToNode.length = idx.vectors.length

/-- An `insert` that returns `Ok` sets the vector of its id and no other. -/
theorem insert_vectorOf {idx idx' : HnswIndex β} {level : Nat} {id : UInt64} {vector : List α}
    (ha : Aligned idx) (h : insert D level idx id vector = some (idx', .ok ())) :
    Aligned idx' ∧ ∀ j, idx'.vectorOf j =
      if j = id then some (vector.map Narrow.toF32) else idx.vectorOf j := by
  rcases insert_cases h with ⟨_, _, hr⟩ | ⟨_, _, _, hcase⟩
  · cases hr
  · rcases hcase with ⟨i, hi, hlt, hids, hvecs⟩ | ⟨hnone, hids, hvecs⟩
    · refine ⟨by rw [Aligned, hids, hvecs, List.length_set]; exact ha, fun j => ?_⟩
      rw [vectorOf, vectorOf, hids, hvecs]
      exact column_set hi hlt _ j
    · refine ⟨by rw [Aligned, hids, hvecs, List.length_append, List.length_append, ha]; rfl,
        fun j => ?_⟩
      rw [vectorOf, vectorOf, hids, hvecs]
      exact column_append ha hnone _ j

/-- Behind an `insert` that returns `Ok`, an id stands with the vector it had before or
with the one just inserted. -/
theorem insert_entries {idx idx' : HnswIndex β} {level : Nat} {id : UInt64} {vector : List α}
    (ha : Aligned idx) (h : insert D level idx id vector = some (idx', .ok ())) {i : Nat}
    {j : UInt64} {v : List β} (hj : idx'.idToNode[i]? = some j) (hv : idx'.vectors[i]? = some v) :
    (idx.idToNode[i]? = some j ∧ idx.vectors[i]? = some v) ∨
      (j = id ∧ v = vector.map Narrow.toF32) := by
  rcases insert_cases h with ⟨_, _, hr⟩ | ⟨_, _, _, hcase⟩
  · cases hr
  · rcases hcase with ⟨pos, hpos, hlt, hids, hvecs⟩ | ⟨_, hids, hvecs⟩
    · rw [hids] at hj
      rw [hvecs] at hv
      by_cases hi : pos = i
      · subst hi
        rw [List.getElem?_set_self hlt] at hv
        obtain ⟨hlt', hid, _⟩ := List.findIdx?_eq_some_iff_getElem.mp hpos
        rw [List.getElem?_eq_getElem hlt'] at hj
        right
        exact ⟨(Option.some.inj hj).symm.trans (by simpa using hid), (Option.some.inj hv).symm⟩
      · rw [List.getElem?_set_ne hi] at hv
        exact .inl ⟨hj, hv⟩
    · rw [hids] at hj
      rw [hvecs] at hv
      by_cases hi : i < idx.idToNode.length
      · rw [List.getElem?_append_left hi] at hj
        rw [List.getElem?_append_left (ha ▸ hi)] at hv
        exact .inl ⟨hj, hv⟩
      · -- the entry behind the old ones
        rw [List.getElem?_append_right (by omega)] at hj
        rw [List.getElem?_append_right (by rw [← ha]; omega)] at hv
        obtain ⟨_, rfl⟩ := List.getElem?_eq_some_iff.mp hj
        obtain ⟨_, rfl⟩ := List.getElem?_eq_some_iff.mp hv
        exact .inr ⟨List.getElem_singleton _, List.getElem_singleton _⟩

end Frame

end Tesseract.L3.HnswIndex
