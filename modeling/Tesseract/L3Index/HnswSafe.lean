import Tesseract.L3Index.HnswRewire

/-!
# The HNSW index does not panic on comparable distances

* `linkAll_some`, `shrinkAll_some`: rewiring a linked index succeeds and leaves
  it linked, when no distance between two stored vectors is NaN.
* `connectStep_some`, `descend_some`, `connect_some`: so does the connection of a
  new node, since the node a layer is searched from has the layer.
* `insert_some`: `insert` returns on every well-formed index, whatever the random
  level, and the index stays well-formed.
-/
namespace Tesseract.L3.HnswIndex

variable {α β : Type}

theorem Linked.setEdges {idx : HnswIndex β} (hg : Linked idx) {i layer : Nat}
    (hi : idx.HasLayer i layer) {es : List Nat} (hes : ∀ j ∈ es, idx.HasLayer j layer) :
    Linked (idx.setEdges i layer es) := by
  have hrw := setEdges_rewired idx i layer es
  refine ⟨by rw [hrw.length]; exact hg.vectors, by rw [hrw.length]; exact hg.deleted, ?_⟩
  intro k l es' hk j hj
  rw [edgesAt_setEdges hi] at hk
  rw [hrw.hasLayer]
  split at hk
  · next hkl =>
    cases hk
    rw [hkl.2]
    exact hes j hj
  · exact hg.targets k l es' hk j hj

theorem pushEdge_some {idx : HnswIndex β} (hg : Linked idx) {i layer j : Nat}
    (hi : idx.HasLayer i layer) (hj : idx.HasLayer j layer) :
    ∃ idx', idx.pushEdge i layer j = some idx' ∧ Linked idx' := by
  obtain ⟨es, hes⟩ := hi
  rw [pushEdge, hes]
  refine ⟨_, rfl, hg.setEdges ⟨es, hes⟩ ?_⟩
  intro k hk
  rcases List.mem_append.mp hk with hk | hk
  · exact hg.targets i layer es hes k hk
  · rw [List.mem_singleton.mp hk]
    exact hj

theorem linkAll_some (nodeIdx layer : Nat) :
    ∀ ns (idx : HnswIndex β), Linked idx → idx.HasLayer nodeIdx layer →
    (∀ n ∈ ns, idx.HasLayer n layer) → ∃ idx', linkAll nodeIdx layer ns idx = some idx' ∧
      Linked idx' := by
  intro ns
  induction ns with
  | nil => exact fun idx hg _ _ => ⟨idx, rfl, hg⟩
  | cons n ns ih =>
    intro idx hg hnode hns
    have hn := hns n (by simp)
    obtain ⟨idx₁, h₁, hg₁⟩ := pushEdge_some hg hnode hn
    have hr₁ := pushEdge_rewired h₁
    obtain ⟨idx₂, h₂, hg₂⟩ := pushEdge_some hg₁ (hr₁.hasLayer.mpr hn) (hr₁.hasLayer.mpr hnode)
    have hr := hr₁.trans (pushEdge_rewired h₂)
    obtain ⟨idx₃, h₃, hg₃⟩ := ih idx₂ hg₂ (hr.hasLayer.mpr hnode)
      fun m hm => hr.hasLayer.mpr (hns m (List.mem_cons_of_mem n hm))
    refine ⟨idx₃, ?_, hg₃⟩
    rw [linkAll, h₁]
    simp only [Option.bind_eq_bind, Option.bind_some, h₂, h₃]

/-! ## Shrinking and connecting -/

section Connect

variable [F32 β] {D : DistanceComputer β}

/-- No distance between two of the vectors is NaN. -/
def NoNaN (D : DistanceComputer β) (vs : List (List β)) : Prop :=
  ∀ u ∈ vs, ∀ v ∈ vs, F32.isNaN (D.distance u v) = false

/-- The vector of node `i`. -/
def vectorAt (idx : HnswIndex β) (i : Nat) : List β := idx.vectors.getD i []

omit [F32 β] in
theorem vectorAt_eq {idx : HnswIndex β} {i : Nat} (hi : i < idx.vectors.length) :
    idx.vectors[i]? = some (idx.vectorAt i) := by
  rw [vectorAt, List.getD_eq_getElem?_getD, List.getElem?_eq_getElem hi, Option.getD_some]

omit [F32 β] in
theorem vectorAt_mem {idx : HnswIndex β} {i : Nat} (hi : i < idx.vectors.length) :
    idx.vectorAt i ∈ idx.vectors :=
  List.mem_of_getElem? (vectorAt_eq hi)

theorem sortByDistance_some_iff {κ : Type} (xs : List (κ × β)) :
    (∃ sorted, sortByDistance xs = some sorted) ↔
      ¬ (2 ≤ xs.length ∧ ∃ p ∈ xs, F32.isNaN p.2 = true) := by
  unfold sortByDistance
  rw [← List.any_eq_true]
  split
  · next h => simp [h]
  · next h => simp only [h, not_false_eq_true, iff_true]; exact ⟨_, rfl⟩

theorem sortByDistance_some {κ : Type} {xs : List (κ × β)}
    (hnan : ∀ p ∈ xs, F32.isNaN p.2 = false) : ∃ sorted, sortByDistance xs = some sorted := by
  rw [sortByDistance_some_iff]
  rintro ⟨_, p, hp, hnp⟩
  rw [hnan p hp] at hnp
  cases hnp

/-- What a shrink sorts: the edges of node `i` with their distances. -/
def ranked (D : DistanceComputer β) (idx : HnswIndex β) (i : Nat) (es : List Nat) :
    List (Nat × β) :=
  es.map fun n => (n, D.distance (idx.vectorAt i) (idx.vectorAt n))

omit [F32 β] in
theorem mapM_ranked {idx : HnswIndex β} (i : Nat) : ∀ es : List Nat,
    (∀ j ∈ es, j < idx.vectors.length) →
    (es.mapM fun n => idx.vectors[n]?.map fun v => (n, D.distance (idx.vectorAt i) v)) =
      some (ranked D idx i es) := by
  intro es
  induction es with
  | nil => exact fun _ => rfl
  | cons n es ih =>
    intro hes
    rw [List.mapM_cons, ih fun j hj => hes j (List.mem_cons_of_mem n hj),
      vectorAt_eq (hes n (by simp))]
    rfl

theorem shrinkConnections_eq {idx : HnswIndex β} (hg : Linked idx) {nodeIdx layer : Nat}
    {es : List Nat} (hes : idx.edgesAt nodeIdx layer = some es) :
    idx.shrinkConnections D nodeIdx layer =
      if es.length ≤ idx.maxConn layer then some idx
      else (sortByDistance (ranked D idx nodeIdx es)).map fun sorted =>
        idx.setEdges nodeIdx layer ((sorted.take (idx.maxConn layer)).map Prod.fst) := by
  have hlt : nodeIdx < idx.vectors.length := by rw [hg.vectors]; exact HasLayer.lt ⟨es, hes⟩
  have hbound : ∀ j ∈ es, j < idx.vectors.length := by
    intro j hj
    rw [hg.vectors]
    exact (hg.targets nodeIdx layer es hes j hj).lt
  rw [shrinkConnections, hes, vectorAt_eq hlt]
  simp only [Option.bind_eq_bind, Option.bind_some, mapM_ranked nodeIdx es hbound]
  split
  · rfl
  · exact (Option.map_eq_bind ..).symm

/-- What is kept was an edge before. -/
theorem shrinkConnections_linked {idx idx' : HnswIndex β} (hg : Linked idx)
    {nodeIdx layer : Nat} (hn : idx.HasLayer nodeIdx layer)
    (h : idx.shrinkConnections D nodeIdx layer = some idx') : Linked idx' := by
  obtain ⟨es, hes⟩ := hn
  rw [shrinkConnections_eq hg hes] at h
  split at h
  · cases h
    exact hg
  · unfold sortByDistance at h
    split at h
    · cases h
    · cases h
      refine hg.setEdges ⟨es, hes⟩ ?_
      intro j hj
      obtain ⟨p, hp, rfl⟩ := List.mem_map.mp hj
      have hp' := (List.perm_insertionSort _ _).mem_iff.mp (List.mem_of_mem_take hp)
      obtain ⟨n, hn, rfl⟩ := List.mem_map.mp hp'
      exact hg.targets nodeIdx layer es hes n hn

theorem shrinkConnections_some {idx : HnswIndex β} (hg : Linked idx) (hnan : NoNaN D idx.vectors)
    {nodeIdx layer : Nat} (hn : idx.HasLayer nodeIdx layer) :
    ∃ idx', idx.shrinkConnections D nodeIdx layer = some idx' ∧ Linked idx' := by
  have hlt : nodeIdx < idx.vectors.length := by rw [hg.vectors]; exact hn.lt
  obtain ⟨es, hes⟩ := hn
  have hsorts : ∃ idx', idx.shrinkConnections D nodeIdx layer = some idx' := by
    rw [shrinkConnections_eq hg hes]
    split
    · exact ⟨idx, rfl⟩
    · have hranked : ∀ p ∈ ranked D idx nodeIdx es, F32.isNaN p.2 = false := by
        intro p hp
        obtain ⟨n, hn, rfl⟩ := List.mem_map.mp hp
        have hn' : n < idx.vectors.length := by
          rw [hg.vectors]
          exact (hg.targets nodeIdx layer es hes n hn).lt
        exact hnan _ (vectorAt_mem hlt) _ (vectorAt_mem hn')
      obtain ⟨sorted, hsort⟩ := sortByDistance_some hranked
      exact ⟨_, by rw [hsort]; rfl⟩
  obtain ⟨idx', h⟩ := hsorts
  exact ⟨idx', h, shrinkConnections_linked hg ⟨es, hes⟩ h⟩

theorem shrinkAll_some (layer : Nat) : ∀ ns (idx : HnswIndex β), Linked idx → NoNaN D idx.vectors →
    (∀ n ∈ ns, idx.HasLayer n layer) → ∃ idx', shrinkAll D layer ns idx = some idx' ∧
      Linked idx' := by
  intro ns
  induction ns with
  | nil => exact fun idx hg _ _ => ⟨idx, rfl, hg⟩
  | cons n ns ih =>
    intro idx hg hnan hns
    obtain ⟨idx₁, h₁, hg₁⟩ := shrinkConnections_some hg hnan (hns n (by simp))
    have hr₁ := shrinkConnections_rewired h₁
    obtain ⟨idx₂, h₂, hg₂⟩ := ih idx₁ hg₁ (by rw [hr₁.vectors]; exact hnan)
      fun m hm => hr₁.hasLayer.mpr (hns m (List.mem_cons_of_mem n hm))
    refine ⟨idx₂, ?_, hg₂⟩
    rw [shrinkAll, h₁]
    exact h₂

/-- Connecting at one layer, from a node of the layer to one of the layer. -/
theorem connectStep_some {idx : HnswIndex β} (hg : Linked idx) (hnan : NoNaN D idx.vectors)
    {nodeIdx layer curr : Nat} (hn : idx.HasLayer nodeIdx layer) (hc : idx.HasLayer curr layer) :
    ∃ idx' curr', connectStep D nodeIdx (idx, curr) layer = some (idx', curr') ∧ Linked idx' ∧
      idx'.HasLayer curr' layer := by
  have hlt : nodeIdx < idx.vectors.length := by rw [hg.vectors]; exact hn.lt
  obtain ⟨rs, hrs, hlayer⟩ :=
    searchWith_some hg D.distance idx.vectors[nodeIdx] hc idx.config.efConstruction
  have hnear : ∀ n ∈ selectNeighbors rs (idx.maxConn layer), idx.HasLayer n layer := by
    intro n hmem
    obtain ⟨p, hp, rfl⟩ := List.mem_map.mp hmem
    exact hlayer p (List.mem_of_mem_take hp)
  obtain ⟨idx₁, h₁, hg₁⟩ := linkAll_some nodeIdx layer _ idx hg hn hnear
  have hr₁ := linkAll_rewired _ _ _ h₁
  obtain ⟨idx₂, h₂, hg₂⟩ :=
    shrinkAll_some (D := D) layer _ idx₁ hg₁ (by rw [hr₁.vectors]; exact hnan)
    fun n hmem => hr₁.hasLayer.mpr (hnear n hmem)
  have hr := hr₁.trans (shrinkAll_rewired _ _ _ h₂)
  refine ⟨idx₂, (selectNeighbors rs (idx.maxConn layer)).head?.getD curr, ?_, hg₂, ?_⟩
  · rw [connectStep, List.getElem?_eq_getElem hlt]
    simp only [Option.bind_eq_bind, Option.bind_some, searchLayer, hrs, h₁, h₂]
  · rw [hr.hasLayer]
    cases hhead : (selectNeighbors rs (idx.maxConn layer)).head? with
    | none => exact hc
    | some n => exact hnear n (List.mem_of_mem_head? hhead)

theorem layersDown_zero (lo : Nat) : layersDown lo 0 = if lo = 0 then [0] else [] := by
  cases lo with
  | zero => rfl
  | succ lo => simp [layersDown]

theorem layersDown_succ (lo hi : Nat) :
    layersDown lo (hi + 1) = if lo ≤ hi + 1 then (hi + 1) :: layersDown lo hi else [] := by
  unfold layersDown
  rw [List.range_succ]
  split
  · next h => rw [List.drop_append_of_le_length (by rw [List.length_range]; exact h),
      List.reverse_append]; rfl
  · next h => rw [List.drop_eq_nil_of_le (by simp; omega)]; rfl

/-- Connecting at every layer from `top` down. -/
theorem connectLayers_some {nodeIdx : Nat} :
    ∀ top (idx : HnswIndex β) (curr : Nat), Linked idx → NoNaN D idx.vectors →
    idx.HasLayer nodeIdx top → idx.HasLayer curr top →
    ∃ idx' curr', (layersDown 0 top).foldlM (connectStep D nodeIdx) (idx, curr) =
      some (idx', curr') ∧
      Linked idx' := by
  intro top
  induction top with
  | zero =>
    intro idx curr hg hnan hn hc
    obtain ⟨idx', curr', heq, hg', _⟩ := connectStep_some hg hnan hn hc
    refine ⟨idx', curr', ?_, hg'⟩
    rw [layersDown_zero, if_pos rfl, List.foldlM_cons, heq]
    rfl
  | succ top ih =>
    intro idx curr hg hnan hn hc
    obtain ⟨idx₁, curr₁, heq, hg₁, hc₁⟩ := connectStep_some hg hnan hn hc
    have hr₁ : Rewired idx idx₁ := connectStep_rewired heq
    obtain ⟨idx₂, curr₂, heq₂, hg₂⟩ := ih idx₁ curr₁ hg₁ (by rw [hr₁.vectors]; exact hnan)
      ((hr₁.hasLayer.mpr hn).mono (Nat.le_succ top)) (hc₁.mono (Nat.le_succ top))
    refine ⟨idx₂, curr₂, ?_, hg₂⟩
    rw [layersDown_succ, if_pos (Nat.zero_le _), List.foldlM_cons, heq]
    exact heq₂

theorem descendStep_some [LawfulF32 β] {idx : HnswIndex β} (hg : Linked idx) (query : List β)
    {curr layer : Nat} (hc : idx.HasLayer curr layer) :
    ∃ curr', idx.descendStep D query curr layer = some curr' ∧ idx.HasLayer curr' layer := by
  obtain ⟨node, hnode, hlt⟩ := hasLayer_iff.mp hc
  obtain ⟨c, d, heq, hlayer⟩ := greedyWith_some hg D.distance query hc
  refine ⟨c, ?_, hlayer⟩
  rw [descendStep, hnode]
  simp only [Option.bind_eq_bind, Option.bind_some, if_pos hlt, greedySearchLayer, heq,
    Option.map_some]

/-- The descent through the layers `lo..=top` ends at a node of the lowest one. -/
theorem descend_some [LawfulF32 β] {idx : HnswIndex β} (hg : Linked idx) (query : List β)
    (lo : Nat) :
    ∀ top curr, idx.HasLayer curr top →
    ∃ curr', (layersDown lo top).foldlM (idx.descendStep D query) curr = some curr' ∧
      idx.HasLayer curr' (min lo top) := by
  intro top
  induction top with
  | zero =>
    intro curr hc
    rw [layersDown_zero]
    split
    · obtain ⟨c, heq, hlayer⟩ := descendStep_some (D := D) hg query hc
      refine ⟨c, by rw [List.foldlM_cons, heq]; rfl, hlayer.mono (by omega)⟩
    · exact ⟨curr, rfl, hc.mono (by omega)⟩
  | succ top ih =>
    intro curr hc
    rw [layersDown_succ]
    split
    · next hle =>
      obtain ⟨c, heq, hlayer⟩ := descendStep_some (D := D) hg query hc
      by_cases hlo : lo ≤ top
      · obtain ⟨c', heq', hlayer'⟩ := ih c (hlayer.mono (Nat.le_succ top))
        refine ⟨c', by rw [List.foldlM_cons, heq]; exact heq', hlayer'.mono (by omega)⟩
      · -- the last layer of the descent
        have hnil : layersDown lo top = [] := by
          cases top with
          | zero => rw [layersDown_zero, if_neg (by omega)]
          | succ top => rw [layersDown_succ, if_neg (by omega)]
        refine ⟨c, by rw [List.foldlM_cons, heq, hnil]; rfl, hlayer.mono (by omega)⟩
    · exact ⟨curr, rfl, hc.mono (by omega)⟩

theorem connect_some [LawfulF32 β] {idx : HnswIndex β} (hg : Linked idx)
    (hnan : NoNaN D idx.vectors) {entry nodeIdx level : Nat}
    (hentry : idx.entryPoint = some entry) (he : idx.HasLayer entry idx.maxLayer)
    (hn : idx.HasLayer nodeIdx level) :
    ∃ idx', Rewired idx idx' ∧ Linked idx' ∧ idx.connect D nodeIdx level =
      some (if idx.maxLayer < level then { idx' with maxLayer := level, entryPoint := some nodeIdx }
        else idx') := by
  obtain ⟨entryNode, hnode, hlt⟩ := hasLayer_iff.mp he
  have hvec : nodeIdx < idx.vectors.length := by rw [hg.vectors]; exact hn.lt
  have htop : min idx.maxLayer (entryNode.edges.length - 1) = idx.maxLayer := by omega
  obtain ⟨curr, hdesc, hcurr⟩ :=
    descend_some (D := D) hg idx.vectors[nodeIdx] (level + 1) idx.maxLayer entry he
  obtain ⟨idx', curr', hconn, hg'⟩ := connectLayers_some (min level idx.maxLayer) idx curr hg hnan
    (hn.mono (by omega)) (hcurr.mono (by omega))
  have hr : Rewired idx idx' := connectLayers_rewired _ _ _ hconn
  refine ⟨idx', hr, hg', ?_⟩
  rw [connect, hentry]
  simp only [Option.bind_eq_bind, Option.bind_some, hnode, List.getElem?_eq_getElem hvec, htop,
    hdesc, hconn, hr.entry.2]
  split <;> rfl

end Connect

/-! ## Insert -/

/-- What `insert` relies on. -/
structure Wf (idx : HnswIndex β) : Prop where
  linked : Linked idx
  ids : idx.idToNode.length = idx.nodes.length
  entry : idx.nodes ≠ [] → ∃ e, idx.entryPoint = some e ∧ idx.HasLayer e idx.maxLayer

theorem new_wf (dim : Nat) (config : HnswConfig) : Wf (new dim config : HnswIndex β) := by
  refine ⟨⟨rfl, rfl, ?_⟩, rfl, fun h => absurd rfl h⟩
  intro i layer es hes
  simp [edgesAt, new] at hes

theorem edgesAt_pushNode (idx : HnswIndex β) (level : Nat) (id : UInt64) (v : List β)
    (i layer : Nat) :
    (idx.pushNode level id v).edgesAt i layer =
      if i = idx.nodes.length then (if layer ≤ level then some [] else none)
      else idx.edgesAt i layer := by
  unfold edgesAt pushNode
  dsimp only
  by_cases hi : i = idx.nodes.length
  · rw [if_pos hi, hi, List.getElem?_concat_length, Option.bind_some, List.getElem?_replicate]
    split <;> split <;> first | rfl | omega
  · rw [if_neg hi]
    by_cases hlt : i < idx.nodes.length
    · rw [List.getElem?_append_left hlt]
    · rw [List.getElem?_eq_none (by simp; omega), List.getElem?_eq_none (by omega)]

theorem HasLayer.pushNode {idx : HnswIndex β} {i layer : Nat} (h : idx.HasLayer i layer)
    (level : Nat) (id : UInt64) (v : List β) : (idx.pushNode level id v).HasLayer i layer := by
  have hne : i ≠ idx.nodes.length := Nat.ne_of_lt h.lt
  obtain ⟨es, hes⟩ := h
  exact ⟨es, by rw [edgesAt_pushNode, if_neg hne]; exact hes⟩

theorem Linked.pushNode {idx : HnswIndex β} (hg : Linked idx) (level : Nat) (id : UInt64)
    (v : List β) :
    Linked (idx.pushNode level id v) := by
  refine ⟨by simp [HnswIndex.pushNode, hg.vectors], by simp [HnswIndex.pushNode, hg.deleted], ?_⟩
  intro i layer es hes j hj
  rw [edgesAt_pushNode] at hes
  split at hes
  · split at hes
    · cases hes
      cases hj
    · cases hes
  · exact (hg.targets i layer es hes j hj).pushNode level id v

theorem pushNode_top (idx : HnswIndex β) (level : Nat) (id : UInt64) (v : List β) :
    (idx.pushNode level id v).HasLayer idx.nodes.length level :=
  ⟨[], by rw [edgesAt_pushNode, if_pos rfl, if_pos (Nat.le_refl level)]⟩

section Insert

variable [F32 β] [Narrow α β] {D : DistanceComputer β}

omit [F32 β] [Narrow α β] in
/-- The branch of a known id. -/
theorem Wf.setVector {idx : HnswIndex β} (hw : Wf idx) (i : Nat) (v : List β) :
    Wf { idx with vectors := idx.vectors.set i v } := by
  refine ⟨⟨?_, hw.linked.deleted, hw.linked.targets⟩, hw.ids, hw.entry⟩
  rw [List.length_set]
  exact hw.linked.vectors

omit [F32 β] [Narrow α β] in
theorem mem_pushNode {idx : HnswIndex β} (level : Nat) (id : UInt64) {v u : List β}
    (h : u ∈ (idx.pushNode level id v).vectors) : u ∈ v :: idx.vectors := by
  rcases List.mem_append.mp h with h | h
  · exact List.mem_cons_of_mem _ h
  · rw [List.mem_singleton.mp h]
    exact List.mem_cons_self

/-- The branch of a new id, behind its node: it is linked in, and becomes the entry
point when it rises above the others. -/
theorem connect_pushNode [LawfulF32 β] {idx : HnswIndex β} (hw : Wf idx) (level : Nat)
    (id : UInt64) {v : List β} (hnan : NoNaN D (v :: idx.vectors)) (hne : idx.nodes ≠ []) :
    ∃ idx', (idx.pushNode level id v).connect D idx.nodes.length level = some idx' ∧ Wf idx' ∧
      idx'.dim = idx.dim ∧ idx'.vectors = (idx.pushNode level id v).vectors := by
  have hg := hw.linked.pushNode level id v
  have htop := pushNode_top idx level id v
  obtain ⟨e, hentry, he⟩ := hw.entry hne
  obtain ⟨idx', hr, hg', heq⟩ := connect_some (D := D) hg
    (fun u hu w hw => hnan u (mem_pushNode level id hu) w (mem_pushNode level id hw)) hentry
    (he.pushNode level id v) htop
  have hids : idx'.idToNode.length = idx'.nodes.length := by
    rw [hr.idToNode, hr.length]
    simp [pushNode, hw.ids]
  refine ⟨_, heq, ?_, ?_, ?_⟩
  · split
    · exact ⟨⟨hg'.vectors, hg'.deleted, hg'.targets⟩, hids, fun _ => ⟨_, rfl, hr.hasLayer.mpr htop⟩⟩
    · refine ⟨hg', hids, fun _ => ⟨e, ?_, ?_⟩⟩
      · rw [hr.entry.1]
        exact hentry
      · rw [hr.hasLayer, hr.entry.2]
        exact he.pushNode level id v
  · split <;> exact hr.dim
  · split <;> exact hr.vectors

/-- `insert` returns, whatever the random level, when no distance is NaN. -/
theorem insert_some [LawfulF32 β] {idx : HnswIndex β} (hw : Wf idx) (level : Nat) (id : UInt64)
    (vector : List α) (hnan : NoNaN D (vector.map Narrow.toF32 :: idx.vectors)) :
    ∃ idx' r, insert D level idx id vector = some (idx', r) ∧ Wf idx' ∧ idx'.dim = idx.dim ∧
      ∀ v ∈ idx'.vectors, v ∈ vector.map Narrow.toF32 :: idx.vectors := by
  unfold insert
  by_cases hdim : vector.length ≠ idx.dim
  · rw [if_pos hdim]
    exact ⟨idx, _, rfl, hw, rfl, fun v hv => List.mem_cons_of_mem _ hv⟩
  · rw [if_neg hdim]
    dsimp only
    cases hf : idx.idToNode.findIdx? (· == id) with
    | some existing =>
      obtain ⟨hlt, _⟩ := List.findIdx?_eq_some_iff_getElem.mp hf
      have hvec : existing < idx.vectors.length := by rw [hw.linked.vectors, ← hw.ids]; exact hlt
      dsimp only
      rw [if_pos hvec]
      refine ⟨_, _, rfl, hw.setVector existing _, rfl, ?_⟩
      intro v hv
      rcases List.mem_or_eq_of_mem_set hv with hv | rfl
      · exact List.mem_cons_of_mem _ hv
      · exact List.mem_cons_self
    | none =>
      dsimp only
      split
      · next hzero =>
        -- the first node is the entry point
        have hg := hw.linked.pushNode (idx.randomLevel level) id (vector.map Narrow.toF32)
        have htop := pushNode_top idx (idx.randomLevel level) id (vector.map Narrow.toF32)
        rw [hzero] at htop
        refine ⟨_, _, rfl, ⟨⟨hg.vectors, hg.deleted, hg.targets⟩, ?_, fun _ => ⟨0, rfl, htop⟩⟩,
          rfl, fun v hv => mem_pushNode (idx.randomLevel level) id hv⟩
        simp [pushNode, hw.ids]
      · next hpos =>
        obtain ⟨idx', heq, hw', hdim', hvec⟩ := connect_pushNode (D := D) hw
          (idx.randomLevel level) id hnan fun hnil => hpos (by rw [hnil]; rfl)
        rw [heq]
        exact ⟨idx', _, rfl, hw', hdim', fun v hv => mem_pushNode _ id (hvec ▸ hv)⟩

end Insert

end Tesseract.L3.HnswIndex
