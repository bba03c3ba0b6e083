import Tesseract.L3Index.HnswEdges

/-!
# The representation invariant of the HNSW index

`Inv` is what the index keeps under every sequence of `insert` and `remove`, for
every configuration, every random level and every distance without NaN.

* `connectLayers_edgesOk`: connecting a new node keeps every edge list in order,
  since the node is not an edge of a layer before it is connected there.
* `insert_inv`, `remove_inv`: the calls keep `Inv`.
* `apply_total`, `search_total`: on an index with `Inv` no call panics.
* `calls_inv`: so it is in every reachable index.
-/
namespace Tesseract.L3.HnswIndex

variable {α β : Type}

/-- An edge list of node `i` at a layer. -/
structure EdgeList (idx : HnswIndex β) (i layer : Nat) (es : List Nat) : Prop where
  nodup : es.Nodup
  loopless : i ∉ es
  bounded : es.length ≤ idx.maxConn layer
  layers : ∀ j ∈ es, idx.HasLayer j layer

/-- Every edge list is in order. -/
def EdgesOk (idx : HnswIndex β) : Prop :=
  ∀ i layer es, idx.edgesAt i layer = some es → EdgeList idx i layer es

structure Inv (idx : HnswIndex β) : Prop where
  ids : idx.idToNode.length = idx.nodes.length
  vectors : idx.vectors.length = idx.nodes.length
  deleted : idx.deleted.length = idx.nodes.length
  unique : idx.idToNode.Nodup
  dims : ∀ v ∈ idx.vectors, v.length = idx.dim
  /-- every node has the bottom layer and none is above `maxLayer` -/
  layers : ∀ node ∈ idx.nodes, 1 ≤ node.edges.length ∧ node.edges.length ≤ idx.maxLayer + 1
  /-- the entry point reaches up to `maxLayer` -/
  entry : idx.nodes ≠ [] → ∃ e node, idx.entryPoint = some e ∧ idx.nodes[e]? = some node ∧
    node.edges.length = idx.maxLayer + 1
  edges : EdgesOk idx

theorem Inv.wf {idx : HnswIndex β} (h : Inv idx) : Wf idx := by
  refine ⟨⟨h.vectors, h.deleted, fun i layer es hes => (h.edges i layer es hes).layers⟩, h.ids, ?_⟩
  intro hne
  obtain ⟨e, node, he, hnode, hlen⟩ := h.entry hne
  exact ⟨e, he, hasLayer_iff.mpr ⟨node, hnode, by omega⟩⟩

theorem new_inv (dim : Nat) (config : HnswConfig) : Inv (new dim config : HnswIndex β) := by
  refine ⟨rfl, rfl, rfl, List.nodup_nil, by simp [new], by simp [new], fun h => absurd rfl h, ?_⟩
  intro i layer es hes
  simp [edgesAt, new] at hes

/-- The edge lists depend on the nodes and the configuration only. -/
theorem EdgesOk.congr {idx idx' : HnswIndex β} (h : EdgesOk idx) (hnodes : idx'.nodes = idx.nodes)
    (hconfig : idx'.config = idx.config) : EdgesOk idx' := by
  have hedges : ∀ i layer, idx'.edgesAt i layer = idx.edgesAt i layer := by
    intro i layer
    rw [edgesAt, edgesAt, hnodes]
  intro i layer es hes
  have hlist := h i layer es (hedges i layer ▸ hes)
  refine ⟨hlist.nodup, hlist.loopless, ?_, fun j hj => ?_⟩
  · rw [maxConn, hconfig]
    exact hlist.bounded
  · rw [HasLayer, hedges]
    exact hlist.layers j hj

/-! ## Rewiring -/

theorem EdgeList.rewired {idx idx' : HnswIndex β} {i layer : Nat} {es : List Nat}
    (h : EdgeList idx i layer es) (hr : Rewired idx idx') : EdgeList idx' i layer es := by
  refine ⟨h.nodup, h.loopless, ?_, fun j hj => hr.hasLayer.mpr (h.layers j hj)⟩
  rw [hr.maxConn]
  exact h.bounded

/-- Some of the edges of a node, and one to a node that it had no edge to. -/
theorem EdgeList.link {idx : HnswIndex β} {i layer nodeIdx : Nat} {old es : List Nat}
    (h : EdgeList idx i layer old) (hne : i ≠ nodeIdx) (hnot : nodeIdx ∉ old)
    (hlayer : idx.HasLayer nodeIdx layer) (hsub : es.Subperm (old ++ [nodeIdx]))
    (hlen : es.length ≤ idx.maxConn layer) : EdgeList idx i layer es := by
  have hnew : (old ++ [nodeIdx]).Nodup := by
    rw [← List.concat_eq_append, List.nodup_concat]
    exact ⟨hnot, h.nodup⟩
  have hmem : ∀ j ∈ es, j ∈ old ∨ j = nodeIdx := fun j hj => by
    simpa using hsub.subset hj
  obtain ⟨mid, hperm, hsublist⟩ := hsub
  refine ⟨hperm.nodup_iff.mp (hnew.sublist hsublist), fun hi => ?_, hlen, fun j hj => ?_⟩
  · exact (hmem i hi).elim h.loopless hne
  · rcases hmem j hj with hold | rfl
    · exact h.layers j hold
    · exact hlayer

theorem EdgesOk.linked {idx idx' : HnswIndex β} (h : EdgesOk idx') (hg : Linked idx)
    (hr : Rewired idx idx') : Linked idx' :=
  ⟨by rw [hr.vectors, hr.length]; exact hg.vectors, by rw [hr.deleted, hr.length]; exact hg.deleted,
    fun i layer es hes => (h i layer es hes).layers⟩

theorem Detached.congr {idx idx' : HnswIndex β} {nodeIdx layer : Nat}
    (h : Detached idx nodeIdx layer) (hsame : ∀ k, idx'.edgesAt k layer = idx.edgesAt k layer) :
    Detached idx' nodeIdx layer :=
  ⟨by rw [hsame]; exact h.self, fun k es hes => h.incoming k es (hsame k ▸ hes)⟩

section Connect

variable [F32 β] {D : DistanceComputer β} {nodeIdx : Nat}

/-- Connecting at one layer keeps the edge lists in order. -/
theorem connectStep_edgesOk {idx idx' : HnswIndex β} {layer curr curr' : Nat}
    (h : connectStep D nodeIdx (idx, curr) layer = some (idx', curr')) (hg : Linked idx)
    (hok : EdgesOk idx) (hdet : Detached idx nodeIdx layer) (hcurr : curr ≠ nodeIdx)
    (hlayer : idx.HasLayer curr layer) :
    EdgesOk idx' ∧ curr' ≠ nodeIdx ∧ idx'.HasLayer curr' layer ∧
      ∀ l, l ≠ layer → ∀ k, idx'.edgesAt k l = idx.edgesAt k l := by
  have hr : Rewired idx idx' := connectStep_rewired h
  obtain ⟨query, rs, _, _, hcurr', hnodup, hnear, hconn⟩ := connectStep_edges h hdet hcurr
  have hmem : ∀ n ∈ selectNeighbors rs (idx.maxConn layer), idx.HasLayer n layer :=
    fun n hn => (hnear n hn).1.hasLayer hg hlayer
  have hself : nodeIdx ∉ selectNeighbors rs (idx.maxConn layer) :=
    fun hn => (hnear nodeIdx hn).2 rfl
  refine ⟨?_, ?_, ?_, ?_⟩
  · intro k l es hes
    by_cases hkl : l = layer ∧ (k = nodeIdx ∨ k ∈ selectNeighbors rs (idx.maxConn layer))
    · obtain ⟨rfl, rfl | hk⟩ := hkl
      · -- the new node
        rw [hconn.self] at hes
        cases hes
        refine EdgeList.rewired ⟨hnodup, hself, ?_, hmem⟩ hr
        rw [selectNeighbors, List.length_map]
        exact List.length_take_le _ _
      · -- a neighbour: some of its edges and the new node
        obtain ⟨old, hold⟩ := hmem k hk
        obtain ⟨es', hes', hsub, hlen, _⟩ := hconn.neighbors k hk old hold
        rw [hes] at hes'
        cases hes'
        have hnot : nodeIdx ∉ old := fun hin => hdet.incoming k old hold hin
        have hlink := (hok k l old hold).link (hnear k hk).2 hnot ⟨[], hdet.self⟩ hsub hlen
        exact hlink.rewired hr
    · rw [hconn.others k l hkl] at hes
      exact (hok k l es hes).rewired hr
  · rw [hcurr']
    cases hhead : (selectNeighbors rs (idx.maxConn layer)).head? with
    | none => exact hcurr
    | some n => exact (hnear n (List.mem_of_mem_head? hhead)).2
  · rw [hcurr', hr.hasLayer]
    cases hhead : (selectNeighbors rs (idx.maxConn layer)).head? with
    | none => exact hlayer
    | some n => exact hmem n (List.mem_of_mem_head? hhead)
  · exact fun l hl k => hconn.others k l fun hc => hl hc.1

/-- Connecting at the layers from `top` down to 1 keeps the edge lists in order and
leaves layer 0 as it was. -/
theorem connectUpper_edgesOk : ∀ top (idx : HnswIndex β) (curr : Nat) (s : HnswIndex β × Nat),
    (layersDown 1 top).foldlM (connectStep D nodeIdx) (idx, curr) = some s → Linked idx →
    EdgesOk idx → (∀ l ≤ top, Detached idx nodeIdx l) → curr ≠ nodeIdx → idx.HasLayer curr top →
    EdgesOk s.1 ∧ s.2 ≠ nodeIdx ∧ s.1.HasLayer s.2 0 ∧
      ∀ k, s.1.edgesAt k 0 = idx.edgesAt k 0 := by
  intro top
  induction top with
  | zero =>
    intro idx curr s h _ hok _ hcurr hlayer
    cases h
    exact ⟨hok, hcurr, hlayer, fun _ => rfl⟩
  | succ top ih =>
    intro idx curr s h hg hok hdet hcurr hlayer
    rw [layersDown_succ, if_pos (by omega), List.foldlM_cons] at h
    simp only [Option.bind_eq_bind, Option.bind_eq_some_iff] at h
    obtain ⟨s₁, h₁, hrest⟩ := h
    have hr : Rewired idx s₁.1 := connectStep_rewired h₁
    obtain ⟨hok₁, hcurr₁, hlayer₁, hsame₁⟩ :=
      connectStep_edgesOk h₁ hg hok (hdet (top + 1) (Nat.le_refl _)) hcurr hlayer
    obtain ⟨hok₂, hcurr₂, hlayer₂, hsame₂⟩ := ih s₁.1 s₁.2 s hrest (hok₁.linked hg hr) hok₁
      (fun l hl => (hdet l (by omega)).congr (hsame₁ l (by omega))) hcurr₁
      (hlayer₁.mono (Nat.le_succ top))
    exact ⟨hok₂, hcurr₂, hlayer₂, fun k => (hsame₂ k).trans (hsame₁ 0 (by omega) k)⟩

omit [F32 β] in
theorem layersDown_bottom (top : Nat) : layersDown 0 top = layersDown 1 top ++ [0] := by
  induction top with
  | zero => rfl
  | succ top ih =>
    rw [layersDown_succ, layersDown_succ, if_pos (by omega), if_pos (by omega), ih]
    rfl

/-- The last step of a connection is that of layer 0. -/
theorem connectLayers_bottom {idx : HnswIndex β} {curr top : Nat} {s : HnswIndex β × Nat}
    (h : (layersDown 0 top).foldlM (connectStep D nodeIdx) (idx, curr) = some s) :
    ∃ s₁, (layersDown 1 top).foldlM (connectStep D nodeIdx) (idx, curr) = some s₁ ∧
      connectStep D nodeIdx s₁ 0 = some s := by
  rw [layersDown_bottom, List.foldlM_append] at h
  simp only [Option.bind_eq_bind, Option.bind_eq_some_iff] at h
  obtain ⟨s₁, h₁, h₂⟩ := h
  refine ⟨s₁, h₁, ?_⟩
  rw [List.foldlM_cons] at h₂
  simpa using h₂

/-- Connecting at every layer keeps the edge lists in order. -/
theorem connectLayers_edgesOk {idx : HnswIndex β} {curr top : Nat} {s : HnswIndex β × Nat}
    (h : (layersDown 0 top).foldlM (connectStep D nodeIdx) (idx, curr) = some s)
    (hg : Linked idx) (hok : EdgesOk idx) (hdet : ∀ l ≤ top, Detached idx nodeIdx l)
    (hcurr : curr ≠ nodeIdx) (hlayer : idx.HasLayer curr top) : EdgesOk s.1 := by
  obtain ⟨s₁, h₁, h₂⟩ := connectLayers_bottom h
  obtain ⟨hok₁, hcurr₁, hlayer₁, hsame₁⟩ :=
    connectUpper_edgesOk top idx curr s₁ h₁ hg hok hdet hcurr hlayer
  have hr : Rewired idx s₁.1 := connectLayers_rewired _ _ _ h₁
  exact (connectStep_edgesOk h₂ (hok₁.linked hg hr) hok₁ ((hdet 0 (Nat.zero_le top)).congr hsame₁)
    hcurr₁ hlayer₁).1

end Connect

/-! ## The calls keep the invariant -/

/-- No edge leads to a node that was just pushed. -/
theorem Linked.pushNode_incoming {idx : HnswIndex β} (hg : Linked idx) {level : Nat}
    {id : UInt64} {v : List β} {k l : Nat} {es : List Nat}
    (hes : (idx.pushNode level id v).edgesAt k l = some es) : idx.nodes.length ∉ es := by
  intro hmem
  rw [edgesAt_pushNode] at hes
  by_cases hk : k = idx.nodes.length
  · rw [if_pos hk] at hes
    split at hes
    · cases hes
      cases hmem
    · cases hes
  · rw [if_neg hk] at hes
    exact Nat.lt_irrefl _ (hg.targets k l es hes _ hmem).lt

theorem Linked.pushNode_detached {idx : HnswIndex β} (hg : Linked idx) (level : Nat)
    (id : UInt64) (v : List β) {l : Nat} (hl : l ≤ level) :
    Detached (idx.pushNode level id v) idx.nodes.length l :=
  ⟨by rw [edgesAt_pushNode, if_pos rfl, if_pos hl], fun _ _ hes => hg.pushNode_incoming hes⟩

theorem EdgesOk.pushNode {idx : HnswIndex β} (h : EdgesOk idx) (level : Nat) (id : UInt64)
    (v : List β) : EdgesOk (idx.pushNode level id v) := by
  intro i layer es hes
  rw [edgesAt_pushNode] at hes
  split at hes
  · split at hes
    · cases hes
      exact ⟨List.nodup_nil, by simp, Nat.zero_le _, by simp⟩
    · cases hes
  · have hlist := h i layer es hes
    exact ⟨hlist.nodup, hlist.loopless, hlist.bounded,
      fun j hj => (hlist.layers j hj).pushNode level id v⟩

/-- The layers of the nodes, read off their number. -/
theorem Inv.of_rewired {idx idx' : HnswIndex β} (hr : Rewired idx idx') {P : Nat → Prop}
    (h : ∀ node ∈ idx.nodes, P node.edges.length) : ∀ node ∈ idx'.nodes, P node.edges.length := by
  intro node hnode
  have hmem : node.edges.length ∈ idx'.nodes.map fun node => node.edges.length :=
    List.mem_map_of_mem hnode
  rw [hr.layers] at hmem
  obtain ⟨old, hold, heq⟩ := List.mem_map.mp hmem
  rw [← heq]
  exact h old hold

section Insert

variable [F32 β] {D : DistanceComputer β}

/-- The descent for a new node ends at a node of its layers, which is not the new one. -/
theorem start_some [LawfulF32 β] {idx : HnswIndex β} (hinv : Inv idx) (level : Nat)
    (id : UInt64) {v : List β} (hne : idx.nodes ≠ []) :
    ∃ entry entryNode curr, idx.entryPoint = some entry ∧
      (idx.pushNode level id v).nodes[entry]? = some entryNode ∧
      (layersDown (level + 1) (min idx.maxLayer (entryNode.edges.length - 1))).foldlM
        ((idx.pushNode level id v).descendStep D v) entry = some curr ∧
      curr ≠ idx.nodes.length ∧
      (idx.pushNode level id v).HasLayer curr (min level idx.maxLayer) := by
  have hw := hinv.wf
  have hg := hw.linked.pushNode level id v
  obtain ⟨e, he, htop⟩ := hw.entry hne
  obtain ⟨node, hnode, hlt⟩ := hasLayer_iff.mp (htop.pushNode level id v)
  have hmin : min idx.maxLayer (node.edges.length - 1) = idx.maxLayer := by omega
  obtain ⟨curr, hdesc, hlayer⟩ :=
    descend_some (D := D) hg v (level + 1) idx.maxLayer e (htop.pushNode level id v)
  refine ⟨e, node, curr, he, hnode, by rw [hmin]; exact hdesc, ?_, hlayer.mono (by omega)⟩
  refine descend_keeps (P := fun i => i ≠ idx.nodes.length) ?_ _ _ _ hdesc (Nat.ne_of_lt htop.lt)
  rintro layer i j _ ⟨es, hes, hmem, _⟩ rfl
  exact hw.linked.pushNode_incoming hes hmem

omit [F32 β] in
theorem Inv.pushNode_vector {idx : HnswIndex β} (hinv : Inv idx) (level : Nat) (id : UInt64)
    (v : List β) : (idx.pushNode level id v).vectors[idx.nodes.length]? = some v := by
  rw [← hinv.vectors]
  exact List.getElem?_concat_length

/-- A new node is connected from where the descent ends. -/
theorem connect_start [LawfulF32 β] {idx idx' : HnswIndex β} (hinv : Inv idx) (level : Nat)
    (id : UInt64) {v : List β} (hne : idx.nodes ≠ [])
    (h : (idx.pushNode level id v).connect D idx.nodes.length level = some idx') :
    ∃ entry entryNode curr s, idx.entryPoint = some entry ∧
      (idx.pushNode level id v).nodes[entry]? = some entryNode ∧
      (layersDown (level + 1) (min idx.maxLayer (entryNode.edges.length - 1))).foldlM
        ((idx.pushNode level id v).descendStep D v) entry = some curr ∧
      curr ≠ idx.nodes.length ∧
      (idx.pushNode level id v).HasLayer curr (min level idx.maxLayer) ∧
      (layersDown 0 (min level idx.maxLayer)).foldlM (connectStep D idx.nodes.length)
        (idx.pushNode level id v, curr) = some s ∧
      idx' = if idx.maxLayer < level then
        { s.1 with maxLayer := level, entryPoint := some idx.nodes.length } else s.1 := by
  obtain ⟨e, node, curr, he, hnode, hdesc, hcurr, hlayer⟩ :=
    start_some (D := D) hinv level id (v := v) hne
  obtain ⟨entry, entryNode, query, curr', s, hentry, hnode', hquery, hdesc', hfold, heq⟩ :=
    connect_inv h
  have hentry' : idx.entryPoint = some entry := hentry
  rw [he] at hentry'
  cases hentry'
  rw [hnode] at hnode'
  cases hnode'
  rw [hinv.pushNode_vector level id v] at hquery
  cases hquery
  have hsame := hdesc.symm.trans hdesc'
  cases hsame
  exact ⟨e, node, curr, s, he, hnode, hdesc, hcurr, hlayer, hfold, heq⟩

/-- The branch of a new node behind its first step: the node is pushed and connected. -/
theorem connect_edgesOk [LawfulF32 β] {idx idx' : HnswIndex β} (hinv : Inv idx) (level : Nat)
    (id : UInt64) {v : List β} (hne : idx.nodes ≠ [])
    (h : (idx.pushNode level id v).connect D idx.nodes.length level = some idx') :
    ∃ s : HnswIndex β, Rewired (idx.pushNode level id v) s ∧ EdgesOk s ∧
      idx' = if idx.maxLayer < level then
        { s with maxLayer := level, entryPoint := some idx.nodes.length } else s := by
  obtain ⟨_, _, curr, s, _, _, _, hcurr, hlayer, hfold, heq⟩ := connect_start hinv level id hne h
  refine ⟨s.1, connectLayers_rewired _ _ _ hfold, ?_, heq⟩
  refine connectLayers_edgesOk hfold (hinv.wf.linked.pushNode level id v)
    (hinv.edges.pushNode level id v) (fun l hl => ?_) hcurr hlayer
  exact hinv.wf.linked.pushNode_detached level id v (Nat.le_trans hl (Nat.min_le_left _ _))

omit [F32 β] in
/-- What pushing a node makes of the parts of the invariant that are not edges. -/
theorem Inv.pushNode_table {idx : HnswIndex β} (hinv : Inv idx) (level : Nat) {id : UInt64}
    {v : List β} (hnew : idx.idToNode.findIdx? (· == id) = none) (hdim : v.length = idx.dim) :
    (idx.pushNode level id v).idToNode.Nodup ∧
      (∀ u ∈ (idx.pushNode level id v).vectors, u.length = idx.dim) ∧
      ∀ node ∈ (idx.pushNode level id v).nodes,
        1 ≤ node.edges.length ∧ node.edges.length ≤ max level idx.maxLayer + 1 := by
  have hid : id ∉ idx.idToNode := by
    intro hmem
    have hfalse := List.findIdx?_eq_none_iff.mp hnew id hmem
    simp at hfalse
  refine ⟨?_, ?_, ?_⟩
  · show (idx.idToNode ++ [id]).Nodup
    rw [List.nodup_append]
    exact ⟨hinv.unique, by simp, fun a ha b hb heq => hid (by simp_all)⟩
  · intro u hu
    rcases List.mem_cons.mp (mem_pushNode level id hu) with rfl | hu
    · exact hdim
    · exact hinv.dims u hu
  · intro node hnode
    rcases List.mem_append.mp hnode with hnode | hnode
    · have hle := hinv.layers node hnode
      omega
    · rw [List.mem_singleton.mp hnode]
      simp

variable [LawfulF32 β]

/-- The branch of a node to connect. -/
theorem connect_inv_keeps {idx idx' : HnswIndex β} (hinv : Inv idx) (level : Nat) {id : UInt64}
    {v : List β} (hnew : idx.idToNode.findIdx? (· == id) = none) (hdim : v.length = idx.dim)
    (hne : idx.nodes ≠ [])
    (h : (idx.pushNode level id v).connect D idx.nodes.length level = some idx') : Inv idx' := by
  obtain ⟨s, hr, hok, rfl⟩ := connect_edgesOk hinv level id hne h
  obtain ⟨hids, hvecs, hlayers⟩ := hinv.pushNode_table level hnew hdim
  have hlen : s.nodes.length = idx.nodes.length + 1 := by rw [hr.length]; simp [pushNode]
  have htable : s.idToNode.length = s.nodes.length ∧ s.vectors.length = s.nodes.length ∧
      s.deleted.length = s.nodes.length := by
    rw [hr.idToNode, hr.vectors, hr.deleted, hlen]
    simp [pushNode, hinv.ids, hinv.vectors, hinv.deleted]
  have hnodup : s.idToNode.Nodup := by rw [hr.idToNode]; exact hids
  have hdims : ∀ u ∈ s.vectors, u.length = s.dim := by
    rw [hr.vectors, hr.dim]
    exact hvecs
  have hlay : ∀ node ∈ s.nodes, 1 ≤ node.edges.length ∧
      node.edges.length ≤ max level idx.maxLayer + 1 :=
    Inv.of_rewired (P := fun n => 1 ≤ n ∧ n ≤ max level idx.maxLayer + 1) hr hlayers
  have htop : ∀ e l, s.HasLayer e l → (∀ node ∈ s.nodes, node.edges.length ≤ l + 1) →
      ∃ node, s.nodes[e]? = some node ∧ node.edges.length = l + 1 := by
    intro e l hlayer hmax
    obtain ⟨node, hnode, hlt⟩ := hasLayer_iff.mp hlayer
    have hle := hmax node (List.mem_of_getElem? hnode)
    exact ⟨node, hnode, by omega⟩
  split
  · next hlt =>
    have hmax : ∀ node ∈ s.nodes, 1 ≤ node.edges.length ∧ node.edges.length ≤ level + 1 := by
      intro node hnode
      have hle := hlay node hnode
      omega
    refine ⟨htable.1, htable.2.1, htable.2.2, hnodup, hdims, hmax, fun _ => ?_, hok.congr rfl rfl⟩
    obtain ⟨node, hnode, heq⟩ := htop idx.nodes.length level
      (hr.hasLayer.mpr (pushNode_top idx level id v)) fun node hnode => (hmax node hnode).2
    exact ⟨idx.nodes.length, node, rfl, hnode, heq⟩
  · next hge =>
    have hmaxLayer : s.maxLayer = idx.maxLayer := hr.entry.2
    have hmax : ∀ node ∈ s.nodes, 1 ≤ node.edges.length ∧
        node.edges.length ≤ s.maxLayer + 1 := by
      intro node hnode
      have hle := hlay node hnode
      omega
    refine ⟨htable.1, htable.2.1, htable.2.2, hnodup, hdims, hmax, fun _ => ?_, hok⟩
    obtain ⟨e, he, hlayer⟩ := hinv.wf.entry hne
    obtain ⟨node, hnode, heq⟩ := htop e s.maxLayer
      (hmaxLayer ▸ hr.hasLayer.mpr (hlayer.pushNode level id v))
      fun node hnode => (hmax node hnode).2
    exact ⟨e, node, hr.entry.1.trans he, hnode, heq⟩

theorem insert_inv [Narrow α β] {idx idx' : HnswIndex β} {level : Nat} {id : UInt64}
    {vector : List α} {r : Result Unit} (hinv : Inv idx)
    (h : insert D level idx id vector = some (idx', r)) : Inv idx' := by
  rcases insert_branches h with ⟨_, rfl, _⟩ | ⟨hdim, _, hcase⟩
  · exact hinv
  · have hlen : (vector.map Narrow.toF32 : List β).length = idx.dim := by
      rw [List.length_map]
      exact hdim
    rcases hcase with ⟨i, _, _, rfl⟩ | ⟨hnew, hnil, rfl⟩ | ⟨hnew, hne, hconn⟩
    · -- a known id: the vector is replaced
      refine ⟨hinv.ids, ?_, hinv.deleted, hinv.unique, ?_, hinv.layers, hinv.entry,
        hinv.edges.congr rfl rfl⟩
      · rw [List.length_set]
        exact hinv.vectors
      · intro v hv
        rcases List.mem_or_eq_of_mem_set hv with hv | rfl
        · exact hinv.dims v hv
        · exact hlen
    · -- the first node
      obtain ⟨hids, hvecs, _⟩ := hinv.pushNode_table (idx.randomLevel level) hnew hlen
      refine ⟨by simp [pushNode, hinv.ids], by simp [pushNode, hinv.vectors],
        by simp [pushNode, hinv.deleted], hids, hvecs, by simp [pushNode, hnil],
        fun _ => ⟨0, _, rfl, by simp [pushNode, hnil]; rfl, by simp⟩,
        (hinv.edges.pushNode (idx.randomLevel level) id (vector.map Narrow.toF32)).congr rfl rfl⟩
    · exact connect_inv_keeps hinv _ hnew hlen hne hconn

end Insert

theorem remove_inv {idx idx' : HnswIndex β} {id : UInt64} {r : Result Unit} (hinv : Inv idx)
    (h : idx.remove id = some (idx', r)) : Inv idx' := by
  unfold remove at h
  split at h
  · cases h
    exact hinv
  · split at h
    · cases h
      exact ⟨hinv.ids, hinv.vectors, by rw [List.length_set]; exact hinv.deleted, hinv.unique,
        hinv.dims, hinv.layers, hinv.entry, hinv.edges.congr rfl rfl⟩
    · cases h

theorem remove_some {idx : HnswIndex β} (hinv : Inv idx) (id : UInt64) :
    ∃ r, idx.remove id = some r := by
  unfold remove
  split
  · exact ⟨_, rfl⟩
  · next pos hpos =>
    obtain ⟨hlt, _⟩ := List.findIdx?_eq_some_iff_getElem.mp hpos
    rw [if_pos (by rw [hinv.deleted, ← hinv.ids]; exact hlt)]
    exact ⟨_, rfl⟩

/-! ## No call panics -/

section Total

variable [F32 β] [LawfulF32 β] [Narrow α β] {D : DistanceComputer β} {idx : HnswIndex β}

/-- A distance without NaN values. -/
structure NaNFree (D : DistanceComputer β) : Prop where
  distance : ∀ a b, F32.isNaN (D.distance a b) = false
  weighted : ∀ a b w, F32.isNaN (D.distanceWeighted a b w) = false

omit [LawfulF32 β] in
theorem NaNFree.query (hD : NaNFree D) (weights : Option (List β)) (a b : List β) :
    F32.isNaN (queryDistance D weights a b) = false := by
  cases weights with
  | none => exact hD.distance a b
  | some w => exact hD.weighted a b w

omit [F32 β] [LawfulF32 β] [Narrow α β] in
theorem lineComputer_nanFree : NaNFree lineComputer := ⟨fun _ _ => rfl, fun _ _ _ => rfl⟩

theorem apply_total (hD : NaNFree D) (hinv : Inv idx) (op : Op α) :
    ∃ r, idx.apply D op = some r := by
  cases op with
  | insert level id vector =>
    obtain ⟨idx', r, h, _⟩ := insert_some (D := D) hinv.wf level id vector
      fun u _ v _ => hD.distance u v
    exact ⟨(idx', r), h⟩
  | remove id => exact remove_some hinv id

theorem search_total (hD : NaNFree D) (hinv : Inv idx) (query : List α) (ef : Nat)
    (mask : Option (List (Nat × β))) : ∃ r, idx.search D query ef mask = some r := by
  by_cases hdim : query.length = idx.dim
  · by_cases hne : idx.nodes = []
    · exact ⟨.ok [], by rw [search, if_neg (by simpa using hdim)]; simp [hne]⟩
    · obtain ⟨_, _, _, _, _, h⟩ := search_spec hinv.wf hne hdim ef mask fun v _ =>
        hD.query _ v (query.map Narrow.toF32)
      exact ⟨_, h⟩
  · exact ⟨.error (.dimensionMismatch query.length idx.dim), by rw [search, if_pos hdim]⟩

omit [LawfulF32 β] in
theorem apply_frame {idx' : HnswIndex β} {op : Op α} {r : Result Unit}
    (h : idx.apply D op = some (idx', r)) : idx'.dim = idx.dim ∧ idx'.config = idx.config := by
  cases op with
  | insert level id vector => exact insert_frame h
  | remove id =>
    change idx.remove id = some (idx', r) at h
    unfold remove at h
    split at h
    · cases h
      exact ⟨rfl, rfl⟩
    · split at h
      · cases h
        exact ⟨rfl, rfl⟩
      · cases h

theorem apply_inv {idx' : HnswIndex β} {op : Op α} {r : Result Unit}
    (hinv : Inv idx) (h : idx.apply D op = some (idx', r)) : Inv idx' := by
  cases op with
  | insert level id vector => exact insert_inv hinv h
  | remove id => exact remove_inv hinv h

theorem reachable_inv {dim : Nat} {config : HnswConfig}
    (h : (calls (α := α) D dim config).Reachable idx) :
    Inv idx ∧ idx.dim = dim ∧ idx.config = config := by
  have hI : (calls (α := α) D dim config).Inductive fun idx =>
      Inv idx ∧ idx.dim = dim ∧ idx.config = config := by
    constructor
    · rintro idx rfl
      exact ⟨new_inv dim config, rfl, rfl⟩
    · rintro idx op idx' ⟨hinv, hdim, hconfig⟩ hst
      obtain ⟨⟨idx₁, r⟩, happly, rfl⟩ := Option.map_eq_some_iff.mp hst
      obtain ⟨hdim', hconfig'⟩ := apply_frame happly
      exact ⟨apply_inv hinv happly, hdim'.trans hdim, hconfig'.trans hconfig⟩
  exact hI.reachable idx h

/-- In every index that `insert` and `remove` reach, the invariant holds and no
`insert`, `remove` or `search` panics. -/
theorem calls_inv (hD : NaNFree D) (dim : Nat) (config : HnswConfig)
    (h : (calls (α := α) D dim config).Reachable idx) :
    Inv idx ∧ idx.dim = dim ∧ idx.config = config ∧
      (∀ op : Op α, ∃ r, idx.apply D op = some r) ∧
      ∀ (query : List α) ef mask, ∃ r, idx.search D query ef mask = some r := by
  obtain ⟨hinv, hdim, hconfig⟩ := reachable_inv h
  exact ⟨hinv, hdim, hconfig, apply_total hD hinv, search_total hD hinv⟩

end Total

/-- Three nodes with links between them, the middle one removed. -/
def bridge : HnswIndex Lit :=
  (onLine twoLinks [.insert 0 1 [.fin 0], .insert 1 2 [.fin 10], .insert 0 3 [.fin 20],
    .remove 2]).get (by decide +kernel)

theorem bridge_reachable :
    (calls (α := Lit) lineComputer 1 twoLinks).Reachable bridge :=
  onLine_reachable (Option.some_get _).symm

theorem calls_inv_bridge :
    Inv bridge ∧ bridge.nodes.map HnswNode.edges = [[[1]], [[0, 2], []], [[1]]] ∧
    ∃ r, bridge.search lineComputer [Lit.fin 1] 3 none = some r := by
  obtain ⟨hinv, _, _, _, hsearch⟩ := calls_inv lineComputer_nanFree 1 _ bridge_reachable
  exact ⟨hinv, by decide +kernel, hsearch [Lit.fin 1] 3 none⟩

end Tesseract.L3.HnswIndex
