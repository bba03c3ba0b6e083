import Tesseract.L3Index.HnswInvariant

/-!
# Which calls of the HNSW index panic

Two sorts of `hnsw.rs` unwrap the comparison of distances: the one of the results
of a query and the one of an edge list that is too long.

* `shrinkAll_some_iff`, `connectStep_some_iff`: a new node is connected at a layer
  exactly if no edge list it overfills has a NaN distance (`Clash`).
* `connectLayers_some_iff`: so at all layers, read off the index before the first.
* `call_some_iff`: a call returns exactly if it sorts no NaN (`SortsNaN`).
* `runs_return_iff`: so does every call of a run.
-/
namespace Tesseract.L3.HnswIndex

variable {α β : Type}

theorem map_some_iff {σ τ : Type} {f : σ → τ} {o : Option σ} :
    (∃ b, o.map f = some b) ↔ ∃ a, o = some a := by
  cases o <;> simp

section Connect

variable [F32 β] {D : DistanceComputer β}

/-! ## Shrinking -/

/-- The list `es` is too long for a layer, and as the edges of node `i` it cannot be
sorted. -/
def Jams (D : DistanceComputer β) (idx : HnswIndex β) (i layer : Nat) (es : List Nat) : Prop :=
  idx.maxConn layer < es.length ∧ 2 ≤ es.length ∧
    ∃ j ∈ es, F32.isNaN (D.distance (idx.vectorAt i) (idx.vectorAt j)) = true

theorem Jams.congr {idx idx' : HnswIndex β} (hr : Rewired idx idx') {i layer : Nat}
    {es : List Nat} : Jams D idx' i layer es ↔ Jams D idx i layer es := by
  unfold Jams vectorAt
  rw [hr.maxConn, hr.vectors]

theorem shrinkConnections_some_iff {idx : HnswIndex β} (hg : Linked idx) {i layer : Nat}
    {es : List Nat} (hes : idx.edgesAt i layer = some es) :
    (∃ idx', idx.shrinkConnections D i layer = some idx') ↔ ¬ Jams D idx i layer es := by
  rw [shrinkConnections_eq hg hes]
  split
  · next hle => simp [Jams, Nat.not_lt.mpr hle]
  · next hgt =>
    have hsort := sortByDistance_some_iff (ranked D idx i es)
    simp only [ranked, List.length_map, List.mem_map, exists_exists_and_eq_and] at hsort
    simp only [map_some_iff, Jams, Nat.lt_of_not_le hgt, true_and, ← hsort, ranked]

theorem shrinkAll_some_iff (layer : Nat) : ∀ (ns : List Nat) (idx : HnswIndex β), Linked idx →
    ns.Nodup → (∀ n ∈ ns, idx.HasLayer n layer) →
    ((∃ idx', shrinkAll D layer ns idx = some idx') ↔
      ∀ n ∈ ns, ∀ es, idx.edgesAt n layer = some es → ¬ Jams D idx n layer es) := by
  intro ns
  induction ns with
  | nil =>
    intro idx _ _ _
    simp [shrinkAll]
  | cons n ns ih =>
    intro idx hg hnodup hns
    rw [List.nodup_cons] at hnodup
    obtain ⟨es, hes⟩ := hns n List.mem_cons_self
    have hone := shrinkConnections_some_iff (D := D) hg hes
    cases hshrink : idx.shrinkConnections D n layer with
    | none =>
      have hjam : Jams D idx n layer es := by simpa [hshrink] using hone
      simp only [shrinkAll, hshrink, Option.bind_eq_bind, Option.bind_none]
      exact ⟨by simp, fun h => absurd hjam (h n List.mem_cons_self es hes)⟩
    | some idx₁ =>
      have hok : ¬ Jams D idx n layer es := hone.mp ⟨idx₁, hshrink⟩
      have hr := shrinkConnections_rewired hshrink
      obtain ⟨_, _, _, _, _, _, hedges⟩ := shrinkConnections_edges hshrink
      -- the lists of the other nodes are as before
      have hsame : ∀ m ∈ ns, idx₁.edgesAt m layer = idx.edgesAt m layer := by
        intro m hm
        have hne : m ≠ n := fun hc => hnodup.1 (hc ▸ hm)
        rw [hedges, if_neg fun hc => hne hc.1]
      have hrest := ih idx₁ (shrinkConnections_linked hg ⟨es, hes⟩ hshrink) hnodup.2
        fun m hm => hr.hasLayer.mpr (hns m (List.mem_cons_of_mem n hm))
      simp only [shrinkAll, hshrink, Option.bind_eq_bind, Option.bind_some, hrest]
      constructor
      · intro h m hm es' hes'
        rcases List.mem_cons.mp hm with rfl | hm
        · rw [hes] at hes'
          cases hes'
          exact hok
        · exact (Jams.congr hr).not.mp (h m hm es' (by rw [hsame m hm]; exact hes'))
      · intro h m hm es' hes'
        rw [hsame m hm] at hes'
        exact (Jams.congr hr).not.mpr (h m (List.mem_cons_of_mem n hm) es' hes')

/-! ## Connecting at one layer -/

/-- The nodes a new node selects at a layer, when the search starts at `curr`. -/
def nearest (D : DistanceComputer β) (idx : HnswIndex β) (nodeIdx curr layer : Nat) : List Nat :=
  selectNeighbors ((idx.searchLayer D curr (idx.vectorAt nodeIdx) idx.config.efConstruction
    layer).getD []) (idx.maxConn layer)

/-- The link from `n` to the new node makes a list that jams. -/
def Clash (D : DistanceComputer β) (idx : HnswIndex β) (nodeIdx n layer : Nat) : Prop :=
  ∃ es, idx.edgesAt n layer = some es ∧ Jams D idx n layer (es ++ [nodeIdx])

/-- Connecting at one layer returns exactly if no selected node clashes. -/
theorem connectStep_some_iff {idx : HnswIndex β} {nodeIdx layer curr : Nat} (hg : Linked idx)
    (hdet : Detached idx nodeIdx layer) (hcurr : curr ≠ nodeIdx)
    (hlayer : idx.HasLayer curr layer) :
    (∃ s, connectStep D nodeIdx (idx, curr) layer = some s) ↔
      ∀ n ∈ nearest D idx nodeIdx curr layer, ¬ Clash D idx nodeIdx n layer := by
  have hnode : idx.HasLayer nodeIdx layer := ⟨[], hdet.self⟩
  have hlt : nodeIdx < idx.vectors.length := by rw [hg.vectors]; exact hnode.lt
  obtain ⟨rs, hrs, _⟩ :=
    searchWith_some hg D.distance (idx.vectorAt nodeIdx) hlayer idx.config.efConstruction
  have hns : nearest D idx nodeIdx curr layer = selectNeighbors rs (idx.maxConn layer) := by
    rw [nearest, searchLayer, hrs, Option.getD_some]
  obtain ⟨hnodup, hnear⟩ := selectNeighbors_walk hrs hdet hcurr (idx.maxConn layer)
  rw [← hns] at hnodup hnear
  have hmem : ∀ n ∈ nearest D idx nodeIdx curr layer, idx.HasLayer n layer :=
    fun n hn => (hnear n hn).1.hasLayer hg hlayer
  have hself : nodeIdx ∉ nearest D idx nodeIdx curr layer := fun hn => (hnear nodeIdx hn).2 rfl
  obtain ⟨idx₁, hlink, hg₁⟩ := linkAll_some nodeIdx layer _ idx hg hnode hmem
  have hr := linkAll_rewired _ _ _ hlink
  have hedges := linkAll_edges _ _ _ hlink hnodup hself
  have hshrink := shrinkAll_some_iff (D := D) layer _ idx₁ hg₁ hnodup
    fun n hn => hr.hasLayer.mpr (hmem n hn)
  have hstep : connectStep D nodeIdx (idx, curr) layer =
      (shrinkAll D layer (nearest D idx nodeIdx curr layer) idx₁).map fun idx₂ =>
        (idx₂, (nearest D idx nodeIdx curr layer).head?.getD curr) := by
    rw [connectStep, vectorAt_eq hlt]
    simp only [Option.bind_eq_bind, Option.bind_some, searchLayer, hrs, ← hns, hlink]
    exact (Option.map_eq_bind ..).symm
  rw [hstep, map_some_iff, hshrink]
  refine forall₂_congr fun n hn => ?_
  -- a selected node has its old edges and the new node
  have hne : n ≠ nodeIdx := (hnear n hn).2
  have hat : idx₁.edgesAt n layer = (idx.edgesAt n layer).map (· ++ [nodeIdx]) := by
    rw [hedges, if_neg fun hc => hne hc.2, if_pos ⟨rfl, hn⟩]
  simp only [hat, Clash, Option.map_eq_some_iff, not_exists, not_and, Jams.congr hr,
    forall_exists_index, and_imp, forall_apply_eq_imp_iff₂]

/-- The next layer starts at the closest of the selected nodes. -/
theorem connectStep_head {idx idx' : HnswIndex β} {nodeIdx layer curr curr' : Nat}
    (h : connectStep D nodeIdx (idx, curr) layer = some (idx', curr')) :
    curr' = (nearest D idx nodeIdx curr layer).head?.getD curr := by
  unfold connectStep at h
  simp only [Option.bind_eq_bind, Option.bind_eq_some_iff, Option.some.injEq, Prod.mk.injEq] at h
  obtain ⟨query, hquery, rs, hrs, _, _, _, _, _, rfl⟩ := h
  have hvec : idx.vectorAt nodeIdx = query := by
    rw [vectorAt, List.getD_eq_getElem?_getD, hquery, Option.getD_some]
  rw [nearest, hvec, hrs, Option.getD_some]

/-! ## Connecting at every layer -/

/-- `idx'` is `idx` with other edges, none of them at `layer`. -/
structure SameLayer (idx idx' : HnswIndex β) (layer : Nat) : Prop where
  rewired : Rewired idx idx'
  edges : ∀ k, idx'.edgesAt k layer = idx.edgesAt k layer

omit [F32 β] in
theorem SameLayer.distTo {idx idx' : HnswIndex β} {layer : Nat} (h : SameLayer idx idx' layer)
    (f : List β → List β → β) (query : List β) (i : Nat) :
    idx'.distTo f query i = idx.distTo f query i := by
  rw [HnswIndex.distTo, HnswIndex.distTo, h.rewired.vectors]

theorem SameLayer.visitNeighbors {idx idx' : HnswIndex β} {layer : Nat}
    (h : SameLayer idx idx' layer) (f : List β → List β → β) (query : List β) (ef : Nat) :
    ∀ (es : List Nat) (s : LayerSearch β),
    HnswIndex.visitNeighbors f idx' query ef es s =
      HnswIndex.visitNeighbors f idx query ef es s := by
  intro es
  induction es with
  | nil => exact fun s => rfl
  | cons n es ih =>
    intro s
    simp only [HnswIndex.visitNeighbors, h.distTo, h.rewired.deleted, ih]

theorem SameLayer.searchLoop {idx idx' : HnswIndex β} {layer : Nat}
    (h : SameLayer idx idx' layer) (f : List β → List β → β) (query : List β) (ef : Nat) :
    ∀ (fuel : Nat) (s : LayerSearch β), HnswIndex.searchLoop f idx' query ef layer fuel s =
      HnswIndex.searchLoop f idx query ef layer fuel s := by
  intro fuel
  induction fuel with
  | zero => exact fun s => rfl
  | succ fuel ih =>
    intro s
    simp only [HnswIndex.searchLoop, h.edges, h.visitNeighbors, ih]

/-- A search reads the edges of its layer only. -/
theorem SameLayer.nearest {idx idx' : HnswIndex β} {layer : Nat} (h : SameLayer idx idx' layer)
    (nodeIdx curr : Nat) :
    HnswIndex.nearest D idx' nodeIdx curr layer = HnswIndex.nearest D idx nodeIdx curr layer := by
  unfold HnswIndex.nearest searchLayer searchWith vectorAt
  simp only [h.distTo, h.searchLoop, h.rewired.vectors, h.rewired.length, h.rewired.maxConn,
    h.rewired.config]

theorem SameLayer.clash {idx idx' : HnswIndex β} {layer : Nat} (h : SameLayer idx idx' layer)
    (nodeIdx n : Nat) : Clash D idx' nodeIdx n layer ↔ Clash D idx nodeIdx n layer := by
  simp only [Clash, h.edges, Jams.congr h.rewired]

/-- The nodes a new node selects, with their layers, from `top` down: each layer is
searched from the closest node of the one above. -/
def selected (D : DistanceComputer β) (idx : HnswIndex β) (nodeIdx : Nat) :
    Nat → Nat → List (Nat × Nat)
  | 0, curr => (nearest D idx nodeIdx curr 0).map fun n => (0, n)
  | top + 1, curr => (nearest D idx nodeIdx curr (top + 1)).map (fun n => (top + 1, n)) ++
      selected D idx nodeIdx top ((nearest D idx nodeIdx curr (top + 1)).head?.getD curr)

theorem selected_congr {idx idx' : HnswIndex β} (nodeIdx : Nat) : ∀ (top curr : Nat),
    (∀ l ≤ top, SameLayer idx idx' l) →
    selected D idx' nodeIdx top curr = selected D idx nodeIdx top curr := by
  intro top
  induction top with
  | zero =>
    intro curr h
    rw [selected, selected, (h 0 (Nat.le_refl 0)).nearest]
  | succ top ih =>
    intro curr h
    rw [selected, selected, (h (top + 1) (Nat.le_refl _)).nearest,
      ih _ fun l hl => h l (Nat.le_succ_of_le hl)]

theorem selected_le {idx : HnswIndex β} {nodeIdx : Nat} : ∀ {top curr : Nat} {p : Nat × Nat},
    p ∈ selected D idx nodeIdx top curr → p.1 ≤ top := by
  intro top
  induction top with
  | zero =>
    intro curr p hp
    obtain ⟨n, _, rfl⟩ := List.mem_map.mp hp
    exact Nat.le_refl 0
  | succ top ih =>
    intro curr p hp
    rcases List.mem_append.mp hp with hp | hp
    · obtain ⟨n, _, rfl⟩ := List.mem_map.mp hp
      exact Nat.le_refl _
    · exact Nat.le_succ_of_le (ih hp)

/-- Connecting returns exactly if no selected node clashes, in the index before the
first layer was connected. -/
theorem connectLayers_some_iff {nodeIdx : Nat} : ∀ (top curr : Nat) (idx : HnswIndex β),
    Linked idx → EdgesOk idx → (∀ l ≤ top, Detached idx nodeIdx l) → curr ≠ nodeIdx →
    idx.HasLayer curr top →
    ((∃ s, (layersDown 0 top).foldlM (connectStep D nodeIdx) (idx, curr) = some s) ↔
      ∀ p ∈ selected D idx nodeIdx top curr, ¬ Clash D idx nodeIdx p.2 p.1) := by
  intro top
  induction top with
  | zero =>
    intro curr idx hg _ hdet hcurr hlayer
    have hstep := connectStep_some_iff (D := D) hg (hdet 0 (Nat.le_refl 0)) hcurr hlayer
    simpa [layersDown_zero, selected] using hstep
  | succ top ih =>
    intro curr idx hg hok hdet hcurr hlayer
    have hstep := connectStep_some_iff (D := D) hg (hdet (top + 1) (Nat.le_refl _)) hcurr hlayer
    rw [layersDown_succ, if_pos (Nat.zero_le _), selected]
    simp only [List.foldlM_cons, List.forall_mem_append, List.forall_mem_map, ← hstep]
    cases h₁ : connectStep D nodeIdx (idx, curr) (top + 1) with
    | none => simp
    | some s₁ =>
      obtain ⟨idx₁, curr₁⟩ := s₁
      have hr : Rewired idx idx₁ := connectStep_rewired h₁
      obtain ⟨hok₁, hcurr₁, hlayer₁, hsame₁⟩ :=
        connectStep_edgesOk h₁ hg hok (hdet (top + 1) (Nat.le_refl _)) hcurr hlayer
      obtain rfl := connectStep_head h₁
      have hlower : ∀ l ≤ top, SameLayer idx idx₁ l := fun l hl => ⟨hr, hsame₁ l (by omega)⟩
      have hrest := ih _ idx₁ (hok₁.linked hg hr) hok₁
        (fun l hl => (hdet l (by omega)).congr (hsame₁ l (by omega))) hcurr₁
        (hlayer₁.mono (Nat.le_succ top))
      rw [selected_congr nodeIdx top _ hlower] at hrest
      simp only [Option.bind_eq_bind, Option.bind_some, Option.some.injEq, exists_eq', true_and,
        hrest]
      exact forall₂_congr fun p hp => not_congr ((hlower p.1 (selected_le hp)).clash nodeIdx p.2)

/-! ## Insert and search -/

/-- The node the connection of a new one starts at. -/
def startOf (D : DistanceComputer β) (idx : HnswIndex β) (query : List β) (level : Nat) :
    Option Nat := do
  let entry ← idx.entryPoint
  let entryNode ← idx.nodes[entry]?
  (layersDown (level + 1) (min idx.maxLayer (entryNode.edges.length - 1))).foldlM
    (idx.descendStep D query) entry

theorem connect_eq {idx : HnswIndex β} {nodeIdx level curr : Nat} {query : List β}
    (hquery : idx.vectors[nodeIdx]? = some query)
    (hstart : idx.startOf D query level = some curr) :
    idx.connect D nodeIdx level =
      ((layersDown 0 (min level idx.maxLayer)).foldlM (connectStep D nodeIdx) (idx, curr)).map
        fun s => if s.1.maxLayer < level then
          { s.1 with maxLayer := level, entryPoint := some nodeIdx } else s.1 := by
  simp only [startOf, Option.bind_eq_bind, Option.bind_eq_some_iff] at hstart
  obtain ⟨entry, hentry, node, hnode, hdesc⟩ := hstart
  rw [connect, hentry]
  simp only [Option.bind_eq_bind, Option.bind_some, hnode, hquery, hdesc, Option.map_eq_bind]
  exact congrArg _ (funext fun s => (apply_ite some (s.1.maxLayer < level) _ _).symm)

/-- A node that the new one selects clashes with it. -/
def InsertClash (D : DistanceComputer β) (idx : HnswIndex β) (level : Nat) (id : UInt64)
    (v : List β) : Prop :=
  ∃ curr, (idx.pushNode level id v).startOf D v level = some curr ∧
    ∃ p ∈ selected D (idx.pushNode level id v) idx.nodes.length (min level idx.maxLayer) curr,
      Clash D (idx.pushNode level id v) idx.nodes.length p.2 p.1

theorem connect_some_iff [LawfulF32 β] {idx : HnswIndex β} (hinv : Inv idx) (level : Nat)
    (id : UInt64) (v : List β) (hne : idx.nodes ≠ []) :
    (∃ idx', (idx.pushNode level id v).connect D idx.nodes.length level = some idx') ↔
      ¬ InsertClash D idx level id v := by
  obtain ⟨e, node, curr, he, hnode, hdesc, hcurr, hlayer⟩ :=
    start_some (D := D) hinv level id (v := v) hne
  have hentry : (idx.pushNode level id v).entryPoint = some e := he
  have hstart : (idx.pushNode level id v).startOf D v level = some curr := by
    rw [startOf, hentry, Option.bind_eq_bind, Option.bind_some, hnode]
    exact hdesc
  have hlayers := connectLayers_some_iff (D := D) (min level idx.maxLayer) curr
    (idx.pushNode level id v) (hinv.wf.linked.pushNode level id v)
    (hinv.edges.pushNode level id v)
    (fun l hl =>
      hinv.wf.linked.pushNode_detached level id v (Nat.le_trans hl (Nat.min_le_left _ _)))
    hcurr hlayer
  rw [connect_eq (hinv.pushNode_vector level id v) hstart, map_some_iff]
  refine hlayers.trans ?_
  simp only [InsertClash, hstart, Option.some.injEq, exists_eq_left', not_exists, not_and]

/-- The live results of a query are two or more, one of them at a NaN distance. -/
def SearchClash (D : DistanceComputer β) (idx : HnswIndex β) (query : List β) (ef : Nat)
    (mask : Option (List (Nat × β))) : Prop :=
  ∃ curr rs, idx.descent (queryDistance D (mask.map fun m => maskToDense m idx.dim)) query =
      some curr ∧
    searchWith (queryDistance D (mask.map fun m => maskToDense m idx.dim)) idx curr query ef 0 =
      some rs ∧
    2 ≤ (idx.collect ef rs).length ∧ ∃ p ∈ idx.collect ef rs, F32.isNaN p.2 = true

end Connect

/-! ## Runs -/

inductive Call (α β : Type) where
  | write (op : Op α)
  | search (query : List α) (ef : Nat) (mask : Option (List (Nat × β)))
  deriving DecidableEq, Repr

section Runs

variable [F32 β] [Narrow α β]

/-- The index behind a call that returns. -/
def call (D : DistanceComputer β) (idx : HnswIndex β) : Call α β → Option (HnswIndex β)
  | .write op => (idx.apply D op).map Prod.fst
  | .search query ef mask => (idx.search D query ef mask).map fun _ => idx

/-- What a call sorts holds a NaN. -/
def SortsNaN (D : DistanceComputer β) (idx : HnswIndex β) : Call α β → Prop
  | .write (.insert level id vector) =>
    vector.length = idx.dim ∧ id ∉ idx.idToNode ∧ idx.nodes ≠ [] ∧
      InsertClash D idx (idx.randomLevel level) id (vector.map Narrow.toF32)
  | .write (.remove _) => False
  | .search query ef mask =>
    query.length = idx.dim ∧ idx.nodes ≠ [] ∧ SearchClash D idx (query.map Narrow.toF32) ef mask

variable [LawfulF32 β] {D : DistanceComputer β} {idx : HnswIndex β}

theorem insert_some_iff (hinv : Inv idx) (level : Nat) (id : UInt64) (vector : List α) :
    (∃ r, insert D level idx id vector = some r) ↔
      ¬ SortsNaN D idx (.write (.insert level id vector)) := by
  unfold insert SortsNaN
  by_cases hdim : vector.length = idx.dim
  · simp only [hdim, ne_eq, not_true_eq_false, if_false, true_and]
    cases hf : idx.idToNode.findIdx? (· == id) with
    | some existing =>
      obtain ⟨hlt, heq, _⟩ := List.findIdx?_eq_some_iff_getElem.mp hf
      have hmem : id ∈ idx.idToNode := (eq_of_beq heq) ▸ List.getElem_mem hlt
      have hvec : existing < idx.vectors.length := by rw [hinv.vectors, ← hinv.ids]; exact hlt
      simp [hvec, hmem]
    | none =>
      have hmem : id ∉ idx.idToNode := by
        intro hmem
        simpa using List.findIdx?_eq_none_iff.mp hf id hmem
      by_cases hnil : idx.nodes = []
      · simp [hnil]
      · have hpos : idx.nodes.length ≠ 0 := by simpa using hnil
        simp only [hpos, if_false, hmem, not_false_eq_true, true_and, hnil, map_some_iff]
        exact connect_some_iff hinv _ id _ hnil
  · simp [hdim]

theorem search_some_iff (hinv : Inv idx) (query : List α) (ef : Nat)
    (mask : Option (List (Nat × β))) :
    (∃ r, idx.search D query ef mask = some r) ↔ ¬ SortsNaN D idx (.search query ef mask) := by
  by_cases hdim : query.length = idx.dim
  · by_cases hnil : idx.nodes = []
    · simp [search, SortsNaN, hdim, hnil]
    · obtain ⟨curr, rs, hcurr, _, hrs, hsearch⟩ := search_sorts (D := D) hinv.wf hnil hdim ef mask
      have hclash : SortsNaN D idx (.search query ef mask) ↔
          2 ≤ (idx.collect ef rs).length ∧ ∃ p ∈ idx.collect ef rs, F32.isNaN p.2 = true := by
        simp [SortsNaN, SearchClash, hdim, hnil, hcurr, hrs]
      rw [hclash, hsearch, map_some_iff]
      exact sortByDistance_some_iff _
  · simp [search, SortsNaN, hdim]

/-- A call returns exactly if it sorts no NaN. -/
theorem call_some_iff (hinv : Inv idx) (c : Call α β) :
    (∃ idx', call D idx c = some idx') ↔ ¬ SortsNaN D idx c := by
  cases c with
  | write op =>
    rw [call, map_some_iff]
    cases op with
    | insert level id vector => exact insert_some_iff hinv level id vector
    | remove id => exact iff_of_true (remove_some hinv id) not_false
  | search query ef mask =>
    rw [call, map_some_iff]
    exact search_some_iff hinv query ef mask

theorem call_inv {idx' : HnswIndex β} {c : Call α β} (hinv : Inv idx)
    (h : call D idx c = some idx') : Inv idx' := by
  cases c with
  | write op =>
    obtain ⟨⟨_, r⟩, happly, rfl⟩ := Option.map_eq_some_iff.mp h
    exact apply_inv hinv happly
  | search query ef mask =>
    obtain ⟨_, _, rfl⟩ := Option.map_eq_some_iff.mp h
    exact hinv

/-- No call of a run panics exactly if none sorts a NaN, in the index it is made on. -/
theorem runs_return_iff (D : DistanceComputer β) (dim : Nat) (config : HnswConfig)
    (cs : List (Call α β)) :
    (∃ idx, cs.foldlM (call D) (new dim config) = some idx) ↔
      ∀ front c back idx, cs = front ++ c :: back →
        front.foldlM (call D) (new dim config) = some idx → ¬ SortsNaN D idx c :=
  LTS.foldlM_some_iff (I := Inv) (fun _ _ _ => call_inv) (fun _ c hinv => call_some_iff hinv c) cs _
    (new_inv dim config)

end Runs

/-- A NaN, then a zero, on the bottom layer, and one call more. -/
def nanThen (c : Call Lit Lit) : List (Call Lit Lit) :=
  [.write (.insert 0 1 [.nan]), .write (.insert 0 2 [.fin 0]), c]

/-- Both vectors are within `ef = 2` of the query, at distances NaN and 0. With one link
a node, a third vector overfills the list of the first. -/
theorem nan_panics :
    ((nanThen (.search [.fin 0] 2 none)).take 2).foldlM (call euclideanComputer)
      (new 1 twoLinks) ≠ none ∧
    (nanThen (.search [.fin 0] 2 none)).foldlM (call euclideanComputer) (new 1 twoLinks) = none ∧
    (nanThen (.write (.insert 0 3 [.fin 0]))).foldlM (call euclideanComputer)
      (new 1 ⟨1, 1, 2, .euclidean⟩) = none := by
  refine ⟨?_, ?_, ?_⟩
  · exact Option.isSome_iff_ne_none.mp (by decide +kernel)
  · exact Option.isNone_iff_eq_none.mp (by decide +kernel)
  · exact Option.isNone_iff_eq_none.mp (by decide +kernel)

/-- The index that holds the NaN and the zero. -/
def nanStored : HnswIndex Lit :=
  ((nanThen (.search [.fin 0] 1 none)).take 2 |>.foldlM (call euclideanComputer)
    (new 1 twoLinks)).get (by decide +kernel)

/-- A search that keeps one candidate has nothing to compare, and returns. -/
theorem nan_kept : (nanThen (.search [.fin 0] 1 none)).foldlM (call euclideanComputer)
      (new 1 twoLinks) ≠ none ∧
    ¬ SortsNaN euclideanComputer nanStored (.search [Lit.fin 0] 1 none) := by
  have hrun : ∃ idx, (nanThen (.search [.fin 0] 1 none)).foldlM (call euclideanComputer)
      (new 1 twoLinks) = some idx := Option.isSome_iff_exists.mp (by decide +kernel)
  refine ⟨Option.ne_none_iff_exists'.mpr hrun, ?_⟩
  exact (runs_return_iff euclideanComputer 1 twoLinks (nanThen (.search [.fin 0] 1 none))).mp hrun
    ((nanThen (.search [.fin 0] 1 none)).take 2) _ [] nanStored rfl (Option.some_get _).symm

end Tesseract.L3.HnswIndex
