import Tesseract.L3Index.HnswReach

/-!
# The edges behind a connection

What connecting a new node at one layer makes of the edges of that layer, edge
list by edge list. Other layers stay as they are.

* `linkAll_edges`: the new node gets its neighbours, each neighbour the new node.
* `shrinkAll_edges`: a neighbour whose list is too long keeps some of its edges,
  as many as it may.
* `connectStep_edges`: both, with what is known of the neighbours.
-/
namespace Tesseract.L3.HnswIndex

variable {β : Type}

/-! ## Linking -/

theorem pushEdge_edges {idx idx' : HnswIndex β} {i layer j : Nat}
    (h : idx.pushEdge i layer j = some idx') (k l : Nat) :
    idx'.edgesAt k l =
      if k = i ∧ l = layer then (idx.edgesAt k l).map (· ++ [j]) else idx.edgesAt k l := by
  unfold pushEdge at h
  simp only [Option.bind_eq_bind, Option.bind_eq_some_iff, Option.some.injEq] at h
  obtain ⟨es, hes, rfl⟩ := h
  rw [edgesAt_setEdges ⟨es, hes⟩]
  split
  · next hkl => rw [hkl.1, hkl.2, hes, Option.map_some]
  · rfl

/-- The new node gets every neighbour, and every neighbour the new node. -/
theorem linkAll_edges {nodeIdx layer : Nat} : ∀ (ns : List Nat) (idx idx' : HnswIndex β),
    linkAll nodeIdx layer ns idx = some idx' → ns.Nodup → nodeIdx ∉ ns → ∀ k l,
    idx'.edgesAt k l =
      if l = layer ∧ k = nodeIdx then (idx.edgesAt k l).map (· ++ ns)
      else if l = layer ∧ k ∈ ns then (idx.edgesAt k l).map (· ++ [nodeIdx])
      else idx.edgesAt k l := by
  intro ns
  induction ns with
  | nil =>
    intro idx idx' h _ _ k l
    cases h
    simp
  | cons n ns ih =>
    intro idx idx' h hnodup hnode k l
    rw [linkAll] at h
    simp only [Option.bind_eq_bind, Option.bind_eq_some_iff] at h
    obtain ⟨idx₁, h₁, idx₂, h₂, h₃⟩ := h
    rw [List.nodup_cons] at hnodup
    rw [List.mem_cons, not_or] at hnode
    rw [ih idx₂ idx' h₃ hnodup.2 hnode.2, pushEdge_edges h₂, pushEdge_edges h₁]
    by_cases hl : l = layer
    · by_cases hk : k = nodeIdx
      · have hkn : k ≠ n := by rw [hk]; exact hnode.1
        simp [hl, hk, hnode.1, Function.comp_def]
      · by_cases hkn : k = n
        · simp [hl, hkn, hnodup.1, Ne.symm hnode.1]
        · simp [hl, hk, hkn]
    · simp [hl]

/-! ## Shrinking -/

section Shrink

variable [F32 β] {D : DistanceComputer β}

omit [F32 β] in
theorem mapM_fst (vectors : List (List β)) (g : List β → β) : ∀ (es : List Nat)
    (pairs : List (Nat × β)), (es.mapM fun n => vectors[n]?.map fun v => (n, g v)) = some pairs →
    pairs.map Prod.fst = es := by
  intro es
  induction es with
  | nil =>
    intro pairs h
    cases h
    rfl
  | cons n es ih =>
    intro pairs h
    rw [List.mapM_cons] at h
    simp only [Option.bind_eq_bind, Option.bind_eq_some_iff, Option.map_eq_some_iff,
      Option.pure_def, Option.some.injEq] at h
    obtain ⟨_, ⟨v, _, rfl⟩, rest, hrest, rfl⟩ := h
    rw [List.map_cons, ih rest hrest]

/-- A shrink keeps a list that is short enough, and else as many edges as it may. -/
theorem shrinkConnections_edges {idx idx' : HnswIndex β} {i layer : Nat}
    (h : idx.shrinkConnections D i layer = some idx') :
    ∃ es es', idx.edgesAt i layer = some es ∧ es'.Subperm es ∧
      es'.length ≤ idx.maxConn layer ∧ (es.length ≤ idx.maxConn layer → es' = es) ∧
      ∀ k l, idx'.edgesAt k l = if k = i ∧ l = layer then some es' else idx.edgesAt k l := by
  unfold shrinkConnections at h
  simp only [Option.bind_eq_bind, Option.bind_eq_some_iff] at h
  obtain ⟨es, hes, h⟩ := h
  split at h
  · next hle =>
    cases h
    refine ⟨es, es, hes, List.Subperm.refl es, hle, fun _ => rfl, fun k l => ?_⟩
    split
    · next hkl => rw [hkl.1, hkl.2, hes]
    · rfl
  · next hgt =>
    simp only [Option.bind_eq_some_iff, Option.some.injEq] at h
    obtain ⟨center, _, pairs, hpairs, sorted, hsort, rfl⟩ := h
    refine ⟨es, _, hes, ?_, ?_, fun hle => absurd hle hgt, edgesAt_setEdges ⟨es, hes⟩ _⟩
    · -- the sort permutes the pairs, and their first components are the edges
      have hfst : pairs.map Prod.fst = es := mapM_fst _ _ _ _ hpairs
      unfold sortByDistance at hsort
      split at hsort
      · cases hsort
      · cases hsort
        rw [← hfst]
        have hperm := List.perm_insertionSort
          (fun a b : Nat × β => F32.gt a.2 b.2 = false) pairs
        exact ((List.take_sublist _ _).map Prod.fst).subperm.trans (hperm.map Prod.fst).subperm
    · rw [List.length_map]
      exact List.length_take_le _ _

/-- Shrinking at a layer touches the lists of `ns` at that layer. -/
theorem shrinkAll_edges {layer : Nat} : ∀ (ns : List Nat) (idx idx' : HnswIndex β),
    shrinkAll D layer ns idx = some idx' → ns.Nodup → ∀ k l es, idx.edgesAt k l = some es →
    ∃ es', idx'.edgesAt k l = some es' ∧ es'.Subperm es ∧ (¬ (k ∈ ns ∧ l = layer) → es' = es) ∧
      (es.length ≤ idx.maxConn l → es' = es) ∧
      (k ∈ ns → l = layer → es'.length ≤ idx.maxConn l) := by
  intro ns
  induction ns with
  | nil =>
    intro idx idx' h _ k l es hes
    cases h
    exact ⟨es, hes, List.Subperm.refl es, fun _ => rfl, fun _ => rfl, fun hk => absurd hk (by simp)⟩
  | cons n ns ih =>
    intro idx idx' h hnodup k l es hes
    rw [shrinkAll] at h
    simp only [Option.bind_eq_bind, Option.bind_eq_some_iff] at h
    obtain ⟨idx₁, h₁, h₂⟩ := h
    rw [List.nodup_cons] at hnodup
    have hmax := (shrinkConnections_rewired h₁).maxConn
    obtain ⟨es₀, es₁, hes₀, hsub, hlen, hkeep, hedges⟩ := shrinkConnections_edges h₁
    by_cases hk : k = n ∧ l = layer
    · -- the list of `n`, which the rest of `ns` leaves alone
      obtain ⟨rfl, rfl⟩ := hk
      rw [hes] at hes₀
      cases hes₀
      obtain ⟨es₂, hes₂, _, hother, _, _⟩ :=
        ih idx₁ idx' h₂ hnodup.2 k l es₁ (by rw [hedges, if_pos ⟨rfl, rfl⟩])
      have heq := hother fun hc => hnodup.1 hc.1
      subst heq
      exact ⟨es₂, hes₂, hsub, fun hc => absurd ⟨List.mem_cons_self, rfl⟩ hc, hkeep,
        fun _ _ => hlen⟩
    · obtain ⟨es₂, hes₂, hsub₂, hother, hkeep₂, hlen₂⟩ :=
        ih idx₁ idx' h₂ hnodup.2 k l es (by rw [hedges, if_neg hk]; exact hes)
      rw [hmax] at hkeep₂ hlen₂
      refine ⟨es₂, hes₂, hsub₂, ?_, hkeep₂, ?_⟩
      · intro hc
        exact hother fun hc' => hc ⟨List.mem_cons_of_mem n hc'.1, hc'.2⟩
      · intro hmem hl
        rcases List.mem_cons.mp hmem with rfl | hmem
        · exact absurd ⟨rfl, hl⟩ hk
        · exact hlen₂ hmem hl

/-! ## Connecting at one layer -/

/-- What connecting `nodeIdx` at a layer makes of its edges: the node gets the
neighbours `ns`, and a neighbour the node, if it has room or drops another edge. -/
structure Connected (nodeIdx layer : Nat) (ns : List Nat) (idx idx' : HnswIndex β) : Prop where
  others : ∀ k l, ¬ (l = layer ∧ (k = nodeIdx ∨ k ∈ ns)) → idx'.edgesAt k l = idx.edgesAt k l
  self : idx'.edgesAt nodeIdx layer = some ns
  neighbors : ∀ k ∈ ns, ∀ es, idx.edgesAt k layer = some es →
    ∃ es', idx'.edgesAt k layer = some es' ∧ es'.Subperm (es ++ [nodeIdx]) ∧
      es'.length ≤ idx.maxConn layer ∧
      (es.length < idx.maxConn layer → es' = es ++ [nodeIdx])

theorem connected {nodeIdx layer : Nat} {ns : List Nat} {idx idx₁ idx₂ : HnswIndex β}
    (hlink : linkAll nodeIdx layer ns idx = some idx₁) (hshrink : shrinkAll D layer ns idx₁ =
      some idx₂)
    (hnodup : ns.Nodup) (hnode : nodeIdx ∉ ns) (hself : idx.edgesAt nodeIdx layer = some []) :
    Connected nodeIdx layer ns idx idx₂ := by
  have hlinked := linkAll_edges ns idx idx₁ hlink hnodup hnode
  have hmax := (linkAll_rewired ns idx idx₁ hlink).maxConn
  have hshrunk := shrinkAll_edges ns idx₁ idx₂ hshrink hnodup
  have hrw := shrinkAll_rewired ns idx₁ idx₂ hshrink
  refine ⟨?_, ?_, ?_⟩
  · intro k l hkl
    have heq : idx₁.edgesAt k l = idx.edgesAt k l := by
      rw [hlinked, if_neg fun hc => hkl ⟨hc.1, .inl hc.2⟩,
        if_neg fun hc => hkl ⟨hc.1, .inr hc.2⟩]
    rw [← heq]
    cases hes : idx₁.edgesAt k l with
    | none =>
      cases hes' : idx₂.edgesAt k l with
      | none => rfl
      | some es' =>
        obtain ⟨es, hsome⟩ := hrw.hasLayer.mp ⟨es', hes'⟩
        rw [hes] at hsome
        cases hsome
    | some es =>
      obtain ⟨es', hes', _, hother, _⟩ := hshrunk k l es hes
      rw [hes', hother fun hc => hkl ⟨hc.2, .inr hc.1⟩]
  · have heq : idx₁.edgesAt nodeIdx layer = some ns := by
      rw [hlinked, if_pos ⟨rfl, rfl⟩, hself]
      rfl
    obtain ⟨es', hes', _, hother, _⟩ := hshrunk nodeIdx layer ns heq
    rw [hes', hother fun hc => hnode hc.1]
  · intro k hk es hes
    have hne : k ≠ nodeIdx := fun hc => hnode (hc ▸ hk)
    have heq : idx₁.edgesAt k layer = some (es ++ [nodeIdx]) := by
      rw [hlinked, if_neg fun hc => hne hc.2, if_pos ⟨rfl, hk⟩, hes]
      rfl
    obtain ⟨es', hes', hsub, _, hkeep, hlen⟩ := hshrunk k layer _ heq
    rw [hmax] at hkeep hlen
    refine ⟨es', hes', hsub, hlen hk rfl, fun hroom => hkeep ?_⟩
    rw [List.length_append, List.length_singleton]
    omega

/-- The node is not yet connected at the layer. -/
structure Detached (idx : HnswIndex β) (nodeIdx layer : Nat) : Prop where
  self : idx.edgesAt nodeIdx layer = some []
  incoming : ∀ k es, idx.edgesAt k layer = some es → nodeIdx ∉ es

omit [F32 β] in
theorem Detached.not_reaches {idx : HnswIndex β} {nodeIdx layer curr : Nat}
    (h : Detached idx nodeIdx layer) (hcurr : curr ≠ nodeIdx) {j : Nat}
    (hj : idx.Reaches layer curr j) : j ≠ nodeIdx := by
  refine hj.keeps (P := fun j => j ≠ nodeIdx) ?_ hcurr
  rintro i j _ ⟨es, hes, hmem, _⟩ rfl
  exact h.incoming i es hes hmem

/-- What a search from `curr` selects for a new node: distinct nodes of the layer the
walk reaches. -/
theorem selectNeighbors_walk {idx : HnswIndex β} {nodeIdx layer curr ef : Nat} {query : List β}
    {rs : List (Nat × β)} (h : idx.searchLayer D curr query ef layer = some rs)
    (hdet : Detached idx nodeIdx layer) (hcurr : curr ≠ nodeIdx) (m : Nat) :
    (selectNeighbors rs m).Nodup ∧
      ∀ n ∈ selectNeighbors rs m, idx.Reaches layer curr n ∧ n ≠ nodeIdx := by
  obtain ⟨hnodup, hwalk⟩ := searchWith_walk h
  refine ⟨hnodup.sublist ((List.take_sublist _ _).map Prod.fst), ?_⟩
  intro n hn
  obtain ⟨p, hp, rfl⟩ := List.mem_map.mp hn
  have hj := (hwalk p (List.mem_of_mem_take hp)).2
  exact ⟨hj, hdet.not_reaches hcurr hj⟩

/-- Connecting at one layer: the neighbours are distinct nodes of the layer the walk
from `curr` reaches, at most as many as the layer allows. -/
theorem connectStep_edges {idx idx' : HnswIndex β} {nodeIdx layer curr curr' : Nat}
    (h : connectStep D nodeIdx (idx, curr) layer = some (idx', curr'))
    (hdet : Detached idx nodeIdx layer) (hcurr : curr ≠ nodeIdx) :
    ∃ query rs, idx.vectors[nodeIdx]? = some query ∧
      idx.searchLayer D curr query idx.config.efConstruction layer = some rs ∧
      curr' = (selectNeighbors rs (idx.maxConn layer)).head?.getD curr ∧
      (selectNeighbors rs (idx.maxConn layer)).Nodup ∧
      (∀ n ∈ selectNeighbors rs (idx.maxConn layer), idx.Reaches layer curr n ∧ n ≠ nodeIdx) ∧
      Connected nodeIdx layer (selectNeighbors rs (idx.maxConn layer)) idx idx' := by
  unfold connectStep at h
  simp only [Option.bind_eq_bind, Option.bind_eq_some_iff, Option.some.injEq, Prod.mk.injEq] at h
  obtain ⟨query, hquery, rs, hrs, idx₁, hlink, idx₂, hshrink, rfl, rfl⟩ := h
  obtain ⟨hsel, hreach⟩ := selectNeighbors_walk hrs hdet hcurr (idx.maxConn layer)
  exact ⟨query, rs, hquery, hrs, rfl, hsel, hreach,
    connected hlink hshrink hsel (fun hn => (hreach nodeIdx hn).2 rfl) hdet.self⟩

end Shrink

end Tesseract.L3.HnswIndex
