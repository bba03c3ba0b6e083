import Mathlib.Logic.Relation
import Tesseract.L3Index.HnswQuery

/-!
# What a search of a layer finds

A search walks over neighbours that are not tombstoned. `Reaches` is that walk as
a relation; the start itself is visited whatever its flag says.

* `searchLoop_keeps`: the induction rule of the search.
* `searchWith_walk`: for every `ef`, the results are distinct nodes the walk
  reaches, each with its distance from the query.
* `searchWith_full`: with `ef` at least the number of nodes, they are all of them.
-/
namespace Tesseract.L3.HnswIndex

variable {β : Type}

/-- `j` is a neighbour of `i` the search does not skip. -/
def Steps (idx : HnswIndex β) (layer i j : Nat) : Prop :=
  ∃ es, idx.edgesAt i layer = some es ∧ j ∈ es ∧ idx.deleted[j]? = some false

def Reaches (idx : HnswIndex β) (layer : Nat) : Nat → Nat → Prop :=
  Relation.ReflTransGen (idx.Steps layer)

/-- What every step of the walk keeps, the walk keeps. -/
theorem Reaches.keeps {idx : HnswIndex β} {layer i j : Nat} (h : idx.Reaches layer i j)
    {P : Nat → Prop} (hP : ∀ i j, P i → idx.Steps layer i j → P j) (hi : P i) : P j := by
  induction h with
  | refl => exact hi
  | tail _ hst ih => exact hP _ _ ih hst

theorem Reaches.hasLayer {idx : HnswIndex β} (hg : Linked idx) {layer i j : Nat}
    (hi : idx.HasLayer i layer) (h : idx.Reaches layer i j) : idx.HasLayer j layer := by
  refine h.keeps (P := fun j => idx.HasLayer j layer) ?_ hi
  rintro i j _ ⟨es, hes, hj, _⟩
  exact hg.targets i layer es hes j hj

section Rules

variable [F32 β] {f : List β → List β → β} {idx : HnswIndex β} {query : List β} {ef layer : Nat}

/-! ## Induction rules -/

/-- The state behind a visit of `n` at distance `d`. -/
def LayerSearch.visit (s : LayerSearch β) (ef : Nat) (d : β) (n : Nat) (accepted : Bool) :
    LayerSearch β :=
  if accepted then LayerSearch.accept { s with visited := s.visited.set n true } ef d n
  else { s with visited := s.visited.set n true }

/-- What every visit keeps, the `for` over the neighbours keeps. -/
theorem visitNeighbors_keeps {P : LayerSearch β → Prop} : ∀ {es : List Nat} {s s' : LayerSearch β},
    visitNeighbors f idx query ef es s = some s' →
    (∀ n ∈ es, ∀ d s accepted, s.visited[n]? = some false → idx.deleted[n]? = some false →
      idx.distTo f query n = some d → s.accepts ef d = some accepted → P s →
      P (s.visit ef d n accepted)) →
    P s → P s' := by
  intro es
  induction es with
  | nil =>
    intro s s' h _ hs
    cases h
    exact hs
  | cons n es ih =>
    intro s s' h hP hs
    have hP' := fun m hm => hP m (List.mem_cons_of_mem n hm)
    rw [visitNeighbors] at h
    simp only [Option.bind_eq_bind, Option.bind_eq_some_iff] at h
    obtain ⟨visited, hv, h⟩ := h
    cases visited with
    | true => exact ih h hP' hs
    | false =>
      simp only [Bool.false_eq_true, if_false, Option.bind_eq_some_iff] at h
      obtain ⟨deleted, hd, h⟩ := h
      cases deleted with
      | true => exact ih h hP' hs
      | false =>
        simp only [Bool.false_eq_true, if_false, Option.bind_eq_some_iff] at h
        obtain ⟨d, hdist, accepted, hacc, h⟩ := h
        exact ih h hP' (hP n List.mem_cons_self d s accepted hv hd hdist hacc hs)

/-- A search ends with no candidate left, or early; what every round keeps holds then. -/
theorem searchLoop_keeps {P : LayerSearch β → Prop}
    (hP : ∀ s s' d i candidates es, BinaryHeap.pop cmpReverse s.candidates =
      some ((d, i), candidates) → idx.edgesAt i layer = some es →
      visitNeighbors f idx query ef es { s with candidates := candidates } = some s' → P s → P s') :
    ∀ {fuel : Nat} {s s' : LayerSearch β}, searchLoop f idx query ef layer fuel s = some s' →
    P s → ∃ s₁, P s₁ ∧ s'.results = s₁.results ∧
      (s₁.candidates = [] ∨ ∃ d, s₁.done ef d = true) := by
  intro fuel
  induction fuel with
  | zero =>
    intro s s' h
    cases h
  | succ fuel ih =>
    intro s s' h hs
    rw [searchLoop] at h
    split at h
    · next hpop =>
      cases h
      exact ⟨s, hs, rfl, .inl ((BinaryHeap.pop_eq_none cmpReverse).mp hpop)⟩
    · next d i candidates hpop =>
      split at h
      · next hdone =>
        cases h
        exact ⟨s, hs, rfl, .inr ⟨d, hdone⟩⟩
      · simp only [Option.bind_eq_bind, Option.bind_eq_some_iff] at h
        obtain ⟨es, hes, s₂, hvisit, h⟩ := h
        exact ih h (hP s s₂ d i candidates es hpop hes hvisit hs)

/-! ## Greedy descent -/

theorem greedyRound_from : ∀ {es : List Nat} {curr : Nat} {d : β} {changed : Bool}
    {r : Nat × β × Bool}, greedyRound f idx query es curr d changed = some r →
    r.1 = curr ∨ (r.1 ∈ es ∧ idx.deleted[r.1]? = some false) := by
  intro es
  induction es with
  | nil =>
    intro curr d changed r h
    cases h
    exact .inl rfl
  | cons n es ih =>
    intro curr d changed r h
    have later : r.1 = curr ∨ (r.1 ∈ es ∧ idx.deleted[r.1]? = some false) →
        r.1 = curr ∨ (r.1 ∈ n :: es ∧ idx.deleted[r.1]? = some false) :=
      fun hr => hr.imp_right fun ⟨hmem, hdel⟩ => ⟨List.mem_cons_of_mem n hmem, hdel⟩
    rw [greedyRound] at h
    simp only [Option.bind_eq_bind, Option.bind_eq_some_iff] at h
    obtain ⟨deleted, hdel, h⟩ := h
    cases deleted with
    | true => exact later (ih h)
    | false =>
      simp only [Bool.false_eq_true, if_false, Option.bind_eq_some_iff] at h
      obtain ⟨e, _, h⟩ := h
      split at h
      · rcases ih h with hr | ⟨hmem, hdel'⟩
        · exact .inr ⟨by rw [hr]; exact List.mem_cons_self, by rw [hr]; exact hdel⟩
        · exact .inr ⟨List.mem_cons_of_mem n hmem, hdel'⟩
      · exact later (ih h)

theorem greedyLoop_reaches : ∀ {fuel curr : Nat} {d : β} {r : Nat × β},
    greedyLoop f idx query layer fuel curr d = some r → idx.Reaches layer curr r.1 := by
  intro fuel
  induction fuel with
  | zero =>
    intro curr d r h
    cases h
  | succ fuel ih =>
    intro curr d r h
    rw [greedyLoop] at h
    simp only [Option.bind_eq_bind, Option.bind_eq_some_iff] at h
    obtain ⟨es, hes, ⟨c, d', changed⟩, hround, h⟩ := h
    have hstep : idx.Reaches layer curr c := by
      rcases greedyRound_from hround with rfl | ⟨hmem, hdel⟩
      · exact .refl
      · exact .single ⟨es, hes, hmem, hdel⟩
    dsimp only at h
    split at h
    · exact hstep.trans (ih h)
    · cases h
      exact hstep

/-- The greedy descent walks over neighbours that are not tombstoned. -/
theorem greedyWith_reaches {start : Nat} {r : Nat × β}
    (h : greedyWith f idx start query layer = some r) : idx.Reaches layer start r.1 := by
  unfold greedyWith at h
  simp only [Option.bind_eq_bind, Option.bind_eq_some_iff] at h
  obtain ⟨d, _, h⟩ := h
  exact greedyLoop_reaches h

/-- The descent of an insert stays in what is closed under the walk. -/
theorem descend_keeps {D : DistanceComputer β} {P : Nat → Prop}
    (hP : ∀ layer i j, P i → idx.Steps layer i j → P j) : ∀ (layers : List Nat) (curr curr' : Nat),
    layers.foldlM (idx.descendStep D query) curr = some curr' → P curr → P curr' := by
  intro layers
  induction layers with
  | nil =>
    intro curr curr' h hc
    cases h
    exact hc
  | cons layer layers ih =>
    intro curr curr' h hc
    rw [List.foldlM_cons] at h
    simp only [Option.bind_eq_bind, Option.bind_eq_some_iff, descendStep] at h
    obtain ⟨c, ⟨node, _, hstep⟩, h⟩ := h
    refine ih c curr' h ?_
    split at hstep
    · rw [Option.map_eq_some_iff] at hstep
      obtain ⟨r, hr, rfl⟩ := hstep
      exact (greedyWith_reaches hr).keeps (hP layer) hc
    · cases hstep
      exact hc

/-! ## Accepting a neighbour -/

/-- The candidates take the neighbour; of the results one may go for it. -/
theorem accept_perm (s : LayerSearch β) (ef : Nat) (d : β) (n : Nat) :
    (s.accept ef d n).candidates.Perm ((d, n) :: s.candidates) ∧
    (s.accept ef d n).visited = s.visited ∧
    ∃ dropped, (dropped ++ (s.accept ef d n).results).Perm ((d, n) :: s.results) ∧
      dropped.length ≤ 1 ∧ (s.results.length < ef → dropped = []) := by
  have hc := BinaryHeap.push_perm cmpReverse s.candidates (d, n)
  have hr := BinaryHeap.push_perm cmpDist s.results (d, n)
  unfold LayerSearch.accept
  dsimp only
  split
  · next hlt =>
    rw [hr.length_eq, List.length_cons] at hlt
    refine ⟨hc, rfl, ?_⟩
    cases hpop : BinaryHeap.pop cmpDist (BinaryHeap.push cmpDist s.results (d, n)) with
    | none =>
      have hlen := hr.length_eq
      rw [(BinaryHeap.pop_eq_none cmpDist).mp hpop] at hlen
      simp at hlen
    | some popped =>
      exact ⟨[popped.1], (BinaryHeap.pop_perm cmpDist hpop).symm.trans hr, Nat.le_refl 1,
        fun h => by omega⟩
  · exact ⟨hc, rfl, [], hr, Nat.zero_le 1, fun _ => rfl⟩

theorem visit_visited (s : LayerSearch β) (ef : Nat) (d : β) (n : Nat) (accepted : Bool) :
    (s.visit ef d n accepted).visited = s.visited.set n true := by
  cases accepted with
  | true => exact (accept_perm { s with visited := s.visited.set n true } ef d n).2.1
  | false => rfl

theorem visit_candidates (s : LayerSearch β) (ef : Nat) (d : β) (n : Nat) (accepted : Bool)
    (p : β × Nat) : p ∈ (s.visit ef d n accepted).candidates ↔
      p ∈ s.candidates ∨ (accepted = true ∧ p = (d, n)) := by
  cases accepted with
  | true =>
    have hperm := (accept_perm { s with visited := s.visited.set n true } ef d n).1
    rw [LayerSearch.visit, if_pos rfl, hperm.mem_iff]
    simp [or_comm]
  | false => simp [LayerSearch.visit]

/-- A visit never leaves fewer results, and one that has room drops none. -/
theorem visit_results (s : LayerSearch β) (ef : Nat) (d : β) (n : Nat) (accepted : Bool) :
    ∃ dropped, (dropped ++ (s.visit ef d n accepted).results).Perm
      (if accepted then (d, n) :: s.results else s.results) ∧
      s.results.length ≤ (s.visit ef d n accepted).results.length ∧
      (s.results.length < ef → dropped = []) := by
  cases accepted with
  | true =>
    obtain ⟨_, _, dropped, hperm, hone, hnone⟩ :=
      accept_perm { s with visited := s.visited.set n true } ef d n
    refine ⟨dropped, hperm, ?_, hnone⟩
    have hlen := hperm.length_eq
    rw [List.length_append, List.length_cons] at hlen
    show s.results.length ≤
      (LayerSearch.accept { s with visited := s.visited.set n true } ef d n).results.length
    dsimp only at hlen
    omega
  | false => exact ⟨[], .refl _, Nat.le_refl _, fun _ => rfl⟩

end Rules

section Walk

variable [F32 β] {f : List β → List β → β} {idx : HnswIndex β} {query : List β}
  {ef layer start : Nat}

/-! ## Sound for every `ef` -/

/-- The entry of a heap is a visited node the walk reaches, at its distance. -/
structure Found (f : List β → List β → β) (idx : HnswIndex β) (query : List β)
    (layer start : Nat) (visited : List Bool) (p : β × Nat) : Prop where
  visited : visited[p.2]? = some true
  dist : idx.distTo f query p.2 = some p.1
  reach : idx.Reaches layer start p.2

/-- What the heaps of a search from `start` hold. -/
structure Walk (f : List β → List β → β) (idx : HnswIndex β) (query : List β)
    (layer start : Nat) (s : LayerSearch β) : Prop where
  candidates : ∀ p ∈ s.candidates, Found f idx query layer start s.visited p
  results : ∀ p ∈ s.results, Found f idx query layer start s.visited p
  distinct : (s.results.map Prod.snd).Nodup

theorem visited_set {visited : List Bool} {i n : Nat} (h : visited[i]? = some true) :
    (visited.set n true)[i]? = some true := by
  have hlt := (List.getElem?_eq_some_iff.mp h).1
  rw [List.getElem?_set]
  split
  · next heq => rw [if_pos (by rw [heq]; exact hlt)]
  · exact h

omit [F32 β] in
theorem Found.set {visited : List Bool} {p : β × Nat}
    (h : Found f idx query layer start visited p) (n : Nat) :
    Found f idx query layer start (visited.set n true) p :=
  ⟨visited_set h.visited, h.dist, h.reach⟩

theorem Walk.visit {s : LayerSearch β} (hw : Walk f idx query layer start s) {n : Nat} {d : β}
    (hv : s.visited[n]? = some false) (hdist : idx.distTo f query n = some d)
    (hreach : idx.Reaches layer start n) (ef : Nat) (accepted : Bool) :
    Walk f idx query layer start (s.visit ef d n accepted) := by
  have hlt := (List.getElem?_eq_some_iff.mp hv).1
  have hnew : Found f idx query layer start (s.visited.set n true) (d, n) :=
    ⟨List.getElem?_set_self hlt, hdist, hreach⟩
  obtain ⟨dropped, hperm, _, _⟩ := visit_results s ef d n accepted
  have hsub : ∀ p ∈ (s.visit ef d n accepted).results, p = (d, n) ∨ p ∈ s.results := by
    intro p hp
    have hp' := hperm.mem_iff.mp (List.mem_append_right dropped hp)
    cases accepted with
    | true => exact List.mem_cons.mp hp'
    | false => exact .inr hp'
  refine ⟨?_, ?_, ?_⟩
  · intro p hp
    rw [visit_visited]
    rcases (visit_candidates s ef d n accepted p).mp hp with hp | ⟨_, rfl⟩
    · exact (hw.candidates p hp).set n
    · exact hnew
  · intro p hp
    rw [visit_visited]
    rcases hsub p hp with rfl | hp
    · exact hnew
    · exact (hw.results p hp).set n
  · -- the new node was not visited, so it is not among the results
    have hnodup : ((if accepted then (d, n) :: s.results else s.results).map Prod.snd).Nodup := by
      cases accepted with
      | false => exact hw.distinct
      | true =>
        simp only [if_true, List.map_cons, List.nodup_cons]
        refine ⟨fun hmem => ?_, hw.distinct⟩
        obtain ⟨p, hp, hpn⟩ := List.mem_map.mp hmem
        have hvis := (hw.results p hp).visited
        rw [hpn, hv] at hvis
        cases hvis
    rw [← (hperm.map Prod.snd).nodup_iff, List.map_append] at hnodup
    exact hnodup.of_append_right

/-- One round of the search. -/
theorem Walk.round {s s' : LayerSearch β} (hw : Walk f idx query layer start s) {d : β} {i : Nat}
    {candidates : List (β × Nat)} {es : List Nat}
    (hpop : BinaryHeap.pop cmpReverse s.candidates = some ((d, i), candidates))
    (hes : idx.edgesAt i layer = some es)
    (h : visitNeighbors f idx query ef es { s with candidates := candidates } = some s') :
    Walk f idx query layer start s' := by
  have hperm := BinaryHeap.pop_perm cmpReverse hpop
  have hi := (hw.candidates (d, i) (hperm.mem_iff.mpr List.mem_cons_self)).reach
  refine visitNeighbors_keeps h ?_ ⟨fun p hp => hw.candidates p
    (hperm.mem_iff.mpr (List.mem_cons_of_mem _ hp)), hw.results, hw.distinct⟩
  intro n hn d s accepted hv hd hdist _ hs
  exact hs.visit hv hdist (hi.tail ⟨es, hes, hn, hd⟩) ef accepted

/-- The state a search of a layer begins in. -/
def LayerSearch.init (idx : HnswIndex β) (d : β) (start : Nat) : LayerSearch β :=
  ⟨(List.replicate idx.nodes.length false).set start true, [(d, start)], [(d, start)]⟩

/-- A search that returns ran its loop from the start and sorted what it left. -/
theorem searchWith_loop {rs : List (Nat × β)}
    (h : searchWith f idx start query ef layer = some rs) :
    ∃ d s, idx.distTo f query start = some d ∧ start < idx.nodes.length ∧
      searchLoop f idx query ef layer (idx.nodes.length + 1) (LayerSearch.init idx d start) =
        some s ∧
      rs = (BinaryHeap.intoSortedVec cmpDist s.results).map fun p => (p.2, p.1) := by
  have hpush : ∀ (cmp : β × Nat → β × Nat → Ordering) d, BinaryHeap.push cmp [] (d, start) =
      [(d, start)] :=
    fun cmp d => List.perm_singleton.mp (BinaryHeap.push_perm cmp [] (d, start))
  unfold searchWith at h
  simp only [Option.bind_eq_bind, Option.bind_eq_some_iff, guard, hpush] at h
  obtain ⟨d, hd, _, hguard, s, hs, heq⟩ := h
  have hlt : start < idx.nodes.length := by
    split at hguard
    · assumption
    · cases hguard
  cases heq
  exact ⟨d, s, hd, hlt, hs, rfl⟩

theorem searchWith_inv {rs : List (Nat × β)}
    (h : searchWith f idx start query ef layer = some rs) :
    ∃ d s, idx.distTo f query start = some d ∧ start < idx.nodes.length ∧
      searchLoop f idx query ef layer (idx.nodes.length + 1) (LayerSearch.init idx d start) =
        some s ∧
      rs.Perm (s.results.map fun p => (p.2, p.1)) := by
  obtain ⟨d, s, hd, hlt, hs, rfl⟩ := searchWith_loop h
  exact ⟨d, s, hd, hlt, hs, (BinaryHeap.intoSortedVec_perm cmpDist s.results).map _⟩

omit [F32 β] in
theorem Walk.init {d : β} (hd : idx.distTo f query start = some d)
    (hlt : start < idx.nodes.length) :
    Walk f idx query layer start (LayerSearch.init idx d start) := by
  have hfound : ∀ p ∈ [(d, start)], Found f idx query layer start
      ((List.replicate idx.nodes.length false).set start true) p := by
    intro p hp
    rw [List.mem_singleton.mp hp]
    exact ⟨List.getElem?_set_self (by simpa using hlt), hd, .refl⟩
  exact ⟨hfound, hfound, by simp [LayerSearch.init]⟩

/-- The results are distinct nodes the walk reaches, each with its distance. -/
theorem searchWith_walk {rs : List (Nat × β)}
    (h : searchWith f idx start query ef layer = some rs) :
    (rs.map Prod.fst).Nodup ∧
      ∀ p ∈ rs, idx.distTo f query p.1 = some p.2 ∧ idx.Reaches layer start p.1 := by
  obtain ⟨d, s, hd, hlt, hloop, hperm⟩ := searchWith_inv h
  obtain ⟨s₁, hw, hres, _⟩ := searchLoop_keeps
    (fun _ _ _ _ _ _ hpop hes hvisit hw => hw.round hpop hes hvisit) hloop
    (show Walk f idx query layer start _ from Walk.init hd hlt)
  rw [hres] at hperm
  constructor
  · rw [(hperm.map Prod.fst).nodup_iff, List.map_map]
    exact hw.distinct
  · intro p hp
    obtain ⟨q, hq, rfl⟩ := List.mem_map.mp (hperm.mem_iff.mp hp)
    exact ⟨(hw.results q hq).dist, (hw.results q hq).reach⟩

/-! ## Complete when nothing is pruned -/

/-- Every visited node is a result, and a candidate unless its neighbours are
visited; `i` is the node whose neighbours are being visited. -/
structure Covers (idx : HnswIndex β) (layer : Nat) (i : Option Nat) (s : LayerSearch β) : Prop where
  length : s.visited.length = idx.nodes.length
  results : ∀ j, s.visited[j]? = some true → ∃ p ∈ s.results, p.2 = j
  closed : ∀ j, s.visited[j]? = some true →
    (∃ p ∈ s.candidates, p.2 = j) ∨ i = some j ∨
      ∀ k, idx.Steps layer j k → s.visited[k]? = some true

omit [F32 β] in
theorem Walk.lt {s : LayerSearch β} (hw : Walk f idx query layer start s)
    (hlen : s.visited.length = idx.nodes.length) :
    s.results.map Prod.snd ⊆ List.range idx.nodes.length := by
  intro i hi
  obtain ⟨p, hp, rfl⟩ := List.mem_map.mp hi
  rw [List.mem_range, ← hlen]
  exact (List.getElem?_eq_some_iff.mp (hw.results p hp).visited).1

omit [F32 β] in
/-- While a node is not visited, there are fewer results than nodes. -/
theorem Walk.room {s : LayerSearch β} (hw : Walk f idx query layer start s)
    (hlen : s.visited.length = idx.nodes.length) {n : Nat} (hv : s.visited[n]? = some false) :
    s.results.length < idx.nodes.length := by
  have hn : n ∉ s.results.map Prod.snd := by
    intro hmem
    obtain ⟨p, hp, rfl⟩ := List.mem_map.mp hmem
    rw [(hw.results p hp).visited] at hv
    cases hv
  have hlt : n < idx.nodes.length := by rw [← hlen]; exact (List.getElem?_eq_some_iff.mp hv).1
  have hsub : n :: s.results.map Prod.snd ⊆ List.range idx.nodes.length :=
    List.cons_subset.mpr ⟨List.mem_range.mpr hlt, hw.lt hlen⟩
  have hle := (List.subperm_of_subset (List.nodup_cons.mpr ⟨hn, hw.distinct⟩) hsub).length_le
  simp at hle
  omega

theorem Covers.visit {s : LayerSearch β} {i : Option Nat} (hw : Walk f idx query layer start s)
    (hc : Covers idx layer i s) (hef : idx.nodes.length ≤ ef) {n : Nat} {d : β} {accepted : Bool}
    (hv : s.visited[n]? = some false) (hacc : s.accepts ef d = some accepted) :
    Covers idx layer i (s.visit ef d n accepted) := by
  have hroom := hw.room hc.length hv
  have htrue : accepted = true := by
    rw [LayerSearch.accepts, if_pos (by omega)] at hacc
    exact (Option.some.inj hacc).symm
  subst htrue
  obtain ⟨dropped, hperm, _, hnone⟩ := visit_results s ef d n true
  rw [hnone (by omega), List.nil_append, if_pos rfl] at hperm
  have hold : ∀ j, (s.visited.set n true)[j]? = some true → j = n ∨ s.visited[j]? = some true := by
    intro j hj
    rw [List.getElem?_set] at hj
    split at hj
    · next heq => exact .inl heq.symm
    · exact .inr hj
  refine ⟨?_, ?_, ?_⟩
  · rw [visit_visited, List.length_set]
    exact hc.length
  · intro j hj
    rw [visit_visited] at hj
    rcases hold j hj with rfl | hj
    · exact ⟨(d, j), hperm.mem_iff.mpr List.mem_cons_self, rfl⟩
    · obtain ⟨p, hp, hpj⟩ := hc.results j hj
      exact ⟨p, hperm.mem_iff.mpr (List.mem_cons_of_mem _ hp), hpj⟩
  · intro j hj
    rw [visit_visited] at hj ⊢
    rcases hold j hj with rfl | hj
    · exact .inl ⟨(d, j), (visit_candidates s ef d j true _).mpr (.inr ⟨rfl, rfl⟩), rfl⟩
    · rcases hc.closed j hj with ⟨p, hp, hpj⟩ | hi | hall
      · exact .inl ⟨p, (visit_candidates s ef d n true p).mpr (.inl hp), hpj⟩
      · exact .inr (.inl hi)
      · exact .inr (.inr fun k hk => visited_set (hall k hk))

theorem visitNeighbors_visited {s s' : LayerSearch β} {es : List Nat} {j : Nat}
    (h : visitNeighbors f idx query ef es s = some s') (hj : s.visited[j]? = some true) :
    s'.visited[j]? = some true := by
  refine visitNeighbors_keeps (P := fun s => s.visited[j]? = some true) h ?_ hj
  intro n _ d s accepted _ _ _ _ hs
  rw [visit_visited]
  exact visited_set hs

/-- Behind the `for`, every neighbour that is not tombstoned is visited. -/
theorem visitNeighbors_visits : ∀ {es : List Nat} {s s' : LayerSearch β},
    visitNeighbors f idx query ef es s = some s' →
    ∀ n ∈ es, idx.deleted[n]? = some false → s'.visited[n]? = some true := by
  intro es
  induction es with
  | nil => exact fun _ n hn => absurd hn List.not_mem_nil
  | cons m es ih =>
    intro s s' h n hn hd
    rw [visitNeighbors] at h
    simp only [Option.bind_eq_bind, Option.bind_eq_some_iff] at h
    obtain ⟨visited, hv, h⟩ := h
    rcases List.mem_cons.mp hn with rfl | hn'
    · cases visited with
      | true => exact visitNeighbors_visited h hv
      | false =>
        simp only [Bool.false_eq_true, if_false, hd, Option.bind_some, Option.bind_eq_some_iff] at h
        obtain ⟨d, _, accepted, _, h⟩ := h
        refine visitNeighbors_visited h ?_
        change (s.visit ef d n accepted).visited[n]? = some true
        rw [visit_visited]
        exact List.getElem?_set_self (List.getElem?_eq_some_iff.mp hv).1
    · cases visited with
      | true => exact ih h n hn' hd
      | false =>
        simp only [Bool.false_eq_true, if_false, Option.bind_eq_some_iff] at h
        obtain ⟨deleted, _, h⟩ := h
        cases deleted with
        | true => exact ih h n hn' hd
        | false =>
          simp only [Bool.false_eq_true, if_false, Option.bind_eq_some_iff] at h
          obtain ⟨d, _, accepted, _, h⟩ := h
          exact ih h n hn' hd

/-- One round of a search that prunes nothing. -/
theorem Covers.round {s s' : LayerSearch β} (hw : Walk f idx query layer start s)
    (hc : Covers idx layer none s) (hef : idx.nodes.length ≤ ef) {d : β} {i : Nat}
    {candidates : List (β × Nat)} {es : List Nat}
    (hpop : BinaryHeap.pop cmpReverse s.candidates = some ((d, i), candidates))
    (hes : idx.edgesAt i layer = some es)
    (h : visitNeighbors f idx query ef es { s with candidates := candidates } = some s') :
    Covers idx layer none s' := by
  have hperm := BinaryHeap.pop_perm cmpReverse hpop
  have hi := (hw.candidates (d, i) (hperm.mem_iff.mpr List.mem_cons_self)).reach
  have hw₀ : Walk f idx query layer start { s with candidates := candidates } :=
    ⟨fun p hp => hw.candidates p (hperm.mem_iff.mpr (List.mem_cons_of_mem _ hp)), hw.results,
      hw.distinct⟩
  have hc₀ : Covers idx layer (some i) { s with candidates := candidates } := by
    refine ⟨hc.length, hc.results, fun j hj => ?_⟩
    rcases hc.closed j hj with ⟨p, hp, hpj⟩ | hn | hall
    · rcases List.mem_cons.mp (hperm.mem_iff.mp hp) with rfl | hp
      · exact .inr (.inl (congrArg some hpj))
      · exact .inl ⟨p, hp, hpj⟩
    · cases hn
    · exact .inr (.inr hall)
  obtain ⟨_, hc₁⟩ : Walk f idx query layer start s' ∧ Covers idx layer (some i) s' := by
    refine visitNeighbors_keeps (P := fun s => Walk f idx query layer start s ∧
      Covers idx layer (some i) s) h ?_ ⟨hw₀, hc₀⟩
    intro n hn d s accepted hv hd hdist hacc hs
    exact ⟨hs.1.visit hv hdist (hi.tail ⟨es, hes, hn, hd⟩) ef accepted,
      hs.2.visit hs.1 hef hv hacc⟩
  refine ⟨hc₁.length, hc₁.results, fun j hj => ?_⟩
  rcases hc₁.closed j hj with hcand | heq | hall
  · exact .inl hcand
  · -- the neighbours of `i` were just visited
    cases heq
    refine .inr (.inr fun k hk => ?_)
    obtain ⟨es', hes', hmem, hdel⟩ := hk
    rw [hes] at hes'
    cases hes'
    exact visitNeighbors_visits h k hmem hdel
  · exact .inr (.inr hall)

omit [F32 β] in
theorem Covers.init (d : β) (start : Nat) :
    Covers idx layer none (LayerSearch.init idx d start) := by
  have hstart : ∀ j, (LayerSearch.init idx d start).visited[j]? = some true → start = j := by
    intro j hj
    rw [LayerSearch.init, List.getElem?_set] at hj
    split at hj
    · assumption
    · rw [List.getElem?_replicate] at hj
      split at hj <;> cases hj
  refine ⟨by simp [LayerSearch.init], ?_, ?_⟩
  · intro j hj
    exact ⟨(d, start), List.mem_cons_self, hstart j hj⟩
  · intro j hj
    exact .inl ⟨(d, start), List.mem_cons_self, hstart j hj⟩

/-- With `ef` at least the number of nodes, a search finds every node its walk reaches. -/
theorem searchWith_full (hg : Linked idx) (hs : idx.HasLayer start layer)
    (hef : idx.nodes.length ≤ ef) {rs : List (Nat × β)}
    (h : searchWith f idx start query ef layer = some rs) {j : Nat}
    (hj : idx.Reaches layer start j) : j ∈ rs.map Prod.fst := by
  obtain ⟨d, s, hd, hlt, hloop, hperm⟩ := searchWith_inv h
  obtain ⟨s₁, ⟨hw, hc, hstart⟩, hres, hend⟩ := searchLoop_keeps
    (P := fun s => Walk f idx query layer start s ∧ Covers idx layer none s ∧
      s.visited[start]? = some true)
    (fun _ _ _ _ _ _ hpop hes hvisit hI => ⟨hI.1.round hpop hes hvisit,
      hI.2.1.round hI.1 hef hpop hes hvisit, visitNeighbors_visited hvisit hI.2.2⟩) hloop
    ⟨Walk.init hd hlt, Covers.init d start,
      List.getElem?_set_self (by simpa [LayerSearch.init] using hlt)⟩
  rw [hres] at hperm
  rw [(hperm.map Prod.fst).mem_iff, List.map_map]
  change j ∈ s₁.results.map Prod.snd
  rcases hend with hnil | ⟨e, hdone⟩
  · -- no candidate is left, so the visited nodes are closed under the walk
    have hvis : s₁.visited[j]? = some true := by
      induction hj with
      | refl => exact hstart
      | tail _ hst ih =>
        rcases hc.closed _ ih with ⟨p, hp, _⟩ | hn | hall
        · rw [hnil] at hp
          cases hp
        · cases hn
        · exact hall _ hst
    obtain ⟨p, hp, rfl⟩ := hc.results j hvis
    exact List.mem_map_of_mem hp
  · -- the search stopped early with `ef` results: all nodes
    have hlen : ef ≤ s₁.results.length := by
      unfold LayerSearch.done at hdone
      split at hdone
      · simp only [Bool.and_eq_true, decide_eq_true_eq] at hdone
        exact hdone.2
      · cases hdone
    have hsub := (List.subperm_of_subset hw.distinct (hw.lt hc.length)).perm_of_length_le
      (by rw [List.length_range, List.length_map]; omega)
    exact hsub.mem_iff.mpr (List.mem_range.mpr (hj.hasLayer hg hs).lt)

end Walk

/-! ## A whole query -/

section Query

variable {α : Type} [F32 β] [LawfulF32 β] [Narrow α β] {D : DistanceComputer β}
  {idx : HnswIndex β}

/-- What a query returns of the candidates at layer 0. -/
def collect (idx : HnswIndex β) (ef : Nat) (candidates : List (Nat × β)) : List (UInt64 × β) :=
  ((candidates.filter fun p => !idx.tombstoned p.1).take ef).map fun p => (idx.idAt p.1, p.2)

/-- A query on a non-empty index returns if its live results can be sorted. -/
theorem search_sorts (hw : Wf idx) (hne : idx.nodes ≠ []) {query : List α}
    (hdim : query.length = idx.dim) (ef : Nat) (mask : Option (List (Nat × β))) :
    ∃ curr rs, idx.descent (queryDistance D (mask.map fun m => maskToDense m idx.dim))
        (query.map Narrow.toF32) = some curr ∧ idx.HasLayer curr 0 ∧
      searchWith (queryDistance D (mask.map fun m => maskToDense m idx.dim)) idx curr
        (query.map Narrow.toF32) ef 0 = some rs ∧
      idx.search D query ef mask = (sortByDistance (idx.collect ef rs)).map Except.ok := by
  obtain ⟨curr, hcurr, hlayer⟩ := descent_some hw hne
    (queryDistance D (mask.map fun m => maskToDense m idx.dim)) (query.map Narrow.toF32)
  obtain ⟨rs, hrs, hlayers⟩ := searchWith_some hw.linked
    (queryDistance D (mask.map fun m => maskToDense m idx.dim)) (query.map Narrow.toF32) hlayer ef
  refine ⟨curr, rs, hcurr, hlayer, hrs, ?_⟩
  rw [search_eq hdim hne, hcurr, Option.bind_some, hrs, Option.bind_some,
    liveResults_eq hw rs ef fun p hp => (hlayers p hp).lt, Option.bind_some]
  rfl

/-- A query with comparable distances descends to a node, searches layer 0 from it and
sorts what is live. -/
theorem search_spec (hw : Wf idx) (hne : idx.nodes ≠ []) {query : List α}
    (hdim : query.length = idx.dim) (ef : Nat) (mask : Option (List (Nat × β)))
    (hnan : ∀ v ∈ idx.vectors, F32.isNaN (queryDistance D (mask.map fun m => maskToDense m idx.dim)
      v (query.map Narrow.toF32)) = false) :
    ∃ curr rs, idx.descent (queryDistance D (mask.map fun m => maskToDense m idx.dim))
        (query.map Narrow.toF32) = some curr ∧ idx.HasLayer curr 0 ∧
      searchWith (queryDistance D (mask.map fun m => maskToDense m idx.dim)) idx curr
        (query.map Narrow.toF32) ef 0 = some rs ∧
      idx.search D query ef mask = some (.ok ((idx.collect ef rs).insertionSort
        fun a b => F32.gt a.2 b.2 = false)) := by
  obtain ⟨curr, rs, hcurr, hlayer, hrs, hsearch⟩ := search_sorts (D := D) hw hne hdim ef mask
  refine ⟨curr, rs, hcurr, hlayer, hrs, ?_⟩
  have hany : ¬ (2 ≤ (idx.collect ef rs).length ∧
      (idx.collect ef rs).any (fun p => F32.isNaN p.2) = true) := by
    intro hc
    obtain ⟨p, hp, hnp⟩ := List.any_eq_true.mp hc.2
    obtain ⟨q, hq, rfl⟩ := List.mem_map.mp hp
    have hmem := List.mem_of_mem_filter (List.mem_of_mem_take hq)
    have hd := ((searchWith_walk hrs).2 q hmem).1
    rw [distTo, Option.map_eq_some_iff] at hd
    obtain ⟨v, hv, hvq⟩ := hd
    rw [← hvq, hnan v (List.mem_of_getElem? hv)] at hnp
    cases hnp
  rw [hsearch, sortByDistance, if_neg hany]
  rfl

end Query

end Tesseract.L3.HnswIndex
