import Tesseract.Core.SortBy
import Tesseract.L3Index.HnswInvariant
import Tesseract.L3Index.HnswTombstone

/-!
# What a wide search returns

With `ef` at least the number of nodes nothing is pruned: a query returns the live
nodes that the walk at layer 0 reaches from where the descent ends.

* `search_full`: the result list of such a query, as a set of nodes.
* `remove_search_iff`: removing an id takes its pair out of the result and changes
  nothing else exactly when the walk reaches the same other live nodes without it.
  A removed node is not walked through, so nodes behind it can be lost.
-/
namespace Tesseract.L3.HnswIndex

variable {α β : Type}

section Full

variable [F32 β] {idx : HnswIndex β}

/-- The walk at layer 0 reaches node `j` from where the descent of the query ends. -/
def Explored (f : List β → List β → β) (idx : HnswIndex β) (query : List β) (j : Nat) : Prop :=
  ∃ curr, idx.descent f query = some curr ∧ idx.Reaches 0 curr j

theorem Explored.lt [LawfulF32 β] (hinv : Inv idx) {f : List β → List β → β} {query : List β}
    {j : Nat} (h : Explored f idx query j) (hne : idx.nodes ≠ []) : j < idx.nodes.length := by
  obtain ⟨curr, hcurr, hreach⟩ := h
  obtain ⟨curr', hcurr', hlayer⟩ := descent_some hinv.wf hne f query
  rw [hcurr] at hcurr'
  cases hcurr'
  exact (hreach.hasLayer hinv.wf.linked hlayer).lt

omit [F32 β] in
/-- Different nodes have different ids. -/
theorem Inv.idAt_inj (hinv : Inv idx) {i j : Nat} (hi : i < idx.nodes.length)
    (hj : j < idx.nodes.length) (h : idx.idAt i = idx.idAt j) : i = j := by
  rw [← hinv.ids] at hi hj
  have hij : idx.idToNode[i]? = idx.idToNode[j]? := by rw [idAt_eq hi, idAt_eq hj, h]
  exact (List.getElem?_inj hi hinv.unique).mp hij

omit [F32 β] in
/-- The node of an id is the one that has it. -/
theorem Inv.findIdx_eq (hinv : Inv idx) {id : UInt64} {i : Nat} :
    idx.idToNode.findIdx? (· == id) = some i ↔ i < idx.nodes.length ∧ idx.idAt i = id := by
  have key : ∀ {k}, idx.idToNode.findIdx? (· == id) = some k →
      k < idx.nodes.length ∧ idx.idAt k = id := by
    intro k hk
    obtain ⟨hlt, heq, _⟩ := List.findIdx?_eq_some_iff_getElem.mp hk
    have hat := idAt_eq hlt
    rw [List.getElem?_eq_getElem hlt, Option.some.injEq] at hat
    exact ⟨by rw [← hinv.ids]; exact hlt, by rw [← hat]; simpa using heq⟩
  constructor
  · exact key
  · rintro ⟨hlt, hid⟩
    cases hk : idx.idToNode.findIdx? (· == id) with
    | some k =>
      obtain ⟨hklt, hkid⟩ := key hk
      rw [hinv.idAt_inj hklt hlt (hkid.trans hid.symm)]
    | none =>
      have hmem := List.mem_of_getElem? (idAt_eq (hinv.ids ▸ hlt : i < idx.idToNode.length))
      have hfalse := List.findIdx?_eq_none_iff.mp hk _ hmem
      rw [hid] at hfalse
      simp at hfalse

/-- `rs` lists the nodes of `A`, each once, with its id and distance. -/
structure Lists (f : List β → List β → β) (idx : HnswIndex β) (query : List β) (A : Nat → Prop)
    (rs : List (UInt64 × β)) : Prop where
  nodup : (rs.map Prod.fst).Nodup
  mem : ∀ p, p ∈ rs ↔ ∃ j, A j ∧ p.1 = idx.idAt j ∧ idx.distTo f query j = some p.2

omit [F32 β] in
/-- Lists of nodes have the same elements when they list the same nodes. -/
theorem Lists.perm_iff {f : List β → List β → β} {query : List β}
    (hinv : Inv idx) {A B : Nat → Prop} (hA : ∀ j, A j → j < idx.nodes.length)
    (hB : ∀ j, B j → j < idx.nodes.length) {rs rs' : List (UInt64 × β)}
    (h : Lists f idx query A rs) (h' : Lists f idx query B rs') :
    rs'.Perm rs ↔ ∀ j, A j ↔ B j := by
  have key : ∀ {A B : Nat → Prop} {rs rs' : List (UInt64 × β)},
      (∀ j, A j → j < idx.nodes.length) → (∀ j, B j → j < idx.nodes.length) →
      Lists f idx query A rs → Lists f idx query B rs' → rs ⊆ rs' → ∀ j, A j → B j := by
    intro A B rs rs' hA hB h h' hsub j hj
    obtain ⟨d, hd⟩ := hinv.wf.linked.distTo f query (hA j hj)
    obtain ⟨k, hk, hid, _⟩ := (h'.mem (idx.idAt j, d)).mp (hsub ((h.mem _).mpr ⟨j, hj, rfl, hd⟩))
    rw [hinv.idAt_inj (hA j hj) (hB k hk) hid]
    exact hk
  constructor
  · intro hperm j
    exact ⟨key hA hB h h' hperm.symm.subset j, key hB hA h' h hperm.subset j⟩
  · intro hiff
    refine (List.perm_ext_iff_of_nodup h'.nodup.of_map h.nodup.of_map).mpr fun p => ?_
    rw [h.mem, h'.mem]
    simp only [hiff]

omit [F32 β] in
theorem Lists.filter {f : List β → List β → β} {query : List β} {A : Nat → Prop}
    {rs : List (UInt64 × β)} (h : Lists f idx query A rs) (x : UInt64) :
    Lists f idx query (fun j => A j ∧ idx.idAt j ≠ x) (rs.filter fun p => p.1 != x) := by
  refine ⟨h.nodup.sublist (List.filter_sublist.map Prod.fst), fun p => ?_⟩
  rw [List.mem_filter, h.mem]
  constructor
  · rintro ⟨⟨j, hj, hid, hdist⟩, hp⟩
    exact ⟨j, ⟨hj, by rw [← hid]; simpa using hp⟩, hid, hdist⟩
  · rintro ⟨j, ⟨hj, hjx⟩, hid, hdist⟩
    exact ⟨⟨j, hj, hid, hdist⟩, by rw [hid]; simpa using hjx⟩

omit [F32 β] in
/-- The ids collected of different nodes are different. -/
theorem collect_nodup (hinv : Inv idx) {candidates : List (Nat × β)}
    {limit : Nat} (hnodup : (candidates.map Prod.fst).Nodup)
    (hlt : ∀ p ∈ candidates, p.1 < idx.nodes.length) :
    ((idx.collect limit candidates).map Prod.fst).Nodup := by
  have hsub : ((candidates.filter fun p => !idx.tombstoned p.1).take limit).Sublist candidates :=
    (List.take_sublist _ _).trans List.filter_sublist
  have hids : (idx.collect limit candidates).map Prod.fst =
      (((candidates.filter fun p => !idx.tombstoned p.1).take limit).map Prod.fst).map
        idx.idAt := by
    rw [collect, List.map_map, List.map_map]
    rfl
  rw [hids]
  refine List.Nodup.map_on ?_ (hnodup.sublist (hsub.map Prod.fst))
  intro i hi j hj heq
  obtain ⟨p, hp, rfl⟩ := List.mem_map.mp hi
  obtain ⟨q, hq, rfl⟩ := List.mem_map.mp hj
  exact hinv.idAt_inj (hlt p (hsub.subset hp)) (hlt q (hsub.subset hq)) heq

variable [LawfulF32 β] [Narrow α β] {D : DistanceComputer β}

/-- A query that prunes nothing returns the live nodes its walk reaches, each once
and at its distance, sorted. -/
theorem search_full (hinv : Inv idx) (hne : idx.nodes ≠ []) {query : List α}
    (hdim : query.length = idx.dim) {ef : Nat} (hef : idx.nodes.length ≤ ef)
    {mask : Option (List (Nat × β))} {f : List β → List β → β}
    (hf : f = queryDistance D (mask.map fun m => maskToDense m idx.dim))
    (hnan : ∀ v ∈ idx.vectors, F32.isNaN (f v (query.map Narrow.toF32)) = false) :
    ∃ rs : List (UInt64 × β),
      idx.search D query ef mask =
        some (.ok (rs.insertionSort fun a b => F32.gt a.2 b.2 = false)) ∧
      Lists f idx (query.map Narrow.toF32)
        (fun j => Explored f idx (query.map Narrow.toF32) j ∧ idx.tombstoned j = false) rs := by
  subst hf
  obtain ⟨curr, rs, hcurr, hlayer, hrs, hsearch⟩ := search_spec hinv.wf hne hdim ef mask hnan
  obtain ⟨hnodup, hwalk⟩ := searchWith_walk hrs
  have hlt : ∀ p ∈ rs, p.1 < idx.nodes.length :=
    fun p hp => ((hwalk p hp).2.hasLayer hinv.wf.linked hlayer).lt
  -- there are at most as many candidates as nodes, so `take ef` takes them all
  have hlen : (rs.filter fun p => !idx.tombstoned p.1).length ≤ ef := by
    have hsub : rs.map Prod.fst ⊆ List.range idx.nodes.length := by
      intro i hi
      obtain ⟨p, hp, rfl⟩ := List.mem_map.mp hi
      exact List.mem_range.mpr (hlt p hp)
    have hle := (List.subperm_of_subset hnodup hsub).length_le
    have hfilter := List.length_filter_le (fun p => !idx.tombstoned p.1) rs
    rw [List.length_map, List.length_range] at hle
    omega
  have hcollect : idx.collect ef rs = (rs.filter fun p => !idx.tombstoned p.1).map fun p =>
      (idx.idAt p.1, p.2) := by
    rw [collect, List.take_of_length_le hlen]
  refine ⟨_, hsearch, collect_nodup hinv hnodup hlt, ?_⟩
  · intro p
    rw [hcollect, List.mem_map]
    constructor
    · rintro ⟨q, hq, rfl⟩
      obtain ⟨hmem, hlive⟩ := List.mem_filter.mp hq
      exact ⟨q.1, ⟨⟨curr, hcurr, (hwalk q hmem).2⟩, by simpa using hlive⟩, rfl, (hwalk q hmem).1⟩
    · rintro ⟨j, ⟨⟨curr', hcurr', hreach⟩, hlive⟩, hid, hdist⟩
      rw [hcurr] at hcurr'
      cases hcurr'
      obtain ⟨q, hq, rfl⟩ := List.mem_map.mp (searchWith_full hinv.wf.linked hlayer hef hrs hreach)
      refine ⟨q, List.mem_filter.mpr ⟨hq, by simpa using hlive⟩, ?_⟩
      have hd := (hwalk q hq).1
      rw [hdist] at hd
      rw [← hid, ← Option.some.inj hd]

end Full

/-! ## Removing an id -/

section Remove

/-- A `remove` flags the node of its id and nothing else. -/
theorem remove_node {idx idx' : HnswIndex β} (hinv : Inv idx) {x : UInt64}
    (h : idx.remove x = some (idx', .ok ())) :
    ∃ i, i < idx.nodes.length ∧ idx.idAt i = x ∧
      idx' = { idx with deleted := idx.deleted.set i true } := by
  unfold remove at h
  split at h
  · cases h
  · next i hi =>
    split at h
    · cases h
      obtain ⟨hlt, hid⟩ := hinv.findIdx_eq.mp hi
      exact ⟨i, hlt, hid, rfl⟩
    · cases h

theorem tombstoned_set {idx : HnswIndex β} {i j : Nat} (hi : i < idx.deleted.length) :
    tombstoned { idx with deleted := idx.deleted.set i true } j =
      (idx.tombstoned j || decide (j = i)) := by
  rw [tombstoned, tombstoned, List.getD_eq_getElem?_getD, List.getD_eq_getElem?_getD,
    List.getElem?_set]
  by_cases hj : j = i
  · simp [hj, hi]
  · simp [hj, Ne.symm hj]

variable [F32 β] [LawfulF32 β] [SwapF32 β]

omit [LawfulF32 β] in
/-- Distances that differ compare strictly, either way round. -/
theorem strict_of_ne {a b : UInt64 × β} (hsome : (F32.partialCmp a.2 b.2).isSome = true)
    (hne : F32.partialCmp a.2 b.2 ≠ some .eq) :
    SortBy.Strict (fun a b : UInt64 × β => F32.gt a.2 b.2 = false)
      (fun a b => F32.lt a.2 b.2 = true) a b := by
  have hswap := SwapF32.partialCmp_swap a.2 b.2
  cases hcmp : F32.partialCmp a.2 b.2 with
  | none =>
    rw [hcmp] at hsome
    cases hsome
  | some o =>
    rw [hcmp] at hswap
    cases o with
    | eq => exact absurd hcmp hne
    | lt => constructor <;> simp [F32.gt, F32.lt, hcmp, hswap]
    | gt => constructor <;> simp [F32.gt, F32.lt, hcmp, hswap]

/-- The distances of the stored vectors from the query are not NaN and differ. -/
structure Distinct (f : List β → List β → β) (idx : HnswIndex β) (query : List β) : Prop where
  nan : ∀ v ∈ idx.vectors, F32.isNaN (f v query) = false
  differ : idx.vectors.Pairwise fun u v => F32.partialCmp (f u query) (f v query) ≠ some .eq

/-- Pairs of different nodes at their distances compare strictly. -/
theorem Distinct.strict {f : List β → List β → β} {idx : HnswIndex β} {query : List β}
    (hd : Distinct f idx query) {i j : Nat} (hij : i ≠ j) {a b : UInt64 × β}
    (ha : idx.distTo f query i = some a.2) (hb : idx.distTo f query j = some b.2) :
    SortBy.Strict (fun a b : UInt64 × β => F32.gt a.2 b.2 = false)
      (fun a b => F32.lt a.2 b.2 = true) a b := by
  rw [distTo, Option.map_eq_some_iff] at ha hb
  obtain ⟨u, hu, hua⟩ := ha
  obtain ⟨v, hv, hvb⟩ := hb
  have hsome := LawfulF32.partialCmp_some _ _ (hd.nan u (List.mem_of_getElem? hu))
    (hd.nan v (List.mem_of_getElem? hv))
  rw [hua, hvb] at hsome
  obtain ⟨hilt, hi⟩ := List.getElem?_eq_some_iff.mp hu
  obtain ⟨hjlt, hj⟩ := List.getElem?_eq_some_iff.mp hv
  refine strict_of_ne hsome ?_
  rcases Nat.lt_or_gt_of_ne hij with hlt | hgt
  · have hne := List.pairwise_iff_getElem.mp hd.differ i j hilt hjlt hlt
    rw [hi, hj, hua, hvb] at hne
    exact hne
  · have hne := List.pairwise_iff_getElem.mp hd.differ j i hjlt hilt hgt
    rw [hi, hj, hua, hvb, SwapF32.partialCmp_swap] at hne
    intro heq
    rw [heq] at hne
    exact hne rfl

theorem Lists.strict {f : List β → List β → β} {idx : HnswIndex β} {query : List β}
    (hd : Distinct f idx query) {A : Nat → Prop} {rs : List (UInt64 × β)}
    (h : Lists f idx query A rs) :
    rs.Pairwise (SortBy.Strict (fun a b : UInt64 × β => F32.gt a.2 b.2 = false)
      fun a b => F32.lt a.2 b.2 = true) := by
  have hne : rs.Pairwise fun a b => a.1 ≠ b.1 := List.pairwise_map.mp h.nodup
  refine hne.imp_of_mem ?_
  intro a b ha hb hab
  obtain ⟨i, _, hia, hi⟩ := (h.mem a).mp ha
  obtain ⟨j, _, hjb, hj⟩ := (h.mem b).mp hb
  exact hd.strict (fun hc => hab (by rw [hia, hjb, hc])) hi hj

/-- Sorted lists of nodes agree but for `x` when they list the same nodes but for it. -/
theorem Lists.sort_eq_iff {f : List β → List β → β} {idx : HnswIndex β} {query : List β}
    (hinv : Inv idx) (hd : Distinct f idx query) {A B : Nat → Prop}
    (hA : ∀ j, A j → j < idx.nodes.length) (hB : ∀ j, B j → j < idx.nodes.length)
    {rs rs' : List (UInt64 × β)} (h : Lists f idx query A rs) (h' : Lists f idx query B rs')
    (x : UInt64) :
    (rs'.insertionSort fun a b => F32.gt a.2 b.2 = false) =
        (rs.insertionSort fun a b => F32.gt a.2 b.2 = false).filter (fun p => p.1 != x) ↔
      ∀ j, (A j ∧ idx.idAt j ≠ x) ↔ B j := by
  rw [SortBy.insertionSort_eq_filter (fun a => by simp [LawfulF32.lt_irrefl])
    (fun a b c => LawfulF32.lt_trans a.2 b.2 c.2) (h.strict hd) (h'.strict hd)]
  exact (h.filter x).perm_iff hinv (fun j hj => hA j hj.1) hB h'

variable [Narrow α β] {D : DistanceComputer β}

/-- For every index reached by `insert` and `remove` and a query that prunes nothing:
the result behind `remove` of `x` is the result before it without `x` exactly when
the walk of the query reaches the same other live nodes with `x` hidden. -/
theorem remove_search_iff {dim : Nat} {config : HnswConfig} {idx idx' : HnswIndex β}
    (hreach : (calls (α := α) D dim config).Reachable idx) {x : UInt64}
    (hrem : idx.remove x = some (idx', .ok ())) (query : List α) (hdim : query.length = dim)
    {ef : Nat} (hef : idx.nodes.length ≤ ef) (mask : Option (List (Nat × β)))
    {f : List β → List β → β} (hf : f = queryDistance D (mask.map fun m => maskToDense m dim))
    (hd : Distinct f idx (query.map Narrow.toF32)) :
    (∃ rs, idx.search D query ef mask = some (.ok rs) ∧
      idx'.search D query ef mask = some (.ok (rs.filter fun p => p.1 != x))) ↔
    ∀ j < idx.nodes.length, idx.tombstoned j = false → idx.idAt j ≠ x →
      (Explored f idx (query.map Narrow.toF32) j ↔ Explored f idx' (query.map Narrow.toF32) j) := by
  obtain ⟨hinv, hidim, _⟩ := reachable_inv hreach
  have hinv' := remove_inv hinv hrem
  obtain ⟨i, hilt, hix, rfl⟩ := remove_node hinv hrem
  have hne : idx.nodes ≠ [] := List.ne_nil_of_length_pos (by omega)
  have htomb : ∀ j, tombstoned { idx with deleted := idx.deleted.set i true } j =
      (idx.tombstoned j || decide (j = i)) :=
    fun j => tombstoned_set (by rw [hinv.deleted]; exact hilt)
  rw [← hidim] at hdim hf
  obtain ⟨rs, hsearch, hlists⟩ := search_full (D := D) hinv hne hdim hef hf hd.nan
  obtain ⟨rs', hsearch', hlists'⟩ := search_full (D := D) hinv' hne hdim hef hf hd.nan
  rw [hsearch, hsearch']
  simp only [Option.some.injEq, Except.ok.injEq, exists_eq_left']
  rw [hlists.sort_eq_iff hinv hd (fun j hj => hj.1.lt hinv hne) (fun j hj => hj.1.lt hinv' hne)
    ⟨hlists'.nodup, hlists'.mem⟩]
  -- the live nodes behind the removal are those before it but for `i`
  have hnode : ∀ j < idx.nodes.length, (idx.idAt j ≠ x ↔ j ≠ i) := by
    intro j hj
    rw [← hix]
    exact not_congr ⟨hinv.idAt_inj hj hilt, fun h => by rw [h]⟩
  simp only [htomb, Bool.or_eq_false_iff, decide_eq_false_iff_not]
  constructor
  · intro hall j hj hlive hjx
    have hjall := hall j
    simp only [hlive, hjx, and_true, (hnode j hj).mp hjx, not_false_eq_true, ne_eq] at hjall
    exact hjall
  · intro hall j
    by_cases hj : j < idx.nodes.length
    · constructor
      · rintro ⟨⟨hex, hlive⟩, hjx⟩
        exact ⟨(hall j hj hlive hjx).mp hex, hlive, (hnode j hj).mp hjx⟩
      · rintro ⟨hex, hlive, hji⟩
        have hjx := (hnode j hj).mpr hji
        exact ⟨⟨(hall j hj hlive hjx).mpr hex, hlive⟩, hjx⟩
    · exact ⟨fun h => absurd (h.1.1.lt hinv hne) hj, fun h => absurd (h.1.lt hinv' hne) hj⟩

end Remove

/-- Three nodes in a chain. -/
def chain : HnswIndex Lit :=
  (onLine twoLinks [.insert 0 1 [.fin 0], .insert 0 2 [.fin 10], .insert 0 3 [.fin 20]]).get
    (by decide +kernel)

theorem chain_reachable : (calls (α := Lit) lineComputer 1 twoLinks).Reachable chain :=
  onLine_reachable (Option.some_get _).symm

theorem chain_distinct : Distinct lineComputer.distance chain [.fin 1] :=
  ⟨by decide +kernel, by decide +kernel⟩

/-- The chain without the node `i`. -/
def cut (i : Nat) : HnswIndex Lit := { chain with deleted := chain.deleted.set i true }

/-- Removing the middle of a chain hides its end too. -/
theorem remove_hides_the_end :
    (calls (α := Lit) lineComputer 1 twoLinks).Reachable chain ∧ Live chain 2 ∧
      chain.nodes.length ≤ 3 ∧ Distinct lineComputer.distance chain [.fin 1] ∧
      chain.remove 2 = some (cut 1, .ok ()) ∧
      ¬ ∃ rs, chain.search lineComputer [Lit.fin 1] 3 none = some (.ok rs) ∧
        (cut 1).search lineComputer [Lit.fin 1] 3 none =
          some (.ok (rs.filter fun p => p.1 != 2)) := by
  refine ⟨chain_reachable, by decide +kernel, by decide +kernel, chain_distinct, rfl, ?_⟩
  have hbefore : chain.search lineComputer [Lit.fin 1] 3 none =
      some (.ok [(1, .fin 1), (2, .fin 9), (3, .fin 19)]) := by decide +kernel
  have hafter : (cut 1).search lineComputer [Lit.fin 1] 3 none = some (.ok [(1, .fin 1)]) := by
    decide +kernel
  rw [hbefore, hafter]
  rintro ⟨rs, hrs, hrs'⟩
  cases hrs
  exact absurd hrs' (by decide +kernel)

theorem remove_search_iff_chain :
    (∃ rs, chain.search lineComputer [Lit.fin 1] 3 none = some (.ok rs) ∧
      (cut 2).search lineComputer [Lit.fin 1] 3 none =
        some (.ok (rs.filter fun p => p.1 != 3))) ∧
    ∀ j < chain.nodes.length, chain.tombstoned j = false → chain.idAt j ≠ 3 →
      (Explored lineComputer.distance chain [.fin 1] j ↔
        Explored lineComputer.distance (cut 2) [.fin 1] j) := by
  have hsame : ∃ rs, chain.search lineComputer [Lit.fin 1] 3 none = some (.ok rs) ∧
      (cut 2).search lineComputer [Lit.fin 1] 3 none =
        some (.ok (rs.filter fun p => p.1 != 3)) :=
    ⟨[(1, .fin 1), (2, .fin 9), (3, .fin 19)], by decide +kernel, by decide +kernel⟩
  have hcut : chain.remove 3 = some (cut 2, .ok ()) := rfl
  exact ⟨hsame, (remove_search_iff chain_reachable hcut [Lit.fin 1] rfl (by decide +kernel) none
    rfl chain_distinct).mp hsame⟩

end Tesseract.L3.HnswIndex
