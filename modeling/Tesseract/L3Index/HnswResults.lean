import Tesseract.Core.StableSort
import Tesseract.L3Index.HnswRecall

/-!
# What a query returns

On every reachable index, for every `ef` and mask and wherever the entry point is: at most
`ef` live ids, each once, at the distance of the vector stored for it, the closest first
(`search_results`). A query of another length is refused.
-/
namespace Tesseract.L3.HnswIndex

variable {α β : Type}

theorem Inv.vectorOf_idAt {idx : HnswIndex β} (hinv : Inv idx) {i : Nat}
    (hi : i < idx.nodes.length) : idx.vectorOf (idx.idAt i) = idx.vectors[i]? := by
  rw [vectorOf, hinv.findIdx_eq.mpr ⟨hi, rfl⟩, Option.bind_some]

theorem Inv.live_idAt {idx : HnswIndex β} (hinv : Inv idx) {i : Nat}
    (hi : i < idx.nodes.length) : Live idx (idx.idAt i) ↔ idx.tombstoned i = false := by
  obtain ⟨b, hb⟩ := hinv.wf.linked.deletedAt hi
  rw [Live, flagOf, hinv.findIdx_eq.mpr ⟨hi, rfl⟩, Option.bind_some, tombstoned_eq hb, hb,
    Option.some.injEq]

/-- At most `limit` live ids, each once and at the distance of its vector, in ascending
order. -/
structure Results [F32 β] (f : List β → List β → β) (idx : HnswIndex β) (query : List β)
    (limit : Nat) (rs : List (UInt64 × β)) : Prop where
  length : rs.length ≤ limit
  nodup : (rs.map Prod.fst).Nodup
  live : ∀ p ∈ rs, Live idx p.1
  scored : ∀ p ∈ rs, ∃ v, idx.vectorOf p.1 = some v ∧ p.2 = f v query
  sorted : rs.Pairwise fun p q => F32.le p.2 q.2 = true

/-- What is collected of candidates that are different nodes at their distances. -/
theorem collect_mem {f : List β → List β → β} {query : List β} {idx : HnswIndex β}
    (hinv : Inv idx) (limit : Nat) {candidates : List (Nat × β)}
    (hcand : ∀ p ∈ candidates, p.1 < idx.nodes.length ∧ idx.distTo f query p.1 = some p.2) :
    ∀ p ∈ idx.collect limit candidates,
      Live idx p.1 ∧ ∃ v, idx.vectorOf p.1 = some v ∧ p.2 = f v query := by
  intro p hp
  obtain ⟨q, hq, rfl⟩ := List.mem_map.mp hp
  obtain ⟨hmem, hlive⟩ := List.mem_filter.mp (List.mem_of_mem_take hq)
  obtain ⟨hlt, hdist⟩ := hcand q hmem
  obtain ⟨v, hv, hvq⟩ := Option.map_eq_some_iff.mp hdist
  exact ⟨(hinv.live_idAt hlt).mpr (by simpa using hlive), v,
    (hinv.vectorOf_idAt hlt).trans hv, hvq.symm⟩

section Query

variable [F32 β] [LawfulF32 β] [SwapF32 β] [OrderF32 β] [Narrow α β] {D : DistanceComputer β}
  {idx : HnswIndex β}

omit [LawfulF32 β] [SwapF32 β] [OrderF32 β] in
theorem results_nil {f : List β → List β → β} (query : List β) (ef : Nat) :
    Results f idx query ef [] := by
  constructor <;> simp

/-- A query of the index's dimension. -/
theorem search_results_of_inv (hinv : Inv idx) {query : List α} (hdim : query.length = idx.dim)
    (ef : Nat) (mask : Option (List (Nat × β)))
    (hnan : ∀ v ∈ idx.vectors, F32.isNaN (queryDistance D (mask.map fun m => maskToDense m idx.dim)
      v (query.map Narrow.toF32)) = false) :
    ∃ rs, idx.search D query ef mask = some (.ok rs) ∧
      Results (queryDistance D (mask.map fun m => maskToDense m idx.dim)) idx
        (query.map Narrow.toF32) ef rs := by
  by_cases hne : idx.nodes = []
  · refine ⟨[], ?_, results_nil _ _⟩
    rw [search, if_neg (by simpa using hdim)]
    simp [hne]
  · obtain ⟨curr, candidates, _, hlayer, hcand, hsearch⟩ :=
      search_spec hinv.wf hne hdim ef mask hnan
    obtain ⟨hnodup, hwalk⟩ := searchWith_walk hcand
    have hlt : ∀ p ∈ candidates, p.1 < idx.nodes.length :=
      fun p hp => ((hwalk p hp).2.hasLayer hinv.wf.linked hlayer).lt
    have hcollect := collect_mem hinv ef fun p hp => ⟨hlt p hp, (hwalk p hp).1⟩
    have hscore : ∀ p ∈ idx.collect ef candidates, F32.isNaN p.2 = false := by
      intro p hp
      obtain ⟨_, v, hv, hpv⟩ := hcollect p hp
      obtain ⟨i, _, hi⟩ := Option.bind_eq_some_iff.mp hv
      rw [hpv]
      exact hnan v (List.mem_of_getElem? hi)
    have hperm := List.perm_insertionSort (fun a b : UInt64 × β => F32.gt a.2 b.2 = false)
      (idx.collect ef candidates)
    refine ⟨_, hsearch, ?_, ?_, ?_, ?_, pairwise_insertionSort_float hscore⟩
    · rw [hperm.length_eq, collect, List.length_map]
      exact List.length_take_le ef _
    · rw [(hperm.map Prod.fst).nodup_iff]
      exact collect_nodup hinv hnodup hlt
    · exact fun p hp => (hcollect p (hperm.mem_iff.mp hp)).1
    · exact fun p hp => (hcollect p (hperm.mem_iff.mp hp)).2

/-- In every reachable index, where the distances of the stored vectors from the query are
not NaN, a search returns live ids at their distances, in ascending order and at most `ef`;
a query of another length is refused. -/
theorem search_results {dim : Nat} {config : HnswConfig}
    (hreach : (calls (α := α) D dim config).Reachable idx) (query : List α) (ef : Nat)
    (mask : Option (List (Nat × β)))
    (hnan : ∀ v ∈ idx.vectors, F32.isNaN (queryDistance D (mask.map fun m => maskToDense m dim)
      v (query.map Narrow.toF32)) = false) :
    (query.length = dim → ∃ rs, idx.search D query ef mask = some (.ok rs) ∧
      Results (queryDistance D (mask.map fun m => maskToDense m dim)) idx
        (query.map Narrow.toF32) ef rs) ∧
    (query.length ≠ dim →
      idx.search D query ef mask = some (.error (.dimensionMismatch query.length dim))) := by
  obtain ⟨hinv, rfl, _⟩ := reachable_inv hreach
  refine ⟨fun hdim => search_results_of_inv hinv hdim ef mask hnan, fun hdim => ?_⟩
  rw [search, if_pos hdim]

end Query

/-- The middle node of the bridge is removed. -/
theorem search_results_bridge :
    ∃ rs, bridge.search lineComputer [Lit.fin 1] 3 none = some (.ok rs) ∧
      Results lineComputer.distance bridge [.fin 1] 3 rs :=
  (search_results bridge_reachable [Lit.fin 1] 3 none (fun _ _ => rfl)).1 rfl

end Tesseract.L3.HnswIndex
