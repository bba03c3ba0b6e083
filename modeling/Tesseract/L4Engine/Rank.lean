import Tesseract.Core.StableSort
import Tesseract.Core.TopK
import Tesseract.L4Engine.Search

/-!
# The merge step of a search

The last step of `StorageEngine::search`: sort what the tiers return by distance, keep
the first of each id, cut off at `k`. Where no distance is NaN this is the list of the
`k` nearest ids, each with its smallest distance (`merged_sources_top`). What it drops is
`Outranked`, whatever the distances are.
-/
namespace Tesseract.L4.Engine

open L3

variable {α β : Type} [F64 α] [F32 β] [Narrow α β]

/-- mirrors tesseract-storage/src/engine.rs:435-442 -/
def rankTiers (S : ScoreSort β) (allResults : List (UInt64 × β)) (k : Nat) : List (UInt64 × β) :=
  (retainFirst [] (S.sort allResults)).take k

theorem search_rankTiers (S : ScoreSort β) (s : Engine α β) (query : List α) (k : Nat)
    (mask : Option (List (Nat × β))) :
    s.search S query k mask = (do
      let queryF32 : List β := query.map Narrow.toF32
      match ← s.searchIndex query k mask with
      | .error x => some (.error x)
      | .ok hnswResults =>
        let allResults := hnswResults ++ s.searchBuffer S queryF32 k ++ s.searchTree S queryF32 k
        if allResults.isEmpty && s.index.isNone then some (.error .indexNotBuilt)
        else some (.ok (rankTiers S allResults k))) := rfl

omit [F32 β] in
theorem retainFirst_eq (seen : List UInt64) (xs : List (UInt64 × β)) :
    retainFirst seen xs = keepFirst Prod.fst seen xs := by
  induction xs generalizing seen with
  | nil => rfl
  | cons p xs ih => rw [retainFirst, keepFirst, ih, ih]

/-- In a sorted list `p` comes behind another element of its id, or behind `k` ids. -/
def Outranked (k : Nat) (sorted : List (UInt64 × β)) (p : UInt64 × β) : Prop :=
  ∀ pre post, sorted = pre ++ p :: post →
    p.1 ∈ pre.map Prod.fst ∨ k ≤ (pre.map Prod.fst).dedup.length

omit [F32 β] in
theorem Outranked.zero (sorted : List (UInt64 × β)) (p : UInt64 × β) : Outranked 0 sorted p :=
  fun _ _ _ => .inr (Nat.zero_le _)

/-- `p` is at least as close as `q`. -/
def Closer (p q : UInt64 × β) : Prop := F32.le p.2 q.2 = true

theorem Closer.trans [OrderF32 β] {p q r : UInt64 × β} (h : Closer p q) (h' : Closer q r) :
    Closer p r := OrderF32.le_trans _ _ _ h h'

section Sorted

variable [LawfulF32 β] [SwapF32 β] [OrderF32 β] {all : List (UInt64 × β)}
  (hnan : ∀ p ∈ all, F32.isNaN p.2 = false)

include hnan

omit [SwapF32 β] [OrderF32 β] in
theorem scoreSort_self (S : ScoreSort β) (hs : all.Pairwise Closer) : S.sort all = all := by
  rw [S.stable all hnan]
  refine List.Pairwise.insertionSort_eq (hs.imp_of_mem fun ha hb h => ?_)
  exact (F32.le_iff_not_gt (hnan _ ha) (hnan _ hb)).mp h

theorem scoreSort_pairwise (S : ScoreSort β) : (S.sort all).Pairwise Closer := by
  rw [S.stable all hnan]
  exact pairwise_insertionSort_float hnan

/-- The merge step returns the `k` nearest ids. -/
theorem rankTiers_top (S : ScoreSort β) (k : Nat) :
    Top Prod.fst Closer k all (rankTiers S all k) := by
  rw [rankTiers, retainFirst_eq]
  exact keepFirst_top (S.perm all) (scoreSort_pairwise hnan S)
    (fun p hp => F32.le_refl (hnan p hp)) (fun _ _ _ _ _ _ h h' => h.trans h') k

end Sorted

section Sources

variable [LawfulF32 β] [SwapF32 β] [OrderF32 β]

/-- Whatever the index, the buffer and the tree return, with ids repeated or not: the merge
lists the `k` ids of smallest distance in ascending order, each once with its smallest
distance. It is what a search answers that these lists were returned to. -/
theorem merged_sources_top (S : ScoreSort β) (hnsw buffer tree : List (UInt64 × β))
    (hnan : ∀ p ∈ hnsw ++ buffer ++ tree, F32.isNaN p.2 = false) (k : Nat) :
    Top Prod.fst Closer k (hnsw ++ buffer ++ tree) (rankTiers S (hnsw ++ buffer ++ tree) k) ∧
    (rankTiers S (hnsw ++ buffer ++ tree) k).length ≤ k ∧
    ∀ (s : Engine α β) (query : List α) (mask : Option (List (Nat × β))),
      s.searchIndex query k mask = some (.ok hnsw) →
      s.searchBuffer S (query.map Narrow.toF32) k = buffer →
      s.searchTree S (query.map Narrow.toF32) k = tree →
      s.search S query k mask =
        if (hnsw ++ buffer ++ tree).isEmpty && s.index.isNone then some (.error .indexNotBuilt)
        else some (.ok (rankTiers S (hnsw ++ buffer ++ tree) k)) := by
  refine ⟨rankTiers_top hnan S k, List.length_take_le k _, ?_⟩
  intro s query mask hindex hbuffer htree
  rw [search_rankTiers, hindex]
  simp only [Option.bind_eq_bind, Option.bind_some, hbuffer, htree]

/-- Two ids, one of them from all three sources. -/
theorem merged_sources_repeated :
    Top Prod.fst Closer 2 ([(1, Lit.fin 3), (2, .fin 4)] ++ [(1, .fin 1)] ++ [(1, .fin 2)])
      [(1, .fin 1), (2, .fin 4)] :=
  (merged_sources_top (α := Lit) .insertion [(1, Lit.fin 3), (2, .fin 4)] [(1, .fin 1)]
    [(1, .fin 2)] (by decide) 2).1

end Sources

end Tesseract.L4.Engine
