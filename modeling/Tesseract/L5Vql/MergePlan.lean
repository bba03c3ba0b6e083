import Tesseract.L5Vql.Executor

/-!
# The Merkle plan

With `merkle_enabled` the planner scans twice and merges the two results, which are the
same list.

* `planToTree_merge`: the plans the planner builds with the flag on and off.
* `merge_page_iff`: when the page of the merged scans is that of the one scan.
* `merge_returns_farther`: of two results at different distances the farther one is
  returned.
-/
namespace Tesseract.L5.Vql

variable {α β : Type} [F64 α] [F64Math α] [F64Plan α]

theorem planToTree_merge [Narrow α β] (config : PlannerConfig α) (find : String)
    (similarity : SimilarityExpr α) (limit : Option Limit) (offset : Option Offset) :
    ∃ scan : PlanNode α β, ∃ l o,
      planToTree { config with merkleEnabled := true } (.plain find similarity limit offset) =
        some (.ok (.limit (.merge scan scan l) l o)) ∧
      planToTree { config with merkleEnabled := false } (.plain find similarity limit offset) =
        some (.ok (.limit scan l o)) := ⟨_, _, _, rfl, rfl⟩

variable [F32 β] [LawfulF32 β] [SwapF32 β] [OrderF32 β]

omit [F64Math α] [F64Plan α] in
/-- Ascending distances fall under the sort of the merge. -/
theorem risingOn_descending {xs : List (ScoredResult α β)}
    (hnan : ∀ r ∈ xs, F32.isNaN r.score = false)
    (hasc : xs.Pairwise fun a b => F32.le a.score b.score = true) : RisingOn descending xs := by
  refine ⟨(TotalOn.byFloat hnan).flip, hasc.imp_of_mem fun {a b} ha hb h => ?_⟩
  exact (cmpFloat_not_gt (f := ScoredResult.score) (hnan a ha) (hnan b hb)).mpr h

namespace Backend

variable (B : Backend α β) (userId : Option String)

omit [LawfulF32 β] [SwapF32 β] [OrderF32 β] in
theorem executePlan_merge {scan : PlanNode α β} {query : List α} {xs : List (ScoredResult α β)}
    (hscan : B.executePlan userId scan query = some (.ok xs)) (limit : Nat) :
    B.executePlan userId (.merge scan scan limit) query =
      some (.ok ((merged ScoredResult.id B.sortDescending xs).take limit)) := by
  rw [executePlan, hscan]
  rfl

omit [LawfulF32 β] [SwapF32 β] [OrderF32 β] in
theorem executePlan_limit {node : PlanNode α β} {query : List α} {xs : List (ScoredResult α β)}
    (hnode : B.executePlan userId node query = some (.ok xs)) (limit offset : Nat) :
    B.executePlan userId (.limit node limit offset) query =
      some (.ok (page xs limit offset)) := by
  rw [executePlan, hnode]
  rfl

/-- The merged scans have the page of the scan exactly in the cases of `SamePage`. -/
theorem merge_page_iff {field : String} {efSearch : Nat} {weightMask : Option (List (Nat × β))}
    {biasFilters : List (L3.BiasFilter α)} {alpha : α} {query : List α}
    {xs : List (ScoredResult α β)}
    (hscan : B.executePlan userId (.annScan field efSearch weightMask biasFilters alpha) query =
      some (.ok xs))
    (hnan : ∀ r ∈ xs, F32.isNaN r.score = false)
    (hasc : xs.Pairwise fun a b => F32.le a.score b.score = true)
    (hids : (xs.map ScoredResult.id).Nodup) (limit offset : Nat) :
    B.executePlan userId
        (.limit (.merge (.annScan field efSearch weightMask biasFilters alpha)
          (.annScan field efSearch weightMask biasFilters alpha) limit) limit offset) query =
      B.executePlan userId
        (.limit (.annScan field efSearch weightMask biasFilters alpha) limit offset) query ↔
    SamePage descending xs limit offset := by
  rw [B.executePlan_limit userId (B.executePlan_merge userId hscan limit),
    B.executePlan_limit userId hscan, Option.some.injEq, Except.ok.injEq]
  exact (risingOn_descending hnan hasc).page_iff B.sortDescending hids limit offset

/-! ## Two results -/

/-- Ids 1 and 2 at the distances 1 and 2. -/
def twoResults : Backend Lit Lit := .ofRanking [(1, .fin 1), (2, .fin 2)]

/-- A scan for the nearest 50. -/
def scanFifty : PlanNode Lit Lit := .annScan "embedding" 50 none [] (.fin 0)

/-- Under the Merkle plan LIMIT 1 returns the farther of the two results. -/
theorem merge_returns_farther :
    twoResults.executePlan none (.limit (.merge scanFifty scanFifty 1) 1 0) [] =
        some (.ok [⟨2, .fin 2, none⟩]) ∧
      twoResults.executePlan none (.limit scanFifty 1 0) [] = some (.ok [⟨1, .fin 1, none⟩]) ∧
      twoResults.executePlan none (.limit (.merge scanFifty scanFifty 1) 1 0) [] ≠
        twoResults.executePlan none (.limit scanFifty 1 0) [] := by
  have hmerge : twoResults.executePlan none (.limit (.merge scanFifty scanFifty 1) 1 0) [] =
      some (.ok [⟨2, .fin 2, none⟩]) := rfl
  have hscan : twoResults.executePlan none (.limit scanFifty 1 0) [] =
      some (.ok [⟨1, .fin 1, none⟩]) := rfl
  refine ⟨hmerge, hscan, ?_⟩
  rw [hmerge, hscan]
  simp

/-- Two results at one distance, LIMIT 2: both plans return them in order. -/
theorem merge_page_tie :
    (ofRanking [(1, .fin 5), (2, .fin 5)] : Backend Lit Lit).executePlan none
        (.limit (.merge scanFifty scanFifty 2) 2 0) [] =
      (ofRanking [(1, .fin 5), (2, .fin 5)] : Backend Lit Lit).executePlan none
        (.limit scanFifty 2 0) [] := by
  have hscan : (ofRanking [(1, .fin 5), (2, .fin 5)] : Backend Lit Lit).executePlan none
      scanFifty [] = some (.ok [⟨1, .fin 5, none⟩, ⟨2, .fin 5, none⟩]) := rfl
  refine (merge_page_iff _ _ hscan (by decide) (by decide) (by decide) 2 0).mpr ?_
  unfold SamePage
  decide

end Backend

end Tesseract.L5.Vql
