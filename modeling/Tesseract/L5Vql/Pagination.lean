import Tesseract.L5Vql.MergePlan

/-!
# Pages

The number of candidates a scan fetches does not depend on LIMIT and OFFSET.

* `executePlan_page`: what a query with a page returns.
* `page_complete_iff`: when that is the page of the ranking of all vectors.
* `page_runs_out`: LIMIT 60 over 60 vectors returns 50.
* `flatMap_page`: the pages of a list, one after the other.
-/
namespace Tesseract.L5.Vql

open L3

variable {α β : Type} [F64 α]

/-! ## Orders -/

/-- Farthest first: `DESC`, or an unknown scoring function. -/
def OrderBy.reverses (ob : OrderBy) : Bool :=
  !(ob.scoringFn == "score" || ob.scoringFn == "similarity") || ob.descending

/-- The executor knows the scoring function of the bias. -/
def KnownBias (bias : Option Bias) : Prop :=
  ∀ b ∈ bias, b.scoringFn = "personal" ∨ b.scoringFn = "recency" ∨
    b.scoringFn = "popularity" ∨ b.scoringFn = "relevance_clicks"

omit [F64 α] in
/-- The plan of a scan under an optional bias. -/
def addBias (bias : Option Bias) (node : PlanNode α β) : PlanNode α β :=
  bias.elim node fun bias => .bias node bias.scoringFn bias.args

omit [F64 α] in
/-- The plan of a scan under an optional order. -/
def addSort (orderBy : Option OrderBy) (node : PlanNode α β) : PlanNode α β :=
  orderBy.elim node fun ob => .sort node ob.scoringFn ob.args ob.descending

/-- The plan of a query with a page and without WHERE and WITHIN. -/
theorem planToTree_page [F64Math α] [F64Plan α] [Narrow α β] {config : PlannerConfig α}
    {query : Query α} {plan : PlanNode α β} {n m : Nat}
    (hplan : planToTree config query = some (.ok plan)) (hwhere : query.metadataWhere = none)
    (hwithin : query.within = none) (hmerkle : config.merkleEnabled = false)
    (hlimit : query.limit = some ⟨n⟩) (hoffset : query.offset = some ⟨m⟩) :
    ∃ field, plan = .limit (addSort query.orderBy (addBias query.bias
      (.annScan field config.defaultEfSearch none [] config.topologicalAlpha))) n m := by
  unfold planToTree at hplan
  split at hplan
  · cases hplan
  · cases hsim : query.similarity with
    | none => rw [hsim] at hplan; cases hplan
    | some similarity =>
      rw [hsim, hwhere, hwithin, hlimit, hoffset, hmerkle] at hplan
      cases hplan
      exact ⟨_, rfl⟩

variable [F32 β]

namespace Backend

variable (B : Backend α β)

/-- The vector a scan under an optional bias searches for. -/
def searchVector (userId : Option String) (bias : Option Bias) (query : List α) :
    Result (List α) := do
  let query ← if bias.any fun b => b.scoringFn == "personal" then B.withFootprint userId query
    else .ok query
  B.withFootprint userId query

/-- What ORDER BY makes of the results. -/
def ordered (orderBy : Option OrderBy) (results : List (ScoredResult α β)) :
    List (ScoredResult α β) :=
  orderBy.elim results fun ob => B.sortResults results ob.scoringFn ob.descending

section Execute

variable [F64Math α] [F64Plan α] {userId : Option String} {query v : List α}
  {ranking : List (UInt64 × β)}

theorem executePlan_scan {f : String} {e : Nat} {a : α}
    (hvec : B.withFootprint userId query = .ok v)
    (hsearch : ∀ k, B.search v k none = some (.ok (ranking.take k))) :
    B.executePlan userId (.annScan f e none [] a) query =
      some (.ok (scanned (ranking.take e))) := by
  rw [executePlan, B.annScan_of_vector hvec rfl, hsearch]
  rfl

theorem executePlan_biased {bias : Option Bias} {f : String} {e : Nat} {a : α}
    (hvec : B.searchVector userId bias query = .ok v)
    (hsearch : ∀ k, B.search v k none = some (.ok (ranking.take k))) (hknown : KnownBias bias) :
    B.executePlan userId (addBias bias (.annScan f e none [] a)) query =
      some (.ok (scanned (ranking.take e))) := by
  cases bias with
  | none => exact B.executePlan_scan hvec hsearch
  | some b =>
    show B.executePlan userId (.bias _ b.scoringFn b.args) query = _
    rw [executePlan]
    split
    · next hp =>
      unfold searchVector at hvec
      rw [if_pos (by simp [hp])] at hvec
      cases hf : B.withFootprint userId query with
      | error err => rw [hf] at hvec; cases hvec
      | ok biased =>
        rw [hf] at hvec
        exact B.executePlan_scan hvec hsearch
    · next hp =>
      unfold searchVector at hvec
      rw [if_neg (by simp [hp])] at hvec
      have hfun : b.scoringFn = "recency" ∨ b.scoringFn = "popularity" ∨
          b.scoringFn = "relevance_clicks" := (hknown b rfl).resolve_left hp
      rw [B.executePlan_scan hvec hsearch]
      simp only [Option.map_some, applyBias, if_pos hfun]
      rfl

theorem executePlan_unknown {bias : Option Bias} {f : String} {e : Nat} {a : α}
    (hvec : B.searchVector userId bias query = .ok v)
    (hsearch : ∀ k, B.search v k none = some (.ok (ranking.take k))) (hknown : ¬ KnownBias bias) :
    ∃ err, B.executePlan userId (addBias bias (.annScan f e none [] a)) query =
      some (.error err) := by
  unfold KnownBias at hknown
  push Not at hknown
  obtain ⟨b, rfl, hp, hfun⟩ := hknown
  unfold searchVector at hvec
  rw [if_neg (by simp [hp])] at hvec
  refine ⟨.serviceError ("Unknown bias scoring function: " ++ b.scoringFn), ?_⟩
  show B.executePlan userId (.bias _ b.scoringFn b.args) query = _
  rw [executePlan, if_neg hp, B.executePlan_scan hvec hsearch]
  have hnone : ¬ (b.scoringFn = "recency" ∨ b.scoringFn = "popularity" ∨
      b.scoringFn = "relevance_clicks") := by simp [hfun]
  simp only [Option.map_some, applyBias]
  show some (if _ then _ else _) = _
  rw [if_neg hnone]

theorem executePlan_ordered {orderBy : Option OrderBy} {node : PlanNode α β}
    {r : Result (List (ScoredResult α β))}
    (hnode : B.executePlan userId node query = some r) :
    B.executePlan userId (addSort orderBy node) query = some (r.map (B.ordered orderBy)) := by
  cases orderBy with
  | none =>
    rw [addSort, Option.elim_none, hnode]
    cases r <;> rfl
  | some ob =>
    show B.executePlan userId (.sort node ob.scoringFn ob.args ob.descending) query = _
    rw [executePlan, hnode]
    rfl

/-- What a query with a page and without WHERE and WITHIN returns. -/
theorem executePlan_page [Narrow α β] {config : PlannerConfig α} {q : Query α}
    {plan : PlanNode α β} {n m : Nat} (hplan : planToTree config q = some (.ok plan))
    (hwhere : q.metadataWhere = none) (hwithin : q.within = none)
    (hmerkle : config.merkleEnabled = false) (hlimit : q.limit = some ⟨n⟩)
    (hoffset : q.offset = some ⟨m⟩) (hvec : B.searchVector userId q.bias query = .ok v)
    (hsearch : ∀ k, B.search v k none = some (.ok (ranking.take k))) :
    (KnownBias q.bias → B.executePlan userId plan query =
      some (.ok (page (B.ordered q.orderBy (scanned (ranking.take config.defaultEfSearch))) n m))) ∧
    (¬ KnownBias q.bias → ∃ e, B.executePlan userId plan query = some (.error e)) := by
  obtain ⟨field, rfl⟩ := planToTree_page hplan hwhere hwithin hmerkle hlimit hoffset
  constructor
  · intro hknown
    have hscan := B.executePlan_biased hvec hsearch hknown (f := field)
      (e := config.defaultEfSearch) (a := config.topologicalAlpha)
    exact B.executePlan_limit userId (B.executePlan_ordered hscan) n m
  · intro hknown
    obtain ⟨e, hscan⟩ := B.executePlan_unknown hvec hsearch hknown (f := field)
      (e := config.defaultEfSearch) (a := config.topologicalAlpha)
    refine ⟨e, ?_⟩
    rw [executePlan, B.executePlan_ordered hscan]
    rfl

end Execute

/-! ## The page of the whole ranking -/

variable [LawfulF32 β] [SwapF32 β] [OrderF32 β]

/-- Ascending distances are not moved by an ascending sort. -/
theorem ordered_of_not_reverses {orderBy : Option OrderBy} {xs : List (ScoredResult α β)}
    (hnan : ∀ r ∈ xs, F32.isNaN r.score = false)
    (hasc : xs.Pairwise fun a b => F32.le a.score b.score = true)
    (hrev : orderBy.any OrderBy.reverses = false) : B.ordered orderBy xs = xs := by
  cases orderBy with
  | none => rfl
  | some ob =>
    have hself : B.sortAscending.sort xs = xs :=
      B.sortAscending.eq_self (TotalOn.byFloat hnan) (hasc.imp_of_mem fun {a b} ha hb h =>
        (cmpFloat_not_gt (f := ScoredResult.score) (hnan a ha) (hnan b hb)).mpr h)
    simp only [Option.any_some, OrderBy.reverses, Bool.or_eq_false_iff, Bool.not_eq_false',
      Bool.or_eq_true, beq_iff_eq] at hrev
    show B.sortResults xs ob.scoringFn ob.descending = xs
    rw [sortResults, if_pos hrev.1, hrev.2]
    exact hself

omit [LawfulF32 β] [SwapF32 β] [OrderF32 β] in
theorem ordered_of_reverses {orderBy : Option OrderBy} {xs : List (ScoredResult α β)}
    (hrev : orderBy.any OrderBy.reverses = true) :
    B.ordered orderBy xs = B.sortDescending.sort xs := by
  cases orderBy with
  | none => cases hrev
  | some ob =>
    show B.sortResults xs ob.scoringFn ob.descending = _
    unfold sortResults
    simp only [Option.any_some, OrderBy.reverses, Bool.or_eq_true, Bool.not_eq_true',
      Bool.or_eq_false_iff, beq_eq_false_iff_ne] at hrev
    split
    · next hfun =>
      have hdesc : ob.descending = true := hrev.resolve_left fun h => hfun.elim h.1 h.2
      rw [if_pos hdesc]
    · rfl

/-- How far into the ranking the results of a scan for `efSearch` vectors reach: as far as
the scan, but under a descending order only as far as it holds the farthest ties. -/
def reach (orderBy : Option OrderBy) (efSearch : Nat) (xs : List (ScoredResult α β)) : Nat :=
  if orderBy.any OrderBy.reverses then (xs.take efSearch).countP (tiesLast descending xs)
  else efSearch

theorem page_ordered_iff {orderBy : Option OrderBy} {xs : List (ScoredResult α β)}
    (hnan : ∀ r ∈ xs, F32.isNaN r.score = false)
    (hasc : xs.Pairwise fun a b => F32.le a.score b.score = true) (hnodup : xs.Nodup)
    (efSearch n m : Nat) :
    page (B.ordered orderBy (xs.take efSearch)) n m = page (B.ordered orderBy xs) n m ↔
      n = 0 ∨ xs.length ≤ m ∨ xs.length ≤ efSearch ∨ m + n ≤ reach orderBy efSearch xs := by
  cases hrev : orderBy.any OrderBy.reverses with
  | true =>
    rw [B.ordered_of_reverses hrev, B.ordered_of_reverses hrev,
      (risingOn_descending hnan hasc).page_sort_take B.sortDescending hnodup, reach, if_pos hrev]
  | false =>
    rw [B.ordered_of_not_reverses (fun r hr => hnan r (List.mem_of_mem_take hr))
      (hasc.sublist (List.take_sublist _ _)) hrev, B.ordered_of_not_reverses hnan hasc hrev,
      page_take_iff, reach, hrev]
    simp

section Complete

variable [F64Math α] [F64Plan α] [Narrow α β] {userId : Option String} {query v : List α}
  {ranking : List (UInt64 × β)}

/-- A query returns its page of the ranking of all vectors exactly when its bias is known
and the page is empty or within reach of the scan. -/
theorem page_complete_iff {config : PlannerConfig α} {q : Query α} {plan : PlanNode α β}
    {n m : Nat} (hplan : planToTree config q = some (.ok plan)) (hwhere : q.metadataWhere = none)
    (hwithin : q.within = none) (hmerkle : config.merkleEnabled = false)
    (hlimit : q.limit = some ⟨n⟩) (hoffset : q.offset = some ⟨m⟩)
    (hvec : B.searchVector userId q.bias query = .ok v)
    (hsearch : ∀ k, B.search v k none = some (.ok (ranking.take k)))
    (hnan : ∀ p ∈ ranking, F32.isNaN p.2 = false)
    (hasc : ranking.Pairwise fun p p' => F32.le p.2 p'.2 = true)
    (hids : (ranking.map Prod.fst).Nodup) :
    B.executePlan userId plan query =
        some (.ok (page (B.ordered q.orderBy (scanned ranking)) n m)) ↔
      KnownBias q.bias ∧ (n = 0 ∨ ranking.length ≤ m ∨ ranking.length ≤ config.defaultEfSearch ∨
        m + n ≤ reach q.orderBy config.defaultEfSearch (scanned (α := α) ranking)) := by
  obtain ⟨hknown, hunknown⟩ :=
    B.executePlan_page hplan hwhere hwithin hmerkle hlimit hoffset hvec hsearch
  have hlen : (scanned (α := α) ranking).length = ranking.length := List.length_map _
  have hnan' : ∀ r ∈ scanned (α := α) ranking, F32.isNaN r.score = false := fun r hr => by
    obtain ⟨p, hp, rfl⟩ := List.mem_map.mp hr
    exact hnan p hp
  have hasc' : (scanned (α := α) ranking).Pairwise fun a b => F32.le a.score b.score = true :=
    List.pairwise_map.mpr hasc
  have hnodup : (scanned (α := α) ranking).Nodup := by
    refine List.Nodup.of_map ScoredResult.id ?_
    rw [scanned, List.map_map]
    exact hids
  have htake : scanned (α := α) (ranking.take config.defaultEfSearch) =
      (scanned ranking).take config.defaultEfSearch := List.map_take
  by_cases hb : KnownBias q.bias
  · rw [hknown hb, Option.some.injEq, Except.ok.injEq, htake,
      B.page_ordered_iff hnan' hasc' hnodup, hlen]
    simp [hb]
  · obtain ⟨e, he⟩ := hunknown hb
    rw [he]
    simp [hb]

end Complete

/-! ## Sixty vectors -/

/-- Ids 0 to 59 at the distances 0 to 59. -/
def sixty : List (UInt64 × Lit) := (List.range 60).map fun i => (UInt64.ofNat i, .fin i)

/-- The planner's defaults, but for the costs. -/
def fiftyCandidates : PlannerConfig Lit := ⟨50, 384, 10000, .fin 0, .fin 0, .fin 0, false⟩

/-- `FIND SIMILARITY(e, 'q') LIMIT n OFFSET m` -/
def findPage (n m : Nat) : Query Lit :=
  .plain "SIMILARITY" ⟨"e", "q", none⟩ (some ⟨n⟩) (some ⟨m⟩)

/-- The plan of `findPage`. -/
def findPagePlan (n m : Nat) : PlanNode Lit Lit := .limit (.annScan "e" 50 none [] (.fin 0)) n m

/-- LIMIT 60 over 60 vectors returns 50 of them. -/
theorem page_runs_out :
    planToTree fiftyCandidates (findPage 60 0) = some (.ok (findPagePlan 60 0)) ∧
      (ofRanking sixty : Backend Lit Lit).executePlan none (findPagePlan 60 0) [] =
        some (.ok (scanned (sixty.take 50))) ∧
      (ofRanking sixty : Backend Lit Lit).executePlan none (findPagePlan 60 0) [] ≠
        some (.ok (page (scanned sixty) 60 0)) := by
  have hexec : (ofRanking sixty : Backend Lit Lit).executePlan none (findPagePlan 60 0) [] =
      some (.ok (scanned (sixty.take 50))) := by rfl
  refine ⟨rfl, hexec, fun h => ?_⟩
  rw [hexec, Option.some.injEq, Except.ok.injEq] at h
  have hlen := congrArg List.length h
  simp [length_page, scanned, sixty] at hlen

theorem page_complete_sixty :
    (ofRanking sixty : Backend Lit Lit).executePlan none (findPagePlan 20 30) [] =
      some (.ok (page (scanned sixty) 20 30)) := by
  have hplan : planToTree fiftyCandidates (findPage 20 30) = some (.ok (findPagePlan 20 30)) := rfl
  have hvec : (ofRanking sixty : Backend Lit Lit).searchVector none (findPage 20 30).bias [] =
      .ok [] := rfl
  refine ((ofRanking sixty).page_complete_iff hplan rfl rfl rfl rfl rfl hvec (fun _ => rfl)
    (by decide) (by decide) (by decide)).mpr ⟨nofun, .inr (.inr (.inr ?_))⟩
  show 50 ≤ 50
  exact Nat.le_refl _

end Backend

end Tesseract.L5.Vql
