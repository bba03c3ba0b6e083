import Tesseract.L5Vql.WhereSound

/-!
# The scans of a plan

A plan is one scan, or the same scan twice, under the other operators.

* `planToTree_eq_ok`: the plan of a query, and when there is one.
* `scans_operators`: its scans.
* `conjunction_hints_iff`: the predicates of an AND leave no trace in the scans, unlike a list
  of the same ones.
-/
namespace Tesseract.L5.Vql

open L3

variable {α β : Type}

/-- What a scan is told of the query. -/
structure Scan (α β : Type) where
  field : String
  efSearch : Nat
  weightMask : Option (List (Nat × β))
  biasFilters : List (BiasFilter α)
  topologicalAlpha : α

def Scan.node (s : Scan α β) : PlanNode α β :=
  .annScan s.field s.efSearch s.weightMask s.biasFilters s.topologicalAlpha

namespace PlanNode

/-- The scans of a plan, from left to right. -/
def scans : PlanNode α β → List (Scan α β)
  | .annScan field efSearch weightMask biasFilters alpha =>
    [⟨field, efSearch, weightMask, biasFilters, alpha⟩]
  | .merge left right _ => left.scans ++ right.scans
  | .filter input _ => input.scans
  | .bias input _ _ => input.scans
  | .sort input _ _ _ => input.scans
  | .limit input _ _ => input.scans
  | .deadline input _ _ => input.scans

end PlanNode

/-! ## The operators over the scans -/

variable [F64 α]

/-- The deadline over a plan within its budget. -/
def underDeadline (withinMs : Option Nat) (estimatedCostMs : α) (node : PlanNode α β) :
    PlanNode α β :=
  withinMs.elim node fun millis => .deadline node millis estimatedCostMs

/-- The predicted cost and its buffer are within the budget. -/
def withinBudget (config : PlannerConfig α) (withinMs : Option Nat) (estimatedCostMs : α) : Bool :=
  withinMs.all fun millis : Nat => !F64.lt (F64.ofInt millis)
    (F64.mul estimatedCostMs (F64.add (F64.ofInt 1) config.costBuffer))

/-- The scan, twice for a Merkle tree. -/
def Scan.base (config : PlannerConfig α) (limit : Nat) (scan : Scan α β) : PlanNode α β :=
  if config.merkleEnabled then .merge scan.node scan.node limit else scan.node

section Tree

variable [F64Math α]

/-- The tree of a query under the deadline. -/
def operators (config : PlannerConfig α) (query : Query α) (scan : Scan α β) : PlanNode α β :=
  let limit := (query.limit.map Limit.count).getD 10
  let offset := (query.offset.map Offset.count).getD 0
  .limit (addSort query.orderBy (addBias query.bias
    (addFilter query.metadataWhere scan.biasFilters (scan.base config limit)))) limit offset

omit [F64 α] in
theorem addFilter_cases (metadataWhere : Option (MetadataWhere α))
    (biasFilters : List (BiasFilter α)) (node : PlanNode α β) :
    addFilter metadataWhere biasFilters node = node ∨
      ∃ p, addFilter metadataWhere biasFilters node = .filter node p := by
  unfold addFilter
  split
  · exact .inl rfl
  · split
    · exact .inl rfl
    · split
      · exact .inl rfl
      · split
        · exact .inr ⟨_, rfl⟩
        · exact .inr ⟨_, rfl⟩

omit [F64 α] in
theorem scans_addFilter (metadataWhere : Option (MetadataWhere α))
    (biasFilters : List (BiasFilter α)) (node : PlanNode α β) :
    (addFilter metadataWhere biasFilters node).scans = node.scans := by
  rcases addFilter_cases metadataWhere biasFilters node with h | ⟨p, h⟩
  · rw [h]
  · rw [h]
    rfl

omit [F64 α] [F64Math α] in
theorem scans_addBias (bias : Option Bias) (node : PlanNode α β) :
    (addBias bias node).scans = node.scans := by
  cases bias <;> rfl

omit [F64 α] [F64Math α] in
theorem scans_addSort (orderBy : Option OrderBy) (node : PlanNode α β) :
    (addSort orderBy node).scans = node.scans := by
  cases orderBy <;> rfl

omit [F64 α] [F64Math α] in
theorem scans_underDeadline (withinMs : Option Nat) (estimatedCostMs : α)
    (node : PlanNode α β) : (underDeadline withinMs estimatedCostMs node).scans = node.scans := by
  cases withinMs <;> rfl

omit [F64 α] in
/-- One scan, or the same one twice. -/
theorem scans_operators (config : PlannerConfig α) (query : Query α) (scan : Scan α β) :
    (operators config query scan).scans =
      if config.merkleEnabled then [scan, scan] else [scan] := by
  show (addSort query.orderBy _).scans = _
  rw [scans_addSort, scans_addBias, scans_addFilter]
  unfold Scan.base
  split <;> rfl

end Tree

/-! ## The plan of a query -/

variable [F64Math α] [F64Plan α]

omit [F64Math α] in
theorem addDeadline_eq_ok {config : PlannerConfig α} {withinMs : Option Nat}
    {estimatedCostMs : α} {node plan : PlanNode α β} :
    addDeadline config withinMs estimatedCostMs node = .ok plan ↔
      withinBudget config withinMs estimatedCostMs = true ∧
        plan = underDeadline withinMs estimatedCostMs node := by
  cases withinMs with
  | none =>
    simp only [addDeadline, withinBudget, underDeadline, Option.all_none, Option.elim_none,
      Except.ok.injEq, true_and]
    exact eq_comm
  | some millis =>
    simp only [addDeadline, withinBudget, underDeadline, Option.all_some, Option.elim_some]
    cases F64.lt (F64.ofInt millis)
      (F64.mul estimatedCostMs (F64.add (F64.ofInt 1) config.costBuffer)) with
    | true =>
      simp only [if_true, reduceCtorEq, Bool.not_true, Bool.false_eq_true, false_and]
    | false =>
      simp only [Bool.false_eq_true, if_false, Except.ok.injEq, Bool.not_false, true_and]
      exact eq_comm

/-- The budget of a query. -/
def Query.withinMs (query : Query α) : Option Nat := query.within.map Within.millis

/-- The predicted cost of a query. -/
def queryCost (config : PlannerConfig α) (query : Query α) : α :=
  estimateCost config (computeEfSearch config query.withinMs)

/-- The scan of a query over a field, with the weights of its WHERE clause. -/
def queryScan (config : PlannerConfig α) (query : Query α) (field : String)
    (weightMask : Option (List (Nat × β))) : Scan α β :=
  ⟨field, computeEfSearch config query.withinMs, weightMask,
    extractBiasFilters query.metadataWhere, scanAlpha config query.withinMs⟩

variable [Narrow α β]

theorem planToTree_of_scan {config : PlannerConfig α} {query : Query α}
    {similarity : SimilarityExpr α} {weightMask : Option (List (Nat × β))}
    (hrank : (query.bias.isSome && query.orderBy.isSome) = false)
    (hsim : query.similarity = some similarity)
    (hmask : deriveWeightMask config query.metadataWhere = some weightMask) :
    planToTree config query = some (addDeadline config query.withinMs (queryCost config query)
      (operators config query (queryScan config query similarity.field weightMask))) := by
  unfold planToTree
  rw [if_neg (by simp [hrank]), hsim, hmask]
  rfl

/-- A query has a plan unless it has two rankings, no similarity, or a cost over its budget. -/
theorem planToTree_eq_ok {config : PlannerConfig α} {query : Query α} {plan : PlanNode α β} :
    planToTree config query = some (.ok plan) ↔
      (query.bias.isSome && query.orderBy.isSome) = false ∧
        withinBudget config query.withinMs (queryCost config query) = true ∧
        ∃ similarity weightMask, query.similarity = some similarity ∧
          deriveWeightMask config query.metadataWhere = some weightMask ∧
          plan = underDeadline query.withinMs (queryCost config query)
            (operators config query (queryScan config query similarity.field weightMask)) := by
  constructor
  · intro h
    cases hrank : query.bias.isSome && query.orderBy.isSome with
    | true => simp [planToTree, hrank] at h
    | false =>
      cases hsim : query.similarity with
      | none => simp [planToTree, hrank, hsim] at h
      | some similarity =>
        cases hmask : deriveWeightMask (β := β) config query.metadataWhere with
        | none => simp [planToTree, hrank, hsim, hmask] at h
        | some weightMask =>
          rw [planToTree_of_scan hrank hsim hmask, Option.some.injEq, addDeadline_eq_ok] at h
          exact ⟨rfl, h.1, similarity, weightMask, rfl, rfl, h.2⟩
  · intro ⟨hrank, hbudget, similarity, weightMask, hsim, hmask, hplan⟩
    rw [planToTree_of_scan hrank hsim hmask, Option.some.injEq, addDeadline_eq_ok]
    exact ⟨hbudget, hplan⟩

/-- The scans of a plan are the scan of its query. -/
theorem scans_of_plan {config : PlannerConfig α} {query : Query α} {plan : PlanNode α β}
    (h : planToTree config query = some (.ok plan)) :
    ∃ similarity weightMask, query.similarity = some similarity ∧
      deriveWeightMask config query.metadataWhere = some weightMask ∧
      plan.scans = if config.merkleEnabled then
          [queryScan config query similarity.field weightMask,
            queryScan config query similarity.field weightMask]
        else [queryScan config query similarity.field weightMask] := by
  obtain ⟨-, -, similarity, weightMask, hsim, hmask, rfl⟩ := planToTree_eq_ok.mp h
  refine ⟨similarity, weightMask, hsim, hmask, ?_⟩
  rw [scans_underDeadline, scans_operators]

/-! ## Conjunctions -/

/-- What a scan takes from the WHERE clause. -/
def Scan.hints (s : Scan α β) : Option (List (Nat × β)) × List (BiasFilter α) :=
  (s.weightMask, s.biasFilters)

def Predicate.isComparison : Predicate α → Bool
  | .comparison _ _ _ => true
  | _ => false

/-- The query with these predicates in its WHERE clause. -/
def Query.filtered (query : Query α) (predicates : List (Predicate α)) : Query α :=
  { query with metadataWhere := some ⟨predicates⟩ }

omit [F64Math α] [F64Plan α] in
theorem predicateWeights_eq_nil {config : PlannerConfig α} {ps : List (Predicate α)}
    {weights : List (Nat × β)} (h : predicateWeights config ps = some weights) :
    weights = [] ↔ ∀ p ∈ ps, p.isComparison = false := by
  induction ps generalizing weights with
  | nil =>
    cases h
    simp
  | cons p ps ih =>
    cases p with
    | comparison field operator value =>
      simp only [predicateWeights, Option.bind_eq_bind, Option.bind_eq_some_iff,
        Option.some.injEq] at h
      obtain ⟨dim, -, rest, -, rfl⟩ := h
      simp [Predicate.isComparison]
    | _ => simpa [Predicate.isComparison] using ih h

omit [F64Math α] [F64Plan α] in
theorem predicateWeights_of_none {config : PlannerConfig α} {ps : List (Predicate α)}
    (h : ∀ p ∈ ps, p.isComparison = false) :
    predicateWeights config ps = some ([] : List (Nat × β)) := by
  induction ps with
  | nil => rfl
  | cons p ps ih =>
    have hp := h p List.mem_cons_self
    have hps := ih fun q hq => h q (List.mem_cons_of_mem p hq)
    cases p with
    | comparison field operator value => cases hp
    | _ => exact hps

omit [F64Math α] [F64Plan α] [Narrow α β] in
/-- Only comparisons become bias filters. -/
theorem filterMap_biasFilter {ps : List (Predicate α)}
    (h : ∀ p ∈ ps, p.isComparison = false) : ps.filterMap biasFilter = [] := by
  rw [List.filterMap_eq_nil_iff]
  intro p hp
  have hcmp := h p hp
  cases p with
  | comparison field operator value => cases hcmp
  | _ => rfl

theorem hints_of_plan {config : PlannerConfig α} {query : Query α} {plan : PlanNode α β}
    (h : planToTree config query = some (.ok plan)) :
    ∃ weightMask, deriveWeightMask config query.metadataWhere = some weightMask ∧
      (∃ s, s ∈ plan.scans) ∧
      ∀ s ∈ plan.scans, s.hints = (weightMask, extractBiasFilters query.metadataWhere) := by
  obtain ⟨similarity, weightMask, -, hmask, hscans⟩ := scans_of_plan h
  refine ⟨weightMask, hmask, ?_⟩
  rw [hscans]
  split <;> simp [Scan.hints, queryScan]

/-- The scans know nothing of the predicates under an AND, and so they agree with those of the
list exactly if it has no comparison. -/
theorem conjunction_hints_iff {config : PlannerConfig α} {query : Query α}
    {ps : List (Predicate α)} {plan : PlanNode α β}
    (h : planToTree config (query.filtered [.and ps]) = some (.ok plan)) :
    (∀ s ∈ plan.scans, s.hints = (none, [])) ∧
      ((∃ plan', planToTree config (query.filtered ps) = some (.ok plan') ∧
          ∀ s ∈ plan.scans, ∀ s' ∈ plan'.scans, s.hints = s'.hints) ↔
        ∀ p ∈ ps, p.isComparison = false) := by
  obtain ⟨_, hmask, ⟨s, hs⟩, hhints⟩ := hints_of_plan h
  cases hmask
  refine ⟨hhints, ?_, ?_⟩
  · intro ⟨plan', h', hsame⟩
    obtain ⟨weightMask, hmask', ⟨s', hs'⟩, hhints'⟩ := hints_of_plan h'
    have heq := hsame s hs s' hs'
    rw [hhints s hs, hhints' s' hs', Prod.mk.injEq] at heq
    obtain ⟨rfl, -⟩ := heq
    obtain ⟨weights, hweights, hnone⟩ := Option.map_eq_some_iff.mp hmask'
    refine (predicateWeights_eq_nil hweights).mp ?_
    cases weights with
    | nil => rfl
    | cons w ws => cases hnone
  · intro hcmp
    obtain ⟨hrank, hbudget, similarity, weightMask, hsim, -, -⟩ := planToTree_eq_ok.mp h
    have hmask' : deriveWeightMask config (query.filtered ps).metadataWhere =
        some (none : Option (List (Nat × β))) := by
      show (predicateWeights config ps).map _ = _
      rw [predicateWeights_of_none hcmp]
      rfl
    refine ⟨_, planToTree_eq_ok.mpr ⟨hrank, hbudget, similarity, none, hsim, hmask', rfl⟩, ?_⟩
    intro s hs s' hs'
    rw [scans_underDeadline, scans_operators] at hs'
    have hfilters : extractBiasFilters (query.filtered ps).metadataWhere = [] :=
      filterMap_biasFilter hcmp
    have hs'' : s'.hints = (none, []) := by
      split at hs' <;> simp at hs' <;> simp [hs', Scan.hints, queryScan, hfilters]
    rw [hhints s hs, hs'']
    rfl

/-! ### Two comparisons -/

attribute [local instance] Nom.complete NomLocate.plain

/-- `category = 'science'` and `year = 2020` -/
def scienceYear : List (Predicate Lit) :=
  [.comparison "category" .eq (.string "science"), yearIs 2020]

/-- `FIND SIMILARITY(e, 'q')` -/
def findText : Query Lit := Query.start ("SIMILARITY", ⟨"e", "q", none⟩)

/-- Its plan with the two predicates under an AND. -/
def andPlan : PlanNode Lit Lit :=
  .limit (.filter (.annScan "e" 50 none [] (.fin 0)) (.and scienceYear)) 10 0

/-- From the text the scan is told nothing of the predicates, from the list of them it is. -/
theorem and_loses_hints :
    parse "FIND SIMILARITY(e, 'q') WITH METADATA WHERE category = 'science' AND year = 2020" =
        some (.ok (findText.filtered [.and scienceYear])) ∧
      planToTree withoutCosts (findText.filtered [.and scienceYear]) = some (.ok andPlan) ∧
      andPlan.scans.map Scan.hints = [(none, [])] ∧
      ∃ plan : PlanNode Lit Lit,
        planToTree withoutCosts (findText.filtered scienceYear) = some (.ok plan) ∧
        plan.scans.map Scan.hints = [(some [(382, .fin 1), (61, .fin 1)],
          [⟨"category", .category "science"⟩, ⟨"year", .numerical (.fin 2020) .eq⟩])] := by
  have hyear : fieldToDim withoutCosts "year" = some 61 := by decide +kernel
  have hcategory : fieldToDim withoutCosts "category" = some 382 := by decide +kernel
  have hmask : deriveWeightMask withoutCosts (findText.filtered scienceYear).metadataWhere =
      some (some [(382, (.fin 1 : Lit)), (61, .fin 1)]) := by
    simp only [deriveWeightMask, Query.filtered, predicateWeights, scienceYear, yearIs, hyear,
      hcategory]
    rfl
  exact ⟨by rfl, rfl, rfl, _, planToTree_of_scan rfl rfl hmask, rfl⟩

theorem and_hints_scienceYear : (∀ s ∈ andPlan.scans, s.hints = (none, [])) ∧
    ¬ ∃ plan', planToTree withoutCosts (findText.filtered scienceYear) = some (.ok plan') ∧
      ∀ s ∈ andPlan.scans, ∀ s' ∈ plan'.scans, s.hints = s'.hints := by
  have hplan : planToTree withoutCosts (findText.filtered [.and scienceYear]) =
      some (.ok andPlan) := rfl
  obtain ⟨hnone, hiff⟩ := conjunction_hints_iff hplan
  refine ⟨hnone, fun hsame => ?_⟩
  have hcmp := hiff.mp hsame (yearIs 2020) (by simp [scienceYear])
  cases hcmp

end Tesseract.L5.Vql
