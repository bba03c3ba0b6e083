import Tesseract.L4Engine.Bias
import Tesseract.L4Engine.Search
import Tesseract.L5Vql.Executor

/-!
# The filter of a scan

A scan reports no metadata, and the filter looks at what the scan reports.

* `evaluatePredicate_unreported`: without metadata no predicate holds that asks for a field.
* `filter_scan`: the filter over a scan keeps nothing, or everything.
* `filter_complete_iff`: it keeps what it should exactly when the predicate asks for
  nothing, or no stored record of the scan satisfies it.
* `filter_drops_match`: a record of the year 2020 is not found by `year = 2020`.
-/
namespace Tesseract.L5.Vql

open L3 L3.Serde L4 L4.Engine

variable {α β : Type} [F64 α]

/-! ## No metadata -/

mutual

/-- The predicate asks for no field: a conjunction of nothing. -/
def vacuous : Predicate α → Bool
  | .and predicates => allVacuous predicates
  | _ => false

def allVacuous : List (Predicate α) → Bool
  | [] => true
  | p :: ps => vacuous p && allVacuous ps

end

section Evaluate

variable [F64Math α]

omit [F64Math α] in
theorem extractFieldValue_unreported {result : ScoredResult α β} (hnone : result.metadata = none)
    (field : String) : extractFieldValue result field = none := by
  rw [extractFieldValue, hnone]
  rfl

mutual

theorem evaluatePredicate_unreported {result : ScoredResult α β}
    (hnone : result.metadata = none) (p : Predicate α) :
    evaluatePredicate result p = vacuous p := by
  have hfield := extractFieldValue_unreported hnone
  cases p with
  | comparison field operator value => simp only [evaluatePredicate, hfield, vacuous]
  | isIn field values => simp only [evaluatePredicate, hfield, vacuous]
  | between field low high => simp only [evaluatePredicate, hfield, vacuous]
  | like field pattern => simp only [evaluatePredicate, hfield, vacuous]
  | and predicates =>
    rw [evaluatePredicate, vacuous]
    exact evaluateAll_unreported hnone predicates

theorem evaluateAll_unreported {result : ScoredResult α β}
    (hnone : result.metadata = none) (ps : List (Predicate α)) :
    evaluateAll result ps = allVacuous ps := by
  cases ps with
  | nil => rfl
  | cons p ps =>
    rw [evaluateAll, allVacuous, evaluatePredicate_unreported hnone p,
      evaluateAll_unreported hnone ps]

end

end Evaluate

variable [F32 β]

/-! ## The storage engine -/

/-- The storage engine `s`, with everything else as in `B`. -/
def Backend.onEngine [Narrow α β] [F64Math α] (B : Backend α β) (S : ScoreSort β)
    (s : Engine α β) : Backend α β :=
  { B with
    search := s.search S
    applyTopologicalBias := fun query filters alpha =>
      .ok (s.applyTopologicalBias query filters alpha) }

omit [F32 β] in
/-- The stored record of the result satisfies the predicate. -/
def StoredMatch [F64Math α] (P : Deps α) (rank : UInt64 → Nat) (s : Engine α β)
    (p : Predicate α) (r : ScoredResult α β) : Prop :=
  ∃ record, s.get P rank r.id = .ok (some record) ∧
    evaluatePredicate { r with metadata := some record.metadata } p = true

namespace Backend

variable [F64Math α] [F64Plan α] (B : Backend α β)

omit [F64Math α] [F64Plan α] in
theorem annScan_metadata {userId : Option String} {query : List α} {efSearch : Nat}
    {weightMask : Option (List (Nat × β))} {biasFilters : List (BiasFilter α)} {alpha : α}
    {xs : List (ScoredResult α β)}
    (h : B.annScan userId query efSearch weightMask biasFilters alpha = some (.ok xs)) :
    ∀ r ∈ xs, r.metadata = none := by
  unfold annScan at h
  dsimp only at h
  split at h
  · cases h
  · obtain ⟨r, _, hr⟩ := Option.map_eq_some_iff.mp h
    cases r with
    | error e => cases hr
    | ok raw =>
      cases hr
      intro r hr
      obtain ⟨_, _, rfl⟩ := List.mem_map.mp hr
      rfl

/-- A filter over a scan keeps all results of the scan or none. -/
theorem filter_scan {userId : Option String} {query : List α} {field : String} {efSearch : Nat}
    {weightMask : Option (List (Nat × β))} {biasFilters : List (BiasFilter α)} {alpha : α}
    {xs : List (ScoredResult α β)}
    (hscan : B.executePlan userId (.annScan field efSearch weightMask biasFilters alpha) query =
      some (.ok xs)) (p : Predicate α) :
    B.executePlan userId (.filter (.annScan field efSearch weightMask biasFilters alpha) p) query =
      some (.ok (if vacuous p then xs else [])) := by
  have hnone : ∀ r ∈ xs, evaluatePredicate r p = vacuous p := fun r hr =>
    evaluatePredicate_unreported (B.annScan_metadata hscan r hr) p
  have hfilter : xs.filter (fun r => evaluatePredicate r p) = if vacuous p then xs else [] := by
    rw [List.filter_congr hnone]
    split
    · next hp => simp [hp]
    · next hp => simp [hp]
  rw [executePlan, hscan, ← hfilter]
  rfl

/-- The filter over a scan keeps every result whose stored record satisfies the predicate
exactly when the predicate asks for nothing, or there is no such result. -/
theorem filter_complete_iff [Narrow α β] (S : ScoreSort β) (P : Deps α) (rank : UInt64 → Nat)
    (s : Engine α β) {userId : Option String} {query : List α} {field : String} {efSearch : Nat}
    {weightMask : Option (List (Nat × β))} {biasFilters : List (BiasFilter α)} {alpha : α}
    {xs : List (ScoredResult α β)}
    (hscan : (B.onEngine S s).executePlan userId
      (.annScan field efSearch weightMask biasFilters alpha) query = some (.ok xs))
    (p : Predicate α) :
    (∃ kept, (B.onEngine S s).executePlan userId
        (.filter (.annScan field efSearch weightMask biasFilters alpha) p) query =
          some (.ok kept) ∧
        ∀ r ∈ xs, StoredMatch P rank s p r → r ∈ kept) ↔
      vacuous p = true ∨ ∀ r ∈ xs, ¬ StoredMatch P rank s p r := by
  have hfilter := (B.onEngine S s).filter_scan hscan p
  constructor
  · rintro ⟨kept, hkept, hall⟩
    rw [hfilter, Option.some.injEq, Except.ok.injEq] at hkept
    refine or_iff_not_imp_left.mpr fun hp r hr hmatch => ?_
    have hmem := hall r hr hmatch
    rw [← hkept, if_neg hp] at hmem
    cases hmem
  · intro hcond
    refine ⟨_, hfilter, fun r hr hmatch => ?_⟩
    rcases hcond with hp | hnone
    · rw [if_pos hp]
      exact hr
    · exact absurd hmatch (hnone r hr)

end Backend

/-! ## One record -/

/-- No index, and a hot buffer that is searched. -/
def buffering : StorageConfig Lit := { small 10 none with merkle := ⟨true, 10, 100, false⟩ }

def buffered : Engine Lit Lit := (opened buffering).get (by decide +kernel)

/-- `insert` of id 7 with the vector `[1.0]` and the metadata `{"year": 2020}`. -/
def insertYear : Call Lit := { call 7 [1] with metadata := .obj [("year", .nat 2020)] }

def bufferedYear : Engine Lit Lit :=
  ((buffered.insert deps insertYear).get (by decide +kernel)).1

/-- `year = year'` -/
def yearIs (year : Int) : Predicate Lit := .comparison "year" .eq (.integer year)

/-- `FIND SIMILARITY(e, 'q') WITH METADATA WHERE p` -/
def findWhere (p : Predicate Lit) : Query Lit :=
  { Query.plain "SIMILARITY" ⟨"e", "q", none⟩ none none with metadataWhere := some ⟨[p]⟩ }

/-- The scan of that query: it searches with a weight on the dimension of the field, and
towards the year. -/
def yearScan (year : Int) : PlanNode Lit Lit :=
  .annScan "e" 50 (some [(61, .fin 1)]) [⟨"year", .numerical (.fin year) .eq⟩] (.fin 0)

/-- The planner's defaults, but for the costs. -/
def withoutCosts : PlannerConfig Lit := ⟨50, 384, 10000, .fin 0, .fin 0, .fin 0, false⟩

/-- The buffered record behind a user's backend. -/
def yearBackend : Backend Lit Lit := (Backend.ofRanking []).onEngine .insertion bufferedYear

theorem buffered_fresh : Fresh deps buffered :=
  ⟨calmOpen, buffering, create_of_opened (by rw [buffered, Option.some_get])⟩

theorem bufferedYear_run : (accepting deps).Run buffered [insertYear] bufferedYear :=
  .cons (accepting_step _ (by decide +kernel)) (.nil _)

theorem findYear_plan : planToTree withoutCosts (findWhere (yearIs 2020)) =
    some (.ok (.limit (.filter (yearScan 2020) (yearIs 2020)) 10 0)) := by
  have hdim : fieldToDim withoutCosts "year" = some 61 := by decide +kernel
  have hmask : deriveWeightMask withoutCosts (findWhere (yearIs 2020)).metadataWhere =
      some (some [(61, (.fin 1 : Lit))]) := by
    simp only [deriveWeightMask, findWhere, predicateWeights, yearIs, hdim]
    rfl
  unfold planToTree
  simp only [hmask]
  rfl

theorem yearScan_results :
    yearBackend.executePlan none (yearScan 2020) [.fin 1] = some (.ok [⟨7, .fin 0, none⟩]) := by
  rfl

theorem yearScan_match :
    StoredMatch deps UInt64.toNat bufferedYear (yearIs 2020) ⟨7, .fin 0, none⟩ :=
  ⟨record insertYear, by rfl, by decide +kernel⟩

/-- The scan finds the record of the year 2020, and the filter drops it. -/
theorem filter_drops_match :
    Fresh deps buffered ∧ (accepting deps).Run buffered [insertYear] bufferedYear ∧
      planToTree withoutCosts (findWhere (yearIs 2020)) =
        some (.ok (.limit (.filter (yearScan 2020) (yearIs 2020)) 10 0)) ∧
      yearBackend.executePlan none (yearScan 2020) [.fin 1] = some (.ok [⟨7, .fin 0, none⟩]) ∧
      StoredMatch deps UInt64.toNat bufferedYear (yearIs 2020) ⟨7, .fin 0, none⟩ ∧
      yearBackend.executePlan none (.filter (yearScan 2020) (yearIs 2020)) [.fin 1] =
        some (.ok []) :=
  ⟨buffered_fresh, bufferedYear_run, findYear_plan, yearScan_results, yearScan_match, by rfl⟩

/-- Nothing is lost where no stored record satisfies the predicate. -/
theorem filter_complete_1999 :
    ∃ kept, yearBackend.executePlan none (.filter (yearScan 2020) (yearIs 1999)) [.fin 1] =
        some (.ok kept) ∧
      ∀ r ∈ [(⟨7, .fin 0, none⟩ : ScoredResult Lit Lit)],
        StoredMatch deps UInt64.toNat bufferedYear (yearIs 1999) r → r ∈ kept := by
  refine ((Backend.ofRanking []).filter_complete_iff .insertion deps UInt64.toNat bufferedYear
    yearScan_results (yearIs 1999)).mpr (.inr ?_)
  intro r hr hmatch
  cases List.mem_singleton.mp hr
  obtain ⟨record', hget, hp⟩ := hmatch
  have hstored : bufferedYear.get deps UInt64.toNat 7 = .ok (some (record insertYear)) := by rfl
  rw [hstored] at hget
  cases hget
  exact absurd hp (by decide +kernel)

end Tesseract.L5.Vql
