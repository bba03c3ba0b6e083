import Tesseract.Core.Exact
import Tesseract.L5Vql.Scans

/-!
# Latency budgets

A larger budget buys a larger `ef_search`, whose predicted cost is compared with the budget.
In exact arithmetic, with a positive logarithm.

* `accepts_iff`: a query is accepted if its `ef_search` at the cost of one is within the
  budget.
* `larger_budget`: where `ef_search` grows no faster than the budget, nothing that was accepted
  is rejected; elsewhere there are costs for which it is.
-/
namespace Tesseract.L5.Vql

variable {K : Type} [Field K] [LinearOrder K]

/-! ## The range of `ef_search` -/

section Clamp

theorem le_clamp {lo hi : K} (h : lo ≤ hi) (x : K) : lo ≤ F64.clamp lo hi x := by
  unfold F64.clamp
  simp only [exact_lt, decide_eq_true_eq]
  split_ifs with h₁ h₂ h₂
  · exact h
  · exact le_refl lo
  · exact h
  · exact not_lt.mp h₁

theorem clamp_le {lo hi : K} (h : lo ≤ hi) (x : K) : F64.clamp lo hi x ≤ hi := by
  unfold F64.clamp
  simp only [exact_lt, decide_eq_true_eq]
  split_ifs with h₁ h₂ h₂
  · exact le_refl hi
  · exact h
  · exact le_refl hi
  · exact not_lt.mp h₂

end Clamp

variable [F64Plan K]

theorem computeEfSearch_exact (config : PlannerConfig K) (budget : Nat) :
    computeEfSearch config (some budget) = F64Plan.toUsize
      (F64.clamp 10 200 (config.defaultEfSearch * (budget / 100)) : K) := by
  simp [computeEfSearch]

/-- With a budget there is at least one candidate. -/
theorem one_le_computeEfSearch [IsStrictOrderedRing K] [LawfulPlan K] (config : PlannerConfig K)
    (budget : Nat) : 1 ≤ computeEfSearch config (some budget) := by
  rw [computeEfSearch_exact]
  have hrange : (10 : K) ≤ 200 := by norm_num
  have hlo := le_clamp hrange (config.defaultEfSearch * (budget / 100))
  have hhi := clamp_le hrange (config.defaultEfSearch * (budget / 100))
  generalize F64.clamp 10 200 (config.defaultEfSearch * (budget / 100) : K) = x at hlo hhi ⊢
  have hlt := LawfulPlan.lt_toUsize x (by linarith) (by linarith)
  have hone : ((1 : Nat) : K) < (F64Plan.toUsize x + 1 : Nat) := by
    push_cast
    linarith
  have hcast : 1 < F64Plan.toUsize x + 1 := by exact_mod_cast hone
  omega

/-! ## Acceptance -/

/-- The predicted cost of one candidate, with the buffer of the estimate and that of the
check. -/
def unitCost (config : PlannerConfig K) : K :=
  config.dim * 2 * F64Plan.ln (config.estimatedVectorCount : K) * config.costPerDistanceMs *
    (1 + config.costBuffer) * (1 + config.costBuffer)

theorem withinBudget_iff (config : PlannerConfig K) (budget efSearch : Nat) :
    withinBudget config (some budget) (estimateCost config efSearch) = true ↔
      unitCost config * efSearch ≤ budget := by
  have hcost : (efSearch : K) * config.dim * 2 * F64Plan.ln (config.estimatedVectorCount : K) *
      config.costPerDistanceMs * (1 + config.costBuffer) * (1 + config.costBuffer) =
      unitCost config * efSearch := by
    unfold unitCost
    ring
  simp only [withinBudget, estimateCost, Option.all_some, exact_lt, exact_mul, exact_add,
    exact_ofInt, Bool.not_eq_true', decide_eq_false_iff_not, not_lt]
  push_cast
  rw [hcost]

variable {β : Type} [F64Math K] [Narrow K β]

variable (β) in
/-- The planner has a plan for the query WITHIN that many milliseconds. -/
def Accepts (config : PlannerConfig K) (query : Query K) (millis : Nat) : Prop :=
  ∃ plan : PlanNode K β, planToTree config { query with within := some ⟨millis⟩ } =
    some (.ok plan)

variable (β) in
/-- All but the budget is in order. -/
def Plannable (config : PlannerConfig K) (query : Query K) : Prop :=
  (query.bias.isSome && query.orderBy.isSome) = false ∧ query.similarity.isSome ∧
    (deriveWeightMask (β := β) config query.metadataWhere).isSome

theorem accepts_iff {config : PlannerConfig K} {query : Query K} {millis : Nat} :
    Accepts β config query millis ↔ Plannable β config query ∧
      unitCost config * computeEfSearch config (some millis) ≤ millis := by
  unfold Accepts Plannable
  simp only [planToTree_eq_ok, Option.isSome_iff_exists]
  constructor
  · intro ⟨plan, h⟩
    obtain ⟨hrank, hbudget, similarity, weightMask, hsim, hmask, -⟩ := h
    exact ⟨⟨hrank, ⟨similarity, hsim⟩, ⟨weightMask, hmask⟩⟩,
      (withinBudget_iff config millis _).mp hbudget⟩
  · intro ⟨⟨hrank, ⟨similarity, hsim⟩, ⟨weightMask, hmask⟩⟩, hbudget⟩
    exact ⟨_, hrank, (withinBudget_iff config millis _).mpr hbudget, similarity, weightMask, hsim,
      hmask, rfl⟩

/-! ## Larger budgets -/

variable [IsStrictOrderedRing K]

/-- Costs that are positive. -/
structure PositiveCosts (config : PlannerConfig K) : Prop where
  perDistance : 0 < config.costPerDistanceMs
  buffer : 0 ≤ config.costBuffer
  ln : 0 < F64Plan.ln (config.estimatedVectorCount : K)

omit [F64Math K] in
theorem PositiveCosts.unitCost_nonneg {config : PlannerConfig K} (h : PositiveCosts config) :
    0 ≤ unitCost config := by
  have hdist := h.perDistance
  have hbuffer := h.buffer
  have hln := h.ln
  unfold unitCost
  positivity

/-- From a budget to one that `ef_search` outgrows by no more than its share. -/
theorem Accepts.mono [LawfulPlan K] {config : PlannerConfig K} {query : Query K} {b b' : Nat}
    (h : Accepts β config query b) (hcosts : PositiveCosts config)
    (hgrow : computeEfSearch config (some b') * b ≤ computeEfSearch config (some b) * b') :
    Accepts β config query b' := by
  rw [accepts_iff] at h ⊢
  refine ⟨h.1, ?_⟩
  have hunit := hcosts.unitCost_nonneg
  have hcost := h.2
  have hgrow' : (computeEfSearch config (some b') : K) * b ≤
      computeEfSearch config (some b) * b' := by exact_mod_cast hgrow
  rcases Nat.eq_zero_or_pos b with rfl | hb
  · -- within no time at all nothing costs anything
    have hone : (1 : K) ≤ computeEfSearch config (some 0) := by
      exact_mod_cast one_le_computeEfSearch config 0
    have hzero : unitCost config = 0 := by
      push_cast at hcost
      nlinarith
    rw [hzero, zero_mul]
    exact Nat.cast_nonneg b'
  · have hpos : (0 : K) < b := by exact_mod_cast hb
    have hprod : unitCost config * computeEfSearch config (some b') * b ≤ b' * b := by
      calc unitCost config * computeEfSearch config (some b') * b
          = unitCost config * (computeEfSearch config (some b') * b) := by ring
        _ ≤ unitCost config * (computeEfSearch config (some b) * b') :=
            mul_le_mul_of_nonneg_left hgrow' hunit
        _ = unitCost config * computeEfSearch config (some b) * b' := by ring
        _ ≤ b * b' := mul_le_mul_of_nonneg_right hcost (Nat.cast_nonneg b')
        _ = b' * b := by ring
    exact le_of_mul_le_mul_right hprod hpos

/-- The configuration with another cost of a distance. -/
def PlannerConfig.withCost (config : PlannerConfig K) (cost : K) : PlannerConfig K :=
  { config with costPerDistanceMs := cost }

omit [LinearOrder K] [IsStrictOrderedRing K] [F64Math K] in
theorem unitCost_withCost (config : PlannerConfig K) (cost : K) :
    unitCost (config.withCost cost) = cost * (config.dim * 2 *
      F64Plan.ln (config.estimatedVectorCount : K) * (1 + config.costBuffer) *
        (1 + config.costBuffer)) := by
  simp only [unitCost, PlannerConfig.withCost]
  ring

omit [F64Plan K] [F64Math K] [IsStrictOrderedRing K] in
theorem predicateWeights_withCost (config : PlannerConfig K) (cost : K)
    (ps : List (Predicate K)) : predicateWeights (β := β) (config.withCost cost) ps =
      predicateWeights config ps := by
  induction ps with
  | nil => rfl
  | cons p ps ih =>
    cases p with
    | comparison field operator value =>
      simp only [predicateWeights, ih]
      rfl
    | _ => exact ih

omit [F64Plan K] [F64Math K] [IsStrictOrderedRing K] in
theorem Plannable.withCost {config : PlannerConfig K} {query : Query K}
    (h : Plannable β config query) (cost : K) : Plannable β (config.withCost cost) query := by
  refine ⟨h.1, h.2.1, ?_⟩
  have hsame : deriveWeightMask (β := β) (config.withCost cost) query.metadataWhere =
      deriveWeightMask config query.metadataWhere := by
    unfold deriveWeightMask
    cases query.metadataWhere with
    | none => rfl
    | some mw => simp only [predicateWeights_withCost]
  rw [hsame]
  exact h.2.2

/-- Where `ef_search` outgrows the budget, some cost lets a query through that the larger budget
rejects. -/
theorem exists_cost [LawfulPlan K] {config : PlannerConfig K} {query : Query K} {b b' : Nat}
    (hquery : Plannable β config query) (hdim : 0 < config.dim) (hbuffer : 0 ≤ config.costBuffer)
    (hln : 0 < F64Plan.ln (config.estimatedVectorCount : K))
    (hgrow : computeEfSearch config (some b) * b' < computeEfSearch config (some b') * b) :
    ∃ cost, 0 < cost ∧ Accepts β (config.withCost cost) query b ∧
      ¬ Accepts β (config.withCost cost) query b' := by
  have hb : 0 < b := by
    rcases Nat.eq_zero_or_pos b with rfl | hb
    · simp at hgrow
    · exact hb
  have hpos : (0 : K) < b := by exact_mod_cast hb
  have hef : (0 : K) < computeEfSearch config (some b) := by
    exact_mod_cast one_le_computeEfSearch config b
  have hdim' : (0 : K) < config.dim := by exact_mod_cast hdim
  have hgrow' : (computeEfSearch config (some b) : K) * b' <
      computeEfSearch config (some b') * b := by exact_mod_cast hgrow
  have hrest : 0 < (config.dim : K) * 2 * F64Plan.ln (config.estimatedVectorCount : K) *
      (1 + config.costBuffer) * (1 + config.costBuffer) := by positivity
  have hunit := unitCost_withCost config
  generalize (config.dim : K) * 2 * F64Plan.ln (config.estimatedVectorCount : K) *
    (1 + config.costBuffer) * (1 + config.costBuffer) = r at hrest hunit
  -- the cost at which the smaller budget is spent in full
  refine ⟨b / (computeEfSearch config (some b) * r), by positivity, ?_, ?_⟩
  · refine accepts_iff.mpr ⟨hquery.withCost _, le_of_eq ?_⟩
    rw [hunit]
    show (b : K) / (computeEfSearch config (some b) * r) * r * computeEfSearch config (some b) = b
    field_simp
  · rw [accepts_iff, hunit]
    intro ⟨_, hcost⟩
    have heq : (b : K) / (computeEfSearch config (some b) * r) * r *
        computeEfSearch config (some b') * computeEfSearch config (some b) =
        computeEfSearch config (some b') * b := by
      field_simp
    have hle := mul_le_mul_of_nonneg_right hcost hef.le
    have hsame : computeEfSearch (config.withCost
      (b / (computeEfSearch config (some b) * r))) (some b') = computeEfSearch config (some b') :=
      rfl
    rw [hsame, heq, mul_comm (b' : K)] at hle
    exact absurd hgrow' (not_lt.mpr hle)

/-- A larger budget keeps what was accepted where `ef_search` grows by no more than its share;
for any two other budgets some cost refutes it. -/
theorem larger_budget [LawfulPlan K] {config : PlannerConfig K} {query : Query K} {b b' : Nat}
    (hcosts : PositiveCosts config) :
    (computeEfSearch config (some b') * b ≤ computeEfSearch config (some b) * b' →
        Accepts β config query b → Accepts β config query b') ∧
      (computeEfSearch config (some b) * b' < computeEfSearch config (some b') * b →
        0 < config.dim → Plannable β config query → ∃ cost, 0 < cost ∧
          Accepts β (config.withCost cost) query b ∧
            ¬ Accepts β (config.withCost cost) query b') :=
  ⟨fun hgrow h => h.mono hcosts hgrow,
    fun hgrow hdim hquery => exists_cost hquery hdim hcosts.buffer hcosts.ln hgrow⟩

/-! ### A millisecond more -/

/-- The planner's defaults, but for a cost of 0.0002 ms. -/
def fastDistances : PlannerConfig ℚ := ⟨50, 384, 10000, 1 / 5, 1 / 5000, 3 / 10, false⟩

/-- `FIND SIMILARITY(e, 'q')` -/
def findExact : Query ℚ := Query.plain "SIMILARITY" ⟨"e", "q", none⟩ none none

theorem fastDistances_positive : PositiveCosts fastDistances := by
  refine ⟨?_, ?_, ?_⟩
  · norm_num [fastDistances]
  · norm_num [fastDistances]
  · show (0 : ℚ) < 921 / 100
    norm_num

theorem unitCost_fastDistances :
    unitCost fastDistances = 384 * 2 * (921 / 100) * (1 / 5000) * (6 / 5) * (6 / 5) := by
  decide +kernel

theorem accepts_21 : Accepts Lit fastDistances findExact 21 := by
  have hef : computeEfSearch fastDistances (some 21) = 10 := by decide +kernel
  refine accepts_iff.mpr ⟨⟨rfl, rfl, rfl⟩, ?_⟩
  rw [hef, unitCost_fastDistances]
  norm_num

/-- 21 ms buy 10 candidates at 2.04 ms, 22 ms buy 11 of them. -/
theorem larger_budget_rejected : PositiveCosts fastDistances ∧
    Accepts Lit fastDistances findExact 21 ∧ ¬ Accepts Lit fastDistances findExact 22 := by
  have hef : computeEfSearch fastDistances (some 22) = 11 := by decide +kernel
  refine ⟨fastDistances_positive, accepts_21, ?_⟩
  rw [accepts_iff, hef, unitCost_fastDistances]
  intro ⟨_, hcost⟩
  norm_num at hcost

/-- The largest `ef_search` is within 420 ms, and some cost lets the query through with 21 ms
that 22 ms reject. -/
theorem larger_budget_420 : Accepts Lit fastDistances findExact 420 ∧
    ∃ cost, 0 < cost ∧ Accepts Lit (fastDistances.withCost cost) findExact 21 ∧
      ¬ Accepts Lit (fastDistances.withCost cost) findExact 22 := by
  have hmore : computeEfSearch fastDistances (some 420) * 21 ≤
      computeEfSearch fastDistances (some 21) * 420 := by
    decide +kernel
  have hless : computeEfSearch fastDistances (some 21) * 22 <
      computeEfSearch fastDistances (some 22) * 21 := by
    decide +kernel
  exact ⟨(larger_budget fastDistances_positive).1 hmore accepts_21,
    (larger_budget fastDistances_positive).2 hless (by decide) ⟨rfl, rfl, rfl⟩⟩

end Tesseract.L5.Vql
