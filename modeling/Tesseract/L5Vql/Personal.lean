import Tesseract.L3Store.Episodic
import Tesseract.L5Vql.Footprint

/-!
# Queries of a user

The executor asks the episodic memory for the footprint of the user whose query it runs.

* `executePlan_footprint`: a plan depends on the memory by that footprint alone.
* `execute_own`: so what a user finds depends on the own clicks, and a user without any finds
  what everyone does.
-/
namespace Tesseract.L5.Vql.Backend

open L3

variable {α β : Type} [F64 α] [F32 β] (B : Backend α β)

/-- The executor over a memory.
mirrors tesseract-vql/src/executor.rs:78-87 -/
def remembering (m : EpisodicMemory α) : Backend α β :=
  { B with getFootprint := fun userId => .ok (m.getFootprint userId) }

variable [F64Math α] [F64Plan α] {B}

/-- Two memories, and two users, whose footprints bias a vector alike give a plan the same
results. -/
theorem executePlan_footprint {m m' : EpisodicMemory α} {userId userId' : Option String}
    (h : ∀ query, (B.remembering m).withFootprint userId query =
      (B.remembering m').withFootprint userId' query) (plan : PlanNode α β) (query : List α) :
    (B.remembering m).executePlan userId plan query =
      (B.remembering m').executePlan userId' plan query := by
  induction plan generalizing query with
  | annScan field efSearch weightMask biasFilters alpha =>
    rw [executePlan, executePlan, annScan, annScan, h]
    rfl
  | merge left right limit ihl ihr =>
    rw [executePlan, executePlan, ihl, ihr]
    rfl
  | filter input predicate ih => rw [executePlan, executePlan, ih]
  | bias input scoringFn args ih =>
    rw [executePlan, executePlan, h]
    by_cases hp : scoringFn = "personal"
    · rw [if_pos hp, if_pos hp]
      cases (B.remembering m').withFootprint userId' query with
      | error e => rfl
      | ok biased => exact ih biased
    · rw [if_neg hp, if_neg hp, ih]
  | sort input scoringFn args descending ih =>
    rw [executePlan, executePlan, ih]
    rfl
  | limit input limit offset ih => rw [executePlan, executePlan, ih]
  | deadline input millis estimatedCostMs ih =>
    rw [executePlan, executePlan, ih]
    rfl

variable [Narrow α β] [F64Text α] [Nom] [NomLocate]

theorem execute_footprint {m m' : EpisodicMemory α} {userId userId' : Option String}
    (h : ∀ query, (B.remembering m).withFootprint userId query =
      (B.remembering m').withFootprint userId' query) (config : PlannerConfig α)
    (vql : String) :
    (B.remembering m).execute config vql userId =
      (B.remembering m').execute config vql userId' := by
  have hresolve : ∀ query : Query α, (B.remembering m).resolveQueryVector query =
      (B.remembering m').resolveQueryVector query := fun query => rfl
  unfold execute
  refine congrArg (parse vql >>= ·) (funext fun parsed => ?_)
  cases parsed with
  | error e => rfl
  | ok parsed =>
    refine congrArg (planToTree config parsed >>= ·) (funext fun plan => ?_)
    cases plan with
    | error e => rfl
    | ok plan =>
      simp only [hresolve]
      cases (B.remembering m').resolveQueryVector parsed with
      | error e => rfl
      | ok queryVector => exact executePlan_footprint h plan queryVector

/-- What a user finds depends on the clicks of that user alone, whoever else has clicked in
between; without any it is what a query without a user finds. -/
theorem execute_own (clicks : List (Click α)) (config : PlannerConfig α) (vql userId : String) :
    (B.remembering (clicks.foldl .click .new)).execute config vql (some userId) =
        (B.remembering ((clicks.filter fun c => c.userId = userId).foldl .click .new)).execute
          config vql (some userId) ∧
      ((∀ c ∈ clicks, c.userId ≠ userId) →
        (B.remembering (clicks.foldl .click .new)).execute config vql (some userId) =
          (B.remembering (clicks.foldl .click .new)).execute config vql none) := by
  have hown := EpisodicMemory.getFootprint_updates clicks .new userId
  constructor
  · refine execute_footprint (fun query => ?_) config vql
    have hfiltered := EpisodicMemory.getFootprint_updates
      (clicks.filter fun c => c.userId = userId) .new userId
    rw [List.filter_filter] at hfiltered
    simp only [Bool.and_self] at hfiltered
    simp only [withFootprint, remembering, hown, hfiltered]
  · intro hnone
    refine execute_footprint (fun query => ?_) config vql
    have hempty : (clicks.filter fun c => c.userId = userId) = [] := by
      rw [List.filter_eq_nil_iff]
      intro c hc
      simpa using hnone c hc
    rw [hempty] at hown
    simp only [withFootprint, remembering, hown, List.foldl_nil]
    rfl

attribute [local instance] Nom.complete NomLocate.plain

/-- A storage without vectors. -/
def bare : Backend Lit Lit := Backend.ofRanking []

def strange : List (Click Lit) := [⟨"v", [.fin 1], [.fin 2]⟩]

/-- A user who has clicked nothing, beside one who has. -/
theorem execute_own_stranger :
    (bare.remembering (strange.foldl .click .new)).execute withoutCosts
        "FIND SIMILARITY(e, VECTOR(3.0))" (some "u") =
      (bare.remembering (strange.foldl .click .new)).execute withoutCosts
        "FIND SIMILARITY(e, VECTOR(3.0))" none :=
  (execute_own (B := bare) strange withoutCosts "FIND SIMILARITY(e, VECTOR(3.0))" "u").2
    (by simp [strange])

end Tesseract.L5.Vql.Backend
