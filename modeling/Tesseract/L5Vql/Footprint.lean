import Mathlib.Logic.Function.Iterate
import Tesseract.L5Vql.Scans

/-!
# Footprints

Every scan multiplies its vector by the footprint of the user, and so does every personal
bias on the way down to it.

* `executePlan_congr`: a plan searches the storage with the vectors of `searches` only.
* `map_fst_uses`: every scan of a plan has an entry in `uses`.
* `searches_eq_uses`: in any plan a scan uses the footprint once, and once more for each
  personal bias over it.
* `footprint_once_iff`: a planned query uses it once unless it has a personal bias, or the
  second product is the first.
-/
namespace Tesseract.L5.Vql

open L3

variable {α β : Type} [F64 α]

/-- mirrors tesseract-core/src/episodic.rs:81-83 -/
def applyFootprint (query footprint : List α) : List α := List.zipWith F64.mul query footprint

namespace PlanNode

omit [F64 α]

/-- The scans of a plan, with how often the footprint goes into the vector of each. -/
def uses : PlanNode α β → List (Scan α β × Nat)
  | .annScan field efSearch weightMask biasFilters alpha =>
    [(⟨field, efSearch, weightMask, biasFilters, alpha⟩, 1)]
  | .merge left right _ => left.uses ++ right.uses
  | .filter input _ => input.uses
  | .bias input scoringFn _ =>
    if scoringFn = "personal" then input.uses.map fun u => (u.1, u.2 + 1) else input.uses
  | .sort input _ _ _ => input.uses
  | .limit input _ _ => input.uses
  | .deadline input _ _ => input.uses

theorem map_fst_uses (plan : PlanNode α β) : plan.uses.map Prod.fst = plan.scans := by
  induction plan with
  | annScan field efSearch weightMask biasFilters alpha => rfl
  | merge left right limit ihl ihr => simp [uses, scans, ihl, ihr]
  | bias input scoringFn args ih =>
    unfold uses scans
    split <;> simp [Function.comp_def, ih]
  | filter input predicate ih => exact ih
  | sort input scoringFn args descending ih => exact ih
  | limit input limit offset ih => exact ih
  | deadline input millis estimatedCostMs ih => exact ih

end PlanNode

/-! ## What is searched for -/

namespace Backend

variable [F32 β] (B : Backend α β) (userId : Option String)

/-- The scans that a plan gets to, each with its vector before the topological bias. -/
def searches : PlanNode α β → List α → List (Scan α β × List α)
  | .annScan field efSearch weightMask biasFilters alpha, query =>
    match B.withFootprint userId query with
    | .error _ => []
    | .ok v => [(⟨field, efSearch, weightMask, biasFilters, alpha⟩, v)]
  | .merge left right _, query => searches left query ++ searches right query
  | .filter input _, query => searches input query
  | .bias input scoringFn _, query =>
    if scoringFn = "personal" then
      match B.withFootprint userId query with
      | .error _ => []
      | .ok biased => searches input biased
    else searches input query
  | .sort input _ _ _, query => searches input query
  | .limit input _ _, query => searches input query
  | .deadline input _ _, query => searches input query

section Congr

variable [F64Math α] [F64Plan α] {B userId}

/-- Storages that answer alike to the biased vectors of `searches` give the plan the same
results. -/
theorem executePlan_congr
    {search : List α → Nat → Option (List (Nat × β)) → Option (Result (List (UInt64 × β)))}
    {plan : PlanNode α β} {query : List α}
    (h : ∀ c ∈ B.searches userId plan query, ∀ w,
      B.biasedVector c.2 c.1.biasFilters c.1.topologicalAlpha = .ok w →
        search w c.1.efSearch c.1.weightMask = B.search w c.1.efSearch c.1.weightMask) :
    Backend.executePlan { B with search := search } userId plan query =
      B.executePlan userId plan query := by
  induction plan generalizing query with
  | annScan field efSearch weightMask biasFilters alpha =>
    rw [executePlan, executePlan]
    cases hv : B.withFootprint userId query with
    | error e =>
      have hv' : withFootprint { B with search := search } userId query = .error e := hv
      simp only [annScan, hv, hv']
      rfl
    | ok v =>
      have hv' : withFootprint { B with search := search } userId query = .ok v := hv
      cases hw : B.biasedVector v biasFilters alpha with
      | error e =>
        have hw' : biasedVector { B with search := search } v biasFilters alpha = .error e := hw
        simp only [annScan, hv, hv', bind, Except.bind, hw, hw']
      | ok w =>
        have hw' : biasedVector { B with search := search } v biasFilters alpha = .ok w := hw
        rw [annScan_of_vector _ hv hw, annScan_of_vector _ hv' hw']
        have hsearch := h (⟨field, efSearch, weightMask, biasFilters, alpha⟩, v)
          (by simp [searches, hv]) w hw
        exact congrArg (Option.map _) hsearch
  | merge left right limit ihl ihr =>
    rw [executePlan, executePlan, ihl fun c hc => h c (List.mem_append_left _ hc),
      ihr fun c hc => h c (List.mem_append_right _ hc)]
    rfl
  | filter input predicate ih => rw [executePlan, executePlan, ih h]
  | bias input scoringFn args ih =>
    rw [executePlan, executePlan]
    by_cases hp : scoringFn = "personal"
    · have hv' : withFootprint { B with search := search } userId query =
          B.withFootprint userId query := rfl
      rw [if_pos hp, if_pos hp, hv']
      cases hv : B.withFootprint userId query with
      | error e => rfl
      | ok biased => exact ih fun c hc => h c (by simpa [searches, hp, hv] using hc)
    · rw [if_neg hp, if_neg hp, ih fun c hc => h c (by simpa [searches, hp] using hc)]
  | sort input scoringFn args descending ih =>
    rw [executePlan, executePlan, ih h]
    rfl
  | limit input limit offset ih => rw [executePlan, executePlan, ih h]
  | deadline input millis estimatedCostMs ih => rw [executePlan, executePlan, ih h]

end Congr

variable {B} {uid : String} {f : List α}

theorem withFootprint_of_stored (hf : B.getFootprint uid = .ok (some f)) (query : List α) :
    B.withFootprint (some uid) query = .ok (applyFootprint query f) := by
  simp [withFootprint, hf, applyFootprint, Except.map]

/-- The footprint of the user goes into the vector of a scan as often as `uses` says. -/
theorem searches_eq_uses (hf : B.getFootprint uid = .ok (some f)) (plan : PlanNode α β)
    (query : List α) : B.searches (some uid) plan query =
      plan.uses.map fun u => (u.1, (fun v => applyFootprint v f)^[u.2] query) := by
  induction plan generalizing query with
  | annScan field efSearch weightMask biasFilters alpha =>
    simp [searches, PlanNode.uses, withFootprint_of_stored hf]
  | merge left right limit ihl ihr => simp [searches, PlanNode.uses, ihl, ihr]
  | bias input scoringFn args ih =>
    unfold searches PlanNode.uses
    by_cases hp : scoringFn = "personal"
    · simp [hp, withFootprint_of_stored hf, ih]
    · simp [hp, ih]
  | filter input predicate ih => exact ih query
  | sort input scoringFn args descending ih => exact ih query
  | limit input limit offset ih => exact ih query
  | deadline input millis estimatedCostMs ih => exact ih query

end Backend

/-! ## Planned queries -/

/-- The query has a personal bias. -/
def Query.personal (query : Query α) : Bool :=
  query.bias.any fun b => b.scoringFn == "personal"

section Uses

omit [F64 α]

theorem uses_addBias (query : Query α) (node : PlanNode α β) :
    (addBias query.bias node).uses =
      node.uses.map fun u => (u.1, u.2 + if query.personal then 1 else 0) := by
  unfold Query.personal
  cases query.bias with
  | none => simp [addBias]
  | some b =>
    show (PlanNode.bias node b.scoringFn b.args).uses = _
    rw [PlanNode.uses]
    by_cases hp : b.scoringFn = "personal"
    · simp [hp]
    · simp [hp]

theorem uses_addSort (orderBy : Option OrderBy) (node : PlanNode α β) :
    (addSort orderBy node).uses = node.uses := by
  cases orderBy <;> rfl

theorem uses_underDeadline (withinMs : Option Nat) (estimatedCostMs : α)
    (node : PlanNode α β) : (underDeadline withinMs estimatedCostMs node).uses = node.uses := by
  cases withinMs <;> rfl

end Uses

variable [F64Math α]

omit [F64 α] in
theorem uses_addFilter (metadataWhere : Option (MetadataWhere α))
    (biasFilters : List (BiasFilter α)) (node : PlanNode α β) :
    (addFilter metadataWhere biasFilters node).uses = node.uses := by
  rcases addFilter_cases metadataWhere biasFilters node with h | ⟨p, h⟩
  · rw [h]
  · rw [h]
    rfl

omit [F64 α] in
theorem uses_operators (config : PlannerConfig α) (query : Query α) (scan : Scan α β) :
    (operators config query scan).uses = (operators config query scan).scans.map fun s =>
      (s, 1 + if query.personal then 1 else 0) := by
  show (addSort query.orderBy _).uses = _
  rw [scans_operators, uses_addSort, uses_addBias, uses_addFilter]
  unfold Scan.base
  cases config.merkleEnabled <;> rfl

variable [F64Plan α] [Narrow α β]

/-- Under a personal bias a planned scan uses the footprint twice, otherwise once. -/
theorem uses_of_plan {config : PlannerConfig α} {query : Query α} {plan : PlanNode α β}
    (h : planToTree config query = some (.ok plan)) :
    plan.uses = plan.scans.map fun s => (s, 1 + if query.personal then 1 else 0) := by
  obtain ⟨-, -, similarity, weightMask, -, -, rfl⟩ := planToTree_eq_ok.mp h
  rw [uses_underDeadline, scans_underDeadline, uses_operators]

namespace Backend

variable [F32 β]

/-- All scans of a planned query search with the product of the vector and the footprint,
exactly if there is no personal bias to multiply them before, or it makes no difference. -/
theorem footprint_once_iff (B : Backend α β) {config : PlannerConfig α} {query : Query α}
    {plan : PlanNode α β} (hplan : planToTree config query = some (.ok plan)) {uid : String}
    {f : List α} (hf : B.getFootprint uid = .ok (some f)) (v : List α) :
    B.searches (some uid) plan v = plan.scans.map (fun s => (s, applyFootprint v f)) ↔
      query.personal = false ∨
        applyFootprint (applyFootprint v f) f = applyFootprint v f := by
  obtain ⟨similarity, weightMask, -, -, hscans⟩ := scans_of_plan hplan
  have hne : plan.scans ≠ [] := by
    rw [hscans]
    split <;> simp
  obtain ⟨s, hs⟩ := List.exists_mem_of_ne_nil _ hne
  rw [searches_eq_uses hf, uses_of_plan hplan, List.map_map]
  cases query.personal with
  | false => simp [Function.comp_def]
  | true =>
    simp only [Function.comp_def, if_true, Bool.true_eq_false, false_or, List.map_inj_left,
      Prod.mk.injEq, true_and]
    exact ⟨fun h => h s hs, fun h _ _ => h⟩

/-! ### One user -/

attribute [local instance] Nom.complete NomLocate.plain

/-- A storage without vectors, and the footprint `[2.0]` for everyone. -/
def doubling : Backend Lit Lit :=
  { Backend.ofRanking [] with getFootprint := fun _ => .ok (some [.fin 2]) }

/-- `FIND SIMILARITY(e, VECTOR(3.0)) BIAS scoringFn(me)` -/
def findBiased (scoringFn : String) : Query Lit :=
  { Query.start ("SIMILARITY", ⟨"e", "", some [.fin 3]⟩) with bias := some ⟨scoringFn, ["me"]⟩ }

def plainScan : Scan Lit Lit := ⟨"e", 50, none, [], .fin 0⟩

def biasedPlan (scoringFn : String) : PlanNode Lit Lit :=
  .limit (.bias plainScan.node scoringFn ["me"]) 10 0

/-- Under the personal bias the scan searches with 12 = 3 * 2 * 2, not with 3 * 2. -/
theorem footprint_twice :
    parse "FIND SIMILARITY(e, VECTOR(3.0)) BIAS personal(me)" =
        some (.ok (findBiased "personal")) ∧
      planToTree withoutCosts (findBiased "personal") = some (.ok (biasedPlan "personal")) ∧
      doubling.getFootprint "me" = .ok (some [.fin 2]) ∧
      doubling.searches (some "me") (biasedPlan "personal") [.fin 3] =
        [(plainScan, [.fin 12])] ∧
      applyFootprint [.fin 3] [.fin 2] = [(.fin 6 : Lit)] := by
  have hstored : doubling.getFootprint "me" = .ok (some [.fin 2]) := rfl
  refine ⟨by rfl, by rfl, hstored, ?_, rfl⟩
  rw [searches_eq_uses hstored]
  rfl

/-- Under another bias it searches with 6 = 3 * 2. -/
theorem footprint_once_recency :
    doubling.searches (some "me") (biasedPlan "recency") [.fin 3] =
      [(plainScan, applyFootprint [.fin 3] [.fin 2])] := by
  have hplan : planToTree withoutCosts (findBiased "recency") =
      some (.ok (biasedPlan "recency")) := by rfl
  exact (footprint_once_iff doubling hplan rfl [.fin 3]).mpr (.inl rfl)

end Backend

end Tesseract.L5.Vql
