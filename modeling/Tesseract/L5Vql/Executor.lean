import Mathlib.Data.List.Infix
import Tesseract.Core.Ties
import Tesseract.L5Vql.Grammar
import Tesseract.L5Vql.Planner

/-!
# The query executor

Model of `tesseract-vql/src/executor.rs`: a plan is walked from its scan outwards.

The storage, the embedder and the footprints are the parameter `Backend`, with the
time a plan takes. `none` stands for a panic of the storage.
-/
namespace Tesseract.L5.Vql

open L3 L3.Serde

/-- `metadata` is what the scan reports, not what is stored.
mirrors tesseract-vql/src/executor.rs:28-32 -/
structure ScoredResult (α β : Type) [F64 α] where
  id : UInt64
  score : β
  metadata : Option (Value α)

variable {α β : Type} [F64 α]

/-! ## Predicates -/

/-- A number above `i64::MAX` is read as an `f64`.
mirrors tesseract-vql/src/executor.rs:429-445 -/
def jsonValueToLiteral : Value α → Literal α
  | .str s => .string s
  | .nat n => if n.toNat < 2 ^ 63 then .integer n.toNat else .float (F64.ofInt n.toNat)
  | .neg n => .integer (-(n.val + 1))
  | .float x => .float x.1
  | .bool b => .boolean b
  | _ => .null

/-- mirrors tesseract-vql/src/executor.rs:449-455 -/
def coerceNumeric : Literal α → Option α
  | .integer i => some (F64.ofInt i)
  | .float x => some x
  | _ => none

/-- mirrors tesseract-vql/src/executor.rs:338-342 -/
def extractFieldValue (result : ScoredResult α β) (field : String) : Option (Literal α) := do
  let metadata ← result.metadata
  let value ← Json.get metadata field
  some (jsonValueToLiteral value)

/-- mirrors tesseract-vql/src/executor.rs:345-359 -/
def compareLiterals [F64Math α] (operator : ComparisonOp) (a b : Literal α) : Bool :=
  match coerceNumeric a, coerceNumeric b with
  | some la, some lb =>
    let ordering := (F64Math.partialCmp la lb).getD .eq
    match operator with
    | .eq => ordering == .eq
    | .neq => ordering != .eq
    | .lt => ordering == .lt
    | .gt => ordering == .gt
    | .lte => ordering != .gt
    | .gte => ordering != .lt
  | _, _ => false

omit [F64 α] in
/-- Whether the texts of `{:?}` are the same, where not both are numbers. -/
def debugEqual : Literal α → Literal α → Bool
  | .string s, .string t => s == t
  | .boolean b, .boolean c => b == c
  | .null, .null => true
  | _, _ => false

/-- `f64::EPSILON` -/
def epsilon : α := F64.div (F64.ofInt 1) (F64.ofInt (2 ^ 52))

/-- mirrors tesseract-vql/src/executor.rs:362-370 -/
def valuesEqual (a b : Literal α) : Bool :=
  match coerceNumeric a, coerceNumeric b with
  | some la, some lb =>
    let diff := F64.sub la lb
    let abs := if F64.lt diff F64.zero then F64.sub F64.zero diff else diff
    F64.lt abs epsilon
  | _, _ => debugEqual a b

/-- `strip_suffix('%')` -/
def stripSuffix (cs : List Char) : Option (List Char) :=
  if cs.getLast? = some '%' then some cs.dropLast else none

/-- mirrors tesseract-vql/src/executor.rs:459-478 -/
def likeMatch (value pattern : String) : Bool :=
  match pattern.toList with
  | ['%'] => true
  | '%' :: suffix =>
    match stripSuffix suffix with
    | some (c :: middle) => decide (c :: middle <:+: value.toList)
    | _ => decide (suffix <:+ value.toList)
  | cs =>
    match stripSuffix cs with
    | some start => decide (start <+: value.toList)
    | none => value == pattern

section Evaluate

variable [F64Math α]

mutual

/-- mirrors tesseract-vql/src/executor.rs:300-335 -/
def evaluatePredicate (result : ScoredResult α β) : Predicate α → Bool
  | .comparison field operator value =>
    match extractFieldValue result field with
    | some actual => compareLiterals operator actual value
    | none => false
  | .isIn field values =>
    match extractFieldValue result field with
    | some actual => values.any fun v => valuesEqual actual v
    | none => false
  | .between field low high =>
    match extractFieldValue result field with
    | some actual => compareLiterals .gte actual low && compareLiterals .lte actual high
    | none => false
  | .like field pattern =>
    match extractFieldValue result field with
    | some (.string s) => likeMatch s pattern
    | _ => false
  | .and predicates => evaluateAll result predicates

/-- `predicates.iter().all(..)` -/
def evaluateAll (result : ScoredResult α β) : List (Predicate α) → Bool
  | [] => true
  | p :: ps => evaluatePredicate result p && evaluateAll result ps

end

end Evaluate

/-! ## Operators -/

/-- mirrors tesseract-vql/src/executor.rs:377-389 -/
def applyBias (results : List (ScoredResult α β)) (scoringFn : String) :
    Result (List (ScoredResult α β)) :=
  if scoringFn = "recency" ∨ scoringFn = "popularity" ∨ scoringFn = "relevance_clicks" then
    .ok results
  else .error (.serviceError ("Unknown bias scoring function: " ++ scoringFn))

variable [F32 β]

/-- `a.score.partial_cmp(&b.score).unwrap_or(Equal)` -/
def ascending (a b : ScoredResult α β) : Ordering := (F32.partialCmp a.score b.score).getD .eq

/-- `b.score.partial_cmp(&a.score).unwrap_or(Equal)` -/
def descending (a b : ScoredResult α β) : Ordering := ascending b a

/-- What a query runs against. -/
structure Backend (α β : Type) [F64 α] [F32 β] where
  search : List α → Nat → Option (List (Nat × β)) → Option (Result (List (UInt64 × β)))
  applyTopologicalBias : List α → List (BiasFilter α) → α → Result (List α)
  getFootprint : String → Result (Option (List α))
  embed : String → Result (List α)
  /-- the two sorts -/
  sortAscending : StableSort (@ascending α β _ _)
  sortDescending : StableSort (@descending α β _ _)
  /-- the milliseconds a plan under a deadline takes -/
  elapsedMs : α

namespace Backend

variable (B : Backend α β)

/-- An unknown function sorts in descending order.
mirrors tesseract-vql/src/executor.rs:392-416 -/
def sortResults (results : List (ScoredResult α β)) (scoringFn : String) (descending : Bool) :
    List (ScoredResult α β) :=
  if scoringFn = "score" ∨ scoringFn = "similarity" then
    if descending then B.sortDescending.sort results else B.sortAscending.sort results
  else B.sortDescending.sort results

/-- `dedup_by` looks at neighbours only.
mirrors tesseract-vql/src/executor.rs:189-193 -/
def mergeScans (all : List (ScoredResult α β)) (limit : Nat) : List (ScoredResult α β) :=
  (dedupBy ScoredResult.id (B.sortDescending.sort all)).take limit

/-- `query` times the footprint of the user, if there is one.
mirrors tesseract-vql/src/executor.rs:200-209, 246-255 -/
def withFootprint (userId : Option String) (query : List α) : Result (List α) :=
  match userId with
  | none => .ok query
  | some uid => (B.getFootprint uid).map fun footprint =>
    footprint.elim query fun f => List.zipWith F64.mul query f

/-- mirrors tesseract-vql/src/executor.rs:214-218 -/
def biasedVector (query : List α) (biasFilters : List (BiasFilter α)) (alpha : α) :
    Result (List α) :=
  if biasFilters.isEmpty then .ok query else B.applyTopologicalBias query biasFilters alpha

omit [F32 β] in
/-- mirrors tesseract-vql/src/executor.rs:226-229 -/
def scanned (raw : List (UInt64 × β)) : List (ScoredResult α β) :=
  raw.map fun p => ⟨p.1, p.2, none⟩

/-- mirrors tesseract-vql/src/executor.rs:197-230 -/
def annScan (userId : Option String) (query : List α) (efSearch : Nat)
    (weightMask : Option (List (Nat × β))) (biasFilters : List (BiasFilter α)) (alpha : α) :
    Option (Result (List (ScoredResult α β))) :=
  let biased := do
    let searchVector ← B.withFootprint userId query
    B.biasedVector searchVector biasFilters alpha
  match biased with
  | .error e => some (.error e)
  | .ok biased => (B.search biased efSearch weightMask).map fun r => r.map scanned

theorem annScan_of_vector {userId : Option String} {query v w : List α} {efSearch : Nat}
    {weightMask : Option (List (Nat × β))} {biasFilters : List (BiasFilter α)} {alpha : α}
    (hv : B.withFootprint userId query = .ok v)
    (hw : B.biasedVector v biasFilters alpha = .ok w) :
    B.annScan userId query efSearch weightMask biasFilters alpha =
      (B.search w efSearch weightMask).map fun r => r.map scanned := by
  have hbiased : (do
      let searchVector ← B.withFootprint userId query
      B.biasedVector searchVector biasFilters alpha) = Except.ok w := by
    rw [hv]
    exact hw
  simp only [annScan, hbiased]

section Plan

variable [F64Math α] [F64Plan α]

omit [F32 β] in
/-- mirrors tesseract-vql/src/executor.rs:280-289 -/
def truncateLate (elapsedMs : α) (millis : Nat) (results : List (ScoredResult α β)) :
    List (ScoredResult α β) :=
  if F64.lt (F64.ofInt millis) elapsedMs then
    let ratio := F64.div (F64.ofInt millis) elapsedMs
    let ratio := if F64Math.le ratio (F64.ofInt 1) then ratio else F64.ofInt 1
    results.take (F64Plan.toUsize (F64Plan.ceil (F64.mul (F64.ofInt results.length) ratio)))
  else results

/-- mirrors tesseract-vql/src/executor.rs:171-293 -/
def executePlan (userId : Option String) :
    PlanNode α β → List α → Option (Result (List (ScoredResult α β)))
  | .merge left right limit, query => do
    let left ← executePlan userId left query
    let right ← executePlan userId right query
    some (do
      let all ← left
      let right ← right
      .ok (B.mergeScans (all ++ right) limit))
  | .annScan _ efSearch weightMask biasFilters alpha, query =>
    B.annScan userId query efSearch weightMask biasFilters alpha
  | .filter input predicate, query =>
    (executePlan userId input query).map fun r => r.map fun results =>
      results.filter fun result => evaluatePredicate result predicate
  | .bias input scoringFn _, query =>
    if scoringFn = "personal" then
      match B.withFootprint userId query with
      | .error e => some (.error e)
      | .ok biased => executePlan userId input biased
    else
      (executePlan userId input query).map fun r => do
        let results ← r
        applyBias results scoringFn
  | .sort input scoringFn _ descending, query =>
    (executePlan userId input query).map fun r => r.map fun results =>
      B.sortResults results scoringFn descending
  | .limit input limit offset, query =>
    (executePlan userId input query).map fun r => r.map fun results =>
      (results.drop offset).take limit
  | .deadline input millis _, query =>
    (executePlan userId input query).map fun r => r.map (truncateLate B.elapsedMs millis)

/-! ## Queries -/

/-- mirrors tesseract-vql/src/executor.rs:150-161 -/
def resolveQueryVector (query : Query α) : Result (List α) :=
  match query.similarity with
  | some expr =>
    match expr.vector with
    | some vector => .ok vector
    | none => B.embed expr.queryText
  | none => .error (.serviceError "No similarity clause")

/-- The results of a query within its time. `none` also stands for a parser that does not end.
mirrors tesseract-vql/src/executor.rs:101-143 -/
def execute [Narrow α β] [F64Text α] [Nom] [NomLocate] (config : PlannerConfig α) (vql : String)
    (userId : Option String) : Option (Result (List (ScoredResult α β))) := do
  match ← parse vql with
  | .error e => some (.error e)
  | .ok parsed =>
    match ← planToTree config parsed with
    | .error e => some (.error e)
    | .ok plan =>
      match B.resolveQueryVector parsed with
      | .error e => some (.error e)
      | .ok queryVector => B.executePlan userId plan queryVector

/-- An execution that succeeds, stage by stage. -/
theorem execute_eq_ok [Narrow α β] [F64Text α] [Nom] [NomLocate] {config : PlannerConfig α}
    {vql : String} {userId : Option String} {rs : List (ScoredResult α β)} :
    B.execute config vql userId = some (.ok rs) ↔ ∃ q plan v, parse vql = some (.ok q) ∧
      planToTree config q = some (.ok plan) ∧ B.resolveQueryVector q = .ok v ∧
      B.executePlan userId plan v = some (.ok rs) := by
  unfold execute
  constructor
  · intro h
    obtain ⟨r, hparse, h⟩ := Option.bind_eq_some_iff.mp h
    cases r with
    | error e => cases h
    | ok q =>
      obtain ⟨r, hplan, h⟩ := Option.bind_eq_some_iff.mp h
      cases r with
      | error e => cases h
      | ok plan =>
        cases hv : B.resolveQueryVector q with
        | error e =>
          simp only [hv] at h
          cases h
        | ok v =>
          simp only [hv] at h
          exact ⟨q, plan, v, hparse, hplan, hv, h⟩
  · intro ⟨q, plan, v, hparse, hplan, hv, h⟩
    simp only [hparse, hplan, hv, Option.bind_eq_bind, Option.bind_some]
    exact h

end Plan

/-- A storage that ranks its vectors the same way for every query. -/
def ofRanking (ranking : List (UInt64 × β)) : Backend α β where
  search _ k _ := some (.ok (ranking.take k))
  applyTopologicalBias query _ _ := .ok query
  getFootprint _ := .ok none
  embed _ := .ok []
  sortAscending := .insertion _
  sortDescending := .insertion _
  elapsedMs := F64.zero

end Backend

end Tesseract.L5.Vql
