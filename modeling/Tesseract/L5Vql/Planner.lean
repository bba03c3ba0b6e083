import Tesseract.Core.Error
import Tesseract.L3Store.Bias
import Tesseract.L5Vql.Ast

/-!
# The query planner

Model of `tesseract-vql/src/planner.rs`: a query is compiled to a tree of operators,
the scan innermost, each operator around the one before.

`none` stands for a panic: a field is mapped to a dimension modulo `dim`.
-/
namespace Tesseract.L5.Vql

open L3

/-! ## Plans -/

/-- mirrors tesseract-vql/src/planner.rs:29-102 -/
inductive PlanNode (α β : Type) where
  | annScan (field : String) (efSearch : Nat) (weightMask : Option (List (Nat × β)))
      (biasFilters : List (BiasFilter α)) (topologicalAlpha : α)
  | merge (left right : PlanNode α β) (limit : Nat)
  | filter (input : PlanNode α β) (predicate : Predicate α)
  | bias (input : PlanNode α β) (scoringFn : String) (args : List String)
  | sort (input : PlanNode α β) (scoringFn : String) (args : List String) (descending : Bool)
  | limit (input : PlanNode α β) (limit offset : Nat)
  | deadline (input : PlanNode α β) (millis : Nat) (estimatedCostMs : α)

/-- mirrors tesseract-vql/src/planner.rs:189-207 -/
structure PlannerConfig (α : Type) where
  defaultEfSearch : Nat
  dim : Nat
  estimatedVectorCount : Nat
  costBuffer : α
  costPerDistanceMs : α
  topologicalAlpha : α
  merkleEnabled : Bool

section Equal

variable {α : Type} [F64Math α]

/-- `PartialEq` of a literal: a NaN differs from itself. -/
def Literal.equal : Literal α → Literal α → Bool
  | .string s, .string t => s == t
  | .integer i, .integer j => i == j
  | .float x, .float y => F64Math.eq x y
  | .boolean b, .boolean c => b == c
  | .null, .null => true
  | _, _ => false

/-- `PartialEq` of a list of literals. -/
def literalsEqual : List (Literal α) → List (Literal α) → Bool
  | [], [] => true
  | v :: vs, w :: ws => v.equal w && literalsEqual vs ws
  | _, _ => false

mutual

/-- `PartialEq` of a predicate. -/
def Predicate.equal : Predicate α → Predicate α → Bool
  | .comparison f op v, .comparison g op' w => f == g && op == op' && v.equal w
  | .isIn f vs, .isIn g ws => f == g && literalsEqual vs ws
  | .between f low high, .between g low' high' => f == g && low.equal low' && high.equal high'
  | .like f pattern, .like g pattern' => f == g && pattern == pattern'
  | .and ps, .and qs => predicatesEqual ps qs
  | _, _ => false

def predicatesEqual : List (Predicate α) → List (Predicate α) → Bool
  | [], [] => true
  | p :: ps, q :: qs => p.equal q && predicatesEqual ps qs
  | _, _ => false

end

end Equal

variable {α β : Type} [F64 α]

/-! ## What the scan is told of the WHERE clause -/

/-- mirrors tesseract-vql/src/planner.rs:432-435 -/
def fieldToDim (config : PlannerConfig α) (field : String) : Option Nat :=
  let hash : UInt64 := field.toUTF8.data.toList.foldl (fun acc b => acc * 31 + b.toUInt64) 0
  if config.dim = 0 then none else some (hash.toNat % config.dim)

/-- The weights 1.0, 0.8 and 0.5.
mirrors tesseract-vql/src/planner.rs:414-418 -/
def operatorWeight [Narrow α β] : ComparisonOp → β
  | .eq => Narrow.toF32 (F64.ofInt 1 : α)
  | .neq => Narrow.toF32 (F64.div (F64.ofInt 4) (F64.ofInt 5) : α)
  | _ => Narrow.toF32 (F64.div (F64.ofInt 1) (F64.ofInt 2) : α)

/-- The loop over the predicates.
mirrors tesseract-vql/src/planner.rs:409-426 -/
def predicateWeights [Narrow α β] (config : PlannerConfig α) :
    List (Predicate α) → Option (List (Nat × β))
  | [] => some []
  | .comparison field operator _ :: rest => do
    let dim ← fieldToDim config field
    let weights ← predicateWeights config rest
    some ((dim, operatorWeight (α := α) operator) :: weights)
  | _ :: rest => predicateWeights config rest

/-- mirrors tesseract-vql/src/planner.rs:404-429 -/
def deriveWeightMask [Narrow α β] (config : PlannerConfig α)
    (metadataWhere : Option (MetadataWhere α)) : Option (Option (List (Nat × β))) :=
  match metadataWhere with
  | none => some none
  | some mw => (predicateWeights config mw.predicates).map fun weights =>
    if weights.isEmpty then none else some weights

/-- mirrors tesseract-vql/src/planner.rs:472-479 -/
def rangeOp : ComparisonOp → Option (RangeOp α)
  | .eq => some .eq
  | .gt => some .gt
  | .gte => some .gte
  | .lt => some .lt
  | .lte => some .lte
  | .neq => none

/-- mirrors tesseract-vql/src/planner.rs:461-493 -/
def biasFilter : Predicate α → Option (BiasFilter α)
  | .comparison field .eq (.string v) => some ⟨field, .category v⟩
  | .comparison field operator (.integer i) =>
    (rangeOp operator).map fun op => ⟨field, .numerical (F64.ofInt i) op⟩
  | .comparison field operator (.float f) =>
    (rangeOp operator).map fun op => ⟨field, .numerical f op⟩
  | _ => none

/-- mirrors tesseract-vql/src/planner.rs:456-497 -/
def extractBiasFilters : Option (MetadataWhere α) → List (BiasFilter α)
  | some mw => mw.predicates.filterMap biasFilter
  | none => []

/-- The predicate a bias filter stands for.
mirrors tesseract-vql/src/planner.rs:307-327 -/
def coveredPredicate (bf : BiasFilter α) : Predicate α :=
  match bf.kind with
  | .category v => .comparison bf.field .eq (.string v)
  | .numerical value op =>
    let cmp : ComparisonOp :=
      match op with
      | .eq => .eq
      | .gt => .gt
      | .gte => .gte
      | .lt => .lt
      | .lte => .lte
      | .range _ _ => .eq
    .comparison bf.field cmp (.float value)

/-- mirrors tesseract-vql/src/planner.rs:304-337 -/
def topologicalPredicate (biasFilters : List (BiasFilter α)) : Option (Predicate α) :=
  match biasFilters.map coveredPredicate with
  | [] => none
  | [single] => some single
  | covered => some (.and covered)

/-! ## Cost -/

variable [F64Math α] [F64Plan α]

/-- mirrors tesseract-vql/src/planner.rs:438-447 -/
def computeEfSearch (config : PlannerConfig α) (withinMs : Option Nat) : Nat :=
  match withinMs with
  | some budget =>
    let base : α := F64.ofInt config.defaultEfSearch
    let scaled := F64.clamp (F64.ofInt 10) (F64.ofInt 200)
      (F64.mul base (F64.div (F64.ofInt budget) (F64.ofInt 100)))
    F64Plan.toUsize scaled
  | none => config.defaultEfSearch

/-- mirrors tesseract-vql/src/planner.rs:500-507 -/
def estimateCost (config : PlannerConfig α) (efSearch : Nat) : α :=
  let n : α := F64.ofInt config.estimatedVectorCount
  let logN := F64Plan.ln n
  let dim : α := F64.ofInt config.dim
  let ef : α := F64.ofInt efSearch
  F64.mul (F64.mul (F64.mul (F64.mul (F64.mul ef dim) (F64.ofInt 2)) logN)
    config.costPerDistanceMs) (F64.add (F64.ofInt 1) config.costBuffer)

/-- mirrors tesseract-vql/src/planner.rs:269-274 -/
def scanAlpha (config : PlannerConfig α) (withinMs : Option Nat) : α :=
  match withinMs with
  | some budget =>
    F64.mul config.topologicalAlpha
      (F64.clamp (F64.ofInt 0) (F64.ofInt 1) (F64.div (F64.ofInt budget) (F64.ofInt 100)))
  | none => config.topologicalAlpha

/-! ## The tree -/

omit [F64 α] [F64Plan α] in
/-- All predicates of the clause are what the bias filters stand for.
mirrors tesseract-vql/src/planner.rs:342-344 -/
def alreadyCovered (predicates : List (Predicate α)) : Option (Predicate α) → Bool
  | none => false
  | some tp => predicates.all fun p => p.equal tp

omit [F64Plan α] in
/-- mirrors tesseract-vql/src/planner.rs:339-354 -/
def addFilter (metadataWhere : Option (MetadataWhere α)) (biasFilters : List (BiasFilter α))
    (node : PlanNode α β) : PlanNode α β :=
  match metadataWhere with
  | none => node
  | some mw =>
    if mw.predicates.isEmpty then node
    else if alreadyCovered mw.predicates (topologicalPredicate biasFilters) then node
    else
      match mw.predicates with
      | [p] => .filter node p
      | ps => .filter node (.and ps)

/-- mirrors tesseract-vql/src/planner.rs:383-398 -/
def addDeadline (config : PlannerConfig α) (withinMs : Option Nat) (estimatedCostMs : α)
    (node : PlanNode α β) : Result (PlanNode α β) :=
  match withinMs with
  | none => .ok node
  | some millis =>
    let adjusted := F64.mul estimatedCostMs (F64.add (F64.ofInt 1) config.costBuffer)
    if F64.lt (F64.ofInt millis) adjusted then
      .error (.serviceError ("Query would exceed latency budget: estimated " ++
        F64Plan.fixed1 adjusted ++ "ms (with buffer), budget " ++ toString millis ++
        "ms. Try reducing ef_search, limit, or removing the WITHIN clause."))
    else .ok (.deadline node millis estimatedCostMs)

/-- mirrors tesseract-vql/src/planner.rs:245-401 -/
def planToTree [Narrow α β] (config : PlannerConfig α) (query : Query α) :
    Option (Result (PlanNode α β)) :=
  if query.bias.isSome && query.orderBy.isSome then
    some (.error (.serviceError "BIAS and ORDER BY are mutually exclusive"))
  else
    match query.similarity with
    | none => some (.error (.serviceError "FIND SIMILARITY clause is required"))
    | some similarity => do
      let limit := (query.limit.map Limit.count).getD 10
      let offset := (query.offset.map Offset.count).getD 0
      let withinMs := query.within.map Within.millis
      let weightMask ← deriveWeightMask config query.metadataWhere
      let efSearch := computeEfSearch config withinMs
      let estimatedCostMs := estimateCost config efSearch
      let biasFilters := extractBiasFilters query.metadataWhere
      let annScan := PlanNode.annScan similarity.field efSearch weightMask biasFilters
        (scanAlpha config withinMs)
      let node := if config.merkleEnabled then .merge annScan annScan limit else annScan
      let node := addFilter query.metadataWhere biasFilters node
      let node := query.bias.elim node fun bias => .bias node bias.scoringFn bias.args
      let node := query.orderBy.elim node fun ob => .sort node ob.scoringFn ob.args ob.descending
      let node := PlanNode.limit node limit offset
      some (addDeadline config withinMs estimatedCostMs node)

end Tesseract.L5.Vql
