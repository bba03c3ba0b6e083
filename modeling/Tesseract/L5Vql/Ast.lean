import Tesseract.Core.Floats

/-!
# The syntax of VQL

Model of `tesseract-vql/src/ast.rs`: what the parser returns, the planner compiles
and `Display` prints.
-/
namespace Tesseract.L5.Vql

variable {α : Type}

/-- mirrors tesseract-vql/src/ast.rs:63-70 -/
inductive ComparisonOp where
  | eq
  | neq
  | lt
  | gt
  | lte
  | gte
  deriving DecidableEq, Repr

/-- mirrors tesseract-vql/src/ast.rs:87-93 -/
inductive Literal (α : Type) where
  | string (s : String)
  | integer (i : Int)
  | float (x : α)
  | boolean (b : Bool)
  | null
  deriving DecidableEq, Repr

/-- mirrors tesseract-vql/src/ast.rs:48-59 -/
inductive Predicate (α : Type) where
  | comparison (field : String) (operator : ComparisonOp) (value : Literal α)
  | isIn (field : String) (values : List (Literal α))
  | between (field : String) (low high : Literal α)
  | like (field : String) (pattern : String)
  | and (predicates : List (Predicate α))
  deriving Repr

/-- mirrors tesseract-vql/src/ast.rs:31-38 -/
structure SimilarityExpr (α : Type) where
  field : String
  queryText : String
  vector : Option (List α)
  deriving DecidableEq, Repr

/-- mirrors tesseract-vql/src/ast.rs:42-44 -/
structure MetadataWhere (α : Type) where
  predicates : List (Predicate α)

/-- mirrors tesseract-vql/src/ast.rs:97-104 -/
structure OrderBy where
  scoringFn : String
  args : List String
  descending : Bool
  deriving DecidableEq, Repr

/-- mirrors tesseract-vql/src/ast.rs:108-110 -/
structure Limit where
  count : Nat
  deriving DecidableEq, Repr

/-- mirrors tesseract-vql/src/ast.rs:120-127 -/
inductive Projection where
  | field (name : String)
  | aliased (field aliasName : String)
  | function (name field : String)
  deriving DecidableEq, Repr

/-- mirrors tesseract-vql/src/ast.rs:114-116 -/
structure ProjectOn where
  projections : List Projection
  deriving DecidableEq, Repr

/-- mirrors tesseract-vql/src/ast.rs:131-134 -/
structure Bias where
  scoringFn : String
  args : List String
  deriving DecidableEq, Repr

/-- mirrors tesseract-vql/src/ast.rs:138-140 -/
structure Offset where
  count : Nat
  deriving DecidableEq, Repr

/-- mirrors tesseract-vql/src/ast.rs:144-146 -/
structure Within where
  millis : Nat
  deriving DecidableEq, Repr

/-- mirrors tesseract-vql/src/ast.rs:8-27 -/
structure Query (α : Type) where
  find : String
  similarity : Option (SimilarityExpr α)
  metadataWhere : Option (MetadataWhere α)
  projectOn : Option ProjectOn
  bias : Option Bias
  orderBy : Option OrderBy
  limit : Option Limit
  offset : Option Offset
  within : Option Within

/-- A query of a similarity and a page, and nothing else. -/
def Query.plain (find : String) (similarity : SimilarityExpr α) (limit : Option Limit)
    (offset : Option Offset) : Query α :=
  ⟨find, some similarity, none, none, none, none, limit, offset, none⟩

end Tesseract.L5.Vql
