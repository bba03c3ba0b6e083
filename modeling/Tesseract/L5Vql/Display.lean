import Tesseract.L5Vql.Grammar

/-!
# Printing queries

Model of the `Display` implementations of `tesseract-vql/src/ast.rs`: a `fmt` gives the
characters that are written, and `Query.toString` the text.
-/
namespace Tesseract.L5.Vql

variable {α : Type}

/-- The elements one after the other, with `separator` before each but the first. -/
def joined {A : Type} (separator : List Char) (fmt : A → List Char) : List A → List Char
  | [] => []
  | a :: as => fmt a ++ as.flatMap fun b => separator ++ fmt b

/-- mirrors tesseract-vql/src/ast.rs:73-82 -/
def ComparisonOp.fmt : ComparisonOp → List Char
  | .eq => "=".toList
  | .neq => "!=".toList
  | .lt => "<".toList
  | .gt => ">".toList
  | .lte => "<=".toList
  | .gte => ">=".toList

/-- mirrors tesseract-vql/src/ast.rs:237-245 -/
def Literal.fmt [F64Text α] : Literal α → List Char
  | .string s => "'".toList ++ s.toList ++ "'".toList
  | .integer i => (toString i).toList
  | .float x => F64Text.display x
  | .boolean b => if b then "true".toList else "false".toList
  | .null => "null".toList

mutual

/-- mirrors tesseract-vql/src/ast.rs:202-233 -/
def Predicate.fmt [F64Text α] : Predicate α → List Char
  | .comparison field operator value =>
    field.toList ++ " ".toList ++ operator.fmt ++ " ".toList ++ value.fmt
  | .isIn field values =>
    field.toList ++ " IN (".toList ++ joined ", ".toList Literal.fmt values ++ ")".toList
  | .between field low high =>
    field.toList ++ " BETWEEN ".toList ++ low.fmt ++ " AND ".toList ++ high.fmt
  | .like field pattern => field.toList ++ " LIKE '".toList ++ pattern.toList ++ "'".toList
  | .and predicates => fmtAll predicates

/-- The loop over predicates. -/
def fmtAll [F64Text α] : List (Predicate α) → List Char
  | [] => []
  | p :: ps => p.fmt ++ fmtRest ps

/-- The rounds behind the first. -/
def fmtRest [F64Text α] : List (Predicate α) → List Char
  | [] => []
  | p :: ps => " AND ".toList ++ p.fmt ++ fmtRest ps

end

theorem fmtAll_cons [F64Text α] (p : Predicate α) (ps : List (Predicate α)) :
    fmtAll (p :: ps) = p.fmt ++ fmtRest ps := rfl

theorem fmtRest_cons [F64Text α] (p : Predicate α) (ps : List (Predicate α)) :
    fmtRest (p :: ps) = " AND ".toList ++ p.fmt ++ fmtRest ps := rfl

/-- mirrors tesseract-vql/src/ast.rs:190-198 -/
def MetadataWhere.fmt [F64Text α] (w : MetadataWhere α) : List Char :=
  fmtAll w.predicates

/-- mirrors tesseract-vql/src/ast.rs:249-258 -/
def Bias.fmt (b : Bias) : List Char :=
  b.scoringFn.toList ++ "(".toList ++ joined ", ".toList String.toList b.args ++ ")".toList

/-- mirrors tesseract-vql/src/ast.rs:262-275 -/
def OrderBy.fmt (o : OrderBy) : List Char :=
  o.scoringFn.toList ++ "(".toList ++ joined ", ".toList String.toList o.args ++ ")".toList ++
    if o.descending then " DESC".toList else []

/-- mirrors tesseract-vql/src/ast.rs:291-297 -/
def Projection.fmt : Projection → List Char
  | .field name => name.toList
  | .aliased f aliasName => f.toList ++ " AS ".toList ++ aliasName.toList
  | .function name f => name.toList ++ "(".toList ++ f.toList ++ ")".toList

/-- mirrors tesseract-vql/src/ast.rs:279-287 -/
def ProjectOn.fmt (p : ProjectOn) : List Char := joined ", ".toList Projection.fmt p.projections

/-- `if let Some(ref v)` -/
def written {A : Type} (fmt : A → List Char) : Option A → List Char
  | some a => fmt a
  | none => []

/-- The vector of a source is not written.
mirrors tesseract-vql/src/ast.rs:153-180 -/
def Query.fmt [F64Text α] (q : Query α) : List Char :=
  "FIND ".toList ++ q.find.toList ++
  written (fun sim => "(".toList ++ sim.field.toList ++ ", '".toList ++ sim.queryText.toList ++
    "')".toList) q.similarity ++
  written (fun w => "\n  WITH METADATA WHERE ".toList ++ w.fmt) q.metadataWhere ++
  written (fun p => "\n  PROJECT ON ".toList ++ p.fmt) q.projectOn ++
  written (fun b => "\n  BIAS ".toList ++ b.fmt) q.bias ++
  written (fun o => "\n  ORDER BY ".toList ++ o.fmt) q.orderBy ++
  written (fun l => "\n  LIMIT ".toList ++ (toString l.count).toList) q.limit ++
  written (fun o => "\n  OFFSET ".toList ++ (toString o.count).toList) q.offset ++
  written (fun w => "\n  WITHIN ".toList ++ (toString w.millis).toList ++ "ms".toList) q.within

/-- `to_string()` -/
def Query.toString [F64Text α] (q : Query α) : String := String.ofList q.fmt

end Tesseract.L5.Vql
