import Tesseract.Core.Error
import Tesseract.Core.Tokens
import Tesseract.L5Vql.Ast

/-!
# The parser of VQL

Model of `tesseract-vql/src/grammar.rs` and `parser.rs` over the combinators of `Nom`. A
span is the text that is left; where it lies in the whole text and how an error is printed
is asked of `NomLocate`.

The loop of `query` is given a number of rounds: `none` stands for its not ending.
-/
namespace Tesseract.L5.Vql

open Nom

/-- What `parse` reports of an error, of the whole text and the text at the error. -/
class NomLocate where
  locationLine : List Char → List Char → Nat
  getColumn : List Char → List Char → Nat
  debug : List Char → NomError → String

variable {α : Type} [Nom]

/-! ## Helpers -/

/-- `value(v, parser)` -/
def value {A B : Type} (v : A) (p : Parser B) : Parser A := do
  let _ ← p
  pure v

/-- `map(parser, f)` -/
def mapped {A B : Type} (p : Parser A) (f : A → B) : Parser B := do
  let a ← p
  pure (f a)

/-- `preceded(first, second)` -/
def preceded {A B : Type} (p : Parser A) (q : Parser B) : Parser B := do
  let _ ← p
  q

/-- `delimited(first, second, third)` -/
def delimited {A B C : Type} (p : Parser A) (q : Parser B) (r : Parser C) : Parser B := do
  let _ ← p
  let b ← q
  let _ ← r
  pure b

/-- mirrors tesseract-vql/src/grammar.rs:25-27 -/
def ws : Parser (List Char) := multispace0

/-- mirrors tesseract-vql/src/grammar.rs:31-35 -/
def identifier : Parser String :=
  mapped (recognize (do
    let _ ← alt [alpha1, tag ['_']]
    many0 (alt [alphanumeric1, tag ['_']]))) String.ofList

/-- mirrors tesseract-vql/src/grammar.rs:38-43 -/
def stringLiteral : Parser String := do
  let _ ← tag ['\'']
  let content ← takeWhile fun c => c != '\''
  let _ ← tag ['\'']
  pure (String.ofList content)

/-- `parse::<i64>()` of digits -/
def parseI64 (digits : List Char) : Option Int :=
  let n := Nat.ofDigitChars 10 digits 0
  if n < 2 ^ 63 then some n else none

/-- `parse::<u64>()` of digits -/
def parseU64 (digits : List Char) : Option Nat :=
  let n := Nat.ofDigitChars 10 digits 0
  if n < 2 ^ 64 then some n else none

/-- mirrors tesseract-vql/src/grammar.rs:46-48 -/
def integerLiteral : Parser Int := mapRes (recognize digit1) parseI64

/-- mirrors tesseract-vql/src/grammar.rs:51-53 -/
def floatLiteral [F64Text α] : Parser α :=
  mapRes (recognize (do
    let _ ← digit1
    let _ ← tag ['.']
    digit1)) F64Text.parse

/-- mirrors tesseract-vql/src/grammar.rs:56-58 -/
def booleanLiteral : Parser Bool :=
  alt [value true (tag "true".toList), value false (tag "false".toList)]

/-- mirrors tesseract-vql/src/grammar.rs:61-63 -/
def nullLiteral : Parser (Literal α) := value .null (tag "null".toList)

/-- mirrors tesseract-vql/src/grammar.rs:66-74 -/
def literal [F64Text α] : Parser (Literal α) :=
  alt [mapped stringLiteral .string, mapped booleanLiteral .boolean, mapped floatLiteral .float,
    mapped integerLiteral .integer, nullLiteral]

/-- mirrors tesseract-vql/src/grammar.rs:77-79 -/
def orderByArg : Parser String := alt [stringLiteral, identifier]

/-- mirrors tesseract-vql/src/grammar.rs:85-94 -/
def comparisonOp : Parser ComparisonOp :=
  alt [value .neq (tag "!=".toList), value .lte (tag "<=".toList), value .gte (tag ">=".toList),
    value .eq (tag "=".toList), value .lt (tag "<".toList), value .gt (tag ">".toList)]

/-! ## Predicates -/

section Predicates

variable [F64Text α]

/-- mirrors tesseract-vql/src/grammar.rs:101-108 -/
def comparisonPredicate : Parser (Predicate α) := do
  let field ← identifier
  let _ ← ws
  let operator ← comparisonOp
  let _ ← ws
  let value ← literal
  pure (.comparison field operator value)

/-- mirrors tesseract-vql/src/grammar.rs:111-118 -/
def inPredicate : Parser (Predicate α) := do
  let field ← identifier
  let _ ← ws
  let _ ← tag "IN".toList
  let _ ← ws
  let values ← delimited (tag ['(']) (separatedList0 (spaced [',']) literal) (tag [')'])
  pure (.isIn field values)

/-- mirrors tesseract-vql/src/grammar.rs:121-132 -/
def betweenPredicate : Parser (Predicate α) := do
  let field ← identifier
  let _ ← ws
  let _ ← tag "BETWEEN".toList
  let _ ← ws
  let low ← literal
  let _ ← ws
  let _ ← tag "AND".toList
  let _ ← ws
  let high ← literal
  pure (.between field low high)

/-- mirrors tesseract-vql/src/grammar.rs:135-142 -/
def likePredicate : Parser (Predicate α) := do
  let field ← identifier
  let _ ← ws
  let _ ← tag "LIKE".toList
  let _ ← ws
  let pattern ← stringLiteral
  pure (.like field pattern)

/-- A single predicate is returned as it is.
mirrors tesseract-vql/src/grammar.rs:146-157 -/
def andExpression : Parser (Predicate α) := do
  let predicates ← separatedList1 (spaced "AND".toList)
    (alt [inPredicate, betweenPredicate, likePredicate, comparisonPredicate])
  match predicates with
  | [p] => pure p
  | ps => pure (.and ps)

end Predicates

/-! ## Clauses -/

/-- mirrors tesseract-vql/src/grammar.rs:164-173 -/
def vectorLiteral [F64Text α] : Parser (List α) := do
  let _ ← tag "VECTOR".toList
  let _ ← ws
  let _ ← tag ['(']
  let _ ← ws
  let values ← separatedList0 (spaced [',']) floatLiteral
  let _ ← ws
  let _ ← tag [')']
  pure values

/-- mirrors tesseract-vql/src/grammar.rs:179-198 -/
def findExpr [F64Text α] : Parser (String × SimilarityExpr α) := do
  let findType ← alt [value "SIMILARITY" (tag "SIMILARITY".toList),
    value "SEMANTIC" (tag "SEMANTIC".toList)]
  let _ ← tag ['(']
  let _ ← ws
  let field ← identifier
  let _ ← ws
  let _ ← tag [',']
  let _ ← ws
  let (queryText, vector) ← alt [mapped vectorLiteral fun v => ("", some v),
    mapped stringLiteral fun s => (s, none)]
  let _ ← ws
  let _ ← tag [')']
  pure (findType, ⟨field, queryText, vector⟩)

/-- mirrors tesseract-vql/src/grammar.rs:201-210 -/
def metadataWhereClause [F64Text α] : Parser (MetadataWhere α) := do
  let _ ← tag "WITH".toList
  let _ ← ws
  let _ ← tag "METADATA".toList
  let _ ← ws
  let _ ← tag "WHERE".toList
  let _ ← ws
  let predicate ← andExpression
  pure ⟨[predicate]⟩

/-- mirrors tesseract-vql/src/grammar.rs:213-225 -/
def orderByClause : Parser OrderBy := do
  let _ ← tag "ORDER".toList
  let _ ← ws
  let _ ← tag "BY".toList
  let _ ← ws
  let scoringFn ← identifier
  let args ← delimited (tag ['(']) (separatedList0 (spaced [',']) orderByArg) (tag [')'])
  let direction ← opt (preceded ws
    (alt [value true (tag "DESC".toList), value false (tag "ASC".toList)]))
  pure ⟨scoringFn, args, direction.getD false⟩

/-- mirrors tesseract-vql/src/grammar.rs:228-233 -/
def limitClause : Parser Limit := do
  let _ ← tag "LIMIT".toList
  let _ ← ws
  let count ← mapRes (recognize digit1) parseU64
  pure ⟨count⟩

/-- mirrors tesseract-vql/src/grammar.rs:236-241 -/
def offsetClause : Parser Offset := do
  let _ ← tag "OFFSET".toList
  let _ ← ws
  let count ← mapRes (recognize digit1) parseU64
  pure ⟨count⟩

/-- `WITHIN` and `EN` differ in the keyword. -/
def budgetClause (keyword : List Char) : Parser Within := do
  let _ ← tag keyword
  let _ ← ws
  let millis ← mapRes (recognize digit1) parseU64
  let _ ← tag "ms".toList
  pure ⟨millis⟩

/-- mirrors tesseract-vql/src/grammar.rs:244-250 -/
def withinClause : Parser Within := budgetClause "WITHIN".toList

/-- mirrors tesseract-vql/src/grammar.rs:253-259 -/
def enClause : Parser Within := budgetClause "EN".toList

/-- mirrors tesseract-vql/src/grammar.rs:272-287 -/
def projection : Parser Projection :=
  preceded ws (alt [
    do
      let name ← identifier
      let _ ← preceded ws (tag ['('])
      let field ← preceded ws identifier
      let _ ← preceded ws (tag [')'])
      pure (.function name field),
    do
      let field ← identifier
      let _ ← preceded ws (tag "AS".toList)
      let aliasName ← preceded ws identifier
      pure (.aliased field aliasName),
    mapped identifier .field])

/-- mirrors tesseract-vql/src/grammar.rs:262-269 -/
def projectOnClause : Parser ProjectOn := do
  let _ ← tag "PROJECT".toList
  let _ ← ws
  let _ ← tag "ON".toList
  let _ ← ws
  let projections ← separatedList1 (spaced [',']) projection
  pure ⟨projections⟩

/-- mirrors tesseract-vql/src/grammar.rs:290-296 -/
def biasClause : Parser Bias := do
  let _ ← tag "BIAS".toList
  let _ ← ws
  let scoringFn ← identifier
  let args ← delimited (tag ['(']) (separatedList0 (spaced [',']) identifier) (tag [')'])
  pure ⟨scoringFn, args⟩

/-- mirrors tesseract-vql/src/grammar.rs:304-313 -/
inductive ParsedClause (α : Type) where
  | metadataWhere (v : MetadataWhere α)
  | projectOn (v : ProjectOn)
  | bias (v : Bias)
  | orderBy (v : OrderBy)
  | limit (v : Limit)
  | offset (v : Offset)
  | within (v : Within)

/-- mirrors tesseract-vql/src/grammar.rs:316-327 -/
def parseAnyClause [F64Text α] : Parser (ParsedClause α) :=
  alt [mapped metadataWhereClause .metadataWhere, mapped projectOnClause .projectOn,
    mapped biasClause .bias, mapped orderByClause .orderBy, mapped limitClause .limit,
    mapped offsetClause .offset, mapped withinClause .within, mapped enClause .within]

/-! ## Queries -/

/-- The accumulators of `query`, in one record. A clause that was there is not taken again.
mirrors tesseract-vql/src/grammar.rs:359-430 -/
def Query.add (q : Query α) : ParsedClause α → Option (Query α)
  | .metadataWhere v =>
    if q.metadataWhere.isSome then none else some { q with metadataWhere := some v }
  | .projectOn v => if q.projectOn.isSome then none else some { q with projectOn := some v }
  | .bias v => if q.bias.isSome then none else some { q with bias := some v }
  | .orderBy v => if q.orderBy.isSome then none else some { q with orderBy := some v }
  | .limit v => if q.limit.isSome then none else some { q with limit := some v }
  | .offset v => if q.offset.isSome then none else some { q with offset := some v }
  | .within v => if q.within.isSome then none else some { q with within := some v }

section Queries

variable [F64Text α]

/-- The `loop`, at most `fuel` rounds; with `remaining` behind it.
mirrors tesseract-vql/src/grammar.rs:350-434 -/
def queryLoop : Nat → List Char → Query α → Option (Except NomError (Query α × List Char))
  | 0, _, _ => none
  | fuel + 1, remaining, q =>
    match ws remaining with
    | .error e => some (.error e)
    | .ok (_, rest) =>
      if rest.isEmpty then some (.ok (q, remaining))
      else
        match parseAnyClause rest with
        | .ok (clause, rest2) =>
          match q.add clause with
          | some q => queryLoop fuel rest2 q
          | none => some (.error ⟨rest, .alt⟩)
        | .error _ => some (.ok (q, remaining))

/-- Behind the loop.
mirrors tesseract-vql/src/grammar.rs:436-465 -/
def finish (q : Query α) (remaining : List Char) : Except NomError (Query α × List Char) := do
  let (_, remaining) ← ws remaining
  if remaining.isEmpty = false then .error ⟨remaining, .eof⟩
  else if q.offset.isSome && q.limit.isNone then .error ⟨remaining, .fail⟩
  else .ok (q, remaining)

/-- mirrors tesseract-vql/src/grammar.rs:336-466 -/
def query (input : List Char) : Option (Except NomError (Query α × List Char)) :=
  match (do
    let _ ← tag "FIND".toList
    let _ ← ws
    findExpr : Parser (String × SimilarityExpr α)) input with
  | .error e => some (.error e)
  | .ok ((findType, similarity), remaining) =>
    (queryLoop (remaining.length + 1) remaining
      ⟨findType, some similarity, none, none, none, none, none, none, none⟩).map fun r => do
        let (q, remaining) ← r
        finish q remaining

/-- mirrors tesseract-vql/src/parser.rs:27-41 -/
def parse [NomLocate] (input : String) : Option (Result (Query α)) :=
  (query input.toList).map fun r =>
    match r with
    | .ok (q, _) => .ok q
    | .error e => .error (.parseError (NomLocate.locationLine input.toList e.input)
        (NomLocate.getColumn input.toList e.input) (NomLocate.debug input.toList e))

end Queries

end Tesseract.L5.Vql
