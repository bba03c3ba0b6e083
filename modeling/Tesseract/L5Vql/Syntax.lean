import Tesseract.L5Vql.Grammar

/-!
# How queries are written

The grammar of VQL, as relations between a value and its tokens. What a text may look like
beyond that is a `Style`: how keywords are spelled, where white space may stand, how a float
and an argument are written, and which clauses stand together.

* `Style.documented`: the grammar of the specification. Keywords in any letter case, white
  space between any two tokens.
* `Style.canonical`: what the combinators read.

An empty list of literals or arguments, a quoted argument of ORDER BY and an OFFSET apart
from its LIMIT, which the EBNF does not derive, are sentences here too.
-/
namespace Tesseract.L5.Vql

open Nom Tok

variable {α : Type}

/-! ## Words -/

/-- A character of an identifier. -/
def isWord (c : Char) : Bool := c.isAlphanum || c == '_'

/-- A letter or `_`, then letters, digits and `_`. -/
def IsIdent (w : List Char) : Prop :=
  ∃ c v, w = c :: v ∧ (c.isAlpha || c == '_') = true ∧ ∀ d ∈ v, isWord d = true

/-- A run of digits. -/
def IsDigits (w : List Char) : Prop := w ≠ [] ∧ ∀ c ∈ w, c.isDigit = true

/-- Digits with a point between. -/
def IsDecimal (w : List Char) : Prop := ∃ a b, IsDigits a ∧ IsDigits b ∧ w = a ++ '.' :: b

/-- An identifier for a name. -/
def Ident (name : String) (w : List Char) : Prop := IsIdent w ∧ name.toList = w

/-- A string in quotes, without a quote in it. -/
def Quoted (s : String) (w : List Char) : Prop :=
  w = '\'' :: (s.toList ++ ['\'']) ∧ '\'' ∉ s.toList

/-- Digits for a number below the bound. -/
def Number (bound n : Nat) (w : List Char) : Prop :=
  IsDigits w ∧ Nat.ofDigitChars 10 w 0 = n ∧ n < bound

def ComparisonOp.spelled : ComparisonOp → List Char
  | .eq => ['=']
  | .neq => ['!', '=']
  | .lt => ['<']
  | .gt => ['>']
  | .lte => ['<', '=']
  | .gte => ['>', '=']

/-! ## Styles -/

/-- The kinds of clauses: `WITHIN` and `EN` are one. -/
inductive ClauseKind where
  | metadataWhere | projectOn | bias | orderBy | limit | offset | within
  deriving DecidableEq, Repr

structure Style (α : Type) where
  /-- a keyword, as it is spelled -/
  spell : List Char → List Char → Prop
  /-- the white space where the parser reads none -/
  tight : List Char → Prop
  float : α → List Char → Prop
  /-- an argument of ORDER BY -/
  arg : String → List Char → Prop
  /-- the vector of a source that is written as a string -/
  textual : Option (List α) → Prop
  /-- the clauses of a query -/
  valid : List ClauseKind → Prop

/-- An identifier or a string. -/
def OrderByArg (a : String) (w : List Char) : Prop := Ident a w ∨ Quoted a w

/-- Digits with a point between, that parse to the float. -/
def Decimal [F64Text α] (x : α) (w : List Char) : Prop := IsDecimal w ∧ F64Text.parse w = some x

/-- mirrors openspec/specs/vql-grammar/spec.md:28-117 -/
def Style.documented [F64Text α] : Style α where
  spell keyword w := w.map Char.toLower = keyword.map Char.toLower
  tight _ := True
  float := Decimal
  arg := OrderByArg
  textual v := v = none
  valid _ := True

/-- Keywords as they stand in the grammar, no white space where the combinators read none,
no clause twice, and an OFFSET with a LIMIT only. -/
def Style.canonical [F64Text α] : Style α where
  spell keyword w := w = keyword
  tight g := g = []
  float := Decimal
  arg := OrderByArg
  textual v := v = none
  valid kinds := kinds.Nodup ∧ (.offset ∈ kinds → .limit ∈ kinds)

section Grammar

variable (σ : Style α)

/-! ## Predicates -/

def LiteralWord : Literal α → List Char → Prop
  | .string s => Quoted s
  | .integer i => fun w => ∃ n : Nat, i = n ∧ Number (2 ^ 63) n w
  | .float x => σ.float x
  | .boolean b => σ.spell (if b then "true".toList else "false".toList)
  | .null => σ.spell "null".toList

/-- A list in parentheses. -/
inductive Enclosed {A : Type} (R : A → List Tok → Prop) : List A → List Tok → Prop
  | mk {as o ts c} : o.Is (· = ['(']) → Separated0 R (· = [',']) as ts →
      σ.tight (lead (ts ++ [c])) →
      c.Is (· = [')']) → σ.tight c.gap → Enclosed R as (o :: (ts ++ [c]))

/-- A keyword behind an identifier does not go on with it. -/
inductive PredicateToks : Predicate α → List Tok → Prop
  | comparison {field operator value f o v} : f.Is (Ident field) →
      o.Is (· = operator.spelled) → v.Is (LiteralWord σ value) →
      PredicateToks (.comparison field operator value) [f, o, v]
  | isIn {field values f k ts} : f.Is (Ident field) → k.Is (σ.spell "IN".toList) → k.gap ≠ [] →
      Enclosed σ (Word (LiteralWord σ)) values ts →
      PredicateToks (.isIn field values) (f :: k :: ts)
  | between {field low high f k l a h} : f.Is (Ident field) → k.Is (σ.spell "BETWEEN".toList) →
      k.gap ≠ [] → l.Is (LiteralWord σ low) → a.Is (σ.spell "AND".toList) →
      h.Is (LiteralWord σ high) → PredicateToks (.between field low high) [f, k, l, a, h]
  | like {field pattern f k s} : f.Is (Ident field) → k.Is (σ.spell "LIKE".toList) → k.gap ≠ [] →
      s.Is (Quoted pattern) → PredicateToks (.like field pattern) [f, k, s]

/-- A single predicate stands for itself. -/
def conjunction : List (Predicate α) → Predicate α
  | [p] => p
  | ps => .and ps

inductive ConjunctionToks : Predicate α → List Tok → Prop
  | mk {ps ts} : Separated (PredicateToks σ) (σ.spell "AND".toList) ps ts →
      ConjunctionToks (conjunction ps) ts

/-! ## FIND -/

inductive SourceToks : String × Option (List α) → List Tok → Prop
  | text {s v t} : σ.textual v → t.Is (Quoted s) → SourceToks (s, v) [t]
  | vector {xs k o ts c} : k.Is (σ.spell "VECTOR".toList) → o.Is (· = ['(']) →
      Separated0 (Word σ.float) (· = [',']) xs ts → c.Is (· = [')']) →
      SourceToks ("", some xs) (k :: o :: (ts ++ [c]))

inductive FindToks : String × SimilarityExpr α → List Tok → Prop
  | mk {findType field queryText vector f s o i m us c} : f.Is (σ.spell "FIND".toList) →
      f.gap = [] → findType = "SIMILARITY" ∨ findType = "SEMANTIC" →
      s.Is (σ.spell findType.toList) → o.Is (· = ['(']) → σ.tight o.gap → i.Is (Ident field) →
      m.Is (· = [',']) → SourceToks σ (queryText, vector) us → c.Is (· = [')']) →
      FindToks (findType, ⟨field, queryText, vector⟩) (f :: s :: o :: i :: m :: (us ++ [c]))

/-! ## Clauses -/

inductive ProjectionToks : Projection → List Tok → Prop
  | function {name field n o f c} : n.Is (Ident name) → o.Is (· = ['(']) → f.Is (Ident field) →
      c.Is (· = [')']) → ProjectionToks (.function name field) [n, o, f, c]
  | aliased {field aliasName f k a} : f.Is (Ident field) → k.Is (σ.spell "AS".toList) →
      k.gap ≠ [] → a.Is (Ident aliasName) → ProjectionToks (.aliased field aliasName) [f, k, a]
  | field {name f} : f.Is (Ident name) → ProjectionToks (.field name) [f]

/-- The direction of ORDER BY, which may be missing. -/
inductive DirectionToks : Bool → List Tok → Prop
  | none : DirectionToks false []
  | desc {d} : d.Is (σ.spell "DESC".toList) → DirectionToks true [d]
  | asc {d} : d.Is (σ.spell "ASC".toList) → DirectionToks false [d]

inductive ClauseToks : ParsedClause α → List Tok → Prop
  | metadataWhere {p a b c ts} : a.Is (σ.spell "WITH".toList) → b.Is (σ.spell "METADATA".toList) →
      c.Is (σ.spell "WHERE".toList) → ConjunctionToks σ p ts →
      ClauseToks (.metadataWhere ⟨[p]⟩) (a :: b :: c :: ts)
  | projectOn {ps a b ts} : a.Is (σ.spell "PROJECT".toList) → b.Is (σ.spell "ON".toList) →
      Separated (ProjectionToks σ) (· = [',']) ps ts → ClauseToks (.projectOn ⟨ps⟩) (a :: b :: ts)
  | bias {scoringFn args a f ts} : a.Is (σ.spell "BIAS".toList) → f.Is (Ident scoringFn) →
      Enclosed σ (Word Ident) args ts → σ.tight (lead ts) →
      ClauseToks (.bias ⟨scoringFn, args⟩) (a :: f :: ts)
  | orderBy {scoringFn args descending a b f ts ds} : a.Is (σ.spell "ORDER".toList) →
      b.Is (σ.spell "BY".toList) → f.Is (Ident scoringFn) → Enclosed σ (Word σ.arg) args ts →
      σ.tight (lead ts) → DirectionToks σ descending ds →
      ClauseToks (.orderBy ⟨scoringFn, args, descending⟩) (a :: b :: f :: (ts ++ ds))
  | limit {count a n} : a.Is (σ.spell "LIMIT".toList) → n.Is (Number (2 ^ 64) count) →
      ClauseToks (.limit ⟨count⟩) [a, n]
  | offset {count a n} : a.Is (σ.spell "OFFSET".toList) → n.Is (Number (2 ^ 64) count) →
      ClauseToks (.offset ⟨count⟩) [a, n]
  | within {millis a n m} : a.Is (σ.spell "WITHIN".toList) ∨ a.Is (σ.spell "EN".toList) →
      n.Is (Number (2 ^ 64) millis) → m.Is (σ.spell "ms".toList) → σ.tight m.gap →
      ClauseToks (.within ⟨millis⟩) [a, n, m]

end Grammar

def Projection.endsInWord : Projection → Bool
  | .function _ _ => false
  | _ => true

/-- A list of projections may end in an identifier. -/
def ParsedClause.endsInWord : ParsedClause α → Bool
  | .projectOn v => v.projections.getLast?.any Projection.endsInWord
  | _ => false

def ParsedClause.kind : ParsedClause α → ClauseKind
  | .metadataWhere _ => .metadataWhere
  | .projectOn _ => .projectOn
  | .bias _ => .bias
  | .orderBy _ => .orderBy
  | .limit _ => .limit
  | .offset _ => .offset
  | .within _ => .within

/-- The clauses of a query, one behind the other. -/
inductive ClausesToks (σ : Style α) : List (ParsedClause α) → List Tok → Prop
  | nil : ClausesToks σ [] []
  | cons {c cs ts us} : ClauseToks σ c ts → ClausesToks σ cs us →
      (c.endsInWord = true → ∀ t ∈ us.head?, t.gap ≠ []) → ClausesToks σ (c :: cs) (ts ++ us)

/-- A query without clauses. -/
def Query.start (find : String × SimilarityExpr α) : Query α :=
  ⟨find.1, some find.2, none, none, none, none, none, none, none⟩

/-- The query of a FIND expression and clauses: the first of each kind counts. -/
def assemble (find : String × SimilarityExpr α) (cs : List (ParsedClause α)) : Query α :=
  cs.foldl (fun q c => (q.add c).getD q) (Query.start find)

inductive QueryToks (σ : Style α) : Query α → List Tok → Prop
  | mk {find cs us vs} : FindToks σ find us → ClausesToks σ cs vs →
      σ.valid (cs.map ParsedClause.kind) → QueryToks σ (assemble find cs) (us ++ vs)

end Tesseract.L5.Vql
