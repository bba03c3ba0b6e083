import Mathlib.Data.Rat.Cast.Order
import Mathlib.Tactic.Linarith
import Tesseract.Core.Rounding
import Tesseract.L5Vql.Executor

/-!
# The laws of predicates

What the language says of `=`, `!=`, `IN`, `BETWEEN` and the order of strings, against
`evaluate_predicate`. A comparison compares numbers as doubles and answers `false` to
everything else, while `IN` compares texts where it does not compare numbers.

* `eqLaw_iff`, `neqLaw_iff`, `inLaw_iff`, `orderLaw_iff`: when each law holds.
  `betweenLaw` always does.
* `language_laws_iff`: they hold together where the field is absent, or a number that is
  compared with an integer it is neither rounded to nor the floating point equal of.
-/
namespace Tesseract.L5.Vql

open L3 L3.Serde

variable {α β : Type} [F64 α]

/-- The field of the metadata, if it is there. -/
def fieldValue (result : ScoredResult α β) (field : String) : Option (Value α) :=
  result.metadata.bind fun metadata => Json.get metadata field

theorem extractFieldValue_eq (result : ScoredResult α β) (field : String) :
    extractFieldValue result field = (fieldValue result field).map jsonValueToLiteral := by
  unfold extractFieldValue fieldValue
  cases result.metadata with
  | none => rfl
  | some metadata =>
    simp only [Option.bind_eq_bind, Option.bind_some]
    cases Json.get metadata field <;> rfl

omit [F64 α] in
/-- A string, a boolean, null or an integer up to 2^53. -/
def Plain : Literal α → Prop
  | .integer i => i.natAbs ≤ 2 ^ 53
  | .float _ => False
  | _ => True

/-! ## The laws -/

/-- The value is of the literal's type and equal to it. -/
def SameValue : Value α → Literal α → Prop
  | .str s, .string t => s = t
  | .bool b, .boolean c => b = c
  | .null, .null => True
  | .nat n, .integer i => (n.toNat : Int) = i
  | .neg n, .integer i => -(n.val + 1 : Int) = i
  | _, _ => False

section Laws

variable [F64Math α] (result : ScoredResult α β) (field : String)

/-- `field operator value` holds. -/
def Compares (operator : ComparisonOp) (value : Literal α) : Prop :=
  evaluatePredicate result (.comparison field operator value) = true

/-- `=` is equality with a value of the same type. -/
def EqLaw (value : Literal α) : Prop :=
  Compares result field .eq value ↔ ∃ x, fieldValue result field = some x ∧ SameValue x value

/-- `!=` is the negation of `=` where the field is present. -/
def NeqLaw (value : Literal α) : Prop :=
  fieldValue result field ≠ none →
    (Compares result field .neq value ↔ ¬ Compares result field .eq value)

/-- `IN` is a disjunction of equalities. -/
def InLaw (values : List (Literal α)) : Prop :=
  evaluatePredicate result (.isIn field values) = true ↔
    ∃ value ∈ values, Compares result field .eq value

/-- `BETWEEN` is a conjunction of two comparisons. -/
def BetweenLaw (low high : Literal α) : Prop :=
  evaluatePredicate result (.between field low high) = true ↔
    Compares result field .gte low ∧ Compares result field .lte high

/-- Strings are ordered lexicographically. -/
def OrderLaw (value : Literal α) : Prop :=
  ∀ s t, fieldValue result field = some (.str s) → value = .string t →
    (Compares result field .lt value ↔ s < t) ∧ (Compares result field .gt value ↔ t < s) ∧
      (Compares result field .lte value ↔ s ≤ t) ∧ (Compares result field .gte value ↔ t ≤ s)

/-- The laws of the language, each at a literal, a list or two bounds. -/
structure LanguageLaws (value : Literal α) (values : List (Literal α)) (low high : Literal α) :
    Prop where
  eq : EqLaw result field value
  neq : NeqLaw result field value
  isIn : InLaw result field values
  between : BetweenLaw result field low high
  order : OrderLaw result field value

end Laws

/-! ## Numbers -/

/-- The comparison of `values_equal`: closer than `f64::EPSILON`. -/
def closeTo (x y : α) : Bool :=
  let diff := F64.sub x y
  let abs := if F64.lt diff F64.zero then F64.sub F64.zero diff else diff
  F64.lt abs epsilon

/-- What is used of the arithmetic of doubles: an integer of 64 bits is rounded to the
nearest double, different integers are not close, and of two finite numbers one is at most
the other, and they are close if they are equal. -/
class IntegerF64 (α : Type) [F64 α] [F64Math α] : Prop where
  le_ofInt : ∀ i j : Int, i.natAbs ≤ 2 ^ 64 → j.natAbs ≤ 2 ^ 64 →
    (F64Math.le (F64.ofInt i : α) (F64.ofInt j) = true ↔ roundInt i ≤ roundInt j)
  close_ofInt : ∀ i j : Int, i.natAbs ≤ 2 ^ 64 → j.natAbs ≤ 2 ^ 64 →
    (closeTo (F64.ofInt i : α) (F64.ofInt j) = true ↔ roundInt i = roundInt j)
  close_of_eq : ∀ x y : α, F64.isFinite x = true → F64.isFinite y = true →
    F64Math.eq x y = true → closeTo x y = true
  finite_ofInt : ∀ i : Int, i.natAbs ≤ 2 ^ 64 → F64.isFinite (F64.ofInt i : α) = true
  le_total : ∀ x y : α, F64.isFinite x = true → F64.isFinite y = true →
    F64Math.le x y = true ∨ F64Math.le y x = true

/-- The integer a JSON value is. -/
def integerOf : Value α → Option Int
  | .nat n => some n.toNat
  | .neg n => some (-(n.val + 1))
  | _ => none

/-- The number `evaluate_predicate` compares. -/
def numberOf (x : Value α) : Option α := coerceNumeric (jsonValueToLiteral x)

theorem numberOf_integer {x : Value α} {j : Int} (h : integerOf x = some j) :
    numberOf x = some (F64.ofInt j) ∧ j.natAbs ≤ 2 ^ 64 := by
  cases x with
  | nat n =>
    cases h
    have hlt := n.toNat_lt
    refine ⟨?_, by omega⟩
    simp only [numberOf, jsonValueToLiteral]
    split <;> rfl
  | neg n =>
    cases h
    exact ⟨rfl, by omega⟩
  | _ => cases h

/-- An integer, a float or no number. -/
theorem number_cases (x : Value α) :
    (∃ j, integerOf x = some j) ∨ (∃ y, x = .float y) ∨ numberOf x = none := by
  cases x with
  | nat n => exact .inl ⟨_, rfl⟩
  | neg n => exact .inl ⟨_, rfl⟩
  | float y => exact .inr (.inl ⟨y, rfl⟩)
  | _ => exact .inr (.inr rfl)

theorem sameValue_integer {x : Value α} {i : Int} :
    SameValue x (.integer i) ↔ integerOf x = some i := by
  cases x <;> simp [SameValue, integerOf]

section Evaluate

variable [F64Math α] {result : ScoredResult α β} {field : String}

theorem compares_iff {x : Value α} (hx : fieldValue result field = some x)
    {operator : ComparisonOp} {value : Literal α} :
    Compares result field operator value ↔
      compareLiterals operator (jsonValueToLiteral x) value = true := by
  simp only [Compares, evaluatePredicate, extractFieldValue_eq, hx, Option.map_some]

theorem not_compares (hx : fieldValue result field = none) {operator : ComparisonOp}
    {value : Literal α} : ¬ Compares result field operator value := by
  simp [Compares, evaluatePredicate, extractFieldValue_eq, hx]

theorem isIn_iff {x : Value α} (hx : fieldValue result field = some x)
    {values : List (Literal α)} :
    evaluatePredicate result (.isIn field values) = true ↔
      ∃ value ∈ values, valuesEqual (jsonValueToLiteral x) value = true := by
  simp only [evaluatePredicate, extractFieldValue_eq, hx, Option.map_some, List.any_eq_true]

theorem compareLiterals_left {x : Value α} (hx : numberOf x = none) (operator : ComparisonOp)
    (value : Literal α) : compareLiterals operator (jsonValueToLiteral x) value = false := by
  unfold numberOf at hx
  simp only [compareLiterals, hx]

theorem compareLiterals_right {value : Literal α} (hv : coerceNumeric value = none)
    (operator : ComparisonOp) (a : Literal α) : compareLiterals operator a value = false := by
  unfold compareLiterals
  rw [hv]
  split
  · next heq => cases heq
  · rfl

theorem compareLiterals_neq {a b : Literal α} {la lb : α} (ha : coerceNumeric a = some la)
    (hb : coerceNumeric b = some lb) :
    compareLiterals .neq a b = true ↔ ¬ compareLiterals .eq a b = true := by
  simp only [compareLiterals, ha, hb]
  cases (F64Math.partialCmp la lb).getD .eq <;> decide

/-- Where one of the numbers is at most the other, `=` compares them. -/
theorem compareLiterals_eq {a b : Literal α} {la lb : α} (ha : coerceNumeric a = some la)
    (hb : coerceNumeric b = some lb)
    (htotal : F64Math.le la lb = true ∨ F64Math.le lb la = true) :
    compareLiterals .eq a b = F64Math.eq la lb := by
  simp only [compareLiterals, ha, hb, F64Math.partialCmp, F64Math.eq]
  cases hab : F64Math.le la lb <;> cases hba : F64Math.le lb la <;> simp_all

variable [IntegerF64 α]

theorem eq_ofInt {i j : Int} (hi : i.natAbs ≤ 2 ^ 64) (hj : j.natAbs ≤ 2 ^ 64) :
    F64Math.eq (F64.ofInt j : α) (F64.ofInt i) = true ↔ roundInt j = roundInt i := by
  rw [F64Math.eq, Bool.and_eq_true, IntegerF64.le_ofInt j i hj hi, IntegerF64.le_ofInt i j hi hj]
  omega

/-- `=` between two integers. -/
theorem compareLiterals_integers {x : Value α} {i j : Int} (hx : integerOf x = some j)
    (hi : i.natAbs ≤ 2 ^ 53) :
    compareLiterals .eq (jsonValueToLiteral x) (.integer i) = true ↔ j = i ∨ RoundedTo j i := by
  obtain ⟨hnum, hj⟩ := numberOf_integer hx
  have hi' : i.natAbs ≤ 2 ^ 64 := by omega
  have htotal := IntegerF64.le_total (F64.ofInt j : α) (F64.ofInt i)
    (IntegerF64.finite_ofInt j hj) (IntegerF64.finite_ofInt i hi')
  rw [compareLiterals_eq hnum rfl htotal, eq_ofInt hi' hj, roundInt_eq_iff hi]

/-- `=` between a float and an integer. -/
theorem compareLiterals_float (y : Serde.Finite α) {i : Int} (hi : i.natAbs ≤ 2 ^ 53) :
    compareLiterals .eq (jsonValueToLiteral (.float y)) (.integer i) =
      F64Math.eq y.1 (F64.ofInt i) := by
  have htotal := IntegerF64.le_total y.1 (F64.ofInt i) y.2 (IntegerF64.finite_ofInt i (by omega))
  exact compareLiterals_eq rfl rfl htotal

/-! ## When each law holds -/

/-- A string, a boolean or null is never equal; an integer is taken for the one it is rounded
to, a float for the integer of its value. -/
def EqAgrees (x : Value α) : Literal α → Prop
  | .integer i =>
    (∀ j, integerOf x = some j → ¬ RoundedTo j i) ∧
      ∀ y, x = .float y → F64Math.eq y.1 (F64.ofInt i) = false
  | value => ¬ SameValue x value

theorem eqAgrees_integer {x : Value α} {i : Int} (hi : i.natAbs ≤ 2 ^ 53) :
    (compareLiterals .eq (jsonValueToLiteral x) (.integer i) = true ↔
      SameValue x (.integer i)) ↔ EqAgrees x (.integer i) := by
  rw [sameValue_integer, EqAgrees]
  rcases number_cases x with ⟨j, hj⟩ | ⟨y, rfl⟩ | hnone
  · have hfloat : ∀ y, x ≠ .float y := by
      rintro y rfl
      cases hj
    have hother : RoundedTo j i → j ≠ i := by
      unfold RoundedTo
      omega
    rw [compareLiterals_integers hj hi, hj]
    simp only [Option.some.injEq, forall_eq', hfloat, false_implies, implies_true, and_true]
    grind
  · rw [compareLiterals_float y hi]
    simp [integerOf]
  · have hint : integerOf x = none := by
      by_contra hsome
      obtain ⟨j, hj⟩ := Option.ne_none_iff_exists'.mp hsome
      rw [(numberOf_integer hj).1] at hnone
      cases hnone
    have hfloat : ∀ y, x ≠ .float y := by
      rintro y rfl
      cases hnone
    simp [compareLiterals_left hnone, hint, hfloat]

omit [IntegerF64 α] in
theorem eqAgrees_other {x : Value α} {value : Literal α} (hv : coerceNumeric value = none) :
    (compareLiterals .eq (jsonValueToLiteral x) value = true ↔ SameValue x value) ↔
      EqAgrees x value := by
  rw [compareLiterals_right hv]
  cases value <;> simp_all [coerceNumeric, EqAgrees]

theorem eqLaw_iff {value : Literal α} (hv : Plain value) :
    EqLaw result field value ↔ ∀ x, fieldValue result field = some x → EqAgrees x value := by
  cases hx : fieldValue result field with
  | none => simp [EqLaw, hx, not_compares hx]
  | some x =>
    have hlaw : EqLaw result field value ↔
        (compareLiterals .eq (jsonValueToLiteral x) value = true ↔ SameValue x value) := by
      simp [EqLaw, compares_iff hx, hx]
    rw [hlaw]
    simp only [Option.some.injEq, forall_eq']
    cases value with
    | integer i => exact eqAgrees_integer hv
    | float y => exact hv.elim
    | _ => exact eqAgrees_other rfl

omit [IntegerF64 α] in
/-- `!=` needs two numbers. -/
theorem neqLaw_iff {value : Literal α} :
    NeqLaw result field value ↔
      ∀ x, fieldValue result field = some x →
        (numberOf x).isSome = true ∧ (coerceNumeric value).isSome = true := by
  cases hx : fieldValue result field with
  | none => simp [NeqLaw, hx]
  | some x =>
    simp only [NeqLaw, hx, compares_iff hx, Option.some.injEq, forall_eq']
    cases ha : numberOf x with
    | none => simp [compareLiterals_left ha]
    | some la =>
      cases hb : coerceNumeric value with
      | none => simp [compareLiterals_right hb]
      | some lb => simp [compareLiterals_neq ha hb]

/-- A string, a boolean or null must not be listed; a float close to a listed integer must be
equal to one. -/
def InAgrees (x : Value α) (values : List (Literal α)) : Prop :=
  match x with
  | .float y =>
    (∃ i, .integer i ∈ values ∧ closeTo y.1 (F64.ofInt i) = true) →
      ∃ i, .integer i ∈ values ∧ F64Math.eq y.1 (F64.ofInt i) = true
  | .nat _ => True
  | .neg _ => True
  | .str s => .string s ∉ values
  | .bool b => .boolean b ∉ values
  | _ => .null ∉ values

omit [F64Math α] [IntegerF64 α] in
theorem valuesEqual_numbers {a b : Literal α} {la lb : α} (ha : coerceNumeric a = some la)
    (hb : coerceNumeric b = some lb) : valuesEqual a b = closeTo la lb := by
  simp only [valuesEqual, closeTo, ha, hb]

omit [F64Math α] [IntegerF64 α] in
theorem valuesEqual_left {a : Literal α} (ha : coerceNumeric a = none) (b : Literal α) :
    valuesEqual a b = debugEqual a b := by
  simp only [valuesEqual, ha]

omit [F64Math α] [IntegerF64 α] in
/-- A number is no string, boolean or null. -/
theorem valuesEqual_mixed {a b : Literal α} {la : α} (ha : coerceNumeric a = some la)
    (hb : coerceNumeric b = none) : valuesEqual a b = false := by
  simp only [valuesEqual, ha, hb]
  cases a <;> first | rfl | cases ha

/-- Between integers `IN` compares as `=` does. -/
theorem valuesEqual_integer {x : Value α} {j : Int} (hx : integerOf x = some j)
    {value : Literal α} (hv : Plain value) :
    valuesEqual (jsonValueToLiteral x) value =
      compareLiterals .eq (jsonValueToLiteral x) value := by
  obtain ⟨hnum, hj⟩ := numberOf_integer hx
  cases value with
  | integer i =>
    have hi : i.natAbs ≤ 2 ^ 53 := hv
    rw [valuesEqual_numbers hnum rfl, Bool.eq_iff_iff, compareLiterals_integers hx hi,
      IntegerF64.close_ofInt j i hj (by omega), roundInt_eq_iff hi]
  | float y => exact hv.elim
  | _ => rw [compareLiterals_right rfl, valuesEqual_mixed hnum rfl]

omit [F64Math α] [IntegerF64 α] in
/-- A test that fails on everything but integers. -/
theorem exists_integer {test : Literal α → Bool} {values : List (Literal α)}
    (hvs : ∀ value ∈ values, Plain value)
    (hother : ∀ value, coerceNumeric value = none → test value = false) :
    (∃ value ∈ values, test value = true) ↔
      ∃ i, .integer i ∈ values ∧ test (.integer i) = true := by
  constructor
  · rintro ⟨value, hmem, htest⟩
    cases value with
    | integer i => exact ⟨i, hmem, htest⟩
    | float y => exact (hvs _ hmem).elim
    | _ =>
      rw [hother _ rfl] at htest
      cases htest
  · rintro ⟨i, hmem, htest⟩
    exact ⟨_, hmem, htest⟩

theorem inAgrees_float {y : Serde.Finite α} {values : List (Literal α)}
    (hvs : ∀ value ∈ values, Plain value) :
    ((∃ value ∈ values, valuesEqual (jsonValueToLiteral (.float y)) value = true) ↔
      ∃ value ∈ values, compareLiterals .eq (jsonValueToLiteral (.float y)) value = true) ↔
    InAgrees (.float y) values := by
  have hclose : (∃ value ∈ values, valuesEqual (jsonValueToLiteral (.float y)) value = true) ↔
      ∃ i, .integer i ∈ values ∧ closeTo y.1 (F64.ofInt i) = true := by
    rw [exists_integer hvs fun value hvalue => valuesEqual_mixed rfl hvalue]
    simp only [valuesEqual_numbers (a := jsonValueToLiteral (.float y)) (b := .integer _) rfl rfl]
  have hequal : (∃ value ∈ values,
        compareLiterals .eq (jsonValueToLiteral (.float y)) value = true) ↔
      ∃ i, .integer i ∈ values ∧ F64Math.eq y.1 (F64.ofInt i) = true := by
    rw [exists_integer hvs fun value hvalue => compareLiterals_right hvalue _ _]
    refine exists_congr fun i => and_congr_right fun hmem => ?_
    rw [compareLiterals_float y (hvs _ hmem)]
  rw [hclose, hequal]
  constructor
  · exact Iff.mp
  · intro h
    refine ⟨h, fun ⟨i, hi, heq⟩ => ⟨i, hi, ?_⟩⟩
    have hplain : i.natAbs ≤ 2 ^ 53 := hvs _ hi
    exact IntegerF64.close_of_eq _ _ y.2 (IntegerF64.finite_ofInt i (by omega)) heq

omit [F64 α] [F64Math α] [IntegerF64 α] in
theorem debugEqual_iff {a b : Literal α} (ha : ∀ i, a ≠ .integer i) (ha' : ∀ x, a ≠ .float x) :
    debugEqual a b = true ↔ b = a := by
  cases a with
  | integer i => exact absurd rfl (ha i)
  | float x => exact absurd rfl (ha' x)
  | string s => cases b <;> grind [debugEqual]
  | boolean c => cases b <;> grind [debugEqual]
  | null => cases b <;> simp [debugEqual]

omit [IntegerF64 α] in
/-- What is no number is equal to what has the same text, and compares as `false`. -/
theorem inAgrees_other {x : Value α} {values : List (Literal α)} (hx : numberOf x = none) :
    ((∃ value ∈ values, valuesEqual (jsonValueToLiteral x) value = true) ↔
      ∃ value ∈ values, compareLiterals .eq (jsonValueToLiteral x) value = true) ↔
    InAgrees x values := by
  have hnone : ¬ ∃ value ∈ values, compareLiterals .eq (jsonValueToLiteral x) value = true := by
    simp [compareLiterals_left hx]
  have hdebug : ∀ value, debugEqual (jsonValueToLiteral x) value = true ↔
      value = jsonValueToLiteral x := fun value => by
    refine debugEqual_iff (fun i hi => ?_) fun y hy => ?_
    · rw [numberOf, hi] at hx
      cases hx
    · rw [numberOf, hy] at hx
      cases hx
  simp only [hnone, valuesEqual_left hx, hdebug, exists_eq_right, iff_false]
  cases x with
  | nat n => simp [(numberOf_integer (x := .nat n) rfl).1] at hx
  | neg n => cases hx
  | float y => cases hx
  | _ => rfl

theorem inLaw_iff {values : List (Literal α)} (hvs : ∀ value ∈ values, Plain value) :
    InLaw result field values ↔
      ∀ x, fieldValue result field = some x → InAgrees x values := by
  cases hx : fieldValue result field with
  | none => simp [InLaw, not_compares hx, evaluatePredicate, extractFieldValue_eq, hx]
  | some x =>
    simp only [InLaw, isIn_iff hx, compares_iff hx, Option.some.injEq, forall_eq']
    rcases number_cases x with ⟨j, hj⟩ | ⟨y, rfl⟩ | hnone
    · have hsame : ∀ value ∈ values, valuesEqual (jsonValueToLiteral x) value =
          compareLiterals .eq (jsonValueToLiteral x) value :=
        fun value hmem => valuesEqual_integer hj (hvs value hmem)
      have hagrees : InAgrees x values := by
        cases x <;> first | exact True.intro | cases hj
      simp only [hagrees, iff_true]
      exact exists_congr fun value => and_congr_right fun hmem => by rw [hsame value hmem]
    · exact inAgrees_float hvs
    · exact inAgrees_other hnone

omit [IntegerF64 α] in
theorem betweenLaw (low high : Literal α) : BetweenLaw result field low high := by
  cases hx : fieldValue result field with
  | none => simp [BetweenLaw, not_compares hx, evaluatePredicate, extractFieldValue_eq, hx]
  | some x => simp [BetweenLaw, compares_iff hx, evaluatePredicate, extractFieldValue_eq, hx]

omit [IntegerF64 α] in
/-- Of two strings every comparison is `false`, and one of them should hold. -/
theorem orderLaw_iff {value : Literal α} :
    OrderLaw result field value ↔
      ∀ s t, fieldValue result field = some (.str s) → value ≠ .string t := by
  constructor
  · rintro h s t hx rfl
    obtain ⟨_, _, hle, hge⟩ := h s t hx rfl
    have hfalse : ∀ operator, ¬ Compares result field operator (.string t) := fun operator => by
      rw [compares_iff hx, compareLiterals_left rfl]
      exact Bool.false_ne_true
    rcases String.le_total s t with hst | hts
    · exact hfalse .lte (hle.mpr hst)
    · exact hfalse .gte (hge.mpr hts)
  · exact fun h s t hx hv => absurd hv (h s t hx)

/-- What the field is, where the laws hold of a comparison with `value` and of a list. -/
def Agrees (x : Value α) (value : Literal α) (values : List (Literal α)) : Prop :=
  ∃ i, value = .integer i ∧
    ((∃ j, integerOf x = some j ∧ ¬ RoundedTo j i) ∨
      ∃ y, x = .float y ∧ F64Math.eq y.1 (F64.ofInt i) = false ∧
        ((∃ k, .integer k ∈ values ∧ closeTo y.1 (F64.ofInt k) = true) →
          ∃ k, .integer k ∈ values ∧ F64Math.eq y.1 (F64.ofInt k) = true))

/-- The laws hold exactly where the field is absent, or a number and compared with an
integer, as long as an integer field is not rounded to another integer and a float field is
not equal to the integer and close to a listed one only if it is equal to one. -/
theorem language_laws_iff (result : ScoredResult α β) (field : String) {value : Literal α}
    {values : List (Literal α)} {low high : Literal α} (hv : Plain value)
    (hvs : ∀ value ∈ values, Plain value) :
    LanguageLaws result field value values low high ↔
      ∀ x, fieldValue result field = some x → Agrees x value values := by
  constructor
  · intro h x hx
    have heq := (eqLaw_iff hv).mp h.eq x hx
    have hin := (inLaw_iff hvs).mp h.isIn x hx
    obtain ⟨hnum, hval⟩ := neqLaw_iff.mp h.neq x hx
    cases value with
    | integer i =>
      refine ⟨i, rfl, ?_⟩
      rcases number_cases x with ⟨j, hj⟩ | ⟨y, rfl⟩ | hnone
      · exact .inl ⟨j, hj, heq.1 j hj⟩
      · exact .inr ⟨y, rfl, heq.2 y rfl, hin⟩
      · rw [hnone] at hnum
        cases hnum
    | float y => exact hv.elim
    | _ => cases hval
  · intro h
    refine ⟨(eqLaw_iff hv).mpr fun x hx => ?_, neqLaw_iff.mpr fun x hx => ?_,
      (inLaw_iff hvs).mpr fun x hx => ?_, betweenLaw low high,
      orderLaw_iff.mpr fun s t hx => ?_⟩
    · obtain ⟨i, rfl, ⟨j, hj, hround⟩ | ⟨y, rfl, heq, _⟩⟩ := h x hx
      · refine ⟨fun k hk => ?_, ?_⟩
        · rw [hj] at hk
          cases hk
          exact hround
        · rintro y rfl
          cases hj
      · refine ⟨fun k hk => (nomatch hk), ?_⟩
        rintro z ⟨⟩
        exact heq
    · obtain ⟨i, rfl, ⟨j, hj, _⟩ | ⟨y, rfl, _⟩⟩ := h x hx
      · exact ⟨by rw [(numberOf_integer hj).1]; rfl, rfl⟩
      · exact ⟨rfl, rfl⟩
    · obtain ⟨i, rfl, ⟨j, hj, _⟩ | ⟨y, rfl, _, hin⟩⟩ := h x hx
      · cases x <;> first | exact True.intro | cases hj
      · exact hin
    · obtain ⟨i, rfl, _⟩ := h _ hx
      exact fun hv => nomatch hv

end Evaluate

/-! ## Two fields -/

/-- A result with the metadata `{"field": x}`. -/
def withField (field : String) (x : Value α) : ScoredResult α Lit :=
  ⟨0, .fin 0, some (.obj [(field, x)])⟩

/-- `cuisine = 'thai'` does not hold of a Thai dish. -/
theorem string_not_equal :
    ¬ LanguageLaws (withField (α := Lit) "cuisine" (.str "thai")) "cuisine" (.string "thai") []
      .null .null := by
  intro h
  have hfield : fieldValue (withField (α := Lit) "cuisine" (.str "thai")) "cuisine" =
      some (.str "thai") := rfl
  have hcompares := h.eq.mpr ⟨_, hfield, rfl⟩
  rw [compares_iff hfield, compareLiterals_left rfl] at hcompares
  cases hcompares

theorem closeTo_dbl (x y : Dbl) : closeTo x y = true ↔ |x.val - y.val| < 1 / 2 ^ 52 := by
  have heps : (epsilon : Dbl).val = 1 / 2 ^ 52 := by
    have hone : roundInt 1 = 1 := by decide
    have hpow : roundInt (2 ^ 52) = 2 ^ 52 := by decide
    simp only [epsilon, F64.div, F64.ofInt, hone, hpow]
    norm_num
  rw [← heps]
  simp only [closeTo, F64.sub, F64.lt, F64.zero, decide_eq_true_eq, zero_sub]
  split
  · next hneg => rw [abs_of_neg hneg]
  · next hpos => rw [abs_of_nonneg (not_lt.mp hpos)]

theorem eq_dbl (x y : Dbl) : F64Math.eq x y = true ↔ x.val = y.val := by
  simp only [F64Math.eq, F64Math.le, Bool.and_eq_true, decide_eq_true_eq]
  exact le_antisymm_iff.symm

instance : IntegerF64 Dbl where
  le_ofInt i j _ _ := by simp [F64Math.le, F64.ofInt]
  close_ofInt i j _ _ := by
    rw [closeTo_dbl]
    constructor
    · intro h
      have hlt : |roundInt i - roundInt j| < 1 := by
        have hsmall : ((|roundInt i - roundInt j| : Int) : ℚ) < 1 := by
          push_cast
          exact h.trans (by norm_num)
        exact_mod_cast hsmall
      have hzero := Int.abs_lt_one_iff.mp hlt
      omega
    · intro h
      simp [F64.ofInt, h]
  close_of_eq x y _ _ h := by
    rw [closeTo_dbl, (eq_dbl x y).mp h]
    simp
  finite_ofInt _ _ := rfl
  le_total x y _ _ := by simpa [F64Math.le] using le_total x.val y.val

/-- The year 2020 and the conditions `= 2020`, `IN (2019, 2020)`. -/
theorem integer_field_laws :
    LanguageLaws (withField (α := Dbl) "year" (.nat 2020)) "year" (.integer 2020)
      [.integer 2019, .integer 2020] (.integer 2000) (.integer 2030) := by
  have hfield : fieldValue (withField (α := Dbl) "year" (.nat 2020)) "year" =
      some (.nat 2020) := rfl
  refine (language_laws_iff _ "year" ?_ ?_).mpr fun x hx => ?_
  · simp [Plain]
  · simp [Plain]
  · rw [hfield] at hx
    cases hx
    exact ⟨2020, rfl, .inl ⟨2020, rfl, by decide⟩⟩

end Tesseract.L5.Vql
