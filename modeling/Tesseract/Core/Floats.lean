import Mathlib.Algebra.Group.Int.Defs
import Mathlib.Algebra.Group.Nat.Defs

/-!
# Floating point

The operations on `f64` and `f32` the code uses, as classes: the model is
generic in the number types. Laws are asked for where a proof needs them.

`Lit` is a small instance for concrete runs: integers, infinities and NaN. On
integers below 2^24 its operations are those of IEEE 754.
-/
namespace Tesseract

class F64 (α : Type) where
  zero : α
  add : α → α → α
  sub : α → α → α
  mul : α → α → α
  div : α → α → α
  lt : α → α → Bool
  isFinite : α → Bool
  /-- `u64 as f64`, and an integer read where an `f64` is expected -/
  ofInt : Int → α

/-- The operations on `f64` that only the correlations use. -/
class F64Math (α : Type) where
  /-- `a <= b` -/
  le : α → α → Bool
  sqrt : α → α

/-- The operations on `f64` that only the planner and the executor of queries use. -/
class F64Plan (α : Type) where
  ln : α → α
  ceil : α → α
  /-- `x as usize`: towards zero, saturating, 0 for a NaN -/
  toUsize : α → Nat
  /-- `format!("{x:.1}")` -/
  fixed1 : α → String

/-- `str::parse::<f64>` and `Display`. -/
class F64Text (α : Type) where
  parse : List Char → Option α
  display : α → List Char

/-- `a == b` -/
def F64Math.eq {α : Type} [F64Math α] (a b : α) : Bool := le a b && le b a

/-- `a.partial_cmp(&b)` -/
def F64Math.partialCmp {α : Type} [F64Math α] (a b : α) : Option Ordering :=
  match le a b, le b a with
  | false, false => none
  | false, true => some .gt
  | true, false => some .lt
  | true, true => some .eq

/-- `x.clamp(lo, hi)` -/
def F64.clamp {α : Type} [F64 α] (lo hi x : α) : α :=
  let x := if lt x lo then lo else x
  if lt hi x then hi else x

/-- `<` and `<=` of `f64` go together; a NaN is neither below nor above anything. -/
class OrderF64 (α : Type) [F64 α] [F64Math α] : Prop where
  le_of_lt : ∀ a b : α, F64.lt a b = true → F64Math.le a b = true
  lt_of_le_of_lt : ∀ a b c : α, F64Math.le a b = true → F64.lt b c = true → F64.lt a c = true

class F32 (β : Type) where
  zero : β
  one : β
  add : β → β → β
  sub : β → β → β
  mul : β → β → β
  div : β → β → β
  sqrt : β → β
  /-- `none` when one of the two is NaN -/
  partialCmp : β → β → Option Ordering
  /-- `u64 as f32` -/
  ofNat : Nat → β
  /-- the literal `0.01_f32` -/
  centi : β
  /-- `to_le_bytes` -/
  toLeBytes : β → List UInt8

/-- `x as f32` -/
class Narrow (α β : Type) where
  toF32 : α → β

/-- `x as f64` -/
class Widen (β α : Type) where
  toF64 : β → α

namespace F32

variable {β : Type} [F32 β]

/-- `a < b` -/
def lt (a b : β) : Bool := partialCmp a b == some .lt

/-- `a > b` -/
def gt (a b : β) : Bool := partialCmp a b == some .gt

/-- `a == b` -/
def eq (a b : β) : Bool := partialCmp a b == some .eq

/-- A number that compares with itself. -/
def isNaN (a : β) : Bool := (partialCmp a a).isNone

/-- `iter().sum()` -/
def sum (xs : List β) : β := xs.foldl add zero

end F32

/-- What the proofs use of `f32` comparison: `<` is a strict order, and only a
NaN is incomparable. -/
class LawfulF32 (β : Type) [F32 β] : Prop where
  lt_irrefl : ∀ a : β, F32.lt a a = false
  lt_trans : ∀ a b c : β, F32.lt a b = true → F32.lt b c = true → F32.lt a c = true
  partialCmp_some : ∀ a b : β, F32.isNaN a = false → F32.isNaN b = false →
    (F32.partialCmp a b).isSome = true

/-- Comparing the other way round gives the opposite answer. -/
class SwapF32 (β : Type) [F32 β] : Prop where
  partialCmp_swap : ∀ a b : β, F32.partialCmp b a = (F32.partialCmp a b).map Ordering.swap

namespace F32

variable {β : Type} [F32 β]

/-- `a <= b` -/
def le (a b : β) : Bool := partialCmp a b == some .lt || partialCmp a b == some .eq

end F32

/-- `<=` is transitive; a NaN is below nothing. -/
class OrderF32 (β : Type) [F32 β] : Prop where
  le_trans : ∀ a b c : β, F32.le a b = true → F32.le b c = true → F32.le a c = true

namespace F32

variable {β : Type} [F32 β]

theorem lt_iff {a b : β} : lt a b = true ↔ partialCmp a b = some .lt := by simp [lt]

theorem gt_iff {a b : β} : gt a b = true ↔ partialCmp a b = some .gt := by simp [gt]

theorem le_iff {a b : β} :
    le a b = true ↔ partialCmp a b = some .lt ∨ partialCmp a b = some .eq := by
  simp [le]

theorem partialCmp_self [LawfulF32 β] {a : β} (ha : isNaN a = false) :
    partialCmp a a = some .eq ∨ partialCmp a a = some .gt := by
  have hsome := LawfulF32.partialCmp_some a a ha ha
  have hirrefl := LawfulF32.lt_irrefl a
  cases hc : partialCmp a a with
  | none => rw [hc] at hsome; cases hsome
  | some o =>
    cases o with
    | lt => rw [lt_iff.mpr hc] at hirrefl; cases hirrefl
    | eq => exact .inl rfl
    | gt => exact .inr rfl

theorem le_refl [LawfulF32 β] [SwapF32 β] {a : β} (ha : isNaN a = false) : le a a = true := by
  rcases partialCmp_self ha with h | h
  · exact le_iff.mpr (.inr h)
  · have hswap := SwapF32.partialCmp_swap a a
    rw [h] at hswap
    cases hswap

/-- Where neither is NaN, `a <= b` unless `a > b`. -/
theorem le_iff_not_gt [LawfulF32 β] {a b : β} (ha : isNaN a = false) (hb : isNaN b = false) :
    le a b = true ↔ gt a b = false := by
  have hsome := LawfulF32.partialCmp_some a b ha hb
  rw [le_iff, Bool.eq_false_iff, ne_eq, gt_iff]
  cases hc : partialCmp a b with
  | none => rw [hc] at hsome; cases hsome
  | some o => cases o <;> simp

theorem gt_iff_lt [SwapF32 β] {a b : β} : gt a b = true ↔ lt b a = true := by
  rw [gt_iff, lt_iff, SwapF32.partialCmp_swap a b]
  cases partialCmp a b with
  | none => simp
  | some o => cases o <;> simp

theorem le_total [LawfulF32 β] [SwapF32 β] {a b : β} (ha : isNaN a = false)
    (hb : isNaN b = false) : le a b = true ∨ le b a = true := by
  rw [le_iff_not_gt ha hb, le_iff_not_gt hb ha, Bool.eq_false_iff, Bool.eq_false_iff, ne_eq, ne_eq,
    gt_iff, gt_iff, SwapF32.partialCmp_swap a b]
  cases partialCmp a b with
  | none => simp
  | some o => cases o <;> simp

/-- Where neither is NaN, `a <= b` unless `b < a`. -/
theorem le_iff_not_lt [LawfulF32 β] [SwapF32 β] {a b : β} (ha : isNaN a = false)
    (hb : isNaN b = false) : le a b = true ↔ lt b a = false := by
  rw [le_iff_not_gt ha hb, Bool.eq_false_iff, Bool.eq_false_iff, ne_eq, ne_eq, gt_iff_lt]

end F32

/-! ## Integers, infinities and NaN -/

inductive Lit where
  | nan
  | inf (negative : Bool)
  | fin (n : Int)
  deriving DecidableEq, Repr

namespace Lit

def neg : Lit → Lit
  | nan => nan
  | inf s => inf !s
  | fin n => fin (-n)

def add : Lit → Lit → Lit
  | nan, _ => nan
  | _, nan => nan
  | inf s, inf t => if s = t then inf s else nan
  | inf s, fin _ => inf s
  | fin _, inf t => inf t
  | fin n, fin m => fin (n + m)

def sign : Lit → Int
  | nan => 0
  | inf s => if s then -1 else 1
  | fin n => n.sign

def mul : Lit → Lit → Lit
  | nan, _ => nan
  | _, nan => nan
  | fin n, fin m => fin (n * m)
  | a, b => if a.sign * b.sign = 0 then nan else inf (a.sign * b.sign < 0)

/-- Exact where `b` divides `a`. -/
def div : Lit → Lit → Lit
  | nan, _ => nan
  | _, nan => nan
  | inf _, inf _ => nan
  | inf s, b => inf (s != decide (b.sign < 0))
  | fin _, inf _ => fin 0
  | fin n, fin m => if m = 0 then (if n = 0 then nan else inf (n < 0)) else fin (n / m)

/-- Exact on squares. -/
def sqrt : Lit → Lit
  | nan => nan
  | inf s => if s then nan else inf false
  | fin n => if n < 0 then nan else fin n.toNat.sqrt

def partialCmp : Lit → Lit → Option Ordering
  | nan, _ => none
  | _, nan => none
  | fin n, fin m => some (compare n m)
  | inf s, inf t => some (if s = t then .eq else if s then .lt else .gt)
  | inf s, fin _ => some (if s then .lt else .gt)
  | fin _, inf t => some (if t then .gt else .lt)

/-- `to_le_bytes` of the integers in use is not needed bit by bit. -/
def toLeBytes : Lit → List UInt8
  | nan => [0, 0, 192, 127]
  | inf s => [0, 0, 128, if s then 255 else 127]
  | fin n => [UInt8.ofNat n.natAbs, UInt8.ofNat (n.natAbs / 256), UInt8.ofNat (n.natAbs / 65536),
    if n < 0 then 1 else 0]

instance : F64 Lit where
  zero := fin 0
  add := add
  sub a b := add a (neg b)
  mul := mul
  div := div
  lt a b := partialCmp a b == some .lt
  isFinite
    | fin _ => true
    | _ => false
  ofInt := fin

instance : F64Math Lit where
  le a b := partialCmp a b == some .lt || partialCmp a b == some .eq
  sqrt := sqrt

instance : OrderF64 Lit where
  le_of_lt a b h := by
    show (partialCmp a b == some .lt || partialCmp a b == some .eq) = true
    rw [show (partialCmp a b == some .lt) = true from h, Bool.true_or]
  lt_of_le_of_lt a b c := by
    cases a <;> cases b <;> cases c <;>
      simp only [F64Math.le, F64.lt, partialCmp, Bool.or_eq_true, beq_iff_eq, Option.some.injEq,
        reduceCtorEq, or_self, false_implies, implies_true, Int.compare_eq_lt,
        Int.compare_eq_eq] <;> grind

/-- `ln` is exact at 1. -/
instance : F64Plan Lit where
  ln
    | fin n => fin n.toNat.log2
    | a => a
  ceil := id
  toUsize
    | nan => 0
    | inf s => if s then 0 else 2 ^ 64 - 1
    | fin n => min n.toNat (2 ^ 64 - 1)
  fixed1
    | nan => "NaN"
    | inf s => if s then "-inf" else "inf"
    | fin n => toString n ++ ".0"

/-- Decimals without a fraction. -/
instance : F64Text Lit where
  parse w :=
    if ((w.dropWhile (· != '.')).drop 1).all (· == '0') then
      some (fin (Nat.ofDigitChars 10 (w.takeWhile (· != '.')) 0))
    else none
  display
    | nan => "NaN".toList
    | inf s => if s then "-inf".toList else "inf".toList
    | fin n => (toString n).toList

instance : F32 Lit where
  zero := fin 0
  one := fin 1
  add := add
  sub a b := add a (neg b)
  mul := mul
  div := div
  sqrt := sqrt
  partialCmp := partialCmp
  ofNat n := fin n
  centi := fin 0
  toLeBytes := toLeBytes

instance : Narrow Lit Lit where
  toF32 := id

instance : Widen Lit Lit where
  toF64 := id

instance : LawfulF32 Lit where
  lt_irrefl a := by
    cases a with
    | nan => rfl
    | inf s => cases s <;> rfl
    | fin n => simp [F32.lt, F32.partialCmp, partialCmp]
  lt_trans a b c := by
    cases a <;> cases b <;> cases c <;>
      simp only [F32.lt, F32.partialCmp, partialCmp, beq_iff_eq, Option.some.injEq, reduceCtorEq,
        false_implies, implies_true, Int.compare_eq_lt] <;> grind
  partialCmp_some a b := by
    cases a <;> cases b <;> simp [F32.isNaN, F32.partialCmp, partialCmp]

instance : SwapF32 Lit where
  partialCmp_swap a b := by
    cases a with
    | nan => cases b <;> rfl
    | inf s =>
      cases b with
      | nan => rfl
      | inf t => cases s <;> cases t <;> rfl
      | fin m => cases s <;> rfl
    | fin n =>
      cases b with
      | nan => rfl
      | inf t => cases t <;> rfl
      | fin m => exact congrArg some (Int.compare_swap n m).symm

instance : OrderF32 Lit where
  le_trans a b c := by
    cases a <;> cases b <;> cases c <;>
      simp only [F32.le, F32.partialCmp, partialCmp, Bool.or_eq_true, beq_iff_eq,
        Option.some.injEq, reduceCtorEq, or_self, false_implies, implies_true, Int.compare_eq_lt,
        Int.compare_eq_eq] <;> grind

end Lit

end Tesseract
