import Tesseract.Core.Assoc
import Tesseract.Core.Decay
import Tesseract.Core.Exact

/-!
# The episodic memory

Model of `tesseract-core/src/episodic.rs`: every user has a footprint, which each click moves.
No lock is poisoned.

* `getFootprint_updates`: the footprint of a user is made by the clicks of that user alone.
* `getElem?_blend`: one click moves a component that both of its vectors have, and no other.
* `footprint_run`: in exact arithmetic a component is a decaying average of the products of
  the clicks, begun at the first vector that was clicked.
* `footprint_bounded`: it stays where the components of normalized vectors are.
-/
namespace Tesseract.L3

open Assoc

variable {α : Type} [F64 α]

/-- mirrors tesseract-core/src/episodic.rs:10-14 -/
structure UserFootprint (α : Type) where
  userId : String
  vector : List α
  interactionCount : UInt64

/-- mirrors tesseract-core/src/episodic.rs:20-23 -/
structure EpisodicMemory (α : Type) where
  footprints : Map String (UserFootprint α)

/-- A click on a result of a query. -/
structure Click (α : Type) where
  userId : String
  clicked : List α
  query : List α

namespace EpisodicMemory

/-- mirrors tesseract-core/src/episodic.rs:26-28 -/
def new : EpisodicMemory α := ⟨∅⟩

/-- mirrors tesseract-core/src/episodic.rs:31-37 -/
def getFootprint (m : EpisodicMemory α) (userId : String) : Option (List α) :=
  (m.footprints.lookup userId).map UserFootprint.vector

/-- `0.7f64` -/
def alpha : α := F64.div (F64.ofInt 7) (F64.ofInt 10)

/-- The loop over the components that both vectors have.
mirrors tesseract-core/src/episodic.rs:66-71 -/
def blend : List α → List α → List α
  | x :: vector, b :: bias =>
    F64.add (F64.mul alpha x) (F64.mul (F64.sub (F64.ofInt 1) alpha) b) :: blend vector bias
  | vector, _ => vector

/-- The count wraps around as in a release build.
mirrors tesseract-core/src/episodic.rs:43-76 -/
def updateFootprint (m : EpisodicMemory α) (userId : String) (clickedVector queryVector : List α) :
    EpisodicMemory α :=
  let entry := (m.footprints.lookup userId).getD ⟨userId, clickedVector, 0⟩
  let bias := List.zipWith F64.mul clickedVector queryVector
  let vector := if entry.vector.isEmpty then bias else blend entry.vector bias
  ⟨m.footprints.insert userId
    ⟨entry.userId, vector, entry.interactionCount + 1⟩⟩

def click (m : EpisodicMemory α) (c : Click α) : EpisodicMemory α :=
  m.updateFootprint c.userId c.clicked c.query

/-! ## One click -/

/-- The footprint of a user behind a click of that user. -/
def next (footprint : Option (List α)) (c : Click α) : List α :=
  let vector := footprint.getD c.clicked
  let bias := List.zipWith F64.mul c.clicked c.query
  if vector.isEmpty then bias else blend vector bias

theorem getFootprint_click (m : EpisodicMemory α) (c : Click α) (userId : String) :
    (m.click c).getFootprint userId =
      if c.userId = userId then some (next (m.getFootprint userId) c)
      else m.getFootprint userId := by
  unfold getFootprint click updateFootprint
  rw [lookup_insert_eq]
  by_cases h : c.userId = userId
  · subst h
    cases m.footprints.lookup c.userId <;> simp [next]
  · simp [h, Ne.symm h]

/-- The footprint of a user is made by the clicks of that user alone. -/
theorem getFootprint_updates (clicks : List (Click α)) (m : EpisodicMemory α)
    (userId : String) : (clicks.foldl click m).getFootprint userId =
      (clicks.filter fun c => c.userId = userId).foldl (fun f c => some (next f c))
        (m.getFootprint userId) := by
  induction clicks generalizing m with
  | nil => rfl
  | cons c clicks ih =>
    rw [List.foldl_cons, ih, getFootprint_click]
    by_cases h : c.userId = userId
    · simp [h]
    · simp [h]

/-! ## Components -/

theorem length_blend (vector bias : List α) : (blend vector bias).length = vector.length := by
  induction vector, bias using blend.induct with
  | case1 x vector b bias ih => simp [blend, ih]
  | case2 vector bias h => rw [blend]; simpa using h

/-- A component moves if the other vector has it. -/
theorem getElem?_blend (vector bias : List α) (i : Nat) : (blend vector bias)[i]? =
    vector[i]?.map fun x => bias[i]?.elim x fun b =>
      F64.add (F64.mul alpha x) (F64.mul (F64.sub (F64.ofInt 1) alpha) b) := by
  induction vector generalizing bias i with
  | nil => simp [blend]
  | cons x vector ih =>
    cases bias with
    | nil => simp [blend]
    | cons b bias =>
      cases i with
      | zero => simp [blend]
      | succ i => simp [blend, ih]

/-- What the clicks say about a component: the product, where both vectors have it. -/
def signals (i : Nat) (clicks : List (Click α)) : List α :=
  clicks.filterMap fun c => (List.zipWith F64.mul c.clicked c.query)[i]?

variable {K : Type} [Field K] [LinearOrder K]

/-- The clicks of one user, on a footprint that has components. -/
theorem own_run (clicks : List (Click K)) {f : List K} (hne : f ≠ []) :
    ∃ f', clicks.foldl (fun f c => some (next f c)) (some f) = some f' ∧
      f'.length = f.length ∧
      ∀ i, f'[i]? = f[i]?.map fun x => decayed (7 / 10) x (signals i clicks) := by
  induction clicks generalizing f with
  | nil => exact ⟨f, rfl, rfl, fun i => by simp [signals]⟩
  | cons c clicks ih =>
    have hnext : next (some f) c = blend f (List.zipWith F64.mul c.clicked c.query) := by
      simp [next, hne]
    have hlen : (next (some f) c).length = f.length := by rw [hnext, length_blend]
    obtain ⟨f', hrun, hlen', hget⟩ := ih (f := next (some f) c) (by
      intro hnil
      rw [hnil] at hlen
      exact hne (List.eq_nil_of_length_eq_zero hlen.symm))
    refine ⟨f', hrun, hlen'.trans hlen, fun i => ?_⟩
    rw [hget, hnext, getElem?_blend, Option.map_map]
    refine congrArg (fun g => f[i]?.map g) (funext fun x => ?_)
    cases hb : (List.zipWith F64.mul c.clicked c.query)[i]? with
    | none => simp [signals, hb]
    | some b => simp [signals, hb, alpha]

/-- After any clicks of any users, a component of the footprint of a user is the decaying
average of the products of that user's clicks, begun at the first vector that was clicked,
which must have had components. -/
theorem footprint_run (clicks : List (Click K)) {userId : String} {c : Click K}
    {cs : List (Click K)} (hown : (clicks.filter fun c => c.userId = userId) = c :: cs)
    (hne : c.clicked ≠ []) : ∃ f, (clicks.foldl click new).getFootprint userId = some f ∧
      f.length = c.clicked.length ∧
      ∀ i x, c.clicked[i]? = some x → f[i]? = some (
        (7 / 10) ^ (signals i (c :: cs)).length * x +
          (1 - 7 / 10) * decayingSum (7 / 10) (signals i (c :: cs))) := by
  have hfirst : next none c = next (some c.clicked) c := rfl
  obtain ⟨f, hrun, hlen, hget⟩ := own_run (c :: cs) hne
  refine ⟨f, ?_, hlen, fun i x hx => ?_⟩
  · rw [getFootprint_updates, hown]
    exact hrun
  · rw [hget, hx, Option.map_some, decayed_eq]

/-- Two clicks of one user, of which the second moves one component, and one of another. -/
def threeClicks : List (Click ℚ) :=
  [⟨"u", [1, 1 / 2], [1 / 2, -1]⟩, ⟨"v", [9 / 10], [1]⟩, ⟨"u", [1 / 2], [1, 1]⟩]

def ownClicks : List (Click ℚ) := [⟨"u", [1, 1 / 2], [1 / 2, -1]⟩, ⟨"u", [1 / 2], [1, 1]⟩]

theorem footprint_run_three : ∃ f, (threeClicks.foldl click new).getFootprint "u" = some f ∧
    f.length = 2 ∧ ∀ i x, [1, (1 / 2 : ℚ)][i]? = some x → f[i]? = some (
      (7 / 10) ^ (signals i ownClicks).length * x +
        (1 - 7 / 10) * decayingSum (7 / 10) (signals i ownClicks)) :=
  footprint_run threeClicks (c := ⟨"u", [1, 1 / 2], [1 / 2, -1]⟩) rfl (by simp)

/-! ## Components of normalized vectors -/

section Bounded

variable [IsStrictOrderedRing K]

/-- No component is longer than 1. -/
def Bounded (v : List K) : Prop := ∀ x ∈ v, -1 ≤ x ∧ x ≤ 1

omit [IsStrictOrderedRing K] in
theorem bounded_iff {v : List K} :
    Bounded v ↔ ∀ (i : Nat) (x : K), v[i]? = some x → -1 ≤ x ∧ x ≤ 1 := by
  simp only [Bounded, List.mem_iff_getElem?, forall_exists_index]
  exact forall_comm

theorem bounded_products {v w : List K} (hv : Bounded v) (hw : Bounded w) :
    Bounded (List.zipWith F64.mul v w) := by
  rw [bounded_iff] at hv hw ⊢
  intro i b hb
  obtain ⟨x, y, hx, hy, rfl⟩ := List.getElem?_zipWith_eq_some.mp hb
  have hxy : |x * y| ≤ 1 := by
    rw [abs_mul]
    exact mul_le_one₀ (abs_le.mpr (hv i x hx)) (abs_nonneg y) (abs_le.mpr (hw i y hy))
  exact abs_le.mp hxy

theorem bounded_blend {v w : List K} (hv : Bounded v) (hw : Bounded w) : Bounded (blend v w) := by
  rw [bounded_iff] at hv hw ⊢
  intro i x' hx'
  rw [getElem?_blend] at hx'
  obtain ⟨x, hx, rfl⟩ := Option.map_eq_some_iff.mp hx'
  cases hb : w[i]? with
  | none => exact hv i x hx
  | some b =>
    have hbias : ∀ y ∈ [b], -1 ≤ y ∧ y ≤ 1 := by simpa using hw i b hb
    have hmem := decayed_mem (a := (7 / 10 : K)) (by norm_num) (by norm_num) hbias (hv i x hx)
    simpa [alpha] using hmem

/-- As long as the vectors that are clicked and asked for have no component longer than 1, no
footprint has one. -/
theorem footprint_bounded (clicks : List (Click K))
    (h : ∀ c ∈ clicks, Bounded c.clicked ∧ Bounded c.query) {userId : String} {f : List K}
    (hf : (clicks.foldl click new).getFootprint userId = some f) : Bounded f := by
  induction clicks using List.reverseRecOn generalizing f with
  | nil => cases hf
  | append_singleton clicks c ih =>
    have hinit : ∀ f, (clicks.foldl click new).getFootprint userId = some f → Bounded f :=
      fun f => ih fun c hc => h c (List.mem_append_left _ hc)
    obtain ⟨hclicked, hquery⟩ := h c (by simp)
    rw [List.foldl_append, List.foldl_cons, List.foldl_nil, getFootprint_click] at hf
    split at hf
    · cases hf
      have hvector : Bounded (((clicks.foldl click new).getFootprint userId).getD c.clicked) := by
        cases hold : (clicks.foldl click new).getFootprint userId with
        | none => exact hclicked
        | some f => exact hinit f hold
      unfold next
      simp only
      split
      · exact bounded_products hclicked hquery
      · exact bounded_blend hvector (bounded_products hclicked hquery)
    · exact hinit f hf

omit [Field K] [LinearOrder K] [IsStrictOrderedRing K] in
theorem footprint_bounded_three :
    ∃ f, (threeClicks.foldl click new).getFootprint "u" = some f ∧ Bounded f := by
  have hsome : ((threeClicks.foldl click new).getFootprint "u").isSome = true := rfl
  obtain ⟨f, hf⟩ := Option.isSome_iff_exists.mp hsome
  refine ⟨f, hf, footprint_bounded threeClicks ?_ hf⟩
  simp [threeClicks, Bounded]
  norm_num

end Bounded

end EpisodicMemory

end Tesseract.L3
