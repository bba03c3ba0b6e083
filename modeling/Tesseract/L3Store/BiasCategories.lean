import Tesseract.L3Store.BiasExact

/-!
# Shifts of categories over all vectors

A field that is tracked twice counts its vectors twice, which changes no mean.

* `CentroidTracker.tracks`: the tracker behind any updates.
* `meanAt_inCategory`: the mean of a category, however often its field is tracked.
* `CentroidTracker.delta_means`: a shift is a difference of means, in any order of updates.
-/
namespace Tesseract.L3

/-- The vectors whose metadata have the string in the field. -/
def withCategory {α : Type} [F64 α] (rows : List (Row α)) (field value : String) :
    List (List α) :=
  (rows.filter fun r => categoryOf r.2 field = some value).map Prod.fst

theorem withCategory_eq_nil {α : Type} [F64 α] {rows : List (Row α)} {field value : String} :
    withCategory rows field value = [] ↔ ∀ r ∈ rows, categoryOf r.2 field ≠ some value := by
  simp [withCategory, List.filter_eq_nil_iff]

namespace CentroidTracker

variable {α : Type} [F64 α]

/-- Update after update. -/
def updates (t : CentroidTracker α) (fields : List String) (rows : List (Row α)) :
    CentroidTracker α :=
  rows.foldl (fun t r => t.update r.1 r.2 fields) t

theorem Tracks.updates {t : CentroidTracker α} {dim : Nat} {fields : List String}
    {rows : List (Row α)} (h : t.Tracks dim fields rows) (more : List (Row α)) :
    (t.updates fields more).Tracks dim fields (rows ++ more) := by
  induction more generalizing t rows with
  | nil =>
    rw [List.append_nil]
    exact h
  | cons r more ih =>
    rw [← List.singleton_append, ← List.append_assoc]
    exact ih (h.update r)

theorem tracks (dim : Nat) (fields : List String) (rows : List (Row α)) :
    ((new dim : CentroidTracker α).updates fields rows).Tracks dim fields rows :=
  (tracks_new dim fields).updates rows

end CentroidTracker

/-! ## Means of categories -/

variable {K : Type} [Field K] [LinearOrder K]

/-- Every vector of a category is in it as often as the field is tracked. -/
theorem inCategory_cons (fields : List String) (r : Row K) (rows : List (Row K))
    (field value : String) :
    inCategory fields (r :: rows) field value =
      (if categoryOf r.2 field = some value then List.replicate (fields.count field) r.1 else []) ++
        inCategory fields rows field value := by
  rw [inCategory, inCategory, List.flatMap_cons]

theorem withCategory_cons (r : Row K) (rows : List (Row K)) (field value : String) :
    withCategory (r :: rows) field value =
      (if categoryOf r.2 field = some value then [r.1] else []) ++
        withCategory rows field value := by
  by_cases h : categoryOf r.2 field = some value <;> simp [withCategory, h]

theorem length_inCategory (fields : List String) (rows : List (Row K)) (field value : String) :
    (inCategory fields rows field value).length =
      fields.count field * (withCategory rows field value).length := by
  induction rows with
  | nil => rfl
  | cons r rows ih =>
    rw [inCategory_cons, withCategory_cons, List.length_append, List.length_append, ih, Nat.mul_add]
    by_cases h : categoryOf r.2 field = some value <;> simp [h]

theorem total_inCategory (d : Nat) (fields : List String) (rows : List (Row K))
    (field value : String) :
    total d (inCategory fields rows field value) =
      fields.count field * total d (withCategory rows field value) := by
  induction rows with
  | nil => simp [inCategory, withCategory, total]
  | cons r rows ih =>
    rw [inCategory_cons, withCategory_cons, total_append, total_append, ih, mul_add]
    by_cases h : categoryOf r.2 field = some value
    · rw [if_pos h, if_pos h, total_replicate]
      simp [total]
    · rw [if_neg h, if_neg h]
      simp [total]

theorem meanAt_inCategory [IsStrictOrderedRing K] (d : Nat) {fields : List String}
    (rows : List (Row K)) {field : String} (value : String) (hmem : field ∈ fields) :
    meanAt d (inCategory fields rows field value) = meanAt d (withCategory rows field value) := by
  have hcount : (fields.count field : K) ≠ 0 := by
    exact_mod_cast (List.count_pos_iff.mpr hmem).ne'
  rw [meanAt_eq, meanAt_eq, total_inCategory, length_inCategory, Nat.cast_mul,
    mul_div_mul_left _ _ hcount]

theorem withCategory_perm {rows rows' : List (Row K)} (h : rows'.Perm rows)
    (field value : String) :
    (withCategory rows' field value).Perm (withCategory rows field value) :=
  (h.filter _).map _

namespace CentroidTracker

/-- What a shift is behind the updates with `rows`. -/
def meanShift (dim : Nat) (rows : List (Row K)) (field value : String) : Option (List K) :=
  if withCategory rows field value = [] then none
  else some ((List.range dim).map fun d =>
    meanAt d (withCategory rows field value) - meanAt d (rows.map Prod.fst))

theorem meanShift_perm (dim : Nat) {rows rows' : List (Row K)} (h : rows'.Perm rows)
    (field value : String) : meanShift dim rows' field value = meanShift dim rows field value := by
  have hperm := withCategory_perm h field value
  have hnil : withCategory rows' field value = [] ↔ withCategory rows field value = [] :=
    ⟨fun heq => List.Perm.eq_nil (heq ▸ hperm.symm), fun heq => List.Perm.eq_nil (heq ▸ hperm)⟩
  unfold meanShift
  simp only [hnil, meanAt_perm _ hperm, meanAt_perm _ (h.map Prod.fst)]

/-- The shift of a tracked field is a difference of means, and there is none exactly when no
metadata have the string in the field. The order of the updates does not matter. -/
theorem delta_means [IsStrictOrderedRing K] (dim : Nat) {fields : List String}
    {rows : List (Row K)} {field : String} (value : String) (hmem : field ∈ fields)
    (hroom : fields.count field * rows.length < 2 ^ 64) :
    (((new dim : CentroidTracker K).updates fields rows).delta field value = none ↔
        ∀ r ∈ rows, categoryOf r.2 field ≠ some value) ∧
      ((new dim : CentroidTracker K).updates fields rows).delta field value =
        meanShift dim rows field value ∧
      ∀ rows' : List (Row K), rows'.Perm rows →
        ((new dim : CentroidTracker K).updates fields rows').delta field value =
          ((new dim : CentroidTracker K).updates fields rows).delta field value := by
  have hcount : 1 ≤ fields.count field := List.count_pos_iff.mpr hmem
  have hdelta : ∀ rows' : List (Row K), rows'.length = rows.length →
      ((new dim : CentroidTracker K).updates fields rows').delta field value =
        meanShift dim rows' field value := by
    intro rows' hlen
    have hle : (withCategory rows' field value).length ≤ rows'.length := by
      rw [withCategory, List.length_map]
      exact List.length_filter_le _ _
    have hcat : (inCategory fields rows' field value).length < 2 ^ 64 := by
      rw [length_inCategory]
      refine lt_of_le_of_lt (Nat.mul_le_mul_left _ hle) ?_
      rw [hlen]
      exact hroom
    have hrows : rows'.length < 2 ^ 64 := by
      rw [hlen]
      exact lt_of_le_of_lt (Nat.le_mul_of_pos_left _ hcount) hroom
    have hnil : inCategory fields rows' field value = [] ↔ withCategory rows' field value = [] := by
      rw [← List.length_eq_zero_iff, ← List.length_eq_zero_iff, length_inCategory, Nat.mul_eq_zero]
      omega
    rw [delta_eq (tracks dim fields rows') hrows hcat]
    simp only [hnil, meanShift, meanAt_inCategory _ rows' value hmem]
  refine ⟨?_, hdelta rows rfl, ?_⟩
  · rw [hdelta rows rfl, ← withCategory_eq_nil, meanShift]
    split
    · next hnil => simp [hnil]
    · next hnil => simp [hnil]
  · intro rows' hperm
    rw [hdelta rows' hperm.length_eq, hdelta rows rfl, meanShift_perm dim hperm]

/-- Two vectors in the category and one in none, with the field listed twice. -/
def threePapers : List (Row ℚ) :=
  [([1, 0], .obj [("topic", .str "physics")]), ([3, 1], .obj [("topic", .str "physics")]),
    ([0, 2], .null)]

example : meanShift 2 threePapers "topic" "physics" = some [2 / 3, -1 / 2] := by decide +kernel

theorem threePapers_delta :
    (((new 2 : CentroidTracker ℚ).updates ["topic", "topic"] threePapers).delta "topic" "physics" =
        none ↔ ∀ r ∈ threePapers, categoryOf r.2 "topic" ≠ some "physics") ∧
      ((new 2 : CentroidTracker ℚ).updates ["topic", "topic"] threePapers).delta "topic" "physics" =
        meanShift 2 threePapers "topic" "physics" ∧
      ∀ rows' : List (Row ℚ), rows'.Perm threePapers →
        ((new 2 : CentroidTracker ℚ).updates ["topic", "topic"] rows').delta "topic" "physics" =
          ((new 2 : CentroidTracker ℚ).updates ["topic", "topic"] threePapers).delta
            "topic" "physics" :=
  delta_means 2 "physics" (by decide) (by decide)

end CentroidTracker

end Tesseract.L3
