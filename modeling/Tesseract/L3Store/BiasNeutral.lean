import Tesseract.L3Store.BiasCorrelation

/-!
# Neutral histories

The trackers shift nothing exactly when their history is neutral: no category and
no bucket has a mean of its own, and no correlation that can be asked for is left.

* `biasBy_still`: trackers whose answers vanish leave a query as it is.
* `Histories.neutral`, `Histories.still`: the two directions.
* `still_iff_neutral`: the trackers leave every query as it is exactly behind a
  neutral history.
-/
namespace Tesseract.L3

open Serde

variable {K : Type} [Field K] [LinearOrder K]

/-! ## Neutral histories -/

/-- The vectors of the numbers in the buckets' fields. -/
def numbersOf (bucketed : List (String × List K)) (rows : List (Row K)) : List (List K) :=
  rows.flatMap (numbersIn (bucketed.map Prod.fst))

/-- No category and no bucket has a mean of its own, and no numerical field that
can be asked for without the answer of a bucket has a correlation sum. -/
structure Neutral (dim : Nat) (categorical numerical : List String)
    (bucketed : List (String × List K)) (rows : List (Row K)) : Prop where
  categories : ∀ field value, inCategory categorical rows field value ≠ [] → ∀ d < dim,
    meanAt d (inCategory categorical rows field value) = meanAt d (rows.map Prod.fst)
  buckets : ∀ field bs idx, boundariesOf bucketed field = some bs →
    inBucket (numbered (bucketed.map Prod.fst) rows field) bs idx ≠ [] → ∀ d < dim,
    meanAt d (inBucket (numbered (bucketed.map Prod.fst) rows field) bs idx) =
      meanAt d (numbersOf bucketed rows)
  numbers : ∀ field stats,
    (∀ bs, boundariesOf bucketed field = some bs → bs.length ≠ 1) →
    statsOf dim (numbered numerical rows field) = some stats → ∀ x ∈ stats.dimCross, x = 0

/-- Nothing was inserted. -/
theorem neutral_nil (dim : Nat) (categorical numerical : List String)
    (bucketed : List (String × List K)) : Neutral dim categorical numerical bucketed [] := by
  refine ⟨?_, ?_, ?_⟩
  · intro field value hne
    exact absurd rfl hne
  · intro field bs idx _ hne
    exact absurd rfl hne
  · intro field stats _ hstats x hx
    cases hstats
    exact List.eq_of_mem_replicate hx

omit [Field K] [LinearOrder K] in
theorem length_flatMap_le {γ δ : Type} {f : γ → List δ} {k : Nat} (h : ∀ x, (f x).length ≤ k)
    (xs : List γ) : (xs.flatMap f).length ≤ xs.length * k := by
  induction xs with
  | nil => simp
  | cons x xs ih =>
    have := h x
    simp only [List.flatMap_cons, List.length_append, List.length_cons, Nat.add_mul]
    omega

theorem length_inCategory_le (fields : List String) (rows : List (Row K)) (field value : String) :
    (inCategory fields rows field value).length ≤ rows.length * fields.length := by
  apply length_flatMap_le
  intro r
  split
  · rw [List.length_replicate]
    exact List.count_le_length
  · simp

theorem length_observed_le (fields : List String) (r : Row K) (field : String) :
    (observed fields r field).length ≤ (numbersIn fields r).length := by
  induction fields with
  | nil => simp
  | cons f fields ih =>
    rw [observed_cons, NumericalBucketTracker.numbersIn_cons]
    cases numberOf r.2 f with
    | none => simpa using ih
    | some x =>
      by_cases hf : f = field <;> simp [hf] <;> omega

theorem length_numbersIn_le (fields : List String) (r : Row K) :
    (numbersIn fields r).length ≤ fields.length := by
  simpa [numbersIn] using List.length_filter_le _ _

theorem length_numbered_le (fields : List String) (rows : List (Row K)) (field : String) :
    (numbered fields rows field).length ≤ (rows.flatMap (numbersIn fields)).length := by
  induction rows with
  | nil => simp [numbered]
  | cons r rows ih =>
    have := length_observed_le fields r field
    simp only [numbered, List.flatMap_cons, List.length_append] at ih ⊢
    omega

theorem length_numbersIn_rows (fields : List String) (rows : List (Row K)) :
    (rows.flatMap (numbersIn fields)).length ≤ rows.length * fields.length :=
  length_flatMap_le (length_numbersIn_le fields) rows

/-- A number in a field is one for every list that tracks the field. -/
theorem numbered_ne_nil {fields fields' : List String} {rows : List (Row K)} {field : String}
    (hmem : field ∈ fields') (h : numbered fields rows field ≠ []) :
    numbered fields' rows field ≠ [] := by
  obtain ⟨o, ho⟩ := List.exists_mem_of_ne_nil _ h
  obtain ⟨r, hr, hobs⟩ := List.mem_flatMap.mp ho
  unfold observed at hobs
  cases hnum : numberOf r.2 field with
  | none =>
    rw [hnum] at hobs
    cases hobs
  | some x =>
    apply List.ne_nil_of_mem (a := (x, r.1))
    refine List.mem_flatMap.mpr ⟨r, hr, ?_⟩
    simp only [observed, hnum, List.mem_replicate, and_true]
    have := List.count_pos_iff.mpr hmem
    omega

omit [Field K] [LinearOrder K] in
theorem mem_of_boundariesOf {config : List (String × List K)} {field : String} {bs : List K}
    (h : boundariesOf config field = some bs) : field ∈ config.map Prod.fst := by
  induction config using List.reverseRecOn with
  | nil => cases h
  | append_singleton config b ih =>
    rw [NumericalBucketTracker.boundariesOf_concat] at h
    by_cases hf : b.1 = field
    · simp [hf]
    · rw [if_neg hf] at h
      have := ih h
      simp only [List.map_append, List.mem_append]
      exact .inl this

/-! ## Still trackers -/

section Still

variable [F64Math K] {c : CentroidTracker K} {r : CorrelationTracker K}
  {b : NumericalBucketTracker K}

/-- The trackers leave every query as it is. -/
def Still (c : CentroidTracker K) (r : CorrelationTracker K) (b : NumericalBucketTracker K) :
    Prop :=
  ∀ query filters alpha, applyTopologicalBias query filters c r b alpha = query

omit [F64Math K] in
/-- A vector that shifts the origin by nothing is zero. -/
theorem zero_of_still {ds : List K}
    (h : addInto (zeros K ds.length) ds = zeros K ds.length) : ∀ x ∈ ds, x = 0 := by
  rw [addInto_zeros] at h
  intro x hx
  rw [h] at hx
  exact List.eq_of_mem_replicate hx

theorem Still.category (h : Still c r b) {field value : String} {ds : List K}
    (hd : c.delta field value = some ds) : ∀ x ∈ ds, x = 0 := by
  have hshift := h (zeros K ds.length) [⟨field, .category value⟩] 1
  simp only [applyTopologicalBias, List.foldl_cons, List.foldl_nil, biasBy, hd, exact_mul,
    one_mul, List.map_id'] at hshift
  exact zero_of_still hshift

theorem Still.bucket (h : Still c r b) {field : String} {value : K} {op : RangeOp K}
    {ds : List K} (hd : b.delta field value op = some ds) : ∀ x ∈ ds, x = 0 := by
  have hshift := h (zeros K ds.length) [⟨field, .numerical value op⟩] 1
  simp only [applyTopologicalBias, List.foldl_cons, List.foldl_nil, biasBy, hd, exact_mul,
    one_mul, List.map_id'] at hshift
  exact zero_of_still hshift

/-- One above the mean, the shift is the correlation itself. -/
theorem Still.correlation (h : Still c r b) {field : String} {mean : K} {op : RangeOp K}
    {corrs : List K} (hd : b.delta field (mean + 1) op = none)
    (hcorrs : r.correlations field = some corrs) (hmean : r.fieldMean field = some mean) :
    ∀ x ∈ corrs, x = 0 := by
  have hshift := h (zeros K corrs.length) [⟨field, .numerical (mean + 1) op⟩] 1
  simp only [applyTopologicalBias, List.foldl_cons, List.foldl_nil, biasBy, hd, hcorrs, hmean,
    exact_mul, exact_sub, one_mul, add_sub_cancel_left, mul_one, List.map_id'] at hshift
  exact zero_of_still hshift

theorem biasBy_still {alpha : K}
    (hc : ∀ field value ds, c.delta field value = some ds → ∀ x ∈ ds, x = 0)
    (hb : ∀ field value op ds, b.delta field value op = some ds → ∀ x ∈ ds, x = 0)
    (hr : ∀ field value op corrs, b.delta field value op = none →
      r.correlations field = some corrs → r.fieldMean field ≠ none → ∀ x ∈ corrs, x = 0)
    (biased : List K) (filter : BiasFilter K) : biasBy c r b alpha biased filter = biased := by
  have hscaled : ∀ {ds : List K} (f : K → K), (∀ x ∈ ds, x = 0) → f 0 = 0 →
      ∀ x ∈ ds.map f, x = 0 := by
    intro ds f hds hf x hx
    obtain ⟨y, hy, rfl⟩ := List.mem_map.mp hx
    rw [hds y hy, hf]
  obtain ⟨field, kind⟩ := filter
  cases kind with
  | category value =>
    unfold biasBy
    cases hd : c.delta field value with
    | none => simp [hd]
    | some ds =>
      simp only [hd]
      exact addInto_of_zero (hscaled _ (hc field value ds hd) (by simp))
  | numerical value op =>
    unfold biasBy
    cases hd : b.delta field value op with
    | some ds =>
      simp only [hd]
      exact addInto_of_zero (hscaled _ (hb field value op ds hd) (by simp))
    | none =>
      simp only [hd]
      split
      · next corrs mean hcorrs hmean =>
        have hne : r.fieldMean field ≠ none := by simp [hmean]
        exact addInto_of_zero (hscaled _ (hr field value op corrs hd hcorrs hne) (by simp))
      · rfl

variable [IsStrictOrderedRing K] [LawfulMath K] {dim : Nat} {categorical numerical : List String}
  {bucketed : List (String × List K)} {rows : List (Row K)}

/-- Trackers behind the same history, shorter than their counters can count. -/
structure Histories (c : CentroidTracker K) (r : CorrelationTracker K)
    (b : NumericalBucketTracker K) (dim : Nat) (categorical numerical : List String)
    (bucketed : List (String × List K)) (rows : List (Row K)) : Prop where
  centroids : c.Tracks dim categorical rows
  correlations : r.Tracks dim (numbered numerical rows)
  buckets : b.Tracks dim bucketed (numbersOf bucketed rows)
    (numbered (bucketed.map Prod.fst) rows)
  short : rows.length * (1 + categorical.length + numerical.length + bucketed.length) < 2 ^ 64

omit [F64Math K] [IsStrictOrderedRing K] [LawfulMath K] in
theorem Histories.lengths (h : Histories c r b dim categorical numerical bucketed rows) :
    rows.length < 2 ^ 64 ∧
    (∀ field value, (inCategory categorical rows field value).length < 2 ^ 64) ∧
    (∀ field, (numbered numerical rows field).length < 2 ^ 64) ∧
    (numbersOf bucketed rows).length < 2 ^ 64 := by
  have hshort := h.short
  simp only [Nat.mul_add, Nat.mul_one] at hshort
  refine ⟨by omega, ?_, ?_, ?_⟩
  · intro field value
    have := length_inCategory_le categorical rows field value
    omega
  · intro field
    have := length_numbered_le numerical rows field
    have := length_numbersIn_rows numerical rows
    omega
  · have := length_numbersIn_rows (bucketed.map Prod.fst) rows
    rw [List.length_map] at this
    unfold numbersOf
    omega

theorem Histories.neutral (h : Histories c r b dim categorical numerical bucketed rows)
    (hstill : Still c r b) : Neutral dim categorical numerical bucketed rows := by
  obtain ⟨hrows, hcats, hnums, hvs⟩ := h.lengths
  refine ⟨?_, ?_, ?_⟩
  · intro field value hne d hd
    have hdelta := CentroidTracker.delta_eq h.centroids hrows (hcats field value)
    rw [if_neg hne] at hdelta
    have hzero := hstill.category hdelta
    exact sub_eq_zero.mp (hzero _ (List.mem_map_of_mem (List.mem_range.mpr hd)))
  · intro field bs idx hbs hne d hd
    obtain ⟨v, hv⟩ := List.exists_mem_of_ne_nil _ hne
    obtain ⟨o, ho, rfl⟩ := List.mem_map.mp hv
    obtain ⟨hmem, hidx⟩ := List.mem_filter.mp ho
    have hdelta := NumericalBucketTracker.delta_seen h.buckets hvs (length_numbered_le _ _ field)
      hbs hmem (of_decide_eq_true hidx)
    have hzero := hstill.bucket hdelta
    exact sub_eq_zero.mp (hzero _ (List.mem_map_of_mem (List.mem_range.mpr hd)))
  · intro field stats hone hstats
    by_cases hnil : numbered numerical rows field = []
    · rw [hnil] at hstats
      cases hstats
      intro x hx
      exact List.eq_of_mem_replicate hx
    · obtain ⟨stats', corrs, mean, hstats', hcorrs, hmean, hiff⟩ :=
        CorrelationTracker.correlations_zero h.correlations (hnums field) hnil
      obtain rfl : stats' = stats := Option.some.inj (hstats'.symm.trans hstats)
      obtain ⟨op, hop⟩ := NumericalBucketTracker.delta_none h.buckets hone (mean + 1)
      exact hiff.mp (hstill.correlation hop hcorrs hmean)

theorem Histories.still (h : Histories c r b dim categorical numerical bucketed rows)
    (hneutral : Neutral dim categorical numerical bucketed rows) : Still c r b := by
  obtain ⟨hrows, hcats, hnums, hvs⟩ := h.lengths
  intro query filters alpha
  apply applyTopologicalBias_of_still
  apply biasBy_still
  · intro field value ds hd
    rw [CentroidTracker.delta_eq h.centroids hrows (hcats field value)] at hd
    split at hd
    · cases hd
    · next hne =>
      cases hd
      intro x hx
      obtain ⟨d, hd, rfl⟩ := List.mem_map.mp hx
      exact sub_eq_zero.mpr (hneutral.categories field value hne d (List.mem_range.mp hd))
  · intro field value op ds hd
    have hobs := length_numbered_le (bucketed.map Prod.fst) rows field
    unfold numbersOf at hvs
    refine NumericalBucketTracker.delta_still h.buckets hvs (by omega) ?_ hd
    intro bs idx hbs hne d hd
    exact sub_eq_zero.mpr (hneutral.buckets field bs idx hbs hne d hd)
  · intro field value op corrs hnone hcorrs hmean
    have hne : numbered numerical rows field ≠ [] :=
      fun hnil => hmean (CorrelationTracker.fieldMean_none h.correlations hnil)
    obtain ⟨stats, corrs', mean, hstats, hcorrs', _, hiff⟩ :=
      CorrelationTracker.correlations_zero h.correlations (hnums field) hne
    obtain rfl : corrs' = corrs := Option.some.inj (hcorrs'.symm.trans hcorrs)
    refine hiff.mpr (hneutral.numbers field stats ?_ hstats)
    -- a single bucket would have answered
    intro bs hbs hone
    obtain ⟨first, rfl⟩ := List.length_eq_one_iff.mp hone
    exact NumericalBucketTracker.delta_single h.buckets hvs (length_numbered_le _ _ field)
      (numbered_ne_nil (mem_of_boundariesOf hbs) hne) hbs value op hnone

/-- The trackers leave every query as it is exactly behind a neutral history. -/
theorem still_iff_neutral (h : Histories c r b dim categorical numerical bucketed rows) :
    Still c r b ↔ Neutral dim categorical numerical bucketed rows :=
  ⟨h.neutral, h.still⟩

end Still

end Tesseract.L3
