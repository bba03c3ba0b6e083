import Tesseract.L3Store.BiasCorrelation

/-!
# Running statistics and batch statistics

The statistics of a field are those of all its numbers, in whatever order they came.

* `NumericalStats.batchStats_perm`: the order does not matter.
* `NumericalStats.pearson_eq_quotient`: by Cauchy-Schwarz an exact coefficient is between
  -1 and 1, so the clamp leaves it as it is.
* `NumericalStats.online_eq_batch`: all of it, for the running statistics.
-/
namespace Tesseract.L3

variable {K : Type} [Field K] [LinearOrder K] [IsStrictOrderedRing K]

/-- A root that was not rounded. -/
def ExactRoot [F64Math K] (x : K) : Prop := F64Math.sqrt x * F64Math.sqrt x = x

namespace NumericalStats

/-- The coefficient of dimension `d` before the clamp. -/
def quotient [F64Math K] (s : NumericalStats K) (fieldStd : K) (d : Nat) : K :=
  match s.dimM2[d]?, s.dimCross[d]? with
  | some m2, some cross =>
    let dimVar := m2 / s.count.toNat
    if F64Math.le dimVar 0 then 0
    else cross / (s.count.toNat * fieldStd * F64Math.sqrt dimVar)
  | _, _ => 0

omit [LinearOrder K] [IsStrictOrderedRing K] in
theorem batchStats_perm (dim : Nat) {obs obs' : List (K × List K)} (h : obs'.Perm obs) :
    batchStats dim obs' = batchStats dim obs := by
  unfold batchStats
  rw [h.length_eq, mean_perm (h.map Prod.fst), squares_perm (h.map Prod.fst)]
  congr 1
  · exact List.map_congr_left fun d _ => meanAt_perm d (h.map Prod.snd)
  · exact List.map_congr_left fun d _ => squares_perm (h.map _)
  · exact List.map_congr_left fun d _ => cross_perm (h.map _)

/-- A number stays as it is between the bounds. -/
theorem clamp_of_abs_le {x : K} (h : |x| ≤ 1) : F64.clamp (F64.ofInt (-1)) (F64.ofInt 1) x = x := by
  obtain ⟨hlo, hhi⟩ := abs_le.mp h
  unfold F64.clamp
  simp [not_lt.mpr hlo, not_lt.mpr hhi]

/-- The product of the deviations is at most that of the exact standard deviations. -/
theorem abs_div_le {cross fieldM2 dimM2 n fieldStd dimStd : K} (hn : 0 < n)
    (hsq : cross ^ 2 ≤ fieldM2 * dimM2) (hfield : fieldStd * fieldStd = fieldM2 / n)
    (hdim : dimStd * dimStd = dimM2 / n) : |cross / (n * fieldStd * dimStd)| ≤ 1 := by
  have hden : (n * fieldStd * dimStd) ^ 2 = fieldM2 * dimM2 := by
    calc (n * fieldStd * dimStd) ^ 2 = n * n * (fieldStd * fieldStd) * (dimStd * dimStd) := by ring
      _ = n * n * (fieldM2 / n) * (dimM2 / n) := by rw [hfield, hdim]
      _ = fieldM2 * dimM2 := by field_simp
  rw [abs_div]
  refine div_le_one_of_le₀ ?_ (abs_nonneg _)
  rw [← hden] at hsq
  exact sq_le_sq.mp hsq

variable [F64Math K]

/-- With exact roots the clamp changes no coefficient. -/
theorem pearson_eq_quotient (dim : Nat) {obs : List (K × List K)} (hne : obs ≠ [])
    (hlen : obs.length < 2 ^ 64) {fieldStd : K}
    (hfield : fieldStd * fieldStd = squares (obs.map Prod.fst) / obs.length) (d : Nat)
    (hdim : d < dim → ExactRoot (squares (columnAt d obs) / obs.length)) :
    (batchStats dim obs).pearson fieldStd d = (batchStats dim obs).quotient fieldStd d := by
  unfold pearson quotient
  by_cases hd : d < dim
  · have hm2 : (batchStats dim obs).dimM2[d]? = some (squares (columnAt d obs)) := by
      simp [batchStats, hd]
    have hcross : (batchStats dim obs).dimCross[d]? = some (cross (pairsAt d obs)) := by
      simp [batchStats, hd]
    have hn : (batchStats dim obs).count.toNat = obs.length := toNat_length hlen
    have hpos : (0 : K) < obs.length := by exact_mod_cast List.length_pos_iff.mpr hne
    have hsq := cross_sq_le (pairsAt d obs)
    rw [map_fst_pairsAt, map_snd_pairsAt] at hsq
    have hclamp := clamp_of_abs_le (abs_div_le hpos hsq hfield (hdim hd))
    simp only [hm2, hcross, hn, exact_div, exact_mul, exact_ofInt, exact_zero, Int.cast_natCast]
      at hclamp ⊢
    rw [hclamp]
  · have hm2 : (batchStats dim obs).dimM2[d]? = none := by
      simp [batchStats, hd]
    simp only [hm2, exact_zero]

end NumericalStats

namespace CorrelationTracker

variable [F64Math K]

/-- The coefficients of a field before the clamp. -/
def quotients (t : CorrelationTracker K) (field : String) : Option (List K) :=
  match t.fields.lookup field with
  | none => none
  | some stats =>
    if stats.count < 2 then some (zeros K t.dim)
    else
      let fieldVar := stats.fieldM2 / stats.count.toNat
      if F64Math.le fieldVar 0 then some (zeros K t.dim)
      else some ((List.range t.dim).map (stats.quotient (F64Math.sqrt fieldVar)))

theorem correlations_eq_quotients {t : CorrelationTracker K} {field : String} {dim : Nat}
    {obs : List (K × List K)} (hne : obs ≠ []) (hlen : obs.length < 2 ^ 64)
    (ht : t.fields.lookup field = some (batchStats dim obs))
    (hfield : ExactRoot (squares (obs.map Prod.fst) / obs.length : K))
    (hdims : ∀ d < dim, ExactRoot (squares (columnAt d obs) / obs.length : K)) :
    t.correlations field = t.quotients field := by
  have hn : (batchStats dim obs).count.toNat = obs.length := toNat_length hlen
  have hm2 : (batchStats dim obs).fieldM2 = squares (obs.map Prod.fst) := rfl
  have hsame : ∀ d, (batchStats dim obs).pearson
      (F64Math.sqrt (squares (obs.map Prod.fst) / obs.length)) d =
      (batchStats dim obs).quotient (F64Math.sqrt (squares (obs.map Prod.fst) / obs.length)) d :=
    fun d => NumericalStats.pearson_eq_quotient dim hne hlen hfield d (hdims d)
  unfold correlations quotients
  simp only [ht, hn, hm2, exact_div, exact_ofInt, exact_zero, Int.cast_natCast,
    List.map_congr_left fun d _ => hsame d]

end CorrelationTracker

namespace NumericalStats

/-- The running statistics of numbers with vectors of one length are those of the batch, in
any order, and with exact roots the clamp changes no coefficient. -/
theorem online_eq_batch [F64Math K] {dim : Nat} {obs : List (K × List K)} (hne : obs ≠ [])
    (hlen : obs.length < 2 ^ 64) (hdims : ∀ o ∈ obs, o.2.length = dim) :
    statsOf dim obs = some (batchStats dim obs) ∧
      (∀ obs', obs'.Perm obs → statsOf dim obs' = some (batchStats dim obs)) ∧
      (∀ d, cross (pairsAt d obs) ^ 2 ≤
        squares (obs.map Prod.fst) * squares (columnAt d obs)) ∧
      ∀ (t : CorrelationTracker K) field, t.fields.lookup field = some (batchStats dim obs) →
        ExactRoot (squares (obs.map Prod.fst) / obs.length : K) →
        (∀ d < dim, ExactRoot (squares (columnAt d obs) / obs.length : K)) →
        t.correlations field = t.quotients field := by
  refine ⟨statsOf_batch obs hne hlen hdims, ?_, ?_, ?_⟩
  · intro obs' hperm
    have hne' : obs' ≠ [] := fun hnil => hne (by rw [hnil] at hperm; exact hperm.nil_eq.symm)
    rw [statsOf_batch obs' hne' (by rw [hperm.length_eq]; exact hlen)
      fun o ho => hdims o (hperm.mem_iff.mp ho), batchStats_perm dim hperm]
  · intro d
    have hsq := cross_sq_le (pairsAt d obs)
    rwa [map_fst_pairsAt, map_snd_pairsAt] at hsq
  · intro t field ht hfield hroots
    exact CorrelationTracker.correlations_eq_quotients hne hlen ht hfield hroots

/-- Three numbers with a vector of two components each. -/
def threeYears : List (ℚ × List ℚ) := [(2020, [1, 0]), (2021, [0, 1]), (2023, [3, 1])]

theorem threeYears_eq_batch :
    statsOf 2 threeYears = some (batchStats 2 threeYears) ∧
      (∀ obs', obs'.Perm threeYears → statsOf 2 obs' = some (batchStats 2 threeYears)) ∧
      (∀ d, cross (pairsAt d threeYears) ^ 2 ≤
        squares (threeYears.map Prod.fst) * squares (columnAt d threeYears)) ∧
      ∀ (t : CorrelationTracker ℚ) field, t.fields.lookup field = some (batchStats 2 threeYears) →
        ExactRoot (squares (threeYears.map Prod.fst) / threeYears.length : ℚ) →
        (∀ d < 2, ExactRoot (squares (columnAt d threeYears) / threeYears.length : ℚ)) →
        t.correlations field = t.quotients field :=
  online_eq_batch (by decide) (by decide) (by decide)

end NumericalStats

end Tesseract.L3
