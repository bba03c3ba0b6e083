import Mathlib.Data.List.Induction
import Tesseract.L3Store.BiasExact

/-!
# Correlations in exact arithmetic

Welford's recurrences, with exact numbers.

* `NumericalStats.Sound`: a field or a dimension without variance has no
  correlation sum.
* `CorrelationTracker.correlations_zero`: the coefficients of a field vanish exactly
  when its correlation sums do.
* `NumericalStats.statsOf_batch`: with vectors of one length, the running statistics are
  the means and the sums of the products of the deviations from them.
-/
namespace Tesseract.L3

open Serde

variable {K : Type} [Field K] [LinearOrder K] [IsStrictOrderedRing K]

/-! ## Variances -/

/-- Without variance in the field or in a dimension there is no correlation sum,
behind `n` numbers. -/
structure NumericalStats.Sound (s : NumericalStats K) (dim n : Nat) : Prop where
  count : s.count.toNat = n
  nonneg : 0 ≤ s.fieldM2
  first : n ≤ 1 → s.fieldM2 = 0
  flat : s.fieldM2 = 0 → ∀ x ∈ s.dimCross, x = 0
  dims : List.Forall₂ (fun m2 x => 0 ≤ m2 ∧ (m2 = 0 → x = 0)) s.dimM2 s.dimCross
  length : s.dimCross.length = dim

namespace NumericalStats

omit [IsStrictOrderedRing K] in
theorem Sound.new (dim : Nat) : (NumericalStats.new dim : NumericalStats K).Sound dim 0 := by
  refine ⟨rfl, le_refl _, fun _ => rfl, ?_, ?_, by simp [NumericalStats.new, zeros]⟩
  · intro _ x hx
    exact List.eq_of_mem_replicate hx
  · unfold NumericalStats.new zeros
    induction dim with
    | zero => exact .nil
    | succ dim ih => exact .cons ⟨le_refl _, fun _ => rfl⟩ ih

/-- The loop over the dimensions. -/
theorem updateDims_dims {deltaF ratio nNew : K} (hratio : 0 < ratio) (vector : List K) :
    ∀ {means m2s crosses : List K} {r : List K × List K × List K},
    updateDims deltaF ratio nNew vector means m2s crosses = some r →
    List.Forall₂ (fun m2 x => 0 ≤ m2 ∧ (m2 = 0 → x = 0)) m2s crosses →
    List.Forall₂ (fun m2 x => 0 ≤ m2 ∧ (m2 = 0 → x = 0)) r.2.1 r.2.2 ∧
      (deltaF = 0 → r.2.2 = crosses) ∧ r.2.2.length = crosses.length := by
  induction vector with
  | nil =>
    intro means m2s crosses r h hdims
    simp only [updateDims, Option.some.injEq] at h
    subst h
    exact ⟨hdims, fun _ => rfl, rfl⟩
  | cons v vector ih =>
    intro means m2s crosses r h hdims
    cases means with
    | nil =>
      simp only [updateDims, Option.some.injEq] at h
      subst h
      exact ⟨hdims, fun _ => rfl, rfl⟩
    | cons m means =>
      cases hdims with
      | nil => simp [updateDims] at h
      | @cons m2 x m2s crosses hx hdims =>
        simp only [updateDims, Option.bind_eq_bind, Option.bind_eq_some_iff,
          Option.some.injEq] at h
        obtain ⟨r', hrest, rfl⟩ := h
        obtain ⟨hdims', hsame, hlen⟩ := ih hrest hdims
        have hsq : 0 ≤ (v - m) * (v - m) * ratio :=
          mul_nonneg (mul_self_nonneg _) hratio.le
        refine ⟨.cons ⟨add_nonneg hx.1 hsq, ?_⟩ hdims', ?_, by simp [hlen]⟩
        · -- a sum of two squares vanishes, so the new deviation does
          intro hzero
          have hm2 : m2 = 0 := by
            have := hx.1
            simp only [exact_add, exact_mul, exact_sub] at hzero
            linarith
          have hdev : (v - m) * (v - m) * ratio = 0 := by
            simp only [exact_add, exact_mul, exact_sub] at hzero
            linarith
          have hv : v - m = 0 := by
            rcases mul_eq_zero.mp hdev with h | h
            · exact mul_self_eq_zero.mp h
            · exact absurd h hratio.ne'
          simp [hx.2 hm2, hv]
        · intro hdelta
          simp [hsame hdelta, hdelta]

theorem Sound.update {s s' : NumericalStats K} {dim n : Nat} (h : s.Sound dim n) {x : K}
    {vector : List K} (hn : n + 1 < 2 ^ 64) (hup : s.update x vector = some s') :
    s'.Sound dim (n + 1) := by
  unfold NumericalStats.update at hup
  split at hup
  · next hcount =>
    cases hup
    have hzero : n = 0 := by
      rw [← h.count, hcount]
      rfl
    have hflat : s.fieldM2 = 0 := h.first (by omega)
    exact ⟨by simp [hzero], h.nonneg, fun _ => hflat, h.flat, h.dims, h.length⟩
  · next hcount =>
    have hpos : 0 < n := by
      rw [← h.count]
      exact Nat.pos_of_ne_zero fun h0 => hcount (UInt64.toNat_inj.mp h0)
    have hnext : (s.count + 1).toNat = n + 1 := by
      rw [UInt64.toNat_add, h.count]
      exact Nat.mod_eq_of_lt hn
    simp only [Option.bind_eq_bind, Option.bind_eq_some_iff, Option.some.injEq, h.count,
      hnext] at hup
    obtain ⟨r, hdims, rfl⟩ := hup
    have hratio : (0 : K) < F64.div (F64.ofInt (n : Int)) (F64.ofInt ((n + 1 : Nat) : Int)) := by
      simp only [exact_div, exact_ofInt, Int.cast_natCast]
      have h₁ : (0 : K) < n := by exact_mod_cast hpos
      have h₂ : (0 : K) < (n + 1 : Nat) := by exact_mod_cast Nat.succ_pos n
      exact div_pos h₁ h₂
    obtain ⟨hdims', hsame, hlen⟩ := updateDims_dims hratio vector hdims h.dims
    have hsq : 0 ≤ F64.mul (F64.mul (F64.sub x s.fieldMean) (F64.sub x s.fieldMean))
        (F64.div (F64.ofInt (n : Int)) (F64.ofInt ((n + 1 : Nat) : Int))) := by
      simp only [exact_mul] at hratio ⊢
      exact mul_nonneg (mul_self_nonneg _) hratio.le
    refine ⟨hnext, add_nonneg h.nonneg hsq, by omega, ?_, hdims', by rw [hlen, h.length]⟩
    intro hzero
    have hold : s.fieldM2 = 0 := by
      have := h.nonneg
      simp only [exact_add] at hzero
      linarith
    have hdelta : F64.sub x s.fieldMean = 0 := by
      rw [hold] at hzero
      simp only [exact_add, exact_mul, zero_add] at hzero
      rcases mul_eq_zero.mp hzero with h | h
      · exact mul_self_eq_zero.mp h
      · exact absurd h hratio.ne'
    dsimp only
    rw [hsame hdelta]
    exact h.flat hold

/-- The folded statistics of a list of numbers. -/
theorem Sound.statsOf {dim : Nat} (obs : List (K × List K)) :
    ∀ {s : NumericalStats K}, obs.length < 2 ^ 64 → statsOf dim obs = some s →
    s.Sound dim obs.length := by
  induction obs using List.reverseRecOn with
  | nil =>
    intro s _ h
    cases h
    exact Sound.new dim
  | append_singleton obs o ih =>
    intro s hlen h
    rw [List.length_append, List.length_singleton] at hlen ⊢
    rw [statsOf_concat] at h
    obtain ⟨s₀, h₀, hup⟩ := Option.bind_eq_some_iff.mp h
    exact (ih (by omega) h₀).update hlen hup

variable [F64Math K] [LawfulMath K]

/-- Where the field has a variance, a coefficient vanishes with its sum. -/
theorem Sound.pearson {s : NumericalStats K} {dim n : Nat} (h : s.Sound dim n) (hn : 0 < n)
    {fieldStd : K} (hstd : 0 < fieldStd) {d : Nat} {x : K} (hx : s.dimCross[d]? = some x) :
    s.pearson fieldStd d = 0 ↔ x = 0 := by
  obtain ⟨hd, hget⟩ := List.getElem?_eq_some_iff.mp hx
  have hd' : d < s.dimM2.length := by
    rw [h.dims.length_eq]
    exact hd
  have hm2 : s.dimM2[d]? = some s.dimM2[d] := List.getElem?_eq_getElem hd'
  have hrel : 0 ≤ s.dimM2[d] ∧ (s.dimM2[d] = 0 → x = 0) := by
    rw [← hget]
    exact (List.forall₂_iff_get.mp h.dims).2 d hd' hd
  have hcount : (0 : K) < n := by exact_mod_cast hn
  unfold NumericalStats.pearson
  simp only [hm2, hx, h.count, exact_div, exact_mul, exact_ofInt, exact_zero, LawfulMath.le_iff,
    Int.cast_natCast]
  split
  · next hvar =>
    have hzero : s.dimM2[d] = 0 := by
      by_contra hne
      have hpos : 0 < s.dimM2[d] := lt_of_le_of_ne hrel.1 (Ne.symm hne)
      exact absurd (div_pos hpos hcount) (not_lt.mpr hvar)
    simp [hrel.2 hzero]
  · next hvar =>
    have hdimStd := LawfulMath.sqrt_pos _ (not_le.mp hvar)
    have hden := (mul_pos (mul_pos hcount hstd) hdimStd).ne'
    rw [clamp_eq_zero (by simp) (by simp), div_eq_zero_iff]
    simp [hden]

theorem Sound.pearsons {s : NumericalStats K} {dim n : Nat} (h : s.Sound dim n) (hn : 0 < n)
    {fieldStd : K} (hstd : 0 < fieldStd) :
    (∀ x ∈ (List.range dim).map (s.pearson fieldStd), x = 0) ↔ ∀ x ∈ s.dimCross, x = 0 := by
  constructor
  · intro hall x hx
    obtain ⟨d, hd, hget⟩ := List.getElem_of_mem hx
    have hmem : d < dim := by
      rw [← h.length]
      exact hd
    have hcross : s.dimCross[d]? = some x := by
      rw [List.getElem?_eq_getElem hd, hget]
    exact (h.pearson hn hstd hcross).mp
      (hall _ (List.mem_map_of_mem (List.mem_range.mpr hmem)))
  · intro hall x hx
    obtain ⟨d, hd, rfl⟩ := List.mem_map.mp hx
    have hlt : d < s.dimCross.length := by
      rw [h.length]
      exact List.mem_range.mp hd
    exact (h.pearson hn hstd (List.getElem?_eq_getElem hlt)).mpr (hall _ (List.getElem_mem hlt))

omit [F64Math K] [LawfulMath K] in
theorem Sound.no_variance {s : NumericalStats K} {dim n : Nat} (h : s.Sound dim n) (hn : 0 < n)
    (hvar : s.fieldM2 / (n : K) ≤ 0) : s.fieldM2 = 0 := by
  have hcount : (0 : K) < n := by exact_mod_cast hn
  by_contra hne
  exact absurd (div_pos (lt_of_le_of_ne h.nonneg (Ne.symm hne)) hcount) (not_lt.mpr hvar)

end NumericalStats

namespace CorrelationTracker

variable [F64Math K] [LawfulMath K] {t : CorrelationTracker K} {dim : Nat}
  {obs : String → List (K × List K)}

/-- The coefficients of a field vanish exactly when its correlation sums do. -/
theorem correlations_zero (h : t.Tracks dim obs) {field : String}
    (hlen : (obs field).length < 2 ^ 64) (hne : obs field ≠ []) :
    ∃ stats corrs mean, statsOf dim (obs field) = some stats ∧
      t.correlations field = some corrs ∧ t.fieldMean field = some mean ∧
      ((∀ x ∈ corrs, x = 0) ↔ ∀ x ∈ stats.dimCross, x = 0) := by
  have hstats := h.stats field
  cases hlook : t.fields.lookup field with
  | none => exact absurd ((h.seen field).mp hlook) hne
  | some stats =>
    rw [hlook, Option.getD_some] at hstats
    have hs := NumericalStats.Sound.statsOf (obs field) hlen hstats
    have hpos : 0 < (obs field).length := List.length_pos_iff.mpr hne
    have hcount : stats.count ≠ 0 := by
      intro h0
      have := hs.count
      rw [h0, UInt64.toNat_zero] at this
      omega
    have hzeros : (∀ x ∈ zeros K dim, x = 0) := fun x hx => List.eq_of_mem_replicate hx
    have hmean : t.fieldMean field = some stats.fieldMean := by simp [fieldMean, hlook, hcount]
    refine ⟨stats, ?_⟩
    unfold correlations
    simp only [hlook, h.size]
    split
    · next hlow =>
      have hone : (obs field).length ≤ 1 := by
        have := UInt64.lt_iff_toNat_lt.mp hlow
        rw [hs.count] at this
        exact Nat.le_of_lt_succ this
      refine ⟨zeros K dim, _, hstats, rfl, hmean, ?_⟩
      exact ⟨fun _ => hs.flat (hs.first hone), fun _ => hzeros⟩
    · split
      · next hvar =>
        simp only [LawfulMath.le_iff, exact_div, exact_ofInt, exact_zero, hs.count,
          Int.cast_natCast] at hvar
        refine ⟨zeros K dim, _, hstats, rfl, hmean, ?_⟩
        exact ⟨fun _ => hs.flat (hs.no_variance hpos hvar), fun _ => hzeros⟩
      · next hvar =>
        rw [LawfulMath.le_iff, exact_zero, not_le] at hvar
        exact ⟨_, _, hstats, rfl, hmean, hs.pearsons hpos (LawfulMath.sqrt_pos _ hvar)⟩

omit [IsStrictOrderedRing K] [F64Math K] [LawfulMath K] in
theorem fieldMean_none (h : t.Tracks dim obs) {field : String} (hnil : obs field = []) :
    t.fieldMean field = none := by
  simp [fieldMean, (h.seen field).mpr hnil]

end CorrelationTracker

/-! ## Covariances -/

/-- The numbers of a field with the components `d` of their vectors. -/
def pairsAt (d : Nat) (obs : List (K × List K)) : List (K × K) :=
  obs.map fun o => (o.1, o.2.getD d 0)

/-- The components `d` of the vectors. -/
def columnAt (d : Nat) (obs : List (K × List K)) : List K := obs.map fun o => o.2.getD d 0

omit [LinearOrder K] [IsStrictOrderedRing K] in
theorem map_fst_pairsAt (d : Nat) (obs : List (K × List K)) :
    (pairsAt d obs).map Prod.fst = obs.map Prod.fst := by
  simp [pairsAt, Function.comp_def]

omit [LinearOrder K] [IsStrictOrderedRing K] in
theorem map_snd_pairsAt (d : Nat) (obs : List (K × List K)) :
    (pairsAt d obs).map Prod.snd = columnAt d obs := by
  simp [pairsAt, columnAt, Function.comp_def]

omit [LinearOrder K] [IsStrictOrderedRing K] in
theorem meanAt_snd (d : Nat) (obs : List (K × List K)) :
    meanAt d (obs.map Prod.snd) = mean (columnAt d obs) := by
  simp only [meanAt, columnAt, List.map_map, Function.comp_def]

/-- The statistics of `obs`, from the definitions of the means and the variances. -/
def batchStats (dim : Nat) (obs : List (K × List K)) : NumericalStats K where
  count := UInt64.ofNat obs.length
  fieldMean := mean (obs.map Prod.fst)
  fieldM2 := squares (obs.map Prod.fst)
  dimMeans := (List.range dim).map fun d => meanAt d (obs.map Prod.snd)
  dimM2 := (List.range dim).map fun d => squares (columnAt d obs)
  dimCross := (List.range dim).map fun d => cross (pairsAt d obs)

namespace NumericalStats

omit [IsStrictOrderedRing K] in
theorem updateDims_map (deltaF ratio nNew : K) (v m m2 x : Nat → K) (ds : List Nat) :
    updateDims deltaF ratio nNew (ds.map v) (ds.map m) (ds.map m2) (ds.map x) =
      some (ds.map fun d => m d + (v d - m d) / nNew,
        ds.map fun d => m2 d + (v d - m d) * (v d - m d) * ratio,
        ds.map fun d => x d + deltaF * (v d - m d) * ratio) := by
  induction ds with
  | nil => rfl
  | cons d ds ih => simp [updateDims, ih]

omit [LinearOrder K] [IsStrictOrderedRing K] in
theorem eq_map_range {dim : Nat} {v : List K} (h : v.length = dim) :
    v = (List.range dim).map fun d => v.getD d 0 := by
  apply List.ext_getElem
  · simp [h]
  · intro d h₁ h₂
    simp [h₁]

/-- Welford's update: from the statistics of `obs` to those with one more number. -/
theorem update_batchStats {dim : Nat} {obs : List (K × List K)} (hne : obs ≠ []) (x : K)
    {vector : List K} (hlen : vector.length = dim) (hn : obs.length + 1 < 2 ^ 64) :
    (batchStats dim obs).update x vector = some (batchStats dim (obs ++ [(x, vector)])) := by
  have hold : (UInt64.ofNat obs.length).toNat = obs.length := toNat_length (by omega)
  have hcount : (batchStats dim obs).count ≠ 0 := length_ne_zero (by omega) hne
  have hnext : (UInt64.ofNat obs.length + 1).toNat = obs.length + 1 := by
    rw [UInt64.toNat_add, hold]
    exact Nat.mod_eq_of_lt hn
  have hdims := updateDims_map (x - mean (obs.map Prod.fst))
    ((obs.length : K) / ((obs.length + 1 : Nat) : K)) ((obs.length + 1 : Nat) : K)
    (fun d => vector.getD d 0) (fun d => meanAt d (obs.map Prod.snd))
    (fun d => squares (columnAt d obs)) (fun d => cross (pairsAt d obs)) (List.range dim)
  rw [← eq_map_range hlen] at hdims
  unfold NumericalStats.update
  rw [if_neg hcount]
  simp only [batchStats, hold, hnext, Option.bind_eq_bind, exact_sub, exact_div, exact_ofInt,
    Int.cast_natCast, hdims, Option.bind_some, Option.some.injEq, NumericalStats.mk.injEq]
  have hfields : obs.map Prod.fst ≠ [] := by simpa using hne
  have hmean := mean_concat hfields x
  have hsquares := squares_concat hfields x
  rw [List.length_map] at hmean hsquares
  refine ⟨?_, ?_, ?_, ?_, ?_, ?_⟩
  · rw [List.length_append, List.length_singleton, ofNat_succ]
  · rw [List.map_append, List.map_singleton, hmean]
    rfl
  · rw [List.map_append, List.map_singleton, hsquares]
    rfl
  · refine List.map_congr_left fun d _ => ?_
    have hcolumn : columnAt d obs ≠ [] := by simpa [columnAt] using hne
    have hstep := mean_concat hcolumn (vector.getD d 0)
    rw [columnAt, List.length_map] at hstep
    rw [meanAt_snd, meanAt_snd, columnAt, columnAt, List.map_append, List.map_singleton, hstep]
  · refine List.map_congr_left fun d _ => ?_
    have hcolumn : columnAt d obs ≠ [] := by simpa [columnAt] using hne
    have hstep := squares_concat hcolumn (vector.getD d 0)
    rw [columnAt, List.length_map] at hstep
    rw [meanAt_snd, columnAt, columnAt, List.map_append, List.map_singleton, hstep]
  · refine List.map_congr_left fun d _ => ?_
    have hpairs : pairsAt d obs ≠ [] := by simpa [pairsAt] using hne
    have hstep := cross_concat hpairs x (vector.getD d 0)
    rw [map_fst_pairsAt, map_snd_pairsAt, pairsAt, List.length_map] at hstep
    rw [meanAt_snd, pairsAt, pairsAt, List.map_append, List.map_singleton, hstep]

omit [IsStrictOrderedRing K] in
theorem update_new {dim : Nat} (x : K) {vector : List K} (hlen : vector.length = dim) :
    (NumericalStats.new dim).update x vector = some (batchStats dim [(x, vector)]) := by
  have hzero : (NumericalStats.new dim : NumericalStats K).count = 0 := rfl
  rw [NumericalStats.update, if_pos hzero]
  simp only [NumericalStats.new, batchStats, List.map_singleton, mean_single, squares_single,
    columnAt, pairsAt, cross_single, meanAt, ← eq_map_range hlen,
    ← NumericalBucketTracker.zeros_eq]
  rfl

/-- The running statistics are those of the batch. -/
theorem statsOf_batch {dim : Nat} (obs : List (K × List K)) (hne : obs ≠ [])
    (hlen : obs.length < 2 ^ 64) (hdims : ∀ o ∈ obs, o.2.length = dim) :
    statsOf dim obs = some (batchStats dim obs) := by
  induction obs using List.reverseRecOn with
  | nil => exact absurd rfl hne
  | append_singleton obs o ih =>
    rw [List.length_append, List.length_singleton] at hlen
    have ho : o.2.length = dim := hdims o (by simp)
    rw [statsOf_concat]
    by_cases hnil : obs = []
    · subst hnil
      exact update_new o.1 ho
    · rw [ih hnil (by omega) fun o' ho' => hdims o' (by simp [ho']), Option.bind_some]
      exact update_batchStats hnil o.1 ho hlen

/-- The means and the correlation sums behind the numbers `obs`. -/
structure Covaries (s : NumericalStats K) (dim : Nat) (obs : List (K × List K)) : Prop where
  count : s.count.toNat = obs.length
  fieldMean : s.fieldMean = mean (obs.map Prod.fst)
  dimMeans : s.dimMeans = (List.range dim).map fun d => meanAt d (obs.map Prod.snd)
  dimCross : s.dimCross = (List.range dim).map fun d => cross (pairsAt d obs)

/-- The correlation sums are the sums of the products of the deviations. -/
theorem dimCross_eq {dim : Nat} (obs : List (K × List K)) :
    ∀ {s : NumericalStats K}, obs ≠ [] → obs.length < 2 ^ 64 →
    (∀ o ∈ obs, o.2.length = dim) → statsOf dim obs = some s → s.Covaries dim obs := by
  intro s hne hlen hdims h
  rw [statsOf_batch obs hne hlen hdims] at h
  cases h
  exact ⟨toNat_length hlen, rfl, rfl, rfl⟩

/-- Without a correlation sum, no dimension covaries with the field. -/
theorem dimCross_zero_iff {dim : Nat} {obs : List (K × List K)} {s : NumericalStats K}
    (hne : obs ≠ []) (hlen : obs.length < 2 ^ 64) (hdims : ∀ o ∈ obs, o.2.length = dim)
    (h : statsOf dim obs = some s) :
    (∀ x ∈ s.dimCross, x = 0) ↔ ∀ d < dim, cross (pairsAt d obs) = 0 := by
  rw [(dimCross_eq obs hne hlen hdims h).dimCross]
  simp

end NumericalStats

end Tesseract.L3
