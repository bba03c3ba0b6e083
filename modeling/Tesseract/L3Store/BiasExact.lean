import Tesseract.Core.Exact
import Tesseract.Core.Moments
import Tesseract.L3Store.BiasHistory

/-!
# The shifts in exact arithmetic

With exact numbers a shift by categories or buckets is a difference of means.

* `CentroidTracker.delta_eq`: the shift of a category is its mean less the mean.
* `NumericalBucketTracker.delta_seen`: so is the shift of the bucket of a number.
* `NumericalBucketTracker.delta_still`: buckets with the common mean shift nothing.
* `NumericalBucketTracker.delta_none`, `NumericalBucketTracker.delta_single`: which
  fields can be asked for without an answer of their buckets.
-/
namespace Tesseract.L3

open Serde

variable {K : Type} [Field K] [LinearOrder K]

/-! ## Sums -/

theorem getElem?_addInto (sum vector : List K) (d : Nat) :
    (addInto sum vector)[d]? = sum[d]?.map fun x => x + vector.getD d 0 := by
  induction sum generalizing vector d with
  | nil => cases vector <;> simp [addInto]
  | cons s sum ih =>
    cases vector with
    | nil =>
      cases d <;> simp [addInto]
    | cons v vector =>
      cases d with
      | zero => simp [addInto]
      | succ d => simp [addInto, ih]

theorem addInto_of_zero {sum vector : List K} (h : ∀ x ∈ vector, x = 0) :
    addInto sum vector = sum := by
  induction sum generalizing vector with
  | nil => cases vector <;> rfl
  | cons s sum ih =>
    cases vector with
    | nil => rfl
    | cons v vector =>
      have hv : v = 0 := h v (by simp)
      rw [addInto, ih fun x hx => h x (by simp [hx]), hv]
      simp

theorem addInto_zeros (vector : List K) : addInto (zeros K vector.length) vector = vector := by
  induction vector with
  | nil => rfl
  | cons v vector ih =>
    rw [zeros, List.length_cons, List.replicate_succ, addInto]
    show F64.add 0 v :: addInto (zeros K vector.length) vector = _
    rw [ih]
    simp

theorem getElem?_foldl (vs : List (List K)) (sum : List K) (d : Nat) :
    (vs.foldl addInto sum)[d]? = sum[d]?.map fun x => x + total d vs := by
  induction vs generalizing sum with
  | nil => simp [total]
  | cons v vs ih =>
    rw [List.foldl_cons, ih, getElem?_addInto, Option.map_map]
    congr 1
    funext x
    simp [total, add_assoc]

theorem running_eq (dim : Nat) (vs : List (List K)) :
    running dim vs = (List.range dim).map fun d => total d vs := by
  apply List.ext_getElem?
  intro d
  rw [running, getElem?_foldl]
  by_cases hd : d < dim
  · simp [zeros, hd]
  · simp [zeros, hd]

theorem toNat_length {γ : Type} {xs : List γ} (h : xs.length < 2 ^ 64) :
    (UInt64.ofNat xs.length).toNat = xs.length := UInt64.toNat_ofNat_of_lt' h

theorem length_ne_zero {γ : Type} {xs : List γ} (h : xs.length < 2 ^ 64) (hne : xs ≠ []) :
    UInt64.ofNat xs.length ≠ 0 := by
  intro h0
  have hlen := toNat_length h
  rw [h0] at hlen
  exact hne (List.length_eq_zero_iff.mp hlen.symm)

/-- A running sum over its count is the mean. -/
theorem divideBy_running (dim : Nat) {vs : List (List K)} (h : vs.length < 2 ^ 64) :
    divideBy (UInt64.ofNat vs.length) (running dim vs) =
      (List.range dim).map fun d => meanAt d vs := by
  simp [divideBy, running_eq, toNat_length h, meanAt_eq, Function.comp_def]

/-! ## Categories -/

namespace CentroidTracker

variable {t : CentroidTracker K} {dim : Nat} {fields : List String} {rows : List (Row K)}

theorem rows_ne_nil {field value : String} (h : inCategory fields rows field value ≠ []) :
    rows ≠ [] := by
  intro hnil
  simp [inCategory, hnil] at h

theorem delta_eq (h : t.Tracks dim fields rows) {field value : String}
    (hrows : rows.length < 2 ^ 64)
    (hcat : (inCategory fields rows field value).length < 2 ^ 64) :
    t.delta field value = if inCategory fields rows field value = [] then none
      else some ((List.range dim).map fun d =>
        meanAt d (inCategory fields rows field value) - meanAt d (rows.map Prod.fst)) := by
  unfold delta globalCentroid
  rw [h.entry, h.count, h.sum, tally]
  by_cases hnil : inCategory fields rows field value = []
  · simp [hnil]
  · have hvs : (rows.map Prod.fst).length < 2 ^ 64 := by simpa using hrows
    have hmean := divideBy_running dim hvs
    rw [List.length_map] at hmean
    rw [if_neg (length_ne_zero hrows (rows_ne_nil hnil)), if_neg hnil]
    simp only [if_neg (length_ne_zero hcat hnil), if_neg hnil,
      if_neg (length_ne_zero hrows (rows_ne_nil hnil)), hmean, divideBy_running dim hcat]
    simp [List.zipWith_map]

end CentroidTracker

/-! ## Buckets -/

namespace NumericalBucketTracker

theorem zeros_eq (dim : Nat) : zeros K dim = (List.range dim).map fun _ => (0 : K) := by
  simp only [zeros, List.map_const', List.length_range]
  rfl

theorem addShift_map (count : UInt64) (a s g : Nat → K) (ds : List Nat) :
    addShift count (ds.map a) (ds.map s) (ds.map g) =
      ds.map fun d => a d + (s d / (count.toNat : K) - g d) := by
  induction ds with
  | nil => rfl
  | cons d ds ih => simp [addShift, ih]

variable {t : NumericalBucketTracker K} {dim : Nat} {config : List (String × List K)}
  {vs : List (List K)} {obs : String → List (K × List K)}

/-- What bucket `idx` adds: its mean less the mean of everything numbered. -/
def gap (vs : List (List K)) (obs : List (K × List K)) (bs : List K) (idx d : Nat) : K :=
  meanAt d (inBucket obs bs idx) - meanAt d vs

theorem sumShifts_cons {obs : List (K × List K)} {bs : List K} (hlen : obs.length < 2 ^ 64)
    (a : Nat → K) (n idx : Nat) (rest : List Nat) :
    sumShifts (bucketsOf dim obs bs) ((List.range dim).map fun d => meanAt d vs) (idx :: rest)
      ((List.range dim).map a, n) =
      if idx < bs.length ∧ inBucket obs bs idx ≠ [] then
        sumShifts (bucketsOf dim obs bs) ((List.range dim).map fun d => meanAt d vs) rest
          ((List.range dim).map fun d => a d + gap vs obs bs idx d, n + 1)
      else sumShifts (bucketsOf dim obs bs) ((List.range dim).map fun d => meanAt d vs) rest
        ((List.range dim).map a, n) := by
  rw [sumShifts]
  by_cases hidx : idx < bs.length
  · have hbucket : (inBucket obs bs idx).length < 2 ^ 64 := by
      have := List.length_filter_le (fun o => bucketIndex bs o.1 = some idx) obs
      simp only [inBucket, List.length_map]
      omega
    have hcount : (bucketsOf dim obs bs).counts[idx]? =
        some (UInt64.ofNat (inBucket obs bs idx).length) := by simp [bucketsOf, hidx]
    have hsum : (bucketsOf dim obs bs).sums[idx]? = some (running dim (inBucket obs bs idx)) := by
      simp [bucketsOf, hidx]
    simp only [hcount, hsum, hidx, true_and]
    by_cases hnil : inBucket obs bs idx = []
    · rw [hnil, if_neg (by simp), if_neg (by simp)]
    · have hpos : 0 < UInt64.ofNat (inBucket obs bs idx).length := by
        rw [UInt64.lt_iff_toNat_lt, toNat_length hbucket]
        exact List.length_pos_iff.mpr hnil
      rw [if_pos hpos, if_pos hnil, running_eq, addShift_map]
      simp only [toNat_length hbucket, gap, meanAt_eq]
  · have hcount : (bucketsOf dim obs bs).counts[idx]? = none := by
      simp [bucketsOf]
      omega
    rw [hcount, if_neg (by simp [hidx])]

/-- Buckets with the common mean add nothing. -/
theorem sumShifts_still {obs : List (K × List K)} {bs : List K} (hlen : obs.length < 2 ^ 64)
    (hgap : ∀ idx, inBucket obs bs idx ≠ [] → ∀ d < dim, gap vs obs bs idx d = 0)
    (a : Nat → K) (candidates : List Nat) : ∀ n, ∃ m,
    sumShifts (bucketsOf dim obs bs) ((List.range dim).map fun d => meanAt d vs) candidates
      ((List.range dim).map a, n) = ((List.range dim).map a, m) := by
  induction candidates with
  | nil => exact fun n => ⟨n, rfl⟩
  | cons idx rest ih =>
    intro n
    rw [sumShifts_cons hlen]
    split
    · next h =>
      have hsame : ((List.range dim).map fun d => a d + gap vs obs bs idx d) =
          (List.range dim).map a := by
        apply List.map_congr_left
        intro d hd
        rw [hgap idx h.2 d (List.mem_range.mp hd), add_zero]
      rw [hsame]
      exact ih (n + 1)
    · exact ih n

theorem globalCentroid_eq (h : t.Tracks dim config vs obs) (hlen : vs.length < 2 ^ 64)
    (hne : t.globalCount ≠ 0) :
    t.globalCentroid = (List.range dim).map fun d => meanAt d vs := by
  rw [globalCentroid, if_neg hne, h.count, h.sum, divideBy_running dim hlen]

/-- A shift, taken apart. -/
theorem delta_eq_some (h : t.Tracks dim config vs obs) (hlen : vs.length < 2 ^ 64)
    {field : String} {value : K} {op : RangeOp K} {ds : List K}
    (hd : t.delta field value op = some ds) :
    ∃ bs idx candidates, boundariesOf config field = some bs ∧
      candidateIndices (bucketsOf dim (obs field) bs) idx op = some candidates ∧
      ∃ sumDelta n, sumShifts (bucketsOf dim (obs field) bs)
        ((List.range dim).map fun d => meanAt d vs) candidates
        ((List.range dim).map fun _ => (0 : K), 0) = (sumDelta, n) ∧
      (ds = sumDelta ∨ ds = sumDelta.map fun s => F64.div s (F64.ofInt n)) := by
  unfold delta at hd
  simp only [Option.bind_eq_bind, Option.bind_eq_some_iff, h.fields, Option.map_eq_some_iff,
    zeros_eq, h.size] at hd
  obtain ⟨_, ⟨bs, hbs, rfl⟩, idx, _, hd⟩ := hd
  split at hd
  · cases hd
  · next hcount =>
    obtain ⟨candidates, hcand, hd⟩ := Option.bind_eq_some_iff.mp hd
    rw [globalCentroid_eq h hlen hcount] at hd
    refine ⟨bs, idx, candidates, hbs, hcand, _, _, rfl, ?_⟩
    split at hd
    · cases hd
    · split at hd
      · exact .inl (Option.some.inj hd).symm
      · exact .inr (Option.some.inj hd).symm

theorem delta_still (h : t.Tracks dim config vs obs) (hlen : vs.length < 2 ^ 64)
    {field : String} (hobs : (obs field).length < 2 ^ 64)
    (hgap : ∀ bs idx, boundariesOf config field = some bs → inBucket (obs field) bs idx ≠ [] →
      ∀ d < dim, gap vs (obs field) bs idx d = 0)
    {value : K} {op : RangeOp K} {ds : List K} (hd : t.delta field value op = some ds) :
    ∀ x ∈ ds, x = 0 := by
  obtain ⟨bs, _, candidates, hbs, _, sumDelta, n, hsum, hds⟩ := delta_eq_some h hlen hd
  obtain ⟨m, hsame⟩ := sumShifts_still hobs (fun idx => hgap bs idx hbs) (fun _ => 0) candidates 0
  rw [hsame, Prod.mk.injEq] at hsum
  have hzero : ∀ x ∈ sumDelta, x = 0 := by
    rw [← hsum.1]
    intro x hx
    obtain ⟨_, _, rfl⟩ := List.mem_map.mp hx
    rfl
  rcases hds with rfl | rfl
  · exact hzero
  · intro x hx
    obtain ⟨s, hs, rfl⟩ := List.mem_map.mp hx
    simp [hzero s hs]

theorem globalCount_ne_zero (h : t.Tracks dim config vs obs) (hlen : vs.length < 2 ^ 64)
    {field : String} (hle : (obs field).length ≤ vs.length) (hne : obs field ≠ []) :
    t.globalCount ≠ 0 := by
  rw [h.count]
  apply length_ne_zero hlen
  intro hnil
  rw [hnil, List.length_nil] at hle
  exact hne (List.length_eq_zero_iff.mp (by omega))

/-- Asked for a number it has seen, the tracker answers with the bucket of that number. -/
theorem delta_seen (h : t.Tracks dim config vs obs) (hlen : vs.length < 2 ^ 64)
    {field : String} (hle : (obs field).length ≤ vs.length) {bs : List K}
    (hbs : boundariesOf config field = some bs) {o : K × List K} (ho : o ∈ obs field) {idx : Nat}
    (hidx : bucketIndex bs o.1 = some idx) :
    t.delta field o.1 .eq =
      some ((List.range dim).map fun d => gap vs (obs field) bs idx d) := by
  have hcount := globalCount_ne_zero h hlen hle (List.ne_nil_of_mem ho)
  have hbucket : idx < bs.length ∧ inBucket (obs field) bs idx ≠ [] := by
    refine ⟨bucketIndex_lt hidx, List.ne_nil_of_mem (a := o.2) ?_⟩
    exact List.mem_map_of_mem (List.mem_filter.mpr ⟨ho, by simpa using hidx⟩)
  have hbound : (bucketsOf dim (obs field) bs).boundaries = bs := rfl
  have hobs : (obs field).length < 2 ^ 64 := by omega
  unfold delta
  simp only [h.fields, hbs, Option.map_some, Option.bind_eq_bind, Option.bind_some, hbound, hidx,
    if_neg hcount, candidateIndices, globalCentroid_eq h hlen hcount, h.size, zeros_eq]
  rw [sumShifts_cons hobs, if_pos hbucket]
  simp [sumShifts]

theorem exists_bound (bs : List K) : ∃ m, ∀ b ∈ bs, b ≤ m := by
  induction bs with
  | nil => exact ⟨0, by simp⟩
  | cons b bs ih =>
    obtain ⟨m, hm⟩ := ih
    refine ⟨max b m, ?_⟩
    intro x hx
    rcases List.mem_cons.mp hx with rfl | hx
    · exact le_max_left _ _
    · exact (hm x hx).trans (le_max_right _ _)

/-- Every bucket but a single one can be missed by a range that is turned round. -/
theorem delta_none [IsStrictOrderedRing K] (h : t.Tracks dim config vs obs) {field : String}
    (hone : ∀ bs, boundariesOf config field = some bs → bs.length ≠ 1) (value : K) :
    ∃ op, t.delta field value op = none := by
  cases hbs : boundariesOf config field with
  | none => exact ⟨.eq, by simp [delta, h.fields, hbs]⟩
  | some bs =>
    cases bs with
    | nil => exact absurd rfl (h.nonempty field [] hbs)
    | cons first rest =>
      obtain ⟨high, hhigh⟩ := exists_bound (first :: rest)
      have hlast : bucketIndex (first :: rest) high = some rest.length := by
        have hfirst : ¬ high < first := not_lt.mpr (hhigh first (by simp))
        have hfind : rest.findIdx? (fun b => F64.lt high b) = none := by
          rw [List.findIdx?_eq_none_iff]
          intro b hb
          simpa using hhigh b (List.mem_cons_of_mem _ hb)
        simp only [bucketIndex, exact_lt, decide_eq_true_eq, if_neg hfirst] at hfind ⊢
        rw [hfind, Option.getD_none]
      have hlow : bucketIndex (first :: rest) (first - 1) = some 0 := by
        simp [bucketIndex]
      have hrest : 0 < rest.length := by
        have := hone _ hbs
        simp only [List.length_cons] at this
        omega
      have hbound : (bucketsOf dim (obs field) (first :: rest)).boundaries = first :: rest := rfl
      obtain ⟨idx, hidx⟩ := bucketIndex_some (h.nonempty field _ hbs) value
      refine ⟨.range high (first - 1), ?_⟩
      have hempty : min 0 ((bucketsOf dim (obs field) (first :: rest)).counts.length - 1) + 1 -
          rest.length = 0 := by omega
      unfold delta
      simp only [h.fields, hbs, Option.map_some, Option.bind_eq_bind, Option.bind_some, hbound,
        hidx, candidateIndices, hlast, hlow, hempty, List.range'_zero]
      simp [sumShifts]

/-- A single bucket with a number in it answers to every filter. -/
theorem delta_single (h : t.Tracks dim config vs obs) (hlen : vs.length < 2 ^ 64)
    {field : String} (hle : (obs field).length ≤ vs.length) (hne : obs field ≠ []) {b : K}
    (hbs : boundariesOf config field = some [b]) (value : K) (op : RangeOp K) :
    t.delta field value op ≠ none := by
  have hcount := globalCount_ne_zero h hlen hle hne
  have hzero : ∀ x, bucketIndex [b] x = some 0 := by
    intro x
    simp [bucketIndex]
  have hbound : (bucketsOf dim (obs field) [b]).boundaries = [b] := rfl
  have hcounts : (bucketsOf dim (obs field) [b]).counts.length = 1 := by simp [bucketsOf]
  have hcand : candidateIndices (bucketsOf dim (obs field) [b]) 0 op = some [0] := by
    cases op <;> simp [candidateIndices, hcounts, hbound, hzero]
  have hbucket : 0 < [b].length ∧ inBucket (obs field) [b] 0 ≠ [] := by
    simpa [inBucket, hzero] using hne
  unfold delta
  simp only [h.fields, hbs, Option.map_some, Option.bind_eq_bind, Option.bind_some, hbound, hzero,
    if_neg hcount, hcand, globalCentroid_eq h hlen hcount, h.size, zeros_eq]
  rw [sumShifts_cons (by omega), if_pos hbucket]
  simp [sumShifts]

end NumericalBucketTracker

end Tesseract.L3
