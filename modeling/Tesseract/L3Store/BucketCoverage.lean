import Mathlib.Algebra.BigOperators.Group.Finset.Piecewise
import Mathlib.Algebra.GroupWithZero.Nat
import Mathlib.Data.List.Induction
import Tesseract.L3Store.BiasHistory

/-!
# The buckets of a filter

A number belongs to one bucket, larger numbers to the same one or a later one, so that the
buckets from that of a bound on cover everything above it. The boundaries need not be
sorted for that.

* `bucketIndex_mono`: a larger number, a later bucket.
* `delta_eq_averaged`: a shift averages over the buckets that are asked for and not empty.
* `sum_counts`: the counts of the buckets are the updates since the registration.
* `buckets_cover`: a recorded number that satisfies a filter is in a bucket of its average.
-/
namespace Tesseract.L3

variable {α : Type} [F64 α]

/-- Whether a number satisfies a filter. -/
def RangeOp.holds [F64Math α] (op : RangeOp α) (value x : α) : Bool :=
  match op with
  | .eq => F64Math.eq x value
  | .gte => F64Math.le value x
  | .gt => F64.lt value x
  | .lte => F64Math.le x value
  | .lt => F64.lt x value
  | .range low high => F64Math.le low x && F64Math.le x high

namespace NumericalBucketTracker

/-! ## The bucket of a number -/

omit [F64 α] in
theorem findIdx_mono {p q : α → Bool} (h : ∀ b, q b = true → p b = true) (bs : List α) :
    (bs.findIdx? p).getD bs.length ≤ (bs.findIdx? q).getD bs.length := by
  induction bs with
  | nil => simp
  | cons b bs ih =>
    rw [List.findIdx?_cons, List.findIdx?_cons]
    cases hp : p b with
    | true => simp
    | false =>
      have hq : q b = false := by
        rw [Bool.eq_false_iff]
        intro hq
        rw [h b hq] at hp
        cases hp
      simpa [hq, Option.getD_map] using ih

/-- A larger number is in the same bucket or a later one. -/
theorem bucketIndex_mono [F64Math α] [OrderF64 α] {boundaries : List α} {x y : α} {i j : Nat}
    (hxy : F64Math.le x y = true) (hi : bucketIndex boundaries x = some i)
    (hj : bucketIndex boundaries y = some j) : i ≤ j := by
  have hlt : ∀ b, F64.lt y b = true → F64.lt x b = true :=
    fun b hb => OrderF64.lt_of_le_of_lt x y b hxy hb
  cases boundaries with
  | nil => cases hi
  | cons first rest =>
    unfold bucketIndex at hi hj
    dsimp only at hi hj
    by_cases hy : F64.lt y first = true
    · rw [if_pos (hlt first hy)] at hi
      cases hi
      exact Nat.zero_le j
    · rw [if_neg hy] at hj
      cases hj
      split at hi
      · cases hi
        exact Nat.zero_le _
      · cases hi
        exact findIdx_mono hlt rest

/-! ## The average -/

/-- A bucket that `delta` averages over: it is there and not empty. -/
def averages (buckets : NumericalBuckets α) (idx : Nat) : Bool :=
  match buckets.counts[idx]?, buckets.sums[idx]? with
  | some count, some _ => decide (0 < count)
  | _, _ => false

/-- The buckets that `delta` averages over. -/
def averagedIndices (buckets : NumericalBuckets α) (value : α) (op : RangeOp α) :
    Option (List Nat) := do
  let valueIdx ← bucketIndex buckets.boundaries value
  let candidates ← candidateIndices buckets valueIdx op
  some (candidates.filter (averages buckets))

/-- Each of the averaged buckets adds its shift, and no other one. -/
theorem sumShifts_averaged (buckets : NumericalBuckets α) (global : List α)
    (candidates : List Nat) (sumDelta : List α) (validCount : Nat) :
    sumShifts buckets global candidates (sumDelta, validCount) =
      ((candidates.filter (averages buckets)).foldl (fun acc idx =>
          addShift (buckets.counts.getD idx 0) acc (buckets.sums.getD idx []) global) sumDelta,
        validCount + (candidates.filter (averages buckets)).length) := by
  induction candidates generalizing sumDelta validCount with
  | nil => rfl
  | cons idx rest ih =>
    rw [sumShifts, List.filter_cons]
    unfold averages at ih ⊢
    cases hcount : buckets.counts[idx]? with
    | none => simp [ih]
    | some count =>
      cases hsum : buckets.sums[idx]? with
      | none => simp [ih]
      | some sum =>
        by_cases hpos : 0 < count
        · simp [ih, hpos, hcount, hsum, Nat.add_assoc, Nat.add_comm 1]
        · simp [ih, hpos]

/-- The mean of the shifts of the buckets `idxs`. -/
def meanShifts (buckets : NumericalBuckets α) (global : List α) (dim : Nat) (idxs : List Nat) :
    List α :=
  let sumDelta := idxs.foldl (fun acc idx =>
    addShift (buckets.counts.getD idx 0) acc (buckets.sums.getD idx []) global) (zeros α dim)
  if idxs.length = 1 then sumDelta
  else sumDelta.map fun s => F64.div s (F64.ofInt idxs.length)

/-- A shift is the mean over the averaged buckets. -/
theorem delta_eq_averaged (t : NumericalBucketTracker α) (field : String) (value : α)
    (op : RangeOp α) :
    t.delta field value op = (t.fields.lookup field).bind fun buckets =>
      (averagedIndices buckets value op).bind fun idxs =>
        if t.globalCount = 0 ∨ idxs = [] then none
        else some (meanShifts buckets t.globalCentroid t.dim idxs) := by
  unfold delta averagedIndices
  cases hlook : t.fields.lookup field with
  | none => rfl
  | some buckets =>
    cases hvalue : bucketIndex buckets.boundaries value with
    | none => simp [hvalue]
    | some valueIdx =>
      cases hcand : candidateIndices buckets valueIdx op with
      | none => simp [hvalue, hcand]
      | some candidates =>
        by_cases hzero : t.globalCount = 0
        · simp [hzero]
        · simp only [Option.bind_eq_bind, Option.bind_some, hvalue, hcand, hzero, if_false,
            false_or, sumShifts_averaged, Nat.zero_add, meanShifts, List.length_eq_zero_iff]
          split
          · rfl
          · split <;> rfl

/-! ## Runs -/

/-- A call of the tracker. -/
inductive Op (α : Type) where
  | register (field : String) (boundaries : List α)
  | update (field : String) (value : α) (vector : List α)

/-- A registration that is refused changes nothing. -/
def apply (t : NumericalBucketTracker α) : Op α → Option (NumericalBucketTracker α)
  | .register field boundaries =>
    match t.registerField field boundaries with
    | .ok t' => some t'
    | .error _ => some t
  | .update field value vector => t.update field value vector

/-- Call after call; `none` stands for a panic. -/
def run (t : NumericalBucketTracker α) (ops : List (Op α)) : Option (NumericalBucketTracker α) :=
  ops.foldlM apply t

theorem run_concat (t : NumericalBucketTracker α) (ops : List (Op α)) (op : Op α) :
    t.run (ops ++ [op]) = (t.run ops).bind fun t => t.apply op := by
  simp [run, List.foldlM_append]

/-- One call, for what is recorded of a field. -/
def record (field : String) (found : Option (List α × List (α × List α))) :
    Op α → Option (List α × List (α × List α))
  | .register f boundaries =>
    if f = field ∧ boundaries ≠ [] then some (boundaries, []) else found
  | .update f value vector =>
    if f = field then found.map fun p => (p.1, p.2 ++ [(value, vector)]) else found

/-- The boundaries of a registered field, and its updates since. -/
def recorded (ops : List (Op α)) (field : String) : Option (List α × List (α × List α)) :=
  ops.foldl (record field) none

omit [F64 α] in
theorem recorded_concat (ops : List (Op α)) (op : Op α) (field : String) :
    recorded (ops ++ [op]) field = record field (recorded ops field) op := by
  simp [recorded]

omit [F64 α] in
/-- No field is registered without boundaries. -/
theorem recorded_ne_nil {ops : List (Op α)} {field : String} {p : List α × List (α × List α)}
    (h : recorded ops field = some p) : p.1 ≠ [] := by
  induction ops using List.reverseRecOn generalizing p with
  | nil => cases h
  | append_singleton ops op ih =>
    rw [recorded_concat] at h
    cases op with
    | register f bs =>
      dsimp only [record] at h
      split at h
      · next hf =>
        cases h
        exact hf.2
      · exact ih h
    | update f x vector =>
      dsimp only [record] at h
      split at h
      · obtain ⟨q, hq, rfl⟩ := Option.map_eq_some_iff.mp h
        have hne : q.1 ≠ [] := ih hq
        exact hne
      · exact ih h

/-- The tracker behind the calls `ops`. -/
structure Records (t : NumericalBucketTracker α) (dim : Nat) (ops : List (Op α)) : Prop where
  size : t.dim = dim
  fields : ∀ field, t.fields.lookup field =
    (recorded ops field).map fun p => bucketsOf dim p.2 p.1

theorem records_new (dim : Nat) : (new dim : NumericalBucketTracker α).Records dim [] where
  size := rfl
  fields _ := rfl

/-- An update puts the vector into the bucket of the number, if the field has buckets. -/
theorem Records.update {t : NumericalBucketTracker α} {dim : Nat} {ops : List (Op α)}
    (h : t.Records dim ops) (f : String) (x : α) (vector : List α) :
    ∃ t', t.update f x vector = some t' ∧ t'.dim = dim ∧ ∀ field, t'.fields.lookup field =
      (record field (recorded ops field) (.update f x vector)).map fun p =>
        bucketsOf dim p.2 p.1 := by
  unfold NumericalBucketTracker.update
  dsimp only
  rw [h.fields]
  cases hrec : recorded ops f with
  | none =>
    refine ⟨_, rfl, h.size, fun field => ?_⟩
    by_cases hf : f = field
    · subst hf
      simp [record, h.fields, hrec]
    · simp [record, hf, h.fields]
  | some p =>
    obtain ⟨bs, obs⟩ := p
    obtain ⟨idx, hidx⟩ := bucketIndex_some (recorded_ne_nil hrec) x
    have hlt := bucketIndex_lt hidx
    have hsums : idx < (bucketsOf dim obs bs).sums.length := by simp [bucketsOf, hlt]
    have hcounts : idx < (bucketsOf dim obs bs).counts.length := by simp [bucketsOf, hlt]
    have hbound : (bucketsOf dim obs bs).boundaries = bs := rfl
    simp only [Option.map_some, hbound, hidx, Option.bind_eq_bind, Option.bind_some, if_pos hsums,
      hcounts, guard_true, Option.pure_def]
    refine ⟨_, rfl, h.size, fun field => ?_⟩
    by_cases hf : f = field
    · subst hf
      simp [record, hrec, bucketsOf_concat hidx, hbound]
    · have hne : field ≠ f := fun heq => hf heq.symm
      simp [record, hf, AList.lookup_insert_ne hne, h.fields]

/-- A registration starts the buckets of its field anew. -/
theorem Records.register {t : NumericalBucketTracker α} {dim : Nat} {ops : List (Op α)}
    (h : t.Records dim ops) (f : String) (bs : List α) :
    ∃ t', t.apply (.register f bs) = some t' ∧ t'.dim = dim ∧ ∀ field, t'.fields.lookup field =
      (record field (recorded ops field) (.register f bs)).map fun p => bucketsOf dim p.2 p.1 := by
  unfold NumericalBucketTracker.apply registerField
  cases bs with
  | nil => exact ⟨t, rfl, h.size, fun field => by simp [record, h.fields]⟩
  | cons first rest =>
    refine ⟨_, rfl, h.size, fun field => ?_⟩
    by_cases hf : f = field
    · subst hf
      simp [record, bucketsOf, inBucket, running, h.size]
    · have hne : field ≠ f := fun heq => hf heq.symm
      simp [record, hf, AList.lookup_insert_ne hne, h.fields]

theorem Records.apply {t : NumericalBucketTracker α} {dim : Nat} {ops : List (Op α)}
    (h : t.Records dim ops) (op : Op α) :
    ∃ t', t.apply op = some t' ∧ t'.Records dim (ops ++ [op]) := by
  cases op with
  | register f bs =>
    obtain ⟨t', happly, hsize, hfields⟩ := h.register f bs
    exact ⟨t', happly, hsize, fun field => by rw [recorded_concat, hfields]⟩
  | update f x vector =>
    obtain ⟨t', hup, hsize, hfields⟩ := h.update f x vector
    exact ⟨t', hup, hsize, fun field => by rw [recorded_concat, hfields]⟩

/-- No call panics, whatever was registered before. -/
theorem records_run (dim : Nat) (ops : List (Op α)) :
    ∃ t, (new dim : NumericalBucketTracker α).run ops = some t ∧ t.Records dim ops := by
  induction ops using List.reverseRecOn with
  | nil => exact ⟨new dim, rfl, records_new dim⟩
  | append_singleton ops op ih =>
    obtain ⟨t, hrun, ht⟩ := ih
    obtain ⟨t', hop, ht'⟩ := ht.apply op
    exact ⟨t', by rw [run_concat, hrun, Option.bind_some, hop], ht'⟩

/-- Every recorded number is counted in one bucket. -/
theorem sum_inBucket {bs : List α} (hne : bs ≠ []) (obs : List (α × List α)) :
    ((List.range bs.length).map fun i => (inBucket obs bs i).length).sum = obs.length := by
  induction obs using List.reverseRecOn with
  | nil => simp [inBucket]
  | append_singleton obs o ih =>
    obtain ⟨idx, hidx⟩ := bucketIndex_some hne o.1
    have hlt := bucketIndex_lt hidx
    have hstep : ∀ i, (inBucket (obs ++ [o]) bs i).length =
        (inBucket obs bs i).length + if idx = i then 1 else 0 := by
      intro i
      by_cases hi : idx = i <;> simp [inBucket_concat, hidx, hi]
    have hone : ((List.range bs.length).map fun i => if idx = i then 1 else 0).sum = 1 := by
      show ∑ i ∈ Finset.range bs.length, (if idx = i then 1 else 0) = 1
      rw [Finset.sum_ite_eq, if_pos (Finset.mem_range.mpr hlt)]
    simp only [hstep, List.sum_map_add, ih, hone, List.length_append, List.length_singleton]

theorem sum_counts {dim : Nat} {bs : List α} (hne : bs ≠ []) {obs : List (α × List α)}
    (hlen : obs.length < 2 ^ 64) :
    ((bucketsOf dim obs bs).counts.map UInt64.toNat).sum = obs.length := by
  have hcount : ∀ i, (UInt64.ofNat (inBucket obs bs i).length).toNat =
      (inBucket obs bs i).length := by
    intro i
    have hle : (inBucket obs bs i).length ≤ obs.length := by
      rw [inBucket, List.length_map]
      exact List.length_filter_le _ _
    exact UInt64.toNat_ofNat_of_lt' (lt_of_le_of_lt hle hlen)
  simp only [bucketsOf, List.map_map, Function.comp_def, hcount, sum_inBucket hne]

/-! ## Coverage -/

variable [F64Math α] [OrderF64 α]

omit [F64Math α] [OrderF64 α] in
theorem candidateIndices_some {bs : List α} (hne : bs ≠ []) (dim : Nat)
    (obs : List (α × List α)) (valueIdx : Nat) (op : RangeOp α) :
    ∃ candidates, candidateIndices (bucketsOf dim obs bs) valueIdx op = some candidates := by
  cases op with
  | range low high =>
    obtain ⟨lowIdx, hlow⟩ := bucketIndex_some hne low
    obtain ⟨highIdx, hhigh⟩ := bucketIndex_some hne high
    have hbound : (bucketsOf dim obs bs).boundaries = bs := rfl
    simp only [candidateIndices, hbound, hlow, hhigh, Option.bind_eq_bind, Option.bind_some]
    exact ⟨_, rfl⟩
  | _ => exact ⟨_, rfl⟩

/-- The bucket of a number that satisfies a filter is asked for. -/
theorem mem_candidateIndices {dim : Nat} {bs : List α} {obs : List (α × List α)} {value x : α}
    {op : RangeOp α} {idx valueIdx : Nat} {candidates : List Nat}
    (hx : bucketIndex bs x = some idx) (hvalue : bucketIndex bs value = some valueIdx)
    (hcand : candidateIndices (bucketsOf dim obs bs) valueIdx op = some candidates)
    (hop : op.holds value x = true) : idx ∈ candidates := by
  have hlt := bucketIndex_lt hx
  have hcounts : (bucketsOf dim obs bs).counts.length = bs.length := by simp [bucketsOf]
  have habove : F64Math.le value x = true → idx ∈ List.range' valueIdx (bs.length - valueIdx) := by
    intro hle
    have hmono := bucketIndex_mono hle hvalue hx
    rw [List.mem_range'_1]
    omega
  have hbelow : F64Math.le x value = true → idx ∈ List.range (valueIdx + 1) := by
    intro hle
    have hmono := bucketIndex_mono hle hx hvalue
    rw [List.mem_range]
    omega
  rw [candidateIndices.eq_def, hcounts] at hcand
  cases op with
  | eq =>
    cases hcand
    obtain ⟨hxv, hvx⟩ := (Bool.and_eq_true _ _).mp hop
    have h₁ := bucketIndex_mono hxv hx hvalue
    have h₂ := bucketIndex_mono hvx hvalue hx
    exact List.mem_singleton.mpr (by omega)
  | gte =>
    cases hcand
    exact habove hop
  | gt =>
    cases hcand
    exact habove (OrderF64.le_of_lt _ _ hop)
  | lte =>
    cases hcand
    exact hbelow hop
  | lt =>
    cases hcand
    exact hbelow (OrderF64.le_of_lt _ _ hop)
  | range low high =>
    obtain ⟨hlow, hhigh⟩ := (Bool.and_eq_true _ _).mp hop
    simp only [Option.bind_eq_bind, Option.bind_eq_some_iff, Option.some.injEq] at hcand
    obtain ⟨lowIdx, hlowIdx, highIdx, hhighIdx, rfl⟩ := hcand
    have h₁ := bucketIndex_mono hlow hlowIdx hx
    have h₂ := bucketIndex_mono hhigh hx hhighIdx
    rw [List.mem_range'_1]
    omega

omit [F64Math α] [OrderF64 α] in
/-- The bucket of a recorded number is not empty. -/
theorem averages_of_mem {dim : Nat} {bs : List α} {obs : List (α × List α)}
    (hlen : obs.length < 2 ^ 64) {o : α × List α} (ho : o ∈ obs) {idx : Nat}
    (hidx : bucketIndex bs o.1 = some idx) : averages (bucketsOf dim obs bs) idx = true := by
  have hlt := bucketIndex_lt hidx
  have hmem : o.2 ∈ inBucket obs bs idx :=
    List.mem_map_of_mem (List.mem_filter.mpr ⟨ho, by simpa using hidx⟩)
  have hle : (inBucket obs bs idx).length ≤ obs.length := by
    rw [inBucket, List.length_map]
    exact List.length_filter_le _ _
  have hpos : 0 < UInt64.ofNat (inBucket obs bs idx).length := by
    rw [UInt64.lt_iff_toNat_lt, UInt64.toNat_ofNat_of_lt' (lt_of_le_of_lt hle hlen)]
    exact List.length_pos_of_mem hmem
  have hcount : (bucketsOf dim obs bs).counts[idx]? =
      some (UInt64.ofNat (inBucket obs bs idx).length) := by simp [bucketsOf, hlt]
  have hsum : (bucketsOf dim obs bs).sums[idx]? = some (running dim (inBucket obs bs idx)) := by
    simp [bucketsOf, hlt]
  simpa only [averages, hcount, hsum, decide_eq_true_eq] using hpos

/-- A recorded number that satisfies a filter is in a bucket of its average. -/
theorem exists_averagedIndices {dim : Nat} {bs : List α} (hne : bs ≠ [])
    {obs : List (α × List α)} (hlen : obs.length < 2 ^ 64) (value : α) (op : RangeOp α) :
    ∃ idxs, averagedIndices (bucketsOf dim obs bs) value op = some idxs ∧
      ∀ o ∈ obs, op.holds value o.1 = true → ∃ idx ∈ idxs, bucketIndex bs o.1 = some idx := by
  obtain ⟨valueIdx, hvalue⟩ := bucketIndex_some hne value
  obtain ⟨candidates, hcand⟩ := candidateIndices_some hne dim obs valueIdx op
  have hbound : (bucketsOf dim obs bs).boundaries = bs := rfl
  refine ⟨candidates.filter (averages (bucketsOf dim obs bs)), ?_, ?_⟩
  · simp only [averagedIndices, hbound, hvalue, hcand, Option.bind_eq_bind, Option.bind_some]
  · intro o ho hop
    obtain ⟨idx, hidx⟩ := bucketIndex_some hne o.1
    have hmem := mem_candidateIndices hidx hvalue hcand hop
    exact ⟨idx, List.mem_filter.mpr ⟨hmem, averages_of_mem hlen ho hidx⟩, hidx⟩

/-- Behind any calls, for a field registered with `bs` and `obs` recorded since: every number
has a bucket, larger ones a later bucket, the counts sum to the updates, and every recorded
number that satisfies a filter is in a bucket that the shift of the filter averages over. -/
theorem buckets_cover (dim : Nat) {ops : List (Op α)} {field : String} {bs : List α}
    {obs : List (α × List α)} (hrec : recorded ops field = some (bs, obs))
    (hlen : obs.length < 2 ^ 64) :
    ∃ t buckets, (new dim : NumericalBucketTracker α).run ops = some t ∧
      t.fields.lookup field = some buckets ∧ buckets.boundaries = bs ∧
      (∀ x, ∃ i < bs.length, bucketIndex bs x = some i) ∧
      (∀ x y i j, F64Math.le x y = true → bucketIndex bs x = some i →
        bucketIndex bs y = some j → i ≤ j) ∧
      (buckets.counts.map UInt64.toNat).sum = obs.length ∧
      ∀ op value, ∃ idxs, averagedIndices buckets value op = some idxs ∧
        ∀ o ∈ obs, op.holds value o.1 = true → ∃ i ∈ idxs, bucketIndex bs o.1 = some i := by
  have hne : bs ≠ [] := recorded_ne_nil hrec
  obtain ⟨t, hrun, ht⟩ := records_run dim ops
  refine ⟨t, bucketsOf dim obs bs, hrun, ?_, rfl, ?_, ?_, sum_counts hne hlen, ?_⟩
  · rw [ht.fields, hrec, Option.map_some]
  · intro x
    obtain ⟨i, hi⟩ := bucketIndex_some hne x
    exact ⟨i, bucketIndex_lt hi, hi⟩
  · exact fun x y i j => bucketIndex_mono
  · exact fun op value => exists_averagedIndices hne hlen value op

/-- Two years before the last registration, and two behind it. -/
def yearOps : List (Op Lit) :=
  [.register "year" [.fin 2000], .update "year" (.fin 1990) [.fin 1],
    .register "year" [.fin 2015, .fin 2018, .fin 2021],
    .update "year" (.fin 2012) [.fin 2], .update "year" (.fin 2018) [.fin 3],
    .update "month" (.fin 5) [.fin 4]]

theorem yearOps_cover :
    ∃ t buckets, (new 1 : NumericalBucketTracker Lit).run yearOps = some t ∧
      t.fields.lookup "year" = some buckets ∧
      buckets.boundaries = [.fin 2015, .fin 2018, .fin 2021] ∧
      (∀ x, ∃ i < 3, bucketIndex [Lit.fin 2015, .fin 2018, .fin 2021] x = some i) ∧
      (∀ x y i j, F64Math.le x y = true →
        bucketIndex [Lit.fin 2015, .fin 2018, .fin 2021] x = some i →
        bucketIndex [Lit.fin 2015, .fin 2018, .fin 2021] y = some j → i ≤ j) ∧
      (buckets.counts.map UInt64.toNat).sum = 2 ∧
      ∀ op value, ∃ idxs, averagedIndices buckets value op = some idxs ∧
        ∀ o ∈ [(Lit.fin 2012, [Lit.fin 2]), (.fin 2018, [.fin 3])],
          op.holds value o.1 = true →
            ∃ i ∈ idxs, bucketIndex [Lit.fin 2015, .fin 2018, .fin 2021] o.1 = some i := by
  have hrec : recorded yearOps "year" = some ([.fin 2015, .fin 2018, .fin 2021],
      [(.fin 2012, [.fin 2]), (.fin 2018, [.fin 3])]) := rfl
  exact buckets_cover 1 hrec (by decide)

end NumericalBucketTracker

end Tesseract.L3
