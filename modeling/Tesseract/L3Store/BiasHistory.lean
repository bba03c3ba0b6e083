import Mathlib.Data.List.AList
import Mathlib.Data.Option.Basic
import Tesseract.L3Store.Bias

/-!
# What the trackers know

A tracker is a function of the vectors and the metadata it was updated with: a
running sum and a count for each category and each bucket, and the folded
statistics of each numerical field.

* `CentroidTracker.Tracks`, `CorrelationTracker.Tracks`, `NumericalBucketTracker.Tracks`: the
  three of them behind a history.
* `Tracks.update`, `Tracks.updateAll`: behind one more update, and one more insert.
-/
namespace Tesseract.L3

open Serde

variable {α : Type} [F64 α]

/-- A vector and its metadata. -/
abbrev Row (α : Type) [F64 α] := List α × Value α

/-! ## Running sums -/

def running (dim : Nat) (vs : List (List α)) : List α := vs.foldl addInto (zeros α dim)

@[simp] theorem length_addInto (sum vector : List α) :
    (addInto sum vector).length = sum.length := by
  induction sum generalizing vector with
  | nil => cases vector <;> rfl
  | cons s sum ih => cases vector <;> simp [addInto, ih]

theorem running_concat (dim : Nat) (vs : List (List α)) (v : List α) :
    running dim (vs ++ [v]) = addInto (running dim vs) v := by
  simp [running]

theorem length_foldl_addInto (vs : List (List α)) (sum : List α) :
    (vs.foldl addInto sum).length = sum.length := by
  induction vs generalizing sum with
  | nil => rfl
  | cons v vs ih => simp [ih]

@[simp] theorem length_running (dim : Nat) (vs : List (List α)) :
    (running dim vs).length = dim := by
  simp [running, length_foldl_addInto, zeros]

/-- The stats of a category, absent before its first vector. -/
def tally (dim : Nat) (vs : List (List α)) : Option (List α × UInt64) :=
  if vs = [] then none else some (running dim vs, UInt64.ofNat vs.length)

theorem ofNat_succ (n : Nat) : UInt64.ofNat (n + 1) = UInt64.ofNat n + 1 := by
  simp [UInt64.ofNat_add]

theorem tally_concat (dim : Nat) (vs : List (List α)) (v : List α) :
    tally dim (vs ++ [v]) = some (addInto ((tally dim vs).getD (zeros α dim, 0)).1 v,
      ((tally dim vs).getD (zeros α dim, 0)).2 + 1) := by
  unfold tally
  by_cases h : vs = []
  · simp [h, running]
  · simp [h, running_concat, ofNat_succ]

/-! ## Categories -/

/-- The category in a field. -/
def categoryOf (metadata : Value α) (field : String) : Option String :=
  match Json.get metadata field with
  | some (.str cat) => some cat
  | _ => none

/-- The vectors in a category, once for each time the field is tracked. -/
def inCategory (fields : List String) (rows : List (Row α)) (field value : String) :
    List (List α) :=
  rows.flatMap fun r =>
    if categoryOf r.2 field = some value then List.replicate (fields.count field) r.1 else []

namespace CentroidTracker

/-- The tracker behind the updates with `rows`. -/
structure Tracks (t : CentroidTracker α) (dim : Nat) (fields : List String)
    (rows : List (Row α)) : Prop where
  sum : t.globalSum = running dim (rows.map Prod.fst)
  count : t.globalCount = UInt64.ofNat rows.length
  entry : ∀ field value, t.entry field value = tally dim (inCategory fields rows field value)

theorem tracks_new (dim : Nat) (fields : List String) :
    (new dim : CentroidTracker α).Tracks dim fields [] :=
  ⟨rfl, rfl, fun _ _ => rfl⟩

theorem updateField_sum (vector : List α) (metadata : Value α) (t : CentroidTracker α)
    (f : String) :
    (updateField vector metadata t f).globalSum = t.globalSum ∧
      (updateField vector metadata t f).globalCount = t.globalCount := by
  unfold updateField
  split <;> exact ⟨rfl, rfl⟩

/-- One tracked field changes the entry of its own category only. -/
theorem entry_updateField (vector : List α) (metadata : Value α) (t : CentroidTracker α)
    (f field value : String) :
    (updateField vector metadata t f).entry field value =
      if f = field ∧ categoryOf metadata field = some value then
        some (addInto ((t.entry field value).getD (zeros α t.globalSum.length, 0)).1 vector,
          ((t.entry field value).getD (zeros α t.globalSum.length, 0)).2 + 1)
      else t.entry field value := by
  unfold updateField
  split
  · next cat hget =>
    have hcat : categoryOf metadata f = some cat := by simp [categoryOf, hget]
    unfold entry
    by_cases hfield : f = field
    · subst hfield
      by_cases hvalue : cat = value
      · subst hvalue
        cases hlook : t.categories.lookup f <;> simp [hcat, -AList.insert_empty]
      · have hne : value ≠ cat := fun h => hvalue h.symm
        cases hlook : t.categories.lookup f <;> simp [hcat, hvalue, hne, -AList.insert_empty]
    · have hne : field ≠ f := fun h => hfield h.symm
      simp [hfield, AList.lookup_insert_ne hne]
  · next hget =>
    rw [if_neg]
    intro ⟨hfield, hcat⟩
    subst hfield
    unfold categoryOf at hcat
    split at hcat
    · next cat hcat' => exact hget cat hcat'
    · cases hcat

/-- The loop over the tracked fields. -/
theorem entry_fields (vector : List α) (metadata : Value α) {dim : Nat} (field value : String)
    (fields : List String) : ∀ {t : CentroidTracker α} {vs : List (List α)},
    t.globalSum.length = dim → t.entry field value = tally dim vs →
    (fields.foldl (updateField vector metadata) t).entry field value = tally dim (vs ++
      if categoryOf metadata field = some value then List.replicate (fields.count field) vector
      else []) := by
  induction fields with
  | nil =>
    intro t vs _ hvs
    simp [hvs]
  | cons f fields ih =>
    intro t vs hlen hvs
    have hentry := entry_updateField vector metadata t f field value
    have hlen' : (updateField vector metadata t f).globalSum.length = dim := by
      rw [(updateField_sum vector metadata t f).1, hlen]
    rw [hlen, hvs, ← tally_concat] at hentry
    rw [List.foldl_cons]
    by_cases hcat : categoryOf metadata field = some value
    · by_cases hf : f = field
      · rw [if_pos ⟨hf, hcat⟩] at hentry
        rw [ih hlen' hentry]
        simp [hcat, hf, List.replicate_succ]
      · rw [if_neg (by simp [hf])] at hentry
        rw [ih hlen' hentry]
        simp [hcat, hf]
    · rw [if_neg (by simp [hcat])] at hentry
      rw [ih hlen' hentry]
      simp [hcat]

theorem fields_sum (vector : List α) (metadata : Value α) (fields : List String) :
    ∀ t : CentroidTracker α,
    (fields.foldl (updateField vector metadata) t).globalSum = t.globalSum ∧
      (fields.foldl (updateField vector metadata) t).globalCount = t.globalCount := by
  induction fields with
  | nil => exact fun t => ⟨rfl, rfl⟩
  | cons f fields ih =>
    intro t
    have h := updateField_sum vector metadata t f
    rw [List.foldl_cons, (ih _).1, (ih _).2]
    exact h

theorem Tracks.update {t : CentroidTracker α} {dim : Nat} {fields : List String}
    {rows : List (Row α)} (h : t.Tracks dim fields rows) (r : Row α) :
    (t.update r.1 r.2 fields).Tracks dim fields (rows ++ [r]) := by
  unfold CentroidTracker.update
  obtain ⟨hsum, hcount⟩ := fields_sum r.1 r.2 fields
    { t with globalSum := addInto t.globalSum r.1, globalCount := t.globalCount + 1 }
  have hlen : (addInto t.globalSum r.1).length = dim := by simp [h.sum]
  refine ⟨?_, ?_, ?_⟩
  · rw [hsum]
    simp [h.sum, running_concat]
  · rw [hcount]
    simp [h.count, ofNat_succ]
  · intro field value
    have hentry := h.entry field value
    have hfold := entry_fields r.1 r.2 field value fields (t := { t with
      globalSum := addInto t.globalSum r.1
      globalCount := t.globalCount + 1 }) hlen hentry
    rw [hfold]
    simp [inCategory]

end CentroidTracker

/-! ## Numbers -/

/-- The number in a field. -/
def numberOf (metadata : Value α) (field : String) : Option α :=
  Json.get metadata field >>= decodeF64

/-- What one row says about a field, once for each time the field is tracked. -/
def observed (fields : List String) (r : Row α) (field : String) : List (α × List α) :=
  match numberOf r.2 field with
  | some x => List.replicate (fields.count field) (x, r.1)
  | none => []

/-- The numbers in a field with their vectors. -/
def numbered (fields : List String) (rows : List (Row α)) (field : String) : List (α × List α) :=
  rows.flatMap fun r => observed fields r field

theorem numbered_concat (fields : List String) (rows : List (Row α)) (r : Row α)
    (field : String) :
    numbered fields (rows ++ [r]) field =
      numbered fields rows field ++ observed fields r field := by
  simp [numbered]

@[simp] theorem observed_nil (r : Row α) (field : String) : observed [] r field = [] := by
  unfold observed
  split <;> simp

theorem observed_cons (f : String) (fields : List String) (r : Row α) (field : String) :
    observed (f :: fields) r field = (match numberOf r.2 f with
      | some x => if f = field then [(x, r.1)] else []
      | none => []) ++ observed fields r field := by
  unfold observed
  by_cases hf : f = field
  · subst hf
    cases numberOf r.2 f <;> simp [List.replicate_succ]
  · cases numberOf r.2 f <;> cases numberOf r.2 field <;> simp [hf]

theorem append_observed_cons (obs : String → List (α × List α)) (f : String)
    (fields : List String) (r : Row α) :
    (fun field => obs field ++ observed (f :: fields) r field) = fun field =>
      (obs field ++ match numberOf r.2 f with
        | some x => if f = field then [(x, r.1)] else []
        | none => []) ++ observed fields r field := by
  funext field
  rw [observed_cons, List.append_assoc]

/-- The statistics of the numbers of one field. -/
def statsOf (dim : Nat) (obs : List (α × List α)) : Option (NumericalStats α) :=
  obs.foldlM (fun s o => s.update o.1 o.2) (NumericalStats.new dim)

theorem statsOf_concat (dim : Nat) (obs : List (α × List α)) (o : α × List α) :
    statsOf dim (obs ++ [o]) = (statsOf dim obs).bind fun s => s.update o.1 o.2 := by
  simp [statsOf, List.foldlM_append]

namespace CorrelationTracker

/-- The tracker that has seen the numbers `obs`. -/
structure Tracks (t : CorrelationTracker α) (dim : Nat) (obs : String → List (α × List α)) :
    Prop where
  size : t.dim = dim
  stats : ∀ field, statsOf dim (obs field) =
    some ((t.fields.lookup field).getD (NumericalStats.new dim))
  seen : ∀ field, t.fields.lookup field = none ↔ obs field = []

theorem tracks_new (dim : Nat) (fields : List String) :
    (new dim : CorrelationTracker α).Tracks dim (numbered fields []) :=
  ⟨rfl, fun _ => rfl, fun _ => by simp [new, numbered]⟩

theorem Tracks.update {t t' : CorrelationTracker α} {dim : Nat}
    {obs : String → List (α × List α)} (h : t.Tracks dim obs) {f : String} {x : α}
    {vector : List α} (hup : t.update f x vector = some t') :
    t'.Tracks dim fun field => obs field ++ if f = field then [(x, vector)] else [] := by
  simp only [CorrelationTracker.update, Option.bind_eq_bind, Option.bind_eq_some_iff,
    Option.some.injEq, h.size] at hup
  obtain ⟨stats, hstats, rfl⟩ := hup
  refine ⟨rfl, ?_, ?_⟩
  · intro field
    by_cases hf : f = field
    · subst hf
      simp [statsOf_concat, h.stats, hstats]
    · have hne : field ≠ f := fun heq => hf heq.symm
      simp [hf, AList.lookup_insert_ne hne, h.stats]
  · intro field
    by_cases hf : f = field
    · subst hf
      simp
    · have hne : field ≠ f := fun heq => hf heq.symm
      simp [hf, AList.lookup_insert_ne hne, h.seen]

/-- The loop over the tracked fields. -/
theorem Tracks.updateAll (r : Row α) {dim : Nat} (fields : List String) :
    ∀ {t t' : CorrelationTracker α} {obs : String → List (α × List α)}, t.Tracks dim obs →
    t.updateAll r.1 r.2 fields = some t' →
    t'.Tracks dim fun field => obs field ++ observed fields r field := by
  induction fields with
  | nil =>
    intro t t' obs h hup
    cases hup
    simpa using h
  | cons f fields ih =>
    intro t t' obs h hup
    unfold CorrelationTracker.updateAll at hup
    rw [append_observed_cons]
    split at hup
    · next num hnum =>
      obtain ⟨t₁, hone, hrest⟩ := Option.bind_eq_some_iff.mp hup
      have hnum' : numberOf r.2 f = some num := hnum
      rw [hnum']
      exact ih (h.update hone) hrest
    · next hnum =>
      have hnum' : numberOf r.2 f = none := hnum
      rw [hnum']
      simpa using ih h hup

end CorrelationTracker

/-! ## Buckets -/

/-- The boundaries of a field: the last ones that were registered. -/
def boundariesOf (config : List (String × List α)) (field : String) : Option (List α) :=
  config.foldl (fun found b => if b.1 = field then some b.2 else found) none

/-- The vectors in bucket `idx` among those with a number in the field. -/
def inBucket (obs : List (α × List α)) (boundaries : List α) (idx : Nat) : List (List α) :=
  (obs.filter fun o =>
    NumericalBucketTracker.bucketIndex boundaries o.1 = some idx).map Prod.snd

/-- The vectors of one row, once for each tracked field with a number. -/
def numbersIn (fields : List String) (r : Row α) : List (List α) :=
  (fields.filter fun f => (numberOf r.2 f).isSome).map fun _ => r.1

/-- The buckets of a field that has seen `obs`. -/
def bucketsOf (dim : Nat) (obs : List (α × List α)) (boundaries : List α) : NumericalBuckets α where
  boundaries := boundaries
  sums := (List.range boundaries.length).map fun i => running dim (inBucket obs boundaries i)
  counts := (List.range boundaries.length).map fun i =>
    UInt64.ofNat (inBucket obs boundaries i).length

theorem inBucket_concat (obs : List (α × List α)) (boundaries : List α) (idx : Nat)
    (o : α × List α) : inBucket (obs ++ [o]) boundaries idx = inBucket obs boundaries idx ++
      if NumericalBucketTracker.bucketIndex boundaries o.1 = some idx then [o.2] else [] := by
  by_cases h : NumericalBucketTracker.bucketIndex boundaries o.1 = some idx <;>
    simp [inBucket, h]

namespace NumericalBucketTracker

theorem bucketIndex_lt {boundaries : List α} {x : α} {idx : Nat}
    (h : bucketIndex boundaries x = some idx) : idx < boundaries.length := by
  cases boundaries with
  | nil => cases h
  | cons first rest =>
    rw [List.length_cons]
    unfold bucketIndex at h
    dsimp only at h
    split at h
    · cases h
      omega
    · cases h
      cases hfind : rest.findIdx? fun b => F64.lt x b with
      | none => simp
      | some i =>
        have hi := (List.findIdx?_eq_some_iff_getElem.mp hfind).1
        simp only [Option.getD_some]
        omega

theorem bucketIndex_some {boundaries : List α} (h : boundaries ≠ []) (x : α) :
    ∃ idx, bucketIndex boundaries x = some idx := by
  cases boundaries with
  | nil => exact absurd rfl h
  | cons first rest =>
    unfold bucketIndex
    dsimp only
    split
    · exact ⟨0, rfl⟩
    · exact ⟨_, rfl⟩

/-- One more number in a bucket. -/
theorem bucketsOf_concat {dim : Nat} {obs : List (α × List α)} {boundaries : List α}
    {x : α} {vector : List α} {idx : Nat} (hidx : bucketIndex boundaries x = some idx) :
    bucketsOf dim (obs ++ [(x, vector)]) boundaries = { bucketsOf dim obs boundaries with
      sums := (bucketsOf dim obs boundaries).sums.modify idx fun sum => addInto sum vector
      counts := (bucketsOf dim obs boundaries).counts.modify idx (· + 1) } := by
  have hsums : ∀ i, running dim (inBucket (obs ++ [(x, vector)]) boundaries i) =
      if idx = i then addInto (running dim (inBucket obs boundaries i)) vector
      else running dim (inBucket obs boundaries i) := by
    intro i
    by_cases hi : idx = i <;> simp [inBucket_concat, hidx, hi, running_concat]
  have hcounts : ∀ i, UInt64.ofNat (inBucket (obs ++ [(x, vector)]) boundaries i).length =
      if idx = i then UInt64.ofNat (inBucket obs boundaries i).length + 1
      else UInt64.ofNat (inBucket obs boundaries i).length := by
    intro i
    by_cases hi : idx = i <;> simp [inBucket_concat, hidx, hi, ofNat_succ]
  unfold bucketsOf
  congr 1
  · apply List.ext_getElem
    · simp
    · intro i h₁ h₂
      simp [hsums, List.getElem_modify]
  · apply List.ext_getElem
    · simp
    · intro i h₁ h₂
      simp [hcounts, List.getElem_modify]

/-- The tracker registered with `config` that has seen the numbers `obs`, which
belong to the vectors `vs`. -/
structure Tracks (t : NumericalBucketTracker α) (dim : Nat) (config : List (String × List α))
    (vs : List (List α)) (obs : String → List (α × List α)) : Prop where
  size : t.dim = dim
  sum : t.globalSum = running dim vs
  count : t.globalCount = UInt64.ofNat vs.length
  fields : ∀ field, t.fields.lookup field =
    (boundariesOf config field).map (bucketsOf dim (obs field))
  nonempty : ∀ field bs, boundariesOf config field = some bs → bs ≠ []

theorem Tracks.update {t t' : NumericalBucketTracker α} {dim : Nat}
    {config : List (String × List α)} {vs : List (List α)} {obs : String → List (α × List α)}
    (h : t.Tracks dim config vs obs) {f : String} {x : α} {vector : List α}
    (hup : t.update f x vector = some t') :
    t'.Tracks dim config (vs ++ [vector]) fun field => obs field ++
      if f = field then [(x, vector)] else [] := by
  unfold NumericalBucketTracker.update at hup
  dsimp only at hup
  rw [h.fields] at hup
  cases hbs : boundariesOf config f with
  | none =>
    rw [hbs] at hup
    cases hup
    refine ⟨h.size, ?_, ?_, ?_, h.nonempty⟩
    · simp [h.sum, running_concat]
    · simp [h.count, ofNat_succ]
    · intro field
      by_cases hf : f = field
      · subst hf
        simp [h.fields, hbs]
      · simp [h.fields, hf]
  | some bs =>
    obtain ⟨idx, hidx⟩ := bucketIndex_some (h.nonempty f bs hbs) x
    have hlt := bucketIndex_lt hidx
    have hsums : idx < (bucketsOf dim (obs f) bs).sums.length := by simp [bucketsOf, hlt]
    have hcounts : idx < (bucketsOf dim (obs f) bs).counts.length := by simp [bucketsOf, hlt]
    have hbound : (bucketsOf dim (obs f) bs).boundaries = bs := rfl
    rw [hbs] at hup
    simp only [Option.map_some, hbound, hidx, Option.bind_eq_bind, Option.bind_some, if_pos hsums,
      hcounts, guard_true, Option.pure_def, Option.some.injEq] at hup
    subst hup
    refine ⟨h.size, ?_, ?_, ?_, h.nonempty⟩
    · simp [h.sum, running_concat]
    · simp [h.count, ofNat_succ]
    · intro field
      by_cases hf : f = field
      · subst hf
        simp [hbs, bucketsOf_concat hidx, hbound]
      · have hne : field ≠ f := fun heq => hf heq.symm
        simp [hf, AList.lookup_insert_ne hne, h.fields]

theorem numbersIn_cons (f : String) (fields : List String) (r : Row α) :
    numbersIn (f :: fields) r = (match numberOf r.2 f with
      | some _ => [r.1]
      | none => []) ++ numbersIn fields r := by
  unfold numbersIn
  cases h : numberOf r.2 f <;> simp [h]

/-- The loop over the tracked fields. -/
theorem Tracks.updateAll (r : Row α) {dim : Nat} {config : List (String × List α)}
    (fields : List String) : ∀ {t t' : NumericalBucketTracker α} {vs : List (List α)}
    {obs : String → List (α × List α)}, t.Tracks dim config vs obs →
    t.updateAll r.1 r.2 fields = some t' →
    t'.Tracks dim config (vs ++ numbersIn fields r) fun field => obs field ++
      observed fields r field := by
  induction fields with
  | nil =>
    intro t t' vs obs h hup
    cases hup
    simpa [numbersIn] using h
  | cons f fields ih =>
    intro t t' vs obs h hup
    unfold NumericalBucketTracker.updateAll at hup
    rw [append_observed_cons, numbersIn_cons, ← List.append_assoc]
    split at hup
    · next num hnum =>
      obtain ⟨t₁, hone, hrest⟩ := Option.bind_eq_some_iff.mp hup
      have hnum' : numberOf r.2 f = some num := hnum
      rw [hnum']
      exact ih (h.update hone) hrest
    · next hnum =>
      have hnum' : numberOf r.2 f = none := hnum
      rw [hnum']
      simpa using ih h hup

/-! ### Registration -/

omit [F64 α] in
theorem boundariesOf_concat (config : List (String × List α)) (b : String × List α)
    (field : String) : boundariesOf (config ++ [b]) field =
      if b.1 = field then some b.2 else boundariesOf config field := by
  simp [boundariesOf]

/-- A registered field starts with empty buckets. -/
theorem Tracks.registerField {t t' : NumericalBucketTracker α} {dim : Nat}
    {config : List (String × List α)} (h : t.Tracks dim config [] fun _ => []) {f : String}
    {bs : List α} (hreg : t.registerField f bs = .ok t') :
    t'.Tracks dim (config ++ [(f, bs)]) [] fun _ => [] := by
  unfold NumericalBucketTracker.registerField at hreg
  split at hreg
  · cases hreg
  · next hbs =>
    cases hreg
    refine ⟨h.size, h.sum, h.count, ?_, ?_⟩
    · intro field
      rw [boundariesOf_concat]
      by_cases hf : f = field
      · subst hf
        simp [bucketsOf, inBucket, running, h.size]
      · have hne : field ≠ f := fun heq => hf heq.symm
        simp [hf, AList.lookup_insert_ne hne, h.fields]
    · intro field bs' hbs'
      rw [boundariesOf_concat] at hbs'
      by_cases hf : f = field
      · rw [if_pos hf] at hbs'
        cases hbs'
        simpa using hbs
      · rw [if_neg hf] at hbs'
        exact h.nonempty field bs' hbs'

theorem Tracks.registerAll {dim : Nat} (rest : List (String × List α)) :
    ∀ {t t' : NumericalBucketTracker α} {config : List (String × List α)},
    t.Tracks dim config [] (fun _ => []) → registerAll rest t = .ok t' →
    t'.Tracks dim (config ++ rest) [] fun _ => [] := by
  induction rest with
  | nil =>
    intro t t' config h hreg
    cases hreg
    simpa using h
  | cons b rest ih =>
    intro t t' config h hreg
    unfold NumericalBucketTracker.registerAll at hreg
    cases hone : t.registerField b.1 b.2 with
    | error x =>
      rw [hone] at hreg
      cases hreg
    | ok t₁ =>
      rw [hone] at hreg
      have hrest := ih (h.registerField hone) hreg
      rwa [List.append_assoc] at hrest

theorem tracks_new (dim : Nat) :
    (new dim : NumericalBucketTracker α).Tracks dim [] [] fun _ => [] :=
  ⟨rfl, rfl, rfl, fun _ => by simp [new, boundariesOf], fun _ _ h => by cases h⟩

end NumericalBucketTracker

end Tesseract.L3
