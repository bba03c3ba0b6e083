import Mathlib.Data.List.Induction
import Tesseract.L3Store.Topological

/-!
# The loop over the dimensions in bounds

The first update of a field takes over the length of its vector, while the sums keep the
configured one. A later update goes as far as both vectors do, past the sums if both are
too long.

* `NumericalStats.updateDims_isSome`: the loop, on lists of any length.
* `CorrelationTracker.updates_isSome_iff`: the runs in which no index is out of range.
-/
namespace Tesseract.L3

variable {α : Type} [F64 α]

/-! ## One field -/

namespace NumericalStats

theorem updateDims_isSome {deltaF ratio nNew : α} (vector dimMeans dimM2 dimCross : List α) :
    (updateDims deltaF ratio nNew vector dimMeans dimM2 dimCross).isSome ↔
      min vector.length dimMeans.length ≤ min dimM2.length dimCross.length := by
  fun_induction updateDims deltaF ratio nNew vector dimMeans dimM2 dimCross with
  | case1 dimVal vector dimMean dimMeans m2 dimM2 cross dimCross deltaD ih =>
    simp only [Option.bind_eq_bind, Option.isSome_bind, Option.isSome_some, Option.any_true,
      List.length_cons, ih]
    omega
  | case2 dimVal vector dimMean dimMeans dimM2 dimCross hempty =>
    simp only [Option.isSome_none, Bool.false_eq_true, List.length_cons, false_iff]
    intro hle
    cases dimM2 with
    | nil => simp at hle
    | cons m2 dimM2 =>
      cases dimCross with
      | nil => simp at hle
      | cons cross dimCross => exact hempty m2 dimM2 cross dimCross rfl rfl
  | case3 vector dimMeans dimM2 dimCross _ hempty =>
    simp only [Option.isSome_some, true_iff]
    cases vector with
    | nil => simp
    | cons dimVal vector =>
      cases dimMeans with
      | nil => simp
      | cons dimMean dimMeans => exact (hempty dimVal vector dimMean dimMeans rfl rfl).elim

theorem updateDims_length {deltaF ratio nNew : α} (vector : List α) :
    ∀ {dimMeans dimM2 dimCross : List α} {r : List α × List α × List α},
    updateDims deltaF ratio nNew vector dimMeans dimM2 dimCross = some r →
    r.1.length = dimMeans.length ∧ r.2.1.length = dimM2.length ∧
      r.2.2.length = dimCross.length := by
  induction vector with
  | nil =>
    intro dimMeans dimM2 dimCross r h
    cases h
    exact ⟨rfl, rfl, rfl⟩
  | cons dimVal vector ih =>
    intro dimMeans dimM2 dimCross r h
    match dimMeans, dimM2, dimCross with
    | [], _, _ =>
      cases h
      exact ⟨rfl, rfl, rfl⟩
    | dimMean :: dimMeans, m2 :: dimM2, cross :: dimCross =>
      simp only [updateDims, Option.bind_eq_bind, Option.bind_eq_some_iff, Option.some.injEq] at h
      obtain ⟨r', hrest, rfl⟩ := h
      obtain ⟨hmeans, hm2, hcross⟩ := ih hrest
      simp [hmeans, hm2, hcross]
    | _ :: _, [], _ => cases h
    | _ :: _, _ :: _, [] => cases h

/-- The vector whose length the means of a field have behind `vectors`: the first, or the
first since the `u64` count was 0 again. -/
def base (vectors : List (List α)) : List α :=
  vectors.getD (vectors.length / 2 ^ 64 * 2 ^ 64) []

/-- What the lengths behind `vectors` are. -/
structure Shaped (s : NumericalStats α) (dim : Nat) (vectors : List (List α)) : Prop where
  count : s.count = UInt64.ofNat vectors.length
  dimM2 : s.dimM2.length = dim
  dimCross : s.dimCross.length = dim
  dimMeans : s.count ≠ 0 → s.dimMeans.length = (base vectors).length

theorem Shaped.new (dim : Nat) : (new dim : NumericalStats α).Shaped dim [] where
  count := rfl
  dimM2 := List.length_replicate
  dimCross := List.length_replicate
  dimMeans h := (h rfl).elim

omit [F64 α] in
theorem ofNat_eq_zero_iff (n : Nat) : UInt64.ofNat n = 0 ↔ n % 2 ^ 64 = 0 := by
  rw [← UInt64.toNat_inj, UInt64.toNat_ofNat']
  rfl

omit [F64 α] in
theorem base_of_zero {vectors : List (List α)} (h : vectors.length % 2 ^ 64 = 0) :
    base vectors = [] := by
  have hend : vectors.length ≤ vectors.length / 2 ^ 64 * 2 ^ 64 := by omega
  rw [base, List.getD_eq_getElem?_getD, List.getElem?_eq_none hend, Option.getD_none]

omit [F64 α] in
/-- The first vector of a field is the base of those behind it. -/
theorem base_concat_first {vectors : List (List α)} {vector : List α}
    (h : vectors.length % 2 ^ 64 = 0) : base (vectors ++ [vector]) = vector := by
  have hend : (vectors.length + 1) / 2 ^ 64 * 2 ^ 64 = vectors.length := by omega
  rw [base, List.length_append, List.length_singleton, hend, List.getD_eq_getElem?_getD,
    List.getElem?_concat_length, Option.getD_some]

omit [F64 α] in
theorem base_concat {vectors : List (List α)} (vector : List α)
    (h : vectors.length % 2 ^ 64 ≠ 0) (h' : (vectors.length + 1) % 2 ^ 64 ≠ 0) :
    base (vectors ++ [vector]) = base vectors := by
  have hsame : (vectors.length + 1) / 2 ^ 64 * 2 ^ 64 = vectors.length / 2 ^ 64 * 2 ^ 64 := by
    omega
  have hlt : vectors.length / 2 ^ 64 * 2 ^ 64 < vectors.length := by omega
  simp only [base, List.length_append, List.length_singleton, hsame, List.getD_eq_getElem?_getD,
    List.getElem?_append_left hlt]

/-- An update stays in bounds unless both its vector and the base are too long. -/
theorem Shaped.update_isSome {s : NumericalStats α} {dim : Nat} {vectors : List (List α)}
    (h : s.Shaped dim vectors) (x : α) (vector : List α) :
    (s.update x vector).isSome ↔ min vector.length (base vectors).length ≤ dim := by
  unfold NumericalStats.update
  by_cases hcount : s.count = 0
  · have hzero := (ofNat_eq_zero_iff vectors.length).mp (h.count.symm.trans hcount)
    rw [if_pos hcount, base_of_zero hzero]
    simp
  · simp only [if_neg hcount, Option.bind_eq_bind, Option.isSome_bind, Option.isSome_some,
      Option.any_true, updateDims_isSome, h.dimM2, h.dimCross, h.dimMeans hcount, min_self]

theorem Shaped.update {s s' : NumericalStats α} {dim : Nat} {vectors : List (List α)}
    (h : s.Shaped dim vectors) {x : α} {vector : List α} (hup : s.update x vector = some s') :
    s'.Shaped dim (vectors ++ [vector]) := by
  have hlen : (vectors ++ [vector]).length = vectors.length + 1 := by simp
  unfold NumericalStats.update at hup
  by_cases hcount : s.count = 0
  · have hzero := (ofNat_eq_zero_iff vectors.length).mp (h.count.symm.trans hcount)
    rw [if_pos hcount] at hup
    cases hup
    refine ⟨?_, h.dimM2, h.dimCross, fun _ => by rw [base_concat_first hzero]⟩
    rw [hlen, UInt64.ofNat_add, ← h.count, hcount]
    rfl
  · have hzero : vectors.length % 2 ^ 64 ≠ 0 := by
      rwa [Ne, ← ofNat_eq_zero_iff, ← h.count]
    simp only [if_neg hcount, Option.bind_eq_bind, Option.bind_eq_some_iff,
      Option.some.injEq] at hup
    obtain ⟨r, hdims, rfl⟩ := hup
    obtain ⟨hmeans, hm2, hcross⟩ := updateDims_length vector hdims
    have hnext : s.count + 1 = UInt64.ofNat (vectors ++ [vector]).length := by
      rw [hlen, UInt64.ofNat_add, h.count]
      rfl
    refine ⟨hnext, hm2.trans h.dimM2, hcross.trans h.dimCross, ?_⟩
    intro hcount'
    rw [hnext, Ne, ofNat_eq_zero_iff, hlen] at hcount'
    rw [base_concat vector hzero hcount', hmeans, h.dimMeans hcount]

end NumericalStats

/-! ## All fields -/

/-- The arguments of an update. -/
structure Observation (α : Type) where
  field : String
  fieldValue : α
  vector : List α

/-- The vectors of the updates of one field. -/
def vectorsOf (ops : List (Observation α)) (field : String) : List (List α) :=
  (ops.filter fun o => o.field = field).map Observation.vector

omit [F64 α] in
theorem vectorsOf_concat (ops : List (Observation α)) (o : Observation α) (field : String) :
    vectorsOf (ops ++ [o]) field =
      if o.field = field then vectorsOf ops field ++ [o.vector] else vectorsOf ops field := by
  by_cases h : o.field = field <;> simp [vectorsOf, h]

namespace CorrelationTracker

/-- Update after update; `none` once an index was out of range. -/
def updates (t : CorrelationTracker α) (ops : List (Observation α)) :
    Option (CorrelationTracker α) :=
  ops.foldlM (fun t o => t.update o.field o.fieldValue o.vector) t

theorem updates_concat (t : CorrelationTracker α) (ops : List (Observation α))
    (o : Observation α) : t.updates (ops ++ [o]) =
      (t.updates ops).bind fun t => t.update o.field o.fieldValue o.vector := by
  simp [updates, List.foldlM_append]

/-- The tracker behind the updates `ops`. -/
structure Shaped (t : CorrelationTracker α) (dim : Nat) (ops : List (Observation α)) :
    Prop where
  dim_eq : t.dim = dim
  stats : ∀ field, ((t.fields.lookup field).getD (NumericalStats.new dim)).Shaped dim
    (vectorsOf ops field)

theorem Shaped.new (dim : Nat) : (new dim : CorrelationTracker α).Shaped dim [] where
  dim_eq := rfl
  stats _ := NumericalStats.Shaped.new dim

theorem Shaped.update_isSome {t : CorrelationTracker α} {dim : Nat} {ops : List (Observation α)}
    (h : t.Shaped dim ops) (o : Observation α) :
    (t.update o.field o.fieldValue o.vector).isSome ↔
      min o.vector.length (NumericalStats.base (vectorsOf ops o.field)).length ≤ dim := by
  simp only [CorrelationTracker.update, Option.bind_eq_bind, Option.isSome_bind,
    Option.isSome_some, Option.any_true, h.dim_eq]
  exact (h.stats o.field).update_isSome o.fieldValue o.vector

theorem Shaped.update {t t' : CorrelationTracker α} {dim : Nat} {ops : List (Observation α)}
    (h : t.Shaped dim ops) {o : Observation α}
    (hup : t.update o.field o.fieldValue o.vector = some t') : t'.Shaped dim (ops ++ [o]) := by
  simp only [CorrelationTracker.update, Option.bind_eq_bind, Option.bind_eq_some_iff,
    Option.some.injEq, h.dim_eq] at hup
  obtain ⟨stats, hstats, rfl⟩ := hup
  refine ⟨rfl, fun field => ?_⟩
  rw [vectorsOf_concat]
  by_cases hfield : o.field = field
  · subst hfield
    rw [AList.lookup_insert, Option.getD_some, if_pos rfl]
    exact (h.stats o.field).update hstats
  · rw [AList.lookup_insert_ne fun heq => hfield heq.symm, if_neg hfield]
    exact h.stats field

/-- No update of `ops` has, like the base of its field, a vector longer than `dim`. -/
def InBounds (dim : Nat) (ops : List (Observation α)) : Prop :=
  ∀ before o after, ops = before ++ o :: after →
    min o.vector.length (NumericalStats.base (vectorsOf before o.field)).length ≤ dim

omit [F64 α] in
theorem inBounds_concat (dim : Nat) (ops : List (Observation α)) (o : Observation α) :
    InBounds dim (ops ++ [o]) ↔ InBounds dim ops ∧
      min o.vector.length (NumericalStats.base (vectorsOf ops o.field)).length ≤ dim := by
  constructor
  · intro h
    refine ⟨fun before o' after heq => ?_, h ops o [] rfl⟩
    refine h before o' (after ++ [o]) ?_
    rw [heq, List.append_assoc, List.cons_append]
  · rintro ⟨h, hlast⟩ before o' after heq
    cases after using List.reverseRecOn with
    | nil =>
      obtain ⟨rfl, hsame⟩ := List.append_inj' heq rfl
      cases hsame
      exact hlast
    | append_singleton after last _ =>
      rw [← List.cons_append, ← List.append_assoc] at heq
      exact h before o' after (List.append_inj' heq rfl).1

theorem Shaped.updates {dim : Nat} (ops : List (Observation α)) :
    ∀ {t : CorrelationTracker α}, (CorrelationTracker.new dim).updates ops = some t →
      t.Shaped dim ops := by
  induction ops using List.reverseRecOn with
  | nil =>
    intro t h
    cases h
    exact Shaped.new dim
  | append_singleton ops o ih =>
    intro t h
    rw [updates_concat] at h
    obtain ⟨t₀, hops, hup⟩ := Option.bind_eq_some_iff.mp h
    exact (ih hops).update hup

/-- No index is out of range exactly in the runs in which no later update of a field is too
long along with the first. -/
theorem updates_isSome_iff (dim : Nat) (ops : List (Observation α)) :
    ((new dim : CorrelationTracker α).updates ops).isSome ↔ InBounds dim ops := by
  induction ops using List.reverseRecOn with
  | nil =>
    have hnil : InBounds dim ([] : List (Observation α)) := by
      intro before o after heq
      simp at heq
    exact iff_of_true rfl hnil
  | append_singleton ops o ih =>
    rw [updates_concat, inBounds_concat, ← ih]
    cases hops : (new dim : CorrelationTracker α).updates ops with
    | none => simp
    | some t => simpa using (Shaped.updates ops hops).update_isSome o

/-- Two vectors with a component too many. -/
theorem updates_out_of_bounds :
    (new 1 : CorrelationTracker Lit).updates
      [⟨"year", .fin 2020, [.fin 1, .fin 0]⟩, ⟨"year", .fin 2021, [.fin 0, .fin 1]⟩] = none := by
  decide +kernel

end CorrelationTracker

end Tesseract.L3
