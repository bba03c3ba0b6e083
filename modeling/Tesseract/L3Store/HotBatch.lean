import Mathlib.Data.Finset.Card
import Tesseract.L3Store.HotStore

/-!
# A batch of inserts into the hot store

Records inserted one after the other, whatever the single inserts return.

* `insertAll_full`: how many distinct new ids fill the store.
* `get_insertAll`: of a new id the store has the first record, if there was room for it.
-/
namespace Tesseract.L3

open Serde

theorem card_append_known {ids : List UInt64} {id : UInt64} (h : id ∈ ids) :
    (ids ++ [id]).toFinset.card = ids.toFinset.card := by
  congr 1
  ext x
  simp only [List.mem_toFinset, List.mem_append, List.mem_singleton]
  constructor
  · rintro (hx | rfl)
    · exact hx
    · exact h
  · exact .inl

theorem card_append_new {ids : List UInt64} {id : UInt64} (h : id ∉ ids) :
    (ids ++ [id]).toFinset.card = ids.toFinset.card + 1 := by
  have hset : (ids ++ [id]).toFinset = insert id ids.toFinset := by
    ext x
    simp only [List.mem_toFinset, List.mem_append, List.mem_singleton, Finset.mem_insert]
    exact or_comm
  rw [hset, Finset.card_insert_of_notMem (by simpa using h)]

namespace HotStore

variable {α : Type} [F64 α]

def ids (s : HotStore α) : List UInt64 := s.vectors.map VectorRecord.id

def insertAll (s : HotStore α) (rs : List (VectorRecord α)) : HotStore α :=
  rs.foldl (fun s r => (s.insert r).1) s

theorem insertAll_append (s : HotStore α) (rs rs' : List (VectorRecord α)) :
    s.insertAll (rs ++ rs') = (s.insertAll rs).insertAll rs' :=
  List.foldl_append

/-- `out` is `s` behind a batch of records with ids not in `s`. -/
structure Filled (s : HotStore α) (rs : List (VectorRecord α)) (out : HotStore α) : Prop where
  maxRecords : out.maxRecords = s.maxRecords
  subset : ∀ id ∈ out.ids, id ∈ s.ids ∨ id ∈ rs.map VectorRecord.id
  all : ¬ out.full → ∀ r ∈ rs, r.id ∈ out.ids
  length : out.vectors.length = if s.maxRecords = 0
    then s.vectors.length + (rs.map VectorRecord.id).toFinset.card
    else min (s.vectors.length + (rs.map VectorRecord.id).toFinset.card) s.maxRecords.toNat

theorem Filled.nil (s : HotStore α) : Filled s [] s where
  maxRecords := rfl
  subset id h := .inl h
  all _ r hr := by cases hr
  length := by
    have := s.bounded
    simp only [List.map_nil, List.toFinset_nil, Finset.card_empty, Nat.add_zero]
    split
    · rfl
    · next h => exact (Nat.min_eq_left (this.resolve_left h)).symm

variable {s out : HotStore α} {rs : List (VectorRecord α)} {r : VectorRecord α}

theorem Filled.subset_snoc (h : Filled s rs out) (r : VectorRecord α) :
    ∀ id ∈ out.ids, id ∈ s.ids ∨ id ∈ (rs ++ [r]).map VectorRecord.id := by
  intro id hid
  exact (h.subset id hid).imp_right fun hid => by simp [hid]

/-- A full store refuses everything. -/
theorem Filled.refused (h : Filled s rs out) (hfull : out.full) (r : VectorRecord α) :
    Filled s (rs ++ [r]) out := by
  refine ⟨h.maxRecords, h.subset_snoc r, fun hn => absurd hfull hn, ?_⟩
  have hlen := h.length
  obtain ⟨hne, hmax⟩ := hfull
  rw [h.maxRecords] at hne hmax
  have hle : (rs.map VectorRecord.id).toFinset.card ≤
      ((rs ++ [r]).map VectorRecord.id).toFinset.card := by
    apply Finset.card_le_card
    intro x
    simp only [List.mem_toFinset, List.map_append, List.mem_append]
    exact .inl
  rw [if_neg hne] at hlen ⊢
  omega

/-- An id that the store has came with the batch. -/
theorem Filled.known (h : Filled s rs out) (hnew : r.id ∉ s.ids) (hin : r.id ∈ out.ids) :
    Filled s (rs ++ [r]) out := by
  have hmem := (h.subset _ hin).resolve_left hnew
  refine ⟨h.maxRecords, h.subset_snoc r, ?_, ?_⟩
  · intro hn x hx
    rcases List.mem_append.mp hx with hx | hx
    · exact h.all hn x hx
    · obtain rfl := List.mem_singleton.mp hx
      exact hin
  · rw [List.map_append, List.map_singleton, card_append_known hmem]
    exact h.length

theorem Filled.stored {out' : HotStore α} (h : Filled s rs out) (hroom : ¬ out.full)
    (hnone : r.id ∉ out.ids) (hmax : out'.maxRecords = out.maxRecords)
    (hvec : out'.vectors = out.vectors ++ [r]) : Filled s (rs ++ [r]) out' := by
  have hids : out'.ids = out.ids ++ [r.id] := by
    rw [ids, hvec, List.map_append, List.map_singleton, ids]
  refine ⟨hmax.trans h.maxRecords, ?_, ?_, ?_⟩
  · intro id hid
    rw [hids, List.mem_append, List.mem_singleton] at hid
    rcases hid with hid | rfl
    · exact h.subset_snoc r id hid
    · exact .inr (by simp)
  · intro _ x hx
    rw [hids, List.mem_append, List.mem_singleton]
    rcases List.mem_append.mp hx with hx | hx
    · exact .inl (h.all hroom x hx)
    · exact .inr (congrArg VectorRecord.id (List.mem_singleton.mp hx))
  · have hlen := h.length
    have hout : r.id ∉ rs.map VectorRecord.id := by
      intro hin
      obtain ⟨x, hx, hid⟩ := List.mem_map.mp hin
      exact hnone (hid ▸ h.all hroom x hx)
    rw [hvec, List.length_append, List.length_singleton, List.map_append, List.map_singleton,
      card_append_new hout]
    rw [full, not_and_or, Decidable.not_not, h.maxRecords] at hroom
    split
    · next h0 =>
      rw [if_pos h0] at hlen
      omega
    · next h0 =>
      rw [if_neg h0] at hlen
      have := hroom.resolve_left h0
      omega

theorem Filled.snoc (h : Filled s rs out) (hnew : r.id ∉ s.ids) :
    Filled s (rs ++ [r]) (out.insert r).1 := by
  rcases out.insert_cases r with ⟨hfull, heq⟩ | ⟨-, hknown, heq⟩ | ⟨hroom, hnone, _, hmax, hvec⟩
  · rw [heq]
    exact h.refused hfull r
  · rw [heq]
    refine h.known hnew ?_
    by_contra hc
    exact hknown (get_eq_none.mpr hc)
  · exact h.stored hroom (get_eq_none.mp hnone) hmax hvec

theorem insertAll_filled (s : HotStore α) (rs : List (VectorRecord α))
    (hnew : ∀ r ∈ rs, r.id ∉ s.ids) : Filled s rs (s.insertAll rs) := by
  induction rs using List.reverseRecOn with
  | nil => exact Filled.nil s
  | append_singleton rs r ih =>
    rw [insertAll_append]
    exact (ih fun x hx => hnew x (by simp [hx])).snoc (hnew r (by simp))

/-- A batch fills the store when its distinct ids are as many as there is room for. -/
theorem insertAll_full {s : HotStore α} {rs : List (VectorRecord α)}
    (hnew : ∀ r ∈ rs, r.id ∉ s.ids) :
    ¬ (s.insertAll rs).full ↔ s.maxRecords = 0 ∨
      s.vectors.length + (rs.map VectorRecord.id).toFinset.card < s.maxRecords.toNat := by
  have h := insertAll_filled s rs hnew
  have hlen := h.length
  rw [full, h.maxRecords, not_and_or, Decidable.not_not, Nat.not_le]
  split at hlen
  · next h0 => simp [h0]
  · next h0 =>
    simp only [h0, false_or]
    omega

theorem insertAll_of_full {s : HotStore α} (h : s.full) (rs : List (VectorRecord α)) :
    s.insertAll rs = s := by
  induction rs with
  | nil => rfl
  | cons r rs ih =>
    have heq : (s.insert r).1 = s := by
      rw [insert, dif_pos h]
    rw [insertAll, List.foldl_cons, heq]
    exact ih

theorem get_insertAll_of_some {s : HotStore α} {id : UInt64} {r : VectorRecord α}
    (h : s.get id = some r) (rs : List (VectorRecord α)) : (s.insertAll rs).get id = some r := by
  induction rs generalizing s with
  | nil => exact h
  | cons x rs ih =>
    refine ih (s := (s.insert x).1) ?_
    rcases s.insert_cases x with ⟨_, heq⟩ | ⟨_, _, heq⟩ | ⟨_, _, _, _, hvec⟩
    · rw [heq]
      exact h
    · rw [heq]
      exact h
    · rw [get_append hvec, h]
      rfl

/-- Of a new id the store has the first record, if there was room for it. -/
theorem get_insertAll {s : HotStore α} {pre : List (VectorRecord α)} (post : List (VectorRecord α))
    {r : VectorRecord α} (hnew : ∀ x ∈ pre, x.id ∉ s.ids) (hid : r.id ∉ s.ids)
    (hfirst : ∀ x ∈ pre, x.id ≠ r.id) :
    (s.insertAll (pre ++ r :: post)).get r.id =
      if (s.insertAll pre).full then none else some r := by
  have h := insertAll_filled s pre hnew
  have hnone : (s.insertAll pre).get r.id = none := by
    rw [get_eq_none]
    intro hin
    rcases h.subset _ hin with hin | hin
    · exact hid hin
    · obtain ⟨x, hx, heq⟩ := List.mem_map.mp hin
      exact hfirst x hx heq
  rw [insertAll_append]
  split
  · next hfull => rw [insertAll_of_full hfull, hnone]
  · next hroom =>
    refine get_insertAll_of_some (s := ((s.insertAll pre).insert r).1) ?_ post
    have hvec := (insert_new hroom (get_eq_none.mp hnone)).2
    rw [get_append hvec, hnone, if_pos rfl]
    rfl

end HotStore

end Tesseract.L3
