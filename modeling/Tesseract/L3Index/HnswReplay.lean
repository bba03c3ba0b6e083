import Tesseract.L3Index.HnswRewire

/-!
# Replaying inserts over an index that has seen them

Every insert of a known id replaces one vector and touches nothing else. So a
replay of the whole history over the index it has led to goes through states
with older vectors, and ends where it began.

* `overwrite`: what such a replay does to the column of vectors.
* `Settled`: the history changes nothing any more; `Settled.insert` keeps it.
* `insert_known`: one insert of the replay.
-/
namespace Tesseract.L3.HnswIndex

variable {β : Type}

/-- The vectors behind inserts of known ids. -/
def overwrite (ids : List UInt64) : List (UInt64 × List β) → List (List β) → List (List β)
  | [], vectors => vectors
  | d :: ds, vectors =>
    match ids.findIdx? (· == d.1) with
    | some i => overwrite ids ds (vectors.set i d.2)
    | none => overwrite ids ds vectors

theorem length_overwrite (ids : List UInt64) : ∀ (ds : List (UInt64 × List β))
    (vectors : List (List β)), (overwrite ids ds vectors).length = vectors.length := by
  intro ds
  induction ds with
  | nil => exact fun _ => rfl
  | cons d ds ih =>
    intro vectors
    unfold overwrite
    split
    · rw [ih, List.length_set]
    · exact ih vectors

theorem overwrite_append (ids : List UInt64) (ds es : List (UInt64 × List β)) :
    ∀ vectors, overwrite ids (ds ++ es) vectors = overwrite ids es (overwrite ids ds vectors) := by
  induction ds with
  | nil => exact fun _ => rfl
  | cons d ds ih =>
    intro vectors
    rw [List.cons_append, overwrite, overwrite]
    cases ids.findIdx? (· == d.1) with
    | none => exact ih vectors
    | some i => exact ih (vectors.set i d.2)

/-- What was at a place does not matter, if the place is written in the end. -/
theorem overwrite_set (ids : List UInt64) (i : Nat) (v w : List β) :
    ∀ (ds : List (UInt64 × List β)) (vectors : List (List β)),
    (overwrite ids ds (vectors.set i v)).set i w = (overwrite ids ds vectors).set i w := by
  intro ds
  induction ds with
  | nil =>
    intro vectors
    rw [overwrite, overwrite, List.set_set]
  | cons d ds ih =>
    intro vectors
    rw [overwrite, overwrite]
    cases ids.findIdx? (· == d.1) with
    | none => exact ih vectors
    | some k =>
      by_cases hk : i = k
      · subst hk
        simp only [List.set_set]
      · simp only [List.set_comm v d.2 hk]
        exact ih (vectors.set k d.2)

/-- Known ids stay where they are when an id is added. -/
theorem overwrite_append_id {ids : List UInt64} {id : UInt64} {v : List β} :
    ∀ (ds : List (UInt64 × List β)) (vectors : List (List β)), ids.length = vectors.length →
    (∀ d ∈ ds, d.1 ∈ ids) →
    overwrite (ids ++ [id]) ds (vectors ++ [v]) = overwrite ids ds vectors ++ [v] := by
  intro ds
  induction ds with
  | nil => exact fun _ _ _ => rfl
  | cons d ds ih =>
    intro vectors hlen hids
    have hds : ∀ d ∈ ds, d.1 ∈ ids := fun d hd => hids d (List.mem_cons_of_mem _ hd)
    obtain ⟨i, hi⟩ : ∃ i, ids.findIdx? (· == d.1) = some i := by
      rw [← Option.isSome_iff_exists, List.findIdx?_isSome, List.any_eq_true]
      exact ⟨d.1, hids d (by simp), by simp⟩
    have hi' : (ids ++ [id]).findIdx? (· == d.1) = some i := by
      rw [List.findIdx?_append, hi]
      rfl
    have hlt : i < vectors.length := by
      have := (List.findIdx?_eq_some_iff_getElem.mp hi).1
      omega
    rw [overwrite, overwrite, hi, hi']
    simp only [List.set_append_left i d.2 hlt]
    exact ih _ (by rw [List.length_set]; exact hlen) hds

/-- The ids are known, and replaying the inserts changes no vector. -/
structure Settled (idx : HnswIndex β) (ds : List (UInt64 × List β)) : Prop where
  aligned : Aligned idx
  known : ∀ d ∈ ds, d.1 ∈ idx.idToNode
  fixed : overwrite idx.idToNode ds idx.vectors = idx.vectors

theorem Settled.new (dim : Nat) (config : HnswConfig) :
    Settled (HnswIndex.new dim config : HnswIndex β) [] := ⟨rfl, by simp, rfl⟩

variable {α : Type} [F32 β] [Narrow α β] {D : DistanceComputer β}

/-- An accepted insert is replayed last, and what the earlier ones do to its
place is undone. -/
theorem Settled.insert {idx idx' : HnswIndex β} {ds : List (UInt64 × List β)} (h : Settled idx ds)
    {level : Nat} {id : UInt64} {vector : List α}
    (hins : insert D level idx id vector = some (idx', .ok ())) :
    Settled idx' (ds ++ [(id, vector.map Narrow.toF32)]) := by
  have haligned := (insert_vectorOf h.aligned hins).1
  rcases insert_cases hins with ⟨_, _, hr⟩ | ⟨_, _, _, hcase⟩
  · cases hr
  rcases hcase with ⟨i, hi, hlt, hids, hvecs⟩ | ⟨hnone, hids, hvecs⟩
  · have hid : id ∈ idx.idToNode := by
      obtain ⟨hl, heq, _⟩ := List.findIdx?_eq_some_iff_getElem.mp hi
      rw [← beq_iff_eq.mp heq]
      exact List.getElem_mem hl
    refine ⟨haligned, ?_, ?_⟩
    · intro d hd
      rw [hids]
      rcases List.mem_append.mp hd with hd | hd
      · exact h.known d hd
      · rw [List.mem_singleton.mp hd]
        exact hid
    · rw [hids, hvecs, overwrite_append, overwrite, hi]
      show (overwrite idx.idToNode ds (idx.vectors.set i _)).set i _ = _
      rw [overwrite_set, h.fixed]
  · have hlast : (idx.idToNode ++ [id]).findIdx? (· == id) = some idx.vectors.length := by
      rw [List.findIdx?_append, hnone, List.findIdx?_singleton, h.aligned]
      simp
    refine ⟨haligned, ?_, ?_⟩
    · intro d hd
      rw [hids, List.mem_append]
      rcases List.mem_append.mp hd with hd | hd
      · exact .inl (h.known d hd)
      · rw [List.mem_singleton.mp hd]
        exact .inr (by simp)
    · rw [hids, hvecs, overwrite_append, overwrite_append_id ds _ h.aligned h.known, h.fixed,
        overwrite, hlast]
      show (idx.vectors ++ [_]).set idx.vectors.length _ = _
      simp

/-- An insert of a known id. -/
theorem insert_known {idx : HnswIndex β} {id : UInt64} {vector : List α} (level : Nat)
    (ha : Aligned idx) (hid : id ∈ idx.idToNode) (hdim : vector.length = idx.dim) :
    insert D level idx id vector = some ({ idx with
      vectors := overwrite idx.idToNode [(id, vector.map Narrow.toF32)] idx.vectors }, .ok ()) := by
  obtain ⟨i, hi⟩ : ∃ i, idx.idToNode.findIdx? (· == id) = some i := by
    rw [← Option.isSome_iff_exists, List.findIdx?_isSome, List.any_eq_true]
    exact ⟨id, hid, by simp⟩
  have hlt : i < idx.vectors.length := by
    have := (List.findIdx?_eq_some_iff_getElem.mp hi).1
    rw [← ha]
    exact this
  unfold HnswIndex.insert
  rw [if_neg (by simpa using hdim)]
  simp only [hi, hlt, if_true, overwrite]

end Tesseract.L3.HnswIndex
