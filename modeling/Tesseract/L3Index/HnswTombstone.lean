import Tesseract.L3Index.HnswQuery

/-!
# Tombstones and the ids that are live

An id is live when its node is not tombstoned. `insert` of a known id replaces the
vector and leaves the flag, so an id that was removed stays hidden for good.

* `insert_flagOf`, `remove_flagOf`: what the calls make of the flags.
* `flagOf_run`: the flag of an id after any history of calls that returned `Ok`.
* `live_iff_last_insert`: liveness follows the last operation on the id exactly when
  that is not an insert behind a remove.
-/
namespace Tesseract.L3.HnswIndex

variable {α β : Type}

/-- The tombstone flag of the node of `id`. -/
def flagOf (idx : HnswIndex β) (id : UInt64) : Option Bool :=
  (idx.idToNode.findIdx? (· == id)).bind fun i => idx.deleted[i]?

/-- `id` has a node, which is not tombstoned. -/
def Live (idx : HnswIndex β) (id : UInt64) : Prop := idx.flagOf id = some false

instance (idx : HnswIndex β) (id : UInt64) : Decidable (Live idx id) :=
  inferInstanceAs (Decidable (idx.flagOf id = some false))

/-- The id a call is about. -/
def Op.id : Op α → UInt64
  | .insert _ id _ => id
  | .remove id => id

/-- The last call on `id`. -/
def lastOn (id : UInt64) (ops : List (Op α)) : Option (Op α) :=
  (ops.filter fun op => op.id == id).getLast?

def Op.isInsert : Op α → Bool
  | .insert _ _ _ => true
  | .remove _ => false

/-- The last call on `id` was an insert. -/
def LastInsert (id : UInt64) (ops : List (Op α)) : Prop :=
  ∃ op, lastOn id ops = some op ∧ op.isInsert = true

/-- `id` was removed. -/
def Removed (id : UInt64) (ops : List (Op α)) : Prop := ∃ op ∈ ops, op.id = id ∧ op.isInsert = false

instance (id : UInt64) (ops : List (Op α)) : Decidable (Removed id ops) :=
  inferInstanceAs (Decidable (∃ op ∈ ops, op.id = id ∧ op.isInsert = false))

section Run

variable [F32 β] [Narrow α β] {D : DistanceComputer β}

/-- A call that returns `Ok`. -/
def applyOk (D : DistanceComputer β) (idx : HnswIndex β) (op : Op α) : Option (HnswIndex β) :=
  match idx.apply D op with
  | some (idx', .ok ()) => some idx'
  | _ => none

theorem applyOk_eq {idx idx' : HnswIndex β} {op : Op α} (h : idx.applyOk D op = some idx') :
    idx.apply D op = some (idx', .ok ()) := by
  unfold applyOk at h
  split at h
  · next heq =>
    cases h
    exact heq
  · cases h

/-- The sequences of calls that return `Ok`. -/
def okCalls (D : DistanceComputer β) (dim : Nat) (config : HnswConfig) :
    LTS (HnswIndex β) (Op α) :=
  LTS.ofFn (· = new dim config) (applyOk D)

/-- Every id has its flag. -/
def Flagged (idx : HnswIndex β) : Prop := idx.idToNode.length = idx.deleted.length

/-- An `insert` leaves the flags of the ids it knows. -/
theorem insert_flagOf {idx idx' : HnswIndex β} {level : Nat} {id : UInt64} {vector : List α}
    (hf : Flagged idx) (h : insert D level idx id vector = some (idx', .ok ())) :
    Flagged idx' ∧ ∀ j, idx'.flagOf j =
      if j = id then some ((idx.flagOf id).getD false) else idx.flagOf j := by
  rcases insert_branches h with ⟨_, _, hr⟩ | ⟨_, _, hcase⟩
  · cases hr
  · rcases hcase with ⟨i, hi, _, rfl⟩ | hcase
    · refine ⟨hf, fun j => ?_⟩
      show idx.flagOf j = _
      split
      · next hj =>
        obtain ⟨hlt, _⟩ := List.findIdx?_eq_some_iff_getElem.mp hi
        have hflag : ∃ b, idx.flagOf id = some b := by
          rw [flagOf, hi, Option.bind_some]
          exact ⟨_, List.getElem?_eq_getElem (hf ▸ hlt)⟩
        obtain ⟨b, hb⟩ := hflag
        rw [hj, hb]
        rfl
      · rfl
    · have hnew : idx.idToNode.findIdx? (· == id) = none ∧ idx'.idToNode = idx.idToNode ++ [id] ∧
          idx'.deleted = idx.deleted ++ [false] := by
        rcases hcase with ⟨hnone, _, rfl⟩ | ⟨hnone, _, hconn⟩
        · exact ⟨hnone, rfl, rfl⟩
        · obtain ⟨_, _, _, _, s, _, _, _, _, hfold, rfl⟩ := connect_inv hconn
          have hr := connectLayers_rewired _ _ _ hfold
          refine ⟨hnone, ?_, ?_⟩
          · split <;> exact hr.idToNode
          · split <;> exact hr.deleted
      obtain ⟨hnone, hids, hdel⟩ := hnew
      refine ⟨by rw [Flagged, hids, hdel, List.length_append, List.length_append, hf]; rfl,
        fun j => ?_⟩
      have hno : idx.flagOf id = none := by rw [flagOf, hnone, Option.bind_none]
      rw [hno, flagOf, hids, hdel]
      exact column_append hf hnone false j

omit [F32 β] [Narrow α β] in
/-- A `remove` that returns `Ok` sets the flag of its id, which it knows. -/
theorem remove_flagOf {idx idx' : HnswIndex β} {id : UInt64} (hf : Flagged idx)
    (h : idx.remove id = some (idx', .ok ())) :
    Flagged idx' ∧ (∃ b, idx.flagOf id = some b) ∧ ∀ j, idx'.flagOf j =
      if j = id then some true else idx.flagOf j := by
  unfold remove at h
  split at h
  · cases h
  · next pos hpos =>
    split at h
    · next hlt =>
      cases h
      refine ⟨by rw [Flagged, List.length_set]; exact hf, ?_, fun j => column_set hpos hlt true j⟩
      rw [flagOf, hpos, Option.bind_some]
      exact ⟨_, List.getElem?_eq_getElem hlt⟩
    · cases h

/-- Some call was about `id`. -/
def Touched (id : UInt64) (ops : List (Op α)) : Prop := ∃ op ∈ ops, op.id = id

instance (id : UInt64) (ops : List (Op α)) : Decidable (Touched id ops) :=
  inferInstanceAs (Decidable (∃ op ∈ ops, op.id = id))

omit [F32 β] [Narrow α β] in
theorem touched_snoc {id : UInt64} {ops : List (Op α)} {op : Op α} :
    Touched id (ops ++ [op]) ↔ Touched id ops ∨ op.id = id := by
  simp [Touched, or_and_right, exists_or]

omit [F32 β] [Narrow α β] in
theorem removed_snoc {id : UInt64} {ops : List (Op α)} {op : Op α} :
    Removed id (ops ++ [op]) ↔ Removed id ops ∨ (op.id = id ∧ op.isInsert = false) := by
  simp [Removed, or_and_right, exists_or]

/-- After a history of calls that returned `Ok`, an id has a node when a call was
about it, and its flag is set when it was removed. -/
theorem flagOf_run {dim : Nat} {config : HnswConfig} {ops : List (Op α)} {idx : HnswIndex β}
    (h : (okCalls D dim config).Run (new dim config) ops idx) (id : UInt64) :
    idx.flagOf id = if Touched id ops then some (decide (Removed id ops)) else none := by
  refine (h.history (I := fun ops idx => Flagged idx ∧ ∀ id, idx.flagOf id =
    if Touched id ops then some (decide (Removed id ops)) else none) ⟨rfl, ?_⟩ ?_).2 id
  · intro id
    rw [if_neg (by simp [Touched])]
    rfl
  · rintro pre op idx idx' _ ⟨hf, hflags⟩ hst
    have hst := applyOk_eq hst
    cases op with
    | insert level j vector =>
      obtain ⟨hf', hset⟩ := insert_flagOf hf hst
      refine ⟨hf', fun id => ?_⟩
      rw [hset, hflags, hflags]
      by_cases hid : id = j
      · subst hid
        by_cases ht : Touched id pre
        · simp [touched_snoc, removed_snoc, ht, Op.id, Op.isInsert]
        · have hr : ¬ Removed id pre := fun ⟨op, hop, heq, _⟩ => ht ⟨op, hop, heq⟩
          simp [touched_snoc, removed_snoc, ht, hr, Op.id, Op.isInsert]
      · have hne : j ≠ id := fun hc => hid hc.symm
        simp [touched_snoc, removed_snoc, hid, hne, Op.id]
    | remove j =>
      obtain ⟨hf', _, hset⟩ := remove_flagOf hf hst
      refine ⟨hf', fun id => ?_⟩
      rw [hset, hflags]
      by_cases hid : id = j
      · simp [touched_snoc, removed_snoc, hid, Op.id, Op.isInsert]
      · have hne : j ≠ id := fun hc => hid hc.symm
        simp [touched_snoc, removed_snoc, hid, hne, Op.id]

omit [F32 β] [Narrow α β] in
theorem LastInsert.touched {id : UInt64} {ops : List (Op α)} (h : LastInsert id ops) :
    Touched id ops := by
  obtain ⟨op, hop, _⟩ := h
  have hmem := List.mem_of_getLast? hop
  rw [List.mem_filter, beq_iff_eq] at hmem
  exact ⟨op, hmem.1, hmem.2⟩

omit [F32 β] [Narrow α β] in
/-- The last call on an id that has one and was not removed is an insert. -/
theorem lastInsert_of_not_removed {id : UInt64} {ops : List (Op α)} (ht : Touched id ops)
    (hr : ¬ Removed id ops) : LastInsert id ops := by
  obtain ⟨op, hop, heq⟩ := ht
  have hmem : op ∈ ops.filter fun op => op.id == id :=
    List.mem_filter.mpr ⟨hop, by simpa using heq⟩
  have hlast := List.getLast?_eq_some_getLast (List.ne_nil_of_mem hmem)
  have hlmem := List.mem_of_getLast? hlast
  rw [List.mem_filter, beq_iff_eq] at hlmem
  refine ⟨_, hlast, ?_⟩
  cases hins : Op.isInsert _ with
  | true => rfl
  | false => exact absurd ⟨_, hlmem.1, hlmem.2, hins⟩ hr

/-- After every history of calls that returned `Ok`, an id is live exactly when the
last call on it was an insert, unless that insert came behind a remove. -/
theorem live_iff_last_insert {dim : Nat} {config : HnswConfig} {ops : List (Op α)}
    {idx : HnswIndex β} (h : (okCalls D dim config).Run (new dim config) ops idx) (id : UInt64) :
    (Live idx id ↔ LastInsert id ops) ↔ ¬ (LastInsert id ops ∧ Removed id ops) := by
  have hflag := flagOf_run h id
  have hlive : Live idx id ↔ Touched id ops ∧ ¬ Removed id ops := by
    rw [Live, hflag]
    split
    · next ht => simp [ht]
    · next ht => simp [ht]
  rw [hlive]
  constructor
  · rintro hiff ⟨hlast, hr⟩
    exact (hiff.mpr hlast).2 hr
  · intro hno
    constructor
    · rintro ⟨ht, hr⟩
      exact lastInsert_of_not_removed ht hr
    · intro hlast
      exact ⟨hlast.touched, fun hr => hno ⟨hlast, hr⟩⟩

end Run

/-- The first id is inserted, removed and inserted again. -/
def reinsertion : List (Op Lit) := [.insert 0 1 [.fin 0], .remove 1, .insert 0 1 [.fin 5]]

def reinserted : HnswIndex Lit :=
  (LTS.exec (applyOk lineComputer) (fun _ _ => True) (new 1 twoLinks) reinsertion).get
    (by decide +kernel)

theorem reinserted_run : (okCalls lineComputer 1 twoLinks).Run (new 1 twoLinks) reinsertion
    reinserted :=
  (LTS.run_of_exec (Option.some_get _).symm).of_restrict

/-- The last call on the id was an insert that returned `Ok`, and the id is not live. -/
theorem reinsert_stays_hidden :
    (okCalls lineComputer 1 twoLinks).Run (new 1 twoLinks) reinsertion reinserted ∧
      LastInsert 1 reinsertion ∧ ¬ Live reinserted 1 :=
  ⟨reinserted_run, ⟨.insert 0 1 [.fin 5], by decide +kernel, rfl⟩, by decide +kernel⟩

theorem live_iff_last_insert_reinserted :
    (Live reinserted 2 ↔ LastInsert 2 reinsertion) ∧
      ¬ (Live reinserted 1 ↔ LastInsert 1 reinsertion) := by
  refine ⟨(live_iff_last_insert reinserted_run 2).mpr ?_, ?_⟩
  · rintro ⟨_, hr⟩
    exact absurd hr (by decide +kernel)
  · intro hiff
    exact (live_iff_last_insert reinserted_run 1).mp hiff
      ⟨⟨.insert 0 1 [.fin 5], by decide +kernel, rfl⟩, by decide +kernel⟩

end Tesseract.L3.HnswIndex
