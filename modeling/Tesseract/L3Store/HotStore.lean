import Mathlib.Data.List.Sort
import Tesseract.Core.Error
import Tesseract.L3Store.Json

/-!
# The hot store

Model of `tesseract-storage/src/hot_store.rs`. The `DashMap` is the list of its
records, whose ids are distinct; the order in which it is iterated is not fixed
by the code and is given by a `rank` of the ids.

* `get_eq_some`: `get` finds the one record with the id.
* `insert_cases`: an insert is refused on a full store, then on a known id, and
  a refused insert changes nothing.
* `drainLeastAccessed_perm`: the drained and the remaining records are those of
  the store, and there are as many drained ones as asked for.
* `drain_room`, `drain_get`: a full store has room behind a drain, which removes
  the drained ids only.
-/
namespace Tesseract.L3

open Serde

variable {α : Type} [F64 α]

/-- mirrors tesseract-storage/src/hot_store.rs:22-38 -/
structure HotStore (α : Type) [F64 α] where
  /-- 0: unlimited -/
  maxRecords : UInt64
  vectors : List (VectorRecord α)
  nodup : (vectors.map VectorRecord.id).Nodup
  bounded : maxRecords = 0 ∨ vectors.length ≤ maxRecords.toNat

namespace HotStore

/-- mirrors tesseract-storage/src/hot_store.rs:42-44 -/
def new (maxRecords : UInt64) : HotStore α := ⟨maxRecords, [], List.nodup_nil, .inr (Nat.zero_le _)⟩

/-- mirrors tesseract-storage/src/hot_store.rs:59-65 -/
def full (s : HotStore α) : Prop := s.maxRecords ≠ 0 ∧ s.maxRecords.toNat ≤ s.vectors.length

instance (s : HotStore α) : Decidable s.full := inferInstanceAs (Decidable (_ ∧ _))

/-- mirrors tesseract-storage/src/hot_store.rs:82-84 -/
def get (s : HotStore α) (id : UInt64) : Option (VectorRecord α) :=
  s.vectors.find? fun r => r.id == id

def storeFull (max : UInt64) : Error :=
  .storeFull ("Hot store capacity reached: " ++ toString max ++
    " records. Use drain_least_accessed() to free space.")

def alreadyExists (id : UInt64) : Error :=
  .alreadyExists ("VectorId " ++ toString id ++ " already exists in hot store")

/-- A new entry of the map, where there is room for it. -/
def addEntry (s : HotStore α) (record : VectorRecord α) (hroom : ¬ s.full)
    (hid : record.id ∉ s.vectors.map VectorRecord.id) : HotStore α where
  maxRecords := s.maxRecords
  vectors := s.vectors ++ [record]
  nodup := by
    rw [List.map_append, List.map_singleton, List.nodup_append]
    refine ⟨s.nodup, List.nodup_singleton _, ?_⟩
    intro a ha b hb hab
    rw [List.mem_singleton.mp hb] at hab
    exact hid (hab ▸ ha)
  bounded := by
    rw [full, not_and_or, Decidable.not_not] at hroom
    rw [List.length_append, List.length_singleton]
    exact hroom.imp_right fun h => by omega

/-- mirrors tesseract-storage/src/hot_store.rs:57-77 -/
def insert (s : HotStore α) (record : VectorRecord α) : HotStore α × Result Unit :=
  if hfull : s.full then (s, .error (storeFull s.maxRecords))
  else if hid : record.id ∈ s.vectors.map VectorRecord.id then (s, .error (alreadyExists record.id))
  else (s.addEntry record hfull hid, .ok ())

/-- `DashMap::remove` -/
def remove (s : HotStore α) (id : UInt64) : HotStore α × Option (VectorRecord α) :=
  (⟨s.maxRecords, s.vectors.filter fun r => r.id != id, (List.filter_sublist.map _).nodup s.nodup,
    s.bounded.imp_right fun h => Nat.le_trans (List.length_filter_le _ _) h⟩, s.get id)

/-- `DashMap::iter` -/
def iter (rank : UInt64 → Nat) (s : HotStore α) : List (VectorRecord α) :=
  s.vectors.insertionSort fun a b => rank a.id ≤ rank b.id

/-- The `filter_map` that removes the records.
mirrors tesseract-storage/src/hot_store.rs:111 -/
def removeAll : HotStore α → List UInt64 → HotStore α × List (VectorRecord α)
  | s, [] => (s, [])
  | s, id :: ids =>
    match s.remove id with
    | (s, some r) => let (s, rs) := removeAll s ids; (s, r :: rs)
    | (s, none) => removeAll s ids

/-- The entries `drain_least_accessed` takes.
mirrors tesseract-storage/src/hot_store.rs:99-108 -/
def leastAccessed (rank : UInt64 → Nat) (s : HotStore α) (maxCount : Nat) :
    List (UInt64 × UInt64) :=
  (((s.iter rank).map fun r => (r.id, r.accessCount)).insertionSort fun a b =>
    a.2 ≤ b.2).take maxCount

/-- mirrors tesseract-storage/src/hot_store.rs:97-112 -/
def drainLeastAccessed (rank : UInt64 → Nat) (s : HotStore α) (maxCount : Nat) :
    HotStore α × List (VectorRecord α) :=
  s.removeAll ((s.leastAccessed rank maxCount).map Prod.fst)

/-! ## Get and insert -/

theorem eq_of_id {s : HotStore α} {r r' : VectorRecord α} (hr : r ∈ s.vectors)
    (hr' : r' ∈ s.vectors) (h : r.id = r'.id) : r = r' :=
  List.inj_on_of_nodup_map s.nodup hr hr' h

theorem get_eq_some {s : HotStore α} {id : UInt64} {r : VectorRecord α} :
    s.get id = some r ↔ r ∈ s.vectors ∧ r.id = id := by
  unfold get
  constructor
  · intro h
    exact ⟨List.mem_of_find?_eq_some h, by simpa using List.find?_some h⟩
  · rintro ⟨hr, rfl⟩
    cases hf : s.vectors.find? fun x => x.id == r.id with
    | none => simpa using List.find?_eq_none.mp hf r hr
    | some r' =>
      have hid : r'.id = r.id := by simpa using List.find?_some hf
      rw [eq_of_id (List.mem_of_find?_eq_some hf) hr hid]

theorem get_eq_none {s : HotStore α} {id : UInt64} :
    s.get id = none ↔ id ∉ s.vectors.map VectorRecord.id := by
  rw [get, List.find?_eq_none, List.mem_map]
  constructor
  · rintro h ⟨r, hr, rfl⟩
    exact absurd (h r hr) (by simp)
  · intro h r hr
    simp only [beq_iff_eq]
    exact fun he => h ⟨r, hr, he⟩

/-- What an insert can do. -/
theorem insert_cases (s : HotStore α) (r : VectorRecord α) :
    (s.full ∧ s.insert r = (s, .error (storeFull s.maxRecords))) ∨
    (¬ s.full ∧ s.get r.id ≠ none ∧ s.insert r = (s, .error (alreadyExists r.id))) ∨
    (¬ s.full ∧ s.get r.id = none ∧ (s.insert r).2 = .ok () ∧
      (s.insert r).1.maxRecords = s.maxRecords ∧
      (s.insert r).1.vectors = s.vectors ++ [r]) := by
  unfold insert
  by_cases hfull : s.full
  · exact .inl ⟨hfull, by rw [dif_pos hfull]⟩
  · by_cases hid : r.id ∈ s.vectors.map VectorRecord.id
    · refine .inr (.inl ⟨hfull, ?_, by rw [dif_neg hfull, dif_pos hid]⟩)
      exact fun h => get_eq_none.mp h hid
    · refine .inr (.inr ⟨hfull, get_eq_none.mpr hid, ?_⟩)
      rw [dif_neg hfull, dif_neg hid]
      exact ⟨rfl, rfl, rfl⟩

theorem not_full_of_lt {s : HotStore α} (h : s.vectors.length < s.maxRecords.toNat) : ¬ s.full := by
  intro hc
  have := hc.2
  omega

/-- A record with a new id, in a store with room. -/
theorem insert_new {s : HotStore α} {r : VectorRecord α} (hfull : ¬ s.full)
    (hid : r.id ∉ s.vectors.map VectorRecord.id) :
    (s.insert r).1.maxRecords = s.maxRecords ∧ (s.insert r).1.vectors = s.vectors ++ [r] := by
  rcases s.insert_cases r with ⟨hc, _⟩ | ⟨_, hc, _⟩ | ⟨_, _, _, hmax, hvec⟩
  · exact absurd hc hfull
  · exact absurd (get_eq_none.mpr hid) hc
  · exact ⟨hmax, hvec⟩

theorem get_append {s s' : HotStore α} {r : VectorRecord α} (h : s'.vectors = s.vectors ++ [r])
    (id : UInt64) :
    s'.get id = (s.get id).or (if r.id = id then some r else none) := by
  rw [get, h, List.find?_append, get, List.find?_singleton]
  simp only [beq_iff_eq]

/-! ## Draining -/

theorem remove_perm {s : HotStore α} {id : UInt64} {r : VectorRecord α} (h : s.get id = some r) :
    s.vectors.Perm (r :: (s.remove id).1.vectors) := by
  obtain ⟨hr, rfl⟩ := get_eq_some.mp h
  have hnd : s.vectors.Nodup := List.Nodup.of_map _ s.nodup
  rw [List.perm_ext_iff_of_nodup hnd]
  · intro x
    simp only [remove, List.mem_cons, List.mem_filter, bne_iff_ne]
    constructor
    · intro hx
      by_cases hid : x.id = r.id
      · exact .inl (eq_of_id hx hr hid)
      · exact .inr ⟨hx, hid⟩
    · rintro (rfl | hx)
      · exact hr
      · exact hx.1
  · refine List.nodup_cons.mpr ⟨?_, hnd.filter _⟩
    simp [remove]

theorem removeAll_perm (ids : List UInt64) : ∀ s : HotStore α, ids.Nodup →
    (∀ id ∈ ids, id ∈ s.vectors.map VectorRecord.id) →
    (s.removeAll ids).2.map VectorRecord.id = ids ∧ (s.removeAll ids).1.maxRecords = s.maxRecords ∧
      s.vectors.Perm ((s.removeAll ids).2 ++ (s.removeAll ids).1.vectors) := by
  induction ids with
  | nil => exact fun s _ _ => ⟨rfl, rfl, .refl _⟩
  | cons id ids ih =>
    intro s hnd hmem
    obtain ⟨hnot, hnd⟩ := List.nodup_cons.mp hnd
    obtain ⟨r, hr⟩ : ∃ r, s.get id = some r := by
      cases hg : s.get id with
      | none => exact absurd (hmem id (by simp)) (get_eq_none.mp hg)
      | some r => exact ⟨r, rfl⟩
    have hperm := remove_perm hr
    have hid := (get_eq_some.mp hr).2
    -- the other ids are still there
    have hrest : ∀ i ∈ ids, i ∈ (s.remove id).1.vectors.map VectorRecord.id := by
      intro i hi
      have hin := (hperm.map VectorRecord.id).mem_iff.mp (hmem i (by simp [hi]))
      rw [List.map_cons, List.mem_cons] at hin
      rcases hin with rfl | hin
      · exact absurd (hid ▸ hi) hnot
      · exact hin
    obtain ⟨h₁, h₂, h₃⟩ := ih (s.remove id).1 hnd hrest
    have heq : s.removeAll (id :: ids) =
        (((s.remove id).1.removeAll ids).1, r :: ((s.remove id).1.removeAll ids).2) := by
      rw [removeAll]
      have : s.remove id = ((s.remove id).1, some r) := by rw [← hr]; rfl
      rw [this]
    rw [heq]
    refine ⟨by rw [List.map_cons, h₁, hid], h₂.trans rfl, ?_⟩
    exact hperm.trans (h₃.cons r)

/-- The map is iterated over its records, each of them once. -/
theorem iter_perm (s : HotStore α) (rank : UInt64 → Nat) : (s.iter rank).Perm s.vectors :=
  List.perm_insertionSort _ _

theorem leastAccessed_ids (rank : UInt64 → Nat) (s : HotStore α) (maxCount : Nat) :
    ((s.leastAccessed rank maxCount).map Prod.fst).Nodup ∧
    (∀ id ∈ (s.leastAccessed rank maxCount).map Prod.fst, id ∈ s.vectors.map VectorRecord.id) ∧
    (s.leastAccessed rank maxCount).length = min maxCount s.vectors.length := by
  -- the sorted entries are the entries of the store in another order
  have hperm := (List.perm_insertionSort (fun a b : UInt64 × UInt64 => a.2 ≤ b.2)
    ((s.iter rank).map fun r => (r.id, r.accessCount))).trans ((s.iter_perm rank).map _)
  have hids := hperm.map Prod.fst
  rw [List.map_map, show (Prod.fst ∘ fun r : VectorRecord α => (r.id, r.accessCount)) =
    VectorRecord.id from rfl] at hids
  unfold leastAccessed
  refine ⟨?_, ?_, ?_⟩
  · exact ((List.take_sublist _ _).map _).nodup (hids.nodup_iff.mpr s.nodup)
  · intro id hid
    exact hids.mem_iff.mp (((List.take_sublist _ _).map _).subset hid)
  · rw [List.length_take, hperm.length_eq, List.length_map]

/-- The drained and the remaining records are those of the store. -/
theorem drainLeastAccessed_perm (rank : UInt64 → Nat) (s : HotStore α) (maxCount : Nat) :
    s.vectors.Perm ((s.drainLeastAccessed rank maxCount).2 ++
      (s.drainLeastAccessed rank maxCount).1.vectors) ∧
    (s.drainLeastAccessed rank maxCount).1.maxRecords = s.maxRecords ∧
    (s.drainLeastAccessed rank maxCount).2.length = min maxCount s.vectors.length := by
  obtain ⟨hnd, hmem, hlen⟩ := leastAccessed_ids rank s maxCount
  obtain ⟨hids, hmax, hperm⟩ := removeAll_perm _ s hnd hmem
  refine ⟨hperm, hmax, ?_⟩
  have := congrArg List.length hids
  rw [List.length_map, List.length_map, hlen] at this
  exact this

/-- The drained records are the least accessed ones. -/
theorem drain_ids (rank : UInt64 → Nat) (s : HotStore α) (maxCount : Nat) :
    (s.drainLeastAccessed rank maxCount).2.map VectorRecord.id =
      (s.leastAccessed rank maxCount).map Prod.fst := by
  obtain ⟨hnd, hmem, _⟩ := leastAccessed_ids rank s maxCount
  exact (removeAll_perm _ s hnd hmem).1

/-- Behind a drain of a full store there is room. -/
theorem drain_room {s : HotStore α} (h : s.full) (rank : UInt64 → Nat) {maxCount : Nat}
    (hpos : 0 < maxCount) :
    ¬ (s.drainLeastAccessed rank maxCount).1.full := by
  obtain ⟨hperm, hmax, hlen⟩ := drainLeastAccessed_perm rank s maxCount
  have hsum := hperm.length_eq
  have hbound := s.bounded
  have hne : s.maxRecords.toNat ≠ 0 := fun h0 => h.1 (UInt64.toNat_inj.mp h0)
  have hfull := h.2
  rw [List.length_append, hlen] at hsum
  intro hc
  have hle := hc.2
  rw [hmax] at hle
  rcases hbound with h0 | hbound
  · exact h.1 h0
  · omega

theorem drain_ne_nil {s : HotStore α} (h : s.full) (rank : UInt64 → Nat) {maxCount : Nat}
    (hpos : 0 < maxCount) :
    (s.drainLeastAccessed rank maxCount).2 ≠ [] := by
  obtain ⟨_, _, hlen⟩ := drainLeastAccessed_perm rank s maxCount
  have hne : s.maxRecords.toNat ≠ 0 := fun h0 => h.1 (UInt64.toNat_inj.mp h0)
  have hfull := h.2
  intro hnil
  rw [hnil, List.length_nil] at hlen
  omega

/-- A drained id is gone, every other one is where it was. -/
theorem drain_get (rank : UInt64 → Nat) (s : HotStore α) (maxCount : Nat) (id : UInt64) :
    (s.drainLeastAccessed rank maxCount).1.get id =
      if id ∈ (s.drainLeastAccessed rank maxCount).2.map VectorRecord.id then none
      else s.get id := by
  obtain ⟨hperm, _, _⟩ := drainLeastAccessed_perm rank s maxCount
  have hnd := (hperm.map VectorRecord.id).nodup_iff.mp s.nodup
  rw [List.map_append, List.nodup_append] at hnd
  split
  · next hin =>
    rw [get_eq_none]
    exact fun hrest => hnd.2.2 id hin id hrest rfl
  · next hout =>
    cases hg : s.get id with
    | none =>
      rw [get_eq_none] at hg ⊢
      intro hrest
      apply hg
      rw [(hperm.map VectorRecord.id).mem_iff, List.map_append]
      exact List.mem_append_right _ hrest
    | some r =>
      rw [get_eq_some] at hg ⊢
      refine ⟨?_, hg.2⟩
      rcases List.mem_append.mp (hperm.mem_iff.mp hg.1) with hr | hr
      · exact absurd (hg.2 ▸ List.mem_map_of_mem hr) hout
      · exact hr

end HotStore

end Tesseract.L3
