import Mathlib.Data.List.Induction
import Tesseract.L3Store.HotStore

/-!
# Runs of the hot store

The rest of `tesseract-storage/src/hot_store.rs`, and what becomes of the records over any
run: the store takes records in and hands them out, by `drain_least_accessed` or for good.

* `step_conserves`: one operation on what was taken in and what has gone.
* `hot_conserves`: no record that was taken in is lost, and none is there twice.
* `refused_iff`: when a record is not taken in.
-/
namespace Tesseract.L3

open Serde

variable {α : Type} [F64 α]

namespace HotStore

/-- `None` where there is no limit.
mirrors tesseract-storage/src/hot_store.rs:48-50 -/
def maxRecords? (s : HotStore α) : Option Nat :=
  if 0 < s.maxRecords then some s.maxRecords.toNat else none

/-- mirrors tesseract-storage/src/hot_store.rs:89-91 -/
def delete (s : HotStore α) (id : UInt64) : HotStore α × Bool :=
  ((s.remove id).1, (s.remove id).2.isSome)

/-- mirrors tesseract-storage/src/hot_store.rs:115-117 -/
def len (s : HotStore α) : Nat := s.vectors.length

/-- mirrors tesseract-storage/src/hot_store.rs:120-122 -/
def isEmpty (s : HotStore α) : Bool := s.vectors.isEmpty

/-- mirrors tesseract-storage/src/hot_store.rs:125-127 -/
def clear (s : HotStore α) : HotStore α :=
  ⟨s.maxRecords, [], List.nodup_nil, .inr (Nat.zero_le _)⟩

end HotStore

/-- A call that writes. -/
inductive HotOp (α : Type) [F64 α] where
  | insert (record : VectorRecord α)
  | delete (id : UInt64)
  | drain (rank : UInt64 → Nat) (maxCount : Nat)
  | clear

/-- A store, with the records that it has taken in and those that have gone from it. -/
structure HotFlow (α : Type) [F64 α] where
  store : HotStore α
  taken : List (VectorRecord α)
  gone : List (VectorRecord α)

namespace HotFlow

variable {f : HotFlow α}

def new (maxRecords : UInt64) : HotFlow α := ⟨.new maxRecords, [], []⟩

def step (f : HotFlow α) : HotOp α → HotFlow α
  | .insert record =>
    let (store, r) := f.store.insert record
    ⟨store, if r.isOk then f.taken ++ [record] else f.taken, f.gone⟩
  | .delete id => ⟨(f.store.delete id).1, f.taken, f.gone ++ (f.store.get id).toList⟩
  | .drain rank maxCount =>
    let (store, drained) := f.store.drainLeastAccessed rank maxCount
    ⟨store, f.taken, f.gone ++ drained⟩
  | .clear => ⟨f.store.clear, f.taken, f.gone ++ f.store.vectors⟩

/-- What was taken in is either there or has gone. -/
def Conserved (f : HotFlow α) : Prop := f.taken.Perm (f.gone ++ f.store.vectors)

theorem step_conserves (h : f.Conserved) (op : HotOp α) :
    (f.step op).Conserved ∧ (f.step op).store.maxRecords = f.store.maxRecords := by
  unfold Conserved at h
  cases op with
  | insert record =>
    rcases f.store.insert_cases record with ⟨-, heq⟩ | ⟨-, -, heq⟩ | ⟨-, -, hok, hmax, hvec⟩
    · simpa [step, heq, Except.isOk, Except.toBool, Conserved] using h
    · simpa [step, heq, Except.isOk, Except.toBool, Conserved] using h
    · refine ⟨?_, hmax⟩
      simp only [Conserved, step, hok, hvec, Except.isOk, Except.toBool, if_true]
      rw [← List.append_assoc]
      exact h.append_right [record]
  | delete id =>
    refine ⟨?_, rfl⟩
    simp only [Conserved, step, HotStore.delete]
    cases hget : f.store.get id with
    | none =>
      have hsame : (f.store.remove id).1.vectors = f.store.vectors := by
        refine List.filter_eq_self.mpr fun r hr => ?_
        simp only [bne_iff_ne]
        exact fun hid => HotStore.get_eq_none.mp hget (List.mem_map.mpr ⟨r, hr, hid⟩)
      rw [hsame]
      simpa using h
    | some r =>
      rw [Option.toList_some, List.append_assoc]
      exact h.trans ((HotStore.remove_perm hget).append_left f.gone)
  | drain rank maxCount =>
    obtain ⟨hperm, hmax, -⟩ := HotStore.drainLeastAccessed_perm rank f.store maxCount
    refine ⟨?_, hmax⟩
    simp only [Conserved, step]
    rw [List.append_assoc]
    exact h.trans (hperm.append_left f.gone)
  | clear => exact ⟨by simpa [Conserved, step, HotStore.clear] using h, rfl⟩

/-- A record is refused by a store at its limit, or for an id that is there. -/
theorem refused_iff (s : HotStore α) (record : VectorRecord α) :
    (s.insert record).2 ≠ .ok () ↔
      (∃ max ∈ s.maxRecords?, max ≤ s.len) ∨ s.get record.id ≠ none := by
  have hlimit : (∃ max ∈ s.maxRecords?, max ≤ s.len) ↔ s.full := by
    have hpos : 0 < s.maxRecords ↔ s.maxRecords ≠ 0 := UInt64.pos_iff_ne_zero
    unfold HotStore.maxRecords? HotStore.full HotStore.len
    by_cases h : s.maxRecords = 0
    · simp [h]
    · simp [hpos.mpr h, h]
  rw [hlimit]
  rcases s.insert_cases record with ⟨hfull, heq⟩ | ⟨-, hget, heq⟩ | ⟨hfull, hget, hok, -⟩
  · simp [heq, hfull]
  · simp [heq, hget]
  · simp [hok, hfull, hget]

/-- Over any run of the store the records that it took in are those that it holds and those
that it handed out, each as often; and it never holds more than it may. -/
theorem hot_conserves (maxRecords : UInt64) (ops : List (HotOp α)) :
    (ops.foldl step (new maxRecords)).Conserved ∧
      ((ops.foldl step (new maxRecords)).store.vectors.map VectorRecord.id).Nodup ∧
      (maxRecords = 0 ∨ (ops.foldl step (new maxRecords)).store.len ≤ maxRecords.toNat) := by
  have hrun : (ops.foldl step (new maxRecords)).Conserved ∧
      (ops.foldl step (new maxRecords)).store.maxRecords = maxRecords := by
    induction ops using List.reverseRecOn with
    | nil => exact ⟨List.Perm.refl _, rfl⟩
    | append_singleton ops op ih =>
      rw [List.foldl_append, List.foldl_cons, List.foldl_nil]
      obtain ⟨hconserved, hmax⟩ := step_conserves ih.1 op
      exact ⟨hconserved, hmax.trans ih.2⟩
  have hbounded := (ops.foldl step (new maxRecords)).store.bounded
  rw [hrun.2] at hbounded
  exact ⟨hrun.1, (ops.foldl step (new maxRecords)).store.nodup, hbounded⟩

end HotFlow

end Tesseract.L3
