import Tesseract.Core.LTS
import Tesseract.L3Store.HotStore

/-!
# What a drain of the hot store evicts

`drain_least_accessed` orders the records by their access counts, which `get` returns and
never raises (`tesseract-storage/src/hot_store.rs:82-84`). A history of inserts, reads and
drains keeps beside the store how often each record was read.

* `counts_zero`: in such a history every access count stays what it was on insertion.
* `drained_iff`: so a drain takes the first records in the order of the map.
* `evicts_least_read_iff`: when none of those was read more often than one that stays,
  whatever the order of the map.
-/
namespace Tesseract.L3

open Serde

variable {α : Type} [F64 α]

/-- The store, and how often `get` returned each record since its insertion. -/
structure ReadStore (α : Type) [F64 α] where
  store : HotStore α
  reads : UInt64 → Nat

inductive Access (α : Type) [F64 α] where
  | insert (record : VectorRecord α)
  | get (id : UInt64)
  /-- `rank` orders the map as it is iterated at this drain. -/
  | drain (rank : UInt64 → Nat) (maxCount : Nat)

namespace ReadStore

def new (maxRecords : UInt64) : ReadStore α := ⟨HotStore.new maxRecords, fun _ => 0⟩

def insert (s : ReadStore α) (record : VectorRecord α) : ReadStore α :=
  match s.store.insert record with
  | (store, .ok ()) => ⟨store, fun id => if id = record.id then 0 else s.reads id⟩
  | (store, .error _) => ⟨store, s.reads⟩

def get (s : ReadStore α) (id : UInt64) : ReadStore α :=
  match s.store.get id with
  | some _ => { s with reads := fun i => if i = id then s.reads i + 1 else s.reads i }
  | none => s

def drain (s : ReadStore α) (rank : UInt64 → Nat) (maxCount : Nat) : ReadStore α :=
  { s with store := (s.store.drainLeastAccessed rank maxCount).1 }

/-- Records are inserted with a count of 0, as the engine does. -/
def access (s : ReadStore α) : Access α → Option (ReadStore α)
  | .insert record => if record.accessCount = 0 then some (s.insert record) else none
  | .get id => some (s.get id)
  | .drain rank maxCount => some (s.drain rank maxCount)

def accesses (maxRecords : UInt64) : LTS (ReadStore α) (Access α) :=
  LTS.ofFn (· = new maxRecords) access

/-- The drain of `maxCount` records takes as many as there are up to that number, keeps the
others, and takes none that was read more often than one it keeps. -/
structure EvictsLeastRead (s : ReadStore α) (rank : UInt64 → Nat) (maxCount : Nat) : Prop where
  count : (s.store.drainLeastAccessed rank maxCount).2.length = min maxCount s.store.vectors.length
  partition : s.store.vectors.Perm ((s.store.drainLeastAccessed rank maxCount).2 ++
    (s.store.drainLeastAccessed rank maxCount).1.vectors)
  least : ∀ r ∈ (s.store.drainLeastAccessed rank maxCount).2,
    ∀ r' ∈ (s.store.drainLeastAccessed rank maxCount).1.vectors, s.reads r.id ≤ s.reads r'.id

/-! ## The access counts -/

def CountsZero (s : ReadStore α) : Prop := ∀ r ∈ s.store.vectors, r.accessCount = 0

theorem insert_counts {s : ReadStore α} (hs : s.CountsZero) {record : VectorRecord α}
    (hzero : record.accessCount = 0) : (s.insert record).CountsZero := by
  have hstore : (s.insert record).store = (s.store.insert record).1 := by
    unfold insert
    split <;> next heq => rw [heq]
  intro r hr
  rw [hstore] at hr
  rcases s.store.insert_cases record with ⟨_, heq⟩ | ⟨_, _, heq⟩ | ⟨_, _, _, _, hvec⟩
  · rw [heq] at hr
    exact hs r hr
  · rw [heq] at hr
    exact hs r hr
  · rw [hvec, List.mem_append, List.mem_singleton] at hr
    rcases hr with hr | rfl
    · exact hs r hr
    · exact hzero

theorem get_store (s : ReadStore α) (id : UInt64) : (s.get id).store = s.store := by
  unfold get
  split <;> rfl

theorem counts_zero (maxRecords : UInt64) :
    (accesses maxRecords : LTS (ReadStore α) (Access α)).Inductive CountsZero where
  init := by
    rintro s rfl r hr
    exact absurd hr (List.not_mem_nil)
  step := by
    intro s l s' hs hstep
    cases l with
    | insert record =>
      change (if _ then _ else _) = _ at hstep
      split at hstep
      · next hzero =>
        cases hstep
        exact insert_counts hs hzero
      · cases hstep
    | get id =>
      cases hstep
      intro r hr
      rw [get_store] at hr
      exact hs r hr
    | drain rank maxCount =>
      cases hstep
      intro r hr
      obtain ⟨hperm, _, _⟩ := s.store.drainLeastAccessed_perm rank maxCount
      exact hs r (hperm.mem_iff.mpr (List.mem_append_right _ hr))

/-! ## What a drain takes -/

theorem leastAccessed_eq {s : ReadStore α} (hs : s.CountsZero) (rank : UInt64 → Nat)
    (maxCount : Nat) : (s.store.leastAccessed rank maxCount).map Prod.fst =
      ((s.store.iter rank).take maxCount).map VectorRecord.id := by
  have hmem : ∀ r ∈ s.store.iter rank, r.accessCount = 0 := fun r hr =>
    hs r ((s.store.iter_perm rank).mem_iff.mp hr)
  -- the sort by counts finds nothing to move
  have hsorted : ((s.store.iter rank).map fun r => (r.id, r.accessCount)).Pairwise
      fun a b => a.2 ≤ b.2 := by
    rw [List.pairwise_map]
    refine List.pairwise_of_forall_mem_list fun a ha b hb => ?_
    rw [hmem a ha, hmem b hb]
    exact UInt64.le_refl _
  rw [HotStore.leastAccessed, hsorted.insertionSort_eq, ← List.map_take, List.map_map]
  rfl

/-- A list without repetitions, split in two ways: what is in the same front parts is in
the same back parts. -/
theorem mem_back_iff {τ : Type} {as bs cs ds : List τ} (hperm : (as ++ bs).Perm (cs ++ ds))
    (hnd : (as ++ bs).Nodup) {x : τ} (hfront : x ∈ as ↔ x ∈ cs) : x ∈ bs ↔ x ∈ ds := by
  have hmem := hperm.mem_iff (a := x)
  rw [List.mem_append, List.mem_append] at hmem
  have hleft : x ∈ as → x ∉ bs := fun ha hb => (List.nodup_append.mp hnd).2.2 x ha x hb rfl
  have hright : x ∈ cs → x ∉ ds := fun hc hd =>
    (List.nodup_append.mp (hperm.nodup_iff.mp hnd)).2.2 x hc x hd rfl
  tauto

/-- A drain takes the first records of the map in its order and keeps the others. -/
theorem drained_iff {s : ReadStore α} (hs : s.CountsZero) (rank : UInt64 → Nat) (maxCount : Nat)
    (r : VectorRecord α) :
    (r ∈ (s.store.drainLeastAccessed rank maxCount).2 ↔ r ∈ (s.store.iter rank).take maxCount) ∧
    (r ∈ (s.store.drainLeastAccessed rank maxCount).1.vectors ↔
      r ∈ (s.store.iter rank).drop maxCount) := by
  obtain ⟨hperm, _, _⟩ := s.store.drainLeastAccessed_perm rank maxCount
  have hiter := s.store.iter_perm rank
  have hids := (s.store.drain_ids rank maxCount).trans (leastAccessed_eq hs rank maxCount)
  have hdrained : r ∈ (s.store.drainLeastAccessed rank maxCount).2 ↔
      r ∈ (s.store.iter rank).take maxCount := by
    constructor
    · intro hr
      have hid := List.mem_map_of_mem (f := VectorRecord.id) hr
      rw [hids, List.mem_map] at hid
      obtain ⟨x, hx, hxr⟩ := hid
      have hin := hperm.mem_iff.mpr (List.mem_append_left _ hr)
      rwa [← HotStore.eq_of_id (hiter.mem_iff.mp (List.mem_of_mem_take hx)) hin hxr]
    · intro hr
      have hid := List.mem_map_of_mem (f := VectorRecord.id) hr
      rw [← hids, List.mem_map] at hid
      obtain ⟨x, hx, hxr⟩ := hid
      have hin := hperm.mem_iff.mpr (List.mem_append_left _ hx)
      rwa [← HotStore.eq_of_id hin (hiter.mem_iff.mp (List.mem_of_mem_take hr)) hxr]
  refine ⟨hdrained, mem_back_iff ?_ ?_ hdrained⟩
  · rw [List.take_append_drop]
    exact hperm.symm.trans hiter.symm
  · exact hperm.nodup_iff.mp (List.Nodup.of_map _ s.store.nodup)

section Order

variable {s : HotStore α} {rank : UInt64 → Nat} {maxCount : Nat}

theorem iter_split (s : HotStore α) (rank : UInt64 → Nat) (maxCount : Nat) :
    ∀ a ∈ (s.iter rank).take maxCount, ∀ b ∈ (s.iter rank).drop maxCount,
      rank a.id ≤ rank b.id := by
  have : Std.Total fun a b : VectorRecord α => rank a.id ≤ rank b.id :=
    ⟨fun a b => Nat.le_total _ _⟩
  have : IsTrans (VectorRecord α) fun a b => rank a.id ≤ rank b.id :=
    ⟨fun _ _ _ => Nat.le_trans⟩
  have hsorted : (s.iter rank).Pairwise fun a b => rank a.id ≤ rank b.id :=
    List.pairwise_insertionSort _ _
  rw [← List.take_append_drop maxCount (s.iter rank), List.pairwise_append] at hsorted
  exact hsorted.2.2

/-- A record in front of all others is drained. -/
theorem mem_take_of_first {r : VectorRecord α} (hr : r ∈ s.vectors) (hpos : 0 < maxCount)
    (hfirst : ∀ x ∈ s.vectors, x ≠ r → rank r.id < rank x.id) :
    r ∈ (s.iter rank).take maxCount := by
  have hin := (s.iter_perm rank).mem_iff.mpr hr
  obtain ⟨x, hx⟩ : ∃ x, x ∈ (s.iter rank).take maxCount := by
    refine List.exists_mem_of_length_pos ?_
    rw [List.length_take]
    have := List.length_pos_of_mem hin
    omega
  rw [← List.take_append_drop maxCount (s.iter rank), List.mem_append] at hin
  rcases hin with htake | hdrop
  · exact htake
  · by_cases heq : x = r
    · exact heq ▸ hx
    · have hle := iter_split s rank maxCount x hx r hdrop
      have := hfirst x ((s.iter_perm rank).mem_iff.mp (List.mem_of_mem_take hx)) heq
      omega

/-- A record behind all others stays. -/
theorem mem_drop_of_last {r : VectorRecord α} (hr : r ∈ s.vectors)
    (hlt : maxCount < s.vectors.length)
    (hlast : ∀ x ∈ s.vectors, x ≠ r → rank x.id < rank r.id) :
    r ∈ (s.iter rank).drop maxCount := by
  have hin := (s.iter_perm rank).mem_iff.mpr hr
  obtain ⟨x, hx⟩ : ∃ x, x ∈ (s.iter rank).drop maxCount := by
    refine List.exists_mem_of_length_pos ?_
    rw [List.length_drop, (s.iter_perm rank).length_eq]
    omega
  rw [← List.take_append_drop maxCount (s.iter rank), List.mem_append] at hin
  rcases hin with htake | hdrop
  · by_cases heq : x = r
    · exact heq ▸ hx
    · have hle := iter_split s rank maxCount r htake x hx
      have := hlast x ((s.iter_perm rank).mem_iff.mp (List.mem_of_mem_drop hx)) heq
      omega
  · exact hdrop

end Order

/-- Some order of the map makes a drain take the one record and keep the other. -/
theorem exists_order {s : ReadStore α} (hs : s.CountsZero) {r r' : VectorRecord α}
    (hr : r ∈ s.store.vectors) (hr' : r' ∈ s.store.vectors) (hne : r.id ≠ r'.id) {maxCount : Nat}
    (hpos : 0 < maxCount) (hlt : maxCount < s.store.vectors.length) :
    ∃ rank, r ∈ (s.store.drainLeastAccessed rank maxCount).2 ∧
      r' ∈ (s.store.drainLeastAccessed rank maxCount).1.vectors := by
  refine ⟨fun id => if id = r.id then 0 else if id = r'.id then 2 else 1, ?_, ?_⟩
  · rw [(drained_iff hs _ maxCount r).1]
    refine mem_take_of_first hr hpos fun x hx hxr => ?_
    have hid : x.id ≠ r.id := fun h => hxr (HotStore.eq_of_id hx hr h)
    rw [if_pos rfl, if_neg hid]
    split <;> omega
  · rw [(drained_iff hs _ maxCount r').2]
    refine mem_drop_of_last hr' hlt fun x hx hxr => ?_
    have hid : x.id ≠ r'.id := fun h => hxr (HotStore.eq_of_id hx hr' h)
    rw [if_neg hne.symm, if_pos rfl, if_neg hid]
    split <;> omega

/-- Whatever the order of the map, a drain evicts the least read records exactly if it takes
none of them or all, or all of them were read equally often. -/
theorem evicts_least_read_iff (maxRecords : UInt64) (s : ReadStore α)
    (h : (accesses maxRecords).Reachable s) (maxCount : Nat) :
    (∀ rank, s.EvictsLeastRead rank maxCount) ↔ maxCount = 0 ∨
      s.store.vectors.length ≤ maxCount ∨
      ∀ r ∈ s.store.vectors, ∀ r' ∈ s.store.vectors, s.reads r.id = s.reads r'.id := by
  have hs := (counts_zero maxRecords).reachable s h
  constructor
  · intro hev
    by_contra hcon
    push Not at hcon
    obtain ⟨hpos, hlt, r, hr, r', hr', hreads⟩ := hcon
    -- the one read more often goes first, the other one last
    have hmore : ∃ a ∈ s.store.vectors, ∃ b ∈ s.store.vectors, s.reads b.id < s.reads a.id := by
      rcases Nat.lt_or_gt_of_ne hreads with hlt' | hgt
      · exact ⟨r', hr', r, hr, hlt'⟩
      · exact ⟨r, hr, r', hr', hgt⟩
    obtain ⟨a, ha, b, hb, hab⟩ := hmore
    have hne : a.id ≠ b.id := by
      intro heq
      rw [heq] at hab
      omega
    obtain ⟨rank, hout, hstay⟩ := exists_order hs ha hb hne (Nat.pos_of_ne_zero hpos) hlt
    have := (hev rank).least a hout b hstay
    omega
  · intro hcond rank
    obtain ⟨hperm, _, hlen⟩ := s.store.drainLeastAccessed_perm rank maxCount
    refine ⟨hlen, hperm, fun r hr r' hr' => ?_⟩
    rcases hcond with rfl | hall | heven
    · rw [Nat.zero_min, List.length_eq_zero_iff] at hlen
      rw [hlen] at hr
      exact absurd hr (List.not_mem_nil)
    · rw [(drained_iff hs rank maxCount r').2, List.drop_eq_nil_of_le (by
        rw [(s.store.iter_perm rank).length_eq]
        exact hall)] at hr'
      exact absurd hr' (List.not_mem_nil)
    · have hin := hperm.mem_iff.mpr (List.mem_append_left _ hr)
      have hin' := hperm.mem_iff.mpr (List.mem_append_right _ hr')
      exact (heven r hin r' hin').le

/-! ## A record that is read -/

def plain (id : UInt64) : VectorRecord Lit := ⟨id, [.fin 0], .null, 0, 0⟩

theorem reachable_of_accesses (ls : List (Access Lit)) {s : ReadStore Lit}
    (h : LTS.exec access (fun _ _ => True) (new 0) ls = some s) : (accesses 0).Reachable s := by
  have hrun : ((accesses 0).restrict fun _ _ => True).Reachable s := LTS.reachable_of_exec rfl h
  exact hrun.of_restrict

/-- Two records, neither of which was read. -/
def unread : ReadStore Lit := ((new 0).insert (plain 1)).insert (plain 2)

/-- Each of them is read once, and one is drained. -/
theorem evicts_evenly_read : ((unread.get 2).get 1).reads 1 = 1 ∧
    ((unread.get 2).get 1).EvictsLeastRead UInt64.toNat 1 := by
  have hreach : (accesses 0).Reachable ((unread.get 2).get 1) :=
    reachable_of_accesses [.insert (plain 1), .insert (plain 2), .get 2, .get 1] rfl
  exact ⟨by decide, (evicts_least_read_iff 0 _ hreach 1).mpr (.inr (.inr (by decide)))
    UInt64.toNat⟩

theorem read_reachable : (accesses 0).Reachable (unread.get 1) :=
  reachable_of_accesses [.insert (plain 1), .insert (plain 2), .get 1] rfl

/-- The record that was read is drained, the other one stays. -/
theorem evicts_read : ¬ ∀ (s : ReadStore Lit), (accesses 0).Reachable s →
    ∀ rank maxCount, s.EvictsLeastRead rank maxCount := by
  intro h
  have hout : ((unread.get 1).store.drainLeastAccessed UInt64.toNat 1).2 = [plain 1] := rfl
  have hstay : ((unread.get 1).store.drainLeastAccessed UInt64.toNat 1).1.vectors = [plain 2] := rfl
  have hleast := (h _ read_reachable UInt64.toNat 1).least (plain 1) (by simp [hout]) (plain 2)
    (by simp [hstay])
  exact absurd hleast (by decide)

end ReadStore

end Tesseract.L3
