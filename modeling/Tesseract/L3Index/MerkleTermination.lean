import Tesseract.L3Index.MerkleInvariant

/-!
# When the split loop ends

A leaf of count `c` above the limit becomes two of `c / 2` and `c - c / 2`. Above the limit 0
that is every leaf with a vector, and one of its halves has a vector again.

* `splitEnds_iff`: the loop ends unless the limit is 0 and some leaf is not empty.
* `splitEnds_fuel`: if it ends at all, then within the 65 rounds of the model.
* `insertBatch_ends_iff`: behind a batch no leaf is empty, unless the `u64` counts wrap.
-/
namespace Tesseract.L3.MerkleTree

open Endian MerkleNode

variable {β μ : Type} [F32 β] {blake3 : Bytes → Bytes} {maxClusterSize : UInt64}

/-! ## The loop -/

/-- The `while` ends, however many rounds it takes. -/
def SplitEnds (blake3 : Bytes → Bytes) (maxClusterSize : UInt64) (ns : List (MerkleNode β))
    (nextId : UInt64) : Prop :=
  ∃ fuel, (splitLoop blake3 maxClusterSize fuel ns nextId).isSome

/-- With the limit 0 a leaf with a vector leaves one behind every round. -/
theorem splitLoop_zero (blake3 : Bytes → Bytes) (fuel : Nat) {ns : List (MerkleNode β)}
    (nextId : UInt64) (hleaf : ∀ n ∈ ns, n.IsLeaf) (hpos : 1 ≤ totalSize ns) :
    splitLoop blake3 0 fuel ns nextId = none := by
  induction fuel generalizing ns nextId with
  | zero => rfl
  | succ fuel ih =>
    have hround := round_splitRound blake3 0 hleaf nextId
    have htotal := hround.totalSize_eq
    unfold splitLoop
    cases hsplit : (splitRound blake3 0 ns nextId).2.2 with
    | false =>
      -- a round that splits nothing found every leaf empty
      have hempty := (hround.done hsplit).2.2
      have hzero : totalSize ns = 0 := by
        refine List.sum_eq_zero ?_
        intro x hx
        obtain ⟨n, hn, rfl⟩ := List.mem_map.mp hx
        exact Nat.le_zero.mp (hempty n hn)
      omega
    | true =>
      simp only [hsplit, if_true]
      exact ih _ hround.isLeaf (by omega)

/-- A list without an overfull leaf is done in one round. -/
theorem splitLoop_done {ns : List (MerkleNode β)} (fuel : Nat) (nextId : UInt64)
    (hleaf : ∀ n ∈ ns, n.IsLeaf) (hsizes : ∀ n ∈ ns, n.size ≤ maxClusterSize.toNat) :
    (splitLoop blake3 maxClusterSize (fuel + 1) ns nextId).isSome := by
  have hround := round_splitRound blake3 maxClusterSize hleaf nextId
  unfold splitLoop
  cases hsplit : (splitRound blake3 maxClusterSize ns nextId).2.2 with
  | false => simp [hsplit]
  | true =>
    obtain ⟨n, hn, hover⟩ := hround.exists_over hsplit
    have hle := hsizes n hn
    omega

omit [F32 β] in
theorem totalSize_pos {ns : List (MerkleNode β)} {n : MerkleNode β} (hn : n ∈ ns)
    (hsize : n.size ≠ 0) : 1 ≤ totalSize ns := by
  have hle : n.size ≤ totalSize ns := List.le_sum_of_mem (List.mem_map_of_mem hn)
  omega

theorem splitLoop_fuel {ns : List (MerkleNode β)} (nextId : UInt64) (hleaf : ∀ n ∈ ns, n.IsLeaf)
    (h : 1 ≤ maxClusterSize ∨ ∀ n ∈ ns, n.size = 0) :
    (splitLoop blake3 maxClusterSize 65 ns nextId).isSome := by
  rcases h with hmax | hempty
  · exact splitLoop_isSome blake3 64 nextId (UInt64.le_iff_toNat_le.mp hmax) hleaf
      fun n _ => .inr n.count.toNat_lt.le
  · refine splitLoop_done 64 nextId hleaf ?_
    intro n hn
    rw [hempty n hn]
    exact Nat.zero_le _

/-- The loop ends unless the limit is 0 and some leaf has a vector. -/
theorem splitEnds_iff {ns : List (MerkleNode β)} {nextId : UInt64}
    (hleaf : ∀ n ∈ ns, n.IsLeaf) :
    SplitEnds blake3 maxClusterSize ns nextId ↔
      1 ≤ maxClusterSize ∨ ∀ n ∈ ns, n.size = 0 := by
  constructor
  · intro ⟨fuel, hends⟩
    by_cases hmax : maxClusterSize = 0
    · right
      intro n hn
      by_contra hsize
      rw [hmax, splitLoop_zero blake3 fuel nextId hleaf (totalSize_pos hn hsize)] at hends
      cases hends
    · left
      rw [UInt64.le_iff_toNat_le]
      have hne : maxClusterSize.toNat ≠ 0 := fun h => hmax (UInt64.toNat_inj.mp h)
      exact Nat.one_le_iff_ne_zero.mpr hne
  · exact fun h => ⟨65, splitLoop_fuel nextId hleaf h⟩

/-- 65 rounds are enough where any number is. -/
theorem splitEnds_fuel {ns : List (MerkleNode β)} {nextId : UInt64}
    (hleaf : ∀ n ∈ ns, n.IsLeaf) (h : SplitEnds blake3 maxClusterSize ns nextId) :
    (splitLoop blake3 maxClusterSize 65 ns nextId).isSome :=
  splitLoop_fuel nextId hleaf ((splitEnds_iff hleaf).mp h)

/-! ## What a batch hands to the loop -/

/-- The leaves and the next id that the loop starts with. `none` if there is nothing to
insert, or an `unwrap` failed before. -/
def splitStart (blake3 : Bytes → Bytes) (t : MerkleTree β)
    (batch : List (BufferedVector β μ)) : Option (List (MerkleNode β) × UInt64) :=
  batch.head?.bind fun first =>
    let a := t.assigned (batch.map BufferedVector.vector) first.vector.length
    (updateLeaves a.clusterAdditions t.leaves a.clusterSums).map fun updated =>
      (grown blake3 a updated, a.nextClusterId)

theorem insertBatch_splitStart (t : MerkleTree β) {batch : List (BufferedVector β μ)}
    (hne : batch ≠ []) : t.insertBatch blake3 batch = (t.splitStart blake3 batch).bind fun p =>
      (splitLoop blake3 t.maxClusterSize 65 p.1 p.2).bind fun p =>
        some { t with root := buildTree blake3 p.1, nextClusterId := p.2 } := by
  cases batch with
  | nil => exact absurd rfl hne
  | cons first rest =>
    rw [insertBatch_cons]
    simp only [splitStart, List.head?_cons, Option.bind_some, Option.bind_map]
    rfl

theorem splitStart_eq_some {t : MerkleTree β} {batch : List (BufferedVector β μ)}
    {ns : List (MerkleNode β)} {nextId : UInt64}
    (h : t.splitStart blake3 batch = some (ns, nextId)) :
    ∃ first rest updated, batch = first :: rest ∧
      updateLeaves (t.assigned (batch.map BufferedVector.vector)
        first.vector.length).clusterAdditions t.leaves
        (t.assigned (batch.map BufferedVector.vector) first.vector.length).clusterSums =
        some updated ∧
      ns = grown blake3 (t.assigned (batch.map BufferedVector.vector) first.vector.length)
        updated := by
  cases batch with
  | nil => cases h
  | cons first rest =>
    obtain ⟨updated, hupdated, heq⟩ := Option.map_eq_some_iff.mp h
    cases heq
    exact ⟨first, rest, updated, rfl, hupdated, rfl⟩

theorem splitStart_isLeaf {t : MerkleTree β} {batch : List (BufferedVector β μ)}
    {ns : List (MerkleNode β)} {nextId : UInt64}
    (h : t.splitStart blake3 batch = some (ns, nextId)) : ∀ n ∈ ns, n.IsLeaf := by
  obtain ⟨first, rest, updated, rfl, hupdated, rfl⟩ := splitStart_eq_some h
  exact isLeaf_grown ((Assigned.ok_init t.nextClusterId).foldl _)
    (updateLeaves_isLeaf (fun n hn => isLeaf_of_mem_leaves hn) hupdated)

/-- How many of the vectors are of dimension `dim` and nearest to the leaf with that id. -/
def joins (leaves : List (MerkleNode β)) (dim : Nat) (vectors : List (List β)) (id : UInt64) :
    Nat :=
  vectors.countP fun v =>
    v.length = dim ∧ (findNearestInLeaves leaves v).map Prod.fst = some id

theorem joins_cons (leaves : List (MerkleNode β)) (dim : Nat) (v : List β)
    (vectors : List (List β)) (id : UInt64) :
    joins leaves dim (v :: vectors) id = joins leaves dim vectors id +
      if v.length = dim ∧ (findNearestInLeaves leaves v).map Prod.fst = some id then 1 else 0 := by
  simp only [joins, List.countP_cons, decide_eq_true_eq]

/-- What phase 1 counts for an id. -/
theorem lookup_additions (leaves : List (MerkleNode β)) (dim : Nat) (vectors : List (List β))
    (a : Assigned β) (id : UInt64) :
    ((vectors.foldl (assign leaves dim) a).clusterAdditions.lookup id).getD 0 =
      (a.clusterAdditions.lookup id).getD 0 + .ofNat (joins leaves dim vectors id) := by
  induction vectors generalizing a with
  | nil => simp [joins]
  | cons v vectors ih =>
    have hstep : ((assign leaves dim a v).clusterAdditions.lookup id).getD 0 =
        (a.clusterAdditions.lookup id).getD 0 + .ofNat
          (if v.length = dim ∧ (findNearestInLeaves leaves v).map Prod.fst = some id then 1
            else 0) := by
      unfold assign
      by_cases hdim : v.length = dim
      · cases hnear : findNearestInLeaves leaves v with
        | none => simp [hdim]
        | some p =>
          by_cases hid : p.1 = id
          · subst hid
            simp [hdim]
          · have hne : id ≠ p.1 := fun heq => hid heq.symm
            simp [hdim, hid, AList.lookup_insert_ne hne]
      · simp [hdim]
    rw [List.foldl_cons, ih, hstep, joins_cons, Nat.add_comm, UInt64.ofNat_add, UInt64.add_assoc]

/-- Phase 1 makes a leaf of a vector that is near to none. -/
theorem newLeaves_foldl (leaves : List (MerkleNode β)) (dim : Nat) (vectors : List (List β))
    (a : Assigned β) :
    ∃ new, (vectors.foldl (assign leaves dim) a).newLeaves = a.newLeaves ++ new ∧
      (∀ n ∈ new, n.size = 1) ∧
      (new = [] ↔ ∀ v ∈ vectors, v.length = dim → (findNearestInLeaves leaves v).isSome) := by
  induction vectors generalizing a with
  | nil => exact ⟨[], (List.append_nil _).symm, by simp, by simp⟩
  | cons v vectors ih =>
    obtain ⟨new, hnew, hsizes, hnil⟩ := ih (assign leaves dim a v)
    rw [List.foldl_cons, hnew]
    by_cases hfresh : v.length = dim ∧ findNearestInLeaves leaves v = none
    · refine ⟨.leaf v a.nextClusterId 1 (List.replicate 32 0) :: new, ?_, ?_, ?_⟩
      · simp [assign, hfresh.1, hfresh.2]
      · intro n hn
        rcases List.mem_cons.mp hn with rfl | hn
        · rfl
        · exact hsizes n hn
      · simp [hfresh.1, hfresh.2]
    · have hsame : (assign leaves dim a v).newLeaves = a.newLeaves := by
        unfold assign
        by_cases hdim : v.length = dim
        · cases hnear : findNearestInLeaves leaves v with
          | none => exact absurd ⟨hdim, hnear⟩ hfresh
          | some p => simp [hdim]
        · simp [hdim]
      have hv : v.length = dim → (findNearestInLeaves leaves v).isSome := by
        intro hdim
        rw [Option.isSome_iff_ne_none]
        exact fun hnear => hfresh ⟨hdim, hnear⟩
      refine ⟨new, by rw [hsame], hsizes, ?_⟩
      rw [hnil, List.forall_mem_cons]
      exact ⟨fun h => ⟨hv, h⟩, fun h => h.2⟩

theorem findNearestInLeaves_nil (vector : List β) : findNearestInLeaves [] vector = none := rfl

/-- The update adds to the counts what phase 1 counted. -/
theorem updateLeaves_count {additions : AList fun _ : UInt64 => UInt64}
    {ns out : List (MerkleNode β)} {sums : AList fun _ : UInt64 => List β}
    (hleaf : ∀ n ∈ ns, n.IsLeaf) (h : updateLeaves additions ns sums = some out) :
    out.map count = ns.map fun n => n.count + (n.clusterId.bind additions.lookup).getD 0 := by
  induction ns generalizing sums out with
  | nil =>
    cases h
    rfl
  | cons n rest ih =>
    obtain ⟨head, outRest, sums', rfl, hout, -, -, hcount⟩ :=
      updateLeaves_cons (hleaf n List.mem_cons_self) h
    rw [List.map_cons, List.map_cons, hcount,
      ih (fun m hm => hleaf m (List.mem_cons_of_mem n hm)) hout]

/-- How many vectors of a batch join a leaf. -/
def joinedBy (t : MerkleTree β) (batch : List (BufferedVector β μ)) (n : MerkleNode β) : Nat :=
  match batch, n.clusterId with
  | first :: _, some id =>
    joins t.leaves first.vector.length (batch.map BufferedVector.vector) id
  | _, _ => 0

/-- All leaves of a tree count to 0 with what joins them, modulo 2^64. -/
def Wraps (t : MerkleTree β) (batch : List (BufferedVector β μ)) : Prop :=
  t.leaves ≠ [] ∧ ∀ n ∈ t.leaves, n.count + .ofNat (t.joinedBy batch n) = 0

theorem added_eq_joinedBy {t : MerkleTree β} (first : BufferedVector β μ)
    (rest : List (BufferedVector β μ)) (n : MerkleNode β) :
    (n.clusterId.bind (t.assigned ((first :: rest).map BufferedVector.vector)
      first.vector.length).clusterAdditions.lookup).getD 0 =
      .ofNat (t.joinedBy (first :: rest) n) := by
  unfold joinedBy
  cases n.clusterId with
  | none => rfl
  | some id =>
    have hlookup := lookup_additions t.leaves first.vector.length
      ((first :: rest).map BufferedVector.vector) ⟨[], ∅, ∅, t.nextClusterId⟩ id
    exact hlookup.trans (UInt64.zero_add _)

/-- The updated leaves are empty only if all the counts wrap. -/
theorem updated_empty_iff {t : MerkleTree β} {first : BufferedVector β μ}
    {rest : List (BufferedVector β μ)} {updated : List (MerkleNode β)}
    (h : updateLeaves (t.assigned ((first :: rest).map BufferedVector.vector)
      first.vector.length).clusterAdditions t.leaves
      (t.assigned ((first :: rest).map BufferedVector.vector) first.vector.length).clusterSums =
      some updated) :
    (∀ n ∈ updated, n.size = 0) ↔
      ∀ n ∈ t.leaves, n.count + .ofNat (t.joinedBy (first :: rest) n) = 0 := by
  have hcounts := updateLeaves_count (fun n hn => isLeaf_of_mem_leaves hn) h
  have hzero : (∀ n ∈ updated, n.size = 0) ↔ ∀ c ∈ updated.map count, c = 0 := by
    rw [List.forall_mem_map]
    exact forall₂_congr fun n _ => UInt64.toNat_inj (b := 0)
  rw [hzero, hcounts, List.forall_mem_map]
  exact forall₂_congr fun n _ => by rw [added_eq_joinedBy first rest n]

/-- The loop starts with empty leaves only if all the counts wrap. -/
theorem splitStart_empty_iff {t : MerkleTree β} {batch : List (BufferedVector β μ)}
    {ns : List (MerkleNode β)} {nextId : UInt64}
    (h : t.splitStart blake3 batch = some (ns, nextId)) :
    (∀ n ∈ ns, n.size = 0) ↔ t.Wraps batch := by
  obtain ⟨first, rest, updated, rfl, hupdated, rfl⟩ := splitStart_eq_some h
  obtain ⟨new, hnew, hsizes, hnil⟩ := newLeaves_foldl t.leaves first.vector.length
    ((first :: rest).map BufferedVector.vector) ⟨[], ∅, ∅, t.nextClusterId⟩
  have hgrown : (∀ n ∈ grown blake3 (t.assigned ((first :: rest).map BufferedVector.vector)
      first.vector.length) updated, n.size = 0) ↔
      (∀ n ∈ updated, n.size = 0) ∧ ∀ n ∈ new, n.size = 0 := by
    rw [grown, assigned, hnew, List.forall_mem_map, List.nil_append, List.forall_mem_append]
    simp only [size_recomputeHash]
  have hnew' : (∀ n ∈ new, n.size = 0) ↔ t.leaves ≠ [] := by
    constructor
    · intro hempty hleaves
      have hnone : new = [] := by
        refine List.eq_nil_iff_forall_not_mem.mpr fun n hn => ?_
        have hone := hsizes n hn
        have hzero := hempty n hn
        omega
      have hfirst := hnil.mp hnone first.vector (by simp) rfl
      rw [hleaves, findNearestInLeaves_nil] at hfirst
      cases hfirst
    · intro hleaves
      have hnone : new = [] := by
        refine hnil.mpr fun v _ _ => ?_
        obtain ⟨p, hp, -⟩ :=
          findNearestInLeaves_mem hleaves (fun n hn => isLeaf_of_mem_leaves hn) v
        rw [hp]
        rfl
      rw [hnone]
      intro n hn
      cases hn
  rw [hgrown, updated_empty_iff hupdated, hnew']
  exact and_comm

/-- The loop of a batch ends unless the limit is 0; then it ends only if every count wraps
to 0. -/
theorem insertBatch_ends_iff {t : MerkleTree β} {batch : List (BufferedVector β μ)}
    {ns : List (MerkleNode β)} {nextId : UInt64}
    (h : t.splitStart blake3 batch = some (ns, nextId)) :
    SplitEnds blake3 t.maxClusterSize ns nextId ↔ 1 ≤ t.maxClusterSize ∨ t.Wraps batch := by
  rw [← splitStart_empty_iff h]
  exact splitEnds_iff (splitStart_isLeaf h)

/-- Leaves with vectors wrap only behind 2^64 vectors. -/
theorem Wraps.many {t : MerkleTree β} {batch : List (BufferedVector β μ)} (h : t.Wraps batch)
    {n : MerkleNode β} (hn : n ∈ t.leaves) (hpos : 1 ≤ n.size) :
    2 ^ 64 ≤ n.size + batch.length := by
  have hjoined : t.joinedBy batch n ≤ batch.length := by
    unfold joinedBy
    split
    · exact List.countP_le_length.trans (List.length_map _).le
    · exact Nat.zero_le _
  have hzero := congrArg UInt64.toNat (h.2 n hn)
  rw [UInt64.toNat_add, UInt64.toNat_ofNat', Nat.add_mod_mod] at hzero
  have hsize : n.size = n.count.toNat := rfl
  change (n.count.toNat + t.joinedBy batch n) % 2 ^ 64 = 0 at hzero
  omega

/-- What the loop starts with when a vector is put into `two`. -/
def startThree : List (MerkleNode Lit) × UInt64 :=
  (two.splitStart blockSum (vectors [1])).get (by decide +kernel)

theorem startThree_ends : SplitEnds blockSum 1 startThree.1 startThree.2 := by
  have hstart : two.splitStart blockSum (vectors [1]) = some startThree := by
    rw [startThree, Option.some_get]
  exact (insertBatch_ends_iff hstart).mpr (.inl (by decide +kernel))

/-- What it starts with when the limit is 0 and there is one vector. -/
def startZero : List (MerkleNode Lit) × UInt64 :=
  ((new 0).splitStart blockSum (vectors [1])).get (by decide +kernel)

theorem startZero_never_ends :
    (new 0).splitStart blockSum (vectors [1]) = some startZero ∧
      ¬ SplitEnds blockSum 0 startZero.1 startZero.2 := by
  have hstart : (new 0).splitStart blockSum (vectors [1]) = some startZero := by
    rw [startZero, Option.some_get]
  refine ⟨hstart, fun hends => ?_⟩
  have hsizes : ¬ ∀ n ∈ startZero.1, n.size = 0 := by decide +kernel
  rcases (splitEnds_iff (splitStart_isLeaf hstart)).mp hends with hmax | hempty
  · exact absurd hmax (by decide)
  · exact hsizes hempty

end Tesseract.L3.MerkleTree
