import Tesseract.Core.LTS
import Tesseract.L3Index.MerkleAssign
import Tesseract.L3Index.MerkleBuild

/-!
# The tree after any batches

`insert_batch` takes the tree apart into its leaves, adds the vectors to them, splits and
rebuilds. Each clause of the invariant needs others at the start of the batch: the `unwrap`
and the counts that the ids are different, the ids that the next one is above them.

* `insertBatch_isSome`: no `unwrap` fails and the loop ends.
* `WellFormed.insertBatch`: one batch keeps the invariant.
* `wellFormed_of_reachable`: so any run does.
-/
namespace Tesseract.L3.MerkleTree

open Endian MerkleNode

variable {β μ : Type} [F32 β] {blake3 : Bytes → Bytes}

/-- The ids of the leaves, from left to right. -/
def clusterIds (t : MerkleTree β) : List UInt64 := t.leaves.filterMap MerkleNode.clusterId

/-- Of a tree that `inserted` vectors were put into. -/
structure WellFormed (blake3 : Bytes → Bytes) (t : MerkleTree β) (inserted : Nat) : Prop where
  next : 1 ≤ t.nextClusterId
  increasing : t.clusterIds.Pairwise (· < ·)
  ids : ∀ id ∈ t.clusterIds, 1 ≤ id ∧ id < t.nextClusterId
  counts : ∀ leaf ∈ t.leaves, 1 ≤ leaf.count ∧ leaf.count ≤ t.maxClusterSize
  summed : ∀ root, t.root = some root → root.Summed
  hashed : ∀ root, t.root = some root → root.Hashed blake3
  inserted : ((t.root.map MerkleNode.count).getD 0).toNat = inserted

/-! ## The leaves of a tree -/

omit [F32 β] in
theorem isLeaf_of_mem_leaves {t : MerkleTree β} {n : MerkleNode β} (h : n ∈ t.leaves) :
    n.IsLeaf := by
  unfold leaves at h
  cases hroot : t.root with
  | none =>
    rw [hroot] at h
    cases h
  | some root =>
    rw [hroot] at h
    exact isLeaf_of_mem_collectLeaves h

omit [F32 β] in
theorem map_toNat_clusterIds {ns : List (MerkleNode β)} (h : ∀ n ∈ ns, n.IsLeaf) :
    (ns.filterMap MerkleNode.clusterId).map UInt64.toNat = ns.map key := by
  induction ns with
  | nil => rfl
  | cons n ns ih =>
    have hns := ih fun m hm => h m (List.mem_cons_of_mem n hm)
    cases n with
    | internal hash left right centroid count => cases h _ List.mem_cons_self
    | leaf centroid clusterId count hash =>
      simp only [List.filterMap_cons, MerkleNode.clusterId, List.map_cons, hns, key,
        Option.getD_some]

namespace WellFormed

variable {t : MerkleTree β} {inserted : Nat}

theorem keys_increasing (h : t.WellFormed blake3 inserted) :
    (t.leaves.map key).Pairwise (· < ·) := by
  rw [← map_toNat_clusterIds fun n hn => isLeaf_of_mem_leaves hn, List.pairwise_map]
  exact h.increasing.imp UInt64.lt_iff_toNat_lt.mp

theorem clusters (h : t.WellFormed blake3 inserted) :
    Clusters blake3 t.nextClusterId.toNat t.leaves := by
  refine ⟨?_, h.keys_increasing.imp ne_of_lt⟩
  intro n hn
  have hleaf := isLeaf_of_mem_leaves hn
  have hkey : n.key ∈ t.clusterIds.map UInt64.toNat := by
    rw [clusterIds, map_toNat_clusterIds fun m hm => isLeaf_of_mem_leaves hm]
    exact List.mem_map_of_mem hn
  obtain ⟨id, hid, heq⟩ := List.mem_map.mp hkey
  obtain ⟨hone, hlt⟩ := h.ids id hid
  refine ⟨hleaf, ?_, UInt64.le_iff_toNat_le.mp (h.counts n hn).1, ?_, ?_⟩
  · unfold leaves at hn
    cases hroot : t.root with
    | none =>
      rw [hroot] at hn
      cases hn
    | some root =>
      rw [hroot] at hn
      exact hashed_of_mem_collectLeaves (h.hashed root hroot) hn
  · rw [← heq]
    exact UInt64.le_iff_toNat_le.mp hone
  · rw [← heq]
    exact UInt64.lt_iff_toNat_lt.mp hlt

theorem totalSize_leaves (h : t.WellFormed blake3 inserted) : totalSize t.leaves = inserted := by
  rw [← h.inserted, leaves]
  cases hroot : t.root with
  | none => rfl
  | some root => exact (h.summed root hroot).size_eq.symm

/-- A new tree. -/
theorem new (maxClusterSize : UInt64) :
    (MerkleTree.new (β := β) maxClusterSize).WellFormed blake3 0 where
  next := UInt64.le_refl 1
  increasing := List.Pairwise.nil
  ids id h := by cases h
  counts leaf h := by cases h
  summed root h := by cases h
  hashed root h := by cases h
  inserted := rfl

/-- A tree rebuilt from clusters within the limit. -/
theorem of_clusters {ns : List (MerkleNode β)} {maxClusterSize nextId : UInt64} (hne : ns ≠ [])
    (hnext : 1 ≤ nextId.toNat) (h : Clusters blake3 nextId.toNat ns)
    (htotal : totalSize ns < 2 ^ 64)
    (hsizes : ∀ n ∈ ns, n.size ≤ maxClusterSize.toNat) :
    WellFormed blake3 (⟨buildTree blake3 ns, nextId, maxClusterSize⟩ : MerkleTree β)
      (totalSize ns) := by
  obtain ⟨root, hroot, hhashed, hsummed, hperm, hsorted⟩ := buildTree_spec hne h htotal
  rw [hroot]
  have hleaf : ∀ n ∈ root.collectLeaves, n.IsLeaf := fun n hn => isLeaf_of_mem_collectLeaves hn
  have hkeys := map_toNat_clusterIds hleaf
  refine ⟨UInt64.le_iff_toNat_le.mpr hnext, ?_, ?_, ?_, ?_, ?_, ?_⟩
  · have hids : ((root.collectLeaves.filterMap MerkleNode.clusterId).map UInt64.toNat).Pairwise
        (· < ·) := by
      rw [hkeys]
      exact List.pairwise_map.mpr hsorted
    exact (List.pairwise_map.mp hids).imp UInt64.lt_iff_toNat_lt.mpr
  · intro id hid
    have hkey : id.toNat ∈ root.collectLeaves.map key := by
      rw [← hkeys]
      exact List.mem_map_of_mem hid
    obtain ⟨n, hn, heq⟩ := List.mem_map.mp hkey
    have hn := h.cluster n (hperm.mem_iff.mp hn)
    rw [UInt64.le_iff_toNat_le, UInt64.lt_iff_toNat_lt, ← heq]
    exact ⟨hn.one_le, hn.lt⟩
  · intro leaf hleaf
    have hmem : leaf ∈ ns := hperm.mem_iff.mp hleaf
    rw [UInt64.le_iff_toNat_le, UInt64.le_iff_toNat_le]
    exact ⟨(h.cluster leaf hmem).pos, hsizes leaf hmem⟩
  · intro root' heq
    obtain rfl := Option.some.inj heq
    exact hsummed
  · intro root' heq
    obtain rfl := Option.some.inj heq
    exact hhashed
  · show root.size = totalSize ns
    rw [hsummed.size_eq]
    exact (hperm.map size).sum_nat

end WellFormed

/-! ## One batch -/

/-- The accumulators behind phase 1. -/
def assigned (t : MerkleTree β) (vectors : List (List β)) (dim : Nat) : Assigned β :=
  vectors.foldl (assign t.leaves dim) ⟨[], ∅, ∅, t.nextClusterId⟩

/-- The leaves behind phase 3. -/
def grown (blake3 : Bytes → Bytes) (a : Assigned β) (updated : List (MerkleNode β)) :
    List (MerkleNode β) :=
  (updated ++ a.newLeaves).map (recomputeHash blake3)

theorem insertBatch_cons (t : MerkleTree β) (first : BufferedVector β μ)
    (rest : List (BufferedVector β μ)) :
    t.insertBatch blake3 (first :: rest) =
      (let a := t.assigned ((first :: rest).map BufferedVector.vector) first.vector.length
      (updateLeaves a.clusterAdditions t.leaves a.clusterSums).bind fun updated =>
        (splitLoop blake3 t.maxClusterSize 65 (grown blake3 a updated) a.nextClusterId).bind
          fun p => some { t with root := buildTree blake3 p.1, nextClusterId := p.2 }) := rfl

theorem isLeaf_grown {a : Assigned β} {updated : List (MerkleNode β)} (ha : a.Ok)
    (hupdated : ∀ n ∈ updated, n.IsLeaf) : ∀ n ∈ grown blake3 a updated, n.IsLeaf := by
  intro n hn
  obtain ⟨m, hm, rfl⟩ := List.mem_map.mp hn
  rw [isLeaf_recomputeHash]
  rcases List.mem_append.mp hm with hm | hm
  · exact hupdated m hm
  · exact ha.newLeaves m hm

/-- No `unwrap` fails, and the split loop ends: 65 rounds are enough for counts below 2^64. -/
theorem insertBatch_isSome {t : MerkleTree β} {inserted : Nat} (hmax : 1 ≤ t.maxClusterSize)
    (h : t.WellFormed blake3 inserted) (batch : List (BufferedVector β μ)) :
    (t.insertBatch blake3 batch).isSome := by
  cases batch with
  | nil => rfl
  | cons first rest =>
    rw [insertBatch_cons]
    have hok : (t.assigned ((first :: rest).map BufferedVector.vector) first.vector.length).Ok :=
      (Assigned.ok_init t.nextClusterId).foldl _
    obtain ⟨updated, hupdated⟩ := Option.isSome_iff_exists.mp
      (updateLeaves_isSome h.clusters.nodup fun n _ id _ => hok.sums id)
    have hleaf : ∀ n ∈ grown blake3
        (t.assigned ((first :: rest).map BufferedVector.vector) first.vector.length) updated,
        n.IsLeaf :=
      isLeaf_grown hok (updateLeaves_isLeaf (fun n hn => isLeaf_of_mem_leaves hn) hupdated)
    obtain ⟨p, hp⟩ := Option.isSome_iff_exists.mp
      (splitLoop_isSome blake3 64 (t.assigned ((first :: rest).map BufferedVector.vector)
        first.vector.length).nextClusterId (UInt64.le_iff_toNat_le.mp hmax) hleaf
        fun n _ => .inr n.count.toNat_lt.le)
    simp only [hupdated, Option.bind_some, hp, Option.isSome_some]

/-- How many new clusters phase 1 makes. -/
def fresh (t : MerkleTree β) (vectors : Nat) : Nat := if t.leaves.isEmpty then vectors else 0

/-- The cluster ids that a batch takes: one for each new cluster, and two for each split,
which makes one leaf two. -/
def idsTaken (t t' : MerkleTree β) (vectors : Nat) : Nat :=
  t.fresh vectors + 2 * (t'.leaves.length - (t.leaves.length + t.fresh vectors))

/-- The leaves `ns` behind phase 3: every vector of the batch is counted in a cluster. -/
structure Grown (blake3 : Bytes → Bytes) (t : MerkleTree β) (inserted vectors : Nat)
    (ns : List (MerkleNode β)) (nextId : UInt64) : Prop where
  next : nextId.toNat = t.nextClusterId.toNat + t.fresh vectors
  clusters : Clusters blake3 nextId.toNat ns
  total : totalSize ns = inserted + vectors
  length : ns.length = t.leaves.length + t.fresh vectors

/-- In an empty tree each vector starts a cluster. -/
theorem WellFormed.grown_empty {t : MerkleTree β} {inserted dim : Nat} {vectors : List (List β)}
    {updated : List (MerkleNode β)} (h : t.WellFormed blake3 inserted) (hempty : t.leaves = [])
    (hdim : ∀ v ∈ vectors, v.length = dim)
    (hids : t.nextClusterId.toNat + t.fresh vectors.length < 2 ^ 64)
    (hupdated : updateLeaves (t.assigned vectors dim).clusterAdditions t.leaves
      (t.assigned vectors dim).clusterSums = some updated) :
    Grown blake3 t inserted vectors.length
      (MerkleTree.grown blake3 (t.assigned vectors dim) updated)
      (t.assigned vectors dim).nextClusterId := by
  have hfresh : t.fresh vectors.length = vectors.length := by simp [fresh, hempty]
  rw [hfresh] at hids
  have ha : t.assigned vectors dim =
      ⟨freshLeaves vectors t.nextClusterId, ∅, ∅, t.nextClusterId + .ofNat vectors.length⟩ := by
    rw [assigned, hempty, foldl_assign_nil _ hdim]
    rfl
  rw [ha, hempty] at hupdated
  cases hupdated
  obtain ⟨hclusters, -, hsum, hlen⟩ :=
    freshLeaves_clusters blake3 t.nextClusterId (UInt64.le_iff_toNat_le.mp h.next) hids
  have hnext : (t.nextClusterId + .ofNat vectors.length).toNat =
      t.nextClusterId.toNat + vectors.length := by
    rw [UInt64.toNat_add, UInt64.toNat_ofNat']
    omega
  have htotal := h.totalSize_leaves
  rw [hempty, totalSize_nil] at htotal
  rw [ha, MerkleTree.grown, List.nil_append]
  exact {
    next := by rw [hfresh, hnext]
    clusters := by rw [hnext]; exact hclusters
    total := by rw [hsum, ← htotal, Nat.zero_add]
    length := by rw [List.length_map, hlen, hempty, hfresh, List.length_nil, Nat.zero_add] }

/-- In a tree with leaves each vector joins one of them. -/
theorem WellFormed.grown_leaves {t : MerkleTree β} {inserted dim : Nat} {vectors : List (List β)}
    {updated : List (MerkleNode β)} (h : t.WellFormed blake3 inserted) (hne : t.leaves ≠ [])
    (hdim : ∀ v ∈ vectors, v.length = dim) (hcount : inserted + vectors.length < 2 ^ 64)
    (hupdated : updateLeaves (t.assigned vectors dim).clusterAdditions t.leaves
      (t.assigned vectors dim).clusterSums = some updated) :
    Grown blake3 t inserted vectors.length
      (MerkleTree.grown blake3 (t.assigned vectors dim) updated)
      (t.assigned vectors dim).nextClusterId := by
  have hfresh : t.fresh vectors.length = 0 := by simp [fresh, hne]
  have hleaf : ∀ n ∈ t.leaves, n.IsLeaf := fun n hn => isLeaf_of_mem_leaves hn
  have htotal := h.totalSize_leaves
  obtain ⟨hnew, hid, hadded⟩ := foldl_assign (a := ⟨[], ∅, ∅, t.nextClusterId⟩) hne hleaf
    h.clusters.nodup hdim (by rw [sum_addedTo_empty]; omega)
  rw [sum_addedTo_empty, Nat.zero_add] at hadded
  obtain ⟨hkeys, hsum, hsizes⟩ := updateLeaves_spec hleaf
    (fun n hn => (h.clusters.cluster n hn).pos) (by rw [assigned, hadded]; omega) hupdated
  have hlen := congrArg List.length hkeys
  rw [List.length_map, List.length_map] at hlen
  have hgrown : MerkleTree.grown blake3 (t.assigned vectors dim) updated =
      updated.map (recomputeHash blake3) := by
    rw [MerkleTree.grown, assigned, hnew, List.append_nil]
  have hnext : (t.assigned vectors dim).nextClusterId = t.nextClusterId := hid
  rw [hgrown, hnext]
  exact {
    next := by rw [hfresh, Nat.add_zero]
    clusters := h.clusters.rehashed (updateLeaves_isLeaf hleaf hupdated) hsizes hkeys
    total := by rw [totalSize_map_recomputeHash, hsum, assigned, hadded, htotal]
    length := by rw [List.length_map, hlen, hfresh, Nat.add_zero] }

theorem WellFormed.grown {t : MerkleTree β} {inserted dim : Nat} {vectors : List (List β)}
    {updated : List (MerkleNode β)} (h : t.WellFormed blake3 inserted)
    (hdim : ∀ v ∈ vectors, v.length = dim) (hcount : inserted + vectors.length < 2 ^ 64)
    (hids : t.nextClusterId.toNat + t.fresh vectors.length < 2 ^ 64)
    (hupdated : updateLeaves (t.assigned vectors dim).clusterAdditions t.leaves
      (t.assigned vectors dim).clusterSums = some updated) :
    Grown blake3 t inserted vectors.length
      (MerkleTree.grown blake3 (t.assigned vectors dim) updated)
      (t.assigned vectors dim).nextClusterId := by
  by_cases hempty : t.leaves = []
  · exact h.grown_empty hempty hdim hids hupdated
  · exact h.grown_leaves hempty hdim hcount hupdated

/-- The leaves of a batch: `ns` before the split loop, `out` behind it. -/
structure Rebuilt (blake3 : Bytes → Bytes) (t t' : MerkleTree β) (inserted vectors : Nat)
    (ns out : List (MerkleNode β)) (nextId : UInt64) : Prop
    extends Grown blake3 t inserted vectors ns nextId where
  loop : splitLoop blake3 t.maxClusterSize 65 ns nextId = some (out, t'.nextClusterId)
  tree : t' = ⟨buildTree blake3 out, t'.nextClusterId, t.maxClusterSize⟩
  nonempty : out ≠ []
  leaves : t'.leaves.length = out.length

theorem WellFormed.rebuilt {t t' : MerkleTree β} {inserted dim : Nat}
    {batch : List (BufferedVector β μ)} (h : t.WellFormed blake3 inserted) (hne : batch ≠ [])
    (hdim : ∀ bv ∈ batch, bv.vector.length = dim) (hcount : inserted + batch.length < 2 ^ 64)
    (hids : t.nextClusterId.toNat + t.fresh batch.length < 2 ^ 64)
    (hrun : t.insertBatch blake3 batch = some t') :
    ∃ ns out nextId, Rebuilt blake3 t t' inserted batch.length ns out nextId := by
  cases batch with
  | nil => exact (hne rfl).elim
  | cons first rest =>
    rw [insertBatch_cons] at hrun
    simp only [Option.bind_eq_some_iff, Option.some.injEq] at hrun
    obtain ⟨updated, hupdated, ⟨out, nextId⟩, hloop, rfl⟩ := hrun
    have hvectors : ∀ v ∈ (first :: rest).map BufferedVector.vector,
        v.length = first.vector.length := by
      intro v hv
      obtain ⟨bv, hbv, rfl⟩ := List.mem_map.mp hv
      rw [hdim bv hbv, hdim first List.mem_cons_self]
    have hlength : ((first :: rest).map BufferedVector.vector).length = (first :: rest).length :=
      List.length_map _
    have hgrown := h.grown hvectors (by omega) (by rw [hlength]; exact hids) hupdated
    rw [hlength] at hgrown
    obtain ⟨hle, hleaf⟩ :=
      splitLoop_leaves (fun n hn => (hgrown.clusters.cluster n hn).isLeaf) hloop
    have hout : out ≠ [] := by
      rintro rfl
      have htotal := hgrown.total
      rw [List.length_nil, Nat.le_zero, List.length_eq_zero_iff] at hle
      rw [hle, totalSize_nil, List.length_cons] at htotal
      omega
    obtain ⟨root, hroot, hleaves⟩ := buildTree_leaves blake3 hout hleaf
    refine ⟨_, out, _, hgrown, hloop, rfl, hout, ?_⟩
    rw [MerkleTree.leaves, hroot, Option.map_some, Option.getD_some, hleaves,
      List.length_insertionSort]

/-- One batch of vectors of one length, if no counter overflows. -/
theorem WellFormed.insertBatch {t t' : MerkleTree β} {inserted dim : Nat}
    {batch : List (BufferedVector β μ)} (hmax : 1 ≤ t.maxClusterSize)
    (h : t.WellFormed blake3 inserted) (hdim : ∀ bv ∈ batch, bv.vector.length = dim)
    (hcount : inserted + batch.length < 2 ^ 64)
    (hids : t.nextClusterId.toNat + t.idsTaken t' batch.length < 2 ^ 64)
    (hrun : t.insertBatch blake3 batch = some t') :
    t'.WellFormed blake3 (inserted + batch.length) ∧ t'.maxClusterSize = t.maxClusterSize ∧
      (batch ≠ [] →
        t'.nextClusterId.toNat = t.nextClusterId.toNat + t.idsTaken t' batch.length) := by
  by_cases hne : batch = []
  · subst hne
    cases hrun
    exact ⟨h, rfl, fun hne => (hne rfl).elim⟩
  · unfold idsTaken at hids ⊢
    obtain ⟨ns, out, nextId, hb⟩ := h.rebuilt hne hdim hcount (by omega) hrun
    have hone : 1 ≤ t.nextClusterId.toNat := UInt64.le_iff_toNat_le.mp h.next
    have hstart := hb.next
    have hlength := hb.length
    rw [hb.leaves] at hids ⊢
    have hpos := UInt64.le_iff_toNat_le.mp hmax
    obtain ⟨hnext, hout, hsizes⟩ := splitLoop_spec hpos (by omega) hb.clusters hb.loop (by omega)
    obtain ⟨hsum, -⟩ := splitLoop_totalSize hpos (fun n hn => (hb.clusters.cluster n hn).isLeaf)
      (fun n hn => (hb.clusters.cluster n hn).pos) hb.loop
    have htotal := hb.total
    have hwf : WellFormed blake3
        (⟨buildTree blake3 out, t'.nextClusterId, t.maxClusterSize⟩ : MerkleTree β)
        (totalSize out) :=
      .of_clusters hb.nonempty (by omega) hout (by omega) hsizes
    rw [hsum, htotal, ← hb.tree] at hwf
    exact ⟨hwf, by rw [hb.tree], fun _ => by omega⟩

/-- At most two ids for each leaf were taken. -/
def Sparse (t : MerkleTree β) : Prop := t.nextClusterId.toNat ≤ 1 + 2 * t.leaves.length

/-- No leaf is empty, so that below 2^63 vectors there are ids enough. -/
theorem WellFormed.idsTaken_lt {t t' : MerkleTree β} {inserted dim : Nat}
    {batch : List (BufferedVector β μ)} (hmax : 1 ≤ t.maxClusterSize)
    (h : t.WellFormed blake3 inserted) (hsparse : t.Sparse)
    (hdim : ∀ bv ∈ batch, bv.vector.length = dim) (hne : batch ≠ [])
    (hcount : inserted + batch.length < 2 ^ 63) (hrun : t.insertBatch blake3 batch = some t') :
    t.nextClusterId.toNat + t.idsTaken t' batch.length ≤ 1 + 2 * t'.leaves.length ∧
      t'.leaves.length < 2 ^ 63 := by
  unfold Sparse at hsparse
  have hfresh : t.fresh batch.length = batch.length ∧ t.leaves.length = 0 ∨
      t.fresh batch.length = 0 := by
    unfold fresh
    cases hleaves : t.leaves with
    | nil => exact .inl ⟨rfl, rfl⟩
    | cons n ns => exact .inr rfl
  have hlen : t.leaves.length ≤ inserted := by
    rw [← h.totalSize_leaves]
    exact length_le_totalSize fun n hn => (h.clusters.cluster n hn).pos
  obtain ⟨ns, out, nextId, hb⟩ := h.rebuilt hne hdim (by omega) (by omega) hrun
  obtain ⟨hsum, hpos⟩ := splitLoop_totalSize (UInt64.le_iff_toNat_le.mp hmax)
    (fun n hn => (hb.clusters.cluster n hn).isLeaf)
    (fun n hn => (hb.clusters.cluster n hn).pos) hb.loop
  obtain ⟨hle, -⟩ := splitLoop_leaves (fun n hn => (hb.clusters.cluster n hn).isLeaf) hb.loop
  have hbound := length_le_totalSize hpos
  have htotal := hb.total
  have hlength := hb.length
  unfold idsTaken
  rw [hb.leaves]
  omega

/-- One batch of vectors of one length, below 2^63 vectors. -/
theorem WellFormed.insertBatch_sparse {t t' : MerkleTree β} {inserted dim : Nat}
    {batch : List (BufferedVector β μ)} (hmax : 1 ≤ t.maxClusterSize)
    (h : t.WellFormed blake3 inserted) (hsparse : t.Sparse)
    (hdim : ∀ bv ∈ batch, bv.vector.length = dim) (hcount : inserted + batch.length < 2 ^ 63)
    (hrun : t.insertBatch blake3 batch = some t') :
    t'.WellFormed blake3 (inserted + batch.length) ∧ t'.Sparse ∧
      t'.maxClusterSize = t.maxClusterSize := by
  by_cases hne : batch = []
  · subst hne
    cases hrun
    exact ⟨h, hsparse, rfl⟩
  · obtain ⟨hids, hleaves⟩ := h.idsTaken_lt hmax hsparse hdim hne hcount hrun
    obtain ⟨hwf, hsame, hnext⟩ := h.insertBatch hmax hdim (by omega) (by omega) hrun
    refine ⟨hwf, ?_, hsame⟩
    unfold Sparse
    rw [hnext hne]
    exact hids

/-! ## Runs -/

/-- A tree, and how many vectors were put into it. -/
structure Merges (β : Type) where
  tree : MerkleTree β
  inserted : Nat

/-- Batches of vectors of dimension `dim`. The count and the next id of a batch are below
2^64. -/
def system (blake3 : Bytes → Bytes) (maxClusterSize : UInt64) (dim : Nat) :
    LTS (Merges β) (List (BufferedVector β μ)) where
  init s := s = ⟨new maxClusterSize, 0⟩
  step s batch s' :=
    (∀ bv ∈ batch, bv.vector.length = dim) ∧
      s.tree.insertBatch blake3 batch = some s'.tree ∧
      s'.inserted = s.inserted + batch.length ∧ s'.inserted < 2 ^ 64 ∧
      s.tree.nextClusterId.toNat + s.tree.idsTaken s'.tree batch.length < 2 ^ 64

theorem system_inductive {maxClusterSize : UInt64} (hmax : 1 ≤ maxClusterSize) (dim : Nat) :
    (system (μ := μ) blake3 maxClusterSize dim).Inductive fun s : Merges β =>
      s.tree.WellFormed blake3 s.inserted ∧ s.tree.maxClusterSize = maxClusterSize where
  init s h := by
    rw [show s = ⟨MerkleTree.new maxClusterSize, 0⟩ from h]
    exact ⟨WellFormed.new maxClusterSize, rfl⟩
  step s batch s' h hst := by
    obtain ⟨hdim, hrun, hinserted, hcount, hids⟩ := hst
    obtain ⟨hwf, hsame, -⟩ := h.1.insertBatch (by rw [h.2]; exact hmax) hdim
      (by rw [← hinserted]; exact hcount) hids hrun
    rw [hinserted]
    exact ⟨hwf, hsame.trans h.2⟩

/-- After any batches the tree is well formed, and takes any further one. -/
theorem wellFormed_of_reachable {maxClusterSize : UInt64} {dim : Nat} {s : Merges β}
    (hmax : 1 ≤ maxClusterSize)
    (h : (system (μ := μ) blake3 maxClusterSize dim).Reachable s) :
    s.tree.WellFormed blake3 s.inserted ∧
      ∀ batch : List (BufferedVector β μ), (s.tree.insertBatch blake3 batch).isSome := by
  obtain ⟨hwf, hsame⟩ := (system_inductive hmax dim).reachable s h
  exact ⟨hwf, insertBatch_isSome (by rw [hsame]; exact hmax) hwf⟩

/-! ## Two batches -/

def vectors (xs : List Int) : List (BufferedVector Lit Unit) :=
  xs.map fun x => ⟨0, [.fin x, .fin 1], ()⟩

/-- Two vectors make two clusters of one. -/
def two : MerkleTree Lit := ((new 1).insertBatch blockSum (vectors [0, 9])).get (by decide +kernel)

/-- A third overfills one of them. -/
def three : MerkleTree Lit := (two.insertBatch blockSum (vectors [1])).get (by decide +kernel)

example : three.clusterIds = [2, 3, 4] ∧ three.nextClusterId = 5 := by decide +kernel

theorem insertBatch_two : (new 1).insertBatch blockSum (vectors [0, 9]) = some two := by
  rw [two, Option.some_get]

theorem insertBatch_three : two.insertBatch blockSum (vectors [1]) = some three := by
  rw [three, Option.some_get]

theorem reachable_three : (system (μ := Unit) blockSum 1 2).Reachable ⟨three, 3⟩ := by
  have hdim : ∀ xs : List Int, ∀ bv ∈ vectors xs, bv.vector.length = 2 := by
    intro xs bv hbv
    obtain ⟨x, -, rfl⟩ := List.mem_map.mp hbv
    rfl
  have hfirst : (system (μ := Unit) blockSum 1 2).step ⟨new 1, 0⟩ (vectors [0, 9]) ⟨two, 2⟩ :=
    ⟨hdim _, insertBatch_two, rfl, by decide, by decide +kernel⟩
  have hsecond : (system (μ := Unit) blockSum 1 2).step ⟨two, 2⟩ (vectors [1]) ⟨three, 3⟩ :=
    ⟨hdim _, insertBatch_three, rfl, by decide, by decide +kernel⟩
  exact ⟨_, _, rfl, .cons hfirst (.cons hsecond (.nil _))⟩

theorem wellFormed_three : three.WellFormed blockSum 3 ∧
    ∀ batch : List (BufferedVector Lit Unit), (three.insertBatch blockSum batch).isSome :=
  wellFormed_of_reachable (s := ⟨three, 3⟩) (UInt64.le_refl 1) reachable_three

end Tesseract.L3.MerkleTree
