import Tesseract.L3Index.MerkleSplit

/-!
# Building the tree

`build_tree` sorts the leaves by id and pairs neighbours, level by level.

* `buildTree_leaves`: the leaves stay, in the order of their ids.
* `buildTree_spec`: over clusters the tree is hashed, and every count the sum of its
  children's.
-/
namespace Tesseract.L3

open Endian

variable {β : Type} [F32 β]

namespace MerkleNode

/-- Every internal count is the sum of its children's. -/
def Summed : MerkleNode β → Prop
  | .leaf _ _ _ _ => True
  | .internal _ left right _ count =>
    count.toNat = left.size + right.size ∧ left.Summed ∧ right.Summed

variable {blake3 : Bytes → Bytes}

omit [F32 β] in
theorem collectLeaves_of_isLeaf {n : MerkleNode β} (h : n.IsLeaf) : n.collectLeaves = [n] := by
  cases n with
  | leaf centroid clusterId count hash => rfl
  | internal hash left right centroid count => cases h

omit [F32 β] in
theorem flatMap_collectLeaves {ns : List (MerkleNode β)} (h : ∀ n ∈ ns, n.IsLeaf) :
    ns.flatMap collectLeaves = ns := by
  induction ns with
  | nil => rfl
  | cons n ns ih =>
    rw [List.flatMap_cons, collectLeaves_of_isLeaf (h n List.mem_cons_self),
      ih fun m hm => h m (List.mem_cons_of_mem n hm)]
    rfl

omit [F32 β] in
theorem isLeaf_of_mem_collectLeaves {n leaf : MerkleNode β} (h : leaf ∈ n.collectLeaves) :
    leaf.IsLeaf := by
  induction n with
  | leaf centroid clusterId count hash =>
    rw [List.mem_singleton.mp h]
    trivial
  | internal hash left right centroid count ihl ihr =>
    rcases List.mem_append.mp h with h | h
    · exact ihl h
    · exact ihr h

theorem hashed_of_mem_collectLeaves {n leaf : MerkleNode β} (hn : n.Hashed blake3)
    (h : leaf ∈ n.collectLeaves) : leaf.Hashed blake3 := by
  induction n with
  | leaf centroid clusterId count hash =>
    rw [List.mem_singleton.mp h]
    exact hn
  | internal hash left right centroid count ihl ihr =>
    rcases List.mem_append.mp h with h | h
    · exact ihl hn.2.1 h
    · exact ihr hn.2.2 h

omit [F32 β] in
theorem Summed.size_eq {n : MerkleNode β} (h : n.Summed) : n.size = totalSize n.collectLeaves := by
  induction n with
  | leaf centroid clusterId count hash => simp [collectLeaves]
  | internal hash left right centroid count ihl ihr =>
    rw [collectLeaves, totalSize_append, ← ihl h.2.1, ← ihr h.2.2]
    exact h.1

end MerkleNode

namespace MerkleTree

open MerkleNode

variable {blake3 : Bytes → Bytes}

/-! ## One level -/

theorem pairUp_leaves (nodes : List (MerkleNode β)) :
    (pairUp blake3 nodes).flatMap collectLeaves = nodes.flatMap collectLeaves := by
  fun_induction pairUp blake3 nodes with
  | case1 left right rest ih =>
    rw [List.flatMap_cons, ih, List.flatMap_cons, List.flatMap_cons, ← List.append_assoc]
    rfl
  | case2 nodes h => rfl

theorem pairUp_length (blake3 : Bytes → Bytes) (nodes : List (MerkleNode β)) :
    (pairUp blake3 nodes).length = (nodes.length + 1) / 2 := by
  fun_induction pairUp blake3 nodes with
  | case1 left right rest ih =>
    rw [List.length_cons, ih, List.length_cons, List.length_cons]
    omega
  | case2 nodes h =>
    match nodes with
    | [] => simp
    | [n] => simp
    | left :: right :: rest => exact (h left right rest rfl).elim

theorem pairUp_totalSize {nodes : List (MerkleNode β)} (h : totalSize nodes < 2 ^ 64) :
    totalSize (pairUp blake3 nodes) = totalSize nodes := by
  fun_induction pairUp blake3 nodes with
  | case1 left right rest ih =>
    simp only [totalSize_cons] at h ⊢
    rw [ih (by omega)]
    simp only [recomputeHash, size, count, UInt64.toNat_add] at h ⊢
    omega
  | case2 nodes h => rfl

theorem pairUp_built {nodes : List (MerkleNode β)} (h : totalSize nodes < 2 ^ 64)
    (hn : ∀ n ∈ nodes, n.Hashed blake3 ∧ n.Summed) :
    ∀ n ∈ pairUp blake3 nodes, n.Hashed blake3 ∧ n.Summed := by
  fun_induction pairUp blake3 nodes with
  | case1 left right rest ih =>
    have hleft := hn left (by simp)
    have hright := hn right (by simp)
    simp only [totalSize_cons] at h
    intro n hmem
    rcases List.mem_cons.mp hmem with rfl | hmem
    · refine ⟨⟨rfl, hleft.1, hright.1⟩, ?_, hleft.2, hright.2⟩
      simp only [size, UInt64.toNat_add] at h ⊢
      omega
    · exact ih (by omega) (fun m hm => hn m (by simp [hm])) n hmem
  | case2 nodes h => exact hn

/-! ## All levels -/

theorem buildLevels_leaves (blake3 : Bytes → Bytes) {fuel : Nat} {nodes : List (MerkleNode β)}
    (hne : nodes ≠ []) (hfuel : nodes.length ≤ fuel) :
    ∃ root, buildLevels blake3 fuel nodes = some root ∧
      root.collectLeaves = nodes.flatMap collectLeaves := by
  have hpos := List.length_pos_iff.mpr hne
  induction fuel generalizing nodes with
  | zero => omega
  | succ fuel ih =>
    unfold buildLevels
    by_cases hlen : 1 < nodes.length
    · have hpair := pairUp_length blake3 nodes
      have hpos' : 0 < (pairUp blake3 nodes).length := by omega
      obtain ⟨root, hroot, hleaves⟩ := ih (List.length_pos_iff.mp hpos') (by omega) hpos'
      rw [if_pos hlen]
      exact ⟨root, hroot, by rw [hleaves, pairUp_leaves]⟩
    · obtain ⟨root, rfl⟩ := List.length_eq_one_iff.mp (show nodes.length = 1 by omega)
      exact ⟨root, rfl, by simp⟩

theorem buildLevels_built {fuel : Nat} {nodes : List (MerkleNode β)} {root : MerkleNode β}
    (h : totalSize nodes < 2 ^ 64) (hn : ∀ n ∈ nodes, n.Hashed blake3 ∧ n.Summed)
    (hroot : buildLevels blake3 fuel nodes = some root) : root.Hashed blake3 ∧ root.Summed := by
  induction fuel generalizing nodes with
  | zero => exact hn root (List.mem_of_mem_head? hroot)
  | succ fuel ih =>
    unfold buildLevels at hroot
    split at hroot
    · exact ih (by rw [pairUp_totalSize h]; exact h) (pairUp_built h hn) hroot
    · exact hn root (List.mem_of_mem_head? hroot)

/-- `key` read back from the comparison of `sort_by`. -/
theorem buildTree_eq (ns : List (MerkleNode β)) :
    buildTree blake3 ns =
      buildLevels blake3 ns.length (ns.insertionSort fun a b => a.key ≤ b.key) := by
  unfold buildTree
  simp only [UInt64.le_iff_toNat_le, List.length_insertionSort]
  rfl

/-- The leaves of the tree, from left to right. -/
theorem buildTree_leaves (blake3 : Bytes → Bytes) {ns : List (MerkleNode β)} (hne : ns ≠ [])
    (hleaf : ∀ n ∈ ns, n.IsLeaf) :
    ∃ root, buildTree blake3 ns = some root ∧
      root.collectLeaves = ns.insertionSort fun a b => a.key ≤ b.key := by
  have hperm := List.perm_insertionSort (fun a b : MerkleNode β => a.key ≤ b.key) ns
  have hne' : (ns.insertionSort fun a b => a.key ≤ b.key) ≠ [] := by
    intro hnil
    rw [hnil] at hperm
    exact hne hperm.nil_eq.symm
  have hlen : (ns.insertionSort fun a b => a.key ≤ b.key).length ≤ ns.length := by
    rw [List.length_insertionSort]
  obtain ⟨root, hroot, hleaves⟩ := buildLevels_leaves blake3 hne' hlen
  refine ⟨root, by rw [buildTree_eq, hroot], ?_⟩
  rw [hleaves, flatMap_collectLeaves fun n hn => hleaf n (hperm.mem_iff.mp hn)]

/-- Over clusters the tree is hashed and summed, and the ids increase from left to right. -/
theorem buildTree_spec {next : Nat} {ns : List (MerkleNode β)} (hne : ns ≠ [])
    (h : Clusters blake3 next ns) (htotal : totalSize ns < 2 ^ 64) :
    ∃ root, buildTree blake3 ns = some root ∧ root.Hashed blake3 ∧ root.Summed ∧
      root.collectLeaves.Perm ns ∧ root.collectLeaves.Pairwise fun a b => a.key < b.key := by
  have hperm := List.perm_insertionSort (fun a b : MerkleNode β => a.key ≤ b.key) ns
  have hsorted : (ns.insertionSort fun a b => a.key ≤ b.key).Pairwise fun a b => a.key ≤ b.key :=
    List.pairwise_insertionSort _ ns
  have htotal' : totalSize (ns.insertionSort fun a b => a.key ≤ b.key) = totalSize ns :=
    (hperm.map size).sum_nat
  have hbuilt : ∀ n ∈ ns.insertionSort fun a b => a.key ≤ b.key, n.Hashed blake3 ∧ n.Summed := by
    intro n hn
    have hcluster := h.cluster n (hperm.mem_iff.mp hn)
    refine ⟨hcluster.hashed, ?_⟩
    cases n with
    | leaf centroid clusterId count hash => trivial
    | internal hash left right centroid count => cases hcluster.isLeaf
  have hnodup : ((ns.insertionSort fun a b => a.key ≤ b.key).map key).Nodup :=
    (hperm.map key).nodup_iff.mpr h.nodup
  obtain ⟨root, hroot, hleaves⟩ := buildTree_leaves blake3 hne fun n hn =>
    (h.cluster n hn).isLeaf
  rw [buildTree_eq] at hroot
  obtain ⟨hhashed, hsummed⟩ := buildLevels_built (by omega) hbuilt hroot
  refine ⟨root, by rw [buildTree_eq, hroot], hhashed, hsummed, hleaves ▸ hperm, ?_⟩
  rw [hleaves]
  refine (hsorted.and (List.pairwise_map.mp hnodup)).imp ?_
  intro a b hab
  exact lt_of_le_of_ne hab.1 hab.2

end MerkleTree

end Tesseract.L3
