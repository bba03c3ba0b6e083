import Mathlib.Algebra.Order.BigOperators.Group.List
import Mathlib.Algebra.Order.Group.Nat
import Tesseract.Core.Assoc
import Tesseract.L3Index.MerkleSplit

/-!
# Vectors to clusters

The first two phases of `insert_batch`: each vector is added to the nearest leaf, or makes
a cluster of its own while there is no leaf, and the leaves are updated through two maps
by cluster id.

* `updateLeaves_isSome`: no sum is missing, as the ids are different.
* `foldl_assign_nil`, `freshLeaves_clusters`: a batch into an empty tree.
* `foldl_assign`, `updateLeaves_spec`: every vector is counted in one leaf.
-/
namespace Tesseract.L3.MerkleTree

open Endian MerkleNode

variable {β μ : Type} [F32 β] {blake3 : Bytes → Bytes}

/-! ## The nearest leaf -/

/-- The closer of the best so far and the next, the first of two equal ones. -/
def nearer (best : Option (UInt64 × β)) (p : UInt64 × β) : Option (UInt64 × β) :=
  match best with
  | none => some p
  | some b => if F32.gt b.2 p.2 then some p else some b

theorem nearer_cases (best : Option (UInt64 × β)) (p : UInt64 × β) :
    nearer best p = some p ∨ nearer best p = best ∧ best.isSome := by
  cases best with
  | none => exact .inl rfl
  | some b =>
    unfold nearer
    dsimp only
    split
    · exact .inl rfl
    · exact .inr ⟨rfl, rfl⟩

theorem foldl_nearer {ps : List (UInt64 × β)} (best : Option (UInt64 × β))
    (h : best.isSome ∨ ps ≠ []) :
    ∃ p, ps.foldl nearer best = some p ∧ (best = some p ∨ p ∈ ps) := by
  induction ps generalizing best with
  | nil =>
    rcases h with h | h
    · obtain ⟨p, rfl⟩ := Option.isSome_iff_exists.mp h
      exact ⟨p, rfl, .inl rfl⟩
    · cases h rfl
  | cons q ps ih =>
    rw [List.foldl_cons]
    rcases nearer_cases best q with hq | ⟨hq, hbest⟩
    · have hsome : (nearer best q).isSome := by rw [hq]; rfl
      obtain ⟨p, hp, hmem⟩ := ih _ (.inl hsome)
      refine ⟨p, hp, .inr ?_⟩
      rcases hmem with hsame | hmem
      · rw [hq] at hsame
        rw [Option.some.inj hsame]
        exact List.mem_cons_self
      · exact List.mem_cons_of_mem q hmem
    · rw [hq]
      obtain ⟨p, hp, hmem⟩ := ih _ (.inl hbest)
      exact ⟨p, hp, hmem.imp id fun hmem => List.mem_cons_of_mem q hmem⟩

/-- Over leaves the search finds the id of one of them. -/
theorem findNearestInLeaves_mem {leaves : List (MerkleNode β)} (hne : leaves ≠ [])
    (hleaf : ∀ n ∈ leaves, n.IsLeaf) (vector : List β) :
    ∃ p, findNearestInLeaves leaves vector = some p ∧ ∃ n ∈ leaves, n.clusterId = some p.1 := by
  have hsome : ∀ n ∈ leaves, n.clusterId.isSome := by
    intro n hn
    cases n with
    | leaf centroid clusterId count hash => rfl
    | internal hash left right centroid count => cases hleaf _ hn
  have hps : (leaves.filterMap fun n => n.clusterId.map fun id =>
      (id, n.centroidDistance vector)) ≠ [] := by
    obtain ⟨n, hn⟩ := List.exists_mem_of_ne_nil leaves hne
    obtain ⟨id, hid⟩ := Option.isSome_iff_exists.mp (hsome n hn)
    refine List.ne_nil_of_mem (a := (id, n.centroidDistance vector)) ?_
    exact List.mem_filterMap.mpr ⟨n, hn, by rw [hid]; rfl⟩
  obtain ⟨p, hp, hmem⟩ := foldl_nearer none (.inr hps)
  rcases hmem with hmem | hmem
  · cases hmem
  · obtain ⟨n, hn, heq⟩ := List.mem_filterMap.mp hmem
    obtain ⟨id, hid, rfl⟩ := Option.map_eq_some_iff.mp heq
    exact ⟨(id, n.centroidDistance vector), hp, n, hn, hid⟩

/-! ## Phase 1 -/

/-- Each cluster with additions has a sum, and the new leaves are leaves. -/
structure Assigned.Ok (a : Assigned β) : Prop where
  sums : ∀ id, (a.clusterAdditions.lookup id).isSome → (a.clusterSums.lookup id).isSome
  newLeaves : ∀ n ∈ a.newLeaves, n.IsLeaf

theorem Assigned.Ok.assign {leaves : List (MerkleNode β)} {dim : Nat} {a : Assigned β}
    (h : a.Ok) (vector : List β) : (assign leaves dim a vector).Ok := by
  unfold MerkleTree.assign
  split
  · exact h
  · cases findNearestInLeaves leaves vector with
    | none =>
      refine ⟨h.sums, ?_⟩
      intro n hn
      rcases List.mem_append.mp hn with hn | hn
      · exact h.newLeaves n hn
      · rw [List.mem_singleton.mp hn]
        trivial
    | some p =>
      refine ⟨?_, h.newLeaves⟩
      intro id hid
      rw [Assoc.lookup_insert_eq] at hid ⊢
      split
      · rfl
      · next hne =>
        rw [if_neg hne] at hid
        exact h.sums id hid

theorem Assigned.Ok.foldl {leaves : List (MerkleNode β)} {dim : Nat} {a : Assigned β}
    (h : a.Ok) (vectors : List (List β)) : (vectors.foldl (MerkleTree.assign leaves dim) a).Ok := by
  induction vectors generalizing a with
  | nil => exact h
  | cons v vectors ih => exact ih (h.assign v)

omit [F32 β] in
theorem Assigned.ok_init (nextId : UInt64) : (⟨[], ∅, ∅, nextId⟩ : Assigned β).Ok where
  sums id h := by cases h
  newLeaves n h := by cases h

/-- While there is no leaf every vector makes a cluster of its own. -/
def freshLeaves : List (List β) → UInt64 → List (MerkleNode β)
  | [], _ => []
  | v :: vectors, id => .leaf v id 1 (List.replicate 32 0) :: freshLeaves vectors (id + 1)

theorem foldl_assign_nil {dim : Nat} {vectors : List (List β)} (a : Assigned β)
    (hdim : ∀ v ∈ vectors, v.length = dim) :
    vectors.foldl (assign [] dim) a =
      { a with
        newLeaves := a.newLeaves ++ freshLeaves vectors a.nextClusterId
        nextClusterId := a.nextClusterId + .ofNat vectors.length } := by
  induction vectors generalizing a with
  | nil => simp [freshLeaves]
  | cons v vectors ih =>
    have hv : assign [] dim a v =
        { a with
          newLeaves := a.newLeaves ++ [.leaf v a.nextClusterId 1 (List.replicate 32 0)]
          nextClusterId := a.nextClusterId + 1 } := by
      unfold assign
      rw [if_neg (by simp [hdim v List.mem_cons_self])]
      rfl
    rw [List.foldl_cons, hv, ih _ fun w hw => hdim w (List.mem_cons_of_mem v hw)]
    simp only [freshLeaves, List.append_assoc, List.singleton_append, List.length_cons,
      Assigned.mk.injEq, true_and]
    rw [UInt64.add_assoc, Nat.add_comm, UInt64.ofNat_add]
    rfl

theorem freshLeaves_clusters (blake3 : Bytes → Bytes) {vectors : List (List β)} (id : UInt64)
    (hid : 1 ≤ id.toNat) (hroom : id.toNat + vectors.length < 2 ^ 64) :
    Clusters blake3 (id.toNat + vectors.length)
        ((freshLeaves vectors id).map (recomputeHash blake3)) ∧
      (∀ n ∈ (freshLeaves vectors id).map (recomputeHash blake3), id.toNat ≤ n.key) ∧
      totalSize ((freshLeaves vectors id).map (recomputeHash blake3)) = vectors.length ∧
      (freshLeaves vectors id).length = vectors.length := by
  induction vectors generalizing id with
  | nil => exact ⟨⟨by simp [freshLeaves], List.nodup_nil⟩, by simp [freshLeaves], rfl, rfl⟩
  | cons v vectors ih =>
    rw [List.length_cons] at hroom
    have hnext := toNat_add_one (x := id) (by omega)
    obtain ⟨hclusters, hge, htotal, hlen⟩ := ih (id + 1) (by omega) (by omega)
    simp only [freshLeaves, List.map_cons, recomputeHash, List.length_cons, totalSize_cons]
    refine ⟨⟨?_, ?_⟩, ?_, ?_, by omega⟩
    · intro n hn
      rcases List.mem_cons.mp hn with rfl | hn
      · exact ⟨trivial, rfl, le_refl 1, hid, show id.toNat < _ by omega⟩
      · exact (hclusters.cluster n hn).mono (by omega)
    · rw [List.map_cons, List.nodup_cons]
      refine ⟨?_, hclusters.nodup⟩
      intro hin
      obtain ⟨n, hn, heq⟩ := List.mem_map.mp hin
      have hle := hge n hn
      have hkey : n.key = id.toNat := heq
      omega
    · intro n hn
      rcases List.mem_cons.mp hn with rfl | hn
      · exact le_refl id.toNat
      · have hle := hge n hn
        omega
    · rw [htotal]
      have hone : (1 : UInt64).toNat = 1 := rfl
      simp only [size, count, hone]
      omega

/-- What phase 1 adds to the count of a leaf. -/
def addedTo (additions : AList fun _ : UInt64 => UInt64) (n : MerkleNode β) : Nat :=
  ((n.clusterId.bind additions.lookup).getD 0).toNat

omit [F32 β] in
theorem sum_addedTo_empty (ns : List (MerkleNode β)) :
    (ns.map (addedTo (∅ : AList fun _ : UInt64 => UInt64))).sum = 0 := by
  rw [List.sum_eq_zero]
  intro x hx
  obtain ⟨n, -, rfl⟩ := List.mem_map.mp hx
  unfold addedTo
  cases n.clusterId <;> rfl

/-- One element of a list counts `x` more than before. -/
theorem sum_map_add {α M : Type} [AddCommMonoid M] {f g : α → M} {a : α} {xs : List α} {x : M}
    (ha : a ∈ xs) (hnodup : xs.Nodup) (hg : g a = f a + x)
    (hother : ∀ b ∈ xs, b ≠ a → g b = f b) : (xs.map g).sum = (xs.map f).sum + x := by
  classical
  have hrest : (xs.erase a).map g = (xs.erase a).map f := by
    refine List.map_congr_left fun b hb => ?_
    obtain ⟨hne, hb⟩ := hnodup.mem_erase_iff.mp hb
    exact hother b hb hne
  rw [← List.sum_map_erase g ha, ← List.sum_map_erase f ha, hg, hrest, add_right_comm]

/-- Over leaves a vector is added to what is collected for one of them. -/
theorem assign_near {leaves : List (MerkleNode β)} {dim : Nat} {v : List β} (hne : leaves ≠ [])
    (hleaf : ∀ n ∈ leaves, n.IsLeaf) (hdim : v.length = dim) (a : Assigned β) :
    ∃ n ∈ leaves, ∃ id, n.clusterId = some id ∧ assign leaves dim a v =
      { a with
        clusterAdditions := a.clusterAdditions.insert id
          ((a.clusterAdditions.lookup id).getD 0 + 1)
        clusterSums := a.clusterSums.insert id
          (addSum ((a.clusterSums.lookup id).getD (List.replicate dim F32.zero)) v) } := by
  obtain ⟨p, hp, n, hn, hid⟩ := findNearestInLeaves_mem hne hleaf v
  refine ⟨n, hn, p.1, hid, ?_⟩
  unfold assign
  rw [if_neg (by simp [hdim]), hp]

omit [F32 β] in
/-- With different ids the other leaves have another one. -/
theorem clusterId_ne {leaves : List (MerkleNode β)} {n m : MerkleNode β} {id : UInt64}
    (hnodup : (leaves.map key).Nodup) (hn : n ∈ leaves) (hm : m ∈ leaves)
    (hid : n.clusterId = some id) (hmn : m ≠ n) : m.clusterId ≠ some id := by
  intro heq
  refine hmn (List.inj_on_of_nodup_map hnodup hm hn ?_)
  simp only [key, heq, hid]

omit [F32 β] in
/-- What is kept for another id does not change with an insert. -/
theorem bind_lookup_insert_ne {γ : Type} {n : MerkleNode β} {id : UInt64}
    (hne : n.clusterId ≠ some id) (kept : AList fun _ : UInt64 => γ) (v : γ) :
    n.clusterId.bind (kept.insert id v).lookup = n.clusterId.bind kept.lookup := by
  cases hid : n.clusterId with
  | none => rfl
  | some other =>
    rw [hid] at hne
    exact AList.lookup_insert_ne fun heq => hne (congrArg some heq)

/-- Over leaves phase 1 makes no new one, and each vector adds one to one of them. -/
theorem foldl_assign {leaves : List (MerkleNode β)} {dim : Nat} {vectors : List (List β)}
    {a : Assigned β} (hne : leaves ≠ []) (hleaf : ∀ n ∈ leaves, n.IsLeaf)
    (hnodup : (leaves.map key).Nodup) (hdim : ∀ v ∈ vectors, v.length = dim)
    (hroom : (leaves.map (addedTo a.clusterAdditions)).sum + vectors.length < 2 ^ 64) :
    (vectors.foldl (assign leaves dim) a).newLeaves = a.newLeaves ∧
      (vectors.foldl (assign leaves dim) a).nextClusterId = a.nextClusterId ∧
      (leaves.map (addedTo (vectors.foldl (assign leaves dim) a).clusterAdditions)).sum =
        (leaves.map (addedTo a.clusterAdditions)).sum + vectors.length := by
  induction vectors generalizing a with
  | nil => exact ⟨rfl, rfl, rfl⟩
  | cons v vectors ih =>
    rw [List.length_cons] at hroom
    obtain ⟨n, hn, id, hid, hv⟩ := assign_near hne hleaf (hdim v List.mem_cons_self) a
    have hbound : addedTo a.clusterAdditions n ≤ (leaves.map (addedTo a.clusterAdditions)).sum :=
      List.le_sum_of_mem (List.mem_map_of_mem hn)
    have hsum : (leaves.map (addedTo (assign leaves dim a v).clusterAdditions)).sum =
        (leaves.map (addedTo a.clusterAdditions)).sum + 1 := by
      refine sum_map_add hn hnodup.of_map ?_ ?_
      · rw [hv]
        simp only [addedTo, hid, Option.bind_some, AList.lookup_insert, Option.getD_some]
          at hbound ⊢
        exact toNat_add_one (by omega)
      · intro m hm hmn
        rw [hv, addedTo, addedTo, bind_lookup_insert_ne (clusterId_ne hnodup hn hm hid hmn)]
    obtain ⟨hnew, hnext, hadded⟩ := ih (a := assign leaves dim a v)
      (fun w hw => hdim w (List.mem_cons_of_mem v hw)) (by omega)
    rw [List.foldl_cons]
    refine ⟨hnew.trans (by rw [hv]), hnext.trans (by rw [hv]), ?_⟩
    rw [hadded, hsum, List.length_cons]
    omega

/-! ## Phase 2 -/

/-- With different ids no sum is missing when its leaf is updated. -/
theorem updateLeaves_isSome {additions : AList fun _ : UInt64 => UInt64}
    {ns : List (MerkleNode β)} {sums : AList fun _ : UInt64 => List β}
    (hnodup : (ns.map key).Nodup) (hsums : ∀ n ∈ ns, ∀ id, n.clusterId = some id →
      (additions.lookup id).isSome → (sums.lookup id).isSome) :
    (updateLeaves additions ns sums).isSome := by
  induction ns generalizing sums with
  | nil => rfl
  | cons n rest ih =>
    rw [List.map_cons, List.nodup_cons] at hnodup
    have hrest : ∀ m ∈ rest, ∀ id, m.clusterId = some id →
        (additions.lookup id).isSome → (sums.lookup id).isSome :=
      fun m hm => hsums m (List.mem_cons_of_mem n hm)
    cases n with
    | internal hash left right centroid count =>
      obtain ⟨out, hout⟩ := Option.isSome_iff_exists.mp (ih hnodup.2 hrest)
      simp [updateLeaves, hout]
    | leaf centroid clusterId count hash =>
      cases hadd : additions.lookup clusterId with
      | none =>
        obtain ⟨out, hout⟩ := Option.isSome_iff_exists.mp (ih hnodup.2 hrest)
        simp [updateLeaves, hadd, hout]
      | some added =>
        have hsome := hsums _ List.mem_cons_self clusterId rfl (by rw [hadd]; rfl)
        obtain ⟨sum, hsum⟩ := Option.isSome_iff_exists.mp hsome
        have herase : ∀ m ∈ rest, ∀ id, m.clusterId = some id →
            (additions.lookup id).isSome → ((sums.erase clusterId).lookup id).isSome := by
          intro m hm id hid hin
          have hne : id ≠ clusterId := by
            intro heq
            refine hnodup.1 (List.mem_map.mpr ⟨m, hm, ?_⟩)
            simp only [key, hid, heq]
            rfl
          rw [AList.lookup_erase_ne hne]
          exact hrest m hm id hid hin
        obtain ⟨out, hout⟩ := Option.isSome_iff_exists.mp (ih hnodup.2 herase)
        simp [updateLeaves, hadd, hsum, hout]

/-- One step of the update: the leaf keeps its id, and its count grows by what was added. -/
theorem updateLeaves_cons {additions : AList fun _ : UInt64 => UInt64} {n : MerkleNode β}
    {rest out : List (MerkleNode β)} {sums : AList fun _ : UInt64 => List β} (hn : n.IsLeaf)
    (h : updateLeaves additions (n :: rest) sums = some out) :
    ∃ head outRest sums', out = head :: outRest ∧
      updateLeaves additions rest sums' = some outRest ∧ head.IsLeaf ∧ head.key = n.key ∧
      head.count = n.count + (n.clusterId.bind additions.lookup).getD 0 := by
  cases n with
  | internal hash left right centroid count => cases hn
  | leaf centroid clusterId count hash =>
    cases hadd : additions.lookup clusterId with
    | none =>
      simp only [updateLeaves, hadd, Option.bind_eq_bind, Option.bind_eq_some_iff,
        Option.some.injEq] at h
      obtain ⟨outRest, hout, rfl⟩ := h
      refine ⟨_, outRest, _, rfl, hout, trivial, rfl, ?_⟩
      simp [MerkleNode.clusterId, MerkleNode.count, hadd]
    | some added =>
      simp only [updateLeaves, hadd, Option.bind_eq_bind, Option.bind_eq_some_iff,
        Option.some.injEq] at h
      obtain ⟨sum, -, outRest, hout, rfl⟩ := h
      refine ⟨_, outRest, _, rfl, hout, trivial, rfl, ?_⟩
      simp [MerkleNode.clusterId, MerkleNode.count, hadd]

theorem updateLeaves_isLeaf {additions : AList fun _ : UInt64 => UInt64}
    {ns out : List (MerkleNode β)} {sums : AList fun _ : UInt64 => List β}
    (hleaf : ∀ n ∈ ns, n.IsLeaf) (h : updateLeaves additions ns sums = some out) :
    ∀ n ∈ out, n.IsLeaf := by
  induction ns generalizing sums out with
  | nil =>
    cases h
    simp
  | cons n rest ih =>
    obtain ⟨head, outRest, sums', rfl, hout, hhead, -, -⟩ :=
      updateLeaves_cons (hleaf n List.mem_cons_self) h
    intro m hm
    rcases List.mem_cons.mp hm with rfl | hm
    · exact hhead
    · exact ih (fun x hx => hleaf x (List.mem_cons_of_mem n hx)) hout m hm

/-- The update keeps the ids and adds to the counts. -/
theorem updateLeaves_spec {additions : AList fun _ : UInt64 => UInt64}
    {ns out : List (MerkleNode β)} {sums : AList fun _ : UInt64 => List β}
    (hleaf : ∀ n ∈ ns, n.IsLeaf) (hpos : ∀ n ∈ ns, 1 ≤ n.size)
    (hroom : totalSize ns + (ns.map (addedTo additions)).sum < 2 ^ 64)
    (h : updateLeaves additions ns sums = some out) :
    out.map key = ns.map key ∧ totalSize out = totalSize ns + (ns.map (addedTo additions)).sum ∧
      ∀ n ∈ out, 1 ≤ n.size := by
  induction ns generalizing sums out with
  | nil =>
    cases h
    exact ⟨rfl, rfl, by simp⟩
  | cons n rest ih =>
    obtain ⟨head, outRest, sums', rfl, hout, -, hkey, hcount⟩ :=
      updateLeaves_cons (hleaf n List.mem_cons_self) h
    rw [totalSize_cons, List.map_cons, List.sum_cons] at hroom
    obtain ⟨hkeys, htotal, hsizes⟩ := ih (fun m hm => hleaf m (List.mem_cons_of_mem n hm))
      (fun m hm => hpos m (List.mem_cons_of_mem n hm)) (by omega) hout
    have hsize : head.size = n.size + addedTo additions n := by
      unfold size addedTo at hroom ⊢
      rw [hcount, UInt64.toNat_add]
      omega
    refine ⟨?_, ?_, ?_⟩
    · rw [List.map_cons, List.map_cons, hkeys, hkey]
    · rw [totalSize_cons, totalSize_cons, List.map_cons, List.sum_cons, htotal, hsize]
      omega
    · intro m hm
      rcases List.mem_cons.mp hm with rfl | hm
      · have hone := hpos n List.mem_cons_self
        omega
      · exact hsizes m hm

end Tesseract.L3.MerkleTree
