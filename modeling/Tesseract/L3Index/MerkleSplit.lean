import Tesseract.L3Index.MerkleHash

/-!
# Splitting overfull clusters

The `while` of `insert_batch` splits every leaf above `max_cluster_size` in two
halves with fresh ids, until a round finds none.

* `splitLoop_isSome`: the loop ends; a round halves the counts above the limit.
* `splitLoop_keeps`: what every round keeps, the loop keeps.
* `splitLoop_totalSize`: it keeps the total, and leaves no leaf empty.
* `splitLoop_spec`: it takes two ids for each leaf it adds, and leaves hashed clusters of
  different ids within the limit.
-/
namespace Tesseract.L3

open Endian

variable {β : Type} [F32 β]

namespace MerkleNode

def IsLeaf : MerkleNode β → Prop
  | .leaf _ _ _ _ => True
  | .internal _ _ _ _ _ => False

def size (n : MerkleNode β) : Nat := n.count.toNat

def totalSize (ns : List (MerkleNode β)) : Nat := (ns.map size).sum

/-- What `build_tree` sorts by. -/
def key (n : MerkleNode β) : Nat := (n.clusterId.getD (.ofNat (2 ^ 64 - 1))).toNat

@[simp] theorem isLeaf_recomputeHash (blake3 : Bytes → Bytes) (n : MerkleNode β) :
    (n.recomputeHash blake3).IsLeaf ↔ n.IsLeaf := by
  cases n <;> rfl

@[simp] theorem size_recomputeHash (blake3 : Bytes → Bytes) (n : MerkleNode β) :
    (n.recomputeHash blake3).size = n.size := by
  cases n <;> rfl

@[simp] theorem key_recomputeHash (blake3 : Bytes → Bytes) (n : MerkleNode β) :
    (n.recomputeHash blake3).key = n.key := by
  cases n <;> rfl

theorem hashed_recomputeHash {blake3 : Bytes → Bytes} {n : MerkleNode β} (h : n.IsLeaf) :
    (n.recomputeHash blake3).Hashed blake3 := by
  cases n with
  | leaf centroid clusterId count hash => rfl
  | internal hash left right centroid count => cases h

/-- A leaf that holds a vector, with its own hash and an id below `next`. -/
structure Cluster (blake3 : Bytes → Bytes) (next : Nat) (n : MerkleNode β) : Prop where
  isLeaf : n.IsLeaf
  hashed : n.Hashed blake3
  pos : 1 ≤ n.size
  one_le : 1 ≤ n.key
  lt : n.key < next

/-- Clusters of different ids. -/
structure Clusters (blake3 : Bytes → Bytes) (next : Nat) (ns : List (MerkleNode β)) : Prop where
  cluster : ∀ n ∈ ns, n.Cluster blake3 next
  nodup : (ns.map key).Nodup

variable {blake3 : Bytes → Bytes} {next : Nat}

theorem Cluster.mono {next' : Nat} {n : MerkleNode β} (h : n.Cluster blake3 next)
    (hle : next ≤ next') : n.Cluster blake3 next' := by
  have hlt := h.lt
  exact ⟨h.isLeaf, h.hashed, h.pos, h.one_le, by omega⟩

theorem Clusters.tail {n : MerkleNode β} {ns : List (MerkleNode β)}
    (h : Clusters blake3 next (n :: ns)) : Clusters blake3 next ns := by
  have hnodup := h.nodup
  rw [List.map_cons, List.nodup_cons] at hnodup
  exact ⟨fun m hm => h.cluster m (List.mem_cons_of_mem n hm), hnodup.2⟩

omit [F32 β] in
@[simp] theorem totalSize_nil : totalSize ([] : List (MerkleNode β)) = 0 := rfl

omit [F32 β] in
@[simp] theorem totalSize_cons (n : MerkleNode β) (ns : List (MerkleNode β)) :
    totalSize (n :: ns) = n.size + totalSize ns := by
  simp [totalSize]

omit [F32 β] in
theorem length_le_totalSize {ns : List (MerkleNode β)} (h : ∀ n ∈ ns, 1 ≤ n.size) :
    ns.length ≤ totalSize ns := by
  induction ns with
  | nil => simp
  | cons n ns ih =>
    have hn := h n List.mem_cons_self
    have hns := ih fun m hm => h m (List.mem_cons_of_mem n hm)
    rw [List.length_cons, totalSize_cons]
    omega

omit [F32 β] in
@[simp] theorem totalSize_append (ns ms : List (MerkleNode β)) :
    totalSize (ns ++ ms) = totalSize ns + totalSize ms := by
  simp [totalSize]

theorem totalSize_map_recomputeHash (ns : List (MerkleNode β)) :
    totalSize (ns.map (recomputeHash blake3)) = totalSize ns := by
  induction ns with
  | nil => rfl
  | cons n ns ih => rw [List.map_cons, totalSize_cons, totalSize_cons, ih, size_recomputeHash]

/-- Clusters with the same ids, and still not empty. -/
theorem Clusters.rehashed {ns updated : List (MerkleNode β)}
    (h : Clusters blake3 next ns) (hleaf : ∀ n ∈ updated, n.IsLeaf)
    (hsizes : ∀ n ∈ updated, 1 ≤ n.size) (hkeys : updated.map key = ns.map key) :
    Clusters blake3 next (updated.map (recomputeHash blake3)) := by
  have hmap : (updated.map (recomputeHash blake3)).map key = ns.map key := by
    rw [List.map_map, ← hkeys]
    exact List.map_congr_left fun n _ => key_recomputeHash blake3 n
  constructor
  · intro n hn
    have hkey : n.key ∈ ns.map key := by
      rw [← hmap]
      exact List.mem_map_of_mem hn
    obtain ⟨old, hold, heq⟩ := List.mem_map.mp hkey
    obtain ⟨m, hm, rfl⟩ := List.mem_map.mp hn
    have hcluster := h.cluster old hold
    refine ⟨(isLeaf_recomputeHash blake3 m).mpr (hleaf m hm), ?_, ?_, ?_, ?_⟩
    · exact hashed_recomputeHash (hleaf m hm)
    · rw [size_recomputeHash]
      exact hsizes m hm
    · rw [← heq]
      exact hcluster.one_le
    · rw [← heq]
      exact hcluster.lt
  · rw [hmap]
    exact h.nodup

end MerkleNode

namespace MerkleTree

open MerkleNode

variable {blake3 : Bytes → Bytes} {maxClusterSize : UInt64}

/-! ## The two halves -/

/-- The two leaves that replace an overfull one. -/
def halves (blake3 : Bytes → Bytes) (centroid : List β) (count nextId : UInt64) :
    List (MerkleNode β) :=
  [(MerkleNode.leaf (splitCentroid centroid).1 nextId (count / 2)
      (List.replicate 32 0)).recomputeHash blake3,
    (MerkleNode.leaf (splitCentroid centroid).2 (nextId + 1) (count - count / 2)
      (List.replicate 32 0)).recomputeHash blake3]

theorem length_halves (centroid : List β) (count nextId : UInt64) :
    (halves blake3 centroid count nextId).length = 2 := rfl

theorem isLeaf_halves {centroid : List β} {count nextId : UInt64} {n : MerkleNode β}
    (hn : n ∈ halves blake3 centroid count nextId) : n.IsLeaf := by
  simp only [halves, List.mem_cons, List.not_mem_nil, or_false] at hn
  rcases hn with rfl | rfl <;> trivial

theorem toNat_half (count : UInt64) :
    (count / 2).toNat = count.toNat / 2 ∧
      (count - count / 2).toNat = count.toNat - count.toNat / 2 := by
  have hdiv : (count / 2).toNat = count.toNat / 2 := UInt64.toNat_div count 2
  have hle : count / 2 ≤ count := by
    rw [UInt64.le_iff_toNat_le, hdiv]
    omega
  refine ⟨hdiv, ?_⟩
  rw [UInt64.toNat_sub_of_le _ _ hle, hdiv]

theorem totalSize_halves (centroid : List β) (count nextId : UInt64) :
    totalSize (halves blake3 centroid count nextId) = count.toNat := by
  obtain ⟨h₁, h₂⟩ := toNat_half count
  simp only [halves, recomputeHash, totalSize_cons, totalSize_nil, size, MerkleNode.count, h₁, h₂]
  omega

theorem size_halves {centroid : List β} {count nextId : UInt64} {n : MerkleNode β}
    (hn : n ∈ halves blake3 centroid count nextId) :
    n.size ≤ (count.toNat + 1) / 2 ∧ count.toNat / 2 ≤ n.size := by
  obtain ⟨h₁, h₂⟩ := toNat_half count
  simp only [halves, List.mem_cons, List.not_mem_nil, or_false] at hn
  rcases hn with rfl | rfl
  · simp only [recomputeHash, size, MerkleNode.count, h₁]
    omega
  · simp only [recomputeHash, size, MerkleNode.count, h₂]
    omega

theorem toNat_add_one {x : UInt64} (h : x.toNat + 1 < 2 ^ 64) : (x + 1).toNat = x.toNat + 1 := by
  have hone : (1 : UInt64).toNat = 1 := rfl
  rw [UInt64.toNat_add, hone]
  omega

theorem toNat_add_two {x : UInt64} (h : x.toNat + 2 < 2 ^ 64) : (x + 2).toNat = x.toNat + 2 := by
  have htwo : (2 : UInt64).toNat = 2 := rfl
  rw [UInt64.toNat_add, htwo]
  omega

theorem keys_halves (blake3 : Bytes → Bytes) (centroid : List β) (count : UInt64)
    {nextId : UInt64} (h : nextId.toNat + 1 < 2 ^ 64) :
    (halves blake3 centroid count nextId).map key = [nextId.toNat, nextId.toNat + 1] := by
  simp only [halves, recomputeHash, List.map_cons, List.map_nil, key, clusterId, Option.getD_some,
    toNat_add_one h]

theorem key_halves {centroid : List β} {count nextId : UInt64} {n : MerkleNode β}
    (h : nextId.toNat + 1 < 2 ^ 64) (hn : n ∈ halves blake3 centroid count nextId) :
    nextId.toNat ≤ n.key ∧ n.key < nextId.toNat + 2 := by
  have hkey : n.key ∈ (halves blake3 centroid count nextId).map key := List.mem_map_of_mem hn
  rw [keys_halves blake3 centroid count h] at hkey
  simp only [List.mem_cons, List.not_mem_nil, or_false] at hkey
  omega

theorem clusters_halves {centroid : List β} {count nextId : UInt64}
    (h : nextId.toNat + 2 < 2 ^ 64) (hid : 1 ≤ nextId.toNat) (hcount : 2 ≤ count.toNat) :
    Clusters blake3 (nextId.toNat + 2) (halves blake3 centroid count nextId) := by
  constructor
  · intro n hn
    have hkey := key_halves (by omega) hn
    have hsize := size_halves hn
    refine ⟨isLeaf_halves hn, ?_, by omega, by omega, by omega⟩
    simp only [halves, List.mem_cons, List.not_mem_nil, or_false] at hn
    rcases hn with rfl | rfl <;> rfl
  · rw [keys_halves blake3 centroid count (by omega)]
    simp

/-! ## One round -/

/-- What a round does to a list of leaves. -/
inductive Round (blake3 : Bytes → Bytes) (maxClusterSize : UInt64) :
    List (MerkleNode β) → UInt64 → List (MerkleNode β) → UInt64 → Bool → Prop
  | nil (nextId : UInt64) : Round blake3 maxClusterSize [] nextId [] nextId false
  | halved {n : MerkleNode β} {rest out : List (MerkleNode β)} {nextId nextId' : UInt64}
      {split : Bool} : n.IsLeaf → maxClusterSize < n.count →
      Round blake3 maxClusterSize rest (nextId + 2) out nextId' split →
      Round blake3 maxClusterSize (n :: rest) nextId
        (halves blake3 n.centroid n.count nextId ++ out) nextId' true
  | kept {n : MerkleNode β} {rest out : List (MerkleNode β)} {nextId nextId' : UInt64}
      {split : Bool} : n.IsLeaf → n.count ≤ maxClusterSize →
      Round blake3 maxClusterSize rest nextId out nextId' split →
      Round blake3 maxClusterSize (n :: rest) nextId (n :: out) nextId' split

theorem round_splitRound (blake3 : Bytes → Bytes) (maxClusterSize : UInt64)
    {ns : List (MerkleNode β)} (hleaf : ∀ n ∈ ns, n.IsLeaf) (nextId : UInt64) :
    Round blake3 maxClusterSize ns nextId (splitRound blake3 maxClusterSize ns nextId).1
      (splitRound blake3 maxClusterSize ns nextId).2.1
      (splitRound blake3 maxClusterSize ns nextId).2.2 := by
  induction ns generalizing nextId with
  | nil => exact .nil nextId
  | cons n rest ih =>
    have hrest := ih fun m hm => hleaf m (List.mem_cons_of_mem n hm)
    cases n with
    | internal hash left right centroid count => cases hleaf _ List.mem_cons_self
    | leaf centroid clusterId count hash =>
      by_cases hover : maxClusterSize < count
      · simp only [splitRound, if_pos hover]
        exact .halved trivial hover (hrest (nextId + 2))
      · simp only [splitRound, if_neg hover]
        exact .kept trivial (UInt64.not_lt.mp hover) (hrest nextId)

namespace Round

variable {ns out : List (MerkleNode β)} {nextId nextId' : UInt64} {split : Bool}

theorem isLeaf (h : Round blake3 maxClusterSize ns nextId out nextId' split) :
    ∀ n ∈ out, n.IsLeaf := by
  induction h with
  | nil nextId => simp
  | halved _ _ _ ih =>
    intro m hm
    rcases List.mem_append.mp hm with hm | hm
    · exact isLeaf_halves hm
    · exact ih m hm
  | kept hleaf _ _ ih =>
    intro m hm
    rcases List.mem_cons.mp hm with rfl | hm
    · exact hleaf
    · exact ih m hm

theorem length_le (h : Round blake3 maxClusterSize ns nextId out nextId' split) :
    ns.length ≤ out.length := by
  induction h with
  | nil nextId => simp
  | halved _ _ _ ih =>
    rw [List.length_append, length_halves, List.length_cons]
    omega
  | kept _ _ _ ih =>
    rw [List.length_cons, List.length_cons]
    omega

/-- Each leaf that a round adds takes two ids. -/
theorem next (h : Round blake3 maxClusterSize ns nextId out nextId' split)
    (hroom : nextId.toNat + 2 * (out.length - ns.length) < 2 ^ 64) :
    nextId'.toNat = nextId.toNat + 2 * (out.length - ns.length) := by
  induction h with
  | nil nextId => simp
  | @halved n rest out nextId nextId' split _ _ hrest ih =>
    have hle := hrest.length_le
    rw [List.length_append, length_halves, List.length_cons] at hroom ⊢
    have htwo := toNat_add_two (x := nextId) (by omega)
    rw [ih (by omega), htwo]
    omega
  | kept _ _ _ ih =>
    rw [List.length_cons, List.length_cons] at hroom ⊢
    rw [ih (by omega)]
    omega

theorem totalSize_eq (h : Round blake3 maxClusterSize ns nextId out nextId' split) :
    totalSize out = totalSize ns := by
  induction h with
  | nil nextId => rfl
  | halved _ _ _ ih =>
    rw [totalSize_append, totalSize_halves, totalSize_cons, ih]
    rfl
  | kept _ _ _ ih => rw [totalSize_cons, totalSize_cons, ih]

theorem pos (h : Round blake3 maxClusterSize ns nextId out nextId' split)
    (hmax : 1 ≤ maxClusterSize.toNat) (hns : ∀ n ∈ ns, 1 ≤ n.size) : ∀ n ∈ out, 1 ≤ n.size := by
  induction h with
  | nil nextId => simp
  | @halved n rest out nextId nextId' split _ hover _ ih =>
    intro m hm
    rcases List.mem_append.mp hm with hm | hm
    · have hsize := (size_halves hm).2
      have hlt := UInt64.lt_iff_toNat_lt.mp hover
      omega
    · exact ih (fun x hx => hns x (List.mem_cons_of_mem n hx)) m hm
  | @kept n rest out nextId nextId' split _ _ _ ih =>
    intro m hm
    rcases List.mem_cons.mp hm with rfl | hm
    · exact hns m List.mem_cons_self
    · exact ih (fun x hx => hns x (List.mem_cons_of_mem n hx)) m hm

/-- A round that splits nothing: every leaf was within the limit. -/
theorem done (h : Round blake3 maxClusterSize ns nextId out nextId' split)
    (hsplit : split = false) :
    out = ns ∧ nextId' = nextId ∧ ∀ n ∈ ns, n.size ≤ maxClusterSize.toNat := by
  induction h with
  | nil nextId => exact ⟨rfl, rfl, by simp⟩
  | halved _ _ _ _ => cases hsplit
  | kept _ hle _ ih =>
    obtain ⟨hout, hnext, hsizes⟩ := ih hsplit
    refine ⟨by rw [hout], hnext, ?_⟩
    intro m hm
    rcases List.mem_cons.mp hm with rfl | hm
    · exact UInt64.le_iff_toNat_le.mp hle
    · exact hsizes m hm

/-- A round that splits had a leaf above the limit. -/
theorem exists_over (h : Round blake3 maxClusterSize ns nextId out nextId' split)
    (hsplit : split = true) : ∃ n ∈ ns, maxClusterSize.toNat < n.size := by
  induction h with
  | nil nextId => cases hsplit
  | halved _ hover _ _ => exact ⟨_, List.mem_cons_self, UInt64.lt_iff_toNat_lt.mp hover⟩
  | kept _ _ _ ih =>
    obtain ⟨m, hm, hover⟩ := ih hsplit
    exact ⟨m, List.mem_cons_of_mem _ hm, hover⟩

/-- A round halves what is above the limit. -/
theorem sizes {b : Nat} (h : Round blake3 maxClusterSize ns nextId out nextId' split)
    (hns : ∀ n ∈ ns, n.size ≤ maxClusterSize.toNat ∨ n.size ≤ 2 * b) :
    ∀ n ∈ out, n.size ≤ maxClusterSize.toNat ∨ n.size ≤ b := by
  induction h with
  | nil nextId => simp
  | @halved n rest out nextId nextId' split _ hover _ ih =>
    intro m hm
    rcases List.mem_append.mp hm with hm | hm
    · have hsize := (size_halves hm).1
      have hbound := hns n List.mem_cons_self
      have hlt := UInt64.lt_iff_toNat_lt.mp hover
      unfold size at hbound
      right
      omega
    · exact ih (fun x hx => hns x (List.mem_cons_of_mem n hx)) m hm
  | @kept n rest out nextId nextId' split _ hle _ ih =>
    intro m hm
    rcases List.mem_cons.mp hm with rfl | hm
    · exact .inl (UInt64.le_iff_toNat_le.mp hle)
    · exact ih (fun x hx => hns x (List.mem_cons_of_mem n hx)) m hm

/-- The ids behind a round: those of before, and the ones that it takes. -/
theorem keys (h : Round blake3 maxClusterSize ns nextId out nextId' split)
    (hroom : nextId.toNat + 2 * (out.length - ns.length) < 2 ^ 64) :
    ∀ n ∈ out, n.key ∈ ns.map key ∨ nextId.toNat ≤ n.key := by
  induction h with
  | nil nextId => simp
  | @halved n rest out nextId nextId' split _ _ hrest ih =>
    have hle := hrest.length_le
    rw [List.length_append, length_halves, List.length_cons] at hroom
    have htwo := toNat_add_two (x := nextId) (by omega)
    intro m hm
    rcases List.mem_append.mp hm with hm | hm
    · exact .inr (key_halves (by omega) hm).1
    · rcases ih (by omega) m hm with hold | hfresh
      · exact .inl (List.mem_cons_of_mem _ hold)
      · exact .inr (by omega)
  | kept _ _ _ ih =>
    rw [List.length_cons, List.length_cons] at hroom
    intro m hm
    rcases List.mem_cons.mp hm with rfl | hm
    · exact .inl List.mem_cons_self
    · exact (ih (by omega) m hm).imp_left (List.mem_cons_of_mem _)

end Round

/-- Two halves in front of the leaves `out`, which have ids of `rest` or later ones. -/
theorem clusters_halves_append {lo last : Nat} {centroid : List β} {count nextId : UInt64}
    {rest out : List (MerkleNode β)} (hroom : nextId.toNat + 2 < 2 ^ 64)
    (hid : 1 ≤ nextId.toNat) (hcount : 2 ≤ count.toNat) (hlo : lo ≤ nextId.toNat)
    (hlast : nextId.toNat + 2 ≤ last) (hrest : Clusters blake3 lo rest)
    (hout : Clusters blake3 last out)
    (hkeys : ∀ n ∈ out, n.key ∈ rest.map key ∨ nextId.toNat + 2 ≤ n.key) :
    Clusters blake3 last (halves blake3 centroid count nextId ++ out) := by
  have hhalves : Clusters blake3 (nextId.toNat + 2) (halves blake3 centroid count nextId) :=
    clusters_halves hroom hid hcount
  constructor
  · intro m hm
    rcases List.mem_append.mp hm with hm | hm
    · exact (hhalves.cluster m hm).mono hlast
    · exact hout.cluster m hm
  · rw [List.map_append]
    refine List.Nodup.append hhalves.nodup hout.nodup ?_
    -- an id of `out` is below those of the halves or above
    intro x hx hx'
    obtain ⟨m, hm, rfl⟩ := List.mem_map.mp hx
    obtain ⟨m', hm', heq⟩ := List.mem_map.mp hx'
    obtain ⟨hge, hlt⟩ := key_halves (by omega) hm
    rcases hkeys m' hm' with hold | hfresh
    · obtain ⟨old, hin, hsame⟩ := List.mem_map.mp hold
      have hlt' := (hrest.cluster old hin).lt
      omega
    · omega

/-- A leaf that stays in front of the leaves `out`. -/
theorem clusters_cons {lo later last : Nat} {n : MerkleNode β} {rest out : List (MerkleNode β)}
    (hns : Clusters blake3 lo (n :: rest)) (hlater : lo ≤ later) (hlast : lo ≤ last)
    (hout : Clusters blake3 last out)
    (hkeys : ∀ m ∈ out, m.key ∈ rest.map key ∨ later ≤ m.key) :
    Clusters blake3 last (n :: out) := by
  have hn := hns.cluster n List.mem_cons_self
  have hlt := hn.lt
  have hnodup := hns.nodup
  rw [List.map_cons, List.nodup_cons] at hnodup
  constructor
  · intro m hm
    rcases List.mem_cons.mp hm with rfl | hm
    · exact hn.mono hlast
    · exact hout.cluster m hm
  · rw [List.map_cons, List.nodup_cons]
    refine ⟨?_, hout.nodup⟩
    intro hin
    obtain ⟨m, hm, heq⟩ := List.mem_map.mp hin
    rcases hkeys m hm with hold | hfresh
    · exact hnodup.1 (heq ▸ hold)
    · omega

/-- Clusters stay clusters. -/
theorem Round.clusters {lo : Nat} {ns out : List (MerkleNode β)} {nextId nextId' : UInt64}
    {split : Bool} (h : Round blake3 maxClusterSize ns nextId out nextId' split)
    (hmax : 1 ≤ maxClusterSize.toNat) (hid : 1 ≤ nextId.toNat)
    (hroom : nextId.toNat + 2 * (out.length - ns.length) < 2 ^ 64) (hlo : lo ≤ nextId.toNat)
    (hns : Clusters blake3 lo ns) : Clusters blake3 nextId'.toNat out := by
  have hnext := h.next hroom
  induction h with
  | nil nextId => exact ⟨by simp, List.nodup_nil⟩
  | @halved n rest out nextId nextId' split _ hover hrest ih =>
    have hle := hrest.length_le
    rw [List.length_append, length_halves, List.length_cons] at hroom hnext
    have htwo := toNat_add_two (x := nextId) (by omega)
    have hcount := UInt64.lt_iff_toNat_lt.mp hover
    have hout := ih (by omega) (by omega) (by omega) hns.tail (by omega)
    have hkeys := hrest.keys (by omega)
    rw [htwo] at hkeys
    exact clusters_halves_append (by omega) hid (by omega) hlo (by omega) hns.tail hout hkeys
  | @kept n rest out nextId nextId' split _ _ hrest ih =>
    rw [List.length_cons, List.length_cons] at hroom hnext
    have hout := ih hid (by omega) hlo hns.tail (by omega)
    exact clusters_cons hns hlo (by omega) hout (hrest.keys (by omega))

/-! ## The loop -/

/-- With counts up to 2^j above the limit, `j + 1` rounds are enough. -/
theorem splitLoop_isSome (blake3 : Bytes → Bytes) (j : Nat) {ns : List (MerkleNode β)}
    (nextId : UInt64) (hmax : 1 ≤ maxClusterSize.toNat) (hleaf : ∀ n ∈ ns, n.IsLeaf)
    (h : ∀ n ∈ ns, n.size ≤ maxClusterSize.toNat ∨ n.size ≤ 2 ^ j) :
    (splitLoop blake3 maxClusterSize (j + 1) ns nextId).isSome := by
  induction j generalizing ns nextId with
  | zero =>
    have hround := round_splitRound blake3 maxClusterSize hleaf nextId
    unfold splitLoop
    cases hsplit : (splitRound blake3 maxClusterSize ns nextId).2.2 with
    | false => simp [hsplit]
    | true =>
      obtain ⟨n, hn, hover⟩ := hround.exists_over hsplit
      have hle := h n hn
      omega
  | succ j ih =>
    have hround := round_splitRound blake3 maxClusterSize hleaf nextId
    unfold splitLoop
    cases hsplit : (splitRound blake3 maxClusterSize ns nextId).2.2 with
    | false => simp [hsplit]
    | true =>
      have hsizes := hround.sizes (b := 2 ^ j) fun n hn => by
        have hle := h n hn
        rw [Nat.pow_succ] at hle
        omega
      simp only [hsplit, if_true]
      exact ih _ hround.isLeaf hsizes

/-- What every round keeps, the loop keeps. -/
theorem splitLoop_keeps {I : List (MerkleNode β) → Prop}
    (hI : ∀ ns nextId out nextId' split,
      Round blake3 maxClusterSize ns nextId out nextId' split → I ns → I out)
    {fuel : Nat} {ns out : List (MerkleNode β)} {nextId nextId' : UInt64}
    (hleaf : ∀ n ∈ ns, n.IsLeaf) (h : I ns)
    (hrun : splitLoop blake3 maxClusterSize fuel ns nextId = some (out, nextId')) :
    I out ∧ ∀ n ∈ out, n.IsLeaf := by
  induction fuel generalizing ns nextId with
  | zero => cases hrun
  | succ fuel ih =>
    have hround := round_splitRound blake3 maxClusterSize hleaf nextId
    unfold splitLoop at hrun
    cases hsplit : (splitRound blake3 maxClusterSize ns nextId).2.2 with
    | false =>
      simp only [hsplit, Bool.false_eq_true, if_false, Option.some.injEq, Prod.mk.injEq] at hrun
      rw [← hrun.1]
      exact ⟨hI _ _ _ _ _ hround h, hround.isLeaf⟩
    | true =>
      simp only [hsplit, if_true] at hrun
      exact ih hround.isLeaf (hI _ _ _ _ _ hround h) hrun

theorem splitLoop_leaves {fuel : Nat} {ns out : List (MerkleNode β)} {nextId nextId' : UInt64}
    (hleaf : ∀ n ∈ ns, n.IsLeaf)
    (hrun : splitLoop blake3 maxClusterSize fuel ns nextId = some (out, nextId')) :
    ns.length ≤ out.length ∧ ∀ n ∈ out, n.IsLeaf := by
  refine splitLoop_keeps (I := fun out => ns.length ≤ out.length) ?_ hleaf (Nat.le_refl _) hrun
  intro _ _ _ _ _ hround hle
  exact hle.trans hround.length_le

/-- Whatever the ids are, no vector is lost and no leaf is empty. -/
theorem splitLoop_totalSize {fuel : Nat} {ns out : List (MerkleNode β)} {nextId nextId' : UInt64}
    (hmax : 1 ≤ maxClusterSize.toNat) (hleaf : ∀ n ∈ ns, n.IsLeaf) (hpos : ∀ n ∈ ns, 1 ≤ n.size)
    (hrun : splitLoop blake3 maxClusterSize fuel ns nextId = some (out, nextId')) :
    totalSize out = totalSize ns ∧ ∀ n ∈ out, 1 ≤ n.size := by
  refine (splitLoop_keeps (I := fun out => totalSize out = totalSize ns ∧ ∀ n ∈ out, 1 ≤ n.size)
    ?_ hleaf ⟨rfl, hpos⟩ hrun).1
  intro _ _ _ _ _ hround ⟨htotal, hpos⟩
  exact ⟨hround.totalSize_eq.trans htotal, hround.pos hmax hpos⟩

/-- What the loop leaves: by induction on the rounds, with the ids it takes counted by the
leaves it adds. -/
theorem splitLoop_spec {fuel : Nat} {ns out : List (MerkleNode β)} {nextId nextId' : UInt64}
    (hmax : 1 ≤ maxClusterSize.toNat) (hid : 1 ≤ nextId.toNat)
    (h : Clusters blake3 nextId.toNat ns)
    (hrun : splitLoop blake3 maxClusterSize fuel ns nextId = some (out, nextId'))
    (hroom : nextId.toNat + 2 * (out.length - ns.length) < 2 ^ 64) :
    nextId'.toNat = nextId.toNat + 2 * (out.length - ns.length) ∧
      Clusters blake3 nextId'.toNat out ∧ ∀ n ∈ out, n.size ≤ maxClusterSize.toNat := by
  induction fuel generalizing ns nextId with
  | zero => cases hrun
  | succ fuel ih =>
    have hleaf : ∀ n ∈ ns, n.IsLeaf := fun n hn => (h.cluster n hn).isLeaf
    have hround := round_splitRound blake3 maxClusterSize hleaf nextId
    unfold splitLoop at hrun
    cases hsplit : (splitRound blake3 maxClusterSize ns nextId).2.2 with
    | false =>
      simp only [hsplit, Bool.false_eq_true, if_false, Option.some.injEq, Prod.mk.injEq] at hrun
      obtain ⟨hout, hnext, hsizes⟩ := hround.done hsplit
      obtain ⟨rfl, rfl⟩ := hrun
      rw [hout, hnext]
      exact ⟨by omega, h, hsizes⟩
    | true =>
      simp only [hsplit, if_true] at hrun
      have hle := hround.length_le
      have hle' := (splitLoop_leaves hround.isLeaf hrun).1
      have hnext := hround.next (by omega)
      have hclusters := hround.clusters hmax hid (by omega) (le_refl _) h
      obtain ⟨hlast, hout, hsizes⟩ := ih (by omega) hclusters hrun (by omega)
      exact ⟨by omega, hout, hsizes⟩

end MerkleTree

end Tesseract.L3
