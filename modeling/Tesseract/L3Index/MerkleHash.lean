import Tesseract.Core.Bits
import Tesseract.L3Index.Merkle

/-!
# What the root hash binds

A leaf hashes its centroid, its count and its id, an inner node the hashes of its
children. Nothing in the bytes says which of the two they are: a leaf of dimension 12
has as many bytes as an inner node. So the root hash binds the leaves in every
dimension but that one, and there it does for no hash function.

* `binds_of_ne_twelve`: equal root hashes are equal leaves or a collision.
* `not_binds_twelve`: whatever the hash function, two trees without a collision.
* `root_binds_iff`: the two together.
-/
namespace Tesseract.L3.MerkleNode

open Endian

variable {β : Type} [F32 β]

/-- The bytes that a leaf hashes. -/
def leafBytes (centroid : List β) (count clusterId : UInt64) : Bytes :=
  (centroid.map F32.toLeBytes).flatten ++ u64le count ++ u64le clusterId

/-- Every stored hash is the recomputed one. -/
def Hashed (blake3 : Bytes → Bytes) : MerkleNode β → Prop
  | .leaf centroid clusterId count hash => hash = blake3 (leafBytes centroid count clusterId)
  | .internal hash left right _ _ =>
    hash = blake3 (left.hash ++ right.hash) ∧ left.Hashed blake3 ∧ right.Hashed blake3

/-- The strings that are fed to the hash function to recompute the hashes. -/
def fed : MerkleNode β → List Bytes
  | .leaf centroid clusterId count _ => [leafBytes centroid count clusterId]
  | .internal _ left right _ _ => (left.hash ++ right.hash) :: (left.fed ++ right.fed)

/-- The centroid bits, the count and the cluster id. -/
def content (n : MerkleNode β) : List Bytes × UInt64 × Option UInt64 :=
  (n.centroid.map F32.toLeBytes, n.count, n.clusterId)

/-- All leaf centroids have dimension `d`. -/
def HasDim (d : Nat) (n : MerkleNode β) : Prop := ∀ leaf ∈ n.collectLeaves, leaf.centroid.length = d

/-- Two different strings of the list have the same hash. -/
def Collision (blake3 : Bytes → Bytes) (strings : List Bytes) : Prop :=
  ∃ x ∈ strings, ∃ y ∈ strings, x ≠ y ∧ blake3 x = blake3 y

/-- Equal root hashes are equal leaves or a collision. -/
def Binds (blake3 : Bytes → Bytes) (a b : MerkleNode β) : Prop :=
  a.hash = b.hash →
    a.collectLeaves.map content = b.collectLeaves.map content ∨ Collision blake3 (a.fed ++ b.fed)

variable {blake3 : Bytes → Bytes}

theorem hashed_leaf_iff {centroid : List β} {clusterId count : UInt64} {hash : Bytes} :
    (leaf centroid clusterId count hash).Hashed blake3 ↔
      (leaf centroid clusterId count hash).recomputeHash blake3 =
        .leaf centroid clusterId count hash := by
  simp only [Hashed, recomputeHash, leaf.injEq, true_and]
  exact eq_comm

theorem hashed_internal_iff {hash : Bytes} {left right : MerkleNode β} {centroid : List β}
    {count : UInt64} : (internal hash left right centroid count).Hashed blake3 ↔
      (internal hash left right centroid count).recomputeHash blake3 =
        .internal hash left right centroid count ∧ left.Hashed blake3 ∧ right.Hashed blake3 := by
  simp only [Hashed, recomputeHash, internal.injEq, and_true]
  exact and_congr_left fun _ => eq_comm

theorem Collision.mono {xs ys : List Bytes} (h : Collision blake3 xs) (hsub : xs ⊆ ys) :
    Collision blake3 ys := by
  obtain ⟨x, hx, y, hy, hne, heq⟩ := h
  exact ⟨x, hsub hx, y, hsub hy, hne, heq⟩

/-- Two strings of the list with one hash: the same string, or a collision. -/
theorem eq_or_collision (xs : List Bytes) {x y : Bytes} (hx : x ∈ xs) (hy : y ∈ xs)
    (h : blake3 x = blake3 y) : x = y ∨ Collision blake3 xs := by
  by_cases heq : x = y
  · exact .inl heq
  · exact .inr ⟨x, hx, y, hy, heq, h⟩

omit [F32 β] in
theorem hasDim_internal {d : Nat} {hash : Bytes} {left right : MerkleNode β} {centroid : List β}
    {count : UInt64} : (internal hash left right centroid count).HasDim d ↔
      left.HasDim d ∧ right.HasDim d := by
  simp only [HasDim, collectLeaves, List.mem_append, or_imp, forall_and]

theorem length_hash {n : MerkleNode β} (hlen : ∀ x, (blake3 x).length = 32)
    (h : n.Hashed blake3) : n.hash.length = 32 := by
  cases n with
  | leaf centroid clusterId count hash =>
    have heq : hash = _ := h
    rw [MerkleNode.hash, heq, hlen]
  | internal hash left right centroid count =>
    have heq : hash = _ := h.1
    rw [MerkleNode.hash, heq, hlen]

/-! ## Bytes of a leaf -/

variable [F32Bytes β]

theorem length_flatten_bytes (xs : List β) :
    (xs.map F32.toLeBytes).flatten.length = 4 * xs.length := by
  induction xs with
  | nil => rfl
  | cons x xs ih =>
    rw [List.map_cons, List.flatten_cons, List.length_append, ih, F32Bytes.length, List.length_cons]
    omega

theorem length_leafBytes (centroid : List β) (count clusterId : UInt64) :
    (leafBytes centroid count clusterId).length = 4 * centroid.length + 16 := by
  simp only [leafBytes, List.length_append, length_flatten_bytes, u64le_length]

/-- Four bytes a number: the bytes of a centroid are read back. -/
theorem flatten_bytes_inj {xs ys : List β} (hlen : xs.length = ys.length)
    (h : (xs.map F32.toLeBytes).flatten = (ys.map F32.toLeBytes).flatten) :
    xs.map F32.toLeBytes = ys.map F32.toLeBytes := by
  induction xs generalizing ys with
  | nil =>
    cases ys with
    | nil => rfl
    | cons y ys => cases hlen
  | cons x xs ih =>
    cases ys with
    | nil => cases hlen
    | cons y ys =>
      simp only [List.map_cons, List.flatten_cons] at h ⊢
      have hxy : (F32.toLeBytes x).length = (F32.toLeBytes y).length := by
        rw [F32Bytes.length, F32Bytes.length]
      obtain ⟨hhead, htail⟩ := List.append_inj h hxy
      rw [hhead, ih (by simpa using hlen) htail]

theorem leafBytes_inj {xs ys : List β} {count count' id id' : UInt64}
    (hlen : xs.length = ys.length) (h : leafBytes xs count id = leafBytes ys count' id') :
    xs.map F32.toLeBytes = ys.map F32.toLeBytes ∧ count = count' ∧ id = id' := by
  unfold leafBytes at h
  obtain ⟨hfront, hid⟩ := List.append_inj' h (by simp)
  obtain ⟨hcentroid, hcount⟩ := List.append_inj' hfront (by simp)
  refine ⟨flatten_bytes_inj hlen hcentroid, ?_, ?_⟩
  · rw [← u64of_u64le count, hcount, u64of_u64le]
  · rw [← u64of_u64le id, hid, u64of_u64le]

theorem flatten_bytes_onto (d : Nat) {bs : Bytes} (h : bs.length = 4 * d) :
    ∃ xs : List β, xs.length = d ∧ (xs.map F32.toLeBytes).flatten = bs := by
  induction d generalizing bs with
  | zero => exact ⟨[], rfl, (List.eq_nil_of_length_eq_zero h).symm⟩
  | succ d ih =>
    have hfront : (bs.take 4).length = 4 := by
      rw [List.length_take]
      omega
    have hrest : (bs.drop 4).length = 4 * d := by
      rw [List.length_drop]
      omega
    obtain ⟨x, hx⟩ := F32Bytes.onto (β := β) (bs.take 4) hfront
    obtain ⟨xs, hlen, hxs⟩ := ih hrest
    refine ⟨x :: xs, by rw [List.length_cons, hlen], ?_⟩
    rw [List.map_cons, List.flatten_cons, hx, hxs, List.take_append_drop]

/-- Every string of the right length is that of a leaf. -/
theorem leafBytes_onto (d : Nat) {bs : Bytes} (h : bs.length = 4 * d + 16) :
    ∃ (centroid : List β) (count clusterId : UInt64), centroid.length = d ∧
      leafBytes centroid count clusterId = bs := by
  have hcentroid : (bs.take (4 * d)).length = 4 * d := by
    rw [List.length_take]
    omega
  have hcount : ((bs.drop (4 * d)).take 8).length = 8 := by
    rw [List.length_take, List.length_drop]
    omega
  have hid : ((bs.drop (4 * d)).drop 8).length = 8 := by
    rw [List.length_drop, List.length_drop]
    omega
  obtain ⟨centroid, hlen, heq⟩ := flatten_bytes_onto (β := β) d hcentroid
  refine ⟨centroid, u64of ((bs.drop (4 * d)).take 8), u64of ((bs.drop (4 * d)).drop 8), hlen, ?_⟩
  rw [leafBytes, heq, u64le_u64of hcount, u64le_u64of hid, List.append_assoc,
    List.take_append_drop, List.take_append_drop]

/-! ## Where the hash binds -/

variable {d : Nat}

theorem binds_leaves {xs ys : List β} {id id' count count' : UInt64} {hash hash' : Bytes}
    (hlen : xs.length = ys.length) (ha : (leaf xs id count hash).Hashed blake3)
    (hb : (leaf ys id' count' hash').Hashed blake3) :
    Binds blake3 (leaf xs id count hash) (leaf ys id' count' hash') := by
  intro h
  have hroot : hash = hash' := h
  simp only [Hashed] at ha hb
  have heq : blake3 (leafBytes xs count id) = blake3 (leafBytes ys count' id') := by
    rw [← ha, ← hb, hroot]
  rcases eq_or_collision [leafBytes xs count id, leafBytes ys count' id'] (by simp)
    (by simp) heq with hbytes | hcol
  · obtain ⟨hcentroid, rfl, rfl⟩ := leafBytes_inj hlen hbytes
    left
    simp only [collectLeaves, List.map_cons, List.map_nil, content, centroid, MerkleNode.count,
      clusterId, hcentroid]
  · exact .inr hcol

/-- A leaf and an inner node are hashed from strings of different lengths. -/
theorem collision_of_leaf_internal {xs : List β} {id count count' : UInt64} {hash hash' : Bytes}
    {left right : MerkleNode β} {centroid : List β} (hlen : ∀ x, (blake3 x).length = 32)
    (hd : xs.length ≠ 12) (ha : (leaf xs id count hash).Hashed blake3)
    (hb : (internal hash' left right centroid count').Hashed blake3) (h : hash = hash') :
    Collision blake3 ((leaf xs id count hash).fed ++
      (internal hash' left right centroid count').fed) := by
  obtain ⟨hb, hleft, hright⟩ := hb
  simp only [Hashed] at ha
  have heq : blake3 (leafBytes xs count id) = blake3 (left.hash ++ right.hash) := by
    rw [← ha, ← hb, h]
  refine ⟨_, by simp [fed], _, by simp [fed], ?_, heq⟩
  intro hbytes
  have hlength := congrArg List.length hbytes
  rw [length_leafBytes, List.length_append, length_hash hlen hleft, length_hash hlen hright]
    at hlength
  omega

omit [F32Bytes β] in
/-- Inner nodes that bind their children in pairs. -/
theorem binds_internals {hash hash' : Bytes} {left right left' right' : MerkleNode β}
    {centroid centroid' : List β} {count count' : UInt64} (hlen : ∀ x, (blake3 x).length = 32)
    (ha : (internal hash left right centroid count).Hashed blake3)
    (hb : (internal hash' left' right' centroid' count').Hashed blake3)
    (hbl : Binds blake3 left left') (hbr : Binds blake3 right right') :
    Binds blake3 (internal hash left right centroid count)
      (internal hash' left' right' centroid' count') := by
  obtain ⟨ha, hl, hr⟩ := ha
  obtain ⟨hb, hl', hr'⟩ := hb
  intro h
  have hroot : hash = hash' := h
  have heq : blake3 (left.hash ++ right.hash) = blake3 (left'.hash ++ right'.hash) := by
    rw [← ha, ← hb, hroot]
  rcases eq_or_collision ((internal hash left right centroid count).fed ++
    (internal hash' left' right' centroid' count').fed) (by simp [fed]) (by simp [fed]) heq
    with hbytes | hcol
  · have hhashes : left.hash.length = left'.hash.length := by
      rw [length_hash hlen hl, length_hash hlen hl']
    obtain ⟨hhl, hhr⟩ := List.append_inj hbytes hhashes
    have hsubl : left.fed ++ left'.fed ⊆ (internal hash left right centroid count).fed ++
        (internal hash' left' right' centroid' count').fed := by
      intro x hx
      simp only [fed, List.mem_append, List.mem_cons] at hx ⊢
      tauto
    have hsubr : right.fed ++ right'.fed ⊆ (internal hash left right centroid count).fed ++
        (internal hash' left' right' centroid' count').fed := by
      intro x hx
      simp only [fed, List.mem_append, List.mem_cons] at hx ⊢
      tauto
    rcases hbl hhl with hleaves | hcol
    · rcases hbr hhr with hleaves' | hcol
      · left
        rw [collectLeaves, collectLeaves, List.map_append, List.map_append, hleaves, hleaves']
      · exact .inr (hcol.mono hsubr)
    · exact .inr (hcol.mono hsubl)
  · exact .inr hcol

/-- By induction on one tree, against a node of the other. -/
theorem binds_of_ne_twelve (hlen : ∀ x, (blake3 x).length = 32) (hd : d ≠ 12)
    {a b : MerkleNode β} (ha : a.Hashed blake3) (hb : b.Hashed blake3) (hda : a.HasDim d)
    (hdb : b.HasDim d) : Binds blake3 a b := by
  induction a generalizing b with
  | leaf xs id count hash =>
    have hxs : xs.length = d := hda _ List.mem_cons_self
    cases b with
    | leaf ys id' count' hash' =>
      have hys : ys.length = d := hdb _ List.mem_cons_self
      exact binds_leaves (hxs.trans hys.symm) ha hb
    | internal hash' left right centroid count' =>
      intro h
      exact .inr (collision_of_leaf_internal hlen (by omega) ha hb h)
  | internal hash left right centroid count ihl ihr =>
    obtain ⟨hdl, hdr⟩ := hasDim_internal.mp hda
    cases b with
    | leaf ys id' count' hash' =>
      have hys : ys.length = d := hdb _ List.mem_cons_self
      intro h
      have hcol := collision_of_leaf_internal hlen (by omega) hb ha h.symm
      exact .inr (hcol.mono List.perm_append_comm.subset)
    | internal hash' left' right' centroid' count' =>
      obtain ⟨hdl', hdr'⟩ := hasDim_internal.mp hdb
      exact binds_internals hlen ha hb (ihl ha.2.1 hb.2.1 hdl hdl') (ihr ha.2.2 hb.2.2 hdr hdr')

/-! ## Where it does not -/

/-- The leaf with this content, hashed. -/
def hashedLeaf (blake3 : Bytes → Bytes) (centroid : List β) (clusterId count : UInt64) :
    MerkleNode β :=
  .leaf centroid clusterId count (blake3 (leafBytes centroid count clusterId))

/-- The inner node over two nodes, hashed. -/
def hashedPair (blake3 : Bytes → Bytes) (left right : MerkleNode β) : MerkleNode β :=
  .internal (blake3 (left.hash ++ right.hash)) left right left.centroid (left.count + right.count)

omit [F32Bytes β] in
/-- The node over a leaf and itself, and a leaf whose bytes are that node's, have one
hash. The two strings that were hashed are different only if the leaf says so. -/
theorem not_binds_pair {xs ys : List β} {id count id' count' : UInt64}
    (hys : leafBytes ys count' id' =
      (hashedLeaf blake3 xs id count).hash ++ (hashedLeaf blake3 xs id count).hash)
    (hgood : leafBytes xs count id = leafBytes ys count' id' ∨
      blake3 (leafBytes xs count id) ≠ blake3 (leafBytes ys count' id')) :
    ¬ Binds blake3 (hashedPair blake3 (hashedLeaf blake3 xs id count)
      (hashedLeaf blake3 xs id count)) (hashedLeaf blake3 ys id' count') := by
  intro h
  have hroot : (hashedPair blake3 (hashedLeaf blake3 xs id count)
      (hashedLeaf blake3 xs id count)).hash = (hashedLeaf blake3 ys id' count').hash := by
    simp only [hashedPair, hashedLeaf, hash] at hys ⊢
    rw [hys]
  rcases h hroot with hleaves | ⟨x, hx, y, hy, hne, heq⟩
  · have hcount := congrArg List.length hleaves
    simp [hashedPair, hashedLeaf, collectLeaves] at hcount
  · have hmem : ∀ z ∈ (hashedPair blake3 (hashedLeaf blake3 xs id count)
        (hashedLeaf blake3 xs id count)).fed ++ (hashedLeaf blake3 ys id' count').fed,
        z = leafBytes xs count id ∨ z = leafBytes ys count' id' := by
      intro z hz
      rw [hys]
      simp only [hashedPair, hashedLeaf, fed, hash, List.mem_append, List.mem_cons,
        List.not_mem_nil, or_false] at hz hys ⊢
      rw [hys] at hz
      tauto
    rcases hmem x hx with rfl | rfl <;> rcases hmem y hy with rfl | rfl
    · exact hne rfl
    · exact hgood.elim hne fun hbytes => hbytes heq
    · exact hgood.elim (fun hbytes => hne hbytes.symm) fun hbytes => hbytes heq.symm
    · exact hne rfl

/-- In dimension 12 every hash function has two trees of one root hash, with different
leaves and no collision: a leaf whose bytes are a hash twice is the node over any leaf
with that hash, itself among them. -/
theorem not_binds_twelve (hlen : ∀ x, (blake3 x).length = 32) :
    ∃ a b : MerkleNode β, a.Hashed blake3 ∧ b.Hashed blake3 ∧ a.HasDim 12 ∧ b.HasDim 12 ∧
      ¬ Binds blake3 a b := by
  have twice : ∀ h : Bytes, h.length = 32 → ∃ (ys : List β) (count id : UInt64),
      ys.length = 12 ∧ leafBytes ys count id = h ++ h := by
    intro h hh
    exact leafBytes_onto 12 (by rw [List.length_append, hh])
  have pair : ∀ {xs ys : List β} {id count id' count' : UInt64}, xs.length = 12 → ys.length = 12 →
      leafBytes ys count' id' = blake3 (leafBytes xs count id) ++ blake3 (leafBytes xs count id) →
      (leafBytes xs count id = leafBytes ys count' id' ∨
        blake3 (leafBytes xs count id) ≠ blake3 (leafBytes ys count' id')) →
      ∃ a b : MerkleNode β, a.Hashed blake3 ∧ b.Hashed blake3 ∧ a.HasDim 12 ∧ b.HasDim 12 ∧
        ¬ Binds blake3 a b := by
    intro xs ys id count id' count' hxs hys hbytes hgood
    refine ⟨hashedPair blake3 (hashedLeaf blake3 xs id count) (hashedLeaf blake3 xs id count),
      hashedLeaf blake3 ys id' count', ⟨rfl, rfl, rfl⟩, rfl, ?_, ?_, not_binds_pair hbytes hgood⟩
    · intro leaf hleaf
      simp only [hashedPair, hashedLeaf, collectLeaves, List.mem_append, List.mem_cons,
        List.not_mem_nil, or_false, or_self] at hleaf
      rw [hleaf]
      exact hxs
    · intro leaf hleaf
      rw [List.mem_singleton.mp hleaf]
      exact hys
  obtain ⟨xs, count, id, hxs, -⟩ := twice (List.replicate 32 0) rfl
  obtain ⟨ys, count', id', hys, hbytes⟩ := twice _ (hlen (leafBytes xs count id))
  by_cases hsame : blake3 (leafBytes xs count id) = blake3 (leafBytes ys count' id')
  · exact pair hys hys (by rw [← hsame]; exact hbytes) (.inl rfl)
  · exact pair hxs hys hbytes (.inr hsame)

/-- The root hash binds the leaves in every dimension but 12. -/
theorem root_binds_iff (hlen : ∀ x, (blake3 x).length = 32) (d : Nat) :
    (∀ a b : MerkleNode β, a.Hashed blake3 → b.Hashed blake3 → a.HasDim d → b.HasDim d →
      Binds blake3 a b) ↔ d ≠ 12 := by
  constructor
  · rintro h rfl
    obtain ⟨a, b, ha, hb, hda, hdb, hnot⟩ := not_binds_twelve (β := β) hlen
    exact hnot (h a b ha hb hda hdb)
  · intro hd a b ha hb hda hdb
    exact binds_of_ne_twelve hlen hd ha hb hda hdb

/-! ## A small hash function -/

/-- The 32-byte blocks are added up. -/
def blockSum (bs : Bytes) : Bytes := leBytes 32 (leNat bs % (2 ^ 256 - 1))

theorem length_blockSum (bs : Bytes) : (blockSum bs).length = 32 := leBytes_length 32 _

theorem root_binds_blockSum : (∀ a b : MerkleNode Bits, a.Hashed blockSum → b.Hashed blockSum →
    a.HasDim 3 → b.HasDim 3 → Binds blockSum a b) ↔ 3 ≠ 12 :=
  root_binds_iff length_blockSum 3

/-- The leaf of a zero vector, and the leaf that has its hash twice as its bytes. -/
theorem root_forged : ¬ ∀ (d : Nat) (a b : MerkleNode Bits), a.Hashed blockSum →
    b.Hashed blockSum → a.HasDim d → b.HasDim d → Binds blockSum a b := by
  intro h
  have hbytes : leafBytes
      [⟨0⟩, ⟨0⟩, ⟨0⟩, ⟨0⟩, (⟨1⟩ : Bits), ⟨0⟩, ⟨1⟩, ⟨0⟩, ⟨0⟩, ⟨0⟩, ⟨0⟩, ⟨0⟩] 1 1 =
      (hashedLeaf blockSum (List.replicate 12 (⟨0⟩ : Bits)) 1 1).hash ++
        (hashedLeaf blockSum (List.replicate 12 (⟨0⟩ : Bits)) 1 1).hash := by
    decide +kernel
  refine not_binds_pair hbytes (.inr (by decide +kernel)) (h 12 _ _ ⟨rfl, rfl, rfl⟩ rfl ?_ ?_)
  · intro leaf hleaf
    simp only [hashedPair, hashedLeaf, collectLeaves, List.mem_append, List.mem_cons,
      List.not_mem_nil, or_false, or_self] at hleaf
    rw [hleaf]
    rfl
  · intro leaf hleaf
    rw [List.mem_singleton.mp hleaf]
    rfl

end Tesseract.L3.MerkleNode
