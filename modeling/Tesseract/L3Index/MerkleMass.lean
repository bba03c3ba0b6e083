import Tesseract.Core.Exact
import Tesseract.Core.Moments
import Tesseract.L3Index.MerkleTermination

/-!
# The mass of the centroids

A count times its centroid is the mass of a node. In exact arithmetic a vector that joins a
leaf adds itself to the mass, and a split moves one half of the leaf up and the other half
down by 1/100: the two cancel unless the count was odd.

* `Round.mass_eq`, `splitLoop_mass`: a split of an odd leaf takes 1/100 off.
* `updateLeaves_mass`, `mass_splitStart`: the vectors of a batch are added.
* `buildTree_averaged`: an inner node has the mass of the leaves below it.
* `mass_accounted`: so it is after any batches.
-/
namespace Tesseract.L3

open Endian

variable {K μ : Type} [Field K] [F32 K] {blake3 : Bytes → Bytes} {maxClusterSize : UInt64}

namespace MerkleNode

/-- The count times the component `d` of the centroid. -/
def massAt (d : Nat) (n : MerkleNode K) : K := n.size * n.centroid.getD d 0

/-- That of all the nodes. -/
def mass (d : Nat) (ns : List (MerkleNode K)) : K := (ns.map (massAt d)).sum

omit [F32 K] in
@[simp] theorem mass_nil (d : Nat) : mass d ([] : List (MerkleNode K)) = 0 := rfl

omit [F32 K] in
@[simp] theorem mass_cons (d : Nat) (n : MerkleNode K) (ns : List (MerkleNode K)) :
    mass d (n :: ns) = n.massAt d + mass d ns := by
  simp [mass]

omit [F32 K] in
@[simp] theorem mass_append (d : Nat) (ns ms : List (MerkleNode K)) :
    mass d (ns ++ ms) = mass d ns + mass d ms := by
  simp [mass]

omit [F32 K] in
theorem mass_perm (d : Nat) {ns ms : List (MerkleNode K)} (h : ns.Perm ms) :
    mass d ns = mass d ms := (h.map (massAt d)).sum_eq

omit [Field K] in
@[simp] theorem centroid_recomputeHash (n : MerkleNode K) :
    (n.recomputeHash blake3).centroid = n.centroid := by
  cases n <;> rfl

@[simp] theorem massAt_recomputeHash (d : Nat) (n : MerkleNode K) :
    (n.recomputeHash blake3).massAt d = n.massAt d := by
  simp [massAt]

theorem mass_map_recomputeHash (d : Nat) (ns : List (MerkleNode K)) :
    mass d (ns.map (recomputeHash blake3)) = mass d ns := by
  induction ns with
  | nil => rfl
  | cons n ns ih => rw [List.map_cons, mass_cons, mass_cons, ih, massAt_recomputeHash]

/-- All centroids are of dimension `dim`. -/
def Spans (dim : Nat) (ns : List (MerkleNode K)) : Prop := ∀ n ∈ ns, n.centroid.length = dim

/-- Every inner node has the mass of the leaves below it. -/
def Averaged (d : Nat) : MerkleNode K → Prop
  | .leaf _ _ _ _ => True
  | .internal hash left right centroid count =>
    massAt d (.internal hash left right centroid count) =
        mass d (left.collectLeaves ++ right.collectLeaves) ∧
      left.Averaged d ∧ right.Averaged d

omit [F32 K] in
theorem Averaged.massAt_eq {d : Nat} {n : MerkleNode K} (h : n.Averaged d) :
    n.massAt d = mass d n.collectLeaves := by
  cases n with
  | leaf centroid clusterId count hash => simp [collectLeaves]
  | internal hash left right centroid count => exact h.1

end MerkleNode

namespace MerkleTree

open MerkleNode

/-! ## Splits -/

/-- How many leaves of odd count a round splits. -/
def oddOver (maxClusterSize : UInt64) (ns : List (MerkleNode K)) : Nat :=
  ns.countP fun n => maxClusterSize < n.count ∧ n.size % 2 = 1

omit [Field K] [F32 K] in
theorem oddOver_cons (maxClusterSize : UInt64) (n : MerkleNode K) (ns : List (MerkleNode K)) :
    oddOver maxClusterSize (n :: ns) = oddOver maxClusterSize ns +
      if maxClusterSize < n.count ∧ n.size % 2 = 1 then 1 else 0 := by
  simp only [oddOver, List.countP_cons, decide_eq_true_eq]

/-- How many leaves of odd count the loop splits. -/
def oddSplits (blake3 : Bytes → Bytes) (maxClusterSize : UInt64) :
    Nat → List (MerkleNode K) → UInt64 → Nat
  | 0, _, _ => 0
  | fuel + 1, leaves, nextId =>
    let (leaves', nextId, split) := splitRound blake3 maxClusterSize leaves nextId
    oddOver maxClusterSize leaves +
      if split then oddSplits blake3 maxClusterSize fuel leaves' nextId else 0

variable [ExactF32 K]

theorem mass_halves {d : Nat} {centroid : List K} (count nextId : UInt64)
    (hd : d < centroid.length) :
    mass d (halves blake3 centroid count nextId) =
      count.toNat * centroid.getD d 0 - 1 / 100 * (count.toNat % 2 : Nat) := by
  obtain ⟨h₁, h₂⟩ := toNat_half count
  have hlow : (halves blake3 centroid count nextId).map size =
      [count.toNat / 2, count.toNat - count.toNat / 2] := by
    simp only [halves, recomputeHash, List.map_cons, List.map_nil, size, MerkleNode.count, h₁, h₂]
  have hhigh : count.toNat - count.toNat / 2 = count.toNat / 2 + count.toNat % 2 := by omega
  have hcount : (count.toNat : K) = 2 * (count.toNat / 2 : Nat) + (count.toNat % 2 : Nat) := by
    calc (count.toNat : K) = ((2 * (count.toNat / 2) + count.toNat % 2 : Nat) : K) := by
          rw [Nat.div_add_mod]
      _ = 2 * (count.toNat / 2 : Nat) + (count.toNat % 2 : Nat) := by push_cast; rfl
  simp only [halves, recomputeHash, mass_cons, mass_nil, massAt, size, MerkleNode.count,
    MerkleNode.centroid, splitCentroid, h₁, h₂, hhigh, List.getD_eq_getElem?_getD,
    List.getElem?_map, List.getElem?_eq_getElem hd, Option.map_some, Option.getD_some,
    ExactF32.add, ExactF32.sub, ExactF32.centi, hcount, Nat.cast_add]
  ring

omit [Field K] [ExactF32 K] in
theorem spans_halves {dim : Nat} {centroid : List K} (count nextId : UInt64)
    (h : centroid.length = dim) : Spans dim (halves blake3 centroid count nextId) := by
  intro n hn
  simp only [halves, List.mem_cons, List.not_mem_nil, or_false] at hn
  rcases hn with rfl | rfl
  · rw [centroid_recomputeHash]
    exact (List.length_map _).trans h
  · rw [centroid_recomputeHash]
    exact (List.length_map _).trans h

namespace Round

variable {ns out : List (MerkleNode K)} {nextId nextId' : UInt64} {split : Bool} {dim : Nat}

omit [Field K] [ExactF32 K] in
theorem spans (h : Round blake3 maxClusterSize ns nextId out nextId' split)
    (hns : Spans dim ns) : Spans dim out := by
  induction h with
  | nil nextId => exact hns
  | @halved n rest out nextId nextId' split _ _ _ ih =>
    intro m hm
    rcases List.mem_append.mp hm with hm | hm
    · exact spans_halves n.count nextId (hns n List.mem_cons_self) m hm
    · exact ih (fun x hx => hns x (List.mem_cons_of_mem n hx)) m hm
  | @kept n rest out nextId nextId' split _ _ _ ih =>
    intro m hm
    rcases List.mem_cons.mp hm with rfl | hm
    · exact hns m List.mem_cons_self
    · exact ih (fun x hx => hns x (List.mem_cons_of_mem n hx)) m hm

/-- Each split of a leaf of odd count takes 1/100 off the mass. -/
theorem mass_eq {d : Nat} (h : Round blake3 maxClusterSize ns nextId out nextId' split)
    (hns : Spans dim ns) (hd : d < dim) :
    mass d out = mass d ns - 1 / 100 * (oddOver maxClusterSize ns : Nat) := by
  induction h with
  | nil nextId => simp [oddOver]
  | @halved n rest out nextId nextId' split _ hover _ ih =>
    have hn : d < n.centroid.length := by
      rw [hns n List.mem_cons_self]
      exact hd
    have hodd : (if maxClusterSize < n.count ∧ n.size % 2 = 1 then 1 else 0) =
        n.count.toNat % 2 := by
      have hsize : n.size = n.count.toNat := rfl
      simp only [hsize, hover, true_and]
      split
      · omega
      · omega
    rw [mass_append, mass_halves n.count nextId hn,
      ih fun x hx => hns x (List.mem_cons_of_mem n hx), oddOver_cons, hodd, mass_cons, massAt, size]
    push_cast
    ring
  | @kept n rest out nextId nextId' split _ hle _ ih =>
    have hnot : ¬ (maxClusterSize < n.count ∧ n.size % 2 = 1) := by
      intro h
      exact UInt64.not_lt.mpr hle h.1
    rw [mass_cons, mass_cons, ih fun x hx => hns x (List.mem_cons_of_mem n hx), oddOver_cons,
      if_neg hnot, Nat.add_zero]
    ring

end Round

theorem splitLoop_mass {fuel dim : Nat} {ns out : List (MerkleNode K)} {nextId nextId' : UInt64}
    (hleaf : ∀ n ∈ ns, n.IsLeaf) (hns : Spans dim ns)
    (hrun : splitLoop blake3 maxClusterSize fuel ns nextId = some (out, nextId')) :
    Spans dim out ∧ ∀ d < dim, mass d out =
      mass d ns - 1 / 100 * (oddSplits blake3 maxClusterSize fuel ns nextId : Nat) := by
  induction fuel generalizing ns nextId with
  | zero => cases hrun
  | succ fuel ih =>
    have hround := round_splitRound blake3 maxClusterSize hleaf nextId
    unfold splitLoop at hrun
    unfold oddSplits
    cases hsplit : (splitRound blake3 maxClusterSize ns nextId).2.2 with
    | false =>
      simp only [hsplit, Bool.false_eq_true, if_false, Option.some.injEq, Prod.mk.injEq] at hrun ⊢
      rw [← hrun.1, Nat.add_zero]
      exact ⟨hround.spans hns, fun d hd => hround.mass_eq hns hd⟩
    | true =>
      simp only [hsplit, if_true] at hrun ⊢
      obtain ⟨hspans, hout⟩ := ih hround.isLeaf (hround.spans hns) hrun
      refine ⟨hspans, fun d hd => ?_⟩
      rw [hout d hd, hround.mass_eq hns hd]
      push_cast
      ring

/-! ## Vectors -/

omit [Field K] [ExactF32 K] in
theorem length_addSum (sum vector : List K) : (addSum sum vector).length = sum.length := by
  fun_induction addSum sum vector with
  | case1 s sum x vector ih => rw [List.length_cons, List.length_cons, ih]
  | case2 sum vector h => rfl

theorem getD_addSum {sum vector : List K} (d : Nat) (h : sum.length = vector.length) :
    (addSum sum vector).getD d 0 = sum.getD d 0 + vector.getD d 0 := by
  induction sum generalizing vector d with
  | nil =>
    rw [List.eq_nil_of_length_eq_zero h.symm]
    simp [addSum]
  | cons s sum ih =>
    cases vector with
    | nil => cases h
    | cons x vector =>
      cases d with
      | zero => simp [addSum]
      | succ d => simpa [addSum] using ih d (Nat.succ.inj h)

theorem getD_replicate_zero (dim d : Nat) :
    (List.replicate dim (F32.zero : K)).getD d 0 = 0 := by
  rw [List.getD_eq_getElem?_getD, List.getElem?_replicate]
  split
  · exact ExactF32.zero
  · rfl

omit [Field K] [ExactF32 K] in
theorem length_shiftCentroid (old total : UInt64) (centroid sum : List K) :
    (shiftCentroid old total centroid sum).length = centroid.length := by
  fun_induction shiftCentroid old total centroid sum with
  | case1 c centroid s sum ih => rw [List.length_cons, List.length_cons, ih]
  | case2 centroid sum h => rfl

theorem getD_shiftCentroid (old total : UInt64) {centroid sum : List K} (d : Nat)
    (h : centroid.length = sum.length) :
    (shiftCentroid old total centroid sum).getD d 0 =
      (centroid.getD d 0 * old.toNat + sum.getD d 0) / total.toNat := by
  induction centroid generalizing sum d with
  | nil =>
    rw [List.eq_nil_of_length_eq_zero h.symm]
    simp [shiftCentroid]
  | cons c centroid ih =>
    cases sum with
    | nil => cases h
    | cons s sum =>
      cases d with
      | zero => simp [shiftCentroid]
      | succ d => simpa [shiftCentroid] using ih d (Nat.succ.inj h)

/-- What phase 1 summed up for a leaf, in component `d`. -/
def sumFor (sums : AList fun _ : UInt64 => List K) (d : Nat) (n : MerkleNode K) : K :=
  ((n.clusterId.bind sums.lookup).getD []).getD d 0

/-- The sums are of dimension `dim`, and for ids with additions only. -/
structure Collected (dim : Nat) (additions : AList fun _ : UInt64 => UInt64)
    (sums : AList fun _ : UInt64 => List K) : Prop where
  length : ∀ id s, sums.lookup id = some s → s.length = dim
  counted : ∀ id, (sums.lookup id).isSome → (additions.lookup id).isSome

namespace Collected

variable {dim : Nat} {additions : AList fun _ : UInt64 => UInt64}
  {sums : AList fun _ : UInt64 => List K}

omit [Field K] [F32 K] [ExactF32 K] in
theorem empty : Collected (K := K) dim ∅ ∅ where
  length id s hs := by cases hs
  counted id hs := by cases hs

omit [Field K] [ExactF32 K] in
theorem insert (h : Collected dim additions sums) (id added : UInt64) (v : List K) :
    Collected dim (additions.insert id added)
      (sums.insert id (addSum ((sums.lookup id).getD (List.replicate dim F32.zero)) v)) where
  length other s hs := by
    rw [Assoc.lookup_insert_eq] at hs
    split at hs
    · rw [← Option.some.inj hs, length_addSum]
      cases hold : sums.lookup id with
      | none => simp
      | some old => exact h.length id old hold
    · exact h.length other s hs
  counted other hsome := by
    rw [Assoc.lookup_insert_eq] at hsome ⊢
    split
    · rfl
    · next hne =>
      rw [if_neg hne] at hsome
      exact h.counted other hsome

omit [Field K] [F32 K] [ExactF32 K] in
theorem erase (h : Collected dim additions sums) (id : UInt64) :
    Collected dim additions (sums.erase id) where
  length other s hs := by
    by_cases heq : other = id
    · rw [heq, AList.lookup_erase] at hs
      cases hs
    · rw [AList.lookup_erase_ne heq] at hs
      exact h.length other s hs
  counted other hsome := by
    by_cases heq : other = id
    · rw [heq, AList.lookup_erase] at hsome
      cases hsome
    · rw [AList.lookup_erase_ne heq] at hsome
      exact h.counted other hsome

omit [Field K] [F32 K] [ExactF32 K] in
theorem lookup_eq_none (h : Collected dim additions sums) {id : UInt64}
    (hadd : additions.lookup id = none) : sums.lookup id = none := by
  by_contra hsome
  have hsome' := h.counted id (Option.isSome_iff_ne_none.mpr hsome)
  rw [hadd] at hsome'
  cases hsome'

end Collected

/-- Over leaves each vector is added to the sum for one of them. -/
theorem foldl_assign_sums {leaves : List (MerkleNode K)} {d dim : Nat} {vectors : List (List K)}
    {a : Assigned K} (hne : leaves ≠ []) (hleaf : ∀ n ∈ leaves, n.IsLeaf)
    (hnodup : (leaves.map key).Nodup) (hdim : ∀ v ∈ vectors, v.length = dim)
    (ha : Collected dim a.clusterAdditions a.clusterSums) :
    (leaves.map (sumFor (vectors.foldl (assign leaves dim) a).clusterSums d)).sum =
        (leaves.map (sumFor a.clusterSums d)).sum + total d vectors ∧
      Collected dim (vectors.foldl (assign leaves dim) a).clusterAdditions
        (vectors.foldl (assign leaves dim) a).clusterSums := by
  induction vectors generalizing a with
  | nil => exact ⟨(add_zero _).symm, ha⟩
  | cons v vectors ih =>
    obtain ⟨n, hn, id, hid, hv⟩ := assign_near hne hleaf (hdim v List.mem_cons_self) a
    have hstep : Collected dim (assign leaves dim a v).clusterAdditions
        (assign leaves dim a v).clusterSums := by
      rw [hv]
      exact ha.insert id _ v
    have hsum : (leaves.map (sumFor (assign leaves dim a v).clusterSums d)).sum =
        (leaves.map (sumFor a.clusterSums d)).sum + v.getD d 0 := by
      rw [hv]
      refine sum_map_add hn hnodup.of_map ?_ ?_
      · simp only [sumFor, hid, Option.bind_some, AList.lookup_insert, Option.getD_some]
        cases hold : a.clusterSums.lookup id with
        | none =>
          rw [Option.getD_none, getD_addSum d (by simp [hdim v List.mem_cons_self]),
            getD_replicate_zero]
          rfl
        | some old =>
          rw [Option.getD_some, getD_addSum d
            (by rw [ha.length id old hold, hdim v List.mem_cons_self])]
          rfl
      · intro m hm hmn
        rw [sumFor, sumFor, bind_lookup_insert_ne (clusterId_ne hnodup hn hm hid hmn)]
    obtain ⟨hrest, hout⟩ := ih (a := assign leaves dim a v)
      (fun w hw => hdim w (List.mem_cons_of_mem v hw)) hstep
    rw [List.foldl_cons]
    refine ⟨?_, hout⟩
    rw [hrest, hsum, total, total, List.map_cons, List.sum_cons, add_assoc]

omit [F32 K] [ExactF32 K] in
theorem sumFor_erase {sums : AList fun _ : UInt64 => List K} {d : Nat} {n : MerkleNode K}
    {id : UInt64} (hne : n.clusterId ≠ some id) : sumFor (sums.erase id) d n = sumFor sums d n := by
  unfold sumFor
  cases hid : n.clusterId with
  | none => rfl
  | some other =>
    rw [hid] at hne
    rw [Option.bind_some, Option.bind_some,
      AList.lookup_erase_ne fun heq => hne (congrArg some heq)]

theorem massAt_shiftCentroid [CharZero K] {centroid sum : List K} {count added id : UInt64}
    {hash : Bytes} (d : Nat) (hpos : 1 ≤ count.toNat)
    (hroom : count.toNat + added.toNat < 2 ^ 64) (hlen : centroid.length = sum.length) :
    massAt d (.leaf (shiftCentroid count (count + added) centroid sum) id (count + added) hash) =
      massAt d (.leaf centroid id count hash) + sum.getD d 0 := by
  have htotal : (count + added).toNat = count.toNat + added.toNat := by
    rw [UInt64.toNat_add, Nat.mod_eq_of_lt hroom]
  have hne : ((count.toNat + added.toNat : Nat) : K) ≠ 0 := by
    rw [Nat.cast_ne_zero]
    omega
  simp only [massAt, size, MerkleNode.count, MerkleNode.centroid, getD_shiftCentroid _ _ d hlen,
    htotal]
  rw [mul_div_cancel₀ _ hne, mul_comm]

/-- The update adds its sum to the mass of a leaf, and leaves those of the others behind. -/
theorem updateLeaves_head [CharZero K] {additions : AList fun _ : UInt64 => UInt64}
    {n : MerkleNode K} {rest out : List (MerkleNode K)} {sums : AList fun _ : UInt64 => List K}
    {d dim : Nat} (hleaf : n.IsLeaf) (hn : n.centroid.length = dim)
    (hsums : Collected dim additions sums) (hpos : 1 ≤ n.size)
    (hroom : n.size + addedTo additions n < 2 ^ 64)
    (hother : ∀ m ∈ rest, ∀ id, n.clusterId = some id → m.clusterId ≠ some id)
    (h : updateLeaves additions (n :: rest) sums = some out) :
    ∃ head outRest sums', out = head :: outRest ∧
      updateLeaves additions rest sums' = some outRest ∧ Collected dim additions sums' ∧
      rest.map (sumFor sums' d) = rest.map (sumFor sums d) ∧
      head.massAt d = n.massAt d + sumFor sums d n ∧ head.centroid.length = dim := by
  cases n with
  | internal hash left right centroid count => cases hleaf
  | leaf centroid clusterId count hash =>
    have hsum : ∀ s, sums.lookup clusterId = s →
        sumFor sums d (.leaf centroid clusterId count hash) = (s.getD []).getD d 0 := by
      rintro s rfl
      rfl
    cases hadd : additions.lookup clusterId with
    | none =>
      simp only [updateLeaves, hadd, Option.bind_eq_bind, Option.bind_eq_some_iff,
        Option.some.injEq] at h
      obtain ⟨outRest, hout, rfl⟩ := h
      refine ⟨_, outRest, sums, rfl, hout, hsums, rfl, ?_, hn⟩
      rw [hsum none (hsums.lookup_eq_none hadd)]
      simp
    | some added =>
      simp only [updateLeaves, hadd, Option.bind_eq_bind, Option.bind_eq_some_iff,
        Option.some.injEq] at h
      obtain ⟨sum, hlookup, outRest, hout, rfl⟩ := h
      have hlength : centroid.length = sum.length :=
        hn.trans (hsums.length clusterId sum hlookup).symm
      have hroom' : count.toNat + added.toNat < 2 ^ 64 := by
        simpa [addedTo, MerkleNode.clusterId, hadd, size, MerkleNode.count] using hroom
      refine ⟨_, outRest, sums.erase clusterId, rfl, hout, hsums.erase clusterId, ?_, ?_,
        (length_shiftCentroid _ _ _ _).trans hn⟩
      · exact List.map_congr_left fun m hm => sumFor_erase (hother m hm clusterId rfl)
      · rw [hsum (some sum) hlookup, Option.getD_some]
        exact massAt_shiftCentroid d hpos hroom' hlength

/-- The update adds the sums to the mass. -/
theorem updateLeaves_mass [CharZero K] {additions : AList fun _ : UInt64 => UInt64}
    {ns out : List (MerkleNode K)} {sums : AList fun _ : UInt64 => List K} {d dim : Nat}
    (hleaf : ∀ n ∈ ns, n.IsLeaf) (hspans : Spans dim ns) (hnodup : (ns.map key).Nodup)
    (hsums : Collected dim additions sums) (hpos : ∀ n ∈ ns, 1 ≤ n.size)
    (hroom : totalSize ns + (ns.map (addedTo additions)).sum < 2 ^ 64)
    (h : updateLeaves additions ns sums = some out) :
    mass d out = mass d ns + (ns.map (sumFor sums d)).sum ∧ Spans dim out := by
  induction ns generalizing sums out with
  | nil =>
    cases h
    exact ⟨(add_zero _).symm, hspans⟩
  | cons n rest ih =>
    have hspans' : Spans dim rest := fun m hm => hspans m (List.mem_cons_of_mem n hm)
    have hother : ∀ m ∈ rest, ∀ id, n.clusterId = some id → m.clusterId ≠ some id := by
      intro m hm id hid
      refine clusterId_ne hnodup List.mem_cons_self (List.mem_cons_of_mem n hm) hid ?_
      rintro rfl
      exact (List.nodup_cons.mp hnodup).1 (List.mem_map_of_mem hm)
    rw [totalSize_cons, List.map_cons, List.sum_cons] at hroom
    rw [List.map_cons, List.nodup_cons] at hnodup
    obtain ⟨head, outRest, sums', rfl, hout, hsums', hsame, hhead, hlength⟩ :=
      updateLeaves_head (d := d) (hleaf n List.mem_cons_self) (hspans n List.mem_cons_self) hsums
        (hpos n List.mem_cons_self) (by omega) hother h
    obtain ⟨hmass, hrest⟩ := ih (fun m hm => hleaf m (List.mem_cons_of_mem n hm)) hspans' hnodup.2
      hsums' (fun m hm => hpos m (List.mem_cons_of_mem n hm)) (by omega) hout
    refine ⟨?_, List.forall_mem_cons.mpr ⟨hlength, hrest⟩⟩
    rw [mass_cons, mass_cons, hmass, hhead, hsame, List.map_cons, List.sum_cons]
    ring

omit [F32 K] [ExactF32 K] in
theorem mass_freshLeaves (d : Nat) (vectors : List (List K)) (id : UInt64) :
    mass d (freshLeaves vectors id) = total d vectors := by
  induction vectors generalizing id with
  | nil => rfl
  | cons v vectors ih =>
    rw [freshLeaves, mass_cons, ih, total, total, List.map_cons, List.sum_cons]
    simp [massAt, size, MerkleNode.count, MerkleNode.centroid]

omit [Field K] [F32 K] [ExactF32 K] in
theorem spans_freshLeaves {dim : Nat} {vectors : List (List K)} (id : UInt64)
    (hdim : ∀ v ∈ vectors, v.length = dim) : Spans dim (freshLeaves vectors id) := by
  induction vectors generalizing id with
  | nil => exact fun n hn => nomatch hn
  | cons v vectors ih =>
    exact List.forall_mem_cons.mpr ⟨hdim v List.mem_cons_self,
      ih (id + 1) fun w hw => hdim w (List.mem_cons_of_mem v hw)⟩

omit [Field K] [ExactF32 K] in
theorem spans_map_recomputeHash {dim : Nat} {ns : List (MerkleNode K)} (h : Spans dim ns) :
    Spans dim (ns.map (recomputeHash blake3)) := by
  intro n hn
  obtain ⟨m, hm, rfl⟩ := List.mem_map.mp hn
  rw [centroid_recomputeHash]
  exact h m hm

/-- The vectors of a batch are added to the mass of the leaves. -/
theorem WellFormed.mass_splitStart [CharZero K] {t : MerkleTree K} {inserted d dim : Nat}
    {batch : List (BufferedVector K μ)} {ns : List (MerkleNode K)} {nextId : UInt64}
    (h : t.WellFormed blake3 inserted) (hspans : Spans dim t.leaves)
    (hdim : ∀ bv ∈ batch, bv.vector.length = dim) (hcount : inserted + batch.length < 2 ^ 64)
    (hstart : t.splitStart blake3 batch = some (ns, nextId)) :
    mass d ns = mass d t.leaves + total d (batch.map BufferedVector.vector) ∧ Spans dim ns := by
  obtain ⟨first, rest, updated, rfl, hupdated, rfl⟩ := splitStart_eq_some hstart
  have hvectors : ∀ v ∈ (first :: rest).map BufferedVector.vector, v.length = dim := by
    intro v hv
    obtain ⟨bv, hbv, rfl⟩ := List.mem_map.mp hv
    exact hdim bv hbv
  rw [hdim first List.mem_cons_self] at hupdated ⊢
  rw [← List.length_map BufferedVector.vector] at hcount
  generalize (first :: rest).map BufferedVector.vector = vectors at *
  rw [MerkleTree.grown, mass_map_recomputeHash, mass_append]
  by_cases hempty : t.leaves = []
  · -- each vector starts a cluster
    rw [assigned, hempty, foldl_assign_nil _ hvectors] at hupdated ⊢
    cases hupdated
    refine ⟨?_, spans_map_recomputeHash (spans_freshLeaves _ hvectors)⟩
    rw [List.nil_append, mass_freshLeaves]
  · -- each vector joins one
    have hleaf : ∀ n ∈ t.leaves, n.IsLeaf := fun n hn => isLeaf_of_mem_leaves hn
    have hsize := h.totalSize_leaves
    obtain ⟨hnew, -, hadded⟩ := foldl_assign (a := ⟨[], ∅, ∅, t.nextClusterId⟩) hempty hleaf
      h.clusters.nodup hvectors (by rw [sum_addedTo_empty]; omega)
    rw [sum_addedTo_empty, Nat.zero_add] at hadded
    obtain ⟨hsums, hcollected⟩ := foldl_assign_sums (a := ⟨[], ∅, ∅, t.nextClusterId⟩) (d := d)
      hempty hleaf h.clusters.nodup hvectors .empty
    obtain ⟨hmass, hout⟩ := updateLeaves_mass (d := d) hleaf hspans h.clusters.nodup hcollected
      (fun n hn => (h.clusters.cluster n hn).pos) (by rw [hadded]; omega) hupdated
    have hzero : (t.leaves.map (sumFor (∅ : AList fun _ : UInt64 => List K) d)).sum = 0 := by
      refine List.sum_eq_zero ?_
      intro x hx
      obtain ⟨n, -, rfl⟩ := List.mem_map.mp hx
      unfold sumFor
      cases n.clusterId <;> rfl
    rw [assigned, hnew, mass_nil, add_zero, List.append_nil]
    refine ⟨?_, spans_map_recomputeHash hout⟩
    rw [hmass, hsums, hzero, zero_add]

/-! ## The tree -/

omit [F32 K] [ExactF32 K] in
/-- The mass of the weighted average of two centroids. -/
theorem weighted_mul [CharZero K] (a b : Nat) (x y : K) :
    ((a + b : Nat) : K) * ((x * a + y * b) / ((a + b : Nat) : K)) = a * x + b * y := by
  by_cases hzero : a + b = 0
  · obtain ⟨rfl, rfl⟩ := Nat.add_eq_zero_iff.mp hzero
    simp
  · rw [mul_div_cancel₀ _ (Nat.cast_ne_zero.mpr hzero)]
    ring

theorem pairUp_averaged [CharZero K] (blake3 : Bytes → Bytes) {d dim : Nat}
    {nodes : List (MerkleNode K)} (htotal : totalSize nodes < 2 ^ 64) (hd : d < dim)
    (hspans : Spans dim nodes) (hn : ∀ n ∈ nodes, n.Averaged d) :
    Spans dim (pairUp blake3 nodes) ∧ ∀ n ∈ pairUp blake3 nodes, n.Averaged d := by
  fun_induction pairUp blake3 nodes with
  | case1 left right rest ih =>
    have hleft := hspans left (by simp)
    have hright := hspans right (by simp)
    simp only [totalSize_cons] at htotal
    obtain ⟨hspans', hn'⟩ := ih (by omega) (fun m hm => hspans m (by simp [hm]))
      fun m hm => hn m (by simp [hm])
    have hcount : (left.count + right.count).toNat = left.size + right.size := by
      unfold size at htotal ⊢
      rw [UInt64.toNat_add]
      omega
    have hcentroid : (weightedAverage left.centroid left.count right.centroid
        right.count).getD d 0 = (left.centroid.getD d 0 * left.size +
          right.centroid.getD d 0 * right.size) / ((left.size + right.size : Nat) : K) := by
      have hl : d < left.centroid.length := by omega
      have hr : d < right.centroid.length := by omega
      simp only [weightedAverage, List.getD_eq_getElem?_getD, List.getElem?_zipWith,
        List.getElem?_eq_getElem hl, List.getElem?_eq_getElem hr, Option.getD_some, hcount,
        ExactF32.add, ExactF32.mul, ExactF32.div, ExactF32.ofNat]
      rfl
    constructor
    · refine List.forall_mem_cons.mpr ⟨?_, hspans'⟩
      rw [centroid_recomputeHash]
      show (weightedAverage _ _ _ _).length = dim
      simp [weightedAverage, hleft, hright]
    · refine List.forall_mem_cons.mpr ⟨⟨?_, hn left (by simp), hn right (by simp)⟩, hn'⟩
      rw [mass_append, ← (hn left (by simp)).massAt_eq, ← (hn right (by simp)).massAt_eq]
      simp only [massAt, size, MerkleNode.count, MerkleNode.centroid] at hcentroid hcount ⊢
      rw [hcentroid, hcount, weighted_mul]
  | case2 nodes h => exact ⟨hspans, hn⟩

theorem buildLevels_averaged [CharZero K] {fuel d dim : Nat} {nodes : List (MerkleNode K)}
    {root : MerkleNode K} (htotal : totalSize nodes < 2 ^ 64) (hd : d < dim)
    (hspans : Spans dim nodes) (hn : ∀ n ∈ nodes, n.Averaged d)
    (hroot : buildLevels blake3 fuel nodes = some root) : root.Averaged d := by
  induction fuel generalizing nodes with
  | zero => exact hn root (List.mem_of_mem_head? hroot)
  | succ fuel ih =>
    unfold buildLevels at hroot
    split at hroot
    · obtain ⟨hspans', hn'⟩ := pairUp_averaged blake3 htotal hd hspans hn
      exact ih (by rw [pairUp_totalSize htotal]; exact htotal) hspans' hn' hroot
    · exact hn root (List.mem_of_mem_head? hroot)

/-- The inner nodes of the tree over leaves have their mass. -/
theorem buildTree_averaged [CharZero K] {d dim : Nat} {ns : List (MerkleNode K)}
    {root : MerkleNode K} (hleaf : ∀ n ∈ ns, n.IsLeaf) (htotal : totalSize ns < 2 ^ 64)
    (hd : d < dim) (hspans : Spans dim ns) (hroot : buildTree blake3 ns = some root) :
    root.Averaged d := by
  have hperm := List.perm_insertionSort (fun a b : MerkleNode K => a.key ≤ b.key) ns
  rw [buildTree_eq] at hroot
  have htotal' : totalSize (ns.insertionSort fun a b => a.key ≤ b.key) = totalSize ns :=
    (hperm.map size).sum_nat
  refine buildLevels_averaged (by omega) hd (fun n hn => hspans n (hperm.mem_iff.mp hn)) ?_ hroot
  intro n hn
  have hn' := hleaf n (hperm.mem_iff.mp hn)
  cases n with
  | leaf centroid clusterId count hash => trivial
  | internal hash left right centroid count => cases hn'

omit [Field K] [ExactF32 K] in
theorem leaves_perm {ns : List (MerkleNode K)} {nextId : UInt64} (hleaf : ∀ n ∈ ns, n.IsLeaf) :
    (⟨buildTree blake3 ns, nextId, maxClusterSize⟩ : MerkleTree K).leaves.Perm ns := by
  by_cases hne : ns = []
  · rw [hne]
    exact .nil
  · obtain ⟨root, hroot, hleaves⟩ := buildTree_leaves blake3 hne hleaf
    rw [leaves, hroot, Option.map_some, Option.getD_some, hleaves]
    exact List.perm_insertionSort _ ns

/-! ## Runs -/

/-- How many leaves of odd count a batch splits. -/
def splitsOdd (blake3 : Bytes → Bytes) (t : MerkleTree K) (batch : List (BufferedVector K μ)) :
    Nat :=
  ((t.splitStart blake3 batch).map fun p =>
    oddSplits blake3 t.maxClusterSize 65 p.1 p.2).getD 0

/-- Batch after batch, with the number of leaves of odd count that were split. -/
def insertBatches (blake3 : Bytes → Bytes) :
    MerkleTree K → List (List (BufferedVector K μ)) → Option (MerkleTree K × Nat)
  | t, [] => some (t, 0)
  | t, batch :: batches => do
    let t' ← t.insertBatch blake3 batch
    let (last, odd) ← insertBatches blake3 t' batches
    some (last, t.splitsOdd blake3 batch + odd)

/-- A tree with these vectors in it, behind `odd` splits of leaves of odd count. -/
structure Balanced (dim : Nat) (vectors : List (List K)) (odd : Nat) (t : MerkleTree K) :
    Prop where
  spans : Spans dim t.leaves
  mass : ∀ d < dim, mass d t.leaves = total d vectors - 1 / 100 * odd
  averaged : ∀ d < dim, ∀ root, t.root = some root → root.Averaged d

omit [F32 K] [ExactF32 K] in
theorem Balanced.new (dim : Nat) (maxClusterSize : UInt64) :
    Balanced dim [] 0 (new (β := K) maxClusterSize) where
  spans n hn := by cases hn
  mass d _ := by simp [MerkleTree.new, leaves, total]
  averaged d _ root hroot := by cases hroot

/-- One batch adds its vectors and takes 1/100 off for each split of an odd leaf. -/
theorem Balanced.insertBatch [CharZero K] {t t' : MerkleTree K} {inserted dim odd : Nat}
    {vectors : List (List K)} {batch : List (BufferedVector K μ)}
    (h : t.Balanced dim vectors odd) (hwf : t.WellFormed blake3 inserted)
    (hdim : ∀ bv ∈ batch, bv.vector.length = dim) (hcount : inserted + batch.length < 2 ^ 64)
    (hrun : t.insertBatch blake3 batch = some t')
    (hwf' : t'.WellFormed blake3 (inserted + batch.length)) :
    t'.Balanced dim (vectors ++ batch.map BufferedVector.vector)
      (odd + t.splitsOdd blake3 batch) := by
  by_cases hne : batch = []
  · subst hne
    cases hrun
    rw [List.map_nil, List.append_nil]
    exact h
  · rw [insertBatch_splitStart t hne] at hrun
    simp only [Option.bind_eq_some_iff, Option.some.injEq] at hrun
    obtain ⟨⟨ns, nextId⟩, hstart, ⟨out, nextId'⟩, hloop, rfl⟩ := hrun
    have hleaf := splitStart_isLeaf hstart
    have hout := (splitLoop_leaves hleaf hloop).2
    have hperm : (⟨buildTree blake3 out, nextId', t.maxClusterSize⟩ : MerkleTree K).leaves.Perm
        out := leaves_perm hout
    have htotal : totalSize out < 2 ^ 64 := by
      rw [← hwf'.totalSize_leaves] at hcount
      have hsame : totalSize _ = totalSize out := (hperm.map size).sum_nat
      rw [← hsame]
      exact hcount
    have hodd : t.splitsOdd blake3 batch = oddSplits blake3 t.maxClusterSize 65 ns nextId := by
      rw [splitsOdd, hstart]
      rfl
    obtain ⟨-, hspans⟩ := hwf.mass_splitStart (d := 0) h.spans hdim hcount hstart
    obtain ⟨hspans', hsplit⟩ := splitLoop_mass hleaf hspans hloop
    constructor
    · intro n hn
      exact hspans' n (hperm.mem_iff.mp hn)
    · intro d hd
      obtain ⟨hmass, -⟩ := hwf.mass_splitStart (d := d) h.spans hdim hcount hstart
      rw [mass_perm d hperm, hsplit d hd, hmass, h.mass d hd, hodd, total, total, total,
        List.map_append, List.sum_append]
      push_cast
      ring
    · intro d hd root hroot
      exact buildTree_averaged hout htotal hd hspans' hroot

/-- From a well-formed tree, any batches. -/
theorem Balanced.insertBatches [CharZero K] {t : MerkleTree K} {inserted dim odd : Nat}
    {vectors : List (List K)} {batches : List (List (BufferedVector K μ))}
    (h : t.Balanced dim vectors odd) (hmax : 1 ≤ t.maxClusterSize)
    (hwf : t.WellFormed blake3 inserted) (hsparse : t.Sparse)
    (hdim : ∀ batch ∈ batches, ∀ bv ∈ batch, bv.vector.length = dim)
    (hcount : inserted + batches.flatten.length < 2 ^ 63) :
    ∃ t' more, t.insertBatches blake3 batches = some (t', more) ∧
      t'.Balanced dim (vectors ++ batches.flatten.map BufferedVector.vector) (odd + more) := by
  induction batches generalizing t inserted odd vectors with
  | nil =>
    refine ⟨t, 0, rfl, ?_⟩
    rw [List.flatten_nil, List.map_nil, List.append_nil]
    exact h
  | cons batch batches ih =>
    obtain ⟨hbatch, hrest⟩ := List.forall_mem_cons.mp hdim
    rw [List.flatten_cons, List.length_append] at hcount
    obtain ⟨t', hrun⟩ := Option.isSome_iff_exists.mp (insertBatch_isSome hmax hwf batch)
    obtain ⟨hwf', hsparse', hsame⟩ := hwf.insertBatch_sparse hmax hsparse hbatch (by omega) hrun
    have hbalanced := h.insertBatch hwf hbatch (by omega) hrun hwf'
    obtain ⟨last, more, hlast, hfinal⟩ := ih hbalanced (by rw [hsame]; exact hmax) hwf' hsparse'
      hrest (by omega)
    refine ⟨last, t.splitsOdd blake3 batch + more, ?_, ?_⟩
    · simp [MerkleTree.insertBatches, hrun, hlast]
    · rw [List.flatten_cons, List.map_append, ← List.append_assoc, ← Nat.add_assoc]
      exact hfinal

/-- After any batches of vectors of one dimension the leaves hold the sum of all vectors, less
1/100 in each component for each split of a leaf of odd count. -/
theorem mass_accounted [CharZero K] {maxClusterSize : UInt64} {dim : Nat}
    {batches : List (List (BufferedVector K μ))} (hmax : 1 ≤ maxClusterSize)
    (hdim : ∀ batch ∈ batches, ∀ bv ∈ batch, bv.vector.length = dim)
    (hcount : batches.flatten.length < 2 ^ 63) :
    ∃ t odd, (MerkleTree.new maxClusterSize).insertBatches blake3 batches = some (t, odd) ∧
      t.Balanced dim (batches.flatten.map BufferedVector.vector) odd := by
  have hsparse : (MerkleTree.new (β := K) maxClusterSize).Sparse := Nat.le_refl 1
  obtain ⟨t, odd, hrun, hbalanced⟩ := (Balanced.new dim maxClusterSize).insertBatches hmax
    (WellFormed.new maxClusterSize) hsparse hdim (by omega)
  rw [List.nil_append, Nat.zero_add] at hbalanced
  exact ⟨t, odd, hrun, hbalanced⟩

/-- Three vectors, and then one more, with clusters of at most two. -/
def fourVectors : List (List (BufferedVector ℚ Unit)) :=
  [[⟨1, [1, 0], ()⟩], [⟨2, [1, 1], ()⟩, ⟨3, [3, 1], ()⟩], [⟨4, [0, 2], ()⟩]]

theorem fourVectors_accounted :
    ∃ t odd, (MerkleTree.new 2).insertBatches blockSum fourVectors = some (t, odd) ∧
      t.Balanced 2 (fourVectors.flatten.map BufferedVector.vector) odd :=
  mass_accounted (by decide) (by decide) (by decide)

/-- The three are split into one and two. -/
example : ((MerkleTree.new 2).insertBatches blockSum fourVectors).map Prod.snd = some 1 := by
  decide +kernel

end MerkleTree

end Tesseract.L3
