import Tesseract.L4Engine.Rank
import Tesseract.L6Cluster.QueryCoordinator

/-!
# The order of a distributed result

A shard's scores are distances, which `StorageEngine::search` ranks in ascending order.
The coordinator ranks them in descending order.

* `mergeResults_top`: the merged list has the ids with the largest scores.
* `merged_shards_top`: where the best scores of different ids differ, the order the shards
  answer in makes no difference.
* `ranks_like_engine_iff`: it has those with the smallest distances only where it is
  empty or all distances are equal.
-/
namespace Tesseract.L6

open L3 L4.Engine

variable {β : Type}

/-- A scored result as `StorageEngine::search` returns it. -/
def ScoredShardResult.pair (r : ScoredShardResult β) : UInt64 × β := (r.id, r.score)

/-- All results of all shards. -/
def union (results : List (ShardResult β)) : List (UInt64 × β) :=
  results.flatMap fun r => r.results.map ScoredShardResult.pair

theorem map_pair_flatMap (results : List (ShardResult β)) :
    (results.flatMap ShardResult.results).map ScoredShardResult.pair = union results := by
  rw [union, List.map_flatMap]

variable [F32 β]

/-- `a` scores at least as high as `b`. -/
def Above (a b : ScoredShardResult β) : Prop := F32.le b.score a.score = true

/-- The scores of `a` and `b` compare as equal. -/
def Tied (a b : ScoredShardResult β) : Prop := F32.partialCmp a.score b.score = some .eq

theorem Above.tied [SwapF32 β] {a b : ScoredShardResult β} (h : Above a b) (h' : Above b a) :
    Tied a b := by
  have hswap := SwapF32.partialCmp_swap a.score b.score
  rw [Above, F32.le_iff, hswap] at h
  rw [Above, F32.le_iff] at h'
  rcases h' with hlt | heq
  · rw [hlt] at h
    simp at h
  · exact heq

/-- The same shard results in another order, with the entries of each in another order. -/
def Shuffled (results results' : List (ShardResult β)) : Prop :=
  ∃ mid : List (ShardResult β), results.Perm mid ∧
    List.Forall₂ (fun r r' => r.results.Perm r'.results) mid results'

omit [F32 β] in
theorem Shuffled.perm {results results' : List (ShardResult β)} (h : Shuffled results results') :
    (results.flatMap ShardResult.results).Perm (results'.flatMap ShardResult.results) := by
  obtain ⟨mid, hperm, hinside⟩ := h
  refine (hperm.flatMap_right ShardResult.results).trans ?_
  clear hperm
  induction hinside with
  | nil => exact .nil
  | cons hentry _ ih => exact hentry.append ih

section Merge

variable [LawfulF32 β] [SwapF32 β] [OrderF32 β]

omit [SwapF32 β] [OrderF32 β] in
theorem cmpScore_not_gt {a b : ScoredShardResult β} (ha : F32.isNaN a.score = false)
    (hb : F32.isNaN b.score = false) : cmpScore a b ≠ .gt ↔ Above a b :=
  cmpFloat_not_gt (f := ScoredShardResult.score) hb ha

theorem totalOn_cmpScore {all : List (ScoredShardResult β)}
    (hnan : ∀ r ∈ all, F32.isNaN r.score = false) : TotalOn cmpScore all :=
  (TotalOn.byFloat hnan).flip

variable {results : List (ShardResult β)}
  (hnan : ∀ p ∈ union results, F32.isNaN p.2 = false)

include hnan

omit [LawfulF32 β] [SwapF32 β] [OrderF32 β] in
theorem score_not_nan {r : ScoredShardResult β}
    (hr : r ∈ results.flatMap ShardResult.results) : F32.isNaN r.score = false := by
  obtain ⟨s, hs, hr⟩ := List.mem_flatMap.mp hr
  exact hnan r.pair (List.mem_flatMap.mpr ⟨s, hs, List.mem_map_of_mem hr⟩)

/-- The coordinator's merge returns the `limit` ids with the largest scores, each with
its largest. -/
theorem mergeResults_top (S : StableSort (@cmpScore β _)) (limit : Nat) :
    Top ScoredShardResult.id Above limit (results.flatMap ShardResult.results)
      (mergeResults S results limit) := by
  have htotal := totalOn_cmpScore fun r hr => score_not_nan hnan hr
  refine keepFirst_top (S.perm _) ?_ ?_ ?_ limit
  · refine (S.pairwise htotal).imp_of_mem fun ha hb h => ?_
    rw [S.mem_sort] at ha hb
    exact (cmpScore_not_gt (score_not_nan hnan ha) (score_not_nan hnan hb)).mp h
  · exact fun r hr => F32.le_refl (score_not_nan hnan hr)
  · exact fun _ _ _ _ _ _ hab hbc => OrderF32.le_trans _ _ _ hbc hab

/-- The merge lists the `limit` ids of largest score in descending order, each once with
its largest score. Where no two ids are tied, the order of the shards and of their entries
does not matter. -/
theorem merged_shards_top (S S' : StableSort (@cmpScore β _)) (limit : Nat) :
    Top ScoredShardResult.id Above limit (results.flatMap ShardResult.results)
        (mergeResults S results limit) ∧
      (mergeResults S results limit).length ≤ limit ∧
      ((∀ a b, Best ScoredShardResult.id Above (results.flatMap ShardResult.results) a →
          Best ScoredShardResult.id Above (results.flatMap ShardResult.results) b →
          Tied a b → a.id = b.id) →
        ∀ results', Shuffled results results' →
          List.Forall₂ (fun a b => a.id = b.id ∧ Tied a b)
              (mergeResults S results limit) (mergeResults S' results' limit) ∧
            ((∀ a ∈ results.flatMap ShardResult.results,
                ∀ b ∈ results.flatMap ShardResult.results,
                a.id = b.id → Tied a b → a.score = b.score) →
              mergeResults S results limit = mergeResults S' results' limit)) := by
  have htop := mergeResults_top hnan S limit
  refine ⟨htop, List.length_take_le limit _, fun hdiff results' hshuffled => ?_⟩
  have hperm := hshuffled.perm
  have hnan' : ∀ p ∈ union results', F32.isNaN p.2 = false := by
    intro p hp
    rw [← map_pair_flatMap] at hp
    obtain ⟨r, hr, rfl⟩ := List.mem_map.mp hp
    exact score_not_nan hnan (hperm.mem_iff.mpr hr)
  have htop' := (mergeResults_top hnan' S' limit).of_perm hperm.symm
  have hsame := htop.forall₂_unique (fun a b ha hb hab hba => hdiff a b ha hb (hab.tied hba))
    (fun _ _ _ _ _ _ hab hbc => OrderF32.le_trans _ _ _ hbc hab) htop'
  refine ⟨hsame.imp fun _ _ h => ⟨h.2.1, h.2.2.1.tied h.2.2.2⟩, fun hscore => ?_⟩
  rw [← List.forall₂_eq_eq_eq]
  refine hsame.imp fun a b h => ?_
  obtain ⟨⟨ha, hb⟩, hid, hab, hba⟩ := h
  have hval := hscore a ha b hb hid (hab.tied hba)
  obtain ⟨id, score⟩ := a
  cases hid
  cases hval
  rfl

/-- Shard 0 finds id 1, shard 1 finds ids 2 and 1. -/
def overlapping : List (ShardResult Lit) :=
  [⟨0, "a", [⟨1, .fin 3⟩]⟩, ⟨1, "b", [⟨2, .fin 7⟩, ⟨1, .fin 5⟩]⟩]

omit [LawfulF32 β] [SwapF32 β] [OrderF32 β] hnan in
/-- The answers in the other order. -/
theorem merged_shards_swapped :
    mergeResults (.insertion _) overlapping 2 =
      mergeResults (.insertion _)
        [⟨1, "b", [⟨1, .fin 5⟩, ⟨2, .fin 7⟩]⟩, ⟨0, "a", [⟨1, .fin 3⟩]⟩] 2 := by
  have htied : ∀ a ∈ overlapping.flatMap ShardResult.results,
      ∀ b ∈ overlapping.flatMap ShardResult.results, Tied a b → a = b := by
    unfold Tied
    decide
  refine ((merged_shards_top (by decide) (.insertion _) (.insertion _) 2).2.2
    (fun a b ha hb h => ?_) _ ?_).2 fun a ha b hb _ h => ?_
  · rw [htied a ha.mem b hb.mem h]
  · exact ⟨_, .swap _ _ [], .cons (.swap _ _ []) (.cons (.refl _) .nil)⟩
  · rw [htied a ha b hb h]

/-- Among equal distances both merges keep the order of the shards. -/
theorem mergeResults_of_equal (S : StableSort (@cmpScore β _)) (E : ScoreSort β) (limit : Nat)
    (heq : ∀ p ∈ union results, ∀ q ∈ union results, Closer p q) :
    (mergeResults S results limit).map ScoredShardResult.pair =
      rankTiers E (union results) limit := by
  have hsort : S.sort (results.flatMap ShardResult.results) =
      results.flatMap ShardResult.results := by
    refine S.eq_self (totalOn_cmpScore fun r hr => score_not_nan hnan hr)
      (List.pairwise_of_forall_mem_list fun a ha b hb => ?_)
    rw [cmpScore_not_gt (score_not_nan hnan ha) (score_not_nan hnan hb)]
    exact heq b.pair (map_pair_flatMap results ▸ List.mem_map_of_mem hb) a.pair
      (map_pair_flatMap results ▸ List.mem_map_of_mem ha)
  have hsort' : E.sort (union results) = union results :=
    scoreSort_self hnan E (List.pairwise_of_forall_mem_list heq)
  have hkey : ∀ r : ScoredShardResult β, Prod.fst r.pair = r.id := fun _ => rfl
  have hkeep : (keepFirst ScoredShardResult.id [] (results.flatMap ShardResult.results)).map
      ScoredShardResult.pair = keepFirst Prod.fst []
        ((results.flatMap ShardResult.results).map ScoredShardResult.pair) :=
    map_keepFirst ScoredShardResult.pair hkey _ _
  rw [mergeResults, rankTiers, retainFirst_eq, hsort, hsort', List.map_take, hkeep,
    map_pair_flatMap]

/-- The merged list is the one `StorageEngine::search` makes of the same results, the
`limit` nearest ids, exactly when `limit` is 0 or all distances are equal. -/
theorem ranks_like_engine_iff (S : StableSort (@cmpScore β _)) (E : ScoreSort β) (limit : Nat) :
    (Top Prod.fst Closer limit (union results)
        ((mergeResults S results limit).map ScoredShardResult.pair) ∧
      (mergeResults S results limit).map ScoredShardResult.pair =
        rankTiers E (union results) limit) ↔
    limit = 0 ∨ ∀ p ∈ union results, ∀ q ∈ union results, F32.lt p.2 q.2 = false := by
  constructor
  · rintro ⟨_, heq⟩
    refine or_iff_not_imp_left.mpr fun hlimit p hp q hq => ?_
    have hmerge := mergeResults_top hnan S limit
    have hengine := rankTiers_top hnan E limit
    obtain ⟨x, hx, rfl⟩ : ∃ x ∈ results.flatMap ShardResult.results, x.pair = q :=
      List.mem_map.mp ((map_pair_flatMap results).symm ▸ hq)
    -- the first result is the farthest for one merge and the nearest for the other
    obtain ⟨r, hr⟩ : ∃ r, (mergeResults S results limit).head? = some r :=
      Option.ne_none_iff_exists'.mp fun hnone =>
        hmerge.ne_nil hlimit (List.ne_nil_of_mem hx) (List.head?_eq_none_iff.mp hnone)
    have hr' : (rankTiers E (union results) limit).head? = some r.pair := by
      rw [← heq, List.head?_map, hr]
      rfl
    have hfar : F32.le x.score r.score = true :=
      hmerge.head_le (fun _ _ _ _ _ _ hab hbc => OrderF32.le_trans _ _ _ hbc hab) hr hx
    have hnear : Closer r.pair p := hengine.head_le (fun _ _ _ _ _ _ h h' => h.trans h') hr' hp
    exact (F32.le_iff_not_lt (hnan _ hq) (hnan p hp)).mp (OrderF32.le_trans _ _ _ hfar hnear)
  · intro hcond
    have heq : (mergeResults S results limit).map ScoredShardResult.pair =
        rankTiers E (union results) limit := by
      rcases hcond with rfl | hcond
      · rw [mergeResults, rankTiers, List.take_zero, List.take_zero, List.map_nil]
      · refine mergeResults_of_equal hnan S E limit fun p hp q hq => ?_
        exact (F32.le_iff_not_lt (hnan p hp) (hnan q hq)).mpr (hcond q hq p hp)
    exact ⟨heq ▸ rankTiers_top hnan E limit, heq⟩

end Merge

/-! ## Two shards -/

/-- Shard 0 finds id 1 at the given distance, shard 1 finds id 2 at distance 5. -/
def twoShards (distance : Int) : List (ShardResult Lit) :=
  [⟨0, "a", [⟨1, .fin distance⟩]⟩, ⟨1, "b", [⟨2, .fin 5⟩]⟩]

/-- Of ids at distance 1 and 5 the coordinator returns the farther one. -/
theorem farther_wins :
    (mergeResults (.insertion _) (twoShards 1) 1).map ScoredShardResult.pair = [(2, .fin 5)] ∧
      rankTiers .insertion (union (twoShards 1)) 1 = [(1, .fin 1)] ∧
      ¬ Top Prod.fst Closer 1 (union (twoShards 1))
        ((mergeResults (.insertion _) (twoShards 1) 1).map ScoredShardResult.pair) := by
  have hmerge : (mergeResults (.insertion _) (twoShards 1) 1).map ScoredShardResult.pair =
      [(2, .fin 5)] := by decide +kernel
  refine ⟨hmerge, by decide +kernel, fun h => ?_⟩
  rw [hmerge] at h
  have hnear := h.rest (1, .fin 1) (by decide) (by decide) (2, .fin 5) (by decide)
  have hfar : F32.le (.fin 5 : Lit) (.fin 1) = false := by decide
  exact absurd hnear (Bool.eq_false_iff.mp hfar)

theorem ranks_like_engine_tie :
    (mergeResults (.insertion _) (twoShards 5) 1).map ScoredShardResult.pair =
      rankTiers .insertion (union (twoShards 5)) 1 :=
  ((ranks_like_engine_iff (by decide) (.insertion _) .insertion 1).mpr (.inr (by decide))).2

end Tesseract.L6
