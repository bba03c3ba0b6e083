import Tesseract.L3Index.HnswQuery
import Tesseract.L4Engine.Insert
import Tesseract.L4Engine.Open

/-!
# `StorageEngine::search`

A query merges what three tiers return: the HNSW index, the hot buffer and the
Merkle tree. The first two name vectors, the tree names its clusters.

* `insert_ok_tiers`: what an accepted insert makes of the tiers.
* `stored_run`: index and buffer hold ids that were inserted, each with its vector, and
  without the Merkle tier there is no tree.
* `found_or_cluster`: every id a search returns is that of an inserted vector, or the
  cluster id of a leaf of the Merkle tree.
-/
namespace Tesseract.L4.Engine

open L1.Wal L2.Log L3 L3.Serde

variable {α β : Type} [F64 α] [F32 β] [Narrow α β] {P : Deps α}

/-! ## Search -/

omit [F32 β] in
/-- `retain(|(id, _)| seen.insert(id))`
mirrors tesseract-storage/src/engine.rs:438-439 -/
def retainFirst : List UInt64 → List (UInt64 × β) → List (UInt64 × β)
  | _, [] => []
  | seen, p :: rest =>
    if p.1 ∈ seen then retainFirst seen rest else p :: retainFirst (p.1 :: seen) rest

/-- What the hot buffer adds.
mirrors tesseract-storage/src/engine.rs:407-413 -/
def searchBuffer (S : ScoreSort β) (s : Engine α β) (query : List β) (k : Nat) :
    List (UInt64 × β) :=
  match s.hotBuffer with
  | none => []
  | some buffer => if buffer.vectors.isEmpty then [] else buffer.search S query k

/-- What the Merkle tree adds: its cluster ids are taken for ids.
mirrors tesseract-storage/src/engine.rs:416-428 -/
def searchTree (S : ScoreSort β) (s : Engine α β) (query : List β) (k : Nat) :
    List (UInt64 × β) :=
  match s.merkleTree with
  | none => []
  | some tree => if 0 < tree.numCentroids then tree.search S query k else []

/-- What the index returns.
mirrors tesseract-storage/src/engine.rs:397-404 -/
def searchIndex (s : Engine α β) (query : List α) (k : Nat) (mask : Option (List (Nat × β))) :
    Option (Result (List (UInt64 × β))) :=
  match s.index with
  | none => some (.ok [])
  | some idx => idx.search s.config.computer query k mask

/-- mirrors tesseract-storage/src/engine.rs:392-443 -/
def search (S : ScoreSort β) (s : Engine α β) (query : List α) (k : Nat)
    (mask : Option (List (Nat × β))) : Option (Result (List (UInt64 × β))) := do
  let queryF32 : List β := query.map Narrow.toF32
  match ← s.searchIndex query k mask with
  | .error x => some (.error x)
  | .ok hnswResults =>
    let allResults := hnswResults ++ s.searchBuffer S queryF32 k ++ s.searchTree S queryF32 k
    if allResults.isEmpty && s.index.isNone then some (.error .indexNotBuilt)
    else some (.ok ((retainFirst [] (S.sort allResults)).take k))

omit [F32 β] in
theorem retainFirst_sub : ∀ (seen : List UInt64) (xs : List (UInt64 × β)),
    ∀ p ∈ retainFirst seen xs, p ∈ xs := by
  intro seen xs
  induction xs generalizing seen with
  | nil => exact fun p hp => hp
  | cons q xs ih =>
    intro p hp
    unfold retainFirst at hp
    split at hp
    · exact List.mem_cons_of_mem q (ih seen p hp)
    · rcases List.mem_cons.mp hp with rfl | hp
      · exact List.mem_cons_self
      · exact List.mem_cons_of_mem q (ih _ p hp)

/-- Every result comes from one of the tiers, with the distance that tier measures. -/
theorem search_mem {S : ScoreSort β} {s : Engine α β} {query : List α} {k : Nat}
    {mask : Option (List (Nat × β))} {rs : List (UInt64 × β)}
    (h : s.search S query k mask = some (.ok rs)) : ∀ p ∈ rs,
    (∃ idx found, s.index = some idx ∧
      idx.search s.config.computer query k mask = some (.ok found) ∧ p ∈ found) ∨
    (∃ buffer, s.hotBuffer = some buffer ∧ ∃ bv ∈ buffer.vectors, bv.id = p.1 ∧
      p.2 = cosineComputer.distance bv.vector (query.map Narrow.toF32)) ∨
    ∃ tree, s.merkleTree = some tree ∧ ∃ leaf ∈ tree.leaves, leaf.clusterId = some p.1 ∧
      p.2 = leaf.centroidDistance (query.map Narrow.toF32) := by
  unfold search at h
  simp only [Option.bind_eq_bind, Option.bind_eq_some_iff] at h
  obtain ⟨r, hindex, h⟩ := h
  split at h
  · cases h
  · next hnsw =>
    split at h
    · cases h
    · cases h
      intro p hp
      have hmem := (S.perm _).mem_iff.mp (retainFirst_sub [] _ p (List.mem_of_mem_take hp))
      rcases List.mem_append.mp hmem with hmem | htree
      · rcases List.mem_append.mp hmem with hnsw | hbuffer
        · left
          unfold searchIndex at hindex
          split at hindex
          · cases hindex
            cases hnsw
          · next idx hidx => exact ⟨idx, _, hidx, hindex, hnsw⟩
        · right
          left
          unfold searchBuffer at hbuffer
          split at hbuffer
          · cases hbuffer
          · next buffer hbuf =>
            split at hbuffer
            · cases hbuffer
            · exact ⟨buffer, hbuf, HotBuffer.mem_search hbuffer⟩
      · right
        right
        unfold searchTree at htree
        split at htree
        · cases htree
        · next tree htr =>
          split at htree
          · exact ⟨tree, htr, MerkleTree.mem_search htree⟩
          · cases htree

/-! ## What the tiers hold -/

omit [F32 β] [Narrow α β] in
theorem updateTrackers_tiers {s s' : Engine α β} {v : List α} {m : Value α}
    (h : s.updateTrackers v m = some s') :
    s'.hotBuffer = s.hotBuffer ∧ s'.merkleTree = s.merkleTree := by
  unfold updateTrackers at h
  simp only [Option.bind_eq_bind, Option.bind_eq_some_iff, Option.some.injEq] at h
  obtain ⟨_, _, _, _, rfl⟩ := h
  exact ⟨rfl, rfl⟩

theorem insertIndex_tiers {env : Env} {s s' : Engine α β} {id : UInt64} {v : List α}
    {r : Result Unit} (h : s.insertIndex env id v = some (s', r)) :
    s'.hotBuffer = s.hotBuffer ∧ s'.merkleTree = s.merkleTree := by
  unfold insertIndex at h
  split at h
  · cases h
    exact ⟨rfl, rfl⟩
  · simp only [Option.bind_eq_bind, Option.bind_eq_some_iff, Option.some.injEq, Prod.exists,
      Prod.mk.injEq] at h
    obtain ⟨_, _, _, rfl, _⟩ := h
    exact ⟨rfl, rfl⟩

omit [F32 β] [Narrow α β] in
theorem appendEntry_tiers {s s' : Engine α β} {c : Call α} {r : Result Unit}
    (h : s.appendEntry P c = (s', r)) :
    ∃ wal, s' = { s with wal := wal } := by
  unfold appendEntry at h
  cases h
  exact ⟨_, rfl⟩

/-- An accepted insert goes through the index and then through the buffer. -/
theorem insert_ok_tiers {s s' : Engine α β} {c : Call α} (h : s.insert P c = some (s', .ok ())) :
    ∃ s₁ : Engine α β, s₁.config = s.config ∧ s₁.hotBuffer = s.hotBuffer ∧
      s₁.merkleTree = s.merkleTree ∧ Indexed s s₁ c (.ok ()) ∧
      s₁.bufferVector P c.id c.vector c.metadata = some s' := by
  unfold insert at h
  split at h
  · cases h
  · next s₁ happend =>
    obtain ⟨wal, rfl⟩ := appendEntry_tiers happend
    simp only [Option.bind_eq_bind, Option.bind_eq_some_iff] at h
    obtain ⟨s₂, htrack, h⟩ := h
    have h₂ := updateTrackers_apart htrack
    have ht₂ := updateTrackers_tiers htrack
    split at h
    · cases h
    · simp only [Option.bind_eq_some_iff] at h
      obtain ⟨⟨s₃, r₃⟩, hindex, h⟩ := h
      obtain ⟨hconfig, _, _, _, _, hindexed⟩ := insertIndex_indexed hindex
      have ht₃ := insertIndex_tiers hindex
      split at h
      · cases h
      · next heq =>
        cases heq
        simp only [Option.bind_eq_some_iff, Option.some.injEq, Prod.mk.injEq] at h
        obtain ⟨s₄, hbuf, rfl, _⟩ := h
        refine ⟨_, hconfig.trans h₂.config, ht₃.1.trans ht₂.1, ht₃.2.trans ht₂.2, ?_, hbuf⟩
        unfold Indexed at hindexed ⊢
        dsimp only at hindexed
        rw [h₂.index, h₂.config] at hindexed
        exact hindexed

/-- The buffer stage: the vector is in the buffer, or the buffer was emptied into the
tree. -/
theorem bufferVector_tiers {s s' : Engine α β} {id : UInt64} {v : List α} {m : Value α}
    (h : s.bufferVector P id v m = some s') :
    (∀ b', s'.hotBuffer = some b' → ∃ b, s.hotBuffer = some b ∧
      ∀ bv ∈ b'.vectors, bv ∈ b.vectors ∨ bv = ⟨id, v.map Narrow.toF32, m⟩) ∧
    (s.merkleTree = none → s'.merkleTree = none) := by
  unfold bufferVector at h
  split at h
  · cases h
    exact ⟨fun b' hb' => ⟨b', hb', fun bv hbv => .inl hbv⟩, fun hnone => hnone⟩
  · next b hb =>
    have hdrained : ∀ b' : HotBuffer β (Value α), b'.vectors = [] → ∃ b, s.hotBuffer = some b ∧
        ∀ bv ∈ b'.vectors, bv ∈ b.vectors ∨ bv = ⟨id, v.map Narrow.toF32, m⟩ := by
      intro b' hnil
      refine ⟨b, hb, fun bv hbv => ?_⟩
      rw [hnil] at hbv
      cases hbv
    split at h
    · next b₁ _ =>
      unfold mergeBuffer at h
      dsimp only at h
      split at h
      · next hnone =>
        cases h
        refine ⟨fun b' hb' => ?_, fun _ => hnone⟩
        cases hb'
        exact hdrained _ rfl
      · next tree htree =>
        simp only [Option.bind_eq_bind, Option.bind_eq_some_iff, Option.some.injEq] at h
        obtain ⟨_, _, rfl⟩ := h
        refine ⟨fun b' hb' => ?_, fun hnone => ?_⟩
        · cases hb'
          exact hdrained _ rfl
        · rw [hnone] at htree
          cases htree
    · next b₁ hins =>
      cases h
      refine ⟨fun b' hb' => ?_, fun hnone => hnone⟩
      cases hb'
      have hb₁ := congrArg Prod.fst hins
      subst hb₁
      refine ⟨b, hb, fun bv hbv => ?_⟩
      rcases List.mem_append.mp hbv with hbv | hbv
      · exact .inl hbv
      · exact .inr (List.mem_singleton.mp hbv)

/-- What index and buffer hold was inserted, and a disabled tier has no tree. -/
structure Stored (calls : List (Call α)) (s : Engine α β) : Prop where
  shape : ∀ idx, s.index = some idx → idx.Aligned ∧ idx.dim = s.config.index.dim
  index : ∀ idx, s.index = some idx → ∀ (i : Nat) (id : UInt64) (v : List β),
    idx.idToNode[i]? = some id → idx.vectors[i]? = some v →
      ∃ c ∈ calls, c.id = id ∧ v = c.vector.map Narrow.toF32
  buffer : ∀ b, s.hotBuffer = some b → ∀ bv ∈ b.vectors,
    ∃ c ∈ calls, c.id = bv.id ∧ bv.vector = c.vector.map Narrow.toF32
  tree : s.config.merkle.enabled = false → s.merkleTree = none

/-- Index and buffer name inserted ids only, and a disabled tier has no tree. -/
structure Known (calls : List (Call α)) (s : Engine α β) : Prop where
  index : ∀ idx, s.index = some idx → ∀ id ∈ idx.idToNode, ∃ c ∈ calls, c.id = id
  buffer : ∀ b, s.hotBuffer = some b → ∀ bv ∈ b.vectors, ∃ c ∈ calls, c.id = bv.id
  tree : s.config.merkle.enabled = false → s.merkleTree = none

omit [F32 β] [Narrow α β] in
theorem assemble_tiers {env : OpenEnv} {config : StorageConfig α} {wal : Session}
    {hot : HotStore α} {cold : ColdStore} {index indexFile : Option (HnswIndex β)}
    {merkleFile : Option (MerkleTree β)} {s : Engine α β}
    (h : assemble P env config wal hot cold index indexFile merkleFile = .ok s) :
    (∀ b, s.hotBuffer = some b → b.vectors = []) ∧
      (config.merkle.enabled = false → s.merkleTree = none) := by
  obtain ⟨_, _, rfl⟩ := assemble_inv h
  refine ⟨fun b hbuf => ?_, fun hoff => ?_⟩
  · dsimp only at hbuf
    split at hbuf
    · cases hbuf
      rfl
    · cases hbuf
  · simp [hoff]

theorem fresh_stored {s : Engine α β} (h : Fresh P s) : Stored [] s := by
  obtain ⟨env, config, hcreate⟩ := h
  obtain ⟨hconfig, _, _, _, hindex, _⟩ := create_eq_ok hcreate
  obtain ⟨_, _, _, _, _, _, _, _, hs⟩ := openEngine_eq_ok.mp hcreate
  obtain ⟨hbuf, htree⟩ := assemble_tiers hs
  have hnew : ∀ idx, s.index = some idx → idx = HnswIndex.new config.index.dim
      config.index.hnsw := by
    intro idx hidx
    rw [hindex, initIndex] at hidx
    split at hidx <;> cases hidx
    rfl
  refine ⟨?_, ?_, ?_, by rw [hconfig]; exact htree⟩
  · intro idx hidx
    rw [hnew idx hidx, hconfig]
    exact ⟨rfl, rfl⟩
  · intro idx hidx i id v hid
    rw [hnew idx hidx] at hid
    cases hid
  · intro b hb bv hbv
    rw [hbuf b hb] at hbv
    cases hbv

theorem insert_stored {s s' : Engine α β} {calls : List (Call α)} {c : Call α}
    (hk : Stored calls s) (h : s.insert P c = some (s', .ok ())) : Stored (calls ++ [c]) s' := by
  obtain ⟨s₁, hconfig, hhot, hmerkle, hindexed, hbuf⟩ := insert_ok_tiers h
  have hapart := bufferVector_apart hbuf
  obtain ⟨hb, ht⟩ := bufferVector_tiers hbuf
  have hold : ∀ {id v}, (∃ c ∈ calls, c.id = id ∧ v = c.vector.map (Narrow.toF32 (β := β))) →
      ∃ c' ∈ calls ++ [c], c'.id = id ∧ v = c'.vector.map Narrow.toF32 :=
    fun ⟨c', hc', hid⟩ => ⟨c', List.mem_append_left _ hc', hid⟩
  -- the index the call leaves, if there is one
  have hidx' : ∀ idx', s'.index = some idx' → ∃ idx, s.index = some idx ∧
      idx.insert s.config.computer c.env.level c.id c.vector = some (idx', .ok ()) := by
    intro idx' hidx'
    rw [hapart.index] at hidx'
    rcases hindexed with ⟨_, hnone, _⟩ | ⟨idx, idx₁, hidx, hidx₁, hins⟩
    · rw [hnone] at hidx'
      cases hidx'
    · rw [hidx₁] at hidx'
      cases hidx'
      exact ⟨idx, hidx, hins⟩
  refine ⟨?_, ?_, ?_, ?_⟩
  · intro idx' h'
    obtain ⟨idx, hidx, hins⟩ := hidx' idx' h'
    obtain ⟨ha, hdim⟩ := hk.shape idx hidx
    rcases HnswIndex.insert_cases hins with ⟨_, _, hr⟩ | ⟨_, _, hdim', _⟩
    · cases hr
    · rw [hapart.config, hconfig]
      exact ⟨(HnswIndex.insert_vectorOf ha hins).1, hdim'.trans hdim⟩
  · intro idx' h' i id v hid hv
    obtain ⟨idx, hidx, hins⟩ := hidx' idx' h'
    rcases HnswIndex.insert_entries (hk.shape idx hidx).1 hins hid hv with ⟨hid, hv⟩ | ⟨rfl, rfl⟩
    · exact hold (hk.index idx hidx i id v hid hv)
    · exact ⟨c, by simp, rfl, rfl⟩
  · intro b' hb' bv hbv
    obtain ⟨b, hbs, hsub⟩ := hb b' hb'
    rcases hsub bv hbv with hbv | rfl
    · exact hold (hk.buffer b (hhot ▸ hbs) bv hbv)
    · exact ⟨c, by simp, rfl, rfl⟩
  · intro hoff
    rw [hapart.config, hconfig] at hoff
    exact ht (hmerkle.trans (hk.tree hoff))

/-- Behind a run of accepted inserts. -/
theorem stored_run {s₀ s : Engine α β} {calls : List (Call α)} (h0 : Fresh P s₀)
    (h : (accepting P).Run s₀ calls s) : Stored calls s := by
  refine h.history (I := Stored) (fresh_stored h0) ?_
  intro pre c s s' _ hk hst
  exact insert_stored hk (insertOk_eq_some.mp hst)

omit [F32 β] in
theorem Stored.known {calls : List (Call α)} {s : Engine α β} (h : Stored calls s) :
    Known calls s := by
  refine ⟨?_, ?_, h.tree⟩
  · intro idx hidx id hid
    obtain ⟨i, hlt, hi⟩ := List.getElem_of_mem hid
    have hlt' : i < idx.vectors.length := (h.shape idx hidx).1 ▸ hlt
    obtain ⟨c, hc, hcid, _⟩ := h.index idx hidx i id idx.vectors[i]
      (List.getElem?_eq_some_iff.mpr ⟨hlt, hi⟩) (List.getElem?_eq_getElem hlt')
    exact ⟨c, hc, hcid⟩
  · intro b hb bv hbv
    obtain ⟨c, hc, hid, _⟩ := h.buffer b hb bv hbv
    exact ⟨c, hc, hid⟩

theorem known_run {s₀ s : Engine α β} {calls : List (Call α)} (h0 : Fresh P s₀)
    (h : (accepting P).Run s₀ calls s) : Known calls s := (stored_run h0 h).known

/-- After every sequence of inserts that returned `Ok`, every id a search returns is
that of an inserted vector or, with the Merkle tier on, the cluster id of a leaf of
the Merkle tree. -/
theorem found_or_cluster {s₀ s : Engine α β} {calls : List (Call α)} (h0 : Fresh P s₀)
    (h : (accepting P).Run s₀ calls s) (S : ScoreSort β) {query : List α} {k : Nat}
    {mask : Option (List (Nat × β))} {rs : List (UInt64 × β)}
    (hsearch : s.search S query k mask = some (.ok rs)) : ∀ p ∈ rs,
    (∃ c ∈ calls, c.id = p.1) ∨
    (s.config.merkle.enabled = true ∧ ∃ tree, s.merkleTree = some tree ∧
      ∃ leaf ∈ tree.leaves, leaf.clusterId = some p.1) := by
  have hk := known_run h0 h
  intro p hp
  rcases search_mem hsearch p hp with
    ⟨idx, found, hidx, hfound, hp⟩ | ⟨b, hb, bv, hbv, hid, _⟩ | ⟨tree, htree, leaf, hleaf, hid, _⟩
  · exact .inl (hk.index idx hidx p.1 (HnswIndex.search_ids hfound p hp))
  · obtain ⟨c, hc, hcid⟩ := hk.buffer b hb bv hbv
    exact .inl ⟨c, hc, hcid.trans hid⟩
  · refine .inr ⟨?_, tree, htree, leaf, hleaf, hid⟩
    cases hon : s.config.merkle.enabled with
    | true => rfl
    | false =>
      rw [hk.tree hon] at htree
      cases htree

/-! ## A cluster taken for a vector -/

/-- No index, and a Merkle tier that merges every vector at once. -/
def clustering : StorageConfig Lit := { small 10 none with merkle := ⟨true, 1, 100, false⟩ }

def clustered : Engine Lit Lit := (opened clustering).get (by decide +kernel)

def clusteredOne : Engine Lit Lit :=
  ((clustered.insert deps (call 7 [1])).get (by decide +kernel)).1

theorem clustered_fresh : Fresh deps clustered :=
  ⟨calmOpen, clustering, create_of_opened (by rw [clustered, Option.some_get])⟩

theorem clusteredOne_run : (accepting deps).Run clustered [call 7 [1]] clusteredOne :=
  .cons (accepting_step _ (by decide +kernel)) (.nil _)

/-- Only id 7 was inserted, and the search returns id 1, the cluster of its vector. -/
theorem search_returns_cluster :
    Fresh deps clustered ∧ (accepting deps).Run clustered [call 7 [1]] clusteredOne ∧
      clusteredOne.search .insertion [Lit.fin 1] 5 none = some (.ok [(1, .fin 0)]) ∧
      ¬ ∃ c ∈ [call 7 [1]], c.id = 1 :=
  ⟨clustered_fresh, clusteredOne_run, by decide +kernel, by decide +kernel⟩

theorem found_or_cluster_clusteredOne :
    (∃ c ∈ [call 7 [1]], c.id = 1) ∨
    (clusteredOne.config.merkle.enabled = true ∧ ∃ tree, clusteredOne.merkleTree = some tree ∧
      ∃ leaf ∈ tree.leaves, leaf.clusterId = some 1) :=
  found_or_cluster clustered_fresh clusteredOne_run .insertion
    (show clusteredOne.search .insertion [Lit.fin 1] 5 none = some (.ok [(1, .fin 0)]) by
      decide +kernel) (1, .fin 0) (List.mem_singleton.mpr rfl)

end Tesseract.L4.Engine
