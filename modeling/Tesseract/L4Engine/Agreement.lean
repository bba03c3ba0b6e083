import Tesseract.L4Engine.Insert
import Tesseract.L4Engine.Open

/-!
# Do the records and the index agree?

An `insert` of a known id replaces the vector in the index, but not the record in
the hot store; and an eviction brings a record next to older copies of its id in
the cold store, of which `get` returns the first it finds.

`Agreement` is about the two stores and the vectors of the index alone: what is
found for an id is the vector of the index.

* `Agreement.add`, `Agreement.keep`, `Agreement.evict`: what a stored record does
  to it.
* `agreement_insert`: an accepted insert keeps it, when a known id comes with the
  vector it has and an evicted record with that of its older copies.
* `agreement_run`: so it holds behind every such run, for every record that `get`
  returns.
-/
namespace Tesseract.L4.Engine

open L1.Wal L2.Log L3 L3.Serde

variable {α β : Type} [F64 α] [Narrow α β] {P : Deps α}

/-! ## The stores and the vectors -/

/-- The vector of a record in `f32`. -/
def narrow (r : VectorRecord α) : List β := r.vector.map Narrow.toF32

/-- What is found for an id of `ids` in the two stores is its vector by `f`. A
copy in the cold store counts while the hot store does not have the id. -/
structure Agreement (hot : HotStore α) (parts : ColdStore.Parts α) (f : UInt64 → Option (List β))
    (ids : List UInt64) :
    Prop where
  inHot : ∀ r ∈ hot.vectors, f r.id = some (narrow r)
  inCold : ∀ p, ∀ r ∈ (parts p).flatten, hot.get r.id = none → f r.id = some (narrow r)
  found : ∀ id ∈ ids, hot.get id = none → ∃ p, ∃ r ∈ (parts p).flatten, r.id = id

variable {hot hot' : HotStore α} {parts : ColdStore.Parts α}
variable {f f' : UInt64 → Option (List β)} {ids : List UInt64}
  {r : VectorRecord α}

omit [Narrow α β] in
theorem get_none_append {rest : HotStore α} (hvec : hot'.vectors = rest.vectors ++ [r])
    {i : UInt64} :
    hot'.get i = none ↔ i ≠ r.id ∧ rest.get i = none := by
  rw [HotStore.get_append hvec, Option.or_eq_none_iff, and_comm]
  simp [eq_comm]

/-- A new record behind those that stay in the hot store. -/
theorem inHot_append {rest : HotStore α} (hrest : ∀ r' ∈ rest.vectors, f r'.id = some (narrow r'))
    (hnew : rest.get r.id = none) (hvec : hot'.vectors = rest.vectors ++ [r])
    (hf : ∀ j, f' j = if j = r.id then some (narrow r) else f j) :
    ∀ r' ∈ hot'.vectors, f' r'.id = some (narrow r') := by
  intro r' hr'
  rw [hvec, List.mem_append, List.mem_singleton] at hr'
  rw [hf]
  rcases hr' with hr' | rfl
  · have hne : r'.id ≠ r.id := fun he =>
      HotStore.get_eq_none.mp hnew (he ▸ List.mem_map_of_mem hr')
    rw [if_neg hne]
    exact hrest r' hr'
  · rw [if_pos rfl]

/-- A record with a new id. -/
theorem Agreement.add (h : Agreement hot parts f ids) (hnew : hot.get r.id = none)
    (hvec : hot'.vectors = hot.vectors ++ [r])
    (hf : ∀ j, f' j = if j = r.id then some (narrow r) else f j) :
    Agreement hot' parts f' (ids ++ [r.id]) := by
  have hother := fun id => (get_none_append hvec (i := id)).mp
  refine ⟨?_, ?_, ?_⟩
  · exact inHot_append h.inHot hnew hvec hf
  · intro p r' hr' hnone
    obtain ⟨hne, hnone⟩ := hother r'.id hnone
    rw [hf, if_neg hne]
    exact h.inCold p r' hr' hnone
  · intro id hid hnone
    obtain ⟨hne, hnone⟩ := hother id hnone
    rw [List.mem_append, List.mem_singleton] at hid
    exact h.found id (hid.resolve_right hne) hnone

/-- A known id, with the vector it has. -/
theorem Agreement.keep (h : Agreement hot parts f ids) {r₀ : VectorRecord α}
    (hknown : hot.get r.id = some r₀) (hsame : (narrow r₀ : List β) = narrow r)
    (hf : ∀ j, f' j = if j = r.id then some (narrow r) else f j) :
    Agreement hot parts f' (ids ++ [r.id]) := by
  have hne : ∀ id, hot.get id = none → id ≠ r.id := by
    intro id hid he
    rw [he, hknown] at hid
    cases hid
  obtain ⟨hr₀, hid₀⟩ := HotStore.get_eq_some.mp hknown
  refine ⟨?_, ?_, ?_⟩
  · intro r' hr'
    rw [hf]
    split
    · next he =>
      obtain rfl : r' = r₀ := HotStore.eq_of_id hr' hr₀ (he.trans hid₀.symm)
      rw [hsame]
    · exact h.inHot r' hr'
  · intro p r' hr' hnone
    rw [hf, if_neg (hne r'.id hnone)]
    exact h.inCold p r' hr' hnone
  · intro id hid hnone
    rw [List.mem_append, List.mem_singleton] at hid
    exact h.found id (hid.resolve_right (hne id hnone)) hnone

/-- A record behind an eviction. The evicted records are read back with their
vectors, and there is no other copy of them with another one. -/
theorem Agreement.evict (h : Agreement hot parts f ids) {env : Env} (hfull : hot.full)
    (hnew : (hot.drainLeastAccessed env.hotRank 100).1.get r.id = none)
    (hvec : hot'.vectors = (hot.drainLeastAccessed env.hotRank 100).1.vectors ++ [r])
    (hf : ∀ j, f' j = if j = r.id then some (narrow r) else f j)
    (hback : ∀ r₀ ∈ evicted env hot, (narrow (P.codec.text.backRecord r₀) : List β) = narrow r₀)
    (hcopies : ∀ r₀ ∈ evicted env hot, r₀.id ≠ r.id → ∀ p, ∀ r' ∈ (parts p).flatten, r'.id = r₀.id →
      (narrow r' : List β) = narrow r₀) :
    Agreement hot' (batchesAfter P env hot parts) f' (ids ++ [r.id]) := by
  -- an id that is not hot any more was evicted, or was not hot before
  have hgone : ∀ id, hot'.get id = none → id ≠ r.id ∧
    ((∃ r₀ ∈ evicted env hot, r₀.id = id) ∨ hot.get id = none) := by
    intro id hid
    obtain ⟨hne, hrest⟩ := (get_none_append hvec).mp hid
    rw [HotStore.drain_get] at hrest
    split at hrest
    · next hin => exact ⟨hne, .inl (List.mem_map.mp hin)⟩
    · exact ⟨hne, .inr hrest⟩
  refine ⟨?_, ?_, ?_⟩
  · refine inHot_append (fun r' hr' => h.inHot r' ?_) hnew hvec hf
    have hperm := (hot.drainLeastAccessed_perm env.hotRank 100).1
    exact hperm.mem_iff.mpr (List.mem_append_right _ hr')
  · intro p r' hr' hnone
    obtain ⟨hne, hwhy⟩ := hgone r'.id hnone
    rw [hf, if_neg hne]
    rcases mem_batchesAfter.mp hr' with hold | ⟨_, _, r₀, hr₀, rfl⟩
    · rcases hwhy with ⟨r₀, hr₀, hid⟩ | hcold
      · rw [hcopies r₀ hr₀ (hid ▸ hne) p r' hold hid.symm, ← hid]
        exact h.inHot r₀ (evicted_sub r₀ hr₀)
      · exact h.inCold p r' hold hcold
    · rw [hback r₀ hr₀]
      exact h.inHot r₀ (evicted_sub r₀ hr₀)
  · intro id hid hnone
    obtain ⟨hne, hwhy⟩ := hgone id hnone
    rw [List.mem_append, List.mem_singleton] at hid
    rcases hwhy with ⟨r₀, hr₀, rfl⟩ | hcold
    · exact ⟨env.day, P.codec.text.backRecord r₀,
        mem_batchesAfter.mpr (.inr ⟨hfull, rfl, r₀, hr₀, rfl⟩), rfl⟩
    · obtain ⟨p, r', hr', hid'⟩ := h.found id (hid.resolve_right hne) hcold
      exact ⟨p, r', mem_batchesAfter.mpr (.inl hr'), hid'⟩

/-! ## The engine -/

/-- The engine behind the calls `cs`. -/
structure Agreed (P : Deps α) (cs : List (Call α)) (s : Engine α β) (idx : HnswIndex β)
    (parts : ColdStore.Parts α) :
    Prop where
  index : s.index = some idx
  aligned : idx.Aligned
  holds : s.cold.Holds P.codec parts
  short : ∀ p, (parts p).length + 1 < 2 ^ 32
  agreement : Agreement s.hot parts idx.vectorOf (cs.map Call.id)

/-- A known id comes with the vector it has. What a full hot store evicts is read
back with its vector, and any older copy of it has that vector too, but for the
id that is inserted. The reader counts up to the batch. -/
structure Agreeing (P : Deps α) (s : Engine α β) (c : Call α) : Prop where
  faultless : c.env.Faultless
  known : ¬ s.hot.full → ∀ r, s.hot.get c.id = some r →
    (narrow r : List β) = c.vector.map Narrow.toF32
  readable : s.hot.full → ∀ r ∈ evicted c.env s.hot, ColdStore.Readable r ∧
    (narrow (P.codec.text.backRecord r) : List β) = narrow r
  copies : s.hot.full → ∀ r ∈ evicted c.env s.hot, r.id ≠ c.id →
    ∀ p rs, s.cold.readPartition P.codec p = .ok rs →
    ∀ r' ∈ rs, r'.id = r.id → (narrow r' : List β) = narrow r
  batch : s.hot.full → (s.cold.batchNum c.env.day).toNat + 1 < 2 ^ 32

variable [F32 β]

theorem create_agreed {env : OpenEnv} {config : StorageConfig α} {s : Engine α β}
    (hon : config.index.enabled = true) (h : create P env config = some (.ok s)) :
    Agreed P [] s (HnswIndex.new config.index.dim config.index.hnsw) fun _ => [] := by
  obtain ⟨_, _, hhot, hcold, hindex, _⟩ := create_eq_ok h
  refine ⟨?_, rfl, by rw [hcold]; exact ColdStore.Holds.empty P.codec, by simp, ?_⟩
  · rw [hindex, initIndex, if_pos hon]
  · rw [hhot]
    exact ⟨by simp [HotStore.new], by simp, by simp⟩

theorem agreement_insert (hK : P.codec.Lawful) {cs : List (Call α)} {s s' : Engine α β}
    {idx : HnswIndex β} {parts : ColdStore.Parts α} (h : Agreed P cs s idx parts) {c : Call α}
    (hc : Agreeing P s c) (hins : s.insert P c = some (s', .ok ())) :
    ∃ idx' parts', Agreed P (cs ++ [c]) s' idx' parts' := by
  obtain ⟨rh, hstore, _, _, _, hrest⟩ := insert_inv hins hc.faultless.1
  -- the index takes the vector
  obtain ⟨rfl, hindexed⟩ : rh = .ok () ∧ Indexed s s' c (.ok ()) := by
    rcases hrest with ⟨x, _, hx, _⟩ | hok
    · cases hx
    · exact hok
  obtain ⟨idx₀, idx', hidx, hidx', hinsert⟩ : ∃ idx₀ idx', s.index = some idx₀ ∧
    s'.index = some idx' ∧
      idx₀.insert s.config.computer c.env.level c.id c.vector = some (idx', .ok ()) := by
    rcases hindexed with ⟨hnone, _⟩ | hsome
    · rw [h.index] at hnone
      cases hnone
    · exact hsome
  rw [h.index] at hidx
  cases hidx
  obtain ⟨haligned, hf⟩ := HnswIndex.insert_vectorOf h.aligned hinsert
  have hshort := h.short
  have hholds :=
    storeRecord_holds hK hc.faultless.2 hstore h.holds (by have := hshort c.env.day; omega)
    fun hfull r hr => (hc.readable hfull r hr).1
  refine ⟨idx', batchesAfter P c.env s.hot parts, hidx', haligned, hholds, ?_, ?_⟩
  · intro p
    have hp := hshort p
    have hnum := h.holds.batchNum (p := c.env.day) (by have := hshort c.env.day; omega)
    rw [length_batchesAfter]
    split
    · next hday =>
      have hbatch := hc.batch hday.1
      rw [hday.2]
      omega
    · omega
  · rw [List.map_append, List.map_singleton]
    rcases storeRecord_cases (P := P) c.env hc.faultless.2 s.hot s.cold (record c) with
      ⟨hfull, hnew, _, heq, _, hvec⟩ | ⟨hfull, hknown, heq⟩ | ⟨hfull, _, _,
        ⟨hnew, _, heq, _, hvec⟩ | ⟨_, heq⟩⟩
    · rw [heq, Prod.mk.injEq] at hstore
      rw [batchesAfter, if_neg hfull, ← hstore.1]
      exact h.agreement.add hnew hvec hf
    · rw [heq, Prod.mk.injEq] at hstore
      obtain ⟨r₀, hr₀⟩ := Option.ne_none_iff_exists'.mp hknown
      rw [batchesAfter, if_neg hfull, ← hstore.1]
      exact h.agreement.keep hr₀ (hc.known hfull r₀ hr₀) hf
    · rw [heq, Prod.mk.injEq] at hstore
      rw [← hstore.1]
      refine h.agreement.evict hfull hnew hvec hf (fun r hr => (hc.readable hfull r hr).2) ?_
      intro r₀ hr₀ hne p r' hr' hid
      have hread := h.holds.readPartition (Nat.lt_of_succ_lt (hshort p))
      exact hc.copies hfull r₀ hr₀ hne p _ hread r' hr' hid
    · rw [heq] at hstore
      simp at hstore

/-! ## What `get` returns -/

omit [Narrow α β] [F32 β] in
/-- The first copy that is found. -/
theorem findCold_some {cold : ColdStore} {id : UInt64} {parts : ColdStore.Parts α}
    (hread : ∀ p, cold.readPartition P.codec p = .ok (parts p).flatten) : ∀ ps,
    (∃ p ∈ ps, ∃ r ∈ (parts p).flatten, r.id = id) →
    ∃ p r, findCold P cold id ps = .ok (some r) ∧ r ∈ (parts p).flatten ∧ r.id = id := by
  intro ps
  induction ps with
  | nil =>
    intro ⟨p, hp, _⟩
    cases hp
  | cons q ps ih =>
    intro ⟨p, hp, r, hr, hid⟩
    rw [findCold_read (hread q)]
    cases hfind : (parts q).flatten.find? (fun r => r.id == id) with
    | some r' =>
      exact ⟨q, r', rfl, List.mem_of_find?_eq_some hfind, by simpa using List.find?_some hfind⟩
    | none =>
      have hnot := List.find?_eq_none.mp hfind
      have hp' : p ∈ ps := by
        rcases List.mem_cons.mp hp with rfl | hp
        · exact absurd (beq_iff_eq.mpr hid) (hnot r hr)
        · exact hp
      obtain ⟨p', r', heq, hmem, hid'⟩ := ih ⟨p, hp', r, hr, hid⟩
      exact ⟨p', r', heq, hmem, hid'⟩

omit [F32 β] in
theorem Agreed.get {cs : List (Call α)} {s : Engine α β} {idx : HnswIndex β}
    {parts : ColdStore.Parts α} (h : Agreed P cs s idx parts) {id : UInt64}
    (hid : id ∈ cs.map Call.id) (rank : UInt64 → Nat) :
    ∃ r, s.get P rank id = .ok (some r) ∧ idx.vectorOf id = some (r.vector.map Narrow.toF32) := by
  unfold Engine.get
  cases hhot : s.hot.get id with
  | some r =>
    obtain ⟨hr, rfl⟩ := HotStore.get_eq_some.mp hhot
    exact ⟨r, rfl, h.agreement.inHot r hr⟩
  | none =>
    obtain ⟨p, r, hr, hid'⟩ := h.agreement.found id hid hhot
    have hp : p ∈ s.cold.partitions rank := by
      rw [ColdStore.partitions, ColdStore.keysInOrder, List.mem_insertionSort]
      apply (h.holds.writers p).mpr
      intro hnil
      rw [hnil] at hr
      cases hr
    obtain ⟨q, r', heq, hr', rfl⟩ :=
      findCold_some (P := P) (fun p => h.holds.readPartition (Nat.lt_of_succ_lt (h.short p))) _
      ⟨p, hp, r, hr, hid'⟩
    exact ⟨r', heq, h.agreement.inCold q r' hr' hhot⟩

/-- Behind accepted inserts that agree with what is there, the record of every
inserted id has the vector of the index. -/
theorem agreement_run (hK : P.codec.Lawful) {env : OpenEnv} {config : StorageConfig α}
    {s₀ s : Engine α β} {cs : List (Call α)} (h₀ : create P env config = some (.ok s₀))
    (hon : config.index.enabled = true) (hrun : ((accepting P).restrict (Agreeing P)).Run s₀ cs s) :
    ∃ idx, s.index = some idx ∧ ∀ c ∈ cs, ∀ rank, ∃ r, s.get P rank c.id = .ok (some r) ∧
      idx.vectorOf c.id = some (r.vector.map Narrow.toF32) := by
  obtain ⟨idx, parts, hagreed⟩ : ∃ idx parts, Agreed P cs s idx parts := by
    apply hrun.history (I := fun cs s => ∃ idx parts, Agreed P cs s idx parts)
    · exact ⟨_, _, create_agreed hon h₀⟩
    · intro pre c s s' _ ⟨idx, parts, h⟩ ⟨hst, hc⟩
      exact agreement_insert hK h hc (insertOk_eq_some.mp hst)
  exact ⟨idx, hagreed.index, fun c hc rank => hagreed.get (List.mem_map_of_mem hc) rank⟩

/-! ## The same id twice -/

/-- One hot record, and an index of dimension 1. -/
def cell : Engine Lit Lit := (opened (small 1 (some 1))).get (by decide +kernel)

def cellOne : Engine Lit Lit := ((cell.insert deps (call 1 [5])).get (by decide +kernel)).1

def cellTwo : Engine Lit Lit := ((cellOne.insert deps (call 1 [5])).get (by decide +kernel)).1

/-- The second insert evicts the record of the first. -/
theorem cellTwo_run :
    ((accepting deps).restrict (Agreeing deps)).Run cell [call 1 [5], call 1 [5]] cellTwo := by
  have h₁ : (accepting deps).step cell (call 1 [5]) cellOne := accepting_step _ (by decide +kernel)
  have h₂ : (accepting deps).step cellOne (call 1 [5]) cellTwo :=
    accepting_step _ (by decide +kernel)
  have hroom : ¬ cell.hot.full := by decide +kernel
  have hnone : (cell.hot.get (call 1 [5]).id).isNone = true := by decide +kernel
  have hfull : cellOne.hot.full := by decide +kernel
  have hread : ∀ r ∈ evicted calm cellOne.hot, ColdStore.Readable r ∧
      (narrow (plain.text.backRecord r) : List Lit) = narrow r := by decide +kernel
  have hid : ∀ r ∈ evicted calm cellOne.hot, r.id = 1 := by decide +kernel
  have ha₁ : Agreeing deps cell (call 1 [5]) := by
    refine ⟨calm_faultless, ?_, fun h => absurd h hroom, fun h => absurd h hroom, fun h =>
      absurd h hroom⟩
    intro _ r hr
    rw [hr] at hnone
    cases hnone
  have ha₂ : Agreeing deps cellOne (call 1 [5]) :=
    ⟨calm_faultless, fun h => absurd hfull h, fun _ => hread, fun _ r hr hne =>
      absurd (hid r hr) hne, fun _ => by decide +kernel⟩
  exact .cons ⟨h₁, ha₁⟩ (.cons ⟨h₂, ha₂⟩ (.nil cellTwo))

theorem agreement_twice :
    ∃ idx, cellTwo.index = some idx ∧ ∀ rank, ∃ r, cellTwo.get deps rank 1 = .ok (some r) ∧
    idx.vectorOf 1 = some (r.vector.map Narrow.toF32) := by
  have hcreate : create deps calmOpen (small 1 (some 1)) = some (.ok cell) :=
    create_of_opened (by rw [cell, Option.some_get])
  obtain ⟨idx, hidx, hget⟩ := agreement_run plain_lawful hcreate rfl cellTwo_run
  exact ⟨idx, hidx, hget (call 1 [5]) (by simp)⟩

/-- The first id again, with another vector. -/
def linearAgain : Engine Lit Lit := ((linearOne.insert deps (call 1 [3])).get (by decide +kernel)).1

/-- Both inserts return `Ok`; the record has the first vector, the index the
second. -/
theorem known_id_disagrees : create deps calmOpen (small 10 (some 1)) = some (.ok linear) ∧
    (accepting deps).Run linear [call 1 [5], call 1 [3]] linearAgain ∧
    (linearAgain.get deps UInt64.toNat 1).map (Option.map narrow) = .ok (some [Lit.fin 5]) ∧
    linearAgain.index.bind (fun idx => idx.vectorOf 1) = some [Lit.fin 3] := by
  have h₁ : (accepting deps).step linear (call 1 [5]) linearOne :=
    accepting_step _ (by decide +kernel)
  have h₂ : (accepting deps).step linearOne (call 1 [3]) linearAgain :=
    accepting_step _ (by decide +kernel)
  exact ⟨linear_create,
    .cons h₁ (.cons h₂ (.nil linearAgain)), by decide +kernel, by decide +kernel⟩

end Tesseract.L4.Engine
