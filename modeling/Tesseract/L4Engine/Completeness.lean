import Tesseract.L4Engine.Recovery

/-!
# What recovery brings back

The replay of the log goes into a hot store that takes `max_records` entries and
drops the rest, while the records an eviction has moved to the cold store are the
first ones to be loaded again. So the last record of a longer history is in
neither store.

* `kept_run`: the log of a run of accepted inserts is read as its calls, and the
  cold store holds ids of earlier calls only.
* `reopened_get`: while the hot store takes them all, every record is found again.
* `reopened_lost`: else the last one is not.
* `recovery_complete_iff`: recovery is complete exactly for histories that fit.
-/
namespace Tesseract.L4.Engine

open L1.Wal L2.Log L3 L3.Serde

variable {α β : Type} [F64 α] [F32 β] [Narrow α β] {P : Deps α}

/-- JSON carries what the call writes, to the log and to a batch. -/
structure RoundTrips (P : Deps α) (c : Call α) : Prop where
  finite : FiniteVec c.vector
  depth : c.metadata.depth ≤ 125
  vector : c.vector.map P.codec.text.back = c.vector
  metadata : c.metadata.map P.codec.text.reread = c.metadata

/-- What is known of the engine behind the calls `cs`. -/
structure Kept (P : Deps α) (S : Set (List β)) (config : StorageConfig α) (cs : List (Call α))
    (s : Engine α β) (parts : ColdStore.Parts α) : Prop where
  config : s.config = config
  files : ∃ log, Recoverable P S s log (cs.map (readBack P)) parts
  hot : ∀ r ∈ s.hot.vectors, ColdStore.Readable r ∧ r.id ∈ cs.map Call.id
  cold : ∀ p, ∀ r ∈ (parts p).flatten, r.id ∈ cs.dropLast.map Call.id

theorem Kept.insert {S : Set (List β)} {config : StorageConfig α} {cs : List (Call α)}
    {s s' : Engine α β} {parts : ColdStore.Parts α} (hK : P.codec.Lawful)
    (h : Kept P S config cs s parts) {c : Call α} (hf : c.env.Faultless) (hc : RoundTrips P c)
    (hfits : (payload P c).length < 2 ^ 32)
    (hS : config.index.enabled = true → c.vector.map Narrow.toF32 ∈ S)
    (hlen : cs.length + 1 < 2 ^ 64) (hins : s.insert P c = some (s', .ok ())) :
    ∃ parts', Kept P S config (cs ++ [c]) s' parts' := by
  obtain ⟨log, hfiles⟩ := h.files
  have hcount : log.length = cs.length := by
    have := hfiles.decodes.length_eq
    rwa [List.length_map] at this
  have hsound : Sound P S s c := by
    refine ⟨hf, hfits, ?_, hc.finite, by have := hc.depth; omega, ?_, fun _ r hr =>
      (h.hot r (evicted_sub r hr)).1⟩
    · rw [hfiles.next, hcount]
      intro h0
      have := congrArg UInt64.toNat h0
      rw [toNat_ofNat hlen, UInt64.toNat_zero] at this
      omega
    · intro hon _
      rw [hc.vector]
      exact hS (h.config ▸ hon)
  obtain ⟨hconfig, hfiles'⟩ := hfiles.insert hK hsound hins
  rw [show cs.map (readBack P) ++ [readBack P c] = (cs ++ [c]).map (readBack P) by simp] at hfiles'
  obtain ⟨rh, hstore, _⟩ := insert_inv hins hf.1
  refine ⟨_, hconfig.trans h.config, ⟨_, hfiles'⟩, ?_, ?_⟩
  · intro r hr
    rw [List.map_append, List.mem_append]
    rcases storeRecord_sub hf.2 hstore r hr with hr | rfl
    · exact (h.hot r hr).imp_right .inl
    · exact ⟨⟨hc.finite, hc.depth⟩, .inr (by simp [record])⟩
  · intro p r hr
    rw [List.dropLast_concat]
    rcases mem_batchesAfter.mp hr with hold | ⟨_, _, r₀, hnew, rfl⟩
    · exact ((List.dropLast_sublist cs).map _).subset (h.cold p r hold)
    · exact (h.hot r₀ (evicted_sub r₀ hnew)).2

/-- Behind a run of accepted inserts. -/
theorem kept_run {S : Set (List β)} {env : OpenEnv} {config : StorageConfig α} {s₀ s : Engine α β}
    {cs : List (Call α)} (hK : P.codec.Lawful) (h₀ : create P env config = some (.ok s₀))
    (hrun : (accepting P).Run s₀ cs s)
    (hcs : ∀ c ∈ cs, c.env.Faultless ∧ RoundTrips P c ∧ (payload P c).length < 2 ^ 32)
    (hS : ∀ c ∈ cs, config.index.enabled = true → c.vector.map Narrow.toF32 ∈ S)
    (hlen : cs.length < 2 ^ 64) :
    ∃ parts, Kept P S config cs s parts := by
  apply hrun.history (I := fun cs s => ∃ parts, Kept P S config cs s parts)
  · obtain ⟨hconfig, _, hhot, _⟩ := create_eq_ok h₀
    refine ⟨_, hconfig, ⟨[], create_recoverable P S h₀⟩, ?_, by simp⟩
    rw [hhot]
    simp [HotStore.new]
  · rintro pre c s s' hpre ⟨parts, hkept⟩ hst
    have hc : c ∈ cs := hpre.subset (by simp)
    have hle := hpre.length_le
    rw [List.length_append, List.length_singleton] at hle
    obtain ⟨hf, hround, hfits⟩ := hcs c hc
    exact hkept.insert hK hf hround hfits (hS c hc) (by omega) (insertOk_eq_some.mp hst)

/-! ## Behind a reopen -/

theorem findCold_none {cold : ColdStore} {id : UInt64}
    (h : ∀ p, ∃ rs, cold.readPartition P.codec p = .ok rs ∧ ∀ r ∈ rs, r.id ≠ id) :
    ∀ ps, findCold P cold id ps = .ok none := by
  intro ps
  induction ps with
  | nil => rfl
  | cons p ps ih =>
    obtain ⟨rs, hrs, hid⟩ := h p
    have hnone : rs.find? (fun r => r.id == id) = none := by
      rw [List.find?_eq_none]
      intro r hr
      simpa using hid r hr
    rw [findCold_read hrs, hnone]
    exact ih

section Reopened

variable {S : Set (List β)} {config : StorageConfig α} {cs : List (Call α)} {c : Call α}
  {s s' : Engine α β}
  {parts : ColdStore.Parts α} {env : OpenEnv}

theorem Kept.reopen [LawfulF32 β] (hK : P.codec.Lawful) (h : Kept P S config cs s parts)
    (hS : Comparable config.computer S) (env : OpenEnv) : ∃ s', s.reopen P env = some (.ok s') ∧
      s'.hot = loadAll env 0 (cs.map (readBack P)) (HotStore.new config.maxRecords) ∧
        s'.cold.disk = s.cold.disk := by
  obtain ⟨log, hfiles⟩ := h.files
  have hreopen := hfiles.reopen hK (h.config ▸ hS) env
  rwa [h.config] at hreopen

/-- The ids of the calls, as the log is read. -/
theorem readBack_ids (P : Deps α) (cs : List (Call α)) :
    (cs.map (readBack P)).map Prod.fst = cs.map Call.id := by
  rw [List.map_map]
  rfl

omit [F32 β] [Narrow α β] in
/-- A history that fits is found again. -/
theorem reopened_get (hids : (cs.map Call.id).Nodup) (hcs : ∀ c ∈ cs, RoundTrips P c)
    (hfit : cs.length ≤ config.maxRecords.toNat)
    (hhot : s'.hot = loadAll env 0 (cs.map (readBack P)) (HotStore.new config.maxRecords)) :
    ∀ c ∈ cs, ∀ rank, ∃ r, s'.get P rank c.id = .ok (some r) ∧ r.vector = c.vector ∧
      r.metadata = c.metadata := by
  intro c hc rank
  obtain ⟨r, hget, hvec, hmeta⟩ :=
    loadAll_room env (cs.map (readBack P)) 0 (HotStore.new config.maxRecords)
    (by rw [readBack_ids]; simpa [HotStore.new] using hids) (by simpa [HotStore.new] using hfit)
    (readBack P c) (List.mem_map_of_mem hc)
  refine ⟨r, ?_, hvec.trans (hcs c hc).vector, hmeta.trans (hcs c hc).metadata⟩
  rw [get, hhot, show c.id = (readBack P c).1 from rfl, hget]

omit [F32 β] in
/-- The last call of a history that does not fit is in neither store. -/
theorem reopened_lost (h : Kept P S config (cs ++ [c]) s parts)
    (hids : ((cs ++ [c]).map Call.id).Nodup) (hmax : config.maxRecords ≠ 0)
    (hover : config.maxRecords.toNat ≤ cs.length)
    (hhot : s'.hot = loadAll env 0 ((cs ++ [c]).map (readBack P)) (HotStore.new config.maxRecords))
    (hcold : s'.cold.disk = s.cold.disk) (rank : UInt64 → Nat) : s'.get P rank c.id = .ok none := by
  have hnew : c.id ∉ cs.map Call.id := by
    rw [List.map_append, List.map_singleton] at hids
    intro hc
    exact (List.nodup_append.mp hids).2.2 c.id hc c.id (by simp) rfl
  have hnone : s'.hot.get c.id = none := by
    rw [HotStore.get_eq_none]
    intro hc
    obtain ⟨r, hr, hid⟩ := List.mem_map.mp hc
    rw [hhot] at hr
    rcases loadAll_ids env _ 0 (HotStore.new config.maxRecords)
      (by rw [readBack_ids]; simpa [HotStore.new] using hids)
      hmax r hr with hr | hr
    · cases hr
    · -- only the calls before the last one are loaded
      rw [List.map_take, readBack_ids, hid, List.map_append,
        List.take_append_of_le_length (by simpa [HotStore.new] using hover)] at hr
      exact hnew (List.mem_of_mem_take hr)
  rw [get, hnone]
  apply findCold_none
  intro p
  obtain ⟨log, hfiles⟩ := h.files
  obtain ⟨rs, hrs, hsub⟩ := hfiles.holds.readPartition_sub p
  refine ⟨rs, ?_, fun r hr hid => ?_⟩
  · unfold ColdStore.readPartition at hrs ⊢
    rw [hcold]
    exact hrs
  · have hcold := h.cold p r (hsub r hr)
    rw [List.dropLast_concat, hid] at hcold
    exact hnew hcold

end Reopened

/-! ## Complete recovery -/

/-- Every call has its record in the engine. -/
def HoldsAll (P : Deps α) (s : Engine α β) (cs : List (Call α)) : Prop :=
  ∀ c ∈ cs, ∀ rank, ∃ r, s.get P rank c.id = .ok (some r) ∧ r.vector = c.vector ∧
    r.metadata = c.metadata

/-- The vectors in the index of a run, none without an index. -/
def compared (config : StorageConfig α) (cs : List (Call α)) : Set (List β) :=
  { v | config.index.enabled = true ∧ ∃ c ∈ cs, v = c.vector.map Narrow.toF32 }

/-- After accepted inserts of distinct ids, a reopen finds them all exactly when
the hot store takes them all. -/
theorem recovery_complete_iff [LawfulF32 β] (hK : P.codec.Lawful) {env₀ env : OpenEnv}
    {config : StorageConfig α} {s₀ s : Engine α β} {cs : List (Call α)}
    (h₀ : create P env₀ config = some (.ok s₀)) (hrun : (accepting P).Run s₀ cs s)
    (hmax : config.maxRecords ≠ 0) (hids : (cs.map Call.id).Nodup)
    (hcs : ∀ c ∈ cs, c.mode = .durable ∧ c.env.Faultless ∧ RoundTrips P c)
    (hlen : cs.length < 2 ^ 64) (hfits : ∀ c ∈ cs, (payload P c).length < 2 ^ 32)
    (hnan : Comparable config.computer (compared config cs : Set (List β))) :
    (∃ s', s.reopen P env = some (.ok s') ∧ HoldsAll P s' cs) ↔
      cs.length ≤ config.maxRecords.toNat := by
  have hS : ∀ c ∈ cs, config.index.enabled = true →
    c.vector.map Narrow.toF32 ∈ (compared config cs : Set (List β)) :=
    fun c hc hon => ⟨hon, c, hc, rfl⟩
  obtain ⟨parts, hkept⟩ :=
    kept_run hK h₀ hrun (fun c hc => ⟨(hcs c hc).2.1, (hcs c hc).2.2, hfits c hc⟩) hS hlen
  obtain ⟨s', hs', hhot, hcold⟩ := hkept.reopen hK hnan env
  constructor
  · intro ⟨s₁, hs₁, hall⟩
    obtain rfl : s₁ = s' := by
      rw [hs'] at hs₁
      cases hs₁
      rfl
    by_contra hover
    rcases List.eq_nil_or_concat cs with hnil | ⟨init, c, hconcat⟩
    · simp [hnil] at hover
    · rw [List.concat_eq_append] at hconcat
      subst hconcat
      rw [List.length_append, List.length_singleton] at hover
      have hlost := reopened_lost hkept hids hmax (by omega) hhot hcold UInt64.toNat
      obtain ⟨r, hr, _⟩ := hall c (by simp) UInt64.toNat
      rw [hlost] at hr
      cases hr
  · intro hfit
    exact ⟨s', hs', reopened_get hids (fun c hc => (hcs c hc).2.2) hfit hhot⟩

/-! ## Two inserts -/

theorem call_roundTrips (id : UInt64) (n : Int) : RoundTrips deps (call id [n]) := by
  refine ⟨?_, Nat.zero_le _, rfl, rfl⟩
  intro x hx
  rw [show (call id [n]).vector = [Lit.fin n] from rfl, List.mem_singleton] at hx
  rw [hx]
  rfl

theorem linearTwo_run : (accepting deps).Run linear [call 1 [5], call 2 [3]] linearTwo := by
  have h₁ : (accepting deps).step linear (call 1 [5]) linearOne :=
    accepting_step _ (by decide +kernel)
  have h₂ : (accepting deps).step linearOne (call 2 [3]) linearTwo :=
    accepting_step _ (by decide +kernel)
  exact .cons h₁ (.cons h₂ (.nil linearTwo))

theorem recovery_complete_two :
    ∃ s', linearTwo.reopen deps calmOpen = some (.ok s') ∧
      HoldsAll deps s' [call 1 [5], call 2 [3]] := by
  have hnan : Comparable (small 10 (some 1)).computer
      (compared (small 10 (some 1)) [call 1 [5], call 2 [3]] : Set (List Lit)) := by
    intro u ⟨_, c, hc, hu⟩ v ⟨_, d, hd, hv⟩
    have hvec : ∀ c ∈ [call 1 [5], call 2 [3]], c.vector.map Narrow.toF32 ∈ fiveThree := by
      simp [call, fiveThree, Narrow.toF32]
    rw [hu, hv]
    exact fiveThree_comparable _ (hvec c hc) _ (hvec d hd)
  refine (recovery_complete_iff plain_lawful linear_create linearTwo_run (by decide) (by decide) ?_
    (by decide) ?_ hnan).mpr
    (by decide)
  · intro c hc
    rcases List.mem_cons.mp hc with rfl | hc
    · exact ⟨rfl, calm_faultless, call_roundTrips 1 5⟩
    · rw [List.mem_singleton.mp hc]
      exact ⟨rfl, calm_faultless, call_roundTrips 2 3⟩
  · decide +kernel

/-- One hot record, and two inserts. -/
def single : Engine Lit Lit := (opened (small 1 none)).get (by decide +kernel)

def singleOne : Engine Lit Lit := ((single.insert deps (call 1 [5])).get (by decide +kernel)).1

def singleTwo : Engine Lit Lit := ((singleOne.insert deps (call 2 [3])).get (by decide +kernel)).1

def singleAgain : Engine Lit Lit :=
  ((singleTwo.reopen deps calmOpen).bind Except.toOption).get (by decide +kernel)

/-- Both inserts are accepted, the first one goes to the cold store, and the
second one is gone behind the reopen. -/
theorem second_record_lost : create deps calmOpen (small 1 none) = some (.ok single) ∧
    (accepting deps).Run single [call 1 [5], call 2 [3]] singleTwo ∧
    singleTwo.reopen deps calmOpen = some (.ok singleAgain) ∧
    ¬ HoldsAll deps singleAgain [call 1 [5], call 2 [3]] := by
  have h₁ : (accepting deps).step single (call 1 [5]) singleOne :=
    accepting_step _ (by decide +kernel)
  have h₂ : (accepting deps).step singleOne (call 2 [3]) singleTwo :=
    accepting_step _ (by decide +kernel)
  refine ⟨create_of_opened (by rw [single, Option.some_get]), .cons h₁ (.cons h₂ (.nil singleTwo)),
    eq_ok_of_toOption (by rw [singleAgain, Option.some_get]), ?_⟩
  intro hall
  obtain ⟨r, hr, _⟩ := hall (call 2 [3]) (by simp) UInt64.toNat
  have hnone : (singleAgain.get deps UInt64.toNat (call 2 [3]).id).map Option.isSome =
    .ok false := by decide +kernel
  rw [hr] at hnone
  cases hnone

end Tesseract.L4.Engine
