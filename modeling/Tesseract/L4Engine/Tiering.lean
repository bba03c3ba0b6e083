import Tesseract.L4Engine.Agreement
import Tesseract.L4Engine.Completeness
import Tesseract.L3Store.ColdSessions

/-!
# Records between the tiers

Inserts of new ids, promotion and demotion cycles, in any order and without I/O
failures. An eviction moves records to the partition of the day, a demotion to
partition 0, and a promotion copies them back as far as there is room.

* `Tiers`: every inserted id is in the hot store or in a batch, and whatever
  carries an id is a copy of the record inserted under it.
* `Tiers.drain`, `Tiers.promote`: both directions keep it.
* `tiering_keeps_all`: while batch numbers fit the reader's `u32`, `get` returns
  every inserted record.
* `tiering_loses_one`: a record in the batch 2^32 is not found any more.
-/
namespace Tesseract.L4.Engine

open L2.Log L3 L3.Serde

variable {α β : Type} [F64 α] [F32 β] [Narrow α β] {P : Deps α}

/-! ## Calls -/

/-- The state behind a cycle that returns `Ok`. -/
def okCycle (p : Engine α β × Result Unit) : Option (Engine α β) :=
  match p with
  | (s, .ok ()) => some s
  | (_, .error _) => none

/-- Inserts and cycles that return `Ok`. -/
def tierStep (P : Deps α) (s : Engine α β) : Label α → Option (Engine α β)
  | .insert c => insertOk P s c
  | .promote rank => okCycle (s.runPromotion P rank)
  | .demote env => okCycle (s.runDemotion P env)
  | .shutdown | .reopen _ => none

def tiering (P : Deps α) : LTS (Engine α β) (Label α) := LTS.ofFn (Fresh P) (tierStep P)

def insertedBy : Label α → Option (Call α)
  | .insert c => some c
  | _ => none

/-- The inserts of a run. -/
def inserted (ls : List (Label α)) : List (Call α) := ls.filterMap insertedBy

/-- No write of the call fails, and JSON carries what it inserts. -/
def Undisturbed (P : Deps α) : Label α → Prop
  | .insert c => c.env.Faultless ∧ RoundTrips P c
  | .demote env => env.coldFault = .none
  | _ => True

/-- A batch that the call writes gets a number that a `u32` can hold. -/
def Countable (s : Engine α β) : Label α → Prop
  | .insert c => s.hot.full → (s.cold.batchNum c.env.day).toNat < 2 ^ 32
  | .demote _ => s.config.hotMaxRecords < s.hot.vectors.length →
      (s.cold.batchNum 0).toNat < 2 ^ 32
  | _ => True

/-! ## The invariant of the tiers -/

/-- `r` carries what `c` inserted. -/
def Copies (c : Call α) (r : VectorRecord α) : Prop :=
  r.id = c.id ∧ r.vector = c.vector ∧ r.metadata = c.metadata

structure Tiers (P : Deps α) (cs : List (Call α)) (hot : HotStore α) (cold : ColdStore)
    (parts : ColdStore.Parts α) : Prop where
  holds : cold.Holds P.codec parts
  short : ∀ p, (parts p).length < 2 ^ 32
  inHot : ∀ r ∈ hot.vectors, ∃ c ∈ cs, Copies c r
  inCold : ∀ p, ∀ r ∈ (parts p).flatten, ∃ c ∈ cs, Copies c r
  found : ∀ c ∈ cs, c.id ∈ hot.vectors.map VectorRecord.id ∨
    ∃ p, ∃ r ∈ (parts p).flatten, r.id = c.id

theorem Copies.readable {c : Call α} {r : VectorRecord α} (h : Copies c r) (hc : RoundTrips P c) :
    ColdStore.Readable r ∧ P.codec.text.backRecord r = r := by
  obtain ⟨id, vector, metadata, createdAt, accessCount⟩ := r
  obtain ⟨_, rfl, rfl⟩ := h
  refine ⟨⟨hc.finite, hc.depth⟩, ?_⟩
  rw [Text.backRecord, hc.vector, hc.metadata]

section
variable {cs : List (Call α)} {hot : HotStore α} {cold : ColdStore} {parts : ColdStore.Parts α}

/-- A record of a new id. -/
theorem Tiers.add (h : Tiers P cs hot cold parts) {hot' : HotStore α} {c : Call α}
    (hvec : hot'.vectors = hot.vectors ++ [record c]) : Tiers P (cs ++ [c]) hot' cold parts := by
  refine ⟨h.holds, h.short, ?_, ?_, ?_⟩
  · intro r hr
    rw [hvec, List.mem_append, List.mem_singleton] at hr
    rcases hr with hr | rfl
    · obtain ⟨c', hc', hcopy⟩ := h.inHot r hr
      exact ⟨c', List.mem_append_left _ hc', hcopy⟩
    · exact ⟨c, by simp, rfl, rfl, rfl⟩
  · intro p r hr
    obtain ⟨c', hc', hcopy⟩ := h.inCold p r hr
    exact ⟨c', List.mem_append_left _ hc', hcopy⟩
  · intro c' hc'
    rw [hvec, List.map_append, List.mem_append]
    rw [List.mem_append, List.mem_singleton] at hc'
    rcases hc' with hc' | rfl
    · rcases h.found c' hc' with hhot | hcold
      · exact .inl (.inl hhot)
      · exact .inr hcold
    · exact .inl (.inr (by simp [record]))

/-- Least accessed records move to the partition `p`. -/
theorem Tiers.drain (hK : P.codec.Lawful) (h : Tiers P cs hot cold parts)
    (hcs : ∀ c ∈ cs, RoundTrips P c) {rank coldRank : UInt64 → Nat} {n : Nat} {p : UInt64}
    {cold' : ColdStore} {r : Result Unit} (hne : (hot.drainLeastAccessed rank n).2 ≠ [])
    (hnum : (cold.batchNum p).toNat < 2 ^ 32)
    (hw : cold.writeBatch P.codec .none coldRank p (hot.drainLeastAccessed rank n).2 =
      (cold', r)) :
    r = .ok () ∧ ∃ parts', Tiers P cs (hot.drainLeastAccessed rank n).1 cold' parts' := by
  have hperm := (hot.drainLeastAccessed_perm rank n).1
  generalize hot.drainLeastAccessed rank n = d at hne hw hperm ⊢
  obtain ⟨rest, drained⟩ := d
  have hcopy : ∀ r ∈ drained, ∃ c ∈ cs, Copies c r := by
    intro r hr
    exact h.inHot r (hperm.mem_iff.mpr (List.mem_append_left _ hr))
  have hread : ∀ r ∈ drained, ColdStore.Readable r ∧ P.codec.text.backRecord r = r := by
    intro r hr
    obtain ⟨c, hc, hcr⟩ := hcopy r hr
    exact hcr.readable (hcs c hc)
  have hlen := h.short p
  have hnext := h.holds.batchNum (p := p) (by omega)
  obtain ⟨hok, hholds⟩ := ColdStore.writeBatch_holds hK h.holds hne (fun r hr => (hread r hr).1)
    (by omega) hw
  rw [ColdStore.map_backRecord hread] at hholds
  refine ⟨hok, _, hholds, ColdStore.short_more h.short (by omega), ?_, ?_, ?_⟩
  · intro r hr
    exact h.inHot r (hperm.mem_iff.mpr (List.mem_append_right _ hr))
  · intro q r hr
    rcases ColdStore.mem_flatten_more.mp hr with hr | ⟨_, hr⟩
    · exact h.inCold q r hr
    · exact hcopy r hr
  · intro c hc
    rcases h.found c hc with hhot | ⟨q, r, hr, hid⟩
    · obtain ⟨r, hr, hid⟩ := List.mem_map.mp hhot
      rcases List.mem_append.mp (hperm.mem_iff.mp hr) with hr | hr
      · exact .inr ⟨p, r, ColdStore.mem_flatten_more.mpr (.inr ⟨rfl, hr⟩), hid⟩
      · exact .inl (List.mem_map.mpr ⟨r, hr, hid⟩)
    · exact .inr ⟨q, r, ColdStore.mem_flatten_more.mpr (.inl hr), hid⟩

/-! ## Promotion -/

/-- Records that are copied into the hot store as far as it takes them. -/
theorem promote_sub (rs : List (VectorRecord α)) : ∀ hot : HotStore α,
    (∀ r ∈ hot.vectors, r ∈ (rs.foldl (fun hot r => (hot.insert r).1) hot).vectors) ∧
    ∀ r ∈ (rs.foldl (fun hot r => (hot.insert r).1) hot).vectors, r ∈ hot.vectors ∨ r ∈ rs := by
  induction rs with
  | nil => exact fun hot => ⟨fun r hr => hr, fun r hr => .inl hr⟩
  | cons x rs ih =>
    intro hot
    obtain ⟨hkeep, honly⟩ := ih (hot.insert x).1
    have hstep : ∀ r, r ∈ hot.vectors → r ∈ (hot.insert x).1.vectors := by
      intro r hr
      rcases hot.insert_cases x with ⟨_, heq⟩ | ⟨_, _, heq⟩ | ⟨_, _, _, _, hvec⟩
      · rwa [heq]
      · rwa [heq]
      · rw [hvec]
        exact List.mem_append_left _ hr
    have hback : ∀ r, r ∈ (hot.insert x).1.vectors → r ∈ hot.vectors ∨ r = x := by
      intro r hr
      rcases hot.insert_cases x with ⟨_, heq⟩ | ⟨_, _, heq⟩ | ⟨_, _, _, _, hvec⟩
      · rw [heq] at hr
        exact .inl hr
      · rw [heq] at hr
        exact .inl hr
      · rw [hvec] at hr
        simpa using hr
    refine ⟨fun r hr => hkeep r (hstep r hr), ?_⟩
    intro r hr
    rcases honly r hr with hr | hr
    · rcases hback r hr with hr | rfl
      · exact .inl hr
      · exact .inr (List.mem_cons_self ..)
    · exact .inr (List.mem_cons_of_mem _ hr)

theorem Tiers.promotePartitions (h : Tiers P cs hot cold parts) : ∀ (ps : List UInt64)
    {hot' : HotStore α} {r : Result Unit}, promotePartitions P cold ps hot = (hot', r) →
    r = .ok () ∧ Tiers P cs hot' cold parts := by
  intro ps
  induction ps generalizing hot with
  | nil =>
    intro hot' r hp
    cases hp
    exact ⟨rfl, h⟩
  | cons p ps ih =>
    intro hot' r hp
    rw [Engine.promotePartitions, h.holds.readPartition (h.short p)] at hp
    obtain ⟨hkeep, honly⟩ := promote_sub (parts p).flatten hot
    refine ih ⟨h.holds, h.short, ?_, h.inCold, ?_⟩ hp
    · intro r hr
      rcases honly r hr with hr | hr
      · exact h.inHot r hr
      · exact h.inCold p r hr
    · intro c hc
      refine (h.found c hc).imp_left ?_
      intro hin
      obtain ⟨r, hr, hid⟩ := List.mem_map.mp hin
      exact List.mem_map.mpr ⟨r, hkeep r hr, hid⟩

end

/-! ## Steps and runs -/

theorem Tiers.insert (hK : P.codec.Lawful) {cs : List (Call α)} {s s' : Engine α β}
    {parts : ColdStore.Parts α} (h : Tiers P cs s.hot s.cold parts)
    (hcs : ∀ c ∈ cs, RoundTrips P c) {c : Call α} (hf : c.env.Faultless)
    (hnew : c.id ∉ cs.map Call.id) (hnum : Countable s (.insert c))
    (hins : s.insert P c = some (s', .ok ())) :
    ∃ parts', Tiers P (cs ++ [c]) s'.hot s'.cold parts' := by
  obtain ⟨rh, hstore, _, _, _, hrest⟩ := insert_inv hins hf.1
  obtain rfl : rh = .ok () := by
    rcases hrest with ⟨x, _, hx, _⟩ | hok
    · cases hx
    · exact hok.1
  rcases storeRecord_cases (P := P) c.env hf.2 s.hot s.cold (record c) with
    ⟨_, _, _, heq, _, hvec⟩ | ⟨_, hknown, _⟩ | ⟨hfull, cold', hw, ⟨_, _, heq, _, hvec⟩ | ⟨_, heq⟩⟩
  · rw [heq, Prod.mk.injEq, Prod.mk.injEq] at hstore
    obtain ⟨rfl, hcold, _⟩ := hstore
    rw [← hcold]
    exact ⟨parts, h.add hvec⟩
  · -- whatever has the id is a copy of an earlier insert of it
    obtain ⟨r, hr⟩ := Option.ne_none_iff_exists'.mp hknown
    obtain ⟨hmem, hid⟩ := HotStore.get_eq_some.mp hr
    obtain ⟨c', hc', hcopy⟩ := h.inHot r hmem
    exact absurd (List.mem_map.mpr ⟨c', hc', hcopy.1.symm.trans hid⟩) hnew
  · rw [heq, Prod.mk.injEq, Prod.mk.injEq] at hstore
    obtain ⟨rfl, rfl, _⟩ := hstore
    have hne := HotStore.drain_ne_nil hfull c.env.hotRank (show 0 < 100 by omega)
    obtain ⟨_, parts', hdrained⟩ := h.drain hK hcs hne (hnum hfull) hw
    exact ⟨parts', hdrained.add hvec⟩
  · rw [heq] at hstore
    simp at hstore

omit [F32 β] [Narrow α β] in
theorem okCycle_eq_some {p : Engine α β × Result Unit} {s : Engine α β} :
    okCycle p = some s ↔ p = (s, .ok ()) := by
  obtain ⟨s', r⟩ := p
  cases r <;> simp [okCycle]

omit [F32 β] [Narrow α β] in
theorem Tiers.promote {cs : List (Call α)} {s : Engine α β} {parts : ColdStore.Parts α}
    (h : Tiers P cs s.hot s.cold parts) (rank : UInt64 → Nat) :
    (s.runPromotion P rank).2 = .ok () ∧
    Tiers P cs (s.runPromotion P rank).1.hot (s.runPromotion P rank).1.cold parts :=
  h.promotePartitions (s.cold.partitions rank) rfl

omit [F32 β] [Narrow α β] in
theorem Tiers.demote (hK : P.codec.Lawful) {cs : List (Call α)} {s : Engine α β}
    {parts : ColdStore.Parts α} (h : Tiers P cs s.hot s.cold parts)
    (hcs : ∀ c ∈ cs, RoundTrips P c) {env : Env} (hf : env.coldFault = .none)
    (hnum : Countable s (.demote env)) :
    (s.runDemotion P env).2 = .ok () ∧
    ∃ parts', Tiers P cs (s.runDemotion P env).1.hot (s.runDemotion P env).1.cold parts' := by
  unfold runDemotion
  split
  · exact ⟨rfl, parts, h⟩
  · next hover =>
    have hlen := (s.hot.drainLeastAccessed_perm env.hotRank
      (s.hot.vectors.length - s.config.hotMaxRecords)).2.2
    have hne : (s.hot.drainLeastAccessed env.hotRank
        (s.hot.vectors.length - s.config.hotMaxRecords)).2 ≠ [] := by
      intro hnil
      rw [hnil, List.length_nil] at hlen
      omega
    rw [hf]
    exact h.drain hK hcs hne (hnum (by omega)) rfl

/-- Every record is where a run of calls has left it. -/
theorem tiers_run (hK : P.codec.Lawful) {s₀ s : Engine α β} {ls : List (Label α)}
    (h₀ : Fresh P s₀) (hrun : ((tiering P).restrict Countable).Run s₀ ls s)
    (hls : ∀ l ∈ ls, Undisturbed P l) (hids : ((inserted ls).map Call.id).Nodup) :
    ∃ parts, Tiers P (inserted ls) s.hot s.cold parts := by
  obtain ⟨env, config, hcreate⟩ := h₀
  obtain ⟨_, _, hhot, hcold, _⟩ := create_eq_ok hcreate
  refine hrun.history (I := fun ls s => ∃ parts, Tiers P (inserted ls) s.hot s.cold parts) ?_ ?_
  · rw [hhot, hcold]
    exact ⟨_, ColdStore.Holds.empty P.codec, by simp, by simp [HotStore.new], by simp,
      by simp [inserted]⟩
  · rintro pre l s s' hpre ⟨parts, h⟩ ⟨hst, hnum⟩
    have hl := hls l (hpre.subset (by simp))
    have hcs : ∀ c ∈ inserted pre, RoundTrips P c := by
      intro c hc
      obtain ⟨l', hl', heq⟩ := List.mem_filterMap.mp hc
      have hl'' := hls l' (hpre.subset (List.mem_append_left _ hl'))
      cases l' with
      | insert c' =>
        cases heq
        exact hl''.2
      | _ => cases heq
    have hsplit : inserted (pre ++ [l]) = inserted pre ++ (insertedBy l).toList := by
      rw [inserted, List.filterMap_append, inserted]
      cases l <;> rfl
    rw [hsplit]
    cases l with
    | insert c =>
      have hnodup : ((inserted (pre ++ [.insert c])).map Call.id).Nodup :=
        ((hpre.filterMap insertedBy).map Call.id).sublist.nodup hids
      rw [hsplit, List.map_append, List.nodup_append] at hnodup
      have hnew : c.id ∉ (inserted pre).map Call.id := by
        intro hin
        exact hnodup.2.2 c.id hin c.id (by simp [insertedBy]) rfl
      exact h.insert hK hcs hl.1 hnew hnum (insertOk_eq_some.mp hst)
    | promote rank =>
      have h' := (h.promote rank).2
      rw [okCycle_eq_some.mp hst] at h'
      exact ⟨parts, by simpa [insertedBy] using h'⟩
    | demote env =>
      obtain ⟨_, parts', h'⟩ := h.demote hK hcs hl hnum
      rw [okCycle_eq_some.mp hst] at h'
      exact ⟨parts', by simpa [insertedBy] using h'⟩
    | shutdown => cases hst
    | reopen env => cases hst

omit [F32 β] [Narrow α β] in
/-- Whatever `get` finds under an id is a copy of the record inserted under it. -/
theorem Tiers.get {cs : List (Call α)} {s : Engine α β} {parts : ColdStore.Parts α}
    (h : Tiers P cs s.hot s.cold parts) (hids : (cs.map Call.id).Nodup) {c : Call α} (hc : c ∈ cs)
    (rank : UInt64 → Nat) : ∃ r, s.get P rank c.id = .ok (some r) ∧ Copies c r := by
  have hsame : ∀ r : VectorRecord α, r.id = c.id → (∃ c' ∈ cs, Copies c' r) → Copies c r := by
    intro r hid ⟨c', hc', hcopy⟩
    have heq : c' = c := List.inj_on_of_nodup_map hids hc' hc (hcopy.1.symm.trans hid)
    rw [← heq]
    exact hcopy
  unfold Engine.get
  cases hhot : s.hot.get c.id with
  | some r =>
    obtain ⟨hr, hid⟩ := HotStore.get_eq_some.mp hhot
    exact ⟨r, rfl, hsame r hid (h.inHot r hr)⟩
  | none =>
    obtain ⟨p, r, hr, hid⟩ := (h.found c hc).resolve_left (HotStore.get_eq_none.mp hhot)
    have hp : p ∈ s.cold.partitions rank := by
      rw [ColdStore.partitions, ColdStore.mem_keysInOrder, h.holds.writers p]
      intro hnil
      rw [hnil] at hr
      cases hr
    obtain ⟨q, r', heq, hr', hid'⟩ :=
      findCold_some (P := P) (fun p => h.holds.readPartition (h.short p)) _ ⟨p, hp, r, hr, hid⟩
    exact ⟨r', heq, hsame r' hid' (h.inCold q r' hr')⟩

/-- While the batch numbers fit, `get` returns every record inserted so far. -/
theorem tiering_keeps_all (hK : P.codec.Lawful) {s₀ s : Engine α β} {ls : List (Label α)}
    (h₀ : Fresh P s₀) (hrun : ((tiering P).restrict Countable).Run s₀ ls s)
    (hls : ∀ l ∈ ls, Undisturbed P l) (hids : ((inserted ls).map Call.id).Nodup) :
    ∀ c ∈ inserted ls, ∀ rank, ∃ r, s.get P rank c.id = .ok (some r) ∧ r.vector = c.vector ∧
      r.metadata = c.metadata := by
  intro c hc rank
  obtain ⟨parts, h⟩ := tiers_run hK h₀ hrun hls hids
  obtain ⟨r, hget, hcopy⟩ := h.get hids hc rank
  exact ⟨r, hget, hcopy.2⟩

/-! ## Concrete runs -/

/-- Two hot records at most, and one of them is left behind a demotion. -/
def shelfConfig : StorageConfig Lit := { small 2 none with hotMaxRecords := 1 }

def shelf : Engine Lit Lit := (opened shelfConfig).get (by decide +kernel)

/-- The third insert evicts both records; the promotion brings one back, and the
demotion writes it a second time. -/
def shelfCalls : List (Label Lit) :=
  [.insert (call 1 [5]), .insert (call 2 [6]), .insert (call 3 [7]), .promote UInt64.toNat,
    .demote calm]

instance (s : Engine Lit Lit) (l : Label Lit) : Decidable (Countable s l) := by
  cases l <;> unfold Countable <;> infer_instance

def shelfEnd : Engine Lit Lit :=
  (LTS.exec (tierStep deps) Countable shelf shelfCalls).get (by decide +kernel)

theorem shelf_undisturbed : ∀ l ∈ shelfCalls, Undisturbed deps l := by
  intro l hl
  simp only [shelfCalls, List.mem_cons, List.not_mem_nil, or_false] at hl
  rcases hl with rfl | rfl | rfl | rfl | rfl
  · exact ⟨calm_faultless, call_roundTrips 1 5⟩
  · exact ⟨calm_faultless, call_roundTrips 2 6⟩
  · exact ⟨calm_faultless, call_roundTrips 3 7⟩
  · exact trivial
  · exact rfl

theorem tiering_keeps_shelf :
    ((tiering deps).restrict Countable).Run shelf shelfCalls shelfEnd ∧
      ∀ c ∈ inserted shelfCalls, ∀ rank, ∃ r, shelfEnd.get deps rank c.id = .ok (some r) ∧
        r.vector = c.vector ∧ r.metadata = c.metadata := by
  have hfresh : Fresh deps shelf :=
    ⟨calmOpen, shelfConfig, create_of_opened (by rw [shelf, Option.some_get])⟩
  have hrun : ((tiering deps).restrict Countable).Run shelf shelfCalls shelfEnd :=
    LTS.run_of_exec (Option.some_get _).symm
  exact ⟨hrun, tiering_keeps_all plain_lawful hfresh hrun shelf_undisturbed (by decide)⟩

/-- No index, no trackers and no Merkle tier. -/
structure Bare (s : Engine Lit Lit) : Prop where
  untracked : Untracked s
  index : s.index = none

/-- Such an engine only stores the record. -/
theorem Bare.insert {s : Engine Lit Lit} (h : Bare s) {c : Call Lit} (hf : c.env.walFault = .none)
    {hot : HotStore Lit} {cold : ColdStore}
    (hstore : storeRecord deps c.env s.hot s.cold (record c) = (hot, cold, .ok ())) :
    ∃ s', s.insert deps c = some (s', .ok ()) ∧ Bare s' ∧ s'.hot = hot ∧ s'.cold = cold := by
  refine ⟨{ s with
    wal := (append deps.wal .none s.wal (entryOf deps c) c.mode).1
    hot := hot
    cold := cold }, ?_, ⟨?_, h.index⟩, rfl, rfl⟩
  · exact h.untracked.insert hf hstore (by simp only [insertIndex, h.index]) h.untracked.hotBuffer
  · exact ⟨h.untracked.centroids, h.untracked.correlations, h.untracked.buckets,
      h.untracked.hotBuffer⟩

/-- The insert of the id `k`. -/
def nth (k : Nat) : Call Lit := call (.ofNat k) [0]

/-- The ids below `n` in the partition 0, each in a batch of its own. -/
def shelved (n : Nat) : ColdStore.Parts Lit :=
  Function.update (fun _ => []) 0 ((List.range n).map fun k => [record (nth k)])

/-- A hot store of one record: the id `n` is hot, those before it are not. -/
structure InCell (s : Engine Lit Lit) (n : Nat) : Prop where
  bare : Bare s
  max : s.hot.maxRecords = 1
  hot : s.hot.vectors = [record (nth n)]
  cold : s.cold.Holds plain (shelved n)

theorem toNat_ofNat_lt {k : Nat} (hk : k < 2 ^ 64) : (UInt64.ofNat k).toNat = k := by
  rw [UInt64.toNat_ofNat', Nat.mod_eq_of_lt hk]

theorem nth_readable (k : Nat) :
    ColdStore.Readable (record (nth k)) ∧ plain.text.backRecord (record (nth k)) = record (nth k) :=
  Copies.readable (P := deps) ⟨rfl, rfl, rfl⟩ (call_roundTrips (.ofNat k) 0)

theorem shelved_succ (n : Nat) : Function.update (shelved n) 0
    (shelved n 0 ++ [[record (nth n)].map plain.text.backRecord]) = shelved (n + 1) := by
  rw [List.map_singleton, (nth_readable n).2]
  simp [shelved, List.range_succ]

theorem drain_singleton {hot : HotStore Lit} {r : VectorRecord Lit} (h : hot.vectors = [r])
    (rank : UInt64 → Nat) {n : Nat} (hn : 0 < n) :
    (hot.drainLeastAccessed rank n).2 = [r] ∧ (hot.drainLeastAccessed rank n).1.vectors = [] := by
  obtain ⟨hperm, _, hlen⟩ := hot.drainLeastAccessed_perm rank n
  rw [h, List.length_singleton, Nat.min_eq_right hn] at hlen
  obtain ⟨r', hr'⟩ := List.length_eq_one_iff.mp hlen
  rw [h, hr'] at hperm
  have hrest : (hot.drainLeastAccessed rank n).1.vectors = [] := by
    simpa using hperm.length_eq
  rw [hrest, List.append_nil, List.singleton_perm_singleton] at hperm
  exact ⟨by rw [hr', hperm], hrest⟩

/-- The next insert evicts the one hot record. -/
theorem InCell.next {s : Engine Lit Lit} {n : Nat} (h : InCell s n) (hn : n + 1 < 2 ^ 64) :
    ∃ s', tierStep deps s (.insert (nth (n + 1))) = some s' ∧ InCell s' (n + 1) := by
  have hfull : s.hot.full := by
    rw [HotStore.full, h.max, h.hot]
    exact ⟨by decide, Nat.le_refl 1⟩
  obtain ⟨hr, hrest⟩ := drain_singleton h.hot calm.hotRank (show 0 < 100 by omega)
  have hnone : (s.hot.drainLeastAccessed calm.hotRank 100).1.get (record (nth (n + 1))).id =
      none := by
    rw [HotStore.get, hrest]
    rfl
  have hlen : (shelved n calm.day).length = n := by simp [shelved, calm]
  rcases storeRecord_cases (P := deps) calm rfl s.hot s.cold (record (nth (n + 1))) with
    ⟨hroom, _⟩ | ⟨hroom, _⟩ | ⟨_, cold', hw, ⟨_, hot', heq, hmax', hvec⟩ | ⟨hknown, _⟩⟩
  · exact absurd hfull hroom
  · exact absurd hfull hroom
  · obtain ⟨s', hins, hbare, hhot, hcold⟩ := h.bare.insert (c := nth (n + 1)) rfl heq
    rw [hr] at hw
    obtain ⟨_, hholds⟩ := ColdStore.writeBatch_holds plain_lawful h.cold (by simp)
      (by simpa using (nth_readable n).1) (by omega) hw
    rw [show calm.day = 0 from rfl, shelved_succ] at hholds
    refine ⟨s', insertOk_eq_some.mpr hins, hbare, ?_, ?_, ?_⟩
    · rw [hhot, hmax', h.max]
    · rw [hhot, hvec, hrest, List.nil_append]
    · rw [hcold]
      exact hholds
  · exact absurd hnone hknown

theorem InCell.run : ∀ m n s, InCell s n → n + m < 2 ^ 64 →
    ∃ s', (tiering deps).Run s ((List.range m).map fun k => .insert (nth (n + 1 + k))) s' ∧
      InCell s' (n + m) := by
  intro m
  induction m with
  | zero => exact fun n s h _ => ⟨s, .nil s, h⟩
  | succ m ih =>
    intro n s h hroom
    obtain ⟨s₁, hstep, h₁⟩ := h.next (by omega)
    obtain ⟨s', hrun, h'⟩ := ih (n + 1) s₁ h₁ (by omega)
    rw [Nat.add_assoc, Nat.add_comm 1 m] at h'
    refine ⟨s', ?_, h'⟩
    rw [List.range_succ_eq_map, List.map_cons, List.map_map]
    refine .cons hstep ?_
    have hshift : ((fun k => Label.insert (nth (n + 1 + k))) ∘ Nat.succ) =
        fun k => Label.insert (nth (n + 1 + 1 + k)) := by
      funext k
      simp only [Function.comp, Nat.succ_eq_add_one, Nat.add_assoc, Nat.add_comm 1 k]
    rw [hshift]
    exact hrun

theorem single_create : create deps calmOpen (small 1 none) = some (.ok single) :=
  create_of_opened (by rw [single, Option.some_get])

theorem single_first : ∃ s, tierStep deps single (.insert (nth 0)) = some s ∧ InCell s 0 := by
  have hbare : Bare single := by
    have hnone : single.index.isNone ∧ single.centroids.isNone ∧ single.correlations.isNone ∧
      single.buckets.isNone ∧ single.hotBuffer.isNone := by decide +kernel
    simp only [Option.isNone_iff_eq_none] at hnone
    exact ⟨⟨hnone.2.1, hnone.2.2.1, hnone.2.2.2.1, hnone.2.2.2.2⟩, hnone.1⟩
  obtain ⟨_, _, hhot, hcold, _⟩ := create_eq_ok single_create
  have hroom : ¬ single.hot.full := by
    rw [hhot]
    decide
  have hnew : single.hot.get (record (nth 0)).id = none := by
    rw [hhot]
    rfl
  rcases storeRecord_cases (P := deps) calm rfl single.hot single.cold (record (nth 0)) with
    ⟨_, _, hot', heq, hmax, hvec⟩ | ⟨_, hknown, _⟩ | ⟨hfull, _⟩
  · obtain ⟨s, hins, hs, hhot', hcold'⟩ := hbare.insert (c := nth 0) rfl heq
    refine ⟨s, insertOk_eq_some.mpr hins, hs, ?_, ?_, ?_⟩
    · rw [hhot', hmax, hhot]
      rfl
    · rw [hhot', hvec, hhot]
      rfl
    · have hnone : shelved 0 = fun _ => [] := by
        funext p
        simp [shelved, Function.update_apply]
      rw [hcold', hcold, hnone]
      exact ColdStore.Holds.empty plain
  · exact absurd hnew hknown
  · exact absurd hfull hroom

/-- The inserts of the ids up to `m`. -/
def fillUp (m : Nat) : List (Label Lit) := (List.range (m + 1)).map fun k => .insert (nth k)

theorem fillUp_run {m : Nat} (hm : m < 2 ^ 64) :
    ∃ s, (tiering deps).Run single (fillUp m) s ∧ InCell s m := by
  obtain ⟨s₁, hstep, h₁⟩ := single_first
  obtain ⟨s, hrun, h⟩ := InCell.run m 0 s₁ h₁ (by omega)
  rw [Nat.zero_add] at h
  refine ⟨s, ?_, h⟩
  rw [fillUp, List.range_succ_eq_map, List.map_cons, List.map_map]
  refine .cons hstep ?_
  have hshift : ((fun k => Label.insert (nth k)) ∘ Nat.succ) =
      fun k => Label.insert (nth (0 + 1 + k)) := by
    funext k
    rw [Function.comp, Nat.succ_eq_add_one, Nat.zero_add, Nat.add_comm 1 k]
  rw [hshift]
  exact hrun

theorem inserted_fillUp (m : Nat) : inserted (fillUp m) = (List.range (m + 1)).map nth := by
  rw [inserted, fillUp, List.filterMap_map]
  exact congrFun List.filterMap_eq_map _

theorem fillUp_undisturbed (m : Nat) : ∀ l ∈ fillUp m, Undisturbed deps l := by
  intro l hl
  obtain ⟨k, _, rfl⟩ := List.mem_map.mp hl
  exact ⟨calm_faultless, call_roundTrips (.ofNat k) 0⟩

theorem nth_id_inj {j k : Nat} (hj : j < 2 ^ 64) (hk : k < 2 ^ 64) (h : (nth j).id = (nth k).id) :
    j = k := by
  have := congrArg UInt64.toNat h
  rwa [show (nth j).id = .ofNat j from rfl, show (nth k).id = .ofNat k from rfl,
    toNat_ofNat_lt hj, toNat_ofNat_lt hk] at this

theorem fillUp_nodup {m : Nat} (hm : m < 2 ^ 64) : ((inserted (fillUp m)).map Call.id).Nodup := by
  rw [inserted_fillUp, List.map_map]
  refine List.Nodup.map_on ?_ List.nodup_range
  intro j hj k hk heq
  rw [List.mem_range] at hj hk
  exact nth_id_inj (by omega) (by omega) heq

/-- The reader does not come as far as the last batch. -/
theorem InCell.lost {s : Engine Lit Lit} {n : Nat} (h : InCell s n) (hn : n = 2 ^ 32)
    (rank : UInt64 → Nat) : s.get deps rank (nth (2 ^ 32 - 1)).id = .ok none := by
  have hhot : s.hot.get (nth (2 ^ 32 - 1)).id = none := by
    rw [HotStore.get_eq_none, h.hot]
    intro hin
    have := nth_id_inj (by omega) (by omega) (List.mem_singleton.mp hin)
    omega
  unfold Engine.get
  rw [hhot]
  apply findCold_none
  intro p
  refine ⟨_, h.cold.readPartition_take p, ?_⟩
  intro r hr hid
  obtain ⟨b, hb, hr⟩ := List.mem_flatten.mp hr
  by_cases hp : p = 0
  · subst hp
    rw [shelved, Function.update_self, ← List.map_take, List.mem_map] at hb
    obtain ⟨k, hk, rfl⟩ := hb
    rw [List.take_range, List.mem_range] at hk
    rw [List.mem_singleton] at hr
    subst hr
    have := nth_id_inj (j := k) (by omega) (by omega) hid
    omega
  · rw [shelved, Function.update_of_ne hp] at hb
    simp at hb

/-- With one hot record, `2 ^ 32 + 1` inserts on one day fill `2 ^ 32` batches;
the record in the last of them is not found. -/
theorem tiering_loses_one : create deps calmOpen (small 1 none) = some (.ok single) ∧
    ∃ s, (tiering deps).Run single (fillUp (2 ^ 32)) s ∧
      (∀ l ∈ fillUp (2 ^ 32), Undisturbed deps l) ∧
      ((inserted (fillUp (2 ^ 32))).map Call.id).Nodup ∧
      nth (2 ^ 32 - 1) ∈ inserted (fillUp (2 ^ 32)) ∧
      ∀ rank, s.get deps rank (nth (2 ^ 32 - 1)).id = .ok none := by
  obtain ⟨s, hrun, h⟩ := fillUp_run (m := 2 ^ 32) (by omega)
  refine ⟨single_create, s, hrun, fillUp_undisturbed _, fillUp_nodup (by omega), ?_, h.lost rfl⟩
  rw [inserted_fillUp]
  exact List.mem_map.mpr ⟨2 ^ 32 - 1, List.mem_range.mpr (by omega), rfl⟩

end Tesseract.L4.Engine
