import Tesseract.L4Engine.Completeness

/-!
# `get` and `batch_get`

`get` looks at the hot store and then at the partitions, `batch_get` at the hot
store only.

* `findCold_iff`: what the scan over the partitions finds, in terms of what they hold.
* `batchGet_lookup`: `batch_get` returns the hot records of the listed ids.
* `cold_empty`: until a record leaves the hot store, the cold store is as at creation.
* `batchGet_agrees_iff`: the two agree on the ids that are not in the cold store only.
-/
namespace Tesseract.L4.Engine

open L3 L3.Serde

variable {α β : Type} [F64 α] {P : Deps α}

/-! ## The scan over the partitions -/

/-- The first record of `id` in the partitions `ps` is `r`, and every partition up to
it can be read. -/
def FirstIn (P : Deps α) (cold : ColdStore) (ps : List UInt64) (id : UInt64)
    (r : VectorRecord α) : Prop :=
  ∃ front p back rs, ps = front ++ p :: back ∧
    (∀ q ∈ front, ∃ rs', cold.readPartition P.codec q = .ok rs' ∧ ∀ x ∈ rs', x.id ≠ id) ∧
    cold.readPartition P.codec p = .ok rs ∧ rs.find? (fun x => x.id == id) = some r

theorem findCold_iff {cold : ColdStore} {id : UInt64} {r : VectorRecord α} :
    ∀ {ps : List UInt64}, findCold P cold id ps = .ok (some r) ↔ FirstIn P cold ps id r := by
  intro ps
  induction ps with
  | nil =>
    constructor
    · intro h
      cases h
    · rintro ⟨front, p, back, _, heq, _⟩
      cases front <;> cases heq
  | cons p ps ih =>
    constructor
    · intro h
      cases hread : cold.readPartition P.codec p with
      | error x =>
        rw [findCold, hread] at h
        cases h
      | ok rs =>
        rw [findCold_read hread] at h
        cases hfind : rs.find? (fun x => x.id == id) with
        | some r' =>
          rw [hfind] at h
          cases h
          exact ⟨[], p, ps, rs, rfl, by simp, hread, hfind⟩
        | none =>
          rw [hfind] at h
          obtain ⟨front, q, back, rs', rfl, hfront, hread', hfind'⟩ := ih.mp h
          refine ⟨p :: front, q, back, rs', rfl, ?_, hread', hfind'⟩
          intro q' hq'
          rcases List.mem_cons.mp hq' with rfl | hq'
          · exact ⟨rs, hread, fun x hx => by simpa using List.find?_eq_none.mp hfind x hx⟩
          · exact hfront q' hq'
    · rintro ⟨front, q, back, rs, heq, hfront, hread, hfind⟩
      cases front with
      | nil =>
        obtain ⟨rfl, rfl⟩ := List.cons.inj heq
        rw [findCold_read hread, hfind]
      | cons p' front =>
        obtain ⟨rfl, rfl⟩ := List.cons.inj heq
        obtain ⟨rs', hread', hnone⟩ := hfront p List.mem_cons_self
        have hfind' : rs'.find? (fun x => x.id == id) = none :=
          List.find?_eq_none.mpr fun x hx => by simpa using hnone x hx
        rw [findCold_read hread', hfind']
        exact ih.mpr ⟨front, q, back, rs, rfl,
          fun q' hq' => hfront q' (List.mem_cons_of_mem p hq'), hread, hfind⟩

/-- `get` returns the hot record, and else the first one of the partitions. -/
theorem get_eq_some_iff {rank : UInt64 → Nat} {s : Engine α β} {id : UInt64}
    {r : VectorRecord α} : s.get P rank id = .ok (some r) ↔
      s.hot.get id = some r ∨
        s.hot.get id = none ∧ FirstIn P s.cold (s.cold.partitions rank) id r := by
  unfold Engine.get
  cases hhot : s.hot.get id with
  | some r' => simp
  | none => simp [findCold_iff]

/-! ## `batch_get` -/

theorem batchGet_lookup (s : Engine α β) (ids : List UInt64) :
    ∃ m, s.batchGet ids = .ok m ∧ ∀ id, m.lookup id = if id ∈ ids then s.hot.get id else none := by
  refine ⟨_, rfl, fun id => ?_⟩
  rw [Assoc.lookup_foldl (g := s.hot.get)]
  · simp
  · intro m i k
    cases s.hot.get i with
    | none => simp
    | some r => exact Assoc.lookup_insert_eq m i k r

/-- `batch_get` gives what `get` gives, for the listed ids. -/
def BatchAgrees (P : Deps α) (rank : UInt64 → Nat) (s : Engine α β) (ids : List UInt64) : Prop :=
  ∃ m, s.batchGet ids = .ok m ∧
    ∀ id r, m.lookup id = some r ↔ id ∈ ids ∧ s.get P rank id = .ok (some r)

/-- The id is in the cold store, where `get` finds it, and not in the hot one. -/
def ColdOnly (P : Deps α) (rank : UInt64 → Nat) (s : Engine α β) (id : UInt64) : Prop :=
  s.hot.get id = none ∧ ∃ r, FirstIn P s.cold (s.cold.partitions rank) id r

theorem batchAgrees_iff {rank : UInt64 → Nat} {s : Engine α β} {ids : List UInt64} :
    BatchAgrees P rank s ids ↔ ∀ id ∈ ids, ¬ ColdOnly P rank s id := by
  obtain ⟨m, hm, hlookup⟩ := batchGet_lookup s ids
  have heq : BatchAgrees P rank s ids ↔
      ∀ id r, m.lookup id = some r ↔ id ∈ ids ∧ s.get P rank id = .ok (some r) := by
    simp [BatchAgrees, hm]
  rw [heq]
  constructor
  · rintro h id hid ⟨hhot, r, hr⟩
    have hsome := (h id r).mpr ⟨hid, get_eq_some_iff.mpr (.inr ⟨hhot, hr⟩)⟩
    rw [hlookup, if_pos hid, hhot] at hsome
    cases hsome
  · intro h id r
    rw [hlookup, get_eq_some_iff]
    by_cases hid : id ∈ ids
    · simp only [hid, if_true, true_and]
      exact ⟨.inl, fun hor => hor.resolve_right fun hc => h id hid ⟨hc.1, r, hc.2⟩⟩
    · simp [hid]

/-! ## Runs that move no record -/

variable [F32 β] [Narrow α β]

/-- No record leaves the hot store: an insert finds room, a demotion nothing to do. -/
def Stays (s : Engine α β) : Label α → Prop
  | .insert _ => ¬ s.hot.full
  | .demote _ => s.hot.vectors.length ≤ s.config.hotMaxRecords
  | _ => True

theorem storeRecord_room (env : Env) {hot : HotStore α} (cold : ColdStore) (r : VectorRecord α)
    (h : ¬ hot.full) : (storeRecord P env hot cold r).2.1 = cold := by
  unfold storeRecord
  rcases hot.insert_cases r with ⟨hfull, _⟩ | ⟨_, _, heq⟩ | ⟨_, _, hok, _⟩
  · exact absurd hfull h
  · rw [heq]
    rfl
  · generalize hot.insert r = p at hok
    obtain ⟨hot', r'⟩ := p
    cases hok
    rfl

theorem stays_cold {s s' : Engine α β} {l : Label α} (h : step P s l = some s')
    (hl : Stays s l) (hcold : s.cold = ⟨∅, ∅⟩) : s'.cold = ⟨∅, ∅⟩ := by
  cases l with
  | insert c =>
    obtain ⟨⟨s₁, r⟩, hins, rfl⟩ := Option.map_eq_some_iff.mp h
    rcases insert_stages hins with ⟨_, _, rfl, _⟩ | ⟨_, _, hstore, _⟩
    · exact hcold
    · have hroom := storeRecord_room (P := P) c.env s.cold (record c) hl
      rw [hstore] at hroom
      exact hroom.trans hcold
  | promote rank =>
    cases h
    exact hcold
  | demote env =>
    cases h
    have hle : s.hot.vectors.length ≤ s.config.hotMaxRecords := hl
    rw [runDemotion, if_pos hle]
    exact hcold
  | shutdown =>
    obtain ⟨⟨s₁, r⟩, hdown, rfl⟩ := Option.map_eq_some_iff.mp h
    exact (shutdown_inv hdown).2.2.2.1.trans hcold
  | reopen env =>
    obtain ⟨r, hopen, hr⟩ := Option.bind_eq_some_iff.mp h
    cases r with
    | error x => cases hr
    | ok s₁ =>
      cases hr
      obtain ⟨cold, _, _, _, hstore, _, _, _, hs⟩ := openEngine_eq_ok.mp hopen
      rw [(assemble_eq_ok hs).2.2.2.1]
      rw [hcold] at hstore
      cases hstore
      rfl

theorem cold_empty {s : Engine α β} (h : ((system P).restrict Stays).Reachable s) :
    s.cold = ⟨∅, ∅⟩ := by
  apply LTS.Inductive.reachable (I := fun s : Engine α β => s.cold = ⟨∅, ∅⟩) _ s h
  constructor
  · intro s ⟨env, config, hs⟩
    exact (create_eq_ok hs).2.2.2.1
  · intro s l s' hcold hst
    exact stays_cold hst.1 hst.2 hcold

/-- The two lookups agree on a list of ids exactly if none of them is in the cold store
only; so they do in every run that moves no record out of the hot store. -/
theorem batchGet_agrees_iff (P : Deps α) :
    (∀ (s : Engine α β) rank ids,
      BatchAgrees P rank s ids ↔ ∀ id ∈ ids, ¬ ColdOnly P rank s id) ∧
    ∀ s : Engine α β, ((system P).restrict Stays).Reachable s → ∀ rank ids,
      BatchAgrees P rank s ids := by
  refine ⟨fun s rank ids => batchAgrees_iff, ?_⟩
  intro s hs rank ids
  rw [batchAgrees_iff]
  rintro id _ ⟨_, r, front, p, back, rs, heq, _⟩
  rw [cold_empty hs] at heq
  cases front <;> cases heq

theorem step_insert {s : Engine α β} {c : Call α} (h : (s.insert P c).isSome = true) :
    step P s (.insert c) = some ((s.insert P c).get h).1 := by
  show (s.insert P c).map Prod.fst = _
  rw [Option.map_eq_some_iff]
  exact ⟨_, (Option.some_get h).symm, rfl⟩

theorem singleOne_stays : ((system deps).restrict Stays).Reachable singleOne := by
  have hstep : (system deps).step single (.insert (call 1 [5])) singleOne := step_insert _
  have hroom : ¬ single.hot.full := by decide +kernel
  exact ⟨single, _, ⟨calmOpen, _, create_of_opened (by rw [single, Option.some_get])⟩,
    .cons ⟨hstep, hroom⟩ (.nil singleOne)⟩

/-- The lookups agree where the one record is hot; and where it has made room, on the record
that came for it and an id that is nowhere. -/
theorem batchGet_agrees_hot : BatchAgrees deps UInt64.toNat singleOne [1, 2] ∧
    BatchAgrees deps UInt64.toNat singleTwo [2, 7] := by
  obtain ⟨hiff, hstays⟩ := batchGet_agrees_iff (α := Lit) (β := Lit) deps
  refine ⟨hstays singleOne singleOne_stays UInt64.toNat [1, 2],
    (hiff singleTwo UInt64.toNat [2, 7]).mpr fun id hid ⟨hhot, r, hr⟩ => ?_⟩
  have hget : singleTwo.get deps UInt64.toNat id = .ok (some r) :=
    get_eq_some_iff.mpr (.inr ⟨hhot, hr⟩)
  rcases List.mem_pair.mp hid with rfl | rfl
  · have hsome : (singleTwo.hot.get 2).isSome = true := by decide +kernel
    rw [hhot] at hsome
    cases hsome
  · have hnone : (singleTwo.get deps UInt64.toNat 7).map Option.isSome = .ok false := by
      decide +kernel
    rw [hget] at hnone
    cases hnone

theorem singleTwo_reachable : (system deps).Reachable singleTwo := by
  have h₁ : (system deps).step single (.insert (call 1 [5])) singleOne := step_insert _
  have h₂ : (system deps).step singleOne (.insert (call 2 [3])) singleTwo := step_insert _
  exact ⟨single, _, ⟨calmOpen, _, create_of_opened (by rw [single, Option.some_get])⟩,
    .cons h₁ (.cons h₂ (.nil singleTwo))⟩

/-- One hot record and two inserts: `get` finds the first record in the cold store,
`batch_get` does not. -/
theorem evicted_not_in_batch : (system deps).Reachable singleTwo ∧
    (singleTwo.get deps UInt64.toNat 1).map Option.isSome = .ok true ∧
    (singleTwo.batchGet [1]).map (fun m => (m.lookup 1).isSome) = .ok false ∧
    ¬ BatchAgrees deps UInt64.toNat singleTwo [1] := by
  have hget : (singleTwo.get deps UInt64.toNat 1).map Option.isSome = .ok true := by
    decide +kernel
  have hbatch : (singleTwo.batchGet [1]).map (fun m => (m.lookup 1).isSome) = .ok false := by
    decide +kernel
  refine ⟨singleTwo_reachable, hget, hbatch, ?_⟩
  rintro ⟨m, hm, hall⟩
  cases hr : singleTwo.get deps UInt64.toNat 1 with
  | error x =>
    rw [hr] at hget
    cases hget
  | ok o =>
    cases o with
    | none =>
      rw [hr] at hget
      cases hget
    | some r =>
      rw [hm] at hbatch
      change Except.ok (m.lookup 1).isSome = _ at hbatch
      rw [(hall 1 r).mpr ⟨List.mem_singleton_self 1, hr⟩] at hbatch
      cases hbatch

end Tesseract.L4.Engine
