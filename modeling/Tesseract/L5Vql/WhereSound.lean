import Tesseract.L5Vql.Filter
import Tesseract.L5Vql.Pagination
import Tesseract.L5Vql.RoundTrip

/-!
# What WHERE keeps out

The planner leaves the filter away where a bias filter stands for the whole predicate: the
query vector is shifted instead. A filter that is left in place sees no metadata, and keeps
nothing.

* `Silent`: a plan without results, and the operators that keep it so.
* `planToTree_silent`: a predicate that no bias filter stands for leaves no result.
* `where_sound_iff`: the predicates that all results satisfy.
-/
namespace Tesseract.L5.Vql

open L3 L3.Serde L4 L4.Engine Nom Tok

variable {α β : Type}

/-! ## Covered predicates -/

/-- A comparison that the planner takes for a bias filter: a field with a string by `=`, or
with a float by anything but `!=`. An integer becomes a float, and is not the same. -/
def Predicate.covered [F64Math α] : Predicate α → Bool
  | .comparison _ .eq (.string _) => true
  | .comparison _ .neq _ => false
  | .comparison _ _ (.float x) => F64Math.eq x x
  | _ => false

theorem extractBiasFilters_single [F64 α] (p : Predicate α) :
    extractBiasFilters (some ⟨[p]⟩) = (biasFilter p).toList := by
  show [p].filterMap biasFilter = _
  cases h : biasFilter p with
  | none => rw [List.filterMap_cons_none h]; rfl
  | some bf => rw [List.filterMap_cons_some h]; rfl

/-- A single predicate is compared with what its own bias filter stands for. -/
theorem alreadyCovered_single [F64 α] [F64Math α] (p : Predicate α) :
    alreadyCovered [p] (topologicalPredicate (extractBiasFilters (some ⟨[p]⟩))) =
      (biasFilter p).any fun bf => p.equal (coveredPredicate bf) := by
  rw [extractBiasFilters_single]
  cases biasFilter p with
  | none => rfl
  | some bf => exact Bool.and_true _

/-- On one field with one operator the values are compared. -/
theorem equal_comparison [F64Math α] (field : String) (operator : ComparisonOp)
    (v w : Literal α) :
    (Predicate.comparison field operator v).equal (.comparison field operator w) = v.equal w := by
  simp [Predicate.equal]

theorem covered_eq [F64 α] [F64Math α] (p : Predicate α) :
    ((biasFilter p).any fun bf => p.equal (coveredPredicate bf)) = p.covered := by
  cases p with
  | comparison field operator value =>
    cases value with
    | string s =>
      cases operator with
      | eq => exact (equal_comparison field .eq _ _).trans (beq_self_eq_true s)
      | _ => rfl
    | float x =>
      cases operator with
      | neq => rfl
      | _ => exact equal_comparison field _ _ _
    | integer i =>
      cases operator with
      | neq => rfl
      | _ => exact equal_comparison field _ _ _
    | boolean b => cases operator <;> rfl
    | null => cases operator <;> rfl
  | _ => rfl

/-- The filter stands over the node, unless the predicate is covered. -/
theorem addFilter_single [F64 α] [F64Math α] (p : Predicate α) (node : PlanNode α β) :
    addFilter (some ⟨[p]⟩) (extractBiasFilters (some ⟨[p]⟩)) node =
      if p.covered then node else .filter node p := by
  rw [← covered_eq, ← alreadyCovered_single]
  rfl

/-! ## The predicate of a query -/

section Toks

variable [F64Text α]

/-- The tokens of the clause of a query. -/
theorem QueryToks.whereToks {q : Query α} {ts : List Tok} {w : MetadataWhere α}
    (h : QueryToks Style.canonical q ts) (hw : q.metadataWhere = some w) :
    ∃ us, ClauseToks Style.canonical (.metadataWhere w) us := by
  obtain @⟨find, cs, _, _, _, hcs, _⟩ := h
  have hclause : (assemble find cs).clause .metadataWhere = some (.metadataWhere w) :=
    congrArg (Option.map _) hw
  rw [assemble_clause] at hclause
  exact hcs.mem _ (List.mem_of_find?_eq_some hclause)

/-- A predicate that was read asks for a field. -/
theorem PredicateToks.asks {p : Predicate α} {ts : List Tok}
    (h : PredicateToks Style.canonical p ts) : vacuous p = false := by
  cases h <;> rfl

theorem ConjunctionToks.asks {p : Predicate α} {ts : List Tok}
    (h : ConjunctionToks Style.canonical p ts) : vacuous p = false := by
  obtain @⟨ps, _, hps⟩ := h
  have hfirst : ∃ p rest, ps = p :: rest ∧ vacuous p = false := by
    cases hps with
    | one hp => exact ⟨_, _, rfl, hp.asks⟩
    | cons hp _ _ => exact ⟨_, _, rfl, hp.asks⟩
  obtain ⟨p, rest, rfl, hp⟩ := hfirst
  cases rest with
  | nil => exact hp
  | cons p' rest =>
    show (vacuous p && allVacuous (p' :: rest)) = false
    rw [hp, Bool.false_and]

end Toks

/-! ## Plans without results -/

namespace Backend

variable [F64 α] [F32 β] [F64Math α] [F64Plan α] (B : Backend α β)

/-- The results of the plan come without metadata. -/
def Unreported (node : PlanNode α β) : Prop :=
  ∀ userId query rs, B.executePlan userId node query = some (.ok rs) → ∀ r ∈ rs, r.metadata = none

/-- The plan has no results. -/
def Silent (node : PlanNode α β) : Prop :=
  ∀ userId query rs, B.executePlan userId node query = some (.ok rs) → rs = []

variable {B}

theorem unreported_scan (field : String) (efSearch : Nat) (weightMask : Option (List (Nat × β)))
    (biasFilters : List (BiasFilter α)) (alpha : α) :
    B.Unreported (.annScan field efSearch weightMask biasFilters alpha) := by
  intro userId query rs h
  rw [executePlan] at h
  exact B.annScan_metadata h

omit [F32 β] [F64Math α] [F64Plan α] in
/-- What an operator makes of the results of its input. -/
theorem of_map {f : List (ScoredResult α β) → List (ScoredResult α β)}
    {o : Option (Result (List (ScoredResult α β)))} {rs : List (ScoredResult α β)}
    (h : (o.map fun r => r.map f) = some (.ok rs)) : ∃ xs, o = some (.ok xs) ∧ rs = f xs := by
  obtain ⟨r, rfl, hr⟩ := Option.map_eq_some_iff.mp h
  cases r with
  | error e => cases hr
  | ok xs =>
    cases hr
    exact ⟨xs, rfl, rfl⟩

omit [F64Math α] [F64Plan α] in
theorem mem_mergeScans {all : List (ScoredResult α β)} {limit : Nat} {r : ScoredResult α β}
    (h : r ∈ B.mergeScans all limit) : r ∈ all := by
  unfold mergeScans dedupBy at h
  exact (B.sortDescending.perm all).mem_iff.mp
    ((List.destutter_sublist _ _).subset (List.mem_of_mem_take h))

theorem Unreported.merge {left right : PlanNode α β} (hl : B.Unreported left)
    (hr : B.Unreported right) (limit : Nat) : B.Unreported (.merge left right limit) := by
  intro userId query rs h
  rw [executePlan] at h
  obtain ⟨l, hleft, h⟩ := Option.bind_eq_some_iff.mp h
  obtain ⟨r, hright, h⟩ := Option.bind_eq_some_iff.mp h
  cases l with
  | error e => cases h
  | ok xs =>
    cases r with
    | error e => cases h
    | ok ys =>
      cases h
      intro r hr'
      rcases List.mem_append.mp (mem_mergeScans hr') with hmem | hmem
      · exact hl _ _ _ hleft r hmem
      · exact hr _ _ _ hright r hmem

theorem Unreported.filter {node : PlanNode α β} (h : B.Unreported node) {p : Predicate α}
    (hp : vacuous p = false) : B.Silent (.filter node p) := by
  intro userId query rs hrs
  rw [executePlan] at hrs
  obtain ⟨xs, hxs, rfl⟩ := of_map hrs
  refine List.filter_eq_nil_iff.mpr fun r hr => ?_
  rw [evaluatePredicate_unreported (h _ _ _ hxs r hr), hp]
  simp

theorem Silent.bias {node : PlanNode α β} (h : B.Silent node) (scoringFn : String)
    (args : List String) : B.Silent (.bias node scoringFn args) := by
  intro userId query rs hrs
  rw [executePlan] at hrs
  split at hrs
  · cases hv : B.withFootprint userId query with
    | error e =>
      rw [hv] at hrs
      cases hrs
    | ok v =>
      rw [hv] at hrs
      exact h _ _ _ hrs
  · obtain ⟨r, hr, hbias⟩ := Option.map_eq_some_iff.mp hrs
    cases r with
    | error e => cases hbias
    | ok xs =>
      obtain rfl := h _ _ _ hr
      replace hbias : applyBias [] scoringFn = .ok rs := hbias
      unfold applyBias at hbias
      split at hbias
      · cases hbias
        rfl
      · cases hbias

theorem Silent.sort {node : PlanNode α β} (h : B.Silent node) (scoringFn : String)
    (args : List String) (descending : Bool) :
    B.Silent (.sort node scoringFn args descending) := by
  intro userId query rs hrs
  rw [executePlan] at hrs
  obtain ⟨xs, hxs, rfl⟩ := of_map hrs
  obtain rfl := h _ _ _ hxs
  have hasc : B.sortAscending.sort [] = [] := (B.sortAscending.perm []).eq_nil
  have hdesc : B.sortDescending.sort [] = [] := (B.sortDescending.perm []).eq_nil
  unfold sortResults
  rw [hasc, hdesc, ite_self, ite_self]

theorem Silent.limit {node : PlanNode α β} (h : B.Silent node) (limit offset : Nat) :
    B.Silent (.limit node limit offset) := by
  intro userId query rs hrs
  rw [executePlan] at hrs
  obtain ⟨xs, hxs, rfl⟩ := of_map hrs
  rw [h _ _ _ hxs, List.drop_nil, List.take_nil]

theorem Silent.deadline {node : PlanNode α β} (h : B.Silent node) (millis : Nat)
    (estimatedCostMs : α) : B.Silent (.deadline node millis estimatedCostMs) := by
  intro userId query rs hrs
  rw [executePlan] at hrs
  obtain ⟨xs, hxs, rfl⟩ := of_map hrs
  rw [h _ _ _ hxs]
  unfold truncateLate
  split <;> simp

/-- The operators over a filter. -/
theorem Unreported.operators {base : PlanNode α β} (h : B.Unreported base) {p : Predicate α}
    (hp : vacuous p = false) (bias : Option Bias) (orderBy : Option OrderBy) (limit offset : Nat) :
    B.Silent (.limit (addSort orderBy (addBias bias (.filter base p))) limit offset) := by
  have hbias : B.Silent (addBias bias (.filter base p)) := by
    cases bias with
    | none => exact h.filter hp
    | some b => exact (h.filter hp).bias b.scoringFn b.args
  have hsort : B.Silent (addSort orderBy (addBias bias (.filter base p))) := by
    cases orderBy with
    | none => exact hbias
    | some ob => exact hbias.sort ob.scoringFn ob.args ob.descending
  exact hsort.limit limit offset

theorem Silent.addDeadline {config : PlannerConfig α} {withinMs : Option Nat}
    {estimatedCostMs : α} {node plan : PlanNode α β} (h : B.Silent node)
    (hplan : addDeadline config withinMs estimatedCostMs node = .ok plan) : B.Silent plan := by
  unfold Vql.addDeadline at hplan
  split at hplan
  · cases hplan
    exact h
  · dsimp only at hplan
    split at hplan
    · cases hplan
    · cases hplan
      exact h.deadline _ _

/-- A predicate that is not covered, and asks for a field, leaves no result. -/
theorem planToTree_silent [Narrow α β] {config : PlannerConfig α} {q : Query α}
    {plan : PlanNode α β} {p : Predicate α} (h : planToTree config q = some (.ok plan))
    (hw : q.metadataWhere = some ⟨[p]⟩) (hp : p.covered = false) (hasks : vacuous p = false) :
    B.Silent plan := by
  unfold planToTree at h
  split at h
  · cases h
  · split at h
    · cases h
    · next similarity _ =>
      obtain ⟨weightMask, _, hplan⟩ := Option.bind_eq_some_iff.mp h
      replace hplan := Option.some.inj hplan
      rw [hw] at hplan
      rw [addFilter_single, if_neg (by simp [hp])] at hplan
      have hscan := B.unreported_scan similarity.field
        (computeEfSearch config (q.within.map Within.millis)) weightMask
        (extractBiasFilters (some ⟨[p]⟩)) (scanAlpha config (q.within.map Within.millis))
      refine Silent.addDeadline (Unreported.operators ?_ hasks q.bias q.orderBy _ _) hplan
      split
      · exact hscan.merge hscan _
      · exact hscan

end Backend

/-! ## One record without metadata -/

section OneRecord

variable [F64 α]

/-- No index and no trackers, and a hot buffer for two vectors. -/
def bufferOnly : StorageConfig α where
  wal := ⟨1024, 1000⟩
  maxRecords := 0
  cacheCapacity := 1
  hotMaxRecords := 1
  index := ⟨false, 0, ⟨16, 32, 200, .cosine⟩⟩
  topological := ⟨false, [], [], []⟩
  merkle := ⟨true, 2, 1, false⟩

/-- `insert` of id 0 with an empty vector and no metadata. -/
def insertNull : Call α := ⟨calm, 0, [], .null, .durable⟩

/-- Of the engine's tiers only the hot buffer holds anything, and that is the vector of the
record. -/
structure HoldsNull (s : Engine α β) : Prop where
  index : s.index = none
  tree : s.merkleTree = some (MerkleTree.new 1)
  buffer : s.hotBuffer = some ⟨[⟨0, [], .null⟩], 2⟩
  record : s.hot.get 0 = some (record insertNull)

variable [F32 β] [Narrow α β] (P : Deps α)

/-- A new engine of that configuration. -/
def newBuffer : Engine α β where
  config := bufferOnly
  wal := L2.Log.openLog P.wal ⟨1024, 1000⟩ ∅
  hot := .new 0
  cold := ⟨∅, ∅⟩
  index := none
  centroids := none
  correlations := none
  buckets := none
  hotBuffer := some (.new 2)
  merkleTree := some (.new 1)
  indexFile := none
  merkleFile := none

theorem newBuffer_fresh : Fresh P (newBuffer P : Engine α β) :=
  ⟨calmOpen, bufferOnly, openEngine_eq_ok.mpr ⟨⟨∅, ∅⟩, [], .new 0, none, rfl, rfl,
    (L2.Log.Logs.create _).recover, rfl, rfl⟩⟩

/-- An accepted insert is a step of the engine. -/
theorem step_of_insert {s s' : Engine α β} {c : Call α} (h : s.insert P c = some (s', .ok ())) :
    (system P).step s (.insert c) s' := by
  show (s.insert P c).map Prod.fst = some s'
  rw [h]
  rfl

theorem reachable_null : ∃ s : Engine α β, (system P).Reachable s ∧ HoldsNull s := by
  have hinsert : ∃ s', (newBuffer P : Engine α β).insert P insertNull = some (s', .ok ()) ∧
      HoldsNull s' := by
    unfold Engine.insert
    rw [appendEntry_none rfl]
    exact ⟨_, rfl, rfl, rfl, rfl, rfl⟩
  obtain ⟨s, hinsert, hs⟩ := hinsert
  exact ⟨s, ⟨_, [.insert insertNull], newBuffer_fresh P, .cons (step_of_insert P hinsert) (.nil s)⟩,
    hs⟩

/-- A search finds the one vector. -/
theorem HoldsNull.search {s : Engine α β} (h : HoldsNull s) (S : ScoreSort β) (query : List α)
    {k : Nat} (hk : k ≠ 0) (mask : Option (List (Nat × β))) :
    ∃ score, s.search S query k mask = some (.ok [(0, score)]) := by
  have hone : ∀ p : UInt64 × β, S.sort [p] = [p] := fun p => List.perm_singleton.mp (S.perm [p])
  obtain ⟨k, rfl⟩ := Nat.exists_eq_succ_of_ne_zero hk
  have hindex : s.searchIndex query (k + 1) mask = some (.ok []) := by rw [searchIndex, h.index]
  have htree : s.searchTree S (query.map Narrow.toF32) (k + 1) = [] := by
    rw [searchTree, h.tree]
    rfl
  obtain ⟨score, hbuffer⟩ : ∃ score,
      s.searchBuffer S (query.map Narrow.toF32) (k + 1) = [(0, score)] := by
    rw [searchBuffer, h.buffer]
    refine ⟨F32.sub F32.one (F32.sum (List.zipWith F32.mul [] (query.map Narrow.toF32))), ?_⟩
    simp [HotBuffer.search, hone]
  refine ⟨score, ?_⟩
  unfold Engine.search
  rw [hindex, Option.bind_eq_bind, Option.bind_some]
  dsimp only
  rw [hbuffer, htree]
  show some (Except.ok ((retainFirst [] (S.sort [(0, score)])).take (k + 1))) = _
  rw [hone]
  simp [retainFirst]

omit [F32 β] [Narrow α β] in
/-- The record is found, and it has no field. -/
theorem HoldsNull.no_match [F64Math α] {s : Engine α β} (h : HoldsNull s) (rank : UInt64 → Nat)
    {p : Predicate α} (hp : p.covered = true) {score : β} {metadata : Option (Value α)} :
    ¬ StoredMatch P rank s p ⟨0, score, metadata⟩ := by
  rintro ⟨r, hget, heval⟩
  replace hget : s.get P rank 0 = .ok (some r) := hget
  rw [Engine.get, h.record] at hget
  cases hget
  cases p with
  | comparison field operator value => cases heval
  | _ => cases hp

end OneRecord

/-! ## The results of a query -/

section Sound

variable [F64 α] [F32 β] [F64Math α] [F64Plan α] [F64Text α] [Narrow α β]

/-- Whatever the configuration and the storage, all results of the queries with the predicate
are stored records that satisfy it. -/
def WhereSound [Nom] [NomLocate] (P : Deps α) (p : Predicate α) : Prop :=
  ∀ (vql : String) (q : Query α), parse vql = some (.ok q) → q.metadataWhere = some ⟨[p]⟩ →
    ∀ (config : PlannerConfig α) (B : Backend α β) (S : ScoreSort β) (s : Engine α β)
      (rank : UInt64 → Nat) (userId : Option String) (rs : List (ScoredResult α β)),
      (system P).Reachable s → (B.onEngine S s).execute config vql userId = some (.ok rs) →
        ∀ r ∈ rs, StoredMatch P rank s p r

/-- One candidate, one dimension, and no costs. -/
def oneCandidate : PlannerConfig α :=
  ⟨1, 1, 0, F64.zero, F64.zero, F64.zero, false⟩

/-- A short query with the predicate. -/
def queryWhere (p : Predicate α) : Query α :=
  { Query.start ("SIMILARITY", ⟨"e", "q", none⟩) with metadataWhere := some ⟨[p]⟩ }

omit [F32 β] [F64Text α] in
/-- The filter over a covered predicate is left away. -/
theorem planToTree_covered {p : Predicate α} (hp : p.covered = true) :
    ∃ mask filters alpha, planToTree (β := β) oneCandidate (queryWhere p) =
      some (.ok (.limit (.annScan "e" 1 mask filters alpha) 10 0)) := by
  obtain ⟨mask, hmask⟩ : ∃ mask : Option (List (Nat × β)),
      deriveWeightMask oneCandidate (queryWhere p).metadataWhere = some mask := by
    cases p with
    | comparison field operator value => exact ⟨_, rfl⟩
    | _ => cases hp
  refine ⟨mask, extractBiasFilters (some ⟨[p]⟩), F64.zero, ?_⟩
  have hfilter := addFilter_single p
    (.annScan "e" 1 mask (extractBiasFilters (some ⟨[p]⟩)) F64.zero : PlanNode α β)
  rw [if_pos hp] at hfilter
  unfold planToTree
  simp only [hmask]
  exact congrArg (fun node => some (Except.ok (PlanNode.limit node 10 0))) hfilter

omit [F64 α] [F64Math α] [F64Plan α] in
/-- A query with the predicate is accepted, if any is. -/
theorem parse_queryWhere [Nom] [LawfulNom] [NomLocate] {vql : String} {q : Query α}
    {p : Predicate α} (hparse : parse vql = some (.ok q)) (hw : q.metadataWhere = some ⟨[p]⟩) :
    ∃ text, parse text = some (.ok (queryWhere p)) := by
  obtain ⟨ts, _, hts, _, _⟩ := parse_eq_ok.mp hparse
  obtain ⟨us, hus⟩ := hts.whereToks hw
  have hfind : FindToks (Style.canonical : Style α) ("SIMILARITY", ⟨"e", "q", none⟩)
      (shortFind "FIND".toList []) := shortFind_toks rfl blank_nil rfl rfl rfl
  have hclauses : ClausesToks (Style.canonical : Style α) [.metadataWhere ⟨[p]⟩] (us ++ []) :=
    .cons hus .nil (by simp)
  refine ⟨String.ofList (render (shortFind "FIND".toList [] ++ (us ++ []))), parse_eq_ok.mpr
    ⟨_, [], QueryToks.mk hfind hclauses ⟨by simp, by simp [ParsedClause.kind]⟩, blank_nil, ?_⟩⟩
  rw [String.toList_ofList]
  exact (List.append_nil _).symm

omit [F64Text α] in
/-- The scan over the one record. -/
theorem HoldsNull.executePlan {s : Engine α β} (h : HoldsNull s) (S : ScoreSort β)
    (mask : Option (List (Nat × β))) (filters : List (BiasFilter α)) (alpha : α) (query : List α) :
    ∃ score, ((Backend.ofRanking []).onEngine S s).executePlan none
      (.limit (.annScan "e" 1 mask filters alpha) 10 0) query = some (.ok [⟨0, score, none⟩]) := by
  obtain ⟨w, hw⟩ : ∃ w, ((Backend.ofRanking []).onEngine S s).biasedVector query filters alpha =
      .ok w := by
    unfold Backend.biasedVector
    split
    · exact ⟨_, rfl⟩
    · exact ⟨_, rfl⟩
  obtain ⟨score, hsearch⟩ := h.search S w (k := 1) (by decide) mask
  have hscan : ((Backend.ofRanking []).onEngine S s).executePlan none
      (.annScan "e" 1 mask filters alpha) query = some (.ok [⟨0, score, none⟩]) := by
    rw [Backend.executePlan, Backend.annScan_of_vector _ rfl hw]
    show (s.search S w 1 mask).map _ = _
    rw [hsearch]
    rfl
  exact ⟨score, Backend.executePlan_limit _ none hscan 10 0⟩

/-- The results of the queries with a predicate satisfy it exactly if no bias filter stands
for the predicate: then there are none. -/
theorem where_sound_iff [Nom] [LawfulNom] [NomLocate] (P : Deps α) {p : Predicate α} {vql : String}
    {q : Query α} (hparse : parse vql = some (.ok q)) (hw : q.metadataWhere = some ⟨[p]⟩) :
    WhereSound (β := β) P p ↔ p.covered = false := by
  constructor
  · intro hsound
    rw [← Bool.not_eq_true]
    intro hp
    obtain ⟨text, htext⟩ := parse_queryWhere hparse hw
    obtain ⟨mask, filters, alpha, hplan⟩ := planToTree_covered (β := β) hp
    obtain ⟨s, hreach, hs⟩ := reachable_null (β := β) P
    obtain ⟨score, hrun⟩ := hs.executePlan .insertion mask filters alpha []
    refine hs.no_match P UInt64.toNat hp (hsound text _ htext rfl oneCandidate (.ofRanking [])
      .insertion s _ none _ hreach ?_ ⟨0, score, none⟩ (List.mem_singleton.mpr rfl))
    exact Backend.execute_eq_ok _ |>.mpr ⟨_, _, [], htext, hplan, rfl, hrun⟩
  · intro hp text q' htext hw' config B S s rank userId rs _ hrun r hr
    obtain ⟨_, plan, v, hq, hplan, _, hrun⟩ := (Backend.execute_eq_ok _).mp hrun
    rw [htext, Option.some.injEq, Except.ok.injEq] at hq
    subst hq
    obtain ⟨ts, _, hts, _, _⟩ := parse_eq_ok.mp htext
    obtain ⟨_, hclause⟩ := hts.whereToks hw'
    have hasks : vacuous p = false := by
      cases hclause with
      | metadataWhere _ _ _ hp => exact hp.asks
    rw [Backend.planToTree_silent hplan hw' hp hasks _ _ _ hrun] at hr
    cases hr

end Sound

/-! ## One record -/

/-- `year = 2019.0` -/
def yearFloat : Predicate Lit := .comparison "year" .eq (.float (.fin 2019))

attribute [local instance] Nom.complete NomLocate.plain

/-- An integer is not taken for a bias filter. -/
theorem where_sound_year : WhereSound (β := Lit) deps (yearIs 2020) := by
  have := Nom.complete_lawful
  have hparse : parse "FIND SIMILARITY(e, 'q') WITH METADATA WHERE year = 2020" =
      some (.ok (queryWhere (yearIs 2020))) := by rfl
  exact (where_sound_iff deps hparse rfl).mpr rfl

/-- The scan of that query. -/
def yearFloatScan : PlanNode Lit Lit :=
  .annScan "e" 50 (some [(61, .fin 1)]) [⟨"year", .numerical (.fin 2019) .eq⟩] (.fin 0)

/-- A record of the year 2020 is found by `year = 2019.0`. -/
theorem where_finds_other_year :
    parse "FIND SIMILARITY(e, 'q') WITH METADATA WHERE year = 2019.0" =
      some (.ok (queryWhere yearFloat)) ∧
    (system deps).Reachable bufferedYear ∧
    yearBackend.execute withoutCosts "FIND SIMILARITY(e, 'q') WITH METADATA WHERE year = 2019.0"
      none = some (.ok [⟨7, .fin 1, none⟩]) ∧
    ¬ StoredMatch deps UInt64.toNat bufferedYear yearFloat ⟨7, .fin 1, none⟩ := by
  have hparse : parse "FIND SIMILARITY(e, 'q') WITH METADATA WHERE year = 2019.0" =
      some (.ok (queryWhere yearFloat)) := by rfl
  have hplan : planToTree withoutCosts (queryWhere yearFloat) =
      some (.ok (.limit yearFloatScan 10 0)) := by
    have hdim : fieldToDim withoutCosts "year" = some 61 := by decide +kernel
    have hmask : deriveWeightMask withoutCosts (queryWhere yearFloat).metadataWhere =
        some (some [(61, (.fin 1 : Lit))]) := by
      simp only [deriveWeightMask, queryWhere, predicateWeights, yearFloat, hdim]
      rfl
    unfold planToTree
    simp only [hmask]
    rfl
  have hinsert : insertOk deps buffered insertYear = some bufferedYear :=
    accepting_step _ (by decide +kernel)
  have hstep := step_of_insert deps (insertOk_eq_some.mp hinsert)
  refine ⟨hparse, ⟨_, _, buffered_fresh, .cons hstep (.nil _)⟩,
    (Backend.execute_eq_ok _).mpr ⟨_, _, [], hparse, hplan, rfl, by rfl⟩, ?_⟩
  rintro ⟨r, hget, heval⟩
  have hstored : bufferedYear.get deps UInt64.toNat 7 = .ok (some (record insertYear)) := by rfl
  rw [hstored] at hget
  cases hget
  exact absurd heval (by decide +kernel)

end Tesseract.L5.Vql
