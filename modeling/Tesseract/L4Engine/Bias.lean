import Tesseract.L3Store.BiasNeutral
import Tesseract.L4Engine.Insert
import Tesseract.L4Engine.Open

/-!
# The bias across a restart

`insert` updates the trackers, `open` makes new ones, and the replay of the log
does not pass by them. So a restart forgets every shift.

* `Traced`: the trackers of a running engine are behind its inserts.
* `restart_traced`: those of a reopened engine are behind none.
* `bias_survives_iff`: the bias is the same behind a restart exactly when the
  inserts are neutral.
* `bias_forgotten`: two categories, and the shift towards one of them is gone.
-/
namespace Tesseract.L4.Engine

open L1.Wal L2.Log L3 L3.Serde

variable {α β : Type} [F64 α]

/-- No lock is poisoned: an insert that panics ends the run.
mirrors tesseract-storage/src/engine.rs:560-577 -/
def applyTopologicalBias [F64Math α] (s : Engine α β) (query : List α)
    (filters : List (BiasFilter α)) (alpha : α) : List α :=
  match s.centroids, s.correlations, s.buckets with
  | some centroids, some correlations, some buckets =>
    L3.applyTopologicalBias query filters centroids correlations buckets alpha
  | _, _, _ => query

/-- The inserts as the trackers see them. -/
def rowsOf (cs : List (Call α)) : List (Row α) := cs.map fun c => (c.vector, c.metadata)

/-- The trackers are configured, and behind the inserts `cs`. -/
def Traced (config : StorageConfig α) (cs : List (Call α)) (s : Engine α β) : Prop :=
  s.config = config ∧ ∃ centroids correlations buckets,
    s.centroids = some centroids ∧ s.correlations = some correlations ∧
    s.buckets = some buckets ∧
    centroids.Tracks config.index.dim config.topological.categoricalFields (rowsOf cs) ∧
    correlations.Tracks config.index.dim
      (numbered config.topological.numericalFields (rowsOf cs)) ∧
    buckets.Tracks config.index.dim config.topological.numericalBuckets
      ((rowsOf cs).flatMap (numbersIn (config.topological.numericalBuckets.map Prod.fst)))
      (numbered (config.topological.numericalBuckets.map Prod.fst) (rowsOf cs))

/-! ## One insert -/

/-- Outside the configuration and the trackers the two engines may differ. -/
structure Untouched (s s' : Engine α β) : Prop where
  config : s'.config = s.config
  centroids : s'.centroids = s.centroids
  correlations : s'.correlations = s.correlations
  buckets : s'.buckets = s.buckets

theorem Untouched.trans {s₁ s₂ s₃ : Engine α β} (h : Untouched s₁ s₂) (h' : Untouched s₂ s₃) :
    Untouched s₁ s₃ :=
  ⟨h'.config.trans h.config, h'.centroids.trans h.centroids, h'.correlations.trans h.correlations,
    h'.buckets.trans h.buckets⟩

theorem Traced.untouched {config : StorageConfig α} {cs : List (Call α)} {s s' : Engine α β}
    (h : Traced config cs s) (hs : Untouched s s') : Traced config cs s' := by
  unfold Traced at h ⊢
  rw [hs.config, hs.centroids, hs.correlations, hs.buckets]
  exact h

theorem Traced.updateTrackers {config : StorageConfig α} {cs : List (Call α)}
    {s s' : Engine α β} (h : Traced config cs s) (c : Call α)
    (hup : s.updateTrackers c.vector c.metadata = some s') : Traced config (cs ++ [c]) s' := by
  obtain ⟨hconfig, centroids, correlations, buckets, hcen, hcor, hbuc, htc, htr, htb⟩ := h
  unfold Engine.updateTrackers at hup
  simp only [hcen, hcor, hbuc, hconfig, Option.map_some, Option.mapM_some, Option.bind_eq_bind,
    Option.bind_eq_some_iff, Option.map_eq_map, Option.map_eq_some_iff, Option.some.injEq] at hup
  obtain ⟨_, ⟨correlations', hcor', rfl⟩, _, ⟨buckets', hbuc', rfl⟩, rfl⟩ := hup
  have hrows : rowsOf (cs ++ [c]) = rowsOf cs ++ [(c.vector, c.metadata)] := by
    simp [rowsOf]
  have hnumbered : ∀ fields, numbered fields (rowsOf (cs ++ [c])) = fun field =>
      numbered fields (rowsOf cs) field ++ observed fields (c.vector, c.metadata) field := by
    intro fields
    funext field
    rw [hrows, numbered_concat]
  refine ⟨rfl, _, correlations', buckets', rfl, rfl, rfl, ?_, ?_, ?_⟩
  · rw [hrows]
    exact htc.update (c.vector, c.metadata)
  · rw [hnumbered]
    exact htr.updateAll (c.vector, c.metadata) _ hcor'
  · rw [hnumbered, hrows, List.flatMap_append, List.flatMap_singleton]
    exact htb.updateAll (c.vector, c.metadata) _ hbuc'

theorem appendEntry_untouched (P : Deps α) (s : Engine α β) (c : Call α) :
    Untouched s (s.appendEntry P c).1 := ⟨rfl, rfl, rfl, rfl⟩

variable [F32 β] {P : Deps α}

theorem mergeBuffer_untouched {s s' : Engine α β} {b : HotBuffer β (Value α)}
    (h : s.mergeBuffer P b = some s') : Untouched s s' := by
  unfold mergeBuffer at h
  dsimp only at h
  split at h
  · cases h
    exact ⟨rfl, rfl, rfl, rfl⟩
  · obtain ⟨_, _, h⟩ := Option.bind_eq_some_iff.mp h
    cases h
    exact ⟨rfl, rfl, rfl, rfl⟩

theorem shutdown_untouched {s s₁ : Engine α β} {r : Result Unit}
    (h : s.shutdown P = some (s₁, r)) : Untouched s s₁ := by
  unfold shutdown at h
  dsimp only at h
  split at h
  · cases h
    exact ⟨rfl, rfl, rfl, rfl⟩
  · split at h
    · cases h
      exact ⟨rfl, rfl, rfl, rfl⟩
    · obtain ⟨s₂, hmerge, h⟩ := Option.bind_eq_some_iff.mp h
      cases h
      have hs := mergeBuffer_untouched hmerge
      exact ⟨hs.config, hs.centroids, hs.correlations, hs.buckets⟩

variable [Narrow α β]

theorem bufferVector_untouched {s s' : Engine α β} {id : UInt64} {v : List α} {m : Value α}
    (h : s.bufferVector P id v m = some s') : Untouched s s' := by
  unfold bufferVector at h
  split at h
  · cases h
    exact ⟨rfl, rfl, rfl, rfl⟩
  · split at h
    · exact mergeBuffer_untouched h
    · cases h
      exact ⟨rfl, rfl, rfl, rfl⟩

theorem insertIndex_untouched {env : Env} {s s' : Engine α β} {id : UInt64} {v : List α}
    {r : Result Unit} (h : s.insertIndex env id v = some (s', r)) : Untouched s s' := by
  unfold insertIndex at h
  split at h
  · cases h
    exact ⟨rfl, rfl, rfl, rfl⟩
  · obtain ⟨p, _, h⟩ := Option.bind_eq_some_iff.mp h
    cases h
    exact ⟨rfl, rfl, rfl, rfl⟩

/-- The insert itself, if its entry reaches the log. -/
def recorded (P : Deps α) (s : Engine α β) (c : Call α) : List (Call α) :=
  match (s.appendEntry P c).2 with
  | .ok _ => [c]
  | .error _ => []

/-- Behind a failed append the trackers are as before. Behind any other they are updated,
whatever becomes of the insert. -/
theorem Traced.insertAny {config : StorageConfig α} {cs : List (Call α)} {s s' : Engine α β}
    {c : Call α} {r : Result Unit} (h : Traced config cs s) (hins : s.insert P c = some (s', r)) :
    Traced config (cs ++ recorded P s c) s' := by
  have h₁ := appendEntry_untouched P s c
  unfold recorded
  unfold Engine.insert at hins
  generalize s.appendEntry P c = res at hins h₁
  obtain ⟨s₁, r₁⟩ := res
  cases r₁ with
  | error x =>
    cases hins
    rw [List.append_nil]
    exact h.untouched h₁
  | ok u =>
    obtain ⟨s₂, hup, hins⟩ := Option.bind_eq_some_iff.mp hins
    have h₂ := (h.untouched h₁).updateTrackers c hup
    dsimp only at hins
    split at hins
    · cases hins
      exact h₂.untouched ⟨rfl, rfl, rfl, rfl⟩
    · next hot cold hstore =>
      obtain ⟨⟨s₃, r₃⟩, hindex, hins⟩ := Option.bind_eq_some_iff.mp hins
      have hidx := insertIndex_untouched hindex
      have h₃ : Untouched s₂ s₃ :=
        ⟨hidx.config, hidx.centroids, hidx.correlations, hidx.buckets⟩
      cases r₃ with
      | error x =>
        cases hins
        exact h₂.untouched h₃
      | ok u =>
        dsimp only at hins
        obtain ⟨s₄, hbuf, hins⟩ := Option.bind_eq_some_iff.mp hins
        cases hins
        exact h₂.untouched (h₃.trans (bufferVector_untouched hbuf))

theorem Traced.insert {config : StorageConfig α} {cs : List (Call α)} {s s' : Engine α β}
    {c : Call α} (h : Traced config cs s) (hins : s.insert P c = some (s', .ok ())) :
    Traced config (cs ++ [c]) s' := by
  have hrecorded : recorded P s c = [c] := by
    rcases insert_stages hins with ⟨x, _, _, hok⟩ | ⟨_, happend, _⟩
    · cases hok
    · rw [recorded, happend]
  rw [← hrecorded]
  exact h.insertAny hins

/-! ## Open -/

omit [F32 β] [Narrow α β] in
/-- What is opened has new trackers. -/
theorem assemble_traced {env : OpenEnv} {config : StorageConfig α} {wal : Session}
    {hot : HotStore α} {cold : ColdStore} {index indexFile : Option (HnswIndex β)}
    {merkleFile : Option (MerkleTree β)} {s : Engine α β} (hon : config.topological.enabled = true)
    (h : assemble P env config wal hot cold index indexFile merkleFile = .ok s) :
    Traced config [] s := by
  obtain ⟨buckets, hb, rfl⟩ := assemble_inv h
  unfold initBuckets at hb
  rw [if_pos hon] at hb
  cases hreg : NumericalBucketTracker.registerAll config.topological.numericalBuckets
    (NumericalBucketTracker.new config.index.dim) with
  | error x =>
    rw [hreg] at hb
    cases hb
  | ok t =>
    rw [hreg] at hb
    cases hb
    refine ⟨rfl, _, _, t, if_pos hon, if_pos hon, rfl, CentroidTracker.tracks_new _ _,
      CorrelationTracker.tracks_new _ _, ?_⟩
    exact (NumericalBucketTracker.tracks_new config.index.dim).registerAll _ hreg

theorem openEngine_traced {env : OpenEnv} {config : StorageConfig α} {walDir : Dir}
    {coldDisk : Disk ColdFile} {indexFile : Option (HnswIndex β)}
    {merkleFile : Option (MerkleTree β)} {s : Engine α β} (hon : config.topological.enabled = true)
    (h : openEngine P env config walDir coldDisk indexFile merkleFile = some (.ok s)) :
    Traced config [] s := by
  obtain ⟨_, _, _, _, _, _, _, _, hs⟩ := openEngine_eq_ok.mp h
  exact assemble_traced hon hs

theorem traced_run {env : OpenEnv} {config : StorageConfig α} {s₀ s : Engine α β}
    {cs : List (Call α)} (hon : config.topological.enabled = true)
    (h₀ : create P env config = some (.ok s₀)) (hrun : (accepting P).Run s₀ cs s) :
    Traced config cs s := by
  apply hrun.history (I := fun cs s => Traced config cs s)
  · exact openEngine_traced hon h₀
  · intro pre c s s' _ h hst
    exact h.insert (insertOk_eq_some.mp hst)

/-- The engine is opened again, with or without a shutdown before. -/
def Restarts (P : Deps α) (env : OpenEnv) (s s' : Engine α β) : Prop :=
  s.reopen P env = some (.ok s') ∨
    ∃ s₁ r, s.shutdown P = some (s₁, r) ∧ s₁.reopen P env = some (.ok s')

theorem restart_traced {env : OpenEnv} {config : StorageConfig α} {s s' : Engine α β}
    (hon : config.topological.enabled = true) (hconfig : s.config = config)
    (h : Restarts P env s s') : Traced config [] s' := by
  rcases h with h | ⟨s₁, r, hdown, h⟩
  · unfold reopen at h
    rw [hconfig] at h
    exact openEngine_traced hon h
  · unfold reopen at h
    rw [(shutdown_untouched hdown).config, hconfig] at h
    exact openEngine_traced hon h

/-! ## The bias -/

section Exact

variable {K : Type} [Field K] [LinearOrder K] [IsStrictOrderedRing K] [F64Math K] [LawfulMath K]
  [Narrow K β] {P : Deps K}

omit [F32 β] [Narrow K β] [IsStrictOrderedRing K] [LawfulMath K] in
theorem Traced.bias {config : StorageConfig K} {cs : List (Call K)} {s : Engine K β}
    (h : Traced config cs s)
    (hshort : cs.length * (1 + config.topological.categoricalFields.length +
      config.topological.numericalFields.length +
      config.topological.numericalBuckets.length) < 2 ^ 64) :
    ∃ c r b, Histories c r b config.index.dim config.topological.categoricalFields
      config.topological.numericalFields config.topological.numericalBuckets (rowsOf cs) ∧
      ∀ query filters alpha, s.applyTopologicalBias query filters alpha =
        L3.applyTopologicalBias query filters c r b alpha := by
  obtain ⟨_, c, r, b, hc, hr, hb, htc, htr, htb⟩ := h
  refine ⟨c, r, b, ⟨htc, htr, htb, by simpa [rowsOf] using hshort⟩, ?_⟩
  intro query filters alpha
  simp only [applyTopologicalBias, hc, hr, hb]

/-- With tracking enabled, a restart keeps the bias of every query exactly when the
accepted inserts are neutral. -/
theorem bias_survives_iff {env₀ env : OpenEnv} {config : StorageConfig K} {s₀ s s' : Engine K β}
    {cs : List (Call K)} (hon : config.topological.enabled = true)
    (h₀ : create P env₀ config = some (.ok s₀)) (hrun : (accepting P).Run s₀ cs s)
    (hshort : cs.length * (1 + config.topological.categoricalFields.length +
      config.topological.numericalFields.length +
      config.topological.numericalBuckets.length) < 2 ^ 64)
    (hopen : Restarts P env s s') :
    (∀ query filters alpha, s'.applyTopologicalBias query filters alpha =
      s.applyTopologicalBias query filters alpha) ↔
    Neutral config.index.dim config.topological.categoricalFields
      config.topological.numericalFields config.topological.numericalBuckets (rowsOf cs) := by
  have htraced := traced_run hon h₀ hrun
  obtain ⟨c, r, b, hist, hbias⟩ := htraced.bias hshort
  obtain ⟨c', r', b', hist', hbias'⟩ := (restart_traced hon htraced.1 hopen).bias (by simp)
  have hfresh := hist'.still (neutral_nil _ _ _ _)
  rw [← still_iff_neutral hist]
  constructor
  · intro hsame query filters alpha
    rw [← hbias, ← hsame, hbias', hfresh]
  · intro hstill query filters alpha
    rw [hbias, hbias', hfresh, hstill]

end Exact

/-! ## Two categories -/

/-- A rational as a literal; exact on integers. -/
def toLit (x : Serde.Finite ℚ) : Serde.Finite Lit := ⟨.fin x.1.floor, rfl⟩

def ofLit : Serde.Finite Lit → Serde.Finite ℚ
  | ⟨.fin n, _⟩ => ⟨n, rfl⟩
  | _ => ⟨0, rfl⟩

instance : Narrow ℚ Lit where
  toF32 x := .fin x.floor

/-- The text of a rational is the text of its floor. -/
def rationalText : Text ℚ where
  print j := jsonText.print (j.map toLit)
  parse bs := (jsonText.parse bs).map fun j => j.map ofLit
  reread x := ofLit (toLit x)

def rationals : Deps ℚ := ⟨crates, ⟨rationalText, id, some⟩, id⟩

/-- One tracked field, and no index. -/
def categorized : StorageConfig ℚ where
  wal := ⟨1024, 1000⟩
  maxRecords := 10
  cacheCapacity := 16
  hotMaxRecords := 10000
  index := ⟨false, 1, ⟨16, 32, 200, .cosine⟩⟩
  topological := ⟨true, ["category"], [], []⟩
  merkle := ⟨false, 0, 0, false⟩

/-- `insert` of the vector `[x]` into a category. -/
def filed (id : UInt64) (x : ℚ) (category : String) : Call ℚ :=
  ⟨calm, id, [x], .obj [("category", .str category)], .durable⟩

/-- A new engine, and behind one and two inserts. -/
def tracking : Engine ℚ Lit :=
  ((create rationals calmOpen categorized).bind Except.toOption).get (by decide +kernel)

def trackingOne : Engine ℚ Lit :=
  ((tracking.insert rationals (filed 1 10 "science")).get (by decide +kernel)).1

def trackingTwo : Engine ℚ Lit :=
  ((trackingOne.insert rationals (filed 2 0 "art")).get (by decide +kernel)).1

def reopenedTwo : Engine ℚ Lit :=
  ((trackingTwo.reopen rationals calmOpen).bind Except.toOption).get (by decide +kernel)

theorem tracking_create : create rationals calmOpen categorized = some (.ok tracking) :=
  eq_ok_of_toOption (by rw [tracking, Option.some_get])

theorem trackingOne_step :
    (accepting rationals).step tracking (filed 1 10 "science") trackingOne :=
  accepting_step _ (by decide +kernel)

/-- Behind two inserts into one category, and behind one more into another. -/
def trackingMore : Engine ℚ Lit :=
  ((trackingOne.insert rationals (filed 2 20 "science")).get (by decide +kernel)).1

def trackingBalanced : Engine ℚ Lit :=
  ((trackingMore.insert rationals (filed 3 15 "art")).get (by decide +kernel)).1

def reopenedBalanced : Engine ℚ Lit :=
  ((trackingBalanced.reopen rationals calmOpen).bind Except.toOption).get (by decide +kernel)

theorem categoryOf_filed (id : UInt64) (x : ℚ) (category field : String) :
    categoryOf (filed id x category).metadata field =
      if field = "category" then some category else none := by
  by_cases hfield : field = "category"
  · subst hfield
    rfl
  · simp [categoryOf, filed, Json.get, Ne.symm hfield, hfield]

def balanced : List (Call ℚ) := [filed 1 10 "science", filed 2 20 "science", filed 3 15 "art"]

/-- Both categories have the mean of everything. -/
theorem balanced_neutral : Neutral 1 ["category"] [] [] (rowsOf balanced) := by
  refine ⟨?_, ?_, ?_⟩
  · intro field value hne d hd
    obtain rfl : d = 0 := by omega
    have hvalue : field = "category" ∧ (value = "science" ∨ value = "art") := by
      obtain ⟨v, hv⟩ := List.exists_mem_of_ne_nil _ hne
      obtain ⟨r, hr, hin⟩ := List.mem_flatMap.mp hv
      obtain ⟨c, hc, rfl⟩ := List.mem_map.mp hr
      have hcat : categoryOf c.metadata field = some value := by
        by_contra hno
        simp [hno] at hin
      simp only [balanced, List.mem_cons, List.not_mem_nil, or_false] at hc
      rcases hc with rfl | rfl | rfl <;> rw [categoryOf_filed] at hcat <;> grind
    obtain ⟨rfl, rfl | rfl⟩ := hvalue
    · decide +kernel
    · decide +kernel
  · intro field bs idx hbs
    cases hbs
  · intro field stats _ hstats y hy
    have hnone : numbered [] (rowsOf balanced) field = [] := by
      simp [numbered, rowsOf, balanced]
    rw [hnone] at hstats
    cases hstats
    exact List.eq_of_mem_replicate hy

theorem bias_survives_balanced :
    trackingBalanced.reopen rationals calmOpen = some (.ok reopenedBalanced) ∧
      ∀ query filters alpha, reopenedBalanced.applyTopologicalBias query filters alpha =
        trackingBalanced.applyTopologicalBias query filters alpha := by
  have hreopen : trackingBalanced.reopen rationals calmOpen = some (.ok reopenedBalanced) :=
    eq_ok_of_toOption (by rw [reopenedBalanced, Option.some_get])
  have hmore : (accepting rationals).step trackingOne (filed 2 20 "science") trackingMore :=
    accepting_step _ (by decide +kernel)
  have hbalanced : (accepting rationals).step trackingMore (filed 3 15 "art") trackingBalanced :=
    accepting_step _ (by decide +kernel)
  exact ⟨hreopen, (bias_survives_iff rfl tracking_create
    (.cons trackingOne_step (.cons hmore (.cons hbalanced (.nil _)))) (by decide)
    (.inl hreopen)).mpr balanced_neutral⟩

/-- Between the inserts and a restart the query is shifted towards its category, and
behind the restart it is not. -/
theorem bias_forgotten :
    create rationals calmOpen categorized = some (.ok tracking) ∧
    (accepting rationals).Run tracking [filed 1 10 "science", filed 2 0 "art"] trackingTwo ∧
    trackingTwo.reopen rationals calmOpen = some (.ok reopenedTwo) ∧
    trackingTwo.applyTopologicalBias [0] [⟨"category", .category "science"⟩] 1 = [5] ∧
    reopenedTwo.applyTopologicalBias [0] [⟨"category", .category "science"⟩] 1 = [0] := by
  have hstep : (accepting rationals).step trackingOne (filed 2 0 "art") trackingTwo :=
    accepting_step _ (by decide +kernel)
  refine ⟨tracking_create, .cons trackingOne_step (.cons hstep (.nil _)),
    eq_ok_of_toOption (by rw [reopenedTwo, Option.some_get]), ?_, ?_⟩
  · decide +kernel
  · decide +kernel

end Tesseract.L4.Engine
