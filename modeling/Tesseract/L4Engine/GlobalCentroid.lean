import Tesseract.L3Store.WeightedCentroid
import Tesseract.L4Engine.Bias

/-!
# The global centroids of a running engine

Both trackers of an engine have a centroid of "all vectors seen". That of the
categories is the mean of the inserts. That of the buckets counts an insert once for
each bucketed field with a number in its metadata, and not at all without one.

* `logged_traced`: the trackers are behind the inserts whose entries reached the log.
* `globalCentroids_iff`: the centroids agree exactly behind balanced inserts.
* `globalCentroids_apart`: one insert with a year and one without.
-/
namespace Tesseract.L4.Engine

open L2.Log L3 L3.Serde

/-- An engine, and the inserts whose entries reached its log. -/
structure Logged (α β : Type) [F64 α] where
  engine : Engine α β
  calls : List (Call α)

section Runs

variable {α β : Type} [F64 α] [F32 β] [Narrow α β] {P : Deps α}

/-- An insert that is refused behind its append has updated the trackers, too. -/
def Logged.insert (P : Deps α) (w : Logged α β) (c : Call α) : Option (Logged α β) :=
  (w.engine.insert P c).map fun p => ⟨p.1, w.calls ++ recorded P w.engine c⟩

/-- Inserts into a new engine, whatever they return. -/
def logging (P : Deps α) : LTS (Logged α β) (Call α) :=
  LTS.ofFn (fun w => Fresh P w.engine ∧ w.calls = []) (Logged.insert P)

theorem logging_step {config : StorageConfig α} {w w' : Logged α β} {c : Call α}
    (h : Traced config w.calls w.engine) (hst : (logging P).step w c w') :
    Traced config w'.calls w'.engine := by
  obtain ⟨⟨s', r⟩, hins, rfl⟩ := Option.map_eq_some_iff.mp hst
  exact h.insertAny hins

theorem logged_traced {env : OpenEnv} {config : StorageConfig α} {s₀ : Engine α β}
    {w : Logged α β} {cs : List (Call α)} (hon : config.topological.enabled = true)
    (h₀ : create P env config = some (.ok s₀)) (hrun : (logging P).Run ⟨s₀, []⟩ cs w) :
    Traced config w.calls w.engine := by
  apply hrun.keeps (I := fun w => Traced config w.calls w.engine)
  · intro w c w' h hst
    exact logging_step h hst
  · exact openEngine_traced hon h₀

theorem Logged.insert_calls {w w' : Logged α β} {c : Call α} (h : w.insert P c = some w')
    (hw : c.env.walFault = .none) : w'.calls = w.calls ++ [c] := by
  obtain ⟨_, _, rfl⟩ := Option.map_eq_some_iff.mp h
  simp only [recorded, appendEntry_none hw]

end Runs

/-! ## The two centroids -/

section Exact

variable {K β : Type} [Field K] [LinearOrder K] [IsStrictOrderedRing K] [F32 β] [Narrow K β]
  {P : Deps K}

/-- The mean of the vectors of some inserts. -/
def meanOf (dim : Nat) (calls : List (Call K)) : List K :=
  (List.range dim).map fun d => meanAt d (calls.map Call.vector)

omit [IsStrictOrderedRing K] in
theorem lengths_of_short {config : StorageConfig K} {calls : List (Call K)}
    (hshort : calls.length * (1 + config.topological.numericalBuckets.length) < 2 ^ 64) :
    (rowsOf calls).length < 2 ^ 64 ∧
      (numbersOf config.topological.numericalBuckets (rowsOf calls)).length < 2 ^ 64 := by
  have hnumbers := length_numbersIn_rows (config.topological.numericalBuckets.map Prod.fst)
    (rowsOf calls)
  rw [List.length_map] at hnumbers
  have hrows : (rowsOf calls).length = calls.length := List.length_map _
  rw [hrows] at hnumbers ⊢
  rw [Nat.mul_add, Nat.mul_one] at hshort
  refine ⟨by omega, ?_⟩
  unfold numbersOf
  omega

/-- With tracking enabled, behind every run the centroid of the categories is the mean
of the inserts, and that of the buckets is exactly if the inserts are balanced. -/
theorem globalCentroids_iff {env : OpenEnv} {config : StorageConfig K} {s₀ : Engine K β}
    {w : Logged K β} {cs : List (Call K)} (hon : config.topological.enabled = true)
    (h₀ : create P env config = some (.ok s₀)) (hrun : (logging P).Run ⟨s₀, []⟩ cs w)
    (hshort : w.calls.length * (1 + config.topological.numericalBuckets.length) < 2 ^ 64) :
    ∃ centroids buckets, w.engine.centroids = some centroids ∧
      w.engine.buckets = some buckets ∧
      centroids.globalCentroid = meanOf config.index.dim w.calls ∧
      (buckets.globalCentroid = meanOf config.index.dim w.calls ↔
        Balanced config.index.dim (config.topological.numericalBuckets.map Prod.fst)
          (rowsOf w.calls)) := by
  obtain ⟨_, centroids, _, buckets, hcen, _, hbuc, htc, _, htb⟩ := logged_traced hon h₀ hrun
  obtain ⟨hrows, hnumbers⟩ := lengths_of_short hshort
  have hvectors : (rowsOf w.calls).map Prod.fst = w.calls.map Call.vector := by
    simp only [rowsOf, List.map_map, Function.comp_def]
  refine ⟨centroids, buckets, hcen, hbuc, ?_, ?_⟩
  · rw [CentroidTracker.globalCentroid_means htc hrows, hvectors, meanOf]
  · rw [meanOf, ← hvectors]
    exact NumericalBucketTracker.globalCentroid_iff htb hnumbers

end Exact

/-! ## Two inserts -/

/-- One bucketed field, and no index. -/
def dated : StorageConfig ℚ :=
  { categorized with topological := ⟨true, [], [], [("year", [2015, 2020])]⟩ }

/-- `insert` of the vector `[x]`. -/
def paper (id : UInt64) (x : ℚ) (metadata : Value ℚ) : Call ℚ :=
  ⟨calm, id, [x], metadata, .durable⟩

def year (n : UInt64) : Value ℚ := .obj [("year", .nat n)]

/-- A new engine, behind an insert with a year, and behind another without. -/
def archive : Engine ℚ Lit :=
  ((create rationals calmOpen dated).bind Except.toOption).get (by decide +kernel)

def archiveOne : Logged ℚ Lit :=
  (Logged.insert rationals ⟨archive, []⟩ (paper 1 2 (year 2020))).get (by decide +kernel)

def archiveTwo : Logged ℚ Lit :=
  (archiveOne.insert rationals (paper 2 0 (.obj []))).get (by decide +kernel)

theorem archive_create : create rationals calmOpen dated = some (.ok archive) :=
  eq_ok_of_toOption (by rw [archive, Option.some_get])

theorem archiveOne_step :
    (logging rationals).step ⟨archive, []⟩ (paper 1 2 (year 2020)) archiveOne :=
  (Option.some_get _).symm

theorem archiveOne_calls : archiveOne.calls = [paper 1 2 (year 2020)] :=
  Logged.insert_calls archiveOne_step rfl

/-- A year in every insert. -/
theorem globalCentroids_one : ∃ centroids buckets, archiveOne.engine.centroids = some centroids ∧
    archiveOne.engine.buckets = some buckets ∧
    buckets.globalCentroid = centroids.globalCentroid := by
  have hshort : archiveOne.calls.length * (1 + dated.topological.numericalBuckets.length) <
      2 ^ 64 := by
    rw [archiveOne_calls]
    decide
  obtain ⟨centroids, buckets, hcen, hbuc, hmean, hiff⟩ :=
    globalCentroids_iff rfl archive_create (.cons archiveOne_step (.nil _)) hshort
  refine ⟨centroids, buckets, hcen, hbuc, ?_⟩
  rw [hmean]
  refine hiff.mpr (balanced_of_even _ (k := 1) (by decide) ?_)
  rw [archiveOne_calls]
  intro r hr
  obtain rfl := List.mem_singleton.mp hr
  decide

/-- The insert without a year is in the one centroid, and not in the other. -/
theorem globalCentroids_apart :
    create rationals calmOpen dated = some (.ok archive) ∧
    (logging rationals).Run ⟨archive, []⟩ [paper 1 2 (year 2020), paper 2 0 (.obj [])]
      archiveTwo ∧
    archiveTwo.calls = [paper 1 2 (year 2020), paper 2 0 (.obj [])] ∧
    meanOf 1 [paper 1 2 (year 2020), paper 2 0 (.obj [])] = [1] ∧
    archiveTwo.engine.centroids.map CentroidTracker.globalCentroid = some [1] ∧
    archiveTwo.engine.buckets.map NumericalBucketTracker.globalCentroid = some [2] := by
  have hstep : (logging rationals).step archiveOne (paper 2 0 (.obj [])) archiveTwo :=
    (Option.some_get _).symm
  have hcalls := Logged.insert_calls hstep rfl
  rw [archiveOne_calls] at hcalls
  refine ⟨archive_create, .cons archiveOne_step (.cons hstep (.nil _)), hcalls, ?_, ?_, ?_⟩
  · decide +kernel
  · decide +kernel
  · decide +kernel

end Tesseract.L4.Engine
