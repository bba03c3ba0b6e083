import Tesseract.Core.LTS
import Tesseract.L3Index.HnswSafe

/-!
# Queries and removals of the HNSW index

`search` and `remove` of `tesseract-index/src/hnsw.rs`, and the system of the
calls that write to an index. As in `insert`, `none` stands for a panic.

* `search_eq`: the weighted and the unweighted search are one search over the
  distance of the query.
* `descent_some`: on a well-formed index the descent of a query ends.
* `liveResults_eq`: what is kept of the candidates.
-/
namespace Tesseract.L3

variable {α β : Type}

/-- mirrors tesseract-index/src/distance.rs:58-66 -/
def maskToDense [F32 β] (mask : List (Nat × β)) (dim : Nat) : List β :=
  mask.foldl (fun dense (i, weight) => if i < dim then dense.set i weight else dense)
    (List.replicate dim F32.one)

namespace HnswIndex

/-! ## Search -/

/-- `filter(..).take(ef).map(..)`, which stops at the `ef`-th live candidate.
mirrors tesseract-index/src/hnsw.rs:260-265 -/
def liveResults (idx : HnswIndex β) : List (Nat × β) → Nat → Option (List (UInt64 × β))
  | _, 0 => some []
  | [], _ + 1 => some []
  | (i, dist) :: rest, ef + 1 => do
    let deleted ← idx.deleted[i]?
    if deleted then liveResults idx rest (ef + 1)
    else
      let id ← idx.idToNode[i]?
      let results ← liveResults idx rest ef
      some ((id, dist) :: results)

section Search

variable [F32 β] (D : DistanceComputer β) (idx : HnswIndex β)

/-- One layer of the descent of a query.
mirrors tesseract-index/src/hnsw.rs:245-251 -/
def descendQuery (query : List β) (weights : Option (List β)) (curr layer : Nat) : Option Nat :=
  match weights with
  | some w => (idx.greedySearchLayerWeighted D curr query layer w).map Prod.fst
  | none => (idx.greedySearchLayer D curr query layer).map Prod.fst

/-- mirrors tesseract-index/src/hnsw.rs:229-269 -/
def search [Narrow α β] (query : List α) (ef : Nat) (mask : Option (List (Nat × β))) :
    Option (Result (List (UInt64 × β))) :=
  if query.length ≠ idx.dim then some (.error (.dimensionMismatch query.length idx.dim))
  else
    let queryF32 : List β := query.map Narrow.toF32
    let weights := mask.map fun m => maskToDense m idx.dim
    if idx.nodes.isEmpty then some (.ok [])
    else do
      let entry ← idx.entryPoint
      let curr ← (layersDown 1 idx.maxLayer).foldlM (idx.descendQuery D queryF32 weights) entry
      let candidates ← match weights with
        | some w => idx.searchLayerWeighted D curr queryF32 ef 0 w
        | none => idx.searchLayer D curr queryF32 ef 0
      let results ← idx.liveResults candidates ef
      let sorted ← sortByDistance results
      some (.ok sorted)

end Search

/-- A live result is a candidate under its id. -/
theorem liveResults_mem {idx : HnswIndex β} : ∀ {candidates : List (Nat × β)} {ef : Nat}
    {results : List (UInt64 × β)}, idx.liveResults candidates ef = some results →
    ∀ p ∈ results, ∃ i, idx.idToNode[i]? = some p.1 ∧ (i, p.2) ∈ candidates := by
  intro candidates
  induction candidates with
  | nil =>
    intro ef results h p hp
    cases ef <;> (cases h; cases hp)
  | cons c rest ih =>
    intro ef results h p hp
    have hrest : (∃ i, idx.idToNode[i]? = some p.1 ∧ (i, p.2) ∈ rest) →
        ∃ i, idx.idToNode[i]? = some p.1 ∧ (i, p.2) ∈ c :: rest := fun ⟨i, hi, hmem⟩ =>
      ⟨i, hi, List.mem_cons_of_mem c hmem⟩
    cases ef with
    | zero =>
      cases h
      cases hp
    | succ ef =>
      rw [liveResults] at h
      simp only [Option.bind_eq_bind, Option.bind_eq_some_iff] at h
      obtain ⟨deleted, _, h⟩ := h
      cases deleted with
      | true => exact hrest (ih h p hp)
      | false =>
        simp only [Bool.false_eq_true, if_false, Option.bind_eq_some_iff, Option.some.injEq] at h
        obtain ⟨id, hid, results', hlive, rfl⟩ := h
        rcases List.mem_cons.mp hp with rfl | hp
        · exact ⟨c.1, hid, List.mem_cons_self⟩
        · exact hrest (ih hlive p hp)

theorem liveResults_ids {idx : HnswIndex β} {candidates : List (Nat × β)} {ef : Nat}
    {results : List (UInt64 × β)} (h : idx.liveResults candidates ef = some results) :
    ∀ p ∈ results, p.1 ∈ idx.idToNode := by
  intro p hp
  obtain ⟨i, hid, _⟩ := liveResults_mem h p hp
  exact List.mem_of_getElem? hid

/-- A query returns ids of the index only. -/
theorem search_ids [F32 β] [Narrow α β] {D : DistanceComputer β} {idx : HnswIndex β}
    {query : List α} {ef : Nat} {mask : Option (List (Nat × β))} {rs : List (UInt64 × β)}
    (h : idx.search D query ef mask = some (.ok rs)) : ∀ p ∈ rs, p.1 ∈ idx.idToNode := by
  unfold search at h
  split at h
  · cases h
  · dsimp only at h
    split at h
    · cases h
      intro p hp
      cases hp
    · simp only [Option.bind_eq_bind, Option.bind_eq_some_iff] at h
      obtain ⟨_, _, _, _, h⟩ := h
      have hlast : ∃ candidates results sorted, idx.liveResults candidates ef = some results ∧
          sortByDistance results = some sorted ∧ rs = sorted := by
        split at h
        · simp only [Option.bind_eq_some_iff, Option.some.injEq, Except.ok.injEq] at h
          obtain ⟨candidates, _, results, hres, sorted, hsort, rfl⟩ := h
          exact ⟨candidates, results, sorted, hres, hsort, rfl⟩
        · simp only [Option.bind_eq_some_iff, Option.some.injEq, Except.ok.injEq] at h
          obtain ⟨candidates, _, results, hres, sorted, hsort, rfl⟩ := h
          exact ⟨candidates, results, sorted, hres, hsort, rfl⟩
      obtain ⟨candidates, results, sorted, hres, hsort, rfl⟩ := hlast
      unfold sortByDistance at hsort
      split at hsort
      · cases hsort
      · cases hsort
        intro p hp
        exact liveResults_ids hres p ((List.perm_insertionSort _ results).mem_iff.mp hp)

/-! ## Remove -/

/-- mirrors tesseract-index/src/hnsw.rs:275-285 -/
def remove (idx : HnswIndex β) (id : UInt64) : Option (HnswIndex β × Result Unit) :=
  match idx.idToNode.findIdx? (· == id) with
  | none =>
    some (idx, .error (.notFound ("VectorId VectorId(" ++ toString id ++ ") not found in index")))
  | some pos =>
    if pos < idx.deleted.length then some ({ idx with deleted := idx.deleted.set pos true }, .ok ())
    else none

/-! ## The calls that write -/

/-- `level` is what the random number gives. -/
inductive Op (α : Type) where
  | insert (level : Nat) (id : UInt64) (vector : List α)
  | remove (id : UInt64)
  deriving DecidableEq, Repr

section System

variable [F32 β] [Narrow α β] (D : DistanceComputer β)

def apply (idx : HnswIndex β) : Op α → Option (HnswIndex β × Result Unit)
  | .insert level id vector => idx.insert D level id vector
  | .remove id => idx.remove id

/-- Every sequence of calls, whatever they return. -/
def calls (dim : Nat) (config : HnswConfig) : LTS (HnswIndex β) (Op α) :=
  LTS.ofFn (· = new dim config) fun idx op => (idx.apply D op).map Prod.fst

end System

/-! ## Points on a line

Concrete runs place vectors of one integer on a line, where the Euclidean distance
is that of the integers. -/

/-- Where a vector lies. -/
def place : List Lit → Int
  | .fin n :: _ => n
  | _ => 0

/-- `euclideanComputer` on vectors of one integer. -/
def lineComputer : DistanceComputer Lit where
  distance a b := .fin (place a - place b).natAbs
  distanceWeighted a b weights := .fin ((place weights).natAbs * (place a - place b).natAbs)

/-- At most two links a layer, and a search that keeps one candidate. -/
def twoLinks : HnswConfig := ⟨2, 2, 1, .euclidean⟩

/-- The index behind a sequence of calls. -/
def onLine (config : HnswConfig) (ops : List (Op Lit)) : Option (HnswIndex Lit) :=
  LTS.exec (fun idx op => (idx.apply lineComputer op).map Prod.fst) (fun _ _ => True)
    (new 1 config) ops

theorem onLine_reachable {config : HnswConfig} {ops : List (Op Lit)} {idx : HnswIndex Lit}
    (h : onLine config ops = some idx) :
    (calls (α := Lit) lineComputer 1 config).Reachable idx :=
  LTS.Reachable.of_restrict ⟨new 1 config, ops, rfl, LTS.run_of_exec h⟩

/-! ## A search returns -/

/-- The flag of node `i`. -/
def tombstoned (idx : HnswIndex β) (i : Nat) : Bool := idx.deleted.getD i false

/-- The id of node `i`. -/
def idAt (idx : HnswIndex β) (i : Nat) : UInt64 := idx.idToNode.getD i 0

theorem idAt_eq {idx : HnswIndex β} {i : Nat} (hi : i < idx.idToNode.length) :
    idx.idToNode[i]? = some (idx.idAt i) := by
  rw [idAt, List.getD_eq_getElem?_getD, List.getElem?_eq_getElem hi, Option.getD_some]

theorem tombstoned_eq {idx : HnswIndex β} {i : Nat} {b : Bool} (h : idx.deleted[i]? = some b) :
    idx.tombstoned i = b := by
  rw [tombstoned, List.getD_eq_getElem?_getD, h, Option.getD_some]

section Returns

variable [F32 β] {D : DistanceComputer β} {idx : HnswIndex β}

/-- The distance a query is measured with. -/
def queryDistance (D : DistanceComputer β) (weights : Option (List β)) : List β → List β → β :=
  match weights with
  | some w => fun a b => D.distanceWeighted a b w
  | none => D.distance

theorem descendQuery_eq (query : List β) (weights : Option (List β)) (curr layer : Nat) :
    idx.descendQuery D query weights curr layer =
      (greedyWith (queryDistance D weights) idx curr query layer).map Prod.fst := by
  cases weights <;> rfl

/-- Where the descent of a query ends. -/
def descent (f : List β → List β → β) (idx : HnswIndex β) (query : List β) : Option Nat := do
  let entry ← idx.entryPoint
  (layersDown 1 idx.maxLayer).foldlM
    (fun curr layer => (greedyWith f idx curr query layer).map Prod.fst) entry

/-- A query on a non-empty index: descend, search layer 0, keep the live nodes, sort. -/
theorem search_eq [Narrow α β] {query : List α} (hdim : query.length = idx.dim)
    (hne : idx.nodes ≠ []) (ef : Nat) (mask : Option (List (Nat × β))) :
    idx.search D query ef mask =
      (idx.descent (queryDistance D (mask.map fun m => maskToDense m idx.dim))
        (query.map Narrow.toF32)).bind fun curr =>
      (searchWith (queryDistance D (mask.map fun m => maskToDense m idx.dim)) idx curr
        (query.map Narrow.toF32) ef 0).bind fun candidates =>
      (idx.liveResults candidates ef).bind fun results =>
      (sortByDistance results).map Except.ok := by
  have hempty : idx.nodes.isEmpty = false := by simpa using hne
  unfold search descent
  rw [if_neg (by simpa using hdim)]
  simp only [hempty, Bool.false_eq_true, if_false, Option.bind_eq_bind, Option.bind_assoc,
    funext₂ (descendQuery_eq (D := D) _ _)]
  cases mask <;> simp only [Option.map_eq_bind] <;> rfl

/-- The descent of a query ends at a node of the bottom layer. -/
theorem descent_some [LawfulF32 β] (hw : Wf idx) (hne : idx.nodes ≠ []) (f : List β → List β → β)
    (query : List β) : ∃ curr, idx.descent f query = some curr ∧ idx.HasLayer curr 0 := by
  obtain ⟨entry, hentry, he⟩ := hw.entry hne
  have key : ∀ top curr, idx.HasLayer curr top → ∃ curr', (layersDown 1 top).foldlM
      (fun curr layer => (greedyWith f idx curr query layer).map Prod.fst) curr = some curr' ∧
      idx.HasLayer curr' 0 := by
    intro top
    induction top with
    | zero => exact fun curr hc => ⟨curr, rfl, hc⟩
    | succ top ih =>
      intro curr hc
      obtain ⟨c, d, heq, hlayer⟩ := greedyWith_some hw.linked f query hc
      obtain ⟨c', heq', hlayer'⟩ := ih c (hlayer.mono (Nat.le_succ top))
      refine ⟨c', ?_, hlayer'⟩
      rw [layersDown_succ, if_pos (by omega), List.foldlM_cons, heq]
      exact heq'
  rw [descent, hentry]
  exact key idx.maxLayer entry he

omit [F32 β] in
/-- Candidates that are nodes have their flags and ids. -/
theorem liveResults_eq (hw : Wf idx) : ∀ (candidates : List (Nat × β)) (ef : Nat),
    (∀ p ∈ candidates, p.1 < idx.nodes.length) →
    idx.liveResults candidates ef =
      some (((candidates.filter fun p => !idx.tombstoned p.1).take ef).map fun p =>
        (idx.idAt p.1, p.2)) := by
  intro candidates
  induction candidates with
  | nil =>
    intro ef _
    cases ef <;> rfl
  | cons p rest ih =>
    intro ef hlt
    have hrest := fun q hq => hlt q (List.mem_cons_of_mem p hq)
    have hp := hlt p List.mem_cons_self
    cases ef with
    | zero => rfl
    | succ ef =>
      obtain ⟨b, hb⟩ := hw.linked.deletedAt hp
      rw [liveResults, hb, List.filter_cons, tombstoned_eq hb]
      cases b with
      | true => exact ih (ef + 1) hrest
      | false =>
        have hat : idx.idToNode[p.1]? = some (idx.idAt p.1) := idAt_eq (by rw [hw.ids]; exact hp)
        simp [hat, ih ef hrest]

end Returns

end HnswIndex

end Tesseract.L3
