import Tesseract.Core.Endian
import Tesseract.L3Index.HnswInvariant

/-!
# The index file

Model of `tesseract-index/src/serialization.rs`. What bincode makes of the bytes behind the
version is a parameter: an error, or any snapshot.

* `load_error`: a `load` that fails leaves the index as it was.
* `load_save`: what was saved is loaded.
* `load_validated_iff`: a `load` that succeeds leaves an index with the invariant and of the
  configured dimension only where the snapshot was consistent, since nothing but the
  version is looked at.
-/
namespace Tesseract.L3

open Endian

variable {α β : Type}

/-- `edges[node][layer]`: the neighbours.
mirrors tesseract-index/src/serialization.rs:29-54 -/
structure HnswSnapshot (α β : Type) where
  version : UInt32
  m : Nat
  mMax0 : Nat
  efConstruction : Nat
  ml : α
  dim : Nat
  entryPoint : Option Nat
  maxLayer : Nat
  idToNode : List UInt64
  vectors : List (List β)
  edges : List (List (List Nat))
  deleted : List Bool

/-- `bincode::serialize` and `bincode::deserialize_from`, which may stop before the end. -/
structure Bincode (α β : Type) where
  serialize : HnswSnapshot α β → Result Bytes
  deserialize : Bytes → Result (HnswSnapshot α β)

/-- What is serialized is read back, whatever follows it. -/
def Bincode.Lawful (B : Bincode α β) : Prop :=
  ∀ s bytes rest, B.serialize s = .ok bytes → B.deserialize (bytes ++ rest) = .ok s

namespace HnswIndex

/-- `ml` is the factor of the configuration.
mirrors tesseract-index/src/serialization.rs:68-81 -/
def snapshot (ml : α) (idx : HnswIndex β) : HnswSnapshot α β where
  version := 1
  m := idx.config.m
  mMax0 := idx.config.mMax0
  efConstruction := idx.config.efConstruction
  ml := ml
  dim := idx.dim
  entryPoint := idx.entryPoint
  maxLayer := idx.maxLayer
  idToNode := idx.idToNode
  vectors := idx.vectors
  edges := idx.nodes.map HnswNode.edges
  deleted := idx.deleted

/-- The bytes handed to the writer.
mirrors tesseract-index/src/serialization.rs:67-87 -/
def save (B : Bincode α β) (ml : α) (idx : HnswIndex β) : Result Bytes := do
  let bytes ← B.serialize (idx.snapshot ml)
  .ok (u32le 1 ++ bytes)

/-- The metric is kept, and `ml` goes where only `random_level` reads it.
mirrors tesseract-index/src/serialization.rs:109-120 -/
def restore (idx : HnswIndex β) (s : HnswSnapshot α β) : HnswIndex β where
  config := ⟨s.m, s.mMax0, s.efConstruction, idx.config.distanceMetric⟩
  dim := s.dim
  nodes := s.edges.map fun edges => ⟨edges⟩
  idToNode := s.idToNode
  vectors := s.vectors
  entryPoint := s.entryPoint
  maxLayer := s.maxLayer
  deleted := s.deleted

/-- mirrors tesseract-index/src/serialization.rs:98-123 -/
def load (B : Bincode α β) (idx : HnswIndex β) (stream : Bytes) : HnswIndex β × Result Unit :=
  if stream.length < 4 then (idx, .error (.ioError "failed to fill whole buffer"))
  else
    let version := u32of (stream.take 4)
    if version ≠ 1 then
      (idx, .error (.graphCorrupt
        ("Unsupported format version: " ++ toString version.toNat ++ ", expected 1")))
    else
      match B.deserialize (stream.drop 4) with
      | .error e => (idx, .error e)
      | .ok s => (idx.restore s, .ok ())

/-- The snapshot a stream holds, if `load` gets that far. -/
def decoded (B : Bincode α β) (stream : Bytes) : Option (HnswSnapshot α β) :=
  if 4 ≤ stream.length ∧ u32of (stream.take 4) = 1 then (B.deserialize (stream.drop 4)).toOption
  else none

/-- A `load` fails and changes nothing, or takes over the snapshot. -/
theorem load_cases (B : Bincode α β) (idx : HnswIndex β) (stream : Bytes) :
    (decoded B stream = none ∧ ∃ e, idx.load B stream = (idx, .error e)) ∨
      ∃ s, decoded B stream = some s ∧ idx.load B stream = (idx.restore s, .ok ()) := by
  unfold load decoded
  by_cases hlen : stream.length < 4
  · exact .inl ⟨if_neg (by omega), _, if_pos hlen⟩
  · by_cases hversion : u32of (stream.take 4) = 1
    · rw [if_neg hlen, if_pos ⟨by omega, hversion⟩]
      simp only [hversion, ne_eq, not_true_eq_false, if_false]
      cases hdec : B.deserialize (stream.drop 4) with
      | error e => exact .inl ⟨rfl, e, rfl⟩
      | ok s => exact .inr ⟨s, rfl, rfl⟩
    · rw [if_neg hlen, if_neg fun h => hversion h.2]
      exact .inl ⟨rfl, _, if_pos hversion⟩

theorem load_error {B : Bincode α β} {idx idx' : HnswIndex β} {stream : Bytes} {e : Error}
    (h : idx.load B stream = (idx', .error e)) : idx' = idx := by
  rcases load_cases B idx stream with ⟨_, e', hload⟩ | ⟨s, _, hload⟩
  · rw [hload] at h
    cases h
    rfl
  · rw [hload] at h
    cases h

/-- An index comes back from its file as it was, but for the metric. -/
theorem load_save {B : Bincode α β} (hB : B.Lawful) {ml : α} {saved idx : HnswIndex β}
    {stream : Bytes} (h : saved.save B ml = .ok stream) :
    idx.load B stream =
      ({ saved with
        config := { saved.config with distanceMetric := idx.config.distanceMetric } }, .ok ()) := by
  cases hser : B.serialize (saved.snapshot ml) with
  | error e =>
    rw [save, hser] at h
    cases h
  | ok bytes =>
    rw [save, hser] at h
    cases h
    have hlen : ¬ (u32le 1 ++ bytes).length < 4 := by simp
    have htake : (u32le 1 ++ bytes).take 4 = u32le 1 := List.take_left' (u32le_length 1)
    have hdrop : (u32le 1 ++ bytes).drop 4 = bytes := List.drop_left' (u32le_length 1)
    have hdec : B.deserialize bytes = .ok (saved.snapshot ml) := by
      simpa using hB _ bytes [] hser
    rw [load, if_neg hlen]
    simp only [htake, hdrop, u32of_u32le, hdec, ne_eq, not_true_eq_false, if_false]
    simp [restore, snapshot, Function.comp_def]

/-! ## What is not looked at -/

/-- The parts of a snapshot fit together. -/
structure Consistent (s : HnswSnapshot α β) : Prop where
  ids : s.idToNode.length = s.edges.length
  vectors : s.vectors.length = s.edges.length
  deleted : s.deleted.length = s.edges.length
  unique : s.idToNode.Nodup
  dims : ∀ v ∈ s.vectors, v.length = s.dim
  layers : ∀ lists ∈ s.edges, 1 ≤ lists.length ∧ lists.length ≤ s.maxLayer + 1
  entry : s.edges ≠ [] → ∃ e lists, s.entryPoint = some e ∧ s.edges[e]? = some lists ∧
    lists.length = s.maxLayer + 1
  edges : ∀ (i : Nat) (lists : List (List Nat)), s.edges[i]? = some lists →
    ∀ (layer : Nat) (es : List Nat), lists[layer]? = some es →
      es.Nodup ∧ i ∉ es ∧ es.length ≤ (if layer = 0 then s.mMax0 else s.m) ∧
        ∀ j ∈ es, ∃ lists', s.edges[j]? = some lists' ∧ layer < lists'.length

theorem edgesAt_restore {idx : HnswIndex β} {s : HnswSnapshot α β} {i layer : Nat}
    {es : List Nat} : (idx.restore s).edgesAt i layer = some es ↔
      ∃ lists, s.edges[i]? = some lists ∧ lists[layer]? = some es := by
  simp [edgesAt, restore, Option.bind_eq_some_iff]

theorem restore_inv_iff {idx : HnswIndex β} {s : HnswSnapshot α β} :
    Inv (idx.restore s) ↔ Consistent s := by
  have hlen : (idx.restore s).nodes.length = s.edges.length := List.length_map _
  have hnode : ∀ j (node : HnswNode), (idx.restore s).nodes[j]? = some node ↔
      s.edges[j]? = some node.edges := fun j node => by
    rw [restore, List.getElem?_map, Option.map_eq_some_iff]
    exact ⟨fun ⟨_, h, heq⟩ => heq ▸ h, fun h => ⟨_, h, rfl⟩⟩
  have hlayer : ∀ j layer, (idx.restore s).HasLayer j layer ↔
      ∃ lists, s.edges[j]? = some lists ∧ layer < lists.length := fun j layer => by
    rw [hasLayer_iff]
    exact ⟨fun ⟨node, h, hl⟩ => ⟨_, (hnode j node).mp h, hl⟩,
      fun ⟨lists, h, hl⟩ => ⟨⟨lists⟩, (hnode j ⟨lists⟩).mpr h, hl⟩⟩
  constructor
  · intro h
    refine ⟨h.ids.trans hlen, h.vectors.trans hlen, h.deleted.trans hlen, h.unique, h.dims,
      fun lists hlists => h.layers ⟨lists⟩ (List.mem_map_of_mem hlists), fun hne => ?_, ?_⟩
    · obtain ⟨e, node, he, hentry, hlen⟩ := h.entry (by simpa [restore] using hne)
      exact ⟨e, node.edges, he, (hnode e node).mp hentry, hlen⟩
    · intro i lists hi layer es hes
      have hlist := h.edges i layer es (edgesAt_restore.mpr ⟨lists, hi, hes⟩)
      exact ⟨hlist.nodup, hlist.loopless, hlist.bounded,
        fun j hj => (hlayer j layer).mp (hlist.layers j hj)⟩
  · intro h
    refine ⟨h.ids.trans hlen.symm, h.vectors.trans hlen.symm, h.deleted.trans hlen.symm, h.unique,
      h.dims, ?_, ?_, ?_⟩
    · intro node hmem
      obtain ⟨lists, hlists, rfl⟩ := List.mem_map.mp hmem
      exact h.layers lists hlists
    · intro hne
      obtain ⟨e, lists, he, hentry, hlen⟩ := h.entry (by simpa [restore] using hne)
      exact ⟨e, ⟨lists⟩, he, (hnode e ⟨lists⟩).mpr hentry, hlen⟩
    · intro i layer es hes
      obtain ⟨lists, hi, hes⟩ := edgesAt_restore.mp hes
      obtain ⟨hnodup, hloop, hbound, hlayers⟩ := h.edges i lists hi layer es hes
      exact ⟨hnodup, hloop, hbound, fun j hj => (hlayer j layer).mpr (hlayers j hj)⟩

/-- What a successful `load` leaves is what it decoded. -/
theorem loaded_inv_iff {B : Bincode α β} {idx idx' : HnswIndex β} {stream : Bytes}
    (hload : idx.load B stream = (idx', .ok ())) :
    (Inv idx' ∧ idx'.dim = idx.dim) ↔
      ∀ s, decoded B stream = some s → Consistent s ∧ s.dim = idx.dim := by
  rcases load_cases B idx stream with ⟨_, e, herr⟩ | ⟨s, hdec, hok⟩
  · rw [herr] at hload
    cases hload
  · rw [hok] at hload
    cases hload
    simp only [hdec, Option.some.injEq, forall_eq', restore_inv_iff]
    rfl

/-- A `load` is validated unless the stream decodes to a snapshot that is not consistent or
of another dimension. -/
theorem load_validated_iff (B : Bincode α β) (idx : HnswIndex β) (stream : Bytes) :
    ((∃ e, idx.load B stream = (idx, .error e)) ∨
      ∃ idx', idx.load B stream = (idx', .ok ()) ∧ Inv idx' ∧ idx'.dim = idx.dim) ↔
    ∀ s, decoded B stream = some s → Consistent s ∧ s.dim = idx.dim := by
  rcases load_cases B idx stream with ⟨hdec, e, hload⟩ | ⟨s, hdec, hload⟩
  · simp [hdec, hload]
  · rw [← loaded_inv_iff hload, hload]
    simp

/-! ## One damaged file -/

/-- One node, and an entry point that is none. -/
def damaged : HnswSnapshot Lit Lit where
  version := 1
  m := 2
  mMax0 := 4
  efConstruction := 4
  ml := .fin 1
  dim := 1
  entryPoint := some 5
  maxLayer := 0
  idToNode := [1]
  vectors := [[.fin 3]]
  edges := [[[]]]
  deleted := [false]

/-- It is loaded, and the next search panics. -/
theorem damaged_loaded :
    let B : Bincode Lit Lit := ⟨fun _ => .ok [], fun _ => .ok damaged⟩
    let idx : HnswIndex Lit := new 1 ⟨2, 4, 4, .cosine⟩
    ¬ ((∃ e, idx.load B [1, 0, 0, 0] = (idx, .error e)) ∨
        ∃ idx', idx.load B [1, 0, 0, 0] = (idx', .ok ()) ∧ Inv idx' ∧ idx'.dim = idx.dim) ∧
      (idx.load B [1, 0, 0, 0]).1.search lineComputer [Lit.fin 3] 1 none = none := by
  intro B idx
  refine ⟨fun h => ?_, by decide⟩
  rcases h with ⟨e, herr⟩ | ⟨idx', hok, hinv, _⟩
  · have hresult : (Except.ok () : Result Unit) = .error e := congrArg Prod.snd herr
    cases hresult
  · obtain rfl : idx.restore damaged = idx' := congrArg Prod.fst hok
    obtain ⟨e, node, he, hnode, _⟩ := hinv.entry (List.cons_ne_nil _ _)
    cases he
    cases hnode

end HnswIndex

end Tesseract.L3
