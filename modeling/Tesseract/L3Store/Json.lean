import Tesseract.Core.Endian
import Tesseract.Core.Floats

/-!
# JSON payloads

`serde_json` turns the tuple of a WAL entry and the records of a cold batch into
JSON and back. The mapping between Rust values and JSON values is modelled here
(`to_vec` / `from_slice` of the types in use); the text itself is the parameter
`Text`.

A `serde_json::Value` holds finite numbers only, which the type of `Json.float`
enforces; a non-finite `f64` is written as `null`, and `null` is refused where an
`f64` is expected. The parser of `serde_json` stops at 128 nested containers.
Without the `float_roundtrip` feature a float may be read back as a neighbour
of what was written: `Text.reread`. An object is the list of its fields in the
order of the text; in a `serde_json::Value` these are sorted and distinct.

* `decodeEntry_encodeEntry`: an entry of a finite vector is read back, and one of
  a non-finite vector is refused (`decodeEntry_nonfinite`).
* `decodeBatch_encodeBatch`: the same for batches of records.
-/
namespace Tesseract.L3.Serde

/-- `serde_json::Value` over a type `φ` of (finite) floats. -/
inductive Json (φ : Type) where
  | null
  | bool (b : Bool)
  | nat (n : UInt64)
  /-- the negative integer `-(n + 1)` of an `i64` -/
  | neg (n : Fin (2 ^ 63))
  | float (x : φ)
  | str (s : String)
  | arr (xs : List (Json φ))
  | obj (fields : List (String × Json φ))

namespace Json

variable {φ ψ : Type}

mutual

/-- Number of nested containers. -/
def depth : Json φ → Nat
  | .arr xs => depthList xs + 1
  | .obj fields => depthFields fields + 1
  | _ => 0

def depthList : List (Json φ) → Nat
  | [] => 0
  | x :: xs => max x.depth (depthList xs)

def depthFields : List (String × Json φ) → Nat
  | [] => 0
  | (_, x) :: xs => max x.depth (depthFields xs)

end

mutual

/-- Change every float. -/
def map (f : φ → ψ) : Json φ → Json ψ
  | .null => .null
  | .bool b => .bool b
  | .nat n => .nat n
  | .neg n => .neg n
  | .float x => .float (f x)
  | .str s => .str s
  | .arr xs => .arr (mapList f xs)
  | .obj fields => .obj (mapFields f fields)

def mapList (f : φ → ψ) : List (Json φ) → List (Json ψ)
  | [] => []
  | x :: xs => x.map f :: mapList f xs

def mapFields (f : φ → ψ) : List (String × Json φ) → List (String × Json ψ)
  | [] => []
  | (k, x) :: xs => (k, x.map f) :: mapFields f xs

end

@[simp] theorem depth_null : (null : Json φ).depth = 0 := rfl

@[simp] theorem depth_nat (n : UInt64) : (nat n : Json φ).depth = 0 := rfl

@[simp] theorem depth_float (x : φ) : (float x).depth = 0 := rfl

@[simp] theorem depth_arr (xs : List (Json φ)) : (arr xs).depth = depthList xs + 1 := rfl

@[simp] theorem depth_obj (fields : List (String × Json φ)) :
    (obj fields).depth = depthFields fields + 1 := rfl

@[simp] theorem depthList_nil : depthList ([] : List (Json φ)) = 0 := rfl

@[simp] theorem depthList_cons (x : Json φ) (xs : List (Json φ)) :
    depthList (x :: xs) = max x.depth (depthList xs) := rfl

@[simp] theorem depthFields_nil : depthFields ([] : List (String × Json φ)) = 0 := rfl

@[simp] theorem depthFields_cons (k : String) (x : Json φ) (xs : List (String × Json φ)) :
    depthFields ((k, x) :: xs) = max x.depth (depthFields xs) := rfl

@[simp] theorem map_null (f : φ → ψ) : (null : Json φ).map f = .null := rfl

@[simp] theorem map_nat (f : φ → ψ) (n : UInt64) : (nat n : Json φ).map f = .nat n := rfl

@[simp] theorem map_float (f : φ → ψ) (x : φ) : (float x).map f = .float (f x) := rfl

@[simp] theorem map_arr (f : φ → ψ) (xs : List (Json φ)) :
    (arr xs).map f = .arr (mapList f xs) := rfl

@[simp] theorem map_obj (f : φ → ψ) (fields : List (String × Json φ)) :
    (obj fields).map f = .obj (mapFields f fields) := rfl

@[simp] theorem mapList_nil (f : φ → ψ) : mapList f [] = [] := rfl

@[simp] theorem mapList_cons (f : φ → ψ) (x : Json φ) (xs : List (Json φ)) :
    mapList f (x :: xs) = x.map f :: mapList f xs := rfl

@[simp] theorem mapFields_nil (f : φ → ψ) : mapFields f [] = [] := rfl

@[simp] theorem mapFields_cons (f : φ → ψ) (k : String) (x : Json φ)
    (xs : List (String × Json φ)) :
    mapFields f ((k, x) :: xs) = (k, x.map f) :: mapFields f xs := rfl

theorem mapList_eq (f : φ → ψ) (xs : List (Json φ)) : mapList f xs = xs.map (map f) := by
  induction xs with
  | nil => rfl
  | cons x xs ih => rw [mapList_cons, ih, List.map_cons]

theorem depthList_le {xs : List (Json φ)} {n : Nat} : depthList xs ≤ n ↔ ∀ x ∈ xs, x.depth ≤ n := by
  induction xs with
  | nil => simp
  | cons x xs ih => rw [depthList_cons, Nat.max_le, ih, List.forall_mem_cons]

end Json

variable {α : Type} [F64 α]

/-- A finite `f64`. -/
abbrev Finite (α : Type) [F64 α] := { x : α // F64.isFinite x = true }

abbrev Value (α : Type) [F64 α] := Json (Finite α)

/-- The text layer of `serde_json`. `reread x` is the float read from the text
of `x`. -/
structure Text (α : Type) [F64 α] where
  print : Value α → Bytes
  parse : Bytes → Option (Value α)
  reread : Finite α → Finite α

/-- What is printed and not nested more than 127 deep is parsed. -/
def Text.Lawful (t : Text α) : Prop :=
  ∀ j : Value α, j.depth ≤ 127 → t.parse (t.print j) = some (j.map t.reread)

/-! ## Numbers and vectors -/

/-- `Serialize for f64` -/
def encodeF64 (x : α) : Value α := if h : F64.isFinite x = true then .float ⟨x, h⟩ else .null

/-- `Deserialize for f64` -/
def decodeF64 : Value α → Option α
  | .float x => some x.1
  | .nat n => some (F64.ofInt n.toNat)
  | .neg n => some (F64.ofInt (Int.negSucc n.val))
  | _ => none

/-- `Deserialize for u64` -/
def decodeU64 : Value α → Option UInt64
  | .nat n => some n
  | _ => none

/-- `Serialize for Vec<f64>` -/
def encodeVec (v : List α) : Value α := .arr (v.map encodeF64)

/-- `Deserialize for Vec<f64>` -/
def decodeVec : Value α → Option (List α)
  | .arr xs => xs.mapM decodeF64
  | _ => none

/-- The float read back for `x`, when it is finite. -/
def Text.back (t : Text α) (x : α) : α :=
  if h : F64.isFinite x = true then (t.reread ⟨x, h⟩).1 else x

def FiniteVec (v : List α) : Prop := ∀ x ∈ v, F64.isFinite x = true

instance (v : List α) : Decidable (FiniteVec v) :=
  inferInstanceAs (Decidable (∀ x ∈ v, F64.isFinite x = true))

theorem decodeF64_encodeF64 (t : Text α) {x : α} (h : F64.isFinite x = true) :
    decodeF64 ((encodeF64 x).map t.reread) = some (t.back x) := by
  simp [encodeF64, Text.back, h, decodeF64]

theorem decodeF64_nonfinite (t : Text α) {x : α} (h : F64.isFinite x = false) :
    decodeF64 ((encodeF64 x).map t.reread) = none := by
  simp [encodeF64, h, decodeF64]

theorem decodeVec_encodeVec (t : Text α) {v : List α} (h : FiniteVec v) :
    decodeVec ((encodeVec v).map t.reread) = some (v.map t.back) := by
  rw [encodeVec, Json.map_arr, Json.mapList_eq, decodeVec]
  induction v with
  | nil => rfl
  | cons x v ih =>
    have hx := decodeF64_encodeF64 t (h x (by simp))
    have hv := ih fun y hy => h y (by simp [hy])
    rw [List.map_cons, List.map_cons, List.mapM_cons, hx, hv]
    rfl

theorem decodeVec_nonfinite (t : Text α) {v : List α} (h : ¬ FiniteVec v) :
    decodeVec ((encodeVec v).map t.reread) = none := by
  rw [encodeVec, Json.map_arr, Json.mapList_eq, decodeVec]
  induction v with
  | nil => exact absurd (fun x hx => by cases hx) h
  | cons x v ih =>
    rw [List.map_cons, List.map_cons, List.mapM_cons]
    cases hx : F64.isFinite x with
    | false => rw [decodeF64_nonfinite t hx]; rfl
    | true =>
      have hv : ¬ FiniteVec v := by
        intro hv
        refine h fun y hy => ?_
        rcases List.mem_cons.mp hy with rfl | hy
        · exact hx
        · exact hv y hy
      rw [decodeF64_encodeF64 t hx, ih hv]
      rfl

/-! ## The payload of a WAL entry -/

/-- `serde_json::to_vec(&(id, &vector, &metadata))`
mirrors tesseract-storage/src/engine.rs:234-235 -/
def encodeEntry (id : UInt64) (vector : List α) (metadata : Value α) : Value α :=
  .arr [.nat id, encodeVec vector, metadata]

/-- `serde_json::from_slice::<(VectorId, Vec<f64>, serde_json::Value)>` behind the parser
mirrors tesseract-storage/src/engine.rs:603-604,631-632 -/
def decodeEntry : Value α → Option (UInt64 × List α × Value α)
  | .arr [id, vector, metadata] => do
    let id ← decodeU64 id
    let vector ← decodeVec vector
    some (id, vector, metadata)
  | _ => none

theorem map_encodeEntry (t : Text α) (id : UInt64) (v : List α) (m : Value α) :
    (encodeEntry id v m).map t.reread = .arr
      [.nat id, (encodeVec v).map t.reread, m.map t.reread] := by
  simp [encodeEntry]

theorem decodeEntry_encodeEntry (t : Text α) (id : UInt64) {v : List α} (h : FiniteVec v)
    (m : Value α) :
    decodeEntry ((encodeEntry id v m).map t.reread) = some (id, v.map t.back, m.map t.reread) := by
  rw [map_encodeEntry, decodeEntry, decodeVec_encodeVec t h]
  rfl

theorem decodeEntry_nonfinite (t : Text α) (id : UInt64) {v : List α} (h : ¬ FiniteVec v)
    (m : Value α) :
    decodeEntry ((encodeEntry id v m).map t.reread) = none := by
  rw [map_encodeEntry, decodeEntry, decodeVec_nonfinite t h]
  rfl

theorem depth_encodeVec (v : List α) : (encodeVec v).depth = 1 := by
  have h : Json.depthList (v.map encodeF64) ≤ 0 := by
    rw [Json.depthList_le]
    intro x hx
    obtain ⟨y, _, rfl⟩ := List.mem_map.mp hx
    unfold encodeF64
    split <;> simp
  rw [encodeVec, Json.depth_arr]
  omega

theorem depth_encodeEntry (id : UInt64) (v : List α) (m : Value α) :
    (encodeEntry id v m).depth = max 1 m.depth + 1 := by
  simp [encodeEntry, depth_encodeVec]

/-! ## Records and batches -/

/-- `VectorId` is its number.
mirrors tesseract-storage/src/hot_store.rs:11-19 -/
structure VectorRecord (α : Type) [F64 α] where
  id : UInt64
  vector : List α
  metadata : Value α
  createdAt : UInt64
  accessCount : UInt64

/-- The derived `Serialize for VectorRecord` -/
def encodeRecord (r : VectorRecord α) : Value α :=
  .obj [("id", .nat r.id), ("vector", encodeVec r.vector), ("metadata", r.metadata),
    ("created_at", .nat r.createdAt), ("access_count", .nat r.accessCount)]

/-- The field `name` of a struct: missing and repeated fields are refused. -/
def field (fields : List (String × Value α)) (name : String) : Option (Value α) :=
  match fields.filter fun f => f.1 = name with
  | [f] => some f.2
  | _ => none

/-- The derived `Deserialize for VectorRecord`: an object with any further
fields, or the five values in a row. -/
def decodeRecord : Value α → Option (VectorRecord α)
  | .obj fields => do
    let id ← field fields "id" >>= decodeU64
    let vector ← field fields "vector" >>= decodeVec
    let metadata ← field fields "metadata"
    let createdAt ← field fields "created_at" >>= decodeU64
    let accessCount ← field fields "access_count" >>= decodeU64
    some ⟨id, vector, metadata, createdAt, accessCount⟩
  | .arr [id, vector, metadata, createdAt, accessCount] => do
    let id ← decodeU64 id
    let vector ← decodeVec vector
    let createdAt ← decodeU64 createdAt
    let accessCount ← decodeU64 accessCount
    some ⟨id, vector, metadata, createdAt, accessCount⟩
  | _ => none

/-- `Serialize for [VectorRecord]` -/
def encodeBatch (records : List (VectorRecord α)) : Value α := .arr (records.map encodeRecord)

/-- `Deserialize for Vec<VectorRecord>` -/
def decodeBatch : Value α → Option (List (VectorRecord α))
  | .arr xs => xs.mapM decodeRecord
  | _ => none

/-- What the parser makes of a record. -/
def Text.backRecord (t : Text α) (r : VectorRecord α) : VectorRecord α :=
  { r with vector := r.vector.map t.back, metadata := r.metadata.map t.reread }

theorem decodeRecord_encodeRecord (t : Text α) {r : VectorRecord α} (h : FiniteVec r.vector) :
    decodeRecord ((encodeRecord r).map t.reread) = some (t.backRecord r) := by
  have hv := decodeVec_encodeVec t h
  simp only [encodeRecord, Json.map_obj, Json.mapFields_cons, Json.mapFields_nil, Json.map_nat,
    decodeRecord, field, List.filter_cons, List.filter_nil]
  simp only [decide_true, reduceIte, String.reduceEq, decide_false, Bool.false_eq_true,
    Option.bind_eq_bind, Option.bind_some, decodeU64, hv]
  rfl

theorem decodeBatch_encodeBatch (t : Text α) {rs : List (VectorRecord α)}
    (h : ∀ r ∈ rs, FiniteVec r.vector) :
    decodeBatch ((encodeBatch rs).map t.reread) = some (rs.map t.backRecord) := by
  rw [encodeBatch, Json.map_arr, Json.mapList_eq, decodeBatch]
  induction rs with
  | nil => rfl
  | cons r rs ih =>
    have hr := decodeRecord_encodeRecord t (h r (by simp))
    have hrs := ih fun r' hr' => h r' (by simp [hr'])
    rw [List.map_cons, List.map_cons, List.mapM_cons, hr, hrs]
    rfl

theorem depth_encodeRecord (r : VectorRecord α) :
    (encodeRecord r).depth = max 1 r.metadata.depth + 1 := by
  simp [encodeRecord, depth_encodeVec]

theorem depth_encodeBatch {rs : List (VectorRecord α)} {n : Nat}
    (h : ∀ r ∈ rs, max 1 r.metadata.depth ≤ n) :
    (encodeBatch rs).depth ≤ n + 2 := by
  have hlist : Json.depthList (rs.map encodeRecord) ≤ n + 1 := by
    rw [Json.depthList_le]
    intro x hx
    obtain ⟨r, hr, rfl⟩ := List.mem_map.mp hx
    rw [depth_encodeRecord]
    have := h r hr
    omega
  rw [encodeBatch, Json.depth_arr]
  omega

end Tesseract.L3.Serde
