import Tesseract.L3Store.JsonText
import Tesseract.L6Cluster.Assignments

/-!
# Shard assignments as text

Model of `to_json` and `from_json` of `tesseract-cluster/src/shard_manager.rs`: the map as a
JSON object, with the shards as its keys. The text layer of `serde_json` is the parameter
`Text`, and what it says of a text that it refuses is the argument `e`.

* `decodeKey_encodeKey`: a shard id is read back.
* `Agree.operate`: what an operation does to a map depends on its lookups alone.
* `reader_follows`: a node that reads the map and then follows the same operations holds the
  same assignments, in whatever order they were written.
-/
namespace Tesseract.L6

open Assoc L3 L3.Serde

variable {α : Type} [F64 α]

/-- The derived `Serialize for ShardAssignment` -/
def encodeAssignment (a : ShardAssignment) : Value α :=
  .obj [("shard_id", .nat a.shardId), ("leader", .str a.leader),
    ("replicas", .arr (a.replicas.map .str))]

/-- `Deserialize for String` -/
def decodeString : Value α → Option String
  | .str s => some s
  | _ => none

/-- `Deserialize for Vec<String>` -/
def decodeStrings : Value α → Option (List String)
  | .arr xs => xs.mapM decodeString
  | _ => none

/-- The derived `Deserialize for ShardAssignment`: an object with any further fields, or the
three values in a row. -/
def decodeAssignment : Value α → Option ShardAssignment
  | .obj fields => do
    let shardId ← field fields "shard_id" >>= decodeU64
    let leader ← field fields "leader" >>= decodeString
    let replicas ← field fields "replicas" >>= decodeStrings
    some ⟨shardId, leader, replicas⟩
  | .arr [shardId, leader, replicas] => do
    let shardId ← decodeU64 shardId
    let leader ← decodeString leader
    let replicas ← decodeStrings replicas
    some ⟨shardId, leader, replicas⟩
  | _ => none

/-- A number as the key of an object. -/
def encodeKey (n : UInt64) : String := toString n.toNat

/-- A key that is read as a number: digits without a leading zero, below 2^64. The digits of
the text are not escaped. -/
def decodeKey (key : String) : Option UInt64 :=
  let ds := key.toList
  let n := Nat.ofDigitChars 10 ds 0
  if ds ≠ [] ∧ ds.all Char.isDigit = true ∧ (ds.head? = some '0' → ds = ['0']) ∧ n < 2 ^ 64 then
    some (UInt64.ofNat n)
  else none

namespace ShardManager

/-- The entries in the order of the map. -/
def entriesInOrder (rank : UInt64 → Nat) (m : ShardManager) : List (UInt64 × ShardAssignment) :=
  (m.assignments.keys.insertionSort fun a b => rank a ≤ rank b).filterMap fun shardId =>
    (m.assignments.lookup shardId).map fun a => (shardId, a)

/-- A map of strings and numbers is always written.
mirrors tesseract-cluster/src/shard_manager.rs:118-120 -/
def toJson (t : Text α) (rank : UInt64 → Nat) (m : ShardManager) : Bytes :=
  t.print (.obj ((m.entriesInOrder rank).map fun p => (encodeKey p.1, encodeAssignment p.2)))

/-- One entry of the object; of entries with one key the last one counts. -/
def addEntry (assignments : Map UInt64 ShardAssignment) (p : String × Value α) :
    Option (Map UInt64 ShardAssignment) := do
  let shardId ← decodeKey p.1
  let a ← decodeAssignment p.2
  some (assignments.insert shardId a)

/-- mirrors tesseract-cluster/src/shard_manager.rs:127-133 -/
def fromJson (t : Text α) (e : String) (json : Bytes) (nodeId : String) : Result ShardManager :=
  let assignments := match t.parse json with
    | some (.obj fields) => fields.foldlM addEntry ∅
    | _ => none
  match assignments with
  | some assignments => .ok ⟨assignments, nodeId⟩
  | none => .error (.serviceError s!"failed to parse shard assignments: {e}")

end ShardManager

/-! ## Keys -/

/-- No number but 0 begins with a zero. -/
theorem toDigits_head {n : Nat} : (Nat.toDigits 10 n).head? = some '0' → n = 0 := by
  induction n using Nat.strongRecOn with
  | ind n ih =>
    rcases Nat.lt_or_ge n 10 with hlt | hge
    · have hdigit : ∀ k < 10, [k.digitChar].head? = some '0' → k = 0 := by decide
      rw [Nat.toDigits_of_lt_base hlt]
      exact hdigit n hlt
    · rw [Nat.toDigits_of_base_le (by decide) hge,
        List.head?_append_of_ne_nil _ Nat.toDigits_ne_nil]
      intro hhead
      have hzero := ih (n / 10) (by omega) hhead
      omega

theorem decodeKey_encodeKey (n : UInt64) : decodeKey (encodeKey n) = some n := by
  have hlist : (encodeKey n).toList = Nat.toDigits 10 n.toNat := by
    rw [encodeKey, Nat.toString_eq_ofList_toDigits, String.toList_ofList]
  have hall : (Nat.toDigits 10 n.toNat).all Char.isDigit = true :=
    List.all_eq_true.mpr fun c hc => Nat.isDigit_of_mem_toDigits (by decide) (by decide) hc
  have hvalue : Nat.ofDigitChars 10 (Nat.toDigits 10 n.toNat) 0 = n.toNat :=
    Nat.ofDigitChars_toDigits (by decide) (by decide)
  have hzero : (Nat.toDigits 10 n.toNat).head? = some '0' → Nat.toDigits 10 n.toNat = ['0'] := by
    intro hhead
    rw [toDigits_head hhead, Nat.toDigits_zero]
  simp only [decodeKey, hlist, hvalue]
  rw [if_pos ⟨Nat.toDigits_ne_nil, hall, hzero, n.toNat_lt⟩, UInt64.ofNat_toNat]

/-! ## The map -/

theorem decodeStrings_map (t : Text α) (xs : List String) :
    decodeStrings ((.arr (xs.map .str) : Value α).map t.reread) = some xs := by
  rw [Json.map_arr, Json.mapList_eq, decodeStrings]
  induction xs with
  | nil => rfl
  | cons x xs ih =>
    rw [List.map_cons, List.map_cons, List.mapM_cons, ih]
    rfl

theorem decodeAssignment_encodeAssignment (t : Text α) (a : ShardAssignment) :
    decodeAssignment ((encodeAssignment a).map t.reread) = some a := by
  have hreplicas := decodeStrings_map t a.replicas
  simp only [encodeAssignment, Json.map_obj, Json.mapFields_cons, Json.mapFields_nil,
    Json.map_nat, decodeAssignment, field, List.filter_cons, List.filter_nil]
  simp only [decide_true, reduceIte, String.reduceEq, decide_false, Bool.false_eq_true,
    Option.bind_eq_bind, Option.bind_some, decodeU64, hreplicas]
  rfl

theorem mapFields_eq {φ ψ : Type} (f : φ → ψ) (xs : List (String × Json φ)) :
    Json.mapFields f xs = xs.map fun p => (p.1, p.2.map f) := by
  induction xs with
  | nil => rfl
  | cons p xs ih => rw [Json.mapFields_cons, ih, List.map_cons]

theorem depth_encodeAssignment (a : ShardAssignment) :
    (encodeAssignment a : Value α).depth ≤ 2 := by
  have hstrs : Json.depthList (a.replicas.map (Json.str (φ := Finite α))) ≤ 0 := by
    rw [Json.depthList_le]
    intro x hx
    obtain ⟨y, _, rfl⟩ := List.mem_map.mp hx
    exact Nat.le_refl 0
  have hstr : (Json.str a.leader : Value α).depth = 0 := rfl
  simp only [encodeAssignment, Json.depth_obj, Json.depthFields_cons, Json.depthFields_nil,
    Json.depth_nat, Json.depth_arr, hstr]
  omega

namespace ShardManager

variable (m : ShardManager) (rank : UInt64 → Nat)

theorem depth_entries (es : List (UInt64 × ShardAssignment)) :
    Json.depthFields (es.map fun p => (encodeKey p.1, (encodeAssignment p.2 : Value α))) ≤ 2 := by
  induction es with
  | nil => exact Nat.zero_le _
  | cons p es ih =>
    have := depth_encodeAssignment (α := α) p.2
    rw [List.map_cons, Json.depthFields_cons]
    omega

/-- Every entry that was written is put in. -/
theorem foldlM_addEntry (t : Text α) (es : List (UInt64 × ShardAssignment))
    (assignments : Map UInt64 ShardAssignment) :
    (es.map fun p => (encodeKey p.1, (encodeAssignment p.2).map t.reread)).foldlM addEntry
      assignments = some (es.foldl (fun m p => m.insert p.1 p.2) assignments) := by
  induction es generalizing assignments with
  | nil => rfl
  | cons p es ih =>
    have hentry : addEntry assignments (encodeKey p.1, (encodeAssignment p.2).map t.reread) =
        some (assignments.insert p.1 p.2) := by
      simp [addEntry, decodeKey_encodeKey, decodeAssignment_encodeAssignment]
    rw [List.map_cons, List.foldlM_cons, hentry]
    exact ih _

theorem lookup_entries (s : UInt64) :
    ((m.entriesInOrder rank).foldl (fun assignments p => assignments.insert p.1 p.2)
      (∅ : Map UInt64 ShardAssignment)).lookup s = m.assignments.lookup s := by
  rw [entriesInOrder, List.foldl_filterMap]
  rw [lookup_foldl (g := m.assignments.lookup) (fun assignments i k => ?_)]
  · rw [AList.lookup_empty, Option.or_none]
    by_cases hs : s ∈ m.assignments
    · rw [if_pos ((List.mem_insertionSort _).mpr (AList.mem_keys.mp hs))]
    · rw [if_neg fun h => hs (AList.mem_keys.mpr ((List.mem_insertionSort _).mp h)),
        AList.lookup_eq_none.mpr hs]
  · cases m.assignments.lookup i with
    | none => simp
    | some a => simp [lookup_insert_eq]

/-! ## Two nodes -/

/-- The two managers hold the same assignments. -/
def Agree (m m' : ShardManager) : Prop :=
  ∀ s, m'.assignments.lookup s = m.assignments.lookup s

theorem Agree.operate {m m' : ShardManager} (h : m.Agree m') (op : Operation) :
    (m.operate op).Agree (m'.operate op) := by
  have hreplicas : ∀ s, m'.replicasOf s = m.replicasOf s := by simp [replicasOf, h _]
  intro s
  cases op with
  | assign shardId leader => simp only [ShardManager.operate, assignShard_lookup, h s, hreplicas]
  | addReplica shardId replica => simp only [ShardManager.operate, addReplica_lookup, h s]
  | removeNode rank nodeId => simp only [ShardManager.operate, removeNode_lookup, h s]
  | promote shardId nodeId => simp only [ShardManager.operate, assignShard_lookup, h s, hreplicas]

theorem Agree.operations {m m' : ShardManager} (h : m.Agree m') (ops : List Operation) :
    (ops.foldl ShardManager.operate m).Agree (ops.foldl ShardManager.operate m') := by
  induction ops generalizing m m' with
  | nil => exact h
  | cons op ops ih => exact ih (h.operate op)

theorem fromJson_toJson {t : Text α} (ht : t.Lawful) (e nodeId : String) :
    ∃ m', fromJson t e (m.toJson t rank) nodeId = .ok m' ∧ m'.nodeId = nodeId ∧ m.Agree m' := by
  have hdepth : Json.depth (.obj ((m.entriesInOrder rank).map fun p =>
      (encodeKey p.1, (encodeAssignment p.2 : Value α)))) ≤ 127 := by
    have := depth_entries (α := α) (m.entriesInOrder rank)
    rw [Json.depth_obj]
    omega
  have hparse := ht _ hdepth
  rw [Json.map_obj, mapFields_eq, List.map_map] at hparse
  have hread := foldlM_addEntry t (m.entriesInOrder rank) ∅
  refine ⟨⟨_, nodeId⟩, ?_, rfl, lookup_entries m rank⟩
  simp only [fromJson, toJson, hparse]
  simp only [Function.comp_def, hread]

/-- A node that reads the assignments another one wrote holds the same assignment of every
shard as that one, and still does after both followed the same operations. -/
theorem reader_follows {t : Text α} (ht : t.Lawful) (e nodeId : String)
    (ops : List Operation) : ∃ m', fromJson t e (m.toJson t rank) nodeId = .ok m' ∧
      m'.nodeId = nodeId ∧ ∀ s, (ops.foldl operate m').assignments.lookup s =
        (ops.foldl operate m).assignments.lookup s := by
  obtain ⟨m', hm', hnode, hagree⟩ := fromJson_toJson m rank ht e nodeId
  exact ⟨m', hm', hnode, hagree.operations ops⟩

/-- A leader that is promoted on both sides of the text. -/
theorem reader_follows_promotion : ∃ m', fromJson jsonText "" (toJson jsonText UInt64.toNat
      ((new "a").assignShard 7 "a")) "b" = .ok m' ∧ m'.nodeId = "b" ∧
    ∀ s, ([Operation.promote 7 "b"].foldl operate m').assignments.lookup s =
      ([Operation.promote 7 "b"].foldl operate ((new "a").assignShard 7 "a")).assignments.lookup
        s :=
  reader_follows ((new "a").assignShard 7 "a") UInt64.toNat jsonText_lawful "" "b"
    [.promote 7 "b"]

end ShardManager

end Tesseract.L6
