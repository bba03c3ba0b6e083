import Mathlib.Data.List.AList

/-!
# Maps with values of one type

`HashMap<K, V>` as Mathlib's association lists without repeated keys. What the code
does with all the values at once (`values`, `values_mut`) does not depend on the order.

* `lookup_mapValues`: an update of all the values, seen through a lookup.
* `mem_values`: the values are what the lookups find.
-/
namespace Tesseract.Assoc

abbrev Map (κ τ : Type) := AList fun _ : κ => τ

variable {κ τ : Type}

def values (m : Map κ τ) : List τ := m.entries.map Sigma.snd

def mapValues (f : τ → τ) (m : Map κ τ) : Map κ τ where
  entries := m.entries.map fun e => ⟨e.1, f e.2⟩
  nodupKeys := by
    have hkeys : (m.entries.map fun e => (⟨e.1, f e.2⟩ : Σ _ : κ, τ)).keys = m.entries.keys := by
      simp only [List.keys, List.map_map]
      rfl
    rw [List.NodupKeys, hkeys]
    exact m.nodupKeys

variable [DecidableEq κ]

@[simp] theorem lookup_mapValues (f : τ → τ) (m : Map κ τ) (k : κ) :
    (mapValues f m).lookup k = (m.lookup k).map f := by
  have hentries : (mapValues f m).entries = m.entries.map (Sigma.map id fun _ => f) := rfl
  rw [AList.lookup, hentries]
  exact List.dlookup_map₂ k

theorem mem_values {m : Map κ τ} {v : τ} : v ∈ values m ↔ ∃ k, m.lookup k = some v := by
  simp only [values, List.mem_map, Sigma.exists]
  constructor
  · rintro ⟨k, w, hmem, rfl⟩
    exact ⟨k, AList.mem_lookup_iff.mpr hmem⟩
  · intro ⟨k, hk⟩
    exact ⟨k, v, AList.mem_lookup_iff.mp hk, rfl⟩

/-- `lookup` after `insert`. -/
theorem lookup_insert_eq (m : Map κ τ) (k k' : κ) (v : τ) :
    (m.insert k v).lookup k' = if k' = k then some v else m.lookup k' := by
  split
  · next h => rw [h, AList.lookup_insert]
  · next h => rw [AList.lookup_insert_ne h]

/-- `get_mut`: the value under a key is replaced by one made from it. -/
theorem lookup_insert_map {m : Map κ τ} {k : κ} {v : τ} (h : m.lookup k = some v) (f : τ → τ)
    (k' : κ) :
    (m.insert k (f v)).lookup k' = if k' = k then (m.lookup k').map f else m.lookup k' := by
  rw [lookup_insert_eq]
  split
  · next hk => rw [hk, h, Option.map_some]
  · rfl

/-- An update that changes nothing under the key changes nothing. -/
theorem lookup_eq_map {m : Map κ τ} {k : κ} {f : τ → τ} (h : (m.lookup k).map f = m.lookup k)
    (k' : κ) : m.lookup k' = if k' = k then (m.lookup k').map f else m.lookup k' := by
  split
  · next hk => rw [hk, h]
  · rfl

/-- Keys put in one after the other, each with what `g` finds for it. -/
theorem lookup_foldl {f : Map κ τ → κ → Map κ τ} {g : κ → Option τ}
    (hf : ∀ m i k, (f m i).lookup k = if k = i then (g i).or (m.lookup k) else m.lookup k)
    (is : List κ) : ∀ (m : Map κ τ) (k : κ),
      (is.foldl f m).lookup k = if k ∈ is then (g k).or (m.lookup k) else m.lookup k := by
  induction is with
  | nil => simp
  | cons i is ih =>
    intro m k
    rw [List.foldl_cons, ih, hf]
    by_cases hk : k = i
    · subst hk
      cases g k <;> simp
    · simp [hk]

/-- `lookup` after `erase`. -/
theorem lookup_erase_eq (m : Map κ τ) (k k' : κ) :
    (m.erase k).lookup k' = if k' = k then none else m.lookup k' := by
  split
  · next h => rw [h, AList.lookup_erase]
  · next h => rw [AList.lookup_erase_ne h]

end Tesseract.Assoc
