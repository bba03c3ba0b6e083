import Mathlib.Data.List.Dedup
import Mathlib.Data.List.Forall2
import Mathlib.Data.List.Perm.Subperm
import Mathlib.Tactic.Push

/-!
# The best `k`, each key once

`retain(|x| seen.insert(key(x)))` on a sorted list, cut off at `k` elements.

* `Top key le k xs out`: `out` is a list of the `k` best keys of `xs`, in order, each
  with its best element.
* `keepFirst_top`: of a sorted arrangement of `xs`, keeping the first of each key and
  cutting off at `k` gives such a list.
* `mem_take_keepFirst`: which elements are kept, read off what comes before them.
* `Top.map_key_unique`: where no two keys are tied, all such lists have the same keys in
  the same order.
-/
namespace Tesseract

variable {τ κ : Type} [DecidableEq κ] (key : τ → κ)

/-- `retain(|x| seen.insert(key(x)))`, with the keys seen before. -/
def keepFirst : List κ → List τ → List τ
  | _, [] => []
  | seen, x :: xs =>
    if key x ∈ seen then keepFirst seen xs else x :: keepFirst (key x :: seen) xs

structure Top (le : τ → τ → Prop) (k : Nat) (xs out : List τ) : Prop where
  mem : ∀ a ∈ out, a ∈ xs
  nodup : (out.map key).Nodup
  best : ∀ a ∈ out, ∀ b ∈ xs, key b = key a → le a b
  sorted : out.Pairwise le
  length : out.length = min k (xs.map key).dedup.length
  rest : ∀ b ∈ xs, key b ∉ out.map key → ∀ a ∈ out, le a b

variable {key}

theorem Top.head_le {le : τ → τ → Prop} {k : Nat} {xs out : List τ} (h : Top key le k xs out)
    (htrans : ∀ a ∈ xs, ∀ b ∈ xs, ∀ c ∈ xs, le a b → le b c → le a c) {p : τ}
    (hp : out.head? = some p) {x : τ} (hx : x ∈ xs) : le p x := by
  obtain ⟨rest, rfl⟩ := List.head?_eq_some_iff.mp hp
  have hmem : p ∈ p :: rest := List.mem_cons_self
  by_cases hk : key x ∈ (p :: rest).map key
  · obtain ⟨y, hy, hyk⟩ := List.mem_map.mp hk
    have hyx := h.best y hy x hx hyk.symm
    rcases List.mem_cons.mp hy with rfl | hrest
    · exact hyx
    · have hpy := (List.pairwise_cons.mp h.sorted).1 y hrest
      exact htrans p (h.mem p hmem) y (h.mem y hy) x hx hpy hyx
  · exact h.rest x hx hk p hmem

theorem Top.ne_nil {le : τ → τ → Prop} {k : Nat} {xs out : List τ} (h : Top key le k xs out)
    (hk : k ≠ 0) (hxs : xs ≠ []) : out ≠ [] := by
  intro hnil
  obtain ⟨x, hx⟩ := List.exists_mem_of_ne_nil xs hxs
  have hmem : key x ∈ (xs.map key).dedup := List.mem_dedup.mpr (List.mem_map_of_mem hx)
  have hpos := List.length_pos_of_mem hmem
  have hlen := h.length
  rw [hnil, List.length_nil] at hlen
  omega

theorem map_keepFirst {σ : Type} {key' : σ → κ} (f : τ → σ) (hf : ∀ x, key' (f x) = key x)
    (seen : List κ) (xs : List τ) :
    (keepFirst key seen xs).map f = keepFirst key' seen (xs.map f) := by
  induction xs generalizing seen with
  | nil => rfl
  | cons x xs ih =>
    rw [List.map_cons, keepFirst, keepFirst, hf]
    split
    · exact ih seen
    · rw [List.map_cons, ih]

theorem keepFirst_sublist (seen : List κ) (xs : List τ) : (keepFirst key seen xs).Sublist xs := by
  induction xs generalizing seen with
  | nil => exact List.Sublist.slnil
  | cons x xs ih =>
    unfold keepFirst
    split
    · exact (ih seen).cons x
    · exact (ih _).cons_cons x

theorem mem_map_keepFirst {seen : List κ} {xs : List τ} {k : κ} :
    k ∈ (keepFirst key seen xs).map key ↔ k ∈ xs.map key ∧ k ∉ seen := by
  induction xs generalizing seen with
  | nil => simp [keepFirst]
  | cons x xs ih =>
    unfold keepFirst
    split
    · next hx =>
      rw [ih, List.map_cons, List.mem_cons]
      constructor
      · exact fun h => ⟨.inr h.1, h.2⟩
      · rintro ⟨rfl | h, hk⟩
        · exact absurd hx hk
        · exact ⟨h, hk⟩
    · next hx =>
      rw [List.map_cons, List.mem_cons, ih, List.map_cons, List.mem_cons, List.mem_cons]
      grind

theorem nodup_keepFirst (seen : List κ) (xs : List τ) :
    ((keepFirst key seen xs).map key).Nodup := by
  induction xs generalizing seen with
  | nil => exact List.nodup_nil
  | cons x xs ih =>
    unfold keepFirst
    split
    · exact ih seen
    · rw [List.map_cons, List.nodup_cons]
      refine ⟨fun h => ?_, ih _⟩
      exact (mem_map_keepFirst.mp h).2 List.mem_cons_self

theorem length_keepFirst (xs : List τ) :
    (keepFirst key [] xs).length = (xs.map key).dedup.length := by
  have hkeys : ((keepFirst key [] xs).map key).Perm (xs.map key).dedup := by
    rw [List.perm_ext_iff_of_nodup (nodup_keepFirst [] xs) (List.nodup_dedup _)]
    intro c
    rw [mem_map_keepFirst, List.mem_dedup]
    simp
  rw [← hkeys.length_eq, List.length_map]

/-- What is kept comes before everything else of its key. -/
theorem keepFirst_first {r : τ → τ → Prop} {seen : List κ} {xs : List τ} (hs : xs.Pairwise r)
    {a b : τ} (ha : a ∈ keepFirst key seen xs) (hb : b ∈ xs) (hk : key b = key a) :
    a = b ∨ r a b := by
  induction xs generalizing seen with
  | nil => cases hb
  | cons x xs ih =>
    rw [List.pairwise_cons] at hs
    have hseen : key a ∉ seen := (mem_map_keepFirst.mp (List.mem_map_of_mem ha)).2
    unfold keepFirst at ha
    split at ha
    · next hx =>
      rcases List.mem_cons.mp hb with rfl | hb
      · exact absurd (hk ▸ hx) hseen
      · exact ih hs.2 ha hb
    · rcases List.mem_cons.mp ha with rfl | ha
      · rcases List.mem_cons.mp hb with rfl | hb
        · exact .inl rfl
        · exact .inr (hs.1 b hb)
      · rcases List.mem_cons.mp hb with rfl | hb
        · have hnot := (mem_map_keepFirst.mp (List.mem_map_of_mem ha)).2
          exact absurd (hk ▸ List.mem_cons_self) hnot
        · exact ih hs.2 ha hb

theorem keepFirst_top {le : τ → τ → Prop} {xs ys : List τ} (hperm : ys.Perm xs)
    (hs : ys.Pairwise le) (hrefl : ∀ a ∈ xs, le a a)
    (htrans : ∀ a ∈ xs, ∀ b ∈ xs, ∀ c ∈ xs, le a b → le b c → le a c) (k : Nat) :
    Top key le k xs ((keepFirst key [] ys).take k) := by
  have hsub : (keepFirst key [] ys).Sublist ys := keepFirst_sublist [] ys
  have hmem : ∀ a ∈ keepFirst key [] ys, a ∈ xs := fun a ha => hperm.subset (hsub.subset ha)
  refine ⟨fun a ha => hmem a (List.mem_of_mem_take ha), ?_, ?_, ?_, ?_, ?_⟩
  · rw [List.map_take]
    exact (nodup_keepFirst [] ys).sublist (List.take_sublist k _)
  · intro a ha b hb hk
    have ha := List.mem_of_mem_take ha
    rcases keepFirst_first hs ha (hperm.symm.subset hb) hk with rfl | h
    · exact hrefl a hb
    · exact h
  · exact (hs.sublist hsub).sublist (List.take_sublist k _)
  · rw [List.length_take, length_keepFirst, (hperm.map key).dedup.length_eq]
  · intro b hb hk a ha
    -- the first of `b`'s key was cut off, so it comes behind `a`
    have hb' : key b ∈ (keepFirst key [] ys).map key := by
      rw [mem_map_keepFirst]
      exact ⟨List.mem_map_of_mem (hperm.symm.subset hb), List.not_mem_nil⟩
    obtain ⟨c, hc, hck⟩ := List.mem_map.mp hb'
    have hcb : le c b := by
      rcases keepFirst_first hs hc (hperm.symm.subset hb) hck.symm with rfl | h
      · exact hrefl c hb
      · exact h
    have hcut : c ∈ (keepFirst key [] ys).drop k := by
      rw [← List.take_append_drop k (keepFirst key [] ys), List.mem_append] at hc
      refine hc.resolve_left fun hc => hk ?_
      exact hck ▸ List.mem_map_of_mem hc
    have hac : le a c := by
      have hpair := hs.sublist hsub
      rw [← List.take_append_drop k (keepFirst key [] ys), List.pairwise_append] at hpair
      exact hpair.2.2 a ha c hcut
    exact htrans a (hmem a (List.mem_of_mem_take ha)) c (hmem c hc) b hb hac hcb

/-! ## Uniqueness -/

/-- A best element of its key. -/
structure Best (key : τ → κ) (le : τ → τ → Prop) (xs : List τ) (a : τ) : Prop where
  mem : a ∈ xs
  le : ∀ b ∈ xs, key b = key a → le a b

theorem Top.best_of_mem {le : τ → τ → Prop} {k : Nat} {xs out : List τ}
    (h : Top key le k xs out) {a : τ} (ha : a ∈ out) : Best key le xs a :=
  ⟨h.mem a ha, h.best a ha⟩

/-- The best `k` of a list are those of the list in another order. -/
theorem Top.of_perm {le : τ → τ → Prop} {k : Nat} {xs ys out : List τ}
    (h : Top key le k xs out) (hperm : xs.Perm ys) : Top key le k ys out where
  mem a ha := hperm.mem_iff.mp (h.mem a ha)
  nodup := h.nodup
  best a ha b hb := h.best a ha b (hperm.mem_iff.mpr hb)
  sorted := h.sorted
  length := by rw [h.length, (hperm.map key).dedup.length_eq]
  rest b hb := h.rest b (hperm.mem_iff.mpr hb)

/-- A best element of the key `c` is no worse than one of the key `d`. -/
def KeyLe (key : τ → κ) (le : τ → τ → Prop) (xs : List τ) (c d : κ) : Prop :=
  ∃ a b, Best key le xs a ∧ Best key le xs b ∧ key a = c ∧ key b = d ∧ le a b

theorem Top.keyLe_sorted {le : τ → τ → Prop} {k : Nat} {xs out : List τ}
    (h : Top key le k xs out) : (out.map key).Pairwise (KeyLe key le xs) := by
  rw [List.pairwise_map]
  exact h.sorted.imp_of_mem fun ha hb hab =>
    ⟨_, _, h.best_of_mem ha, h.best_of_mem hb, rfl, rfl, hab⟩

section Untied

variable {le : τ → τ → Prop} {k : Nat} {xs out out' : List τ}
  (hdiff : ∀ a b, Best key le xs a → Best key le xs b → le a b → le b a → key a = key b)

include hdiff

theorem Top.keys_subset (h : Top key le k xs out) (h' : Top key le k xs out') :
    out.map key ⊆ out'.map key := by
  intro c hc
  by_contra hc'
  have hlen : (out.map key).length = (out'.map key).length := by
    rw [List.length_map, List.length_map, h.length, h'.length]
  -- as many keys are listed in `out'`, so one of them is not in `out`
  obtain ⟨d, hd, hd'⟩ : ∃ d ∈ out'.map key, d ∉ out.map key := by
    by_contra hall
    push Not at hall
    have hperm := (List.subperm_of_subset h'.nodup hall).perm_of_length_le (Nat.le_of_eq hlen)
    exact hc' (hperm.mem_iff.mpr hc)
  obtain ⟨a, ha, rfl⟩ := List.mem_map.mp hc
  obtain ⟨b, hb, rfl⟩ := List.mem_map.mp hd
  have hba : le b a := h'.rest a (h.mem a ha) hc' b hb
  have hab : le a b := h.rest b (h'.mem b hb) hd' a ha
  exact hd' (hdiff a b (h.best_of_mem ha) (h'.best_of_mem hb) hab hba ▸ hc)

variable (htrans : ∀ a ∈ xs, ∀ b ∈ xs, ∀ c ∈ xs, le a b → le b c → le a c)

include htrans

omit [DecidableEq κ] in
theorem KeyLe.antisymm {c d : κ} (h : KeyLe key le xs c d) (h' : KeyLe key le xs d c) :
    c = d := by
  obtain ⟨a, b, ha, hb, rfl, rfl, hab⟩ := h
  obtain ⟨b', a', hb', ha', hkb, hka, hba⟩ := h'
  have hbb : le b b' := hb.le b' hb'.mem hkb
  have haa : le a' a := ha'.le a ha.mem hka.symm
  have hba' : le b a' := htrans b hb.mem b' hb'.mem a' ha'.mem hbb hba
  exact hdiff a b ha hb hab (htrans b hb.mem a' ha'.mem a ha.mem hba' haa)

theorem Top.map_key_unique (h : Top key le k xs out) (h' : Top key le k xs out') :
    out.map key = out'.map key := by
  have hperm : (out.map key).Perm (out'.map key) := by
    rw [List.perm_ext_iff_of_nodup h.nodup h'.nodup]
    exact fun c => ⟨fun hc => h.keys_subset hdiff h' hc, fun hc => h'.keys_subset hdiff h hc⟩
  exact hperm.eq_of_pairwise (fun _ _ _ _ hab hba => KeyLe.antisymm hdiff htrans hab hba)
    h.keyLe_sorted h'.keyLe_sorted

/-- Where no two keys are tied, two lists of the best `k` agree element by element, up to
ties within a key. -/
theorem Top.forall₂_unique (h : Top key le k xs out) (h' : Top key le k xs out') :
    List.Forall₂ (fun a b => (a ∈ xs ∧ b ∈ xs) ∧ key a = key b ∧ le a b ∧ le b a) out out' := by
  have hkeys := h.map_key_unique hdiff htrans h'
  have hlen : out.length = out'.length := by rw [h.length, h'.length]
  rw [List.forall₂_iff_get]
  refine ⟨hlen, fun i hi hi' => ?_⟩
  have ha := h.best_of_mem (List.get_mem out ⟨i, hi⟩)
  have hb := h'.best_of_mem (List.get_mem out' ⟨i, hi'⟩)
  have hkey : key (out.get ⟨i, hi⟩) = key (out'.get ⟨i, hi'⟩) := by
    have hget := congrArg (fun ks => ks[i]?) hkeys
    simpa [hi, hi'] using hget
  exact ⟨⟨ha.mem, hb.mem⟩, hkey, ha.le _ hb.mem hkey.symm, hb.le _ ha.mem hkey⟩

end Untied

end Tesseract
