import Mathlib.Data.List.Sort

/-!
# Sorting by a comparison that is not total

`sort_by` with a partial comparison, on lists where every two elements compare
strictly. `r` is what the sort tests, `s` the strict order behind it.

* `pairwise_insertionSort_of_strict`: the sort orders the list by `s`.
* `insertionSort_eq_filter`: sorting what a filter leaves is filtering what is sorted.
-/
namespace Tesseract.SortBy

variable {τ : Type} {r s : τ → τ → Prop}

/-- The test of the sort decides the strict order of the two elements. -/
structure Strict (r s : τ → τ → Prop) (a b : τ) : Prop where
  fwd : r a b → s a b
  fwd_not : ¬ r a b → s b a
  bwd : r b a → s b a
  bwd_not : ¬ r b a → s a b

theorem Strict.symm {a b : τ} (h : Strict r s a b) : Strict r s b a :=
  ⟨h.bwd, h.bwd_not, h.fwd, h.fwd_not⟩

variable [DecidableRel r]

theorem pairwise_orderedInsert (htrans : ∀ a b c, s a b → s b c → s a c) (a : τ) :
    ∀ l : List τ, (∀ b ∈ l, Strict r s a b) → l.Pairwise s → (l.orderedInsert r a).Pairwise s := by
  intro l
  induction l with
  | nil => simp
  | cons b l ih =>
    intro hl hs
    rw [List.pairwise_cons] at hs
    have hab := hl b List.mem_cons_self
    rw [List.orderedInsert_cons]
    split
    · next hr =>
      rw [List.pairwise_cons, List.pairwise_cons]
      refine ⟨fun c hc => ?_, hs⟩
      rcases List.mem_cons.mp hc with rfl | hc
      · exact hab.fwd hr
      · exact htrans a b c (hab.fwd hr) (hs.1 c hc)
    · next hr =>
      rw [List.pairwise_cons]
      refine ⟨fun c hc => ?_, ih (fun c hc => hl c (List.mem_cons_of_mem b hc)) hs.2⟩
      rcases (List.mem_orderedInsert r).mp hc with rfl | hc
      · exact hab.fwd_not hr
      · exact hs.1 c hc

theorem pairwise_insertionSort_of_strict (htrans : ∀ a b c, s a b → s b c → s a c) :
    ∀ l : List τ, l.Pairwise (Strict r s) → (l.insertionSort r).Pairwise s := by
  intro l
  induction l with
  | nil => simp
  | cons a l ih =>
    intro hl
    rw [List.pairwise_cons] at hl
    rw [List.insertionSort_cons]
    exact pairwise_orderedInsert htrans a _
      (fun b hb => hl.1 b ((List.perm_insertionSort r l).mem_iff.mp hb)) (ih hl.2)

/-- Two lists sort to the same, but for what `p` filters out, exactly when they have
the same elements but for those. -/
theorem insertionSort_eq_filter (hirrefl : ∀ a, ¬ s a a) (htrans : ∀ a b c, s a b → s b c → s a c)
    {l l' : List τ} (hl : l.Pairwise (Strict r s)) (hl' : l'.Pairwise (Strict r s))
    (p : τ → Bool) :
    l'.insertionSort r = (l.insertionSort r).filter p ↔ l'.Perm (l.filter p) := by
  have hperm := List.perm_insertionSort r l
  have hperm' := List.perm_insertionSort r l'
  constructor
  · intro heq
    exact hperm'.symm.trans (heq ▸ hperm.filter p)
  · intro h
    have hsorted := pairwise_insertionSort_of_strict htrans l hl
    refine List.Perm.eq_of_pairwise ?_ (pairwise_insertionSort_of_strict htrans l' hl')
      (hsorted.filter p) (hperm'.trans (h.trans (hperm.filter p).symm))
    intro a b _ _ hab hba
    exact absurd (htrans a b a hab hba) (hirrefl a)

end Tesseract.SortBy
