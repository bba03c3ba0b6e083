import Mathlib.Data.List.Sort
import Tesseract.Core.Floats

/-!
# `sort_by`

The stable sort of a slice by a comparison. Where the comparison is not a total
preorder on the elements the order of the result is unspecified, so the sort is a
structure over what is known of it.

* `insertionSort_split`: where every element that meets `p` comes before every one
  that does not, the two parts are sorted apart.
* `StableSort.pairwise`, `StableSort.split`, `StableSort.eq_self`: the same of a sort.
* `TotalOn.byFloat`: floats that are not NaN are in a total preorder, and
  `pairwise_insertionSort_float` sorts by them.
-/
namespace Tesseract

variable {τ : Type}

/-- On the elements of `xs` the comparison is that of a total preorder. -/
structure TotalOn (cmp : τ → τ → Ordering) (xs : List τ) : Prop where
  swap : ∀ a ∈ xs, ∀ b ∈ xs, cmp b a = (cmp a b).swap
  trans : ∀ a ∈ xs, ∀ b ∈ xs, ∀ c ∈ xs, cmp a b ≠ .gt → cmp b c ≠ .gt → cmp a c ≠ .gt

/-- What is known of `sort_by(cmp)`. -/
structure StableSort (cmp : τ → τ → Ordering) where
  sort : List τ → List τ
  perm : ∀ xs, (sort xs).Perm xs
  stable : ∀ xs, TotalOn cmp xs → sort xs = xs.insertionSort fun a b => cmp a b ≠ .gt

/-- The sort that takes any comparison for a total preorder. -/
def StableSort.insertion (cmp : τ → τ → Ordering) : StableSort cmp where
  sort xs := xs.insertionSort fun a b => cmp a b ≠ .gt
  perm xs := List.perm_insertionSort _ xs
  stable _ _ := rfl

/-! ## Insertion sort on part of an order -/

section Insertion

variable {r : τ → τ → Prop} [DecidableRel r]

theorem orderedInsert_append_left {a : τ} {as bs : List τ} (h : ∀ b ∈ bs, r a b) :
    (as ++ bs).orderedInsert r a = as.orderedInsert r a ++ bs := by
  induction as with
  | nil =>
    cases bs with
    | nil => rfl
    | cons b bs =>
      rw [List.nil_append, List.orderedInsert_cons_of_le _ _ (h b List.mem_cons_self)]
      rfl
  | cons x as ih =>
    rw [List.cons_append, List.orderedInsert_cons, List.orderedInsert_cons]
    split
    · rfl
    · rw [ih, List.cons_append]

theorem orderedInsert_append_right {b : τ} {as bs : List τ} (h : ∀ a ∈ as, ¬ r b a) :
    (as ++ bs).orderedInsert r b = as ++ bs.orderedInsert r b := by
  induction as with
  | nil => rfl
  | cons x as ih =>
    rw [List.cons_append, List.orderedInsert_of_not_le _ _ (h x List.mem_cons_self),
      ih fun a ha => h a (List.mem_cons_of_mem x ha), List.cons_append]

theorem insertionSort_split (p : τ → Bool) {xs : List τ}
    (h : ∀ a ∈ xs, ∀ b ∈ xs, p a = true → p b = false → r a b ∧ ¬ r b a) :
    xs.insertionSort r = (xs.filter p).insertionSort r ++
      (xs.filter fun x => !p x).insertionSort r := by
  induction xs with
  | nil => rfl
  | cons x xs ih =>
    have hx : x ∈ x :: xs := List.mem_cons_self
    rw [List.insertionSort_cons, ih fun a ha b hb =>
      h a (List.mem_cons_of_mem x ha) b (List.mem_cons_of_mem x hb)]
    cases hp : p x with
    | true =>
      rw [List.filter_cons_of_pos hp, List.filter_cons_of_neg (by simp [hp]),
        List.insertionSort_cons]
      refine orderedInsert_append_left fun b hb => ?_
      rw [List.mem_insertionSort, List.mem_filter] at hb
      exact (h x hx b (List.mem_cons_of_mem x hb.1) hp (by simpa using hb.2)).1
    | false =>
      rw [List.filter_cons_of_neg (by simp [hp]), List.filter_cons_of_pos (by simp [hp]),
        List.insertionSort_cons]
      refine orderedInsert_append_right fun a ha => ?_
      rw [List.mem_insertionSort, List.mem_filter] at ha
      exact (h a (List.mem_cons_of_mem x ha.1) x hx ha.2 hp).2

theorem pairwise_orderedInsert_on {a : τ} {xs : List τ}
    (htotal : ∀ b ∈ xs, ¬ r a b → r b a)
    (htrans : ∀ b ∈ xs, ∀ c ∈ xs, r a b → r b c → r a c) (h : xs.Pairwise r) :
    (xs.orderedInsert r a).Pairwise r := by
  induction xs with
  | nil => simp
  | cons b xs ih =>
    rw [List.pairwise_cons] at h
    have hb : b ∈ b :: xs := List.mem_cons_self
    rw [List.orderedInsert_cons]
    split
    · next hab =>
      refine List.pairwise_cons.mpr ⟨fun c hc => ?_, List.pairwise_cons.mpr h⟩
      rcases List.mem_cons.mp hc with rfl | hc
      · exact hab
      · exact htrans b hb c (List.mem_cons_of_mem b hc) hab (h.1 c hc)
    · next hab =>
      refine List.pairwise_cons.mpr ⟨fun c hc => ?_, ih ?_ ?_ h.2⟩
      · rcases (List.mem_orderedInsert r).mp hc with rfl | hc
        · exact htotal b hb hab
        · exact h.1 c hc
      · exact fun c hc => htotal c (List.mem_cons_of_mem b hc)
      · exact fun c hc d hd => htrans c (List.mem_cons_of_mem b hc) d (List.mem_cons_of_mem b hd)

theorem pairwise_insertionSort_on {xs : List τ} (htotal : ∀ a ∈ xs, ∀ b ∈ xs, ¬ r a b → r b a)
    (htrans : ∀ a ∈ xs, ∀ b ∈ xs, ∀ c ∈ xs, r a b → r b c → r a c) :
    (xs.insertionSort r).Pairwise r := by
  induction xs with
  | nil => simp
  | cons x xs ih =>
    have hx : x ∈ x :: xs := List.mem_cons_self
    have hmem : ∀ y ∈ xs.insertionSort r, y ∈ x :: xs := fun y hy =>
      List.mem_cons_of_mem x ((List.mem_insertionSort r).mp hy)
    rw [List.insertionSort_cons]
    refine pairwise_orderedInsert_on (fun b hb => htotal x hx b (hmem b hb))
      (fun b hb c hc => htrans x hx b (hmem b hb) c (hmem c hc)) (ih ?_ ?_)
    · exact fun a ha b hb => htotal a (List.mem_cons_of_mem x ha) b (List.mem_cons_of_mem x hb)
    · exact fun a ha b hb c hc => htrans a (List.mem_cons_of_mem x ha) b
        (List.mem_cons_of_mem x hb) c (List.mem_cons_of_mem x hc)

end Insertion

/-! ## The sort -/

variable {cmp : τ → τ → Ordering} {xs ys : List τ}

theorem TotalOn.mono (h : TotalOn cmp xs) (hsub : ∀ y ∈ ys, y ∈ xs) : TotalOn cmp ys :=
  ⟨fun a ha b hb => h.swap a (hsub a ha) b (hsub b hb), fun a ha b hb c hc =>
    h.trans a (hsub a ha) b (hsub b hb) c (hsub c hc)⟩

/-- Ties are broken by another comparison. -/
theorem TotalOn.then {cmp' : τ → τ → Ordering} (h : TotalOn cmp xs) (h' : TotalOn cmp' xs) :
    TotalOn (fun a b => (cmp a b).then (cmp' a b)) xs := by
  constructor
  · intro a ha b hb
    rw [h.swap a ha b hb, h'.swap a ha b hb, Ordering.swap_then]
  · intro a ha b hb c hc hab hbc
    have hac := h.trans a ha b hb c hc
    have hties := h'.trans a ha b hb c hc
    -- if `a` and `c` are tied, going round by `c` shows that `b` is tied with both
    have hba := h.trans b hb c hc a ha
    have hcb := h.trans c hc a ha b hb
    rw [h.swap a ha c hc] at hba hcb
    rw [h.swap a ha b hb] at hba
    rw [h.swap b hb c hc] at hcb
    cases hab' : cmp a b <;> cases hbc' : cmp b c <;> cases hac' : cmp a c <;>
      simp_all [Ordering.then]

theorem TotalOn.not_gt (h : TotalOn cmp xs) {a b : τ} (ha : a ∈ xs) (hb : b ∈ xs)
    (hgt : cmp a b = .gt) : cmp b a = .lt := by
  rw [h.swap a ha b hb, hgt]
  rfl

namespace StableSort

variable (S : StableSort cmp)

theorem mem_sort {x : τ} : x ∈ S.sort xs ↔ x ∈ xs := (S.perm xs).mem_iff

theorem pairwise (h : TotalOn cmp xs) : (S.sort xs).Pairwise fun a b => cmp a b ≠ .gt := by
  rw [S.stable xs h]
  refine pairwise_insertionSort_on (fun a ha b hb hab => ?_) h.trans
  rw [h.not_gt ha hb (not_not.mp hab)]
  simp

/-- Sorted elements stay where they are. -/
theorem eq_self (h : TotalOn cmp xs) (hs : xs.Pairwise fun a b => cmp a b ≠ .gt) :
    S.sort xs = xs := by
  rw [S.stable xs h]
  exact hs.insertionSort_eq

/-- The elements that meet `p` are all before the others. -/
theorem split (h : TotalOn cmp xs) (p : τ → Bool)
    (hp : ∀ a ∈ xs, ∀ b ∈ xs, p a = true → p b = false → cmp a b = .lt) :
    S.sort xs = S.sort (xs.filter p) ++ S.sort (xs.filter fun x => !p x) := by
  rw [S.stable xs h, S.stable _ (h.mono fun y hy => (List.mem_filter.mp hy).1),
    S.stable _ (h.mono fun y hy => (List.mem_filter.mp hy).1)]
  refine insertionSort_split p fun a ha b hb hpa hpb => ?_
  have hlt := hp a ha b hb hpa hpb
  rw [h.swap a ha b hb, hlt]
  simp

end StableSort

/-! ## Sorting by a float -/

/-- The comparison the other way round. -/
theorem TotalOn.flip (h : TotalOn cmp xs) : TotalOn (fun a b => cmp b a) xs :=
  ⟨fun a ha b hb => h.swap b hb a ha, fun a ha b hb c hc hab hbc => h.trans c hc b hb a ha hbc hab⟩

section Float

variable {β : Type} [F32 β]

/-- `f(a).partial_cmp(&f(b)).unwrap_or(Equal)` -/
def cmpFloat (f : τ → β) (a b : τ) : Ordering := (F32.partialCmp (f a) (f b)).getD .eq

theorem cmpFloat_not_gt [LawfulF32 β] {f : τ → β} {a b : τ} (ha : F32.isNaN (f a) = false)
    (hb : F32.isNaN (f b) = false) : cmpFloat f a b ≠ .gt ↔ F32.le (f a) (f b) = true := by
  have hsome := LawfulF32.partialCmp_some (f a) (f b) ha hb
  rw [F32.le_iff_not_gt ha hb, Bool.eq_false_iff, ne_eq, ne_eq, F32.gt_iff, cmpFloat]
  cases hc : F32.partialCmp (f a) (f b) with
  | none => rw [hc] at hsome; cases hsome
  | some o => simp

theorem TotalOn.byFloat [LawfulF32 β] [SwapF32 β] [OrderF32 β] {f : τ → β}
    (hnan : ∀ x ∈ xs, F32.isNaN (f x) = false) : TotalOn (cmpFloat f) xs := by
  refine ⟨fun a ha b hb => ?_, fun a ha b hb c hc => ?_⟩
  · have hsome := LawfulF32.partialCmp_some (f a) (f b) (hnan a ha) (hnan b hb)
    rw [cmpFloat, cmpFloat, SwapF32.partialCmp_swap (f a) (f b)]
    cases hc : F32.partialCmp (f a) (f b) with
    | none => rw [hc] at hsome; cases hsome
    | some o => rfl
  · rw [cmpFloat_not_gt (hnan a ha) (hnan b hb), cmpFloat_not_gt (hnan b hb) (hnan c hc),
      cmpFloat_not_gt (hnan a ha) (hnan c hc)]
    exact OrderF32.le_trans _ _ _

/-- Sorting by a float that is never NaN. -/
theorem pairwise_insertionSort_float [LawfulF32 β] [SwapF32 β] [OrderF32 β] {f : τ → β}
    (hnan : ∀ x ∈ xs, F32.isNaN (f x) = false) :
    (xs.insertionSort fun a b => F32.gt (f a) (f b) = false).Pairwise
      fun a b => F32.le (f a) (f b) = true := by
  have hle : ∀ a ∈ xs, ∀ b ∈ xs, F32.gt (f a) (f b) = false ↔ F32.le (f a) (f b) = true :=
    fun a ha b hb => (F32.le_iff_not_gt (hnan a ha) (hnan b hb)).symm
  have hpair : (xs.insertionSort fun a b => F32.gt (f a) (f b) = false).Pairwise
      fun a b => F32.gt (f a) (f b) = false := by
    refine pairwise_insertionSort_on (fun a ha b hb hab => ?_) fun a ha b hb c hc hab hbc => ?_
    · rw [hle a ha b hb] at hab
      rw [hle b hb a ha]
      exact (F32.le_total (hnan a ha) (hnan b hb)).resolve_left hab
    · rw [hle a ha b hb] at hab
      rw [hle b hb c hc] at hbc
      rw [hle a ha c hc]
      exact OrderF32.le_trans _ _ _ hab hbc
  refine hpair.imp_of_mem fun {a b} ha hb h => ?_
  exact (hle a ((List.mem_insertionSort _).mp ha) b ((List.mem_insertionSort _).mp hb)).mp h

end Float

end Tesseract
