import Tesseract.Core.BinaryHeap
import Tesseract.Core.StableSort

/-!
# The order of a binary heap

Where the comparison is a total preorder on the elements, `push` keeps the heap order and
`into_sorted_vec` sorts.

* `push_heap`: `push` keeps the order.
* `intoSortedVec_pairwise`: the result of `into_sorted_vec` is ascending.
-/
namespace Tesseract.BinaryHeap

variable {τ : Type} (cmp : τ → τ → Ordering)

/-- The element at `i` is at most the one at `j`. -/
def Le (l : List τ) (i j : Nat) : Prop :=
  ∀ a b, l[i]? = some a → l[j]? = some b → cmp a b ≠ .gt

/-- Below `bound` no element is greater than its parent. -/
def Heap (l : List τ) (bound : Nat) : Prop := ∀ c, 0 < c → c < bound → Le cmp l c ((c - 1) / 2)

variable {cmp} {l : List τ}

section Order

variable (h : TotalOn cmp l)

include h

theorem Le.refl (i : Nat) : Le cmp l i i := by
  intro a b ha hb
  rw [ha] at hb
  cases hb
  have hmem := List.mem_of_getElem? ha
  have hswap := h.swap a hmem a hmem
  intro hgt
  rw [hgt] at hswap
  cases hswap

theorem Le.trans {i j k : Nat} (hj : j < l.length) (hij : Le cmp l i j) (hjk : Le cmp l j k) :
    Le cmp l i k := by
  intro a c ha hc
  have hb := List.getElem?_eq_getElem hj
  exact h.trans a (List.mem_of_getElem? ha) _ (List.mem_of_getElem? hb) c
    (List.mem_of_getElem? hc) (hij a _ ha hb) (hjk _ c hb hc)

theorem le_of_not_leAt {i j : Nat} (hle : leAt cmp l i j = false) : Le cmp l j i := by
  intro b a hb ha
  have hgt : cmp a b = .gt := by simpa [leAt, ha, hb] using hle
  rw [h.not_gt (List.mem_of_getElem? ha) (List.mem_of_getElem? hb) hgt]
  simp

theorem le_of_not_ltAt {i j : Nat} (hlt : ltAt cmp l i j = false) : Le cmp l j i := by
  intro b a hb ha
  rw [h.swap a (List.mem_of_getElem? ha) b (List.mem_of_getElem? hb)]
  have hne : cmp a b ≠ .lt := by simpa [ltAt, ha, hb] using hlt
  cases hc : cmp a b with
  | lt => exact absurd hc hne
  | eq => simp
  | gt => simp

end Order

theorem le_of_leAt {i j : Nat} (hle : leAt cmp l i j = true) : Le cmp l i j := by
  intro a b ha hb
  simpa [leAt, ha, hb] using hle

theorem le_of_ltAt {i j : Nat} (hlt : ltAt cmp l i j = true) : Le cmp l i j := by
  intro a b ha hb
  have heq : cmp a b = .lt := by simpa [ltAt, ha, hb] using hlt
  simp [heq]

/-! ## Swaps -/

/-- Where the element at `k` was before `i` and `j` were swapped. -/
def swapped (i j k : Nat) : Nat := if k = i then j else if k = j then i else k

theorem swapped_left (i j : Nat) : swapped i j i = j := if_pos rfl

theorem swapped_right (i j : Nat) : swapped i j j = i := by
  unfold swapped
  split <;> simp_all

theorem swapped_other {i j k : Nat} (hi : k ≠ i) (hj : k ≠ j) : swapped i j k = k := by
  rw [swapped, if_neg hi, if_neg hj]

theorem swapped_lt {i j k bound : Nat} (hi : i < bound) (hj : j < bound) (hk : k < bound) :
    swapped i j k < bound := by
  unfold swapped
  split
  · exact hj
  · split
    · exact hi
    · exact hk

theorem getElem?_swap {i j : Nat} (hi : i < l.length) (hj : j < l.length) (k : Nat) :
    (swap l i j)[k]? = l[swapped i j k]? := by
  have hswap : swap l i j = (l.set i l[j]).set j l[i] := by
    simp [swap, hi, hj]
  rw [hswap, List.getElem?_set, List.getElem?_set, List.length_set]
  unfold swapped
  grind

theorem le_swap {i j : Nat} (hi : i < l.length) (hj : j < l.length) (p q : Nat) :
    Le cmp (swap l i j) p q ↔ Le cmp l (swapped i j p) (swapped i j q) := by
  unfold Le
  rw [getElem?_swap hi hj, getElem?_swap hi hj]

theorem totalOn_perm {l' : List τ} (h : TotalOn cmp l) (hperm : l'.Perm l) : TotalOn cmp l' :=
  h.mono fun _ hy => hperm.mem_iff.mp hy

/-! ## `push` -/

/-- The order while a greater element rises through `pos`: it holds everywhere else, and
between the children of `pos` and its parent. -/
structure Rising (cmp : τ → τ → Ordering) (l : List τ) (pos : Nat) : Prop where
  except : ∀ c, 0 < c → c < l.length → c ≠ pos → Le cmp l c ((c - 1) / 2)
  grand : 0 < pos → ∀ c, 0 < c → c < l.length → (c - 1) / 2 = pos → Le cmp l c ((pos - 1) / 2)

theorem Rising.swap {pos : Nat} (hr : Rising cmp l pos) (h : TotalOn cmp l) (hpos : 0 < pos)
    (hlt : pos < l.length) (hle : Le cmp l ((pos - 1) / 2) pos) :
    Rising cmp (swap l pos ((pos - 1) / 2)) ((pos - 1) / 2) := by
  have hparent : (pos - 1) / 2 < pos := by omega
  have hlen : (BinaryHeap.swap l pos ((pos - 1) / 2)).length = l.length :=
    (swap_perm l _ _).length_eq
  constructor
  · intro c hc hclt hne
    rw [hlen] at hclt
    rw [le_swap hlt (by omega)]
    by_cases hcpos : c = pos
    · subst hcpos
      rw [swapped_left, swapped_right]
      exact hle
    · rw [swapped_other hcpos hne]
      by_cases hq : (c - 1) / 2 = pos
      · rw [hq, swapped_left]
        exact hr.grand hpos c hc hclt hq
      · by_cases hq' : (c - 1) / 2 = (pos - 1) / 2
        · rw [hq', swapped_right]
          exact Le.trans h (by omega) (hq' ▸ hr.except c hc hclt hcpos) hle
        · rw [swapped_other hq hq']
          exact hr.except c hc hclt hcpos
  · intro hppos c hc hclt hcp
    rw [hlen] at hclt
    have hgrand : Le cmp l ((pos - 1) / 2) (((pos - 1) / 2 - 1) / 2) :=
      hr.except _ hppos (by omega) (by omega)
    rw [le_swap hlt (by omega), swapped_other (k := ((pos - 1) / 2 - 1) / 2) (by omega) (by omega)]
    by_cases hcpos : c = pos
    · rw [hcpos, swapped_left]
      exact hgrand
    · rw [swapped_other hcpos (by omega)]
      exact Le.trans h (by omega) (hcp ▸ hr.except c hc hclt hcpos) hgrand

theorem siftUp_heap : ∀ (fuel : Nat) (l : List τ) (pos : Nat), pos < fuel → pos < l.length →
    TotalOn cmp l → Rising cmp l pos → Heap cmp (siftUp cmp fuel l pos) l.length := by
  intro fuel
  induction fuel with
  | zero => intro l pos hfuel; omega
  | succ fuel ih =>
    intro l pos hfuel hlt h hr
    rw [siftUp]
    by_cases hpos : pos = 0
    · rw [if_pos hpos]
      exact fun c hc hclt => hr.except c hc hclt (by omega)
    · rw [if_neg hpos]
      cases hle : leAt cmp l pos ((pos - 1) / 2) with
      | true =>
        rw [if_pos rfl]
        intro c hc hclt
        by_cases hcpos : c = pos
        · exact hcpos ▸ le_of_leAt hle
        · exact hr.except c hc hclt hcpos
      | false =>
        rw [if_neg Bool.false_ne_true]
        have hperm := swap_perm l pos ((pos - 1) / 2)
        have hheap := ih (swap l pos ((pos - 1) / 2)) ((pos - 1) / 2) (by omega)
          (by rw [hperm.length_eq]; omega) (totalOn_perm h hperm)
          (hr.swap h (by omega) hlt (le_of_not_leAt h hle))
        rw [hperm.length_eq] at hheap
        exact hheap

/-- `push` keeps the order of the heap. -/
theorem push_heap {item : τ} (h : TotalOn cmp (l ++ [item])) (hheap : Heap cmp l l.length) :
    Heap cmp (push cmp l item) (push cmp l item).length := by
  have hlen : (push cmp l item).length = (l ++ [item]).length := (siftUp_perm cmp _ _ _).length_eq
  rw [hlen]
  refine siftUp_heap _ _ _ (by omega) (by simp) h ⟨fun c hc hclt hne => ?_, fun _ c _ hclt hc => ?_⟩
  · rw [List.length_append, List.length_singleton] at hclt
    intro a b ha hb
    rw [List.getElem?_append_left (by omega)] at ha hb
    exact hheap c hc (by omega) a b ha hb
  · rw [List.length_append, List.length_singleton] at hclt
    omega

/-! ## `into_sorted_vec` -/

/-- The order while a smaller element sinks through `pos`: it holds below `bound` everywhere
else, and between the children of `pos` and its parent. -/
structure Sinking (cmp : τ → τ → Ordering) (l : List τ) (bound pos : Nat) : Prop where
  except : ∀ c, 0 < c → c < bound → (c - 1) / 2 ≠ pos → Le cmp l c ((c - 1) / 2)
  grand : 0 < pos → ∀ c, 0 < c → c < bound → (c - 1) / 2 = pos → Le cmp l c ((pos - 1) / 2)

theorem Sinking.done {bound pos : Nat} (hs : Sinking cmp l bound pos)
    (hchildren : ∀ c, 0 < c → c < bound → (c - 1) / 2 = pos → Le cmp l c pos) :
    Heap cmp l bound := by
  intro c hc hclt
  by_cases hq : (c - 1) / 2 = pos
  · exact hq ▸ hchildren c hc hclt hq
  · exact hs.except c hc hclt hq

/-- The element sinks to a child that is at least as great as the other one. -/
theorem Sinking.swap {bound pos child : Nat} (hs : Sinking cmp l bound pos)
    (hbound : bound ≤ l.length) (hchild : 0 < child) (hparent : (child - 1) / 2 = pos)
    (hlt : child < bound) (hle : Le cmp l pos child)
    (hother : ∀ c, 0 < c → c < bound → (c - 1) / 2 = pos → Le cmp l c child) :
    Sinking cmp (swap l pos child) bound child := by
  have hpos : pos < child := by omega
  constructor
  · intro c hc hclt hne
    rw [le_swap (by omega) (by omega)]
    by_cases hq : (c - 1) / 2 = pos
    · rw [hq, swapped_left]
      by_cases hcc : c = child
      · rw [hcc, swapped_right]
        exact hle
      · rw [swapped_other (by omega) hcc]
        exact hother c hc hclt hq
    · rw [swapped_other (k := (c - 1) / 2) hq hne]
      by_cases hcpos : c = pos
      · rw [hcpos, swapped_left]
        exact hs.grand (by omega) child hchild hlt hparent
      · rw [swapped_other hcpos (by rintro rfl; exact hq hparent)]
        exact hs.except c hc hclt hq
  · intro _ c hc hclt hq
    rw [le_swap (by omega) (by omega), hparent, swapped_left,
      swapped_other (k := c) (by omega) (by omega)]
    exact hq ▸ hs.except c hc hclt (by omega)

theorem greaterChild_cases (cmp : τ → τ → Ordering) (l : List τ) (pos : Nat) :
    greaterChild cmp l pos = 2 * pos + 1 ∨ greaterChild cmp l pos = 2 * pos + 2 := by
  unfold greaterChild
  split
  · exact .inr rfl
  · exact .inl rfl

/-- Both children are at most the greater one. -/
theorem le_greaterChild (h : TotalOn cmp l) (pos : Nat) {c : Nat} (hc : 0 < c)
    (hparent : (c - 1) / 2 = pos) : Le cmp l c (greaterChild cmp l pos) := by
  have hcases : c = 2 * pos + 1 ∨ c = 2 * pos + 2 := by omega
  unfold greaterChild
  split
  · next hle =>
    rcases hcases with rfl | rfl
    · exact le_of_leAt hle
    · exact Le.refl h _
  · next hle =>
    rcases hcases with rfl | rfl
    · exact Le.refl h _
    · exact le_of_not_leAt h (Bool.eq_false_iff.mpr hle)

theorem siftDownRange_heap {bound : Nat} : ∀ (fuel : Nat) (l : List τ) (pos : Nat),
    bound ≤ fuel + pos → pos < bound → bound ≤ l.length → TotalOn cmp l →
    Sinking cmp l bound pos → Heap cmp (siftDownRange cmp bound fuel l pos) bound := by
  intro fuel
  induction fuel with
  | zero => intro l pos hfuel hpos; omega
  | succ fuel ih =>
    intro l pos hfuel hpos hbound h hs
    have hswap : ∀ child, ltAt cmp l pos child = true → 0 < child → (child - 1) / 2 = pos →
        child < bound →
        (∀ c, 0 < c → c < bound → (c - 1) / 2 = pos → Le cmp l c child) →
        Sinking cmp (swap l pos child) bound child := fun child hlt hchild hparent hcb hother =>
      hs.swap hbound hchild hparent hcb (le_of_ltAt hlt) hother
    rw [siftDownRange]
    split
    · next htwo =>
      have hgreater := greaterChild_cases cmp l pos
      have hother := fun c (hc : 0 < c) (_ : c < bound) hq => le_greaterChild h pos hc hq
      split
      · next hlt =>
        have hperm := swap_perm l pos (greaterChild cmp l pos)
        exact ih _ _ (by omega) (by omega) (by rw [hperm.length_eq]; exact hbound)
          (totalOn_perm h hperm) (hswap _ hlt (by omega) (by omega) (by omega) hother)
      · next hlt =>
        have hle := le_of_not_ltAt h (Bool.eq_false_iff.mpr hlt)
        exact hs.done fun c hc hclt hq => Le.trans h (by omega) (hother c hc hclt hq) hle
    · next htwo =>
      -- at most the first child is below the bound
      have honly : ∀ c, 0 < c → c < bound → (c - 1) / 2 = pos → c = 2 * pos + 1 := by omega
      split
      · next hone =>
        obtain ⟨hone, hlt⟩ := hone
        refine (hswap _ hlt (by omega) (by omega) (by omega) ?_).done fun c _ hclt hq => by omega
        intro c hc hclt hq
        rw [honly c hc hclt hq]
        exact Le.refl h _
      · next hone =>
        refine hs.done fun c hc hclt hq => ?_
        have hc' := honly c hc hclt hq
        subst hc'
        refine le_of_not_ltAt h (Bool.eq_false_iff.mpr fun hlt => hone ⟨by omega, hlt⟩)

/-- The elements from `bound` on stay, the others are moved among themselves. -/
structure Within (bound : Nat) (l l' : List τ) : Prop where
  above : ∀ k, bound ≤ k → l'[k]? = l[k]?
  below : ∀ k, k < bound → ∃ k', k' < bound ∧ l'[k]? = l[k']?

theorem Within.refl (bound : Nat) (l : List τ) : Within bound l l :=
  ⟨fun _ _ => rfl, fun k hk => ⟨k, hk, rfl⟩⟩

theorem Within.trans {bound : Nat} {l₁ l₂ l₃ : List τ} (h : Within bound l₁ l₂)
    (h' : Within bound l₂ l₃) : Within bound l₁ l₃ := by
  refine ⟨fun k hk => (h'.above k hk).trans (h.above k hk), fun k hk => ?_⟩
  obtain ⟨k', hk', heq⟩ := h'.below k hk
  obtain ⟨k'', hk'', heq'⟩ := h.below k' hk'
  exact ⟨k'', hk'', heq.trans heq'⟩

theorem within_swap {bound i j : Nat} (hi : i < bound) (hj : j < bound)
    (hbound : bound ≤ l.length) : Within bound l (swap l i j) := by
  refine ⟨fun k hk => ?_, fun k hk => ⟨swapped i j k, swapped_lt hi hj hk, ?_⟩⟩
  · rw [getElem?_swap (by omega) (by omega), swapped_other (by omega) (by omega)]
  · rw [getElem?_swap (by omega) (by omega)]

theorem siftDownRange_within (cmp : τ → τ → Ordering) {bound : Nat} :
    ∀ (fuel : Nat) (l : List τ) (pos : Nat),
    pos < bound → bound ≤ l.length → Within bound l (siftDownRange cmp bound fuel l pos) := by
  intro fuel
  induction fuel with
  | zero => exact fun l _ _ _ => .refl _ l
  | succ fuel ih =>
    intro l pos hpos hbound
    rw [siftDownRange]
    split
    · have hgreater := greaterChild_cases cmp l pos
      split
      · refine (within_swap hpos (by omega) hbound).trans (ih _ _ (by omega) ?_)
        rw [(swap_perm l _ _).length_eq]
        exact hbound
      · exact .refl _ l
    · split
      · exact within_swap hpos (by omega) hbound
      · exact .refl _ l

/-- The root is greatest. -/
theorem Heap.le_root {bound : Nat} (h : TotalOn cmp l) (hheap : Heap cmp l bound)
    (hbound : bound ≤ l.length) : ∀ c, c < bound → Le cmp l c 0 := by
  intro c
  induction c using Nat.strongRecOn with
  | ind c ih =>
    intro hc
    by_cases hzero : c = 0
    · rw [hzero]
      exact Le.refl h 0
    · exact Le.trans h (by omega) (hheap c (by omega) hc) (ih _ (by omega) (by omega))

/-- From `k` on nothing is less than an element before it. -/
def Settled (cmp : τ → τ → Ordering) (l : List τ) (k : Nat) : Prop :=
  ∀ i j, i < j → k ≤ j → Le cmp l i j

/-- One round: the root goes behind the heap, and what took its place sinks. -/
theorem sortRound {e : Nat} (h : TotalOn cmp l) (hlt : e + 1 < l.length)
    (hheap : Heap cmp l (e + 2)) (hset : Settled cmp l (e + 2)) :
    Heap cmp (siftDownRange cmp (e + 1) (e + 1) (swap l 0 (e + 1)) 0) (e + 1) ∧
      Settled cmp (siftDownRange cmp (e + 1) (e + 1) (swap l 0 (e + 1)) 0) (e + 1) := by
  have hperm := swap_perm l 0 (e + 1)
  have hbound : e + 1 ≤ (swap l 0 (e + 1)).length := by
    rw [hperm.length_eq]
    omega
  have hsettled : Settled cmp (swap l 0 (e + 1)) (e + 1) := by
    intro i j hij hj
    rw [le_swap (by omega) hlt]
    by_cases hje : j = e + 1
    · rw [hje, swapped_right]
      exact hheap.le_root h (by omega) _ (swapped_lt (by omega) (by omega) (by omega))
    · rw [swapped_other (k := j) (by omega) hje]
      exact hset _ j (swapped_lt (by omega) (by omega) hij) (by omega)
  constructor
  · refine siftDownRange_heap _ _ 0 (by omega) (by omega) hbound (totalOn_perm h hperm)
      ⟨fun c hc hclt hq => ?_, fun hpos => by omega⟩
    rw [le_swap (by omega) hlt, swapped_other (by omega) (by omega),
      swapped_other (by omega) (by omega)]
    exact hheap c hc (by omega)
  · have hwithin := siftDownRange_within cmp (e + 1) (swap l 0 (e + 1)) 0 (by omega) hbound
    intro i j hij hj a b ha hb
    rw [hwithin.above j hj] at hb
    by_cases hi : i < e + 1
    · obtain ⟨i', hi', heq⟩ := hwithin.below i hi
      rw [heq] at ha
      exact hsettled i' j (by omega) hj a b ha hb
    · rw [hwithin.above i (by omega)] at ha
      exact hsettled i j hij hj a b ha hb

theorem sortRounds_settled : ∀ (e : Nat) (l : List τ), e < l.length → TotalOn cmp l →
    Heap cmp l (e + 1) → Settled cmp l (e + 1) → Settled cmp (sortRounds cmp e l) 1 := by
  intro e
  induction e with
  | zero => exact fun l _ _ _ hset => hset
  | succ e ih =>
    intro l hlt h hheap hset
    obtain ⟨hheap', hset'⟩ := sortRound h hlt hheap hset
    have hperm := (siftDownRange_perm cmp (e + 1) (e + 1) (swap l 0 (e + 1)) 0).trans
      (swap_perm l 0 (e + 1))
    exact ih _ (by rw [hperm.length_eq]; omega) (totalOn_perm h hperm) hheap' hset'

/-- `into_sorted_vec` of a heap is ascending. -/
theorem intoSortedVec_pairwise (h : TotalOn cmp l) (hheap : Heap cmp l l.length) :
    (intoSortedVec cmp l).Pairwise fun a b => cmp a b ≠ .gt := by
  by_cases hlen : l.length = 0
  · rw [List.length_eq_zero_iff.mp hlen]
    exact .nil
  · have hset : Settled cmp l (l.length - 1 + 1) := by
      intro i j _ hj a b _ hb
      rw [List.getElem?_eq_none (by omega)] at hb
      cases hb
    have hsorted := sortRounds_settled (l.length - 1) l (by omega) h
      (by rw [Nat.sub_add_cancel (by omega)]; exact hheap) hset
    rw [List.pairwise_iff_getElem]
    intro i j hi hj hij
    exact hsorted i j hij (by omega) _ _ (List.getElem?_eq_getElem hi) (List.getElem?_eq_getElem hj)

end Tesseract.BinaryHeap
