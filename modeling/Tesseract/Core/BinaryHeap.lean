import Mathlib.Data.List.Perm.Basic

/-!
# `std::collections::BinaryHeap`

The heap of the Rust standard library on a list in level order, for any `cmp`.
A hole that moves from `pos` to `pos'` is a swap of the two places. The sifting
loops take the number of rounds as fuel: a hole moves at most as often as there
are elements.

* `push_perm`, `pop_perm`, `intoSortedVec_perm`: no operation loses, invents or
  duplicates an element, whatever `cmp` does.
-/
namespace Tesseract.BinaryHeap

variable {τ : Type} (cmp : τ → τ → Ordering)

def swap (l : List τ) (i j : Nat) : List τ :=
  match l[i]?, l[j]? with
  | some a, some b => (l.set i b).set j a
  | _, _ => l

/-- `data[i] <= data[j]` -/
def leAt (l : List τ) (i j : Nat) : Bool :=
  match l[i]?, l[j]? with
  | some a, some b => cmp a b != .gt
  | _, _ => false

/-- `data[i] < data[j]` -/
def ltAt (l : List τ) (i j : Nat) : Bool :=
  match l[i]?, l[j]? with
  | some a, some b => cmp a b == .lt
  | _, _ => false

/-- `sift_up(0, pos)` -/
def siftUp : Nat → List τ → Nat → List τ
  | 0, l, _ => l
  | fuel + 1, l, pos =>
    if pos = 0 then l
    else if leAt cmp l pos ((pos - 1) / 2) then l
    else siftUp fuel (swap l pos ((pos - 1) / 2)) ((pos - 1) / 2)

def push (l : List τ) (item : τ) : List τ := siftUp cmp (l.length + 1) (l ++ [item]) l.length

/-- The greater child of `pos`, of the two. -/
def greaterChild (l : List τ) (pos : Nat) : Nat :=
  if leAt cmp l (2 * pos + 1) (2 * pos + 2) then 2 * pos + 2 else 2 * pos + 1

/-- The loop of `sift_down_to_bottom`, with where the hole ends. -/
def siftDownToBottom : Nat → List τ → Nat → List τ × Nat
  | 0, l, pos => (l, pos)
  | fuel + 1, l, pos =>
    if 2 * pos + 1 ≤ l.length - 2 then
      siftDownToBottom fuel (swap l pos (greaterChild cmp l pos)) (greaterChild cmp l pos)
    else if 2 * pos + 1 = l.length - 1 then (swap l pos (2 * pos + 1), 2 * pos + 1)
    else (l, pos)

def pop (l : List τ) : Option (τ × List τ) :=
  match l.getLast? with
  | none => none
  | some item =>
    match l.dropLast with
    | [] => some (item, [])
    | top :: rest =>
      let (data, pos) := siftDownToBottom cmp (rest.length + 1) (item :: rest) 0
      some (top, siftUp cmp (pos + 1) data pos)

/-- `sift_down_range(pos, end)` -/
def siftDownRange (bound : Nat) : Nat → List τ → Nat → List τ
  | 0, l, _ => l
  | fuel + 1, l, pos =>
    if 2 * pos + 1 ≤ bound - 2 then
      if ltAt cmp l pos (greaterChild cmp l pos) then
        siftDownRange bound fuel (swap l pos (greaterChild cmp l pos)) (greaterChild cmp l pos)
      else l
    else if 2 * pos + 1 = bound - 1 ∧ ltAt cmp l pos (2 * pos + 1) then swap l pos (2 * pos + 1)
    else l

/-- The rounds of `into_sorted_vec`, `end` going down to 1. -/
def sortRounds : Nat → List τ → List τ
  | 0, l => l
  | e + 1, l => sortRounds e (siftDownRange cmp (e + 1) (e + 1) (swap l 0 (e + 1)) 0)

def intoSortedVec (l : List τ) : List τ := sortRounds cmp (l.length - 1) l

/-! ## Nothing is lost -/

theorem swap_perm (l : List τ) (i j : Nat) : (swap l i j).Perm l := by
  unfold swap
  split
  · next a b ha hb =>
    obtain ⟨hi, rfl⟩ := List.getElem?_eq_some_iff.mp ha
    obtain ⟨hj, rfl⟩ := List.getElem?_eq_some_iff.mp hb
    exact List.set_set_perm hi hj
  · exact .refl l

theorem siftUp_perm : ∀ fuel (l : List τ) pos, (siftUp cmp fuel l pos).Perm l := by
  intro fuel
  induction fuel with
  | zero => exact fun l _ => .refl l
  | succ fuel ih =>
    intro l pos
    unfold siftUp
    split
    · exact .refl l
    · split
      · exact .refl l
      · exact (ih _ _).trans (swap_perm l _ _)

theorem siftDownToBottom_perm :
    ∀ fuel (l : List τ) pos, (siftDownToBottom cmp fuel l pos).1.Perm l := by
  intro fuel
  induction fuel with
  | zero => exact fun l _ => .refl l
  | succ fuel ih =>
    intro l pos
    unfold siftDownToBottom
    split
    · exact (ih _ _).trans (swap_perm l _ _)
    · split
      · exact swap_perm l _ _
      · exact .refl l

theorem siftDownRange_perm (bound : Nat) :
    ∀ fuel (l : List τ) pos, (siftDownRange cmp bound fuel l pos).Perm l := by
  intro fuel
  induction fuel with
  | zero => exact fun l _ => .refl l
  | succ fuel ih =>
    intro l pos
    unfold siftDownRange
    split
    · split
      · exact (ih _ _).trans (swap_perm l _ _)
      · exact .refl l
    · split
      · exact swap_perm l _ _
      · exact .refl l

theorem push_perm (l : List τ) (item : τ) : (push cmp l item).Perm (item :: l) :=
  (siftUp_perm cmp _ _ _).trans (List.perm_append_singleton item l)

theorem pop_eq_none {l : List τ} : pop cmp l = none ↔ l = [] := by
  unfold pop
  rcases List.eq_nil_or_concat l with rfl | ⟨init, item, rfl⟩
  · simp
  · rw [List.concat_eq_append, List.getLast?_concat, List.dropLast_concat]
    cases init <;> simp

theorem pop_perm {l l' : List τ} {item : τ} (h : pop cmp l = some (item, l')) :
    l.Perm (item :: l') := by
  unfold pop at h
  rcases List.eq_nil_or_concat l with rfl | ⟨init, last, rfl⟩
  · simp at h
  · rw [List.concat_eq_append, List.getLast?_concat, List.dropLast_concat] at h
    rw [List.concat_eq_append]
    cases init with
    | nil =>
      simp only [Option.some.injEq, Prod.mk.injEq] at h
      rw [← h.1, ← h.2]
      exact .refl _
    | cons top rest =>
      simp only [Option.some.injEq, Prod.mk.injEq] at h
      obtain ⟨rfl, rfl⟩ := h
      have hdown := siftDownToBottom_perm cmp (rest.length + 1) (last :: rest) 0
      refine List.Perm.cons top ((List.perm_append_singleton last rest).trans ?_)
      exact ((siftUp_perm cmp _ _ _).trans hdown).symm

theorem sortRounds_perm : ∀ e (l : List τ), (sortRounds cmp e l).Perm l := by
  intro e
  induction e with
  | zero => exact fun l => .refl l
  | succ e ih =>
    intro l
    exact (ih _).trans ((siftDownRange_perm cmp _ _ _ _).trans (swap_perm l _ _))

theorem intoSortedVec_perm (l : List τ) : (intoSortedVec cmp l).Perm l := sortRounds_perm cmp _ l

end Tesseract.BinaryHeap
