import Mathlib.Data.List.Destutter
import Mathlib.Data.List.NodupEquivFin
import Mathlib.Order.WellFounded
import Tesseract.Core.StableSort

/-!
# A list sorted the other way round

A list that rises where the sort falls: its last ties come first, in their order,
and the rest of it behind them. Put twice into the sort, and neighbours of one key
dropped, ties of two or more elements are there twice.

* `RisingOn.sort_eq`, `RisingOn.sort_twice`: the last ties come first.
* `RisingOn.length_merged`: how many elements are left behind `dedup_by`.
* `RisingOn.page_iff`: when a page of the list merged with itself is that of the list.
* `RisingOn.page_sort_take`: when a page of a sorted prefix is that of the sorted list.
-/
namespace Tesseract

variable {τ κ : Type}

section Dedup

variable [DecidableEq κ] (key : τ → κ)

/-- `dedup_by(|a, b| key(a) == key(b))`: of neighbours of one key the first is kept. -/
def dedupBy (xs : List τ) : List τ := xs.destutter fun a b => key a ≠ key b

variable {key}

theorem dedupBy_append {as bs : List τ} (h : ∀ a ∈ as, ∀ b ∈ bs, key a ≠ key b) :
    dedupBy key (as ++ bs) = dedupBy key as ++ dedupBy key bs := by
  cases as with
  | nil => rfl
  | cons a as =>
    show (as ++ bs).destutter' _ a = as.destutter' _ a ++ dedupBy key bs
    induction as generalizing a with
    | nil =>
      cases bs with
      | nil => rfl
      | cons b bs => exact List.destutter'_cons_pos _ (h a List.mem_cons_self b List.mem_cons_self)
    | cons x as ih =>
      have hx : ∀ y ∈ x :: as, ∀ b ∈ bs, key y ≠ key b := fun y hy =>
        h y (List.mem_cons_of_mem a hy)
      have ha : ∀ y ∈ a :: as, ∀ b ∈ bs, key y ≠ key b := fun y hy => h y (by grind)
      rw [List.cons_append, List.destutter'_cons, List.destutter'_cons]
      split
      · rw [ih x hx, List.cons_append]
      · exact ih a ha

/-- A list twice, a single element once. -/
def twice (xs : List τ) : List τ := if xs.length = 1 then xs else xs ++ xs

theorem length_twice (xs : List τ) :
    (twice xs).length = if xs.length = 1 then 1 else xs.length + xs.length := by
  unfold twice
  split
  · assumption
  · exact List.length_append

theorem mem_of_getElem?_twice {ys : List τ} {j : Nat} {a : τ} (h : (twice ys)[j]? = some a) :
    a ∈ ys := by
  have ha := List.mem_of_getElem? h
  unfold twice at ha
  split at ha
  · exact ha
  · exact (List.mem_append.mp ha).elim id id

theorem dedupBy_self_append {xs : List τ} (h : (xs.map key).Nodup) :
    dedupBy key (xs ++ xs) = twice xs := by
  match xs with
  | [] => rfl
  | [a] => simp [dedupBy, twice]
  | a :: b :: xs =>
    have hne : ¬ (a :: b :: xs).length = 1 := by simp
    have hpair : (a :: b :: xs).Pairwise fun a b => key a ≠ key b := List.pairwise_map.mp h
    rw [twice, if_neg hne]
    refine List.destutter_of_isChain _ _
      (List.isChain_append.mpr ⟨hpair.isChain, hpair.isChain, ?_⟩)
    intro x hx y hy
    rw [List.getLast?_cons_cons] at hx
    have hx : x ∈ b :: xs := List.mem_of_getLast? hx
    cases hy
    exact ((List.pairwise_cons.mp hpair).1 x hx).symm

end Dedup

/-! ## Pages -/

/-- `skip(offset).take(limit)` -/
def page (xs : List τ) (limit offset : Nat) : List τ := (xs.drop offset).take limit

theorem getElem?_page {ys : List τ} {limit offset j : Nat} (hj : offset ≤ j)
    (hlt : j < offset + limit) : (page ys limit offset)[j - offset]? = ys[j]? := by
  rw [page, List.getElem?_take_of_lt (by omega), List.getElem?_drop]
  congr 1
  omega

theorem getElem?_eq_of_page_eq {ys zs : List τ} {limit offset j : Nat}
    (heq : page ys limit offset = page zs limit offset) (hj : offset ≤ j)
    (hlt : j < offset + limit) : ys[j]? = zs[j]? := by
  have hget := congrArg (fun zs => zs[j - offset]?) heq
  simp only [getElem?_page hj hlt] at hget
  exact hget

theorem page_append_left {ys zs : List τ} {limit offset : Nat}
    (hle : offset + limit ≤ ys.length) :
    page (ys ++ zs) limit offset = page ys limit offset := by
  rw [page, List.drop_append_of_le_length (by omega), List.take_append_of_le_length, page]
  rw [List.length_drop]
  omega

theorem length_page (xs : List τ) (limit offset : Nat) :
    (page xs limit offset).length = min limit (xs.length - offset) := by
  rw [page, List.length_take, List.length_drop]

/-- A prefix has a page of the list only where it has all that is on the page. -/
theorem page_take_iff (xs : List τ) (k limit offset : Nat) :
    page (xs.take k) limit offset = page xs limit offset ↔
      limit = 0 ∨ xs.length ≤ offset ∨ xs.length ≤ k ∨ offset + limit ≤ k := by
  constructor
  · intro heq
    have hlen := congrArg List.length heq
    rw [length_page, length_page, List.length_take] at hlen
    omega
  · intro hcond
    refine List.ext_getElem? fun i => ?_
    by_cases hi : i < limit
    · rw [page, page, List.getElem?_take_of_lt hi, List.getElem?_take_of_lt hi,
        List.getElem?_drop, List.getElem?_drop]
      by_cases hk : offset + i < k
      · exact List.getElem?_take_of_lt hk
      · rw [List.getElem?_take_eq_none (Nat.le_of_not_lt hk), List.getElem?_eq_none (by omega)]
    · rw [page, page, List.getElem?_take_eq_none (Nat.le_of_not_lt hi),
        List.getElem?_take_eq_none (Nat.le_of_not_lt hi)]

/-- The pages of a list, one after the other, are the list. -/
theorem flatMap_page (xs : List τ) (limit count : Nat) :
    (List.range count).flatMap (fun i => page xs limit (i * limit)) =
      xs.take (count * limit) := by
  induction count with
  | zero => simp
  | succ count ih =>
    rw [List.range_succ, List.flatMap_append, ih, List.flatMap_singleton, page, Nat.succ_mul,
      List.take_add]

/-- Equal pages agree at every place of the list that they reach. -/
theorem eq_of_page_eq {xs ys : List τ} {limit offset j : Nat}
    (heq : page (ys.take limit) limit offset = page xs limit offset) (hj : offset ≤ j)
    (hlt : j < offset + limit) (hn : j < xs.length) : j < limit ∧ ys[j]? = some xs[j] := by
  have hget := getElem?_eq_of_page_eq heq hj hlt
  rw [List.getElem?_eq_getElem hn] at hget
  by_cases hlim : j < limit
  · exact ⟨hlim, (List.getElem?_take_of_lt hlim).symm.trans hget⟩
  · rw [List.getElem?_take_eq_none (by omega)] at hget
    cases hget

theorem index_le_of_sublist {ys zs : List τ} (h : ys.Sublist zs) (hnodup : zs.Nodup) {i j : Nat}
    {a : τ} (hi : ys[i]? = some a) (hj : zs[j]? = some a) : i ≤ j := by
  obtain ⟨f, hf⟩ := List.sublist_iff_exists_orderEmbedding_getElem?_eq.mp h
  have hget : zs[f i]? = zs[j]? := by rw [← hf, hi, hj]
  have hlt : f i < zs.length := (List.getElem?_eq_some_iff.mp ((hf i).symm.trans hi)).1
  rw [← (List.getElem?_inj hlt hnodup).mp hget]
  exact StrictMono.le_apply f.strictMono

/-! ## The last ties -/

variable (cmp : τ → τ → Ordering)

/-- `a` ties with the last element. -/
def tiesLast (xs : List τ) (a : τ) : Bool := xs.getLast?.any fun z => cmp a z == .eq

/-- The elements that tie with the last. -/
def ties (xs : List τ) : List τ := xs.filter (tiesLast cmp xs)

/-- The elements before them. -/
def below (xs : List τ) : List τ := xs.filter fun a => !tiesLast cmp xs a

/-- How many elements tie with another. -/
def tied (xs : List τ) : Nat := xs.countP fun a => decide (2 ≤ xs.countP fun b => cmp a b == .eq)

/-- The list and the list merged with itself have the same page: there is nothing on it;
all elements tie, and the list is cut off before it starts again; or half of the list
ties with the last element, and the page is in the second copy of that half. -/
def SamePage (xs : List τ) (limit offset : Nat) : Prop :=
  limit = 0 ∨
  xs.length ≤ offset ∧ (limit ≤ offset ∨ xs.length + tied cmp xs ≤ offset) ∨
  offset < xs.length ∧ offset < limit ∧
    ((∀ a ∈ xs, ∀ b ∈ xs, cmp a b = .eq) ∧
        (xs.length = 1 ∨ limit = xs.length ∨ offset = 0 ∧ limit ≤ xs.length) ∨
      limit = xs.length ∧ 2 * (ties cmp xs).length = xs.length ∧
        (ties cmp xs).length ≤ offset ∧ 2 ≤ (ties cmp xs).length)

/-- The comparison is that of a total preorder, under which the list falls. -/
structure RisingOn (xs : List τ) : Prop where
  total : TotalOn cmp xs
  rising : xs.Pairwise fun a b => cmp b a ≠ .gt

variable {cmp}

/-- Sort the list put twice, and drop neighbours of one key. -/
def merged [DecidableEq κ] (key : τ → κ) (S : StableSort cmp) (xs : List τ) : List τ :=
  dedupBy key (S.sort (xs ++ xs))

theorem filter_not_append_filter {p : τ → Bool} {xs : List τ}
    (h : xs.Pairwise fun a b => p a = true → p b = true) :
    (xs.filter fun a => !p a) ++ xs.filter p = xs := by
  induction xs with
  | nil => rfl
  | cons x xs ih =>
    rw [List.pairwise_cons] at h
    cases hp : p x with
    | false => simp [hp, ih h.2]
    | true =>
      have hall : ∀ a ∈ xs, p a = true := fun a ha => h.1 a ha hp
      have hnone : xs.filter (fun a => !p a) = [] :=
        List.filter_eq_nil_iff.mpr fun a ha => by simp [hall a ha]
      simp [hp, hnone, List.filter_eq_self.mpr hall]

namespace RisingOn

variable {xs : List τ}

theorem below_rising (h : RisingOn cmp xs) : RisingOn cmp (below cmp xs) :=
  ⟨h.total.mono fun _ hy => (List.mem_filter.mp hy).1, h.rising.sublist List.filter_sublist⟩

theorem mem_ties {a : τ} :
    a ∈ ties cmp xs ↔ a ∈ xs ∧ ∃ z, xs.getLast? = some z ∧ cmp a z = .eq := by
  rw [ties, List.mem_filter, tiesLast, Option.any_eq_true]
  simp only [beq_iff_eq]

theorem mem_below {a : τ} :
    a ∈ below cmp xs ↔ a ∈ xs ∧ ∀ z, xs.getLast? = some z → cmp a z ≠ .eq := by
  rw [below, List.mem_filter, tiesLast, Bool.not_eq_true', Option.any_eq_false]
  simp only [beq_eq_false_iff_ne]

theorem last_le (h : RisingOn cmp xs) {a z : τ} (ha : a ∈ xs) (hz : xs.getLast? = some z) :
    cmp z a ≠ .gt ∨ a = z := by
  obtain ⟨ys, rfl⟩ := List.getLast?_eq_some_iff.mp hz
  rcases List.mem_append.mp ha with ha | ha
  · exact .inl ((List.pairwise_append.mp h.rising).2.2 a ha z List.mem_cons_self)
  · exact .inr (List.mem_singleton.mp ha)

/-- The last ties are tied with each other. -/
theorem tie_eq (h : RisingOn cmp xs) {a b : τ} (ha : a ∈ ties cmp xs) (hb : b ∈ ties cmp xs) :
    cmp a b = .eq := by
  obtain ⟨ha, z, hz, haz⟩ := mem_ties.mp ha
  obtain ⟨hb, z', hz', hbz⟩ := mem_ties.mp hb
  rw [hz] at hz'
  cases hz'
  have hmem : z ∈ xs := List.mem_of_getLast? hz
  have hza : cmp z a = .eq := by rw [h.total.swap a ha z hmem, haz]; rfl
  have hzb : cmp z b = .eq := by rw [h.total.swap b hb z hmem, hbz]; rfl
  have hab := h.total.trans a ha z hmem b hb (by simp [haz]) (by simp [hzb])
  have hba := h.total.trans b hb z hmem a ha (by simp [hbz]) (by simp [hza])
  rw [h.total.swap a ha b hb] at hba
  cases hc : cmp a b with
  | lt => rw [hc] at hba; exact absurd rfl hba
  | eq => rfl
  | gt => exact absurd hc hab

/-- The last ties come before the others. -/
theorem tie_lt (h : RisingOn cmp xs) {a b : τ} (ha : a ∈ ties cmp xs) (hb : b ∈ below cmp xs) :
    cmp a b = .lt := by
  obtain ⟨ha, z, hz, haz⟩ := mem_ties.mp ha
  obtain ⟨hb, hbz⟩ := mem_below.mp hb
  have hmem : z ∈ xs := List.mem_of_getLast? hz
  have hne : cmp b z ≠ .eq := hbz z hz
  have hzb : cmp b z = .gt := by
    rcases h.last_le hb hz with hle | rfl
    · rw [h.total.swap b hb z hmem] at hle
      cases hc : cmp b z with
      | lt => rw [hc] at hle; exact absurd rfl hle
      | eq => exact absurd hc hne
      | gt => rfl
    · have hswap := h.total.swap b hb b hb
      cases hc : cmp b b with
      | lt => rw [hc] at hswap; cases hswap
      | eq => exact absurd hc hne
      | gt => rfl
  have hba : cmp b a = .gt := by
    by_contra hba
    exact h.total.trans b hb a ha z hmem hba (by simp [haz]) hzb
  exact h.total.not_gt hb ha hba

theorem not_mem_below (h : RisingOn cmp xs) {a : τ} (ha : a ∈ ties cmp xs) :
    a ∉ below cmp xs := by
  intro hb
  have hlt := h.tie_lt ha hb
  rw [h.tie_eq ha ha] at hlt
  cases hlt

theorem below_append_ties (h : RisingOn cmp xs) : below cmp xs ++ ties cmp xs = xs := by
  refine filter_not_append_filter (h.rising.imp_of_mem fun {a b} ha hb hab hp => ?_)
  by_contra hq
  have hb' : b ∈ below cmp xs := List.mem_filter.mpr ⟨hb, by simpa using hq⟩
  have hlt := h.tie_lt (List.mem_filter.mpr ⟨ha, hp⟩) hb'
  rw [h.total.swap a ha b hb, hlt] at hab
  exact hab rfl

theorem length_below_add_ties (h : RisingOn cmp xs) :
    (below cmp xs).length + (ties cmp xs).length = xs.length := by
  rw [← List.length_append, h.below_append_ties]

theorem ties_ne_nil (h : RisingOn cmp xs) (hne : xs ≠ []) : ties cmp xs ≠ [] := by
  obtain ⟨z, hz⟩ := Option.ne_none_iff_exists'.mp fun hnone =>
    hne (List.getLast?_eq_none_iff.mp hnone)
  have hmem : z ∈ xs := List.mem_of_getLast? hz
  have hself : cmp z z = .eq := by
    have hswap := h.total.swap z hmem z hmem
    cases hc : cmp z z with
    | lt => rw [hc] at hswap; cases hswap
    | eq => rfl
    | gt => rw [hc] at hswap; cases hswap
  exact List.ne_nil_of_mem (mem_ties.mpr ⟨hmem, z, hz, hself⟩)

/-! ## The sort -/

variable (S : StableSort cmp)

theorem sort_of_tied {ys : List τ} (hsub : ∀ y ∈ ys, y ∈ ties cmp xs) (h : RisingOn cmp xs) :
    S.sort ys = ys := by
  refine S.eq_self (h.total.mono fun y hy => (mem_ties.mp (hsub y hy)).1)
    (List.pairwise_of_forall_mem_list fun a ha b hb => ?_)
  rw [h.tie_eq (hsub a ha) (hsub b hb)]
  simp

theorem split_ties (h : RisingOn cmp xs) {ys : List τ} (hsub : ∀ y ∈ ys, y ∈ xs) :
    S.sort ys = ys.filter (tiesLast cmp xs) ++
      S.sort (ys.filter fun a => !tiesLast cmp xs a) := by
  have hsplit := S.split (h.total.mono hsub) (tiesLast cmp xs) fun a ha b hb hpa hpb =>
    h.tie_lt (List.mem_filter.mpr ⟨hsub a ha, hpa⟩)
      (List.mem_filter.mpr ⟨hsub b hb, by simpa using hpb⟩)
  rw [hsplit, h.sort_of_tied S fun y hy => ?_]
  obtain ⟨hy, hp⟩ := List.mem_filter.mp hy
  exact List.mem_filter.mpr ⟨hsub y hy, hp⟩

theorem sort_eq (h : RisingOn cmp xs) : S.sort xs = ties cmp xs ++ S.sort (below cmp xs) :=
  h.split_ties S fun _ hy => hy

theorem sort_twice (h : RisingOn cmp xs) :
    S.sort (xs ++ xs) = (ties cmp xs ++ ties cmp xs) ++ S.sort (below cmp xs ++ below cmp xs) := by
  have hsub : ∀ y ∈ xs ++ xs, y ∈ xs := fun y hy => (List.mem_append.mp hy).elim id id
  rw [h.split_ties S hsub, List.filter_append, List.filter_append]
  rfl

/-! ## How many are left -/

theorem tied_eq (h : RisingOn cmp xs) :
    tied cmp xs = tied cmp (below cmp xs) +
      if (ties cmp xs).length = 1 then 0 else (ties cmp xs).length := by
  have hcount : ∀ a, xs.countP (fun b => cmp a b == .eq) =
      (below cmp xs).countP (fun b => cmp a b == .eq) +
        (ties cmp xs).countP fun b => cmp a b == .eq := by
    intro a
    rw [← List.countP_append, h.below_append_ties]
  have hbelow : ∀ a ∈ below cmp xs, xs.countP (fun b => cmp a b == .eq) =
      (below cmp xs).countP fun b => cmp a b == .eq := by
    intro a ha
    have hzero : (ties cmp xs).countP (fun b => cmp a b == .eq) = 0 := by
      refine List.countP_eq_zero.mpr fun b hb => ?_
      rw [h.total.swap b (mem_ties.mp hb).1 a (mem_below.mp ha).1, h.tie_lt hb ha]
      simp
    rw [hcount, hzero, Nat.add_zero]
  have hties : ∀ a ∈ ties cmp xs, xs.countP (fun b => cmp a b == .eq) = (ties cmp xs).length := by
    intro a ha
    have hzero : (below cmp xs).countP (fun b => cmp a b == .eq) = 0 :=
      List.countP_eq_zero.mpr fun b hb => by simp [h.tie_lt ha hb]
    rw [hcount, hzero, Nat.zero_add, List.countP_eq_length]
    intro b hb
    simp [h.tie_eq ha hb]
  have hsum : tied cmp xs =
      (below cmp xs).countP (fun a => decide (2 ≤ xs.countP fun b => cmp a b == .eq)) +
        (ties cmp xs).countP fun a => decide (2 ≤ xs.countP fun b => cmp a b == .eq) := by
    rw [← List.countP_append, h.below_append_ties]
    rfl
  rw [hsum]
  congr 1
  · exact List.countP_congr fun a ha => by rw [hbelow a ha]
  · split
    · next hone =>
      refine List.countP_eq_zero.mpr fun a ha => ?_
      rw [hties a ha, hone]
      simp
    · next hone =>
      refine List.countP_eq_length.mpr fun a ha => ?_
      have hpos := List.length_pos_of_mem ha
      rw [hties a ha, decide_eq_true_eq]
      omega

/-! ## The list merged with itself -/

section Merged

variable [DecidableEq κ] {key : τ → κ}

theorem mem_merged {a : τ} (ha : a ∈ merged key S xs) : a ∈ xs := by
  have hsort := (List.destutter_sublist _ _).subset ha
  rw [S.mem_sort] at hsort
  exact (List.mem_append.mp hsort).elim id id

theorem merged_nil : merged key S [] = [] :=
  List.eq_nil_iff_forall_not_mem.mpr fun _ ha => List.not_mem_nil (mem_merged S ha)

theorem merged_eq (h : RisingOn cmp xs) (hkey : (xs.map key).Nodup) :
    merged key S xs = twice (ties cmp xs) ++ merged key S (below cmp xs) := by
  have hsub : ((ties cmp xs).map key).Nodup := hkey.sublist (List.filter_sublist.map key)
  rw [merged, h.sort_twice S, dedupBy_append, dedupBy_self_append hsub]
  · rfl
  · intro a ha b hb hab
    have ha : a ∈ ties cmp xs := (List.mem_append.mp ha).elim id id
    have hb : b ∈ below cmp xs := by
      rw [S.mem_sort] at hb
      exact (List.mem_append.mp hb).elim id id
    have heq := List.inj_on_of_nodup_map hkey (mem_ties.mp ha).1 (mem_below.mp hb).1 hab
    exact h.not_mem_below ha (heq ▸ hb)

theorem length_merged (h : RisingOn cmp xs) (hkey : (xs.map key).Nodup) :
    (merged key S xs).length = xs.length + tied cmp xs := by
  induction hn : xs.length using Nat.strongRecOn generalizing xs with
  | ind n ih =>
    by_cases hne : xs = []
    · subst hne
      subst hn
      rw [merged_nil]
      rfl
    · have hpos := List.length_pos_iff.mpr (h.ties_ne_nil hne)
      have hlen := h.length_below_add_ties
      have hih := ih (below cmp xs).length (by omega) h.below_rising
        (hkey.sublist (List.filter_sublist.map key)) rfl
      rw [h.merged_eq S hkey, List.length_append, hih, h.tied_eq, length_twice]
      split
      · omega
      · omega

theorem length_page_merged (h : RisingOn cmp xs) (hkey : (xs.map key).Nodup)
    (limit offset : Nat) :
    (page ((merged key S xs).take limit) limit offset).length =
      min limit (min limit (xs.length + tied cmp xs) - offset) := by
  rw [length_page, List.length_take, h.length_merged S hkey]

theorem page_past (h : RisingOn cmp xs) (hkey : (xs.map key).Nodup) {limit offset : Nat}
    (hpast : xs.length ≤ offset) :
    page ((merged key S xs).take limit) limit offset = page xs limit offset ↔
      limit = 0 ∨ limit ≤ offset ∨ xs.length + tied cmp xs ≤ offset := by
  have hnil : page xs limit offset = [] := by
    rw [page, List.drop_eq_nil_of_le hpast, List.take_nil]
  rw [hnil, ← List.length_eq_zero_iff, h.length_page_merged S hkey]
  omega

theorem ties_eq_self (h : RisingOn cmp xs) :
    ties cmp xs = xs ↔ ∀ a ∈ xs, ∀ b ∈ xs, cmp a b = .eq := by
  constructor
  · intro heq a ha b hb
    rw [← heq] at ha hb
    exact h.tie_eq ha hb
  · intro hall
    refine List.filter_eq_self.mpr fun a ha => (List.mem_filter.mp (mem_ties.mpr ⟨ha, ?_⟩)).2
    obtain ⟨z, hz⟩ := Option.ne_none_iff_exists'.mp fun hnone =>
      List.ne_nil_of_mem ha (List.getLast?_eq_none_iff.mp hnone)
    exact ⟨z, hz, hall a ha z (List.mem_of_getLast? hz)⟩

/-- All elements tie. -/
theorem page_tied (h : RisingOn cmp xs) (hkey : (xs.map key).Nodup) {limit offset : Nat}
    (hin : offset < xs.length) (hlimit : 0 < limit) (hties : ties cmp xs = xs) :
    page ((merged key S xs).take limit) limit offset = page xs limit offset ↔
      offset < limit ∧
        (xs.length = 1 ∨ limit = xs.length ∨ offset = 0 ∧ limit ≤ xs.length) := by
  have hbelow : below cmp xs = [] := by
    have hlen := h.length_below_add_ties
    rw [hties] at hlen
    exact List.length_eq_zero_iff.mp (by omega)
  have hmerged : merged key S xs = twice xs := by
    rw [h.merged_eq S hkey, hties, hbelow, merged_nil, List.append_nil]
  rw [hmerged, twice]
  split
  · next hone =>
    have hzero : offset = 0 := by omega
    subst hzero
    rw [page, page, List.drop_zero, List.drop_zero, List.take_take, Nat.min_self]
    simp [hone, hlimit]
  · next hone =>
    constructor
    · intro heq
      have hlen := congrArg List.length heq
      rw [page, page, List.length_take, List.length_drop, List.length_take, List.length_append,
        List.length_take, List.length_drop] at hlen
      omega
    · rintro ⟨_, hone' | hlim | ⟨hzero, hle⟩⟩
      · exact absurd hone' hone
      · rw [hlim, List.take_left]
      · subst hzero
        rw [page, page, List.drop_zero, List.drop_zero, List.take_append_of_le_length hle,
          List.take_take, Nat.min_self]

theorem getElem?_below (h : RisingOn cmp xs) {j : Nat} (hj : j < (below cmp xs).length) :
    xs[j]? = (below cmp xs)[j]? := by
  conv_lhs => rw [← h.below_append_ties]
  exact List.getElem?_append_left hj

theorem getElem?_ties (h : RisingOn cmp xs) {j : Nat} (hj : (below cmp xs).length ≤ j) :
    xs[j]? = (ties cmp xs)[j - (below cmp xs).length]? := by
  conv_lhs => rw [← h.below_append_ties]
  exact List.getElem?_append_right hj

theorem getElem?_merged (h : RisingOn cmp xs) (hkey : (xs.map key).Nodup) {j : Nat}
    (hj : j < (twice (ties cmp xs)).length) :
    (merged key S xs)[j]? = (twice (ties cmp xs))[j]? := by
  rw [h.merged_eq S hkey, List.getElem?_append_left hj]

/-- A place that holds one element in both lists, and is in the copies of the last ties,
is behind the elements below them. -/
theorem below_le_of_get (h : RisingOn cmp xs) (hkey : (xs.map key).Nodup) {j : Nat}
    (hlt : j < xs.length) (hj : j < (twice (ties cmp xs)).length)
    (hget : (merged key S xs)[j]? = some xs[j]) : (below cmp xs).length ≤ j := by
  rw [h.getElem?_merged S hkey hj] at hget
  have hx := List.getElem?_eq_getElem hlt
  by_contra hle
  rw [h.getElem?_below (Nat.lt_of_not_le hle)] at hx
  exact h.not_mem_below (mem_of_getElem?_twice hget) (List.mem_of_getElem? hx)

/-- A page of both lists reaches the end of the list: otherwise its first place is in the
copies of the last ties, and holds an element below them. -/
theorem page_reaches_end (h : RisingOn cmp xs) (hkey : (xs.map key).Nodup) {limit offset : Nat}
    (hin : offset < xs.length) (hlimit : 0 < limit) (hbelow : 0 < (below cmp xs).length)
    (heq : page ((merged key S xs).take limit) limit offset = page xs limit offset) :
    xs.length < offset + limit := by
  have hlen := h.length_below_add_ties
  have hpos := List.length_pos_iff.mpr (h.ties_ne_nil (List.ne_nil_of_length_pos (by omega)))
  have htwice := length_twice (ties cmp xs)
  by_contra hle
  have hend : offset + limit - 1 < xs.length := by omega
  obtain ⟨hlt, _⟩ := eq_of_page_eq heq (j := offset + limit - 1) (by omega) (by omega) hend
  obtain ⟨_, hget⟩ := eq_of_page_eq heq (j := offset) (by omega) (by omega) hin
  have hstart := h.below_le_of_get S hkey hin (by split at htwice <;> omega) hget
  omega

/-- A last place of the list that holds its element in both lists is in the second copy of
the ties, which are then half of the list or more. -/
theorem last_in_second_copy (h : RisingOn cmp xs) (hkey : (xs.map key).Nodup)
    (hbelow : 0 < (below cmp xs).length) (hlast : xs.length - 1 < xs.length)
    (hget : (merged key S xs)[xs.length - 1]? = some xs[xs.length - 1]) :
    (ties cmp xs).length ≠ 1 ∧ 2 * (ties cmp xs).length = xs.length := by
  have hlen := h.length_below_add_ties
  have hpos := List.length_pos_iff.mpr (h.ties_ne_nil (List.ne_nil_of_length_pos (by omega)))
  have hnodup : (ties cmp xs).Nodup :=
    (List.Nodup.of_map key hkey).sublist List.filter_sublist
  have hxs := h.getElem?_ties (j := xs.length - 1) (by omega)
  rw [List.getElem?_eq_getElem hlast] at hxs
  have htwice := length_twice (ties cmp xs)
  have hin : xs.length - 1 < (twice (ties cmp xs)).length := by
    by_contra hout
    rw [h.merged_eq S hkey, List.getElem?_append_right (Nat.le_of_not_lt hout)] at hget
    have hmem := mem_merged S (List.mem_of_getElem? hget)
    exact h.not_mem_below (List.mem_of_getElem? hxs.symm) hmem
  have hone : (ties cmp xs).length ≠ 1 := by
    intro hone
    rw [if_pos hone] at htwice
    omega
  rw [if_neg hone] at htwice
  rw [h.getElem?_merged S hkey hin, twice, if_neg hone,
    List.getElem?_append_right (by omega), hxs] at hget
  have hidx := (List.getElem?_inj (by omega) hnodup).mp hget
  exact ⟨hone, by omega⟩

/-- Some element is below the last ties. -/
theorem page_far (h : RisingOn cmp xs) (hkey : (xs.map key).Nodup) {limit offset : Nat}
    (hin : offset < xs.length) (hlimit : 0 < limit) (hties : ties cmp xs ≠ xs) :
    page ((merged key S xs).take limit) limit offset = page xs limit offset ↔
      limit = xs.length ∧ 2 * (ties cmp xs).length = xs.length ∧
        (ties cmp xs).length ≤ offset ∧ 2 ≤ (ties cmp xs).length := by
  have happ := h.below_append_ties
  have hlen := h.length_below_add_ties
  have hpos : 0 < (below cmp xs).length := List.length_pos_iff.mpr fun hnil => hties (by
    rw [hnil, List.nil_append] at happ
    exact happ)
  constructor
  · intro heq
    have hend := h.page_reaches_end S hkey hin hlimit hpos heq
    have hlast : xs.length - 1 < xs.length := by omega
    obtain ⟨hlt, hget⟩ := eq_of_page_eq heq (j := xs.length - 1) (by omega) (by omega) hlast
    obtain ⟨hone, htwo⟩ := h.last_in_second_copy S hkey hpos hlast hget
    have htwice := length_twice (ties cmp xs)
    rw [if_neg hone] at htwice
    have hstart : (below cmp xs).length ≤ offset := by
      obtain ⟨_, hget⟩ := eq_of_page_eq heq (j := offset) (by omega) (by omega) hin
      exact h.below_le_of_get S hkey hin (by omega) hget
    have htied : (ties cmp xs).length ≤ tied cmp xs := by
      rw [h.tied_eq, if_neg hone]
      omega
    have hpage := congrArg List.length heq
    rw [h.length_page_merged S hkey, length_page] at hpage
    omega
  · rintro ⟨rfl, htwo, hoffset, hone⟩
    have hmerged : (merged key S xs).take xs.length = ties cmp xs ++ ties cmp xs := by
      rw [h.merged_eq S hkey, twice, if_neg (by omega)]
      exact List.take_left' (by rw [List.length_append]; omega)
    have hdrop : xs.drop offset = (ties cmp xs).drop (offset - (ties cmp xs).length) := by
      conv_lhs => rw [← happ]
      rw [List.drop_append, List.drop_eq_nil_of_le (by omega), List.nil_append]
      congr 1
      omega
    rw [page, page, hmerged, hdrop, List.drop_append, List.drop_eq_nil_of_le hoffset,
      List.nil_append]

theorem page_iff (h : RisingOn cmp xs) (hkey : (xs.map key).Nodup) (limit offset : Nat) :
    page ((merged key S xs).take limit) limit offset = page xs limit offset ↔
      SamePage cmp xs limit offset := by
  unfold SamePage
  by_cases hlimit : limit = 0
  · subst hlimit
    simp [page]
  by_cases hin : offset < xs.length
  · by_cases hties : ties cmp xs = xs
    · have htied := h.ties_eq_self.mp hties
      rw [h.page_tied S hkey hin (by omega) hties]
      have hlen := congrArg List.length hties
      grind
    · have hfar := mt h.ties_eq_self.mpr hties
      rw [h.page_far S hkey hin (by omega) hties]
      grind
  · rw [h.page_past S hkey (Nat.le_of_not_lt hin)]
    grind

end Merged

/-! ## A prefix of the list -/

theorem filter_tiesLast_take (h : RisingOn cmp xs) (k : Nat) :
    (xs.take k).filter (tiesLast cmp xs) = (ties cmp xs).take (k - (below cmp xs).length) ∧
      (xs.take k).filter (fun a => !tiesLast cmp xs a) = (below cmp xs).take k := by
  have happ : xs.take k =
      (below cmp xs).take k ++ (ties cmp xs).take (k - (below cmp xs).length) := by
    conv_lhs => rw [← h.below_append_ties]
    rw [List.take_append]
  have hties : ∀ a ∈ (ties cmp xs).take (k - (below cmp xs).length), tiesLast cmp xs a = true :=
    fun a ha => (List.mem_filter.mp (List.mem_of_mem_take ha)).2
  have hbelow : ∀ a ∈ (below cmp xs).take k, tiesLast cmp xs a = false := fun a ha => by
    simpa using (List.mem_filter.mp (List.mem_of_mem_take ha)).2
  constructor
  · rw [happ, List.filter_append, List.filter_eq_nil_iff.mpr fun a ha => by simp [hbelow a ha],
      List.nil_append, List.filter_eq_self.mpr hties]
  · rw [happ, List.filter_append, List.filter_eq_self.mpr fun a ha => by simp [hbelow a ha],
      List.filter_eq_nil_iff.mpr fun a ha => by simp [hties a ha], List.append_nil]

theorem sort_take (h : RisingOn cmp xs) (k : Nat) :
    S.sort (xs.take k) = (ties cmp xs).take (k - (below cmp xs).length) ++
      S.sort ((below cmp xs).take k) := by
  rw [h.split_ties S fun _ hy => List.mem_of_mem_take hy, (h.filter_tiesLast_take k).1,
    (h.filter_tiesLast_take k).2]

theorem sort_take_sublist (h : RisingOn cmp xs) (k : Nat) :
    (S.sort (xs.take k)).Sublist (S.sort xs) := by
  induction hn : xs.length using Nat.strongRecOn generalizing xs with
  | ind n ih =>
    by_cases hne : xs = []
    · rw [hne, List.take_nil]
    · have hpos := List.length_pos_iff.mpr (h.ties_ne_nil hne)
      have hlen := h.length_below_add_ties
      rw [h.sort_take S k, h.sort_eq S]
      exact (List.take_sublist _ _).append (ih _ (by omega) h.below_rising rfl)

/-- Sorted, a proper prefix has a page of the sorted list only where the page is empty or
among the last ties that the prefix holds. -/
theorem page_sort_take (h : RisingOn cmp xs) (hnodup : xs.Nodup) (k limit offset : Nat) :
    page (S.sort (xs.take k)) limit offset = page (S.sort xs) limit offset ↔
      limit = 0 ∨ xs.length ≤ offset ∨ xs.length ≤ k ∨
        offset + limit ≤ (xs.take k).countP (tiesLast cmp xs) := by
  have hlen := h.length_below_add_ties
  have hcount : (xs.take k).countP (tiesLast cmp xs) =
      min (k - (below cmp xs).length) (ties cmp xs).length := by
    rw [List.countP_eq_length_filter, (h.filter_tiesLast_take k).1, List.length_take]
  have hsorted := h.sort_eq S
  have htaken := h.sort_take S k
  rw [hcount]
  constructor
  · intro heq
    by_contra hcond
    -- a place of the page behind the last ties that the prefix holds
    obtain ⟨j, hj, hlt, hn, hk⟩ : ∃ j, offset ≤ j ∧ j < offset + limit ∧ j < xs.length ∧
        ((ties cmp xs).take (k - (below cmp xs).length)).length ≤ j := by
      refine ⟨max offset (k - (below cmp xs).length), ?_⟩
      rw [List.length_take]
      omega
    have hn' : j < (S.sort xs).length := by rw [(S.perm xs).length_eq]; exact hn
    obtain ⟨a, hsort⟩ : ∃ a, (S.sort xs)[j]? = some a := ⟨_, List.getElem?_eq_getElem hn'⟩
    have hget := getElem?_eq_of_page_eq heq hj hlt
    rw [htaken, List.getElem?_append_right hk, hsort] at hget
    have hbelow : a ∈ below cmp xs := by
      have hmem := List.mem_of_getElem? hget
      rw [S.mem_sort] at hmem
      exact List.mem_of_mem_take hmem
    rw [hsorted] at hsort
    have hties : (ties cmp xs).length ≤ j := by
      by_contra hties
      rw [List.getElem?_append_left (Nat.lt_of_not_le hties)] at hsort
      exact h.not_mem_below (List.mem_of_getElem? hsort) hbelow
    rw [List.getElem?_append_right hties] at hsort
    have hnodup' : (S.sort (below cmp xs)).Nodup :=
      (S.perm _).nodup_iff.mpr (hnodup.sublist List.filter_sublist)
    have hle := index_le_of_sublist (h.below_rising.sort_take_sublist S k) hnodup' hget hsort
    have hpos := List.length_pos_iff.mpr (h.ties_ne_nil (List.ne_nil_of_length_pos (by omega)))
    rw [List.length_take] at hle
    omega
  · rintro (rfl | hoffset | hk | hpage)
    · simp [page]
    · rw [page, page, List.drop_eq_nil_of_le, List.drop_eq_nil_of_le]
      · rw [(S.perm xs).length_eq]
        exact hoffset
      · rw [(S.perm _).length_eq, List.length_take]
        omega
    · rw [List.take_of_length_le hk]
    · have hle : offset + limit ≤ ((ties cmp xs).take (k - (below cmp xs).length)).length := by
        rw [List.length_take]
        exact hpage
      have htie : page (ties cmp xs) limit offset =
          page ((ties cmp xs).take (k - (below cmp xs).length)) limit offset := by
        conv_lhs => rw [← List.take_append_drop (k - (below cmp xs).length) (ties cmp xs)]
        exact page_append_left hle
      have hle' : offset + limit ≤ (ties cmp xs).length := by omega
      rw [htaken, hsorted, page_append_left hle, page_append_left hle', htie]

end RisingOn

end Tesseract
