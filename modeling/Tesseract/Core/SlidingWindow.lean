import Mathlib.Data.List.NodupEquivFin
import Mathlib.Data.List.Chain

/-!
# Fixed windows and sliding windows of times

Times are naturals, in order. A sliding window is any interval of one length; the fixed
windows of a list start at its first time and at each time past the end of the window
before.

* `during_le_iff`: at most `n` times lie in every interval of length `d` exactly if each
  is more than `d` before the `n`-th after it.
* `spaced_append`: the same of two lists put together.
* `takes_during_iff`: the first `n` times of each fixed window are spaced like that
  exactly if every window follows the one before slowly enough.
-/
namespace Tesseract.SlidingWindow

/-- The times in the closed interval of length `d` from `a`. -/
def during (d a : Nat) (ts : List Nat) : List Nat := ts.filter fun t => a ≤ t ∧ t ≤ a + d

/-- Each time is more than `d` before the `n`-th after it. -/
def Spaced (n d : Nat) (ts : List Nat) : Prop :=
  ∀ i x y, ts[i]? = some x → ts[i + n]? = some y → x + d < y

variable {n d a : Nat} {ts : List Nat}

theorem le_of_index (hs : ts.Pairwise (· ≤ ·)) {i j x y : Nat} (hij : i ≤ j)
    (hx : ts[i]? = some x) (hy : ts[j]? = some y) : x ≤ y := by
  obtain ⟨hi, rfl⟩ := List.getElem?_eq_some_iff.mp hx
  obtain ⟨hj, rfl⟩ := List.getElem?_eq_some_iff.mp hy
  rcases Nat.lt_or_eq_of_le hij with hlt | rfl
  · exact List.pairwise_iff_getElem.mp hs i j hi hj hlt
  · exact Nat.le_refl _

theorem length_during_le {us : List Nat} (h : us.Sublist ts)
    (hus : ∀ t ∈ us, a ≤ t ∧ t ≤ a + d) : us.length ≤ (during d a ts).length := by
  have hall : us.filter (fun t => a ≤ t ∧ t ≤ a + d) = us := by
    rw [List.filter_eq_self]
    simpa using hus
  rw [← hall]
  exact (h.filter _).length_le

theorem mem_during {t : Nat} (h : t ∈ during d a ts) : a ≤ t ∧ t ≤ a + d := by
  rw [during, List.mem_filter] at h
  simpa using h.2

/-- The times from one to the `n`-th after it lie in one interval, if these two do. -/
theorem spaced_of_during_le (hs : ts.Pairwise (· ≤ ·))
    (h : ∀ a, (during d a ts).length ≤ n) : Spaced n d ts := by
  intro i x y hx hy
  by_contra hgap
  have hbound : ∀ t ∈ (ts.drop i).take (n + 1), x ≤ t ∧ t ≤ x + d := by
    intro t ht
    obtain ⟨k, hk, rfl⟩ := List.mem_iff_getElem.mp ht
    have hkn : k < n + 1 := Nat.lt_of_lt_of_le hk (List.length_take_le _ _)
    have hget : ts[i + k]? = some ((ts.drop i).take (n + 1))[k] := by
      rw [List.getElem_take, List.getElem_drop, List.getElem?_eq_getElem]
    have hlow := le_of_index hs (Nat.le_add_right i k) hx hget
    have hhigh := le_of_index hs (by omega : i + k ≤ i + n) hget hy
    omega
  have hsub := (List.take_sublist (n + 1) _).trans (List.drop_sublist i ts)
  have hlen := length_during_le hsub hbound
  have hin := (List.getElem?_eq_some_iff.mp hy).1
  rw [List.length_take, List.length_drop] at hlen
  have := h x
  omega

/-- The first and the `n`-th time after it in an interval are at least `n` apart in the
list. -/
theorem Spaced.during_le (h : Spaced n d ts) (hs : ts.Pairwise (· ≤ ·)) (a : Nat) :
    (during d a ts).length ≤ n := by
  by_contra hmore
  have hsub : (during d a ts).Sublist ts := List.filter_sublist
  obtain ⟨f, hf⟩ := List.sublist_iff_exists_orderEmbedding_getElem?_eq.mp hsub
  obtain ⟨x, hx⟩ : ∃ x, (during d a ts)[0]? = some x :=
    ⟨_, List.getElem?_eq_getElem (by omega)⟩
  obtain ⟨y, hy⟩ : ∃ y, (during d a ts)[n]? = some y :=
    ⟨_, List.getElem?_eq_getElem (by omega)⟩
  have hxa := (mem_during (List.mem_of_getElem? hx)).1
  have hya := (mem_during (List.mem_of_getElem? hy)).2
  rw [hf] at hx hy
  have hfar : f 0 + n ≤ f n := by
    have := f.strictMono.add_le_nat n 0
    rwa [Nat.add_comm] at this
  have hlt : f 0 + n < ts.length :=
    Nat.lt_of_le_of_lt hfar (List.getElem?_eq_some_iff.mp hy).1
  have hmid : ts[f 0 + n]? = some ts[f 0 + n] := List.getElem?_eq_getElem hlt
  have hgap := h (f 0) x _ hx hmid
  have hle := le_of_index hs hfar hmid hy
  omega

theorem during_le_iff (hs : ts.Pairwise (· ≤ ·)) :
    (∀ a, (during d a ts).length ≤ n) ↔ Spaced n d ts :=
  ⟨spaced_of_during_le hs, fun h => h.during_le hs⟩

/-- Times in front of others: the `n`-th after one of them is among the others. -/
theorem spaced_append {us : List Nat} (hlen : us.length ≤ n) :
    Spaced n d (us ++ ts) ↔ Spaced n d ts ∧
      ∀ j x y, us[j]? = some x → ts[j + (n - us.length)]? = some y → x + d < y := by
  constructor
  · intro h
    constructor
    · intro i x y hx hy
      refine h (us.length + i) x y ?_ ?_
      · rw [List.getElem?_append_right (by omega), Nat.add_sub_cancel_left, hx]
      · rw [List.getElem?_append_right (by omega),
          show us.length + i + n - us.length = i + n by omega, hy]
    · intro j x y hx hy
      have hj := (List.getElem?_eq_some_iff.mp hx).1
      refine h j x y ?_ ?_
      · rw [List.getElem?_append_left hj, hx]
      · rw [List.getElem?_append_right (by omega), show j + n - us.length = j + (n - us.length) by
          omega, hy]
  · rintro ⟨hts, hcross⟩ i x y hx hy
    rw [List.getElem?_append_right (by omega)] at hy
    rcases Nat.lt_or_ge i us.length with hi | hi
    · rw [List.getElem?_append_left hi] at hx
      refine hcross i x y hx ?_
      rw [← hy]
      congr 1
      omega
    · rw [List.getElem?_append_right hi] at hx
      refine hts (i - us.length) x y hx ?_
      rw [← hy]
      congr 1
      omega

/-! ## Fixed windows -/

/-- The rest of the window that starts at `start`, and the windows behind it. -/
def windowsFrom (d start : Nat) : List Nat → List Nat × List (List Nat)
  | [] => ([], [])
  | t :: ts =>
    if d < t - start then ([], (t :: (windowsFrom d t ts).1) :: (windowsFrom d t ts).2)
    else (t :: (windowsFrom d start ts).1, (windowsFrom d start ts).2)

def windows (d : Nat) : List Nat → List (List Nat)
  | [] => []
  | t :: ts => (t :: (windowsFrom d t ts).1) :: (windowsFrom d t ts).2

/-- Time `j` of the first `n` of a window is more than `d` before the time of the next one
that makes `n` after it. -/
def Follows (n d : Nat) (us vs : List Nat) : Prop :=
  ∀ j < n, ∀ x ∈ us[j]?, ∀ y ∈ vs[j + (n - us.length)]?, x + d < y

instance (n d : Nat) (us vs : List Nat) : Decidable (Follows n d us vs) :=
  inferInstanceAs (Decidable (∀ j < n, ∀ x ∈ us[j]?, ∀ y ∈ vs[j + (n - us.length)]?, x + d < y))

/-- Windows that hold no time past their end, in front of times past it only. -/
structure WellCut (d : Nat) (ws : List (List Nat)) : Prop where
  inside : ∀ us ∈ ws, ∃ start ∈ us.head?, ∀ x ∈ us, start ≤ x ∧ x ≤ start + d
  behind : ws.Pairwise fun us vs => ∀ start ∈ us.head?, ∀ y ∈ vs, start + d < y

theorem WellCut.cons {start : Nat} {us : List Nat} {ws : List (List Nat)} (h : WellCut d ws)
    (hin : ∀ x ∈ us, start ≤ x ∧ x ≤ start + d) (hpast : ∀ vs ∈ ws, ∀ y ∈ vs, start + d < y) :
    WellCut d ((start :: us) :: ws) where
  inside := by
    intro vs hvs
    rcases List.mem_cons.mp hvs with rfl | hvs
    · refine ⟨start, rfl, fun x hx => ?_⟩
      rcases List.mem_cons.mp hx with rfl | hx
      · omega
      · exact hin x hx
    · exact h.inside vs hvs
  behind := by
    refine List.pairwise_cons.mpr ⟨fun vs hvs s hs => ?_, h.behind⟩
    obtain rfl : start = s := by simpa using hs
    exact hpast vs hvs

theorem WellCut.tail {us : List Nat} {ws : List (List Nat)} (h : WellCut d (us :: ws)) :
    WellCut d ws where
  inside vs hvs := h.inside vs (List.mem_cons_of_mem us hvs)
  behind := (List.pairwise_cons.mp h.behind).2

theorem windowsFrom_cut : ∀ (ts : List Nat) (start : Nat), (start :: ts).Pairwise (· ≤ ·) →
    (∀ x ∈ (windowsFrom d start ts).1, start ≤ x ∧ x ≤ start + d) ∧
    (∀ vs ∈ (windowsFrom d start ts).2, ∀ y ∈ vs, start + d < y) ∧
    WellCut d (windowsFrom d start ts).2 := by
  intro ts
  induction ts with
  | nil =>
    intro start _
    simp only [windowsFrom]
    exact ⟨by simp, by simp, ⟨by simp, List.Pairwise.nil⟩⟩
  | cons t ts ih =>
    intro start hs
    obtain ⟨hstart, hts⟩ := List.pairwise_cons.mp hs
    have hle : start ≤ t := hstart t (by simp)
    rw [windowsFrom]
    split
    · next hpast =>
      obtain ⟨hin, hbehind, hcut⟩ := ih t hts
      refine ⟨by simp, fun vs hvs y hy => ?_, hcut.cons hin hbehind⟩
      rcases List.mem_cons.mp hvs with rfl | hvs
      · rcases List.mem_cons.mp hy with rfl | hy
        · omega
        · have := hin y hy
          omega
      · have := hbehind vs hvs y hy
        omega
    · next hinside =>
      have hrest : (start :: ts).Pairwise (· ≤ ·) :=
        List.pairwise_cons.mpr ⟨fun x hx => hstart x (by simp [hx]), (List.pairwise_cons.mp hts).2⟩
      obtain ⟨hin, hbehind, hcut⟩ := ih start hrest
      refine ⟨fun x hx => ?_, hbehind, hcut⟩
      rcases List.mem_cons.mp hx with rfl | hx
      · omega
      · exact hin x hx

theorem windows_cut (hs : ts.Pairwise (· ≤ ·)) : WellCut d (windows d ts) := by
  cases ts with
  | nil => exact ⟨by simp [windows], List.Pairwise.nil⟩
  | cons t ts =>
    obtain ⟨hin, hbehind, hcut⟩ := windowsFrom_cut (d := d) ts t hs
    exact hcut.cons hin hbehind

/-- The first times of a window behind others: those of the window after next are too late
to matter. -/
theorem cross_iff {us vs : List Nat} {ws : List (List Nat)} (h : WellCut d (us :: vs :: ws)) :
    (∀ j x y, (us.take n)[j]? = some x →
      ((vs :: ws).flatMap (List.take n))[j + (n - (us.take n).length)]? = some y → x + d < y) ↔
    Follows n d us vs := by
  have hlen : n - (us.take n).length = n - us.length := by
    rw [List.length_take]
    omega
  rw [hlen, List.flatMap_cons]
  constructor
  · intro hcross j hj x hx y hy
    rw [Option.mem_def] at hx hy
    have hin := (List.getElem?_eq_some_iff.mp hx).1
    have hy' : (vs.take n)[j + (n - us.length)]? = some y := by
      rw [List.getElem?_take_of_lt (by omega), hy]
    refine hcross j x y (by rw [List.getElem?_take_of_lt hj, hx]) ?_
    rw [List.getElem?_append_left (List.getElem?_eq_some_iff.mp hy').1, hy']
  · intro hfollows j x y hx hy
    have hj : j < n := by
      have := (List.getElem?_eq_some_iff.mp hx).1
      rw [List.length_take] at this
      omega
    rw [List.getElem?_take_of_lt hj] at hx
    rcases Nat.lt_or_ge (j + (n - us.length)) (vs.take n).length with hk | hk
    · rw [List.getElem?_append_left hk, List.getElem?_take_of_lt (by
        rw [List.length_take] at hk
        omega)] at hy
      exact hfollows j hj x hx y hy
    · -- two windows on, it is past the end of the one between
      rw [List.getElem?_append_right hk] at hy
      obtain ⟨us', hus', hyus⟩ := List.mem_flatMap.mp (List.mem_of_getElem? hy)
      obtain ⟨s, hs, hin⟩ := h.inside us (by simp)
      obtain ⟨s', hs', _⟩ := h.inside vs (by simp)
      have hfirst := (List.pairwise_cons.mp h.behind).1 vs (by simp) s hs s'
        (List.mem_of_mem_head? hs')
      have hnext := (List.pairwise_cons.mp (List.pairwise_cons.mp h.behind).2).1 us' hus' s' hs' y
        (List.mem_of_mem_take hyus)
      have := hin x (List.mem_of_getElem? hx)
      omega

theorem spaced_takes_iff {ws : List (List Nat)} (h : WellCut d ws) :
    Spaced n d (ws.flatMap (List.take n)) ↔ ws.IsChain (Follows n d) := by
  induction ws with
  | nil => simp [Spaced]
  | cons us ws ih =>
    rw [List.flatMap_cons, spaced_append (List.length_take_le n us), ih h.tail]
    cases ws with
    | nil => simp
    | cons vs ws => rw [cross_iff h, List.isChain_cons_cons, and_comm]

theorem windowsFrom_flatten : ∀ (ts : List Nat) (start : Nat),
    (windowsFrom d start ts).1 ++ (windowsFrom d start ts).2.flatten = ts := by
  intro ts
  induction ts with
  | nil => exact fun _ => rfl
  | cons t ts ih =>
    intro start
    rw [windowsFrom]
    split
    · rw [List.nil_append, List.flatten_cons, List.cons_append, ih]
    · rw [List.cons_append, ih]

theorem windows_flatten : (windows d ts).flatten = ts := by
  cases ts with
  | nil => rfl
  | cons t ts => rw [windows, List.flatten_cons, List.cons_append, windowsFrom_flatten]

theorem takes_sublist (ws : List (List Nat)) :
    (ws.flatMap (List.take n)).Sublist ws.flatten := by
  induction ws with
  | nil => exact .slnil
  | cons us ws ih => exact (List.take_sublist n us).append ih

/-- Of the first `n` times of each window at most `n` lie in every interval of the length of
the windows exactly if every window follows the one before slowly enough. -/
theorem takes_during_iff (hs : ts.Pairwise (· ≤ ·)) :
    (∀ a, (during d a ((windows d ts).flatMap (List.take n))).length ≤ n) ↔
      (windows d ts).IsChain (Follows n d) := by
  have hsub := takes_sublist (n := n) (windows d ts)
  rw [windows_flatten] at hsub
  rw [during_le_iff (hs.sublist hsub), spaced_takes_iff (windows_cut hs)]

end Tesseract.SlidingWindow
