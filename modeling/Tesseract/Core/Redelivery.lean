import Mathlib.Data.List.Induction

/-!
# Log entries that are delivered more than once

A log is applied to a state entry by entry, by `f`. Parts of it may come late or again; where
an entry that has been applied changes nothing when it comes again (`Settles`), a part that
starts no later than where the state stands takes the state to the end of the part, or
leaves it where it is.

* `Settles.of_done`: a property that an entry brings about, that stays, and that makes the
  entry do nothing.
* `foldl_slice`: a part of the log on a state that stands further on.
* `filter_lt_eq_drop`, `countP_le_key`: in a log with increasing keys the entries above a
  key are a suffix.
-/
namespace Tesseract.Redelivery

variable {σ ε : Type} {f : σ → ε → σ} {s₀ : σ}

/-- From `s₀` on, an entry that has been applied changes nothing when it is applied again. -/
def Settles (f : σ → ε → σ) (s₀ : σ) : Prop :=
  ∀ (log : List ε) (e : ε), e ∈ log → f (log.foldl f s₀) e = log.foldl f s₀

/-- `Done s e`: the state needs `e` no more. -/
theorem Settles.of_done (Done : σ → ε → Prop) (hnow : ∀ s e, Done (f s e) e)
    (hkeep : ∀ s e e', Done s e → Done (f s e') e) (hstop : ∀ s e, Done s e → f s e = s)
    (s₀ : σ) : Settles f s₀ := by
  intro log e he
  refine hstop _ _ ?_
  induction log using List.reverseRecOn with
  | nil => cases he
  | append_singleton log e' ih =>
    rw [List.foldl_append, List.foldl_cons, List.foldl_nil]
    rcases List.mem_append.mp he with he | he
    · exact hkeep _ _ _ (ih he)
    · obtain rfl := List.mem_singleton.mp he
      exact hnow _ _

/-- Entries that have all been applied. -/
theorem Settles.foldl (h : Settles f s₀) {log : List ε} (batch : List ε)
    (hsub : ∀ e ∈ batch, e ∈ log) : batch.foldl f (log.foldl f s₀) = log.foldl f s₀ := by
  induction batch with
  | nil => rfl
  | cons e batch ih =>
    rw [List.foldl_cons, h log e (hsub e List.mem_cons_self)]
    exact ih fun x hx => hsub x (List.mem_cons_of_mem e hx)

/-- The state stands at `p`; the part of the log from `a` to `b` comes. -/
theorem Settles.foldl_slice (h : Settles f s₀) (log : List ε) {p a : Nat} (b : Nat)
    (hap : a ≤ p) :
    ((log.take b).drop a).foldl f ((log.take p).foldl f s₀) =
      (log.take (max p b)).foldl f s₀ := by
  rcases Nat.le_total b p with hbp | hpb
  · rw [Nat.max_eq_left hbp]
    refine h.foldl _ fun e he => ?_
    exact (List.take_sublist_take_left hbp).subset (List.mem_of_mem_drop he)
  · -- up to `p` the entries are known, from there on they come in order
    rw [Nat.max_eq_right hpb]
    have htake : log.take b = log.take p ++ (log.take b).drop p := by
      conv_lhs => rw [← List.take_append_drop p (log.take b)]
      rw [List.take_take, Nat.min_eq_left hpb]
    have hdrop : (log.take b).drop a = (log.take p).drop a ++ (log.take b).drop p := by
      conv_lhs => rw [htake]
      rcases Nat.lt_or_ge (log.take p).length a with hlen | hle
      · -- the log ends before `p`
        have hend : log.length ≤ p := by
          rw [List.length_take] at hlen
          omega
        have hnil : (log.take b).drop p = [] := by
          rw [List.drop_eq_nil_iff, List.length_take]
          omega
        rw [hnil, List.append_nil, List.append_nil]
      · exact List.drop_append_of_le_length hle
    rw [hdrop, List.foldl_append, h.foldl _ fun e he => List.mem_of_mem_drop he]
    conv_rhs => rw [htake]
    rw [List.foldl_append]

/-! ## Logs with increasing keys -/

variable {key : ε → Nat}

/-- How many entries have keys up to `a`. -/
def upTo (key : ε → Nat) (log : List ε) (a : Nat) : Nat := log.countP fun e => key e ≤ a

theorem upTo_le (log : List ε) (a : Nat) : upTo key log a ≤ log.length := List.countP_le_length

theorem upTo_append (log : List ε) (e : ε) (a : Nat) :
    upTo key (log ++ [e]) a = upTo key log a + if key e ≤ a then 1 else 0 := by
  simp [upTo, List.countP_append, List.countP_singleton]

theorem upTo_eq_zero {log : List ε} {a : Nat} (h : ∀ e ∈ log, a < key e) :
    upTo key log a = 0 := by
  refine List.countP_eq_zero.mpr fun e he => ?_
  have := h e he
  simp only [decide_eq_true_eq]
  omega

theorem upTo_eq_length {log : List ε} {a : Nat} (h : ∀ e ∈ log, key e ≤ a) :
    upTo key log a = log.length :=
  List.countP_eq_length.mpr fun e he => by simpa using h e he

/-- The entries up to `a` are a prefix. -/
theorem take_upTo {log : List ε} (h : log.Pairwise fun x y => key x < key y) (a : Nat) :
    log.take (upTo key log a) = log.filter fun e => key e ≤ a := by
  induction log with
  | nil => rfl
  | cons e log ih =>
    obtain ⟨hlt, hlog⟩ := List.pairwise_cons.mp h
    by_cases he : key e ≤ a
    · have hcount : upTo key (e :: log) a = upTo key log a + 1 := by simp [upTo, he]
      rw [hcount, List.take_succ_cons, ih hlog, List.filter_cons_of_pos (by simpa using he)]
    · have hcount : upTo key (e :: log) a = 0 := upTo_eq_zero fun x hx => by
        rcases List.mem_cons.mp hx with rfl | hx
        · omega
        · have := hlt x hx
          omega
      have hnone : ∀ x ∈ e :: log, ¬ decide (key x ≤ a) = true := fun x hx =>
        List.countP_eq_zero.mp hcount x hx
      rw [hcount, List.take_zero, List.filter_eq_nil_iff.mpr hnone]

/-- The entries above `a` are the rest. -/
theorem drop_upTo {log : List ε} (h : log.Pairwise fun x y => key x < key y) (a : Nat) :
    log.drop (upTo key log a) = log.filter fun e => a < key e := by
  induction log with
  | nil => rfl
  | cons e log ih =>
    obtain ⟨hlt, hlog⟩ := List.pairwise_cons.mp h
    by_cases he : key e ≤ a
    · have hcount : upTo key (e :: log) a = upTo key log a + 1 := by simp [upTo, he]
      rw [hcount, List.drop_succ_cons, ih hlog, List.filter_cons_of_neg (by simpa using he)]
    · have hall : ∀ x ∈ e :: log, a < key x := fun x hx => by
        rcases List.mem_cons.mp hx with rfl | hx
        · omega
        · have := hlt x hx
          omega
      rw [upTo_eq_zero hall, List.drop_zero, List.filter_eq_self.mpr]
      exact fun x hx => by simpa using hall x hx

/-- The key of the last of the first `b` entries covers just these. -/
theorem upTo_last {log : List ε} (h : log.Pairwise fun x y => key x < key y) {b : Nat}
    (hb : b ≤ log.length) {e : ε} (he : (log.take b).getLast? = some e) :
    upTo key log (key e) = b := by
  have hsplit : upTo key log (key e) =
      upTo key (log.take b) (key e) + upTo key (log.drop b) (key e) := by
    rw [upTo, upTo, upTo, ← List.countP_append, List.take_append_drop]
  obtain ⟨front, hfront⟩ := List.getLast?_eq_some_iff.mp he
  have hpair : ((log.take b) ++ log.drop b).Pairwise fun x y => key x < key y := by
    rw [List.take_append_drop]
    exact h
  obtain ⟨hin, -, hacross⟩ := List.pairwise_append.mp hpair
  have hmem : e ∈ log.take b := by simp [hfront]
  have hlow : upTo key (log.take b) (key e) = (log.take b).length := by
    refine upTo_eq_length fun x hx => ?_
    rw [hfront] at hx hin
    rcases List.mem_append.mp hx with hx | hx
    · exact Nat.le_of_lt ((List.pairwise_append.mp hin).2.2 x hx e (List.mem_singleton_self e))
    · exact Nat.le_of_eq (congrArg key (List.mem_singleton.mp hx))
  rw [hsplit, hlow, upTo_eq_zero (fun x hx => hacross e hmem x hx), List.length_take]
  omega

end Tesseract.Redelivery
