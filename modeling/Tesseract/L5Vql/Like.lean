import Tesseract.Core.Wildcard
import Tesseract.L5Vql.Executor

/-!
# LIKE

`like_match` looks for `%` at the two ends of a pattern and compares the rest character by
character. So it is wildcard matching for the patterns without another `%`, except `%%`
(`like_wild_iff`): in every other pattern some `%` has to occur in the value.
-/
namespace Tesseract.L5.Vql

/-- No `%` but as the first or the last character, and not `%%`. -/
def EdgeWildcards (pattern : String) : Prop :=
  pattern ≠ "%%" ∧ '%' ∉ pattern.toList.tail.dropLast

theorem stripSuffix_eq_some {cs start : List Char} :
    stripSuffix cs = some start ↔ cs = start ++ ['%'] := by
  unfold stripSuffix
  constructor
  · split
    · next hlast =>
      rintro ⟨⟩
      exact (List.dropLast_append_getLast? _ hlast).symm
    · intro h
      cases h
  · rintro rfl
    simp

theorem stripSuffix_eq_none {cs : List Char} :
    stripSuffix cs = none ↔ cs.getLast? ≠ some '%' := by
  simp [stripSuffix]

/-- A pattern that starts with a wildcard. -/
theorem likeMatch_percent (value : String) {pattern : String} {suffix : List Char}
    (h : pattern.toList = '%' :: suffix) :
    likeMatch value pattern =
      match stripSuffix suffix with
      | some (c :: middle) => decide (c :: middle <:+: value.toList)
      | _ => decide (suffix <:+ value.toList) := by
  unfold likeMatch
  rw [h]
  cases suffix with
  | nil => simp [stripSuffix]
  | cons c suffix => rfl

/-- A pattern that does not. -/
theorem likeMatch_plain (value : String) {pattern : String}
    (h : pattern.toList.head? ≠ some '%') :
    likeMatch value pattern =
      match stripSuffix pattern.toList with
      | some start => decide (start <+: value.toList)
      | none => value == pattern := by
  unfold likeMatch
  split
  · next hchars => simp [hchars] at h
  · next hchars => simp [hchars] at h
  · rfl

/-- What a pattern requires of a value: that it contains, ends in, starts with or is what
is left of the pattern without the `%` at its ends. -/
inductive Shape (pattern : String) (part : List Char) : Prop
  | contains (hchars : pattern.toList = '%' :: (part ++ ['%']))
    (hlike : ∀ value, likeMatch value pattern = true ↔ part <:+: value.toList)
  | ends (hchars : pattern.toList = '%' :: part)
    (hlike : ∀ value, likeMatch value pattern = true ↔ part <:+ value.toList)
  | starts (hchars : pattern.toList = part ++ ['%'])
    (hlike : ∀ value, likeMatch value pattern = true ↔ part <+: value.toList)
  | same (hchars : pattern.toList = part)
    (hlike : ∀ value, likeMatch value pattern = true ↔ value.toList = part)

theorem eq_wildcards_iff {pattern : String} : pattern = "%%" ↔ pattern.toList = ['%', '%'] := by
  rw [← String.toList_inj]
  rfl

theorem mem_tail_iff {c : Char} {cs : List Char} (hhead : cs.head? ≠ some c) :
    c ∈ cs.tail ↔ c ∈ cs := by
  cases cs with
  | nil => rfl
  | cons d cs => grind

theorem mem_dropLast_iff {c : Char} {cs : List Char} (hlast : cs.getLast? ≠ some c) :
    c ∈ cs.dropLast ↔ c ∈ cs := by
  rcases List.eq_nil_or_concat cs with rfl | ⟨start, d, rfl⟩
  · rfl
  · grind

theorem exists_shape_percent {pattern : String} {suffix : List Char}
    (hchars : pattern.toList = '%' :: suffix) :
    ∃ part, Shape pattern part ∧ (EdgeWildcards pattern ↔ '%' ∉ part) := by
  have hmatch := fun value => likeMatch_percent value hchars
  unfold EdgeWildcards
  rw [ne_eq, eq_wildcards_iff]
  cases hstrip : stripSuffix suffix with
  | none =>
    have hlast := stripSuffix_eq_none.mp hstrip
    simp only [hstrip] at hmatch
    refine ⟨suffix, .ends hchars fun value => by simp [hmatch], ?_⟩
    have hne : ¬ '%' :: suffix = ['%', '%'] := by
      rintro ⟨⟩
      exact hlast rfl
    rw [hchars, List.tail_cons, mem_dropLast_iff hlast]
    exact and_iff_right hne
  | some middle =>
    have hsuffix := stripSuffix_eq_some.mp hstrip
    simp only [hstrip] at hmatch
    cases middle with
    | nil =>
      refine ⟨suffix, .ends hchars fun value => by simp [hmatch], ?_⟩
      simp [hchars, hsuffix]
    | cons c middle =>
      refine ⟨c :: middle, .contains (hsuffix ▸ hchars) fun value => by simp [hmatch], ?_⟩
      rw [hchars, List.tail_cons, hsuffix, List.dropLast_concat]
      simp

theorem exists_shape_plain {pattern : String} (hhead : pattern.toList.head? ≠ some '%') :
    ∃ part, Shape pattern part ∧ (EdgeWildcards pattern ↔ '%' ∉ part) := by
  have hmatch := fun value => likeMatch_plain value hhead
  unfold EdgeWildcards
  rw [ne_eq, eq_wildcards_iff]
  cases hstrip : stripSuffix pattern.toList with
  | none =>
    have hlast := stripSuffix_eq_none.mp hstrip
    simp only [hstrip] at hmatch
    refine ⟨pattern.toList, .same rfl fun value => by simp [hmatch, String.toList_inj], ?_⟩
    have htail : pattern.toList.tail.getLast? ≠ some '%' := by grind
    have hne : ¬ pattern.toList = ['%', '%'] := by
      intro h
      rw [h] at hhead
      exact hhead rfl
    rw [mem_dropLast_iff htail, mem_tail_iff hhead]
    exact and_iff_right hne
  | some start =>
    have hstart := stripSuffix_eq_some.mp hstrip
    simp only [hstrip] at hmatch
    refine ⟨start, .starts hstart fun value => by simp [hmatch], ?_⟩
    cases start with
    | nil => simp [hstart] at hhead
    | cons c start =>
      rw [hstart] at hhead ⊢
      rw [List.cons_append, List.tail_cons, List.dropLast_concat]
      grind

theorem exists_shape (pattern : String) :
    ∃ part, Shape pattern part ∧ (EdgeWildcards pattern ↔ '%' ∉ part) := by
  by_cases hhead : pattern.toList.head? = some '%'
  · obtain ⟨suffix, hchars⟩ := List.head?_eq_some_iff.mp hhead
    exact exists_shape_percent hchars
  · exact exists_shape_plain hhead

/-- Whatever `like_match` accepts is the pattern with its wildcards replaced. -/
theorem wild_of_likeMatch {value pattern : String} (h : likeMatch value pattern = true) :
    Wild '%' pattern.toList value.toList := by
  obtain ⟨part, hshape, _⟩ := exists_shape pattern
  have hpart : Wild '%' part part := .refl part
  cases hshape with
  | contains hchars hlike =>
    obtain ⟨before, after, hvalue⟩ := (hlike value).mp h
    rw [hchars, ← hvalue, List.append_assoc]
    refine .star before (wild_append.mpr ⟨part, after, rfl, hpart, ?_⟩)
    simpa using Wild.star after .nil
  | ends hchars hlike =>
    obtain ⟨before, hvalue⟩ := (hlike value).mp h
    rw [hchars, ← hvalue]
    exact .star before hpart
  | starts hchars hlike =>
    obtain ⟨after, hvalue⟩ := (hlike value).mp h
    rw [hchars, ← hvalue]
    refine wild_append.mpr ⟨part, after, rfl, hpart, ?_⟩
    simpa using Wild.star after .nil
  | same hchars hlike =>
    rw [hchars, (hlike value).mp h]
    exact hpart

/-- Without a wildcard in the middle the tests are those of wildcard matching. -/
theorem likeMatch_of_wild {value pattern : String} (hedge : EdgeWildcards pattern)
    (h : Wild '%' pattern.toList value.toList) : likeMatch value pattern = true := by
  obtain ⟨part, hshape, hpart⟩ := exists_shape pattern
  have hplain := hpart.mp hedge
  cases hshape with
  | contains hchars hlike => exact (hlike value).mpr ((wild_around hplain).mp (hchars ▸ h))
  | ends hchars hlike => exact (hlike value).mpr ((wild_before hplain).mp (hchars ▸ h))
  | starts hchars hlike => exact (hlike value).mpr ((wild_after hplain).mp (hchars ▸ h))
  | same hchars hlike => exact (hlike value).mpr ((wild_plain hplain).mp (hchars ▸ h))

/-- With one, the value has to contain a `%`. -/
theorem percent_mem_of_likeMatch {value pattern : String} (hedge : ¬ EdgeWildcards pattern)
    (h : likeMatch value pattern = true) : '%' ∈ value.toList := by
  obtain ⟨part, hshape, hpart⟩ := exists_shape pattern
  have hmem : '%' ∈ part := not_not.mp fun hnot => hedge (hpart.mpr hnot)
  cases hshape with
  | contains _ hlike => exact ((hlike value).mp h).subset hmem
  | ends _ hlike => exact ((hlike value).mp h).subset hmem
  | starts _ hlike => exact ((hlike value).mp h).subset hmem
  | same _ hlike => exact (hlike value).mp h ▸ hmem

/-- `like_match` decides wildcard matching for the patterns with wildcards at their ends
only, and for no other. -/
theorem like_wild_iff (pattern : String) :
    (∀ value : String,
      likeMatch value pattern = true ↔ Wild '%' pattern.toList value.toList) ↔
    EdgeWildcards pattern := by
  constructor
  · intro hagree
    by_contra hedge
    -- all wildcards replaced by the empty word
    have hwild : Wild '%' pattern.toList
        (String.ofList (pattern.toList.filter (· ≠ '%'))).toList := by
      rw [String.toList_ofList]
      exact Wild.erase _
    have hmem := percent_mem_of_likeMatch hedge ((hagree _).mpr hwild)
    rw [String.toList_ofList, List.mem_filter] at hmem
    simp at hmem
  · exact fun hedge value => ⟨wild_of_likeMatch, likeMatch_of_wild hedge⟩

/-- `a%b` does not match `axb`. -/
theorem like_middle_wildcard :
    ¬ (likeMatch "axb" "a%b" = true ↔ Wild '%' "a%b".toList "axb".toList) := by
  have hwild : Wild '%' "a%b".toList "axb".toList :=
    .letter (by decide) (.star ['x'] (.letter (by decide) .nil))
  have hlike : likeMatch "axb" "a%b" = false := by decide
  intro h
  rw [h.mpr hwild] at hlike
  cases hlike

end Tesseract.L5.Vql
