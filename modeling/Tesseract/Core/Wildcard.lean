import Mathlib.Data.List.Infix

/-!
# Patterns with one wildcard

`Wild star p v`: the word `v` is the pattern `p` with each occurrence of `star` replaced by
a word of its own, possibly empty. Every other letter stands for itself.

* `wild_append`: a pattern in two parts matches a word in two parts.
* `wild_plain`: without a wildcard only the pattern itself matches.
* `wild_before`, `wild_after`, `wild_around`: one wildcard before, after or around such a
  pattern.
-/
namespace Tesseract

variable {σ : Type}

inductive Wild (star : σ) : List σ → List σ → Prop
  | nil : Wild star [] []
  | star {p v : List σ} (text : List σ) (h : Wild star p v) : Wild star (star :: p) (text ++ v)
  | letter {c : σ} {p v : List σ} (hc : c ≠ star) (h : Wild star p v) :
    Wild star (c :: p) (c :: v)

variable {star : σ} {p q v : List σ}

@[simp]
theorem wild_nil : Wild star [] v ↔ v = [] := by
  constructor
  · intro h
    cases h
    rfl
  · rintro rfl
    exact .nil

theorem wild_star : Wild star (star :: p) v ↔ ∃ text w, v = text ++ w ∧ Wild star p w := by
  constructor
  · intro h
    cases h with
    | star text h => exact ⟨text, _, rfl, h⟩
    | letter hc _ => exact absurd rfl hc
  · rintro ⟨text, w, rfl, h⟩
    exact .star text h

theorem wild_letter {c : σ} (hc : c ≠ star) :
    Wild star (c :: p) v ↔ ∃ w, v = c :: w ∧ Wild star p w := by
  constructor
  · intro h
    cases h with
    | star => exact absurd rfl hc
    | letter _ h => exact ⟨_, rfl, h⟩
  · rintro ⟨w, rfl, h⟩
    exact .letter hc h

/-- Each wildcard may stand for itself. -/
theorem Wild.refl (p : List σ) : Wild star p p := by
  induction p with
  | nil => exact .nil
  | cons c p ih =>
    by_cases hc : c = star
    · subst hc
      exact .star [c] ih
    · exact .letter hc ih

/-- Each wildcard may stand for the empty word. -/
theorem Wild.erase [DecidableEq σ] (p : List σ) : Wild star p (p.filter (· ≠ star)) := by
  induction p with
  | nil => exact .nil
  | cons c p ih =>
    by_cases hc : c = star
    · subst hc
      simpa using Wild.star [] ih
    · simpa [hc] using Wild.letter hc ih

theorem wild_append :
    Wild star (p ++ q) v ↔ ∃ u w, v = u ++ w ∧ Wild star p u ∧ Wild star q w := by
  constructor
  · intro h
    induction p generalizing v with
    | nil => exact ⟨[], v, rfl, .nil, h⟩
    | cons c p ih =>
      cases h with
      | star text h =>
        obtain ⟨u, w, rfl, hu, hw⟩ := ih h
        exact ⟨text ++ u, w, (List.append_assoc ..).symm, .star text hu, hw⟩
      | letter hc h =>
        obtain ⟨u, w, rfl, hu, hw⟩ := ih h
        exact ⟨c :: u, w, rfl, .letter hc hu, hw⟩
  · rintro ⟨u, w, rfl, hu, hw⟩
    induction hu with
    | nil => exact hw
    | star text _ ih =>
      rw [List.append_assoc]
      exact .star text ih
    | letter hc _ ih => exact .letter hc ih

theorem wild_plain (hp : star ∉ p) : Wild star p v ↔ v = p := by
  induction p generalizing v with
  | nil => exact wild_nil
  | cons c p ih =>
    rw [List.mem_cons, not_or] at hp
    rw [wild_letter (Ne.symm hp.1)]
    simp only [ih hp.2, exists_eq_right]

theorem wild_before (hp : star ∉ p) : Wild star (star :: p) v ↔ p <:+ v := by
  rw [wild_star]
  constructor
  · rintro ⟨text, w, rfl, h⟩
    rw [(wild_plain hp).mp h]
    exact List.suffix_append text p
  · rintro ⟨text, rfl⟩
    exact ⟨text, p, rfl, .refl p⟩

theorem wild_after (hp : star ∉ p) : Wild star (p ++ [star]) v ↔ p <+: v := by
  rw [wild_append]
  constructor
  · rintro ⟨u, w, rfl, hu, _⟩
    rw [(wild_plain hp).mp hu]
    exact List.prefix_append p w
  · rintro ⟨w, rfl⟩
    exact ⟨p, w, rfl, .refl p, wild_star.mpr ⟨w, [], (List.append_nil w).symm, .nil⟩⟩

theorem wild_around (hp : star ∉ p) : Wild star (star :: (p ++ [star])) v ↔ p <:+: v := by
  rw [wild_star]
  constructor
  · rintro ⟨text, w, rfl, h⟩
    exact ((wild_after hp).mp h).isInfix.trans (List.suffix_append text w).isInfix
  · rintro ⟨text, rest, rfl⟩
    exact ⟨text, p ++ rest, List.append_assoc .., (wild_after hp).mpr (List.prefix_append p rest)⟩

end Tesseract
