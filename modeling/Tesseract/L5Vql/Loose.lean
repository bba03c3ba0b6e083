import Tesseract.L5Vql.Sound

/-!
# Styles that differ in words

What the proofs ask of a style to compare it with the canonical one: keywords may be in any
letter case, and the words of floats and arguments end where the canonical ones do.
-/
namespace Tesseract.L5.Vql

open Nom Tok

variable {α : Type}

/-! ## Letter case -/

theorem toLower_of_space {c : Char} (h : isSpace c = true) : c.toLower = c := by
  rcases isSpace_cases h with rfl | rfl | rfl | rfl <;> rfl

theorem toLower_of_digit {c : Char} (h : c.isDigit = true) : c.toLower = c := by
  unfold Char.isDigit at h
  unfold Char.toLower
  rw [dif_neg]
  simp only [Bool.and_eq_true, decide_eq_true_eq, UInt32.le_iff_toNat_le] at h ⊢
  have : ('9'.val).toNat = 57 := rfl
  have : ('A'.val).toNat = 65 := rfl
  omega

/-- A keyword in some letter case begins with its first letter in that case. -/
theorem spelled_cons {w v : List Char} {c : Char}
    (h : w.map Char.toLower = (c :: v).map Char.toLower) :
    ∃ d u, w = d :: u ∧ d.toLower = c.toLower ∧ u.map Char.toLower = v.map Char.toLower := by
  cases w with
  | nil => cases h
  | cons d u =>
    rw [List.map_cons, List.map_cons, List.cons.injEq] at h
    exact ⟨d, u, rfl, h⟩

theorem spelled_solid {w v : List Char} {c : Char}
    (h : w.map Char.toLower = (c :: v).map Char.toLower)
    (hc : isSpace c.toLower = false) : Solid w := by
  obtain ⟨d, u, rfl, hd, _⟩ := spelled_cons h
  refine ⟨d, u, rfl, ?_⟩
  cases hs : isSpace d with
  | false => rfl
  | true =>
    rw [toLower_of_space hs] at hd
    rw [← hd, hs] at hc
    cases hc

/-- No number goes on with a keyword. -/
theorem spelled_numEnd {w v r : List Char} {c : Char}
    (h : w.map Char.toLower = (c :: v).map Char.toLower)
    (hc : c.toLower.isDigit = false ∧ c.toLower ≠ '.') : NumEnd (w ++ r) := by
  obtain ⟨d, u, rfl, hd, _⟩ := spelled_cons h
  intro e he
  cases he
  constructor
  · cases hdigit : d.isDigit with
    | false => rfl
    | true =>
      rw [toLower_of_digit hdigit] at hd
      rw [← hd, hdigit] at hc
      cases hc.1
  · rintro rfl
    exact hc.2 hd.symm

theorem numEnd_gap {g r : List Char} (hg : Blank g) (hr : NumEnd r) : NumEnd (g ++ r) :=
  gap_head hg (by decide) hr

/-! ## Loose styles -/

/-- White space, and then a comma or a parenthesis. -/
def ListEnd (r : List Char) : Prop := ∃ c ∈ (afterGap r).head?, c = ',' ∨ c = ')'

theorem ListEnd.of_tok {t : Tok} {c : Char} (h : t.Is (· = [c])) (hc : c = ',' ∨ c = ')')
    (r : List Char) : ListEnd (t.gap ++ (t.word ++ r)) := by
  have hspace : isSpace c = false := by rcases hc with rfl | rfl <;> decide
  refine ⟨c, ?_, hc⟩
  rw [afterGap_append h.1, h.2, afterGap_of_gapEnd]
  · rfl
  · intro d hd
    cases hd
    exact hspace

theorem ListEnd.numEnd {r : List Char} (h : ListEnd r) : NumEnd r := by
  obtain ⟨c, hc, hor⟩ := h
  have hsplit : r.takeWhile isSpace ++ afterGap r = r := List.takeWhile_append_dropWhile
  rw [← hsplit]
  refine numEnd_gap (blank_takeWhile r) fun d hd => ?_
  obtain rfl : d = c := by
    rw [Option.mem_def.mp hc] at hd
    cases hd
    rfl
  rcases hor with rfl | rfl <;> decide

/-- A float that is written in the style as in the canonical one. -/
def Style.SharesFloat [F64Text α] (σ : Style α) (x : α) : Prop := ∃ w, σ.float x w ∧ Decimal x w

/-- An argument of ORDER BY that is written in the style as in the canonical one. -/
def Style.SharesArg (σ : Style α) (a : String) : Prop := ∃ w, σ.arg a w ∧ OrderByArg a w

/-- Keywords in any letter case, and words that end where the canonical ones do. -/
structure Style.Loose [F64Text α] (σ : Style α) : Prop where
  spell : ∀ k w, σ.spell k w → w.map Char.toLower = k.map Char.toLower
  float : Unique (Word σ.float) (Word Decimal) NumEnd σ.SharesFloat
  arg : Unique (Word σ.arg) (Word OrderByArg) ListEnd σ.SharesArg

theorem digits_same {w w' r r' : List Char} (h : IsDigits w) (h' : IsDigits w') (hr : DigitEnd r)
    (hr' : DigitEnd r') (heq : w ++ r = w' ++ r') : w = w' ∧ r = r' := by
  have htake : ∀ {w r : List Char}, IsDigits w → DigitEnd r →
      (w ++ r).takeWhile Char.isDigit = w := by
    intro w r hw hr
    rw [List.takeWhile_append_of_pos hw.2]
    cases r with
    | nil => simp
    | cons c r =>
      have hc : c.isDigit = false := hr c rfl
      simp [hc]
  have hw : w = w' := by rw [← htake h hr, heq, htake h' hr']
  rw [hw] at heq
  exact ⟨hw, List.append_cancel_left heq⟩

theorem decimal_same {w w' r r' : List Char} (h : IsDecimal w) (h' : IsDecimal w')
    (hr : DigitEnd r) (hr' : DigitEnd r') (heq : w ++ r = w' ++ r') : w = w' := by
  obtain ⟨a, b, ha, hb, rfl⟩ := h
  obtain ⟨a', b', ha', hb', rfl⟩ := h'
  have hpoint : ∀ v : List Char, DigitEnd ('.' :: v) := by
    intro v c hc
    cases hc
    decide
  rw [List.append_assoc, List.append_assoc, List.cons_append, List.cons_append] at heq
  obtain ⟨rfl, htail⟩ := digits_same ha ha' (hpoint _) (hpoint _) heq
  obtain ⟨rfl, _⟩ := digits_same hb hb' hr hr' (List.cons.inj htail).2
  rfl

theorem decimal_unique [F64Text α] (σ : Style α) (h : σ.float = Decimal) :
    Unique (Word σ.float) (Word Decimal) NumEnd σ.SharesFloat := by
  have hsolid : ∀ (x : α) w, Decimal x w → Solid w := fun _ _ hx => hx.1.solid
  refine Word.unique (h ▸ hsolid) hsolid fun x w w' r r' hx hx' hr hr' heq => ?_
  rw [h] at hx
  obtain rfl := decimal_same hx.1 hx'.1 hr.digitEnd hr'.digitEnd heq
  exact ⟨rfl, w, h ▸ hx, hx⟩

/-- An identifier is no string. -/
theorem ident_quoted {a b : String} {w w' r r' : List Char} (h : Ident a w) (h' : Quoted b w')
    (heq : w ++ r = w' ++ r') : False := by
  obtain ⟨⟨c, v, rfl, hc, _⟩, _⟩ := h
  rw [h'.1] at heq
  obtain rfl := (List.cons.inj heq).1
  exact absurd hc (by decide)

theorem orderByArg_same {a : String} {w w' r r' : List Char} (h : OrderByArg a w)
    (h' : OrderByArg a w') (heq : w ++ r = w' ++ r') : w = w' := by
  rcases h with h | h <;> rcases h' with h' | h'
  · exact h.2.symm.trans h'.2
  · exact (ident_quoted h h' heq).elim
  · exact (ident_quoted h' h heq.symm).elim
  · exact h.1.trans h'.1.symm

/-- Words as in the canonical style, and keywords in any letter case. -/
theorem Style.Loose.mk_case [F64Text α] {σ : Style α}
    (hspell : ∀ k w, σ.spell k w → w.map Char.toLower = k.map Char.toLower)
    (hfloat : σ.float = Decimal) (harg : σ.arg = OrderByArg) : σ.Loose where
  spell := hspell
  float := decimal_unique σ hfloat
  arg := by
    have hsolid : ∀ a w, OrderByArg a w → Solid w := fun _ _ ha => ha.solid
    refine Word.unique (harg ▸ hsolid) hsolid fun a w w' r r' ha ha' _ _ heq => ?_
    rw [harg] at ha
    obtain rfl := orderByArg_same ha ha' heq
    exact ⟨rfl, w, harg ▸ ha, ha⟩

theorem Style.canonical_loose [F64Text α] : (Style.canonical : Style α).Loose :=
  .mk_case (fun _ _ h => by rw [show _ = _ from h]) rfl rfl

theorem Style.documented_loose [F64Text α] : (Style.documented : Style α).Loose :=
  .mk_case (fun _ _ h => h) rfl rfl

/-! ## Floats and arguments -/

def Literal.floats : Literal α → List α
  | .float x => [x]
  | _ => []

mutual

def Predicate.floats : Predicate α → List α
  | .comparison _ _ value => value.floats
  | .isIn _ values => values.flatMap Literal.floats
  | .between _ low high => low.floats ++ high.floats
  | .like _ _ => []
  | .and predicates => floatsAll predicates

def floatsAll : List (Predicate α) → List α
  | [] => []
  | p :: ps => p.floats ++ floatsAll ps

end

theorem mem_floatsAll {x : α} {ps : List (Predicate α)} :
    x ∈ floatsAll ps ↔ ∃ p ∈ ps, x ∈ p.floats := by
  induction ps with
  | nil => simp [floatsAll]
  | cons p ps ih => simp [floatsAll, ih]

/-- The floats of a WHERE clause. -/
def ParsedClause.floats : ParsedClause α → List α
  | .metadataWhere v => floatsAll v.predicates
  | _ => []

/-- The arguments of an ORDER BY clause. -/
def ParsedClause.orderArgs : ParsedClause α → List String
  | .orderBy v => v.args
  | _ => []

/-- A clause whose floats and arguments are written as in the canonical style. -/
def ParsedClause.Shares [F64Text α] (σ : Style α) (c : ParsedClause α) : Prop :=
  (∀ x ∈ c.floats, σ.SharesFloat x) ∧ ∀ a ∈ c.orderArgs, σ.SharesArg a

theorem conjunction_floats (ps : List (Predicate α)) {x : α} :
    x ∈ (conjunction ps).floats ↔ ∃ p ∈ ps, x ∈ p.floats := by
  match ps with
  | [] => simp [conjunction, Predicate.floats, floatsAll]
  | [p] => simp [conjunction]
  | p :: q :: ps => exact mem_floatsAll

end Tesseract.L5.Vql
