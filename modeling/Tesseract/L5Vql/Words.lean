import Tesseract.L5Vql.Syntax

/-!
# Reading words

What the parsers of `grammar.rs` for words read and return: identifiers, strings, numbers,
literals, operators. A `_reads` lemma says that a word is read up to its end, a `_sound`
lemma that what is returned stood there.
-/
namespace Tesseract.L5.Vql

open Nom Tok

/-! ## Ends of words -/

/-- The word does not go on. -/
def WordEnd (r : List Char) : Prop := ∀ c ∈ r.head?, isWord c = false

def DigitEnd (r : List Char) : Prop := ∀ c ∈ r.head?, c.isDigit = false

/-- The number does not go on. -/
def NumEnd (r : List Char) : Prop := ∀ c ∈ r.head?, c.isDigit = false ∧ c ≠ '.'

theorem NumEnd.digitEnd {r : List Char} (h : NumEnd r) : DigitEnd r := fun c hc => (h c hc).1

theorem isSpace_cases {c : Char} (h : isSpace c = true) :
    c = ' ' ∨ c = '\t' ∨ c = '\r' ∨ c = '\n' := by
  unfold isSpace at h
  simpa [or_assoc] using h

/-- A character with `f` is no white space. -/
theorem not_space {f : Char → Bool} (hf : f ' ' = false ∧ f '\t' = false ∧ f '\r' = false ∧
    f '\n' = false) {c : Char} (h : f c = true) : isSpace c = false := by
  cases hs : isSpace c with
  | false => rfl
  | true =>
    rcases isSpace_cases hs with rfl | rfl | rfl | rfl
    · rw [hf.1] at h
      cases h
    · rw [hf.2.1] at h
      cases h
    · rw [hf.2.2.1] at h
      cases h
    · rw [hf.2.2.2] at h
      cases h

theorem isWord_not_space {c : Char} (h : isWord c = true) : isSpace c = false :=
  not_space (by decide) h

theorem isDigit_not_space {c : Char} (h : c.isDigit = true) : isSpace c = false :=
  not_space (f := Char.isDigit) (by decide) h

theorem isIdentStart_isWord {c : Char} (h : (c.isAlpha || c == '_') = true) : isWord c = true := by
  unfold isWord Char.isAlphanum
  cases ha : c.isAlpha with
  | true => rfl
  | false =>
    rw [ha] at h
    simpa using Or.inr h

theorem IsIdent.solid {w : List Char} (h : IsIdent w) : Solid w := by
  obtain ⟨c, v, rfl, hc, _⟩ := h
  exact ⟨c, v, rfl, isWord_not_space (isIdentStart_isWord hc)⟩

theorem IsIdent.word {w : List Char} (h : IsIdent w) : ∀ c ∈ w, isWord c = true := by
  obtain ⟨c, v, rfl, hc, hv⟩ := h
  exact List.forall_mem_cons.mpr ⟨isIdentStart_isWord hc, hv⟩

theorem IsDigits.solid {w : List Char} (h : IsDigits w) : Solid w := by
  obtain ⟨c, v, rfl⟩ := List.exists_cons_of_ne_nil h.1
  exact ⟨c, v, rfl, isDigit_not_space (h.2 c (by simp))⟩

theorem IsDecimal.solid {w : List Char} (h : IsDecimal w) : Solid w := by
  obtain ⟨a, b, ha, _, rfl⟩ := h
  obtain ⟨c, v, rfl, hc⟩ := ha.solid
  exact ⟨c, v ++ '.' :: b, rfl, hc⟩

theorem Quoted.solid {s : String} {w : List Char} (h : Quoted s w) : Solid w :=
  ⟨'\'', s.toList ++ ['\''], h.1, by decide⟩

theorem Ident.solid {name : String} {w : List Char} (h : Ident name w) : Solid w := h.1.solid

theorem Number.solid {bound n : Nat} {w : List Char} (h : Number bound n w) : Solid w := h.1.solid

theorem OrderByArg.solid {a : String} {w : List Char} (h : OrderByArg a w) : Solid w := by
  rcases h with h | h
  · exact h.solid
  · exact h.solid

section Words

variable {α : Type} [Nom] [LawfulNom]

/-! ## Identifiers -/

theorem wordRound_rejects {i : List Char} (h : WordEnd i) :
    Rejects (alt [alphanumeric1, tag ['_']]) i := by
  have halnum : Rejects (alphanumeric1 : Parser (List Char)) i := by
    obtain ⟨e, he⟩ := span1_rejects isAlphanumeric .alphaNumeric (r := i)
      fun c hc => (Bool.or_eq_false_iff.mp (h c hc)).1
    exact ⟨e, (LawfulNom.alphanumeric1_eq i).trans he⟩
  have htag : ¬ ['_'] <+: i := by
    rintro ⟨t, rfl⟩
    exact absurd (h '_' rfl) (by decide)
  obtain ⟨e, he⟩ := tag_rejects htag
  exact ⟨e, alt_skip halnum (alt_only he)⟩

/-- A round takes a run of letters and digits, or an underscore. -/
theorem wordRound_ok {c : Char} {i : List Char} (hc : isWord c = true) :
    ∃ run rest, c :: i = run ++ rest ∧ run ≠ [] ∧ (∀ d ∈ run, isWord d = true) ∧
      alt [alphanumeric1, tag ['_']] (c :: i) = .ok (run, rest) := by
  cases halnum : isAlphanumeric c with
  | true =>
    have hspan : span1 isAlphanumeric .alphaNumeric (c :: i) =
        .ok ((c :: i).takeWhile isAlphanumeric, (c :: i).dropWhile isAlphanumeric) := by
      rw [span1, if_neg (by simp [halnum])]
    obtain ⟨hne, hall, hi, _⟩ := span1_eq_ok hspan
    refine ⟨_, _, hi, hne, fun d hd => ?_, ?_⟩
    · exact Bool.or_eq_true_iff.mpr (.inl (hall d hd))
    · exact alt_first ((LawfulNom.alphanumeric1_eq _).trans hspan)
  | false =>
    have hunder : c = '_' := by
      rcases Bool.or_eq_true_iff.mp hc with h | h
      · exact absurd (h.symm.trans halnum) (by decide)
      · exact eq_of_beq h
    have hrej : Rejects (alphanumeric1 : Parser (List Char)) (c :: i) := by
      obtain ⟨e, he⟩ := span1_rejects isAlphanumeric .alphaNumeric (r := c :: i) (by
        intro d hd
        cases hd
        exact halnum)
      exact ⟨e, (LawfulNom.alphanumeric1_eq _).trans he⟩
    refine ⟨[c], i, rfl, by simp, by simpa using hc, ?_⟩
    refine alt_skip hrej (alt_only ?_)
    rw [hunder]
    exact LawfulNom.tag_ok ['_'] i

/-- The loop of an identifier takes all characters of words. -/
theorem wordLoop_eq (i : List Char) :
    ∃ xs, many0 (alt [alphanumeric1, tag ['_']]) i = .ok (xs, i.dropWhile isWord) := by
  induction hn : i.length using Nat.strongRecOn generalizing i with
  | ind n ih =>
    subst hn
    cases i with
    | nil => exact ⟨[], LawfulNom.many0_error _ _ (wordRound_rejects (by simp [WordEnd]))⟩
    | cons c i =>
      cases hc : isWord c with
      | false =>
        refine ⟨[], ?_⟩
        rw [List.dropWhile_cons_of_neg (by simp [hc])]
        refine LawfulNom.many0_error _ _ (wordRound_rejects fun d hd => ?_)
        cases hd
        exact hc
      | true =>
        obtain ⟨run, rest, hi, hne, hrun, hround⟩ := wordRound_ok (i := i) hc
        have hpos := List.length_pos_of_ne_nil hne
        have hlen : rest.length < (c :: i).length := by
          rw [hi, List.length_append]
          omega
        obtain ⟨xs, hxs⟩ := ih rest.length hlen rest rfl
        refine ⟨run :: xs, ?_⟩
        rw [LawfulNom.many0_ok _ _ _ _ hround hlen, hxs, hi, List.dropWhile_append_of_pos hrun]
        rfl

omit [Nom] [LawfulNom] in
theorem dropWhile_word {w r : List Char} (hw : ∀ c ∈ w, isWord c = true) (hr : WordEnd r) :
    (w ++ r).dropWhile isWord = r := by
  rw [List.dropWhile_append_of_pos hw]
  cases r with
  | nil => rfl
  | cons c r => rw [List.dropWhile_cons_of_neg (by simp [hr c rfl])]

theorem identifier_reads {name : String} {w r : List Char} (h : Ident name w) (hr : WordEnd r) :
    identifier (w ++ r) = .ok (name, r) := by
  obtain ⟨hident, hname⟩ := h
  obtain ⟨c, v, rfl, hc, hv⟩ := id hident
  obtain ⟨a, rest, hstart, hsplit, ha⟩ : ∃ a rest, alt [alpha1, tag ['_']] (c :: v ++ r) =
      .ok (a, rest) ∧ c :: v ++ r = a ++ rest ∧ ∀ d ∈ a, isWord d = true := by
    cases halpha : c.isAlpha with
    | true =>
      have hspan : span1 isAlpha .alpha (c :: v ++ r) =
          .ok ((c :: v ++ r).takeWhile isAlpha, (c :: v ++ r).dropWhile isAlpha) := by
        rw [span1, if_neg (by simp [isAlpha, halpha])]
      obtain ⟨_, hall, hi, _⟩ := span1_eq_ok hspan
      refine ⟨_, _, alt_first ((LawfulNom.alpha1_eq _).trans hspan), hi, ?_⟩
      exact fun d hd => isIdentStart_isWord (Bool.or_eq_true_iff.mpr (.inl (hall d hd)))
    | false =>
      rw [halpha, Bool.false_or] at hc
      obtain rfl := eq_of_beq hc
      have hrej : Rejects (alpha1 : Parser (List Char)) ('_' :: v ++ r) := by
        obtain ⟨e, he⟩ := span1_rejects isAlpha .alpha (r := '_' :: v ++ r) (by
          intro d hd
          cases hd
          decide)
        exact ⟨e, (LawfulNom.alpha1_eq _).trans he⟩
      exact ⟨['_'], v ++ r, alt_skip hrej (alt_only (LawfulNom.tag_ok ['_'] (v ++ r))), rfl,
        List.all_eq_true.mp rfl⟩
  obtain ⟨xs, hxs⟩ := wordLoop_eq rest
  have hdrop : rest.dropWhile isWord = r := by
    have := dropWhile_word hident.word hr
    rwa [hsplit, List.dropWhile_append_of_pos ha] at this
  rw [hdrop] at hxs
  have hrec := LawfulNom.recognize_ok _ _ r _ ((bind_ok (f := fun _ =>
    many0 (alt [alphanumeric1, tag ['_']])) hstart).trans hxs)
  have hofList : String.ofList (c :: v) = name := by rw [← hname, String.ofList_toList]
  rw [← hofList]
  exact bind_ok hrec

/-- What is returned as an identifier is all of it. -/
theorem identifier_sound {i r : List Char} {name : String} (h : identifier i = .ok (name, r)) :
    ∃ w, Ident name w ∧ i = w ++ r ∧ WordEnd r := by
  obtain ⟨w, r', hrec, h⟩ := bind_eq_ok.mp h
  obtain ⟨rfl, rfl⟩ := pure_eq_ok.mp h
  -- the first character, and the loop behind it
  have hparts : ∀ (a : List (List Char)) (r : List Char), (do
      let _ ← alt [alpha1, tag ['_']]
      many0 (alt [alphanumeric1, tag ['_']]) : Parser (List (List Char))) i = .ok (a, r) →
      ∃ v, i = v ++ r ∧ IsIdent v ∧ WordEnd r := by
    intro a r ha
    obtain ⟨s, rest, hs, hloop⟩ := bind_eq_ok.mp ha
    obtain ⟨xs, hxs⟩ := wordLoop_eq rest
    rw [hxs] at hloop
    cases hloop
    obtain ⟨c, v, hcv, hc, hv, hi⟩ : ∃ c v, s = c :: v ∧ (c.isAlpha || c == '_') = true ∧
        (∀ d ∈ v, isWord d = true) ∧ i = s ++ rest := by
      obtain ⟨p, hp, hx⟩ := alt_eq_ok (by simp) hs
      rcases List.mem_cons.mp hp with rfl | hp
      · rw [LawfulNom.alpha1_eq] at hx
        obtain ⟨hne, hall, hi, _⟩ := span1_eq_ok hx
        obtain ⟨c, v, rfl⟩ := List.exists_cons_of_ne_nil hne
        refine ⟨c, v, rfl, Bool.or_eq_true_iff.mpr (.inl (hall c (by simp))), fun d hd => ?_, hi⟩
        exact isIdentStart_isWord (Bool.or_eq_true_iff.mpr (.inl (hall d (by simp [hd]))))
      · rw [List.mem_singleton.mp hp] at hx
        obtain ⟨hs, hi⟩ := tag_eq_ok.mp hx
        exact ⟨'_', [], hs, rfl, by simp, by rw [hs, hi]⟩
    refine ⟨s ++ rest.takeWhile isWord, ?_,
      ⟨c, v ++ rest.takeWhile isWord, by rw [hcv]; rfl, hc, ?_⟩,
      ?_⟩
    · rw [List.append_assoc, List.takeWhile_append_dropWhile, hi]
    · intro d hd
      rcases List.mem_append.mp hd with hd | hd
      · exact hv d hd
      · exact List.mem_takeWhile_imp hd
    · intro d hd
      have := List.head?_dropWhile_not isWord rest
      rw [Option.mem_def.mp hd] at this
      simpa using this
  obtain ⟨hi, a, ha⟩ := recognize_eq_ok (fun a r ha => (hparts a r ha).imp fun v hv => hv.1) hrec
  obtain ⟨v, hv, hident, hend⟩ := hparts a r' ha
  obtain rfl := List.append_cancel_right (hi.symm.trans hv)
  exact ⟨w, ⟨hident, String.toList_ofList⟩, hi, hend⟩

/-! ## Strings -/

theorem stringLiteral_reads {s : String} {w r : List Char} (h : Quoted s w) :
    stringLiteral (w ++ r) = .ok (s, r) := by
  obtain ⟨rfl, hq⟩ := h
  have hall : ∀ c ∈ s.toList, (c != '\'') = true := by
    intro c hc
    rw [bne_iff_ne]
    rintro rfl
    exact hq hc
  have hcontent : takeWhile (fun c => c != '\'') (s.toList ++ (['\''] ++ r)) =
      .ok (s.toList, ['\''] ++ r) := by
    rw [LawfulNom.takeWhile_eq, List.takeWhile_append_of_pos hall,
      List.dropWhile_append_of_pos hall]
    simp
  unfold stringLiteral
  rw [show '\'' :: (s.toList ++ ['\'']) ++ r = ['\''] ++ (s.toList ++ (['\''] ++ r)) by simp,
    tag_next, bind_ok hcontent, tag_next, String.ofList_toList]
  rfl

theorem stringLiteral_sound {i r : List Char} {s : String} (h : stringLiteral i = .ok (s, r)) :
    ∃ w, Quoted s w ∧ i = w ++ r := by
  unfold stringLiteral at h
  obtain ⟨_, i₁, h₁, h⟩ := bind_eq_ok.mp h
  obtain ⟨content, i₂, h₂, h⟩ := bind_eq_ok.mp h
  obtain ⟨_, i₃, h₃, h⟩ := bind_eq_ok.mp h
  obtain ⟨rfl, rfl⟩ := pure_eq_ok.mp h
  obtain ⟨_, rfl⟩ := tag_eq_ok.mp h₁
  obtain ⟨_, hi₂⟩ := tag_eq_ok.mp h₃
  rw [LawfulNom.takeWhile_eq] at h₂
  cases h₂
  refine ⟨_, ⟨rfl, ?_⟩, ?_⟩
  · rw [String.toList_ofList]
    intro hc
    simpa using List.mem_takeWhile_imp hc
  · rw [String.toList_ofList]
    simp only [List.cons_append, List.nil_append, List.append_assoc] at hi₂ ⊢
    rw [← hi₂, List.takeWhile_append_dropWhile]

/-! ## Numbers -/

theorem digit1_reads {w r : List Char} (h : IsDigits w) (hr : DigitEnd r) :
    digit1 (w ++ r) = .ok (w, r) := by
  rw [LawfulNom.digit1_eq]
  exact span1_ok h.1 h.2 hr

theorem digit1_sound {i w r : List Char} (h : digit1 i = .ok (w, r)) :
    IsDigits w ∧ i = w ++ r ∧ DigitEnd r := by
  rw [LawfulNom.digit1_eq] at h
  obtain ⟨hne, hall, hi, hend⟩ := span1_eq_ok h
  exact ⟨⟨hne, hall⟩, hi, hend⟩

theorem digit1_rejects {r : List Char} (hr : DigitEnd r) :
    Rejects (digit1 : Parser (List Char)) r := by
  obtain ⟨e, he⟩ := span1_rejects isDigit .digit hr
  exact ⟨e, (LawfulNom.digit1_eq r).trans he⟩

section Bounded

variable {N : Type} {f : List Char → Option N}

/-- A number is read by the function that parses its digits. -/
theorem digits_reads {n : N} {w r : List Char} (h : IsDigits w) (hf : f w = some n)
    (hr : DigitEnd r) : mapRes (recognize digit1) f (w ++ r) = .ok (n, r) :=
  LawfulNom.mapRes_ok _ f _ (w, r) n (LawfulNom.recognize_ok _ w r w (digit1_reads h hr)) hf

theorem digits_sound {i r : List Char} {n : N} (h : mapRes (recognize digit1) f i = .ok (n, r)) :
    ∃ w, IsDigits w ∧ f w = some n ∧ i = w ++ r := by
  obtain ⟨w, hrec, hf⟩ := mapRes_eq_ok h
  obtain ⟨hi, a, ha⟩ := recognize_eq_ok
    (fun a r ha => ⟨a, (digit1_sound ha).2.1⟩) hrec
  obtain ⟨hdigits, hi', _⟩ := digit1_sound ha
  obtain rfl := List.append_cancel_right (hi.symm.trans hi')
  exact ⟨w, hdigits, hf, hi⟩

theorem digits_rejects {r : List Char} (hr : DigitEnd r) :
    Rejects (mapRes (recognize digit1) f) r := by
  obtain ⟨e, he⟩ := digit1_rejects hr
  exact ⟨e, LawfulNom.mapRes_error _ f r e (LawfulNom.recognize_error _ r e he)⟩

end Bounded

omit [Nom] [LawfulNom] in
theorem parseU64_eq_some {w : List Char} {n : Nat} (h : IsDigits w) :
    parseU64 w = some n ↔ Number (2 ^ 64) n w := by
  unfold parseU64 Number
  dsimp only
  constructor
  · intro hn
    split at hn
    · next hlt =>
      cases hn
      exact ⟨h, rfl, hlt⟩
    · cases hn
  · intro ⟨_, hval, hlt⟩
    rw [hval, if_pos hlt]

omit [Nom] [LawfulNom] in
theorem parseI64_eq_some {w : List Char} {i : Int} (h : IsDigits w) :
    parseI64 w = some i ↔ ∃ n : Nat, i = n ∧ Number (2 ^ 63) n w := by
  unfold parseI64 Number
  dsimp only
  constructor
  · intro hn
    split at hn
    · next hlt =>
      cases hn
      exact ⟨_, rfl, h, rfl, hlt⟩
    · cases hn
  · intro ⟨n, hi, _, hval, hlt⟩
    rw [hval, if_pos hlt, hi]

theorem number_reads {n : Nat} {w r : List Char} (h : Number (2 ^ 64) n w) (hr : DigitEnd r) :
    mapRes (recognize digit1) parseU64 (w ++ r) = .ok (n, r) :=
  digits_reads h.1 ((parseU64_eq_some h.1).mpr h) hr

theorem number_sound {i r : List Char} {n : Nat}
    (h : mapRes (recognize digit1) parseU64 i = .ok (n, r)) :
    ∃ w, Number (2 ^ 64) n w ∧ i = w ++ r := by
  obtain ⟨w, hdigits, hf, hi⟩ := digits_sound h
  exact ⟨w, (parseU64_eq_some hdigits).mp hf, hi⟩

section Floats

variable [F64Text α]

theorem floatText_reads {w r : List Char} (h : IsDecimal w) (hr : DigitEnd r) :
    ∃ a, (do
      let _ ← digit1
      let _ ← tag ['.']
      digit1 : Parser (List Char)) (w ++ r) = .ok (a, r) := by
  obtain ⟨a, b, ha, hb, rfl⟩ := h
  refine ⟨b, ?_⟩
  have hpoint : DigitEnd (['.'] ++ (b ++ r)) := by
    intro c hc
    cases hc
    decide
  rw [show a ++ '.' :: b ++ r = a ++ (['.'] ++ (b ++ r)) by simp, bind_ok (digit1_reads ha hpoint),
    tag_next]
  exact digit1_reads hb hr

theorem floatText_sound {i a r : List Char} (h : (do
      let _ ← digit1
      let _ ← tag ['.']
      digit1 : Parser (List Char)) i = .ok (a, r)) : ∃ w, IsDecimal w ∧ i = w ++ r := by
  obtain ⟨x, i₁, h₁, h⟩ := bind_eq_ok.mp h
  obtain ⟨_, i₂, h₂, h₃⟩ := bind_eq_ok.mp h
  obtain ⟨hx, rfl, _⟩ := digit1_sound h₁
  obtain ⟨_, rfl⟩ := tag_eq_ok.mp h₂
  obtain ⟨ha, rfl, _⟩ := digit1_sound h₃
  exact ⟨x ++ '.' :: a, ⟨x, a, hx, ha, rfl⟩, by simp⟩

theorem floatLiteral_reads {x : α} {w r : List Char} (h : Decimal x w) (hr : DigitEnd r) :
    floatLiteral (w ++ r) = .ok (x, r) := by
  obtain ⟨a, ha⟩ := floatText_reads h.1 hr
  exact LawfulNom.mapRes_ok _ _ _ (w, r) x (LawfulNom.recognize_ok _ w r a ha) h.2

theorem floatLiteral_sound {i r : List Char} {x : α} (h : floatLiteral i = .ok (x, r)) :
    ∃ w, Decimal x w ∧ i = w ++ r := by
  obtain ⟨w, hrec, hf⟩ := mapRes_eq_ok h
  obtain ⟨hi, a, ha⟩ := recognize_eq_ok
    (fun a r ha => (floatText_sound ha).imp fun _ hv => hv.2) hrec
  obtain ⟨v, hv, hi'⟩ := floatText_sound ha
  obtain rfl := List.append_cancel_right (hi.symm.trans hi')
  exact ⟨w, ⟨hv, hf⟩, hi⟩

/-- An integer is no float: no point follows its digits. -/
theorem floatLiteral_rejects {w r : List Char} (h : w = [] ∨ IsDigits w) (hr : NumEnd r) :
    Rejects (floatLiteral : Parser α) (w ++ r) := by
  have hrej : Rejects (do
      let _ ← digit1
      let _ ← tag ['.']
      digit1 : Parser (List Char)) (w ++ r) := by
    rcases h with rfl | h
    · exact Rejects.bind (digit1_rejects hr.digitEnd)
    · refine Rejects.after (digit1_reads h hr.digitEnd) (Rejects.bind (tag_rejects ?_))
      rintro ⟨t, rfl⟩
      exact (hr '.' rfl).2 rfl
  obtain ⟨e, he⟩ := hrej
  exact ⟨e, LawfulNom.mapRes_error _ _ _ e (LawfulNom.recognize_error _ _ e he)⟩

end Floats

/-! ## Literals and operators -/

section Alternatives

variable {A B : Type} {p : Parser A} {i r : List Char} {a : A}

omit [Nom] [LawfulNom] in
theorem mapped_ok {f : A → B} (h : p i = .ok (a, r)) : mapped p f i = .ok (f a, r) := bind_ok h

omit [Nom] [LawfulNom] in
theorem mapped_rejects {f : A → B} (h : Rejects p i) : Rejects (mapped p f) i := Rejects.bind h

omit [Nom] [LawfulNom] in
theorem mapped_eq_ok {f : A → B} {b : B} (h : mapped p f i = .ok (b, r)) :
    ∃ a, p i = .ok (a, r) ∧ f a = b := by
  obtain ⟨a, r', ha, hb⟩ := bind_eq_ok.mp h
  obtain ⟨hf, rfl⟩ := pure_eq_ok.mp hb
  exact ⟨a, ha, hf⟩

theorem value_ok {v : B} {w : List Char} : value v (tag w) (w ++ r) = .ok (v, r) :=
  bind_ok (LawfulNom.tag_ok w r)

theorem value_rejects {v : B} {w : List Char} (h : ¬ w <+: i) : Rejects (value v (tag w)) i :=
  Rejects.bind (tag_rejects h)

theorem value_eq_ok {v b : B} {w : List Char} (h : value v (tag w) i = .ok (b, r)) :
    b = v ∧ i = w ++ r := by
  obtain ⟨_, r', ha, hb⟩ := bind_eq_ok.mp h
  obtain ⟨hv, rfl⟩ := pure_eq_ok.mp hb
  exact ⟨hv.symm, (tag_eq_ok.mp ha).2⟩

omit [Nom] [LawfulNom] in
/-- A word that begins otherwise. -/
theorem not_starts {c d : Char} {w v : List Char} (h : c ≠ d) : ¬ c :: w <+: d :: v := by
  rw [List.cons_prefix_cons]
  exact fun hp => h hp.1

end Alternatives

theorem stringLiteral_rejects {c : Char} {r : List Char} (h : c ≠ '\'') :
    Rejects stringLiteral (c :: r) :=
  Rejects.bind (tag_rejects (not_starts h.symm))

theorem booleanLiteral_rejects {c : Char} {r : List Char} (ht : c ≠ 't') (hf : c ≠ 'f') :
    Rejects booleanLiteral (c :: r) := by
  have htrue : Rejects (value true (tag "true".toList)) (c :: r) :=
    value_rejects (not_starts ht.symm)
  obtain ⟨e, he⟩ : Rejects (value false (tag "false".toList)) (c :: r) :=
    value_rejects (not_starts hf.symm)
  exact ⟨e, alt_skip htrue (alt_only he)⟩

theorem booleanLiteral_reads (b : Bool) (r : List Char) :
    booleanLiteral ((if b then "true".toList else "false".toList) ++ r) = .ok (b, r) := by
  cases b with
  | true => exact alt_first value_ok
  | false =>
    have htrue : Rejects (value true (tag "true".toList)) ("false".toList ++ r) :=
      value_rejects (not_starts (by decide))
    exact alt_skip htrue (alt_only value_ok)

section Literals

variable [F64Text α]

/-- None of the first four alternatives. -/
theorem literal_null (r : List Char) :
    literal ("null".toList ++ r) = .ok ((.null : Literal α), r) := by
  have hend : NumEnd ("null".toList ++ r) := by
    intro c hc
    cases hc
    decide
  have hfloat := floatLiteral_rejects (α := α) (w := []) (.inl rfl) hend
  have hint : Rejects integerLiteral ("null".toList ++ r) := digits_rejects hend.digitEnd
  have hstr : Rejects stringLiteral ("null".toList ++ r) := stringLiteral_rejects (by decide)
  have hbool : Rejects booleanLiteral ("null".toList ++ r) :=
    booleanLiteral_rejects (by decide) (by decide)
  exact alt_skip (mapped_rejects hstr)
    (alt_skip (mapped_rejects hbool) (alt_skip (mapped_rejects hfloat)
    (alt_skip (mapped_rejects hint) (alt_only value_ok))))

/-- A number is neither a string nor a boolean. -/
theorem literal_number {w : List Char} (hw : ∃ c v, w = c :: v ∧ c.isDigit = true)
    (r : List Char) : literal (w ++ r) =
      alt [mapped floatLiteral Literal.float, mapped integerLiteral .integer, nullLiteral (α := α)]
        (w ++ r) := by
  obtain ⟨c, v, rfl, hc⟩ := hw
  have hne : ∀ d : Char, d.isDigit = false → c ≠ d := by
    rintro d hd rfl
    rw [hc] at hd
    cases hd
  have hstr : Rejects stringLiteral (c :: (v ++ r)) := stringLiteral_rejects (hne '\'' (by decide))
  have hbool : Rejects booleanLiteral (c :: (v ++ r)) :=
    booleanLiteral_rejects (hne 't' (by decide)) (hne 'f' (by decide))
  exact alt_skip (mapped_rejects hstr) (alt_skip (mapped_rejects hbool) rfl)

theorem literal_reads {l : Literal α} {w r : List Char} (h : LiteralWord Style.canonical l w)
    (hr : NumEnd r) : literal (w ++ r) = .ok (l, r) := by
  cases l with
  | string s => exact alt_first (mapped_ok (stringLiteral_reads h))
  | integer i =>
    obtain ⟨n, hi, hn⟩ := h
    obtain ⟨c, v, hcv⟩ := List.exists_cons_of_ne_nil hn.1.1
    have hfloat := floatLiteral_rejects (α := α) (.inr hn.1) hr
    rw [literal_number ⟨c, v, hcv, hn.1.2 c (by simp [hcv])⟩]
    exact alt_skip (mapped_rejects hfloat) (alt_first
      (mapped_ok (digits_reads hn.1 ((parseI64_eq_some hn.1).mpr ⟨n, hi, hn⟩) hr.digitEnd)))
  | float x =>
    obtain ⟨a, b, ha, _, hw⟩ := h.1
    obtain ⟨c, v, hcv⟩ := List.exists_cons_of_ne_nil ha.1
    rw [literal_number ⟨c, v ++ '.' :: b, by rw [hw, hcv]; rfl, ha.2 c (by simp [hcv])⟩]
    exact alt_first (mapped_ok (floatLiteral_reads h hr.digitEnd))
  | boolean b =>
    have hw : w = if b then "true".toList else "false".toList := h
    have hhead : ∃ c v, w ++ r = c :: v ∧ c ≠ '\'' := by
      rw [hw]
      cases b
      · exact ⟨'f', "alse".toList ++ r, rfl, by decide⟩
      · exact ⟨'t', "rue".toList ++ r, rfl, by decide⟩
    obtain ⟨c, v, hcv, hc⟩ := hhead
    have hstr : Rejects (mapped stringLiteral (Literal.string (α := α))) (w ++ r) := by
      rw [hcv]
      exact mapped_rejects (stringLiteral_rejects hc)
    refine alt_skip hstr (alt_first (mapped_ok ?_))
    rw [hw]
    exact booleanLiteral_reads b r
  | null =>
    have hw : w = "null".toList := h
    rw [hw]
    exact literal_null r

theorem literal_sound {i r : List Char} {l : Literal α} (h : literal i = .ok (l, r)) :
    ∃ w, LiteralWord Style.canonical l w ∧ i = w ++ r := by
  obtain ⟨p, hp, hx⟩ := alt_eq_ok (by simp) h
  simp only [List.mem_cons, List.not_mem_nil, or_false] at hp
  rcases hp with rfl | rfl | rfl | rfl | rfl
  · obtain ⟨s, hs, rfl⟩ := mapped_eq_ok hx
    exact stringLiteral_sound hs
  · obtain ⟨b, hb, rfl⟩ := mapped_eq_ok hx
    obtain ⟨q, hq, hy⟩ := alt_eq_ok (by simp) hb
    simp only [List.mem_cons, List.not_mem_nil, or_false] at hq
    rcases hq with rfl | rfl
    · obtain ⟨rfl, hi⟩ := value_eq_ok hy
      exact ⟨_, rfl, hi⟩
    · obtain ⟨rfl, hi⟩ := value_eq_ok hy
      exact ⟨_, rfl, hi⟩
  · obtain ⟨x, hf, rfl⟩ := mapped_eq_ok hx
    exact floatLiteral_sound hf
  · obtain ⟨n, hn, rfl⟩ := mapped_eq_ok hx
    obtain ⟨w, hdigits, hf, hi⟩ := digits_sound hn
    exact ⟨w, (parseI64_eq_some hdigits).mp hf, hi⟩
  · obtain ⟨rfl, hi⟩ := value_eq_ok hx
    exact ⟨_, rfl, hi⟩

end Literals

/-- An operator is read, if no `=` follows it. -/
theorem comparisonOp_reads (op : ComparisonOp) {r : List Char} (hr : ∀ c ∈ r.head?, c ≠ '=') :
    comparisonOp (op.spelled ++ r) = .ok (op, r) := by
  have hnext : ∀ c : Char, ¬ [c, '='] <+: c :: r := by
    rintro c ⟨t, ht⟩
    obtain rfl := (List.cons.inj ht).2
    exact hr '=' rfl rfl
  have hneq : op ≠ .neq → Rejects (value ComparisonOp.neq (tag "!=".toList)) (op.spelled ++ r) := by
    intro h
    refine value_rejects ?_
    cases op <;> first | exact absurd rfl h | exact not_starts (by decide)
  have hlte : op ≠ .lte → Rejects (value ComparisonOp.lte (tag "<=".toList)) (op.spelled ++ r) := by
    intro h
    refine value_rejects ?_
    cases op <;> first | exact absurd rfl h | exact hnext '<' | exact not_starts (by decide)
  have hgte : op ≠ .gte → Rejects (value ComparisonOp.gte (tag ">=".toList)) (op.spelled ++ r) := by
    intro h
    refine value_rejects ?_
    cases op <;> first | exact absurd rfl h | exact hnext '>' | exact not_starts (by decide)
  have heq : op = .lt ∨ op = .gt →
      Rejects (value ComparisonOp.eq (tag "=".toList)) (op.spelled ++ r) := by
    rintro (rfl | rfl)
    · exact value_rejects (not_starts (by decide))
    · exact value_rejects (not_starts (by decide))
  cases op with
  | neq => exact alt_first value_ok
  | lte => exact alt_skip (hneq (by decide)) (alt_first value_ok)
  | gte => exact alt_skip (hneq (by decide)) (alt_skip (hlte (by decide)) (alt_first value_ok))
  | eq =>
    exact alt_skip (hneq (by decide)) (alt_skip (hlte (by decide)) (alt_skip (hgte (by decide))
      (alt_first value_ok)))
  | lt =>
    exact alt_skip (hneq (by decide)) (alt_skip (hlte (by decide)) (alt_skip (hgte (by decide))
      (alt_skip (heq (.inl rfl)) (alt_first value_ok))))
  | gt =>
    have hlt : Rejects (value ComparisonOp.lt (tag "<".toList)) (ComparisonOp.gt.spelled ++ r) :=
      value_rejects (not_starts (by decide))
    exact alt_skip (hneq (by decide)) (alt_skip (hlte (by decide)) (alt_skip (hgte (by decide))
      (alt_skip (heq (.inr rfl)) (alt_skip hlt (alt_only value_ok)))))

theorem comparisonOp_sound {i r : List Char} {op : ComparisonOp}
    (h : comparisonOp i = .ok (op, r)) : i = op.spelled ++ r := by
  obtain ⟨p, hp, hx⟩ := alt_eq_ok (by simp) h
  simp only [List.mem_cons, List.not_mem_nil, or_false] at hp
  rcases hp with rfl | rfl | rfl | rfl | rfl | rfl <;>
  · obtain ⟨rfl, hi⟩ := value_eq_ok hx
    exact hi

theorem orderByArg_reads {a : String} {w r : List Char} (h : OrderByArg a w) (hr : WordEnd r) :
    orderByArg (w ++ r) = .ok (a, r) := by
  rcases h with h | h
  · obtain ⟨⟨c, v, hcv, hc, hv⟩, _⟩ := id h
    have hquote : c ≠ '\'' := by
      rintro rfl
      exact absurd hc (by decide)
    have hrej : Rejects stringLiteral (w ++ r) := by
      rw [hcv]
      exact stringLiteral_rejects hquote
    exact alt_skip hrej (alt_only (identifier_reads h hr))
  · exact alt_first (stringLiteral_reads h)

theorem orderByArg_sound {i r : List Char} {a : String} (h : orderByArg i = .ok (a, r)) :
    ∃ w, OrderByArg a w ∧ i = w ++ r := by
  obtain ⟨p, hp, hx⟩ := alt_eq_ok (by simp) h
  simp only [List.mem_cons, List.not_mem_nil, or_false] at hp
  rcases hp with rfl | rfl
  · obtain ⟨w, hw, hi⟩ := stringLiteral_sound hx
    exact ⟨w, .inr hw, hi⟩
  · obtain ⟨w, hw, hi, _⟩ := identifier_sound hx
    exact ⟨w, .inl hw, hi⟩

end Words

end Tesseract.L5.Vql
