import Tesseract.L5Vql.ClauseOrder

/-!
# Only sentences are read

What the parsers of `grammar.rs` return was written in the canonical style.

* `predicate_sound`, `parseAnyClause_sound`, `findClause_sound`: the parts of a query, from one
  lemma for each of their parsers.
* `query_total`: the parser of queries comes to an end.
* `query_eq_ok`: it returns a query exactly for the texts that are one, with white space
  behind it.
-/
namespace Tesseract.L5.Vql

open Nom Tok

variable {α : Type} [Nom] [LawfulNom]

/-! ## Steps of a parser -/

section Steps

variable {A B : Type} {i r : List Char} {b : B}

theorem ws_then {f : List Char → Parser B} (h : (ws >>= f) i = .ok (b, r)) :
    ∃ g i', Blank g ∧ GapEnd i' ∧ i = g ++ i' ∧ f g i' = .ok (b, r) := by
  obtain ⟨g, i', h₁, k₁⟩ := bind_eq_ok.mp h
  obtain ⟨hg, hi, hend⟩ := multispace0_eq_ok h₁
  exact ⟨g, i', hg, hend, hi, k₁⟩

theorem tag_then {w : List Char} {f : List Char → Parser B} (h : (tag w >>= f) i = .ok (b, r)) :
    ∃ i', i = w ++ i' ∧ f w i' = .ok (b, r) := by
  obtain ⟨a, i', h₁, k₁⟩ := bind_eq_ok.mp h
  obtain ⟨rfl, hi⟩ := tag_eq_ok.mp h₁
  exact ⟨i', hi, k₁⟩

theorem preceded_then {p : Parser A} {f : A → Parser B}
    (h : (preceded ws p >>= f) i = .ok (b, r)) :
    ∃ g i' a r', Blank g ∧ GapEnd i' ∧ i = g ++ i' ∧ p i' = .ok (a, r') ∧ f a r' = .ok (b, r) := by
  obtain ⟨a, r', h₁, k₁⟩ := bind_eq_ok.mp h
  obtain ⟨g, i', hg, hend, hi, hp⟩ := ws_then h₁
  exact ⟨g, i', a, r', hg, hend, hi, hp, k₁⟩

omit [Nom] [LawfulNom] in
theorem mapped_sound {p : Parser A} {f : A → B} {R : B → List Tok → Prop}
    {E : A → List Char → Prop} {E' : B → List Char → Prop} (h : Sound p (fun a => R (f a)) E)
    (hE : ∀ a r, E a r → E' (f a) r) : Sound (mapped p f) R E' := by
  intro i b r hi hok g hg
  obtain ⟨a, ha, rfl⟩ := mapped_eq_ok hok
  obtain ⟨ts, hts, hlead, hbody, hend⟩ := h hi ha hg
  exact ⟨ts, hts, hlead, hbody, hE a r hend⟩

omit [Nom] [LawfulNom] in
/-- An identifier is behind: a letter that follows stands apart. -/
theorem gap_of_wordEnd {g v : List Char} {c : Char} (h : WordEnd (g ++ c :: v))
    (hc : isWord c = true) : g ≠ [] := by
  rintro rfl
  rw [h c rfl] at hc
  cases hc

end Steps

section Sound

variable [F64Text α]

/-! ## Predicates -/

theorem enclosed_sound {A : Type} {p : Parser A} {W : A → List Char → Prop}
    (hW : ∀ a w, W a w → Solid w) (hp : ∀ {i a r}, p i = .ok (a, r) → ∃ w, W a w ∧ i = w ++ r)
    {i r : List Char} {as : List A}
    (h : delimited (tag ['(']) (separatedList0 (spaced [',']) p) (tag [')']) i = .ok (as, r))
    {g : List Char} (hg : Blank g) : ∃ ts, Enclosed (Style.canonical : Style α) (Word W) as ts ∧
      lead ts = g ∧ i = body ts ++ r := by
  unfold delimited at h
  obtain ⟨i₁, rfl, k₁⟩ := tag_then h
  obtain ⟨as, i₂, h₂, k₂⟩ := bind_eq_ok.mp k₁
  obtain ⟨i₃, rfl, k₃⟩ := tag_then k₂
  obtain ⟨rfl, rfl⟩ := pure_eq_ok.mp k₃
  have hblank : Blank [] := by simp [Blank]
  have hsound : Sound p (Word W) fun _ _ => True := by
    refine @Sound.word A p (fun _ _ => True) W fun hp' => ?_
    obtain ⟨w, hw, hi⟩ := hp hp'
    exact ⟨w, hw, hi, trivial⟩
  have hgap : ∀ x, p i₁ = .ok x → GapEnd i₁ := by
    intro x hx
    obtain ⟨w, hw, rfl⟩ := hp (a := x.1) (r := x.2) hx
    exact Solid.gapEnd (hW x.1 w hw) x.2
  rcases separatedList0_sound (comma_solid rfl) (Word.toks hW) hsound hgap h₂ hblank with
    ⟨rfl, rfl⟩ | ⟨ts, hts, hlead, rfl⟩
  · exact ⟨[⟨g, ['(']⟩, ⟨[], [')']⟩], .mk ⟨hg, rfl⟩ .nil rfl ⟨hblank, rfl⟩ rfl, rfl, rfl⟩
  · have htoks := hts.toks (fun _ => comma_solid) (Word.toks hW)
    have htight : (Style.canonical : Style α).tight (lead (ts ++ [⟨[], [')']⟩])) :=
      (htoks.lead_append _).trans hlead
    have hclose : (⟨[], [')']⟩ : Tok).Is (· = [')']) := ⟨hblank, rfl⟩
    refine ⟨⟨g, ['(']⟩ :: (ts ++ [⟨[], [')']⟩]), .mk ⟨hg, rfl⟩ (.some hts) htight hclose ?_,
      rfl, ?_⟩
    · rfl
    · simp [render_eq ts, hlead]

theorem inPredicate_sound : Sound (inPredicate (α := α)) (PredicateToks Style.canonical)
    fun _ _ => True := by
  intro i p r _ h g hg
  unfold inPredicate at h
  obtain ⟨field, i₁, h₁, k₁⟩ := bind_eq_ok.mp h
  obtain ⟨w, hw, rfl, hend⟩ := identifier_sound h₁
  obtain ⟨g₁, i₂, hg₁, _, rfl, k₂⟩ := ws_then k₁
  obtain ⟨i₃, rfl, k₃⟩ := tag_then k₂
  obtain ⟨g₂, i₄, hg₂, _, rfl, k₄⟩ := ws_then k₃
  obtain ⟨values, i₅, h₅, k₅⟩ := bind_eq_ok.mp k₄
  obtain ⟨rfl, rfl⟩ := pure_eq_ok.mp k₅
  obtain ⟨ts, hts, hlead, rfl⟩ := enclosed_sound (α := α) (fun _ _ => LiteralWord.solid)
    literal_sound h₅ hg₂
  refine ⟨⟨g, w⟩ :: ⟨g₁, "IN".toList⟩ :: ts, .isIn ⟨hg, hw⟩ ⟨hg₁, rfl⟩
    (gap_of_wordEnd hend (by decide)) hts, rfl, ?_, trivial⟩
  simp [render_eq ts, hlead]

theorem betweenPredicate_sound : Sound (betweenPredicate (α := α)) (PredicateToks Style.canonical)
    fun _ _ => True := by
  intro i p r _ h g hg
  unfold betweenPredicate at h
  obtain ⟨field, i₁, h₁, k₁⟩ := bind_eq_ok.mp h
  obtain ⟨w, hw, rfl, hend⟩ := identifier_sound h₁
  obtain ⟨g₁, i₂, hg₁, _, rfl, k₂⟩ := ws_then k₁
  obtain ⟨i₃, rfl, k₃⟩ := tag_then k₂
  obtain ⟨g₂, i₄, hg₂, _, rfl, k₄⟩ := ws_then k₃
  obtain ⟨low, i₅, h₅, k₅⟩ := bind_eq_ok.mp k₄
  obtain ⟨l, hl, rfl⟩ := literal_sound h₅
  obtain ⟨g₃, i₆, hg₃, _, rfl, k₆⟩ := ws_then k₅
  obtain ⟨i₇, rfl, k₇⟩ := tag_then k₆
  obtain ⟨g₄, i₈, hg₄, _, rfl, k₈⟩ := ws_then k₇
  obtain ⟨high, i₉, h₉, k₉⟩ := bind_eq_ok.mp k₈
  obtain ⟨h', hh, rfl⟩ := literal_sound h₉
  obtain ⟨rfl, rfl⟩ := pure_eq_ok.mp k₉
  refine ⟨[⟨g, w⟩, ⟨g₁, "BETWEEN".toList⟩, ⟨g₂, l⟩, ⟨g₃, "AND".toList⟩, ⟨g₄, h'⟩],
    .between ⟨hg, hw⟩ ⟨hg₁, rfl⟩ (gap_of_wordEnd hend (by decide)) ⟨hg₂, hl⟩ ⟨hg₃, rfl⟩ ⟨hg₄, hh⟩,
    rfl, ?_, trivial⟩
  simp

theorem likePredicate_sound : Sound (likePredicate (α := α)) (PredicateToks Style.canonical)
    fun _ _ => True := by
  intro i p r _ h g hg
  unfold likePredicate at h
  obtain ⟨field, i₁, h₁, k₁⟩ := bind_eq_ok.mp h
  obtain ⟨w, hw, rfl, hend⟩ := identifier_sound h₁
  obtain ⟨g₁, i₂, hg₁, _, rfl, k₂⟩ := ws_then k₁
  obtain ⟨i₃, rfl, k₃⟩ := tag_then k₂
  obtain ⟨g₂, i₄, hg₂, _, rfl, k₄⟩ := ws_then k₃
  obtain ⟨pattern, i₅, h₅, k₅⟩ := bind_eq_ok.mp k₄
  obtain ⟨s, hs, rfl⟩ := stringLiteral_sound h₅
  obtain ⟨rfl, rfl⟩ := pure_eq_ok.mp k₅
  refine ⟨[⟨g, w⟩, ⟨g₁, "LIKE".toList⟩, ⟨g₂, s⟩], .like ⟨hg, hw⟩ ⟨hg₁, rfl⟩
    (gap_of_wordEnd hend (by decide)) ⟨hg₂, hs⟩, rfl, ?_, trivial⟩
  simp

theorem comparisonPredicate_sound : Sound (comparisonPredicate (α := α))
    (PredicateToks Style.canonical) fun _ _ => True := by
  intro i p r _ h g hg
  unfold comparisonPredicate at h
  obtain ⟨field, i₁, h₁, k₁⟩ := bind_eq_ok.mp h
  obtain ⟨w, hw, rfl, _⟩ := identifier_sound h₁
  obtain ⟨g₁, i₂, hg₁, _, rfl, k₂⟩ := ws_then k₁
  obtain ⟨operator, i₃, h₃, k₃⟩ := bind_eq_ok.mp k₂
  obtain rfl := comparisonOp_sound h₃
  obtain ⟨g₂, i₄, hg₂, _, rfl, k₄⟩ := ws_then k₃
  obtain ⟨value, i₅, h₅, k₅⟩ := bind_eq_ok.mp k₄
  obtain ⟨v, hv, rfl⟩ := literal_sound h₅
  obtain ⟨rfl, rfl⟩ := pure_eq_ok.mp k₅
  refine ⟨[⟨g, w⟩, ⟨g₁, operator.spelled⟩, ⟨g₂, v⟩], .comparison ⟨hg, hw⟩ ⟨hg₁, rfl⟩ ⟨hg₂, hv⟩,
    rfl, ?_, trivial⟩
  simp

theorem predicate_sound : Sound (predicate (α := α)) (PredicateToks Style.canonical)
    fun _ _ => True := by
  apply Sound.ofAlt (List.cons_ne_nil _ _)
  intro q hq
  simp only [List.mem_cons, List.not_mem_nil, or_false] at hq
  rcases hq with rfl | rfl | rfl | rfl
  · exact inPredicate_sound
  · exact betweenPredicate_sound
  · exact likePredicate_sound
  · exact comparisonPredicate_sound

theorem andExpression_sound : Sound (andExpression (α := α)) (ConjunctionToks Style.canonical)
    fun _ _ => True := by
  intro i p r hgap h g hg
  rw [andExpression_eq] at h
  cases hps : separatedList1 (spaced "AND".toList) (predicate (α := α)) i with
  | error e =>
    rw [hps] at h
    cases h
  | ok x =>
    obtain ⟨ps, r'⟩ := x
    rw [hps] at h
    cases h
    obtain ⟨ts, hts, hlead, hi, _⟩ := separatedList1_sound ⟨_, _, rfl, by decide⟩
      (fun _ _ => PredicateToks.toks) predicate_sound hgap hps hg
    exact ⟨ts, .mk hts, hlead, hi, trivial⟩

/-! ## FIND -/

theorem vectorLiteral_sound : Sound (vectorLiteral (α := α))
    (fun xs => SourceToks Style.canonical ("", some xs)) fun _ _ => True := by
  intro i xs r _ h g hg
  unfold vectorLiteral at h
  obtain ⟨i₁, rfl, k₁⟩ := tag_then h
  obtain ⟨g₁, i₂, hg₁, _, rfl, k₂⟩ := ws_then k₁
  obtain ⟨i₃, rfl, k₃⟩ := tag_then k₂
  obtain ⟨g₂, i₄, hg₂, hgap, rfl, k₄⟩ := ws_then k₃
  obtain ⟨xs, i₅, h₅, k₅⟩ := bind_eq_ok.mp k₄
  obtain ⟨g₃, i₆, hg₃, _, rfl, k₆⟩ := ws_then k₅
  obtain ⟨i₇, rfl, k₇⟩ := tag_then k₆
  obtain ⟨rfl, rfl⟩ := pure_eq_ok.mp k₇
  have hfloat : Sound (floatLiteral (α := α)) (Word Decimal) fun _ _ => True := by
    refine @Sound.word α _ (fun _ _ => True) Decimal fun hp' => ?_
    obtain ⟨w, hw, hi⟩ := floatLiteral_sound hp'
    exact ⟨w, hw, hi, trivial⟩
  rcases separatedList0_sound (comma_solid rfl) (Word.toks fun _ _ h => h.1.solid) hfloat
    (fun _ _ => hgap) h₅ hg₂ with ⟨rfl, hi₅⟩ | ⟨ts, hts, hlead, rfl⟩
  · refine ⟨[⟨g, "VECTOR".toList⟩, ⟨g₁, ['(']⟩, ⟨g₂ ++ g₃, [')']⟩], .vector ⟨hg, rfl⟩
      ⟨hg₁, rfl⟩ .nil ⟨List.forall_mem_append.mpr ⟨hg₂, hg₃⟩, rfl⟩, rfl, ?_, trivial⟩
    simp [← hi₅]
  · refine ⟨⟨g, "VECTOR".toList⟩ :: ⟨g₁, ['(']⟩ :: (ts ++ [⟨g₃, [')']⟩]), .vector ⟨hg, rfl⟩
      ⟨hg₁, rfl⟩ (.some hts) ⟨hg₃, rfl⟩, rfl, ?_, trivial⟩
    simp [render_eq ts, hlead]

theorem querySource_sound : Sound (querySource (α := α)) (SourceToks Style.canonical)
    fun _ _ => True := by
  apply Sound.ofAlt (List.cons_ne_nil _ _)
  intro q hq
  simp only [List.mem_cons, List.not_mem_nil, or_false] at hq
  rcases hq with rfl | rfl
  · apply mapped_sound vectorLiteral_sound
    exact fun _ _ h => h
  · intro i x r _ h g hg
    obtain ⟨s, hs, rfl⟩ := mapped_eq_ok h
    obtain ⟨w, hw, rfl⟩ := stringLiteral_sound hs
    exact ⟨[⟨g, w⟩], .text rfl ⟨hg, hw⟩, rfl, by simp, trivial⟩

theorem findClause_sound {i r : List Char} {x : String × SimilarityExpr α}
    (h : findClause i = .ok (x, r)) : ∃ ts, FindToks Style.canonical x ts ∧ i = render ts ++ r := by
  unfold findClause at h
  obtain ⟨i₁, rfl, k₁⟩ := tag_then h
  obtain ⟨g₁, i₂, hg₁, _, rfl, k₂⟩ := ws_then k₁
  unfold findExpr at h
  obtain ⟨findType, i₃, h₃, k₃⟩ := bind_eq_ok.mp k₂
  obtain ⟨i₄, rfl, k₄⟩ := tag_then k₃
  obtain ⟨g₂, i₅, hg₂, _, rfl, k₅⟩ := ws_then k₄
  obtain ⟨field, i₆, h₆, k₆⟩ := bind_eq_ok.mp k₅
  obtain ⟨w, hw, rfl, _⟩ := identifier_sound h₆
  obtain ⟨g₃, i₇, hg₃, _, rfl, k₇⟩ := ws_then k₆
  obtain ⟨i₈, rfl, k₈⟩ := tag_then k₇
  obtain ⟨g₄, i₉, hg₄, hgap, rfl, k₉⟩ := ws_then k₈
  obtain ⟨⟨queryText, vector⟩, i₁₀, h₁₀, k₁₀⟩ := bind_eq_ok.mp k₉
  obtain ⟨us, hus, hlead, rfl, _⟩ := querySource_sound hgap h₁₀ hg₄
  obtain ⟨g₅, i₁₁, hg₅, _, rfl, k₁₁⟩ := ws_then k₁₀
  obtain ⟨i₁₂, rfl, k₁₂⟩ := tag_then k₁₁
  obtain ⟨rfl, rfl⟩ := pure_eq_ok.mp k₁₂
  have htype : (findType = "SIMILARITY" ∨ findType = "SEMANTIC") ∧
      i₂ = findType.toList ++ (['('] ++ (g₂ ++ (w ++ (g₃ ++ ([','] ++ (g₄ ++ (body us ++
        (g₅ ++ ([')'] ++ i₁₂))))))))) := by
    obtain ⟨q, hq, hx⟩ := alt_eq_ok (by simp) h₃
    simp only [List.mem_cons, List.not_mem_nil, or_false] at hq
    rcases hq with rfl | rfl
    · obtain ⟨rfl, hi⟩ := value_eq_ok hx
      exact ⟨.inl rfl, hi⟩
    · obtain ⟨rfl, hi⟩ := value_eq_ok hx
      exact ⟨.inr rfl, hi⟩
  have hblank : Blank [] := by simp [Blank]
  refine ⟨⟨[], "FIND".toList⟩ :: ⟨g₁, findType.toList⟩ :: ⟨[], ['(']⟩ :: ⟨g₂, w⟩ :: ⟨g₃, [',']⟩ ::
    (us ++ [⟨g₅, [')']⟩]), .mk ⟨hblank, rfl⟩ rfl htype.1 ⟨hg₁, rfl⟩ ⟨hblank, rfl⟩ rfl ⟨hg₂, hw⟩
      ⟨hg₃, rfl⟩ hus ⟨hg₅, rfl⟩, ?_⟩
  simp [htype.2, render_eq us, hlead]

/-! ## Clauses -/

theorem projection_sound : Sound projection (ProjectionToks (Style.canonical : Style α))
    fun p r => p.endsInWord = true → WordEnd r := by
  intro i p r hgap h g hg
  have hskip := multispace0_ok (g := []) (by simp [Blank]) hgap
  obtain ⟨q, hq, hx⟩ := alt_eq_ok (by simp) ((bind_ok hskip).symm.trans h)
  simp only [List.mem_cons, List.not_mem_nil, or_false] at hq
  rcases hq with rfl | rfl | rfl
  · obtain ⟨name, i₁, h₁, k₁⟩ := bind_eq_ok.mp hx
    obtain ⟨n, hn, rfl, _⟩ := identifier_sound h₁
    obtain ⟨g₁, i₂, _, i₃, hg₁, _, rfl, h₃, k₂⟩ := preceded_then k₁
    obtain ⟨_, rfl⟩ := tag_eq_ok.mp h₃
    obtain ⟨g₂, i₄, field, i₅, hg₂, _, rfl, h₅, k₃⟩ := preceded_then k₂
    obtain ⟨f, hf, rfl, _⟩ := identifier_sound h₅
    obtain ⟨g₃, i₆, _, i₇, hg₃, _, rfl, h₇, k₄⟩ := preceded_then k₃
    obtain ⟨_, rfl⟩ := tag_eq_ok.mp h₇
    obtain ⟨rfl, rfl⟩ := pure_eq_ok.mp k₄
    refine ⟨[⟨g, n⟩, ⟨g₁, ['(']⟩, ⟨g₂, f⟩, ⟨g₃, [')']⟩], .function ⟨hg, hn⟩ ⟨hg₁, rfl⟩ ⟨hg₂, hf⟩
      ⟨hg₃, rfl⟩, rfl, ?_, fun hends => by cases hends⟩
    simp
  · obtain ⟨field, i₁, h₁, k₁⟩ := bind_eq_ok.mp hx
    obtain ⟨f, hf, rfl, hend⟩ := identifier_sound h₁
    obtain ⟨g₁, i₂, _, i₃, hg₁, _, rfl, h₃, k₂⟩ := preceded_then k₁
    obtain ⟨_, rfl⟩ := tag_eq_ok.mp h₃
    obtain ⟨g₂, i₄, aliasName, i₅, hg₂, _, rfl, h₅, k₃⟩ := preceded_then k₂
    obtain ⟨a, ha, rfl, hend'⟩ := identifier_sound h₅
    obtain ⟨rfl, rfl⟩ := pure_eq_ok.mp k₃
    refine ⟨[⟨g, f⟩, ⟨g₁, "AS".toList⟩, ⟨g₂, a⟩], .aliased ⟨hg, hf⟩ ⟨hg₁, rfl⟩
      (gap_of_wordEnd hend (by decide)) ⟨hg₂, ha⟩, rfl, ?_, fun _ => hend'⟩
    simp
  · obtain ⟨name, hn, rfl⟩ := mapped_eq_ok hx
    obtain ⟨f, hf, rfl, hend⟩ := identifier_sound hn
    exact ⟨[⟨g, f⟩], .field ⟨hg, hf⟩, rfl, by simp, fun _ => hend⟩

/-- A keyword and a number. -/
theorem count_sound {A : Type} {k i r : List Char} {f : Nat → A} {a : A} (h : (do
      let _ ← tag k
      let _ ← ws
      let count ← mapRes (recognize digit1) parseU64
      pure (f count) : Parser A) i = .ok (a, r)) :
    ∃ g n w, Blank g ∧ Number (2 ^ 64) n w ∧ a = f n ∧ i = k ++ (g ++ (w ++ r)) := by
  obtain ⟨i₁, rfl, k₁⟩ := tag_then h
  obtain ⟨g, i₂, hg, _, rfl, k₂⟩ := ws_then k₁
  obtain ⟨n, i₃, h₃, k₃⟩ := bind_eq_ok.mp k₂
  obtain ⟨w, hw, rfl⟩ := number_sound h₃
  obtain ⟨rfl, rfl⟩ := pure_eq_ok.mp k₃
  exact ⟨g, n, w, hg, hw, rfl, rfl⟩

theorem budgetClause_sound {k i r : List Char} {v : Within} (h : budgetClause k i = .ok (v, r)) :
    ∃ g w, Blank g ∧ Number (2 ^ 64) v.millis w ∧ i = k ++ (g ++ (w ++ ("ms".toList ++ r))) := by
  unfold budgetClause at h
  obtain ⟨i₁, rfl, k₁⟩ := tag_then h
  obtain ⟨g, i₂, hg, _, rfl, k₂⟩ := ws_then k₁
  obtain ⟨n, i₃, h₃, k₃⟩ := bind_eq_ok.mp k₂
  obtain ⟨w, hw, rfl⟩ := number_sound h₃
  obtain ⟨i₄, rfl, k₄⟩ := tag_then k₃
  obtain ⟨rfl, rfl⟩ := pure_eq_ok.mp k₄
  exact ⟨g, w, hg, hw, rfl⟩

theorem direction_sound {i r : List Char} {o : Option Bool} (h : opt (preceded ws
      (alt [value true (tag "DESC".toList), value false (tag "ASC".toList)])) i = .ok (o, r)) :
    ∃ ds, DirectionToks (Style.canonical : Style α) (o.getD false) ds ∧ i = render ds ++ r := by
  rcases opt_eq_ok h with ⟨b, rfl, hb⟩ | ⟨rfl, rfl⟩
  · obtain ⟨g, i₁, hg, _, rfl, k₁⟩ := ws_then hb
    obtain ⟨q, hq, hx⟩ := alt_eq_ok (by simp) k₁
    simp only [List.mem_cons, List.not_mem_nil, or_false] at hq
    rcases hq with rfl | rfl
    · obtain ⟨rfl, rfl⟩ := value_eq_ok hx
      exact ⟨[⟨g, "DESC".toList⟩], .desc ⟨hg, rfl⟩, by simp⟩
    · obtain ⟨rfl, rfl⟩ := value_eq_ok hx
      exact ⟨[⟨g, "ASC".toList⟩], .asc ⟨hg, rfl⟩, by simp⟩
  · exact ⟨[], .none, rfl⟩

theorem metadataWhereClause_sound : Sound (metadataWhereClause (α := α))
    (fun v => ClauseToks Style.canonical (.metadataWhere v)) fun _ _ => True := by
  intro i v r _ h g hg
  unfold metadataWhereClause at h
  obtain ⟨i₁, rfl, k₁⟩ := tag_then h
  obtain ⟨g₁, i₂, hg₁, _, rfl, k₂⟩ := ws_then k₁
  obtain ⟨i₃, rfl, k₃⟩ := tag_then k₂
  obtain ⟨g₂, i₄, hg₂, _, rfl, k₄⟩ := ws_then k₃
  obtain ⟨i₅, rfl, k₅⟩ := tag_then k₄
  obtain ⟨g₃, i₆, hg₃, hgap, rfl, k₆⟩ := ws_then k₅
  obtain ⟨p, i₇, h₇, k₇⟩ := bind_eq_ok.mp k₆
  obtain ⟨ts, hts, hlead, rfl, _⟩ := andExpression_sound hgap h₇ hg₃
  obtain ⟨rfl, rfl⟩ := pure_eq_ok.mp k₇
  refine ⟨⟨g, "WITH".toList⟩ :: ⟨g₁, "METADATA".toList⟩ :: ⟨g₂, "WHERE".toList⟩ :: ts,
    .metadataWhere ⟨hg, rfl⟩ ⟨hg₁, rfl⟩ ⟨hg₂, rfl⟩ hts, rfl, ?_, trivial⟩
  simp [render_eq ts, hlead]

theorem projectOnClause_sound : Sound projectOnClause
    (fun v => ClauseToks (Style.canonical : Style α) (.projectOn v)) fun v r =>
      v.projections.getLast?.any Projection.endsInWord = true → WordEnd r := by
  intro i v r _ h g hg
  unfold projectOnClause at h
  obtain ⟨i₁, rfl, k₁⟩ := tag_then h
  obtain ⟨g₁, i₂, hg₁, _, rfl, k₂⟩ := ws_then k₁
  obtain ⟨i₃, rfl, k₃⟩ := tag_then k₂
  obtain ⟨g₂, i₄, hg₂, hgap, rfl, k₄⟩ := ws_then k₃
  obtain ⟨ps, i₅, h₅, k₅⟩ := bind_eq_ok.mp k₄
  obtain ⟨ts, hts, hlead, rfl, hend⟩ := separatedList1_sound (comma_solid rfl)
    (fun _ _ => ProjectionToks.toks) (projection_sound (α := α)) hgap h₅ hg₂
  obtain ⟨rfl, rfl⟩ := pure_eq_ok.mp k₅
  refine ⟨⟨g, "PROJECT".toList⟩ :: ⟨g₁, "ON".toList⟩ :: ts, .projectOn ⟨hg, rfl⟩ ⟨hg₁, rfl⟩
    hts, rfl, ?_, fun hends => ?_⟩
  · simp [render_eq ts, hlead]
  · obtain ⟨p, hp, hpe⟩ := (Option.any_eq_true _ _).mp hends
    exact hend p hp hpe

theorem biasClause_sound : Sound biasClause
    (fun v => ClauseToks (Style.canonical : Style α) (.bias v)) fun _ _ => True := by
  intro i v r _ h g hg
  have hblank : Blank [] := by simp [Blank]
  unfold biasClause at h
  obtain ⟨i₁, rfl, k₁⟩ := tag_then h
  obtain ⟨g₁, i₂, hg₁, _, rfl, k₂⟩ := ws_then k₁
  obtain ⟨scoringFn, i₃, h₃, k₃⟩ := bind_eq_ok.mp k₂
  obtain ⟨f, hf, rfl, _⟩ := identifier_sound h₃
  obtain ⟨args, i₄, h₄, k₄⟩ := bind_eq_ok.mp k₃
  obtain ⟨ts, hts, hlead, rfl⟩ := enclosed_sound (α := α) (fun _ _ => Ident.solid)
    (fun h => (identifier_sound h).imp fun _ hw => ⟨hw.1, hw.2.1⟩) h₄ hblank
  obtain ⟨rfl, rfl⟩ := pure_eq_ok.mp k₄
  refine ⟨⟨g, "BIAS".toList⟩ :: ⟨g₁, f⟩ :: ts, .bias ⟨hg, rfl⟩ ⟨hg₁, hf⟩ hts hlead, rfl, ?_,
    trivial⟩
  simp [render_eq ts, hlead]

theorem orderByClause_sound : Sound orderByClause
    (fun v => ClauseToks (Style.canonical : Style α) (.orderBy v)) fun _ _ => True := by
  intro i v r _ h g hg
  have hblank : Blank [] := by simp [Blank]
  unfold orderByClause at h
  obtain ⟨i₁, rfl, k₁⟩ := tag_then h
  obtain ⟨g₁, i₂, hg₁, _, rfl, k₂⟩ := ws_then k₁
  obtain ⟨i₃, rfl, k₃⟩ := tag_then k₂
  obtain ⟨g₂, i₄, hg₂, _, rfl, k₄⟩ := ws_then k₃
  obtain ⟨scoringFn, i₅, h₅, k₅⟩ := bind_eq_ok.mp k₄
  obtain ⟨f, hf, rfl, _⟩ := identifier_sound h₅
  obtain ⟨args, i₆, h₆, k₆⟩ := bind_eq_ok.mp k₅
  obtain ⟨ts, hts, hlead, rfl⟩ := enclosed_sound (α := α) (fun _ _ => OrderByArg.solid)
    orderByArg_sound h₆ hblank
  obtain ⟨direction, i₇, h₇, k₇⟩ := bind_eq_ok.mp k₆
  obtain ⟨ds, hds, rfl⟩ := direction_sound (α := α) h₇
  obtain ⟨rfl, rfl⟩ := pure_eq_ok.mp k₇
  refine ⟨⟨g, "ORDER".toList⟩ :: ⟨g₁, "BY".toList⟩ :: ⟨g₂, f⟩ :: (ts ++ ds), .orderBy ⟨hg, rfl⟩
    ⟨hg₁, rfl⟩ ⟨hg₂, hf⟩ hts hlead hds, rfl, ?_, trivial⟩
  simp [render_eq ts, hlead]

theorem limitClause_sound : Sound limitClause
    (fun v => ClauseToks (Style.canonical : Style α) (.limit v)) fun _ _ => True := by
  intro i v r _ h g hg
  obtain ⟨g₁, n, w, hg₁, hw, rfl, rfl⟩ := count_sound h
  exact ⟨[⟨g, "LIMIT".toList⟩, ⟨g₁, w⟩], .limit ⟨hg, rfl⟩ ⟨hg₁, hw⟩, rfl, by simp, trivial⟩

theorem offsetClause_sound : Sound offsetClause
    (fun v => ClauseToks (Style.canonical : Style α) (.offset v)) fun _ _ => True := by
  intro i v r _ h g hg
  obtain ⟨g₁, n, w, hg₁, hw, rfl, rfl⟩ := count_sound h
  exact ⟨[⟨g, "OFFSET".toList⟩, ⟨g₁, w⟩], .offset ⟨hg, rfl⟩ ⟨hg₁, hw⟩, rfl, by simp, trivial⟩

/-- `WITHIN` and `EN`. -/
theorem withinClause_sound {k : List Char} (hk : k = "WITHIN".toList ∨ k = "EN".toList) :
    Sound (budgetClause k) (fun v => ClauseToks (Style.canonical : Style α) (.within v))
      fun _ _ => True := by
  intro i v r _ h g hg
  obtain ⟨g₁, w, hg₁, hw, rfl⟩ := budgetClause_sound h
  have hkeyword : (⟨g, k⟩ : Tok).Is (· = "WITHIN".toList) ∨ (⟨g, k⟩ : Tok).Is (· = "EN".toList) :=
    hk.imp (fun h => ⟨hg, h⟩) fun h => ⟨hg, h⟩
  exact ⟨[⟨g, k⟩, ⟨g₁, w⟩, ⟨[], "ms".toList⟩], .within hkeyword ⟨hg₁, hw⟩
    ⟨by simp [Blank], rfl⟩ rfl, rfl, by simp, trivial⟩

theorem parseAnyClause_sound : Sound (parseAnyClause (α := α)) (ClauseToks Style.canonical)
    fun c r => c.endsInWord = true → WordEnd r := by
  apply Sound.ofAlt (List.cons_ne_nil _ _)
  intro q hq
  simp only [List.mem_cons, List.not_mem_nil, or_false] at hq
  rcases hq with rfl | rfl | rfl | rfl | rfl | rfl | rfl | rfl
  · apply mapped_sound metadataWhereClause_sound
    exact fun _ _ _ hends => by cases hends
  · apply mapped_sound projectOnClause_sound
    exact fun _ _ h => h
  · apply mapped_sound biasClause_sound
    exact fun _ _ _ hends => by cases hends
  · apply mapped_sound orderByClause_sound
    exact fun _ _ _ hends => by cases hends
  · apply mapped_sound limitClause_sound
    exact fun _ _ _ hends => by cases hends
  · apply mapped_sound offsetClause_sound
    exact fun _ _ _ hends => by cases hends
  · apply mapped_sound (withinClause_sound (.inl rfl))
    exact fun _ _ _ hends => by cases hends
  · apply mapped_sound (withinClause_sound (.inr rfl))
    exact fun _ _ _ hends => by cases hends

/-! ## Queries -/

theorem queryLoop_sound {fuel : Nat} {i r : List Char} {q q' : Query α}
    (h : queryLoop fuel i q = some (.ok (q', r))) : ∃ cs ts, ClausesToks Style.canonical cs ts ∧
      i = render ts ++ r ∧ cs.foldlM Query.add q = some q' := by
  induction fuel generalizing i q with
  | zero => cases h
  | succ fuel ih =>
    have hskip : ws i = .ok (i.takeWhile isSpace, afterGap i) := multispace0_any i
    rw [queryLoop, hskip] at h
    dsimp only at h
    split at h
    · cases h
      exact ⟨[], [], .nil, rfl, rfl⟩
    · cases hc : parseAnyClause (α := α) (afterGap i) with
      | error e =>
        rw [hc] at h
        cases h
        exact ⟨[], [], .nil, rfl, rfl⟩
      | ok x =>
        obtain ⟨c, r₁⟩ := x
        rw [hc] at h
        cases hadd : q.add c with
        | none =>
          simp only [hadd] at h
          cases h
        | some q₁ =>
          simp only [hadd] at h
          obtain ⟨ts, hts, hlead, hi, hend⟩ :=
            parseAnyClause_sound (gapEnd_afterGap i) hc (blank_takeWhile i)
          obtain ⟨cs, us, hus, hr₁, hq⟩ := ih h
          refine ⟨c :: cs, ts ++ us, .cons hts hus fun hends t ht => ?_, ?_, ?_⟩
          · rcases hus.cases_toks with rfl | ⟨u, vs, rfl, _, d, v, hdv, hd⟩
            · cases ht
            · cases ht
              have hword := hend hends
              rw [hr₁, render_cons, hdv, List.append_assoc] at hword
              refine gap_of_wordEnd hword ?_
              simp only [List.mem_cons, List.not_mem_nil, or_false] at hd
              rcases hd with rfl | rfl | rfl | rfl | rfl | rfl <;> decide
          · calc i = i.takeWhile isSpace ++ afterGap i := List.takeWhile_append_dropWhile.symm
              _ = render (ts ++ us) ++ r := by simp [hi, hr₁, render_eq ts, hlead]
          · rw [List.foldlM_cons, hadd]
            exact hq

/-- The loop ends: each clause takes some of the text. -/
theorem queryLoop_total {fuel : Nat} {i : List Char} {q : Query α} (h : i.length < fuel) :
    ∃ x, queryLoop fuel i q = some x := by
  induction fuel generalizing i q with
  | zero => omega
  | succ fuel ih =>
    have hskip : ws i = .ok (i.takeWhile isSpace, afterGap i) := multispace0_any i
    rw [queryLoop, hskip]
    dsimp only
    split
    · exact ⟨_, rfl⟩
    · cases hc : parseAnyClause (α := α) (afterGap i) with
      | error e => exact ⟨_, rfl⟩
      | ok x =>
        cases hadd : q.add x.1 with
        | none =>
          simp only [hadd]
          exact ⟨_, rfl⟩
        | some q₁ =>
          simp only [hadd]
          obtain ⟨ts, hts, _, hi, _⟩ :=
            parseAnyClause_sound (r := x.2) (gapEnd_afterGap i) hc (blank_takeWhile i)
          obtain ⟨t, us, rfl, _, d, v, hdv, _⟩ := hts.first
          have hsplit : i = i.takeWhile isSpace ++ afterGap i :=
            List.takeWhile_append_dropWhile.symm
          have hlen := congrArg List.length hsplit
          rw [hi, body_cons, hdv] at hlen
          simp only [List.length_append, List.length_cons] at hlen
          exact ih (by omega)

/-- The parser of queries comes to an end on every text. -/
theorem query_total (i : List Char) : ∃ x, query (α := α) i = some x := by
  rw [query_eq]
  cases findClause (α := α) i with
  | error e => exact ⟨_, rfl⟩
  | ok x =>
    obtain ⟨y, hy⟩ := queryLoop_total (q := Query.start x.1) (Nat.lt_succ_self x.2.length)
    exact ⟨_, congrArg (Option.map _) hy⟩

omit [F64Text α] in
theorem finish_eq_ok {q q' : Query α} {g r : List Char} (h : finish q g = .ok (q', r)) :
    Blank g ∧ q' = q ∧ r = [] ∧ (q.offset.isSome = true → q.limit.isSome = true) := by
  unfold finish at h
  have hskip : ws g = .ok (g.takeWhile isSpace, afterGap g) := multispace0_any g
  rw [hskip] at h
  simp only [bind, Except.bind] at h
  split at h
  · cases h
  · next hempty =>
    split at h
    · cases h
    · next hcheck =>
      cases h
      have hnil : afterGap g = [] := by simpa using hempty
      refine ⟨?_, rfl, hnil, fun hoff => ?_⟩
      · have hsplit : g.takeWhile isSpace ++ afterGap g = g := List.takeWhile_append_dropWhile
        rw [hnil, List.append_nil] at hsplit
        exact hsplit ▸ blank_takeWhile g
      · rw [hoff, Bool.true_and] at hcheck
        simpa [Option.isSome_iff_ne_none] using hcheck

/-- A query is returned for its texts, and for no others. -/
theorem query_eq_ok {i r : List Char} {q : Query α} : query i = some (.ok (q, r)) ↔
    r = [] ∧ ∃ ts g, QueryToks Style.canonical q ts ∧ Blank g ∧ i = render ts ++ g := by
  constructor
  · intro h
    rw [query_eq] at h
    cases hf : findClause (α := α) i with
    | error e =>
      rw [hf] at h
      cases h
    | ok x =>
      obtain ⟨find, rest⟩ := x
      rw [hf] at h
      obtain ⟨y, hy, hfinish⟩ := Option.map_eq_some_iff.mp h
      obtain ⟨us, hus, rfl⟩ := findClause_sound hf
      cases y with
      | error e => cases hfinish
      | ok y =>
        obtain ⟨q', g⟩ := y
        obtain ⟨cs, vs, hvs, rfl, hadd⟩ := queryLoop_sound hy
        obtain ⟨hg, rfl, rfl, hlimit⟩ := finish_eq_ok hfinish
        have hvalid : (Style.canonical : Style α).valid (cs.map ParsedClause.kind) :=
          ⟨(addAll_isSome.mp (by rw [hadd]; rfl)).1, (addAll_limit hadd).mp hlimit⟩
        refine ⟨rfl, us ++ vs, g, ?_, hg, by simp⟩
        rw [← addAll_assemble hadd]
        exact .mk hus hvs hvalid
  · rintro ⟨rfl, ts, g, ⟨hus, hvs, hnodup, hlimit⟩, hg, rfl⟩
    rename_i find cs us vs
    obtain ⟨q, hadd⟩ := Option.isSome_iff_exists.mp (addAll_isSome.mpr
      ⟨hnodup, fun c _ => Query.start_clause find c.kind⟩)
    rw [addAll_assemble hadd, (query_reads hus hvs hg).1 q hadd,
      finish_ok hg ((addAll_limit hadd).mpr hlimit)]

end Sound

end Tesseract.L5.Vql
