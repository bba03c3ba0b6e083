import Tesseract.L5Vql.Loose

/-!
# One reading of a text

A query that is written in some style, and reads as the same query in the canonical one,
has the same tokens in both: a text is not cut into tokens in two ways.

* `ClauseToks.kind_eq`: how a clause begins says which kind it is.
* `ClauseToks.unique`: the tokens of a clause.
* `QueryToks.unique`: the tokens of a query.
-/
namespace Tesseract.L5.Vql

open Nom Tok

variable {α : Type}

section Unique

variable [F64Text α] {σ : Style α} (hσ : σ.Loose) {r r' : List Char} {t t' : Tok}

/-! ## Single tokens -/

omit [F64Text α] in
theorem word_peel {w : List Char} (hw : Solid w) (ht : t.Is (· = w)) (ht' : t'.Is (· = w))
    (heq : t.gap ++ (t.word ++ r) = t'.gap ++ (t'.word ++ r')) : t = t' ∧ r = r' :=
  ht.peel ht' (fun _ h => h ▸ hw) (fun _ h => h ▸ hw) (fun _ _ h h' _ => by rw [h, h']) heq

omit [F64Text α] in
theorem ident_peel {name : String} (ht : t.Is (Ident name)) (ht' : t'.Is (Ident name))
    (heq : t.gap ++ (t.word ++ r) = t'.gap ++ (t'.word ++ r')) : t = t' ∧ r = r' :=
  ht.peel ht' (fun _ => Ident.solid) (fun _ => Ident.solid) (fun _ _ h h' _ => by
    rw [← h.2, ← h'.2]) heq

omit [F64Text α] in
theorem quoted_peel {s : String} (ht : t.Is (Quoted s)) (ht' : t'.Is (Quoted s))
    (heq : t.gap ++ (t.word ++ r) = t'.gap ++ (t'.word ++ r')) : t = t' ∧ r = r' :=
  ht.peel ht' (fun _ => Quoted.solid) (fun _ => Quoted.solid) (fun _ _ h h' _ => by
    rw [h.1, h'.1]) heq

omit [F64Text α] in
theorem number_peel {bound n : Nat} (ht : t.Is (Number bound n)) (ht' : t'.Is (Number bound n))
    (hr : NumEnd r) (hr' : NumEnd r')
    (heq : t.gap ++ (t.word ++ r) = t'.gap ++ (t'.word ++ r')) : t = t' ∧ r = r' :=
  ht.peel ht' (fun _ => Number.solid) (fun _ => Number.solid) (fun _ _ h h' heq => by
    rw [(digits_same h.1 h'.1 hr.digitEnd hr'.digitEnd heq).1]) heq

include hσ

/-- A keyword in any case, where the canonical one stands too. -/
theorem keyword_peel {c : Char} {v : List Char} (hc : isSpace c.toLower = false)
    (ht : t.Is (σ.spell (c :: v))) (ht' : t'.Is ((Style.canonical : Style α).spell (c :: v)))
    (heq : t.gap ++ (t.word ++ r) = t'.gap ++ (t'.word ++ r')) : t = t' ∧ r = r' := by
  have hword : t'.word = c :: v := ht'.2
  refine ht.peel ht' (fun w h => spelled_solid (hσ.spell _ w h) hc) (fun w h => ?_)
    (fun w w' h h' _ => ?_) heq
  · exact spelled_solid (Style.canonical_loose.spell _ w h) hc
  · have hlen := congrArg List.length (hσ.spell _ w h)
    rw [List.length_map, List.length_map] at hlen
    rw [hlen, show w' = c :: v from h']

/-- No number goes on with a keyword. -/
theorem keyword_numEnd {c : Char} {v : List Char} (ht : t.Is (σ.spell (c :: v)))
    (hc : c.toLower.isDigit = false ∧ c.toLower ≠ '.') : NumEnd (t.gap ++ (t.word ++ r)) :=
  numEnd_gap ht.1 (spelled_numEnd (hσ.spell _ _ ht.2) hc)

/-! ## Predicates -/

theorem literal_unique : Unique (Word (LiteralWord σ)) (Word (LiteralWord Style.canonical)) NumEnd
    fun l => ∀ x ∈ l.floats, σ.SharesFloat x := by
  intro l ts ts' r r' ⟨t, hts, ht⟩ ⟨t', hts', ht'⟩ hr hr' heq
  have heq' : t.gap ++ (t.word ++ r) = t'.gap ++ (t'.word ++ r') := by
    simpa [hts, hts'] using heq
  have htok : t = t' ∧ r = r' → (∀ x ∈ l.floats, σ.SharesFloat x) →
      ts = ts' ∧ r = r' ∧ ∀ x ∈ l.floats, σ.SharesFloat x := by
    rintro ⟨rfl, rfl⟩ hx
    exact ⟨hts.trans hts'.symm, rfl, hx⟩
  cases l with
  | string s => exact htok (quoted_peel ht ht' heq') (by simp [Literal.floats])
  | integer i =>
    refine htok ?_ (by simp [Literal.floats])
    obtain ⟨hgap, n, hi, hn⟩ := ht
    obtain ⟨hgap', n', hi', hn'⟩ := ht'
    obtain rfl : n = n' := Int.ofNat.inj (hi.symm.trans hi')
    have htok : t.Is (Number (2 ^ 63) n) := ⟨hgap, hn⟩
    exact number_peel htok ⟨hgap', hn'⟩ hr hr' heq'
  | float x =>
    obtain ⟨h₁, h₂, h₃⟩ := hσ.float ⟨t, hts, ht⟩ ⟨t', hts', ht'⟩ hr hr' heq
    exact ⟨h₁, h₂, by simpa [Literal.floats] using h₃⟩
  | boolean b =>
    refine htok ?_ (by simp [Literal.floats])
    cases b with
    | true => exact keyword_peel hσ (c := 't') (by decide) ht ht' heq'
    | false => exact keyword_peel hσ (c := 'f') (by decide) ht ht' heq'
  | null =>
    exact htok (keyword_peel hσ (c := 'n') (by decide) ht ht' heq') (by simp [Literal.floats])

/-- The token of a literal. -/
theorem literal_peel {l : Literal α} (ht : t.Is (LiteralWord σ l))
    (ht' : t'.Is (LiteralWord Style.canonical l)) (hr : NumEnd r) (hr' : NumEnd r')
    (heq : t.gap ++ (t.word ++ r) = t'.gap ++ (t'.word ++ r')) :
    t = t' ∧ r = r' ∧ ∀ x ∈ l.floats, σ.SharesFloat x := by
  obtain ⟨htok, hrest, hx⟩ := literal_unique hσ ⟨t, rfl, ht⟩ ⟨t', rfl, ht'⟩ hr hr'
    (by simpa using heq)
  exact ⟨(List.cons.inj htok).1, hrest, hx⟩

omit [F64Text α] hσ in
/-- A list up to its parenthesis. -/
theorem listed_unique {A : Type} {W W' : A → List Char → Prop} {Q : A → Prop}
    (hW : Unique (Word W) (Word W') ListEnd Q) {as : List A} {ts ts' : List Tok} {c c' : Tok}
    (h : Separated0 (Word W) (· = [',']) as ts) (h' : Separated0 (Word W') (· = [',']) as ts')
    (hc : c.Is (· = [')'])) (hc' : c'.Is (· = [')']))
    (heq : render ts ++ (c.gap ++ (c.word ++ r)) = render ts' ++ (c'.gap ++ (c'.word ++ r'))) :
    ts = ts' ∧ c = c' ∧ r = r' ∧ ∀ a ∈ as, Q a := by
  have hparen : Solid [')'] := ⟨')', [], rfl, by decide⟩
  cases h with
  | nil =>
    cases h' with
    | nil =>
      obtain ⟨rfl, rfl⟩ := word_peel hparen hc hc' heq
      exact ⟨rfl, rfl, rfl, by simp⟩
    | some h' => exact absurd rfl h'.ne_nil
  | some h =>
    cases h' with
    | nil => exact absurd rfl h.ne_nil
    | some h' =>
      have hcomma : ∀ (t : Tok) u, t.Is (· = [',']) ∨ t.Is (· = [',']) → ListEnd (t.full ++ u) := by
        intro t u ht
        rw [full, List.append_assoc]
        exact .of_tok (or_self_iff.mp ht) (.inl rfl) u
      obtain ⟨rfl, htail, hq⟩ := h.unique (fun _ => comma_solid) (fun _ => comma_solid)
        (fun _ _ h h' => by rw [h, h']) hW hcomma h' (.of_tok hc (.inr rfl) r)
        (.of_tok hc' (.inr rfl) r') heq
      obtain ⟨rfl, rfl⟩ := word_peel hparen hc hc' htail
      exact ⟨rfl, rfl, rfl, hq⟩

omit hσ in
theorem Enclosed.unique {A : Type} {W W' : A → List Char → Prop} {Q : A → Prop}
    (hW : Unique (Word W) (Word W') ListEnd Q) :
    Unique (Enclosed σ (Word W)) (Enclosed (Style.canonical : Style α) (Word W')) (fun _ => True)
      fun as => ∀ a ∈ as, Q a := by
  intro as ts ts' r r' h h' _ _ heq
  obtain ⟨ho, hts, _, hc, _⟩ := h
  obtain ⟨ho', hts', _, hc', _⟩ := h'
  simp only [render_cons, render_append, render_nil, List.append_nil, List.append_assoc] at heq
  obtain ⟨rfl, htail⟩ := word_peel ⟨'(', [], rfl, by decide⟩ ho ho' heq
  obtain ⟨rfl, rfl, rfl, hq⟩ := listed_unique hW hts hts' hc hc' htail
  exact ⟨rfl, rfl, hq⟩

theorem predicate_unique : Unique (PredicateToks σ) (PredicateToks Style.canonical) NumEnd
    fun p => ∀ x ∈ p.floats, σ.SharesFloat x := by
  intro p ts ts' r r' h h' hr hr' heq
  cases h with
  | comparison hf ho hv =>
    cases h' with
    | comparison hf' ho' hv' =>
      simp only [render_cons, render_nil, List.append_nil, List.append_assoc] at heq
      obtain ⟨rfl, h₁⟩ := ident_peel hf hf' heq
      obtain ⟨rfl, h₂⟩ := word_peel (operator_solid _) ho ho' h₁
      obtain ⟨rfl, rfl, hx⟩ := literal_peel hσ hv hv' hr hr' h₂
      exact ⟨rfl, rfl, hx⟩
  | isIn hf hk _ hts =>
    cases h' with
    | isIn hf' hk' _ hts' =>
      simp only [render_cons, List.append_assoc] at heq
      obtain ⟨rfl, h₁⟩ := ident_peel hf hf' heq
      obtain ⟨rfl, h₂⟩ := keyword_peel hσ (c := 'I') (by decide) hk hk' h₁
      obtain ⟨rfl, rfl, hx⟩ := Enclosed.unique (.mono (literal_unique hσ) fun _ => ListEnd.numEnd)
        hts hts' trivial trivial h₂
      refine ⟨rfl, rfl, fun x hmem => ?_⟩
      obtain ⟨l, hl, hxl⟩ := List.mem_flatMap.mp hmem
      exact hx l hl x hxl
  | between hf hk _ hl ha hh =>
    cases h' with
    | between hf' hk' _ hl' ha' hh' =>
      simp only [render_cons, render_nil, List.append_nil, List.append_assoc] at heq
      obtain ⟨rfl, h₁⟩ := ident_peel hf hf' heq
      obtain ⟨rfl, h₂⟩ := keyword_peel hσ (c := 'B') (by decide) hk hk' h₁
      obtain ⟨rfl, h₃, hx⟩ := literal_peel hσ hl hl' (keyword_numEnd hσ (c := 'A') ha (by decide))
        (keyword_numEnd Style.canonical_loose (c := 'A') ha' (by decide)) h₂
      obtain ⟨rfl, h₄⟩ := keyword_peel hσ (c := 'A') (by decide) ha ha' h₃
      obtain ⟨rfl, rfl, hy⟩ := literal_peel hσ hh hh' hr hr' h₄
      exact ⟨rfl, rfl, List.forall_mem_append.mpr ⟨hx, hy⟩⟩
  | like hf hk _ hs =>
    cases h' with
    | like hf' hk' _ hs' =>
      simp only [render_cons, render_nil, List.append_nil, List.append_assoc] at heq
      obtain ⟨rfl, h₁⟩ := ident_peel hf hf' heq
      obtain ⟨rfl, h₂⟩ := keyword_peel hσ (c := 'L') (by decide) hk hk' h₁
      obtain ⟨rfl, rfl⟩ := quoted_peel hs hs' h₂
      exact ⟨rfl, rfl, by simp [Predicate.floats]⟩

omit [F64Text α] hσ in
/-- No conjunction in a conjunction. -/
theorem predicates_basic {S : List Char → Prop} {ps : List (Predicate α)} {ts : List Tok}
    (h : Separated (PredicateToks σ) S ps ts) : ps ≠ [] ∧ ∀ p ∈ ps, ∀ qs, p ≠ .and qs := by
  have hbasic : ∀ {p : Predicate α} {ts : List Tok}, PredicateToks σ p ts → ∀ qs, p ≠ .and qs := by
    intro p ts hp qs
    cases hp <;> simp
  refine ⟨h.ne_nil, ?_⟩
  induction h with
  | one hp => simpa using hbasic hp
  | cons hp _ _ ih => exact List.forall_mem_cons.mpr ⟨hbasic hp, ih⟩

omit [F64Text α] hσ in
theorem conjunction_inj {ps qs : List (Predicate α)} (hps : ps ≠ [] ∧ ∀ p ∈ ps, ∀ us, p ≠ .and us)
    (hqs : qs ≠ [] ∧ ∀ p ∈ qs, ∀ us, p ≠ .and us) (h : conjunction ps = conjunction qs) :
    ps = qs := by
  match ps, qs with
  | [], _ => exact absurd rfl hps.1
  | _, [] => exact absurd rfl hqs.1
  | [p], [q] => rw [show p = q from h]
  | [p], q :: q' :: qs => exact absurd h (hps.2 p (by simp) _)
  | p :: p' :: ps, [q] => exact absurd h.symm (hqs.2 q (by simp) _)
  | p :: p' :: ps, q :: q' :: qs => exact Predicate.and.inj h

theorem conjunction_unique : Unique (ConjunctionToks σ) (ConjunctionToks Style.canonical) NumEnd
    fun p => ∀ x ∈ p.floats, σ.SharesFloat x := by
  intro p ts ts' r r' h h' hr hr' heq
  generalize hp : p = q at h'
  obtain ⟨hps⟩ := h
  obtain ⟨hqs⟩ := h'
  obtain rfl := conjunction_inj (predicates_basic hps) (predicates_basic hqs) hp
  have hand : ∀ (t : Tok) u, t.Is (σ.spell "AND".toList) ∨
      t.Is ((Style.canonical : Style α).spell "AND".toList) → NumEnd (t.full ++ u) := by
    intro t u ht
    rw [full, List.append_assoc]
    rcases ht with ht | ht
    · exact keyword_numEnd hσ (c := 'A') ht (by decide)
    · exact keyword_numEnd Style.canonical_loose (c := 'A') ht (by decide)
  have hlen : ∀ w w', σ.spell "AND".toList w → (Style.canonical : Style α).spell "AND".toList w' →
      w.length = w'.length := by
    intro w w' h h'
    have hlen := congrArg List.length (hσ.spell _ w h)
    have hlen' := congrArg List.length (Style.canonical_loose.spell _ w' h')
    rw [List.length_map, List.length_map] at hlen hlen'
    rw [hlen, hlen']
  obtain ⟨hts, hr, hx⟩ := hps.unique
    (fun w h => spelled_solid (c := 'A') (hσ.spell _ w h) (by decide))
    (fun w h => spelled_solid (c := 'A') (Style.canonical_loose.spell _ w h) (by decide))
    hlen (predicate_unique hσ) hand hqs hr hr' heq
  refine ⟨hts, hr, fun x hmem => ?_⟩
  obtain ⟨q, hq, hxq⟩ := (conjunction_floats _).mp hmem
  exact hx q hq x hxq

/-! ## FIND -/

/-- No keyword begins with a quote. -/
theorem quoted_keyword {s : String} {c : Char} {v : List Char} (ht : t.Is (Quoted s))
    (hc : c.toLower ≠ '\'' ∧ isSpace c.toLower = false) (ht' : t'.Is (σ.spell (c :: v)))
    (heq : t.gap ++ (t.word ++ r) = t'.gap ++ (t'.word ++ r')) : False := by
  have hsolid := ht'.wf fun w h => spelled_solid (hσ.spell _ w h) hc.2
  obtain ⟨_, hword⟩ := (ht.wf fun _ => Quoted.solid).peel hsolid heq
  obtain ⟨d, u, hdu, hd, _⟩ := spelled_cons (hσ.spell _ _ ht'.2)
  rw [ht.2.1, hdu] at hword
  obtain rfl := (List.cons.inj hword).1
  exact hc.1 hd.symm

theorem source_unique : Unique (SourceToks σ) (SourceToks Style.canonical) (fun _ => True)
    fun _ => True := by
  intro x ts ts' r r' h h' _ _ heq
  cases h with
  | text _ ht =>
    cases h' with
    | text _ ht' =>
      simp only [render_cons, render_nil, List.append_nil, List.append_assoc] at heq
      obtain ⟨rfl, rfl⟩ := quoted_peel ht ht' heq
      exact ⟨rfl, rfl, trivial⟩
    | vector hk' ho' hts' hc' =>
      simp only [render_cons, render_nil, List.append_nil, List.append_assoc] at heq
      exact (quoted_keyword Style.canonical_loose (c := 'V') ht (by decide) hk' heq).elim
  | vector hk ho hts hc =>
    cases h' with
    | text hnone _ => cases show _ = none from hnone
    | vector hk' ho' hts' hc' =>
      simp only [render_cons, render_append, render_nil, List.append_nil, List.append_assoc] at heq
      obtain ⟨rfl, h₁⟩ := keyword_peel hσ (c := 'V') (by decide) hk hk' heq
      obtain ⟨rfl, h₂⟩ := word_peel ⟨'(', [], rfl, by decide⟩ ho ho' h₁
      obtain ⟨rfl, rfl, rfl, _⟩ := listed_unique (.mono hσ.float fun _ => ListEnd.numEnd) hts
        hts' hc
        hc' h₂
      exact ⟨rfl, rfl, trivial⟩

theorem find_unique : Unique (FindToks σ) (FindToks Style.canonical) (fun _ => True)
    fun _ => True := by
  intro x ts ts' r r' h h' _ _ heq
  obtain ⟨hf, _, htype, hs, ho, _, hi, hm, hsrc, hc⟩ := h
  obtain ⟨hf', _, _, hs', ho', _, hi', hm', hsrc', hc'⟩ := h'
  simp only [render_cons, render_append, render_nil, List.append_nil, List.append_assoc] at heq
  obtain ⟨rfl, h₁⟩ := keyword_peel hσ (c := 'F') (by decide) hf hf' heq
  obtain ⟨rfl, h₂⟩ : _ = _ ∧ _ := by
    rcases htype with rfl | rfl
    · exact keyword_peel hσ (c := 'S') (by decide) hs hs' h₁
    · exact keyword_peel hσ (c := 'S') (by decide) hs hs' h₁
  obtain ⟨rfl, h₃⟩ := word_peel ⟨'(', [], rfl, by decide⟩ ho ho' h₂
  obtain ⟨rfl, h₄⟩ := ident_peel hi hi' h₃
  obtain ⟨rfl, h₅⟩ := word_peel (comma_solid rfl) hm hm' h₄
  obtain ⟨rfl, h₆, _⟩ := source_unique hσ hsrc hsrc' trivial trivial h₅
  obtain ⟨rfl, rfl⟩ := word_peel ⟨')', [], rfl, by decide⟩ hc hc' h₆
  exact ⟨rfl, rfl, trivial⟩

/-! ## Clauses -/

theorem projection_unique : Unique (ProjectionToks σ) (ProjectionToks (Style.canonical : Style α))
    (fun _ => True) fun _ => True := by
  intro p ts ts' r r' h h' _ _ heq
  cases h with
  | function hn ho hf hc =>
    cases h' with
    | function hn' ho' hf' hc' =>
      simp only [render_cons, render_nil, List.append_nil, List.append_assoc] at heq
      obtain ⟨rfl, h₁⟩ := ident_peel hn hn' heq
      obtain ⟨rfl, h₂⟩ := word_peel ⟨'(', [], rfl, by decide⟩ ho ho' h₁
      obtain ⟨rfl, h₃⟩ := ident_peel hf hf' h₂
      obtain ⟨rfl, rfl⟩ := word_peel ⟨')', [], rfl, by decide⟩ hc hc' h₃
      exact ⟨rfl, rfl, trivial⟩
  | aliased hf hk _ ha =>
    cases h' with
    | aliased hf' hk' _ ha' =>
      simp only [render_cons, render_nil, List.append_nil, List.append_assoc] at heq
      obtain ⟨rfl, h₁⟩ := ident_peel hf hf' heq
      obtain ⟨rfl, h₂⟩ := keyword_peel hσ (c := 'A') (by decide) hk hk' h₁
      obtain ⟨rfl, rfl⟩ := ident_peel ha ha' h₂
      exact ⟨rfl, rfl, trivial⟩
  | field hf =>
    cases h' with
    | field hf' =>
      simp only [render_cons, render_nil, List.append_nil, List.append_assoc] at heq
      obtain ⟨rfl, rfl⟩ := ident_peel hf hf' heq
      exact ⟨rfl, rfl, trivial⟩

/-- White space, and then the first letter of a clause in some case or nothing. -/
def NextAny (r : List Char) : Prop :=
  ∀ c ∈ (afterGap r).head?, c.toLower ∈ ['w', 'p', 'b', 'o', 'l', 'e']

omit [F64Text α] hσ in
theorem NextAny.numEnd {r : List Char} (h : NextAny r) : NumEnd r := by
  have hsplit : r.takeWhile isSpace ++ afterGap r = r := List.takeWhile_append_dropWhile
  rw [← hsplit]
  refine numEnd_gap (blank_takeWhile r) fun c hc => ?_
  have hletter := h c hc
  constructor
  · cases hdigit : c.isDigit with
    | false => rfl
    | true =>
      rw [toLower_of_digit hdigit] at hletter
      simp only [List.mem_cons, List.not_mem_nil, or_false] at hletter
      rcases hletter with rfl | rfl | rfl | rfl | rfl | rfl <;> cases hdigit
  · rintro rfl
    exact absurd hletter (by decide)

/-- A letter that begins no clause. -/
theorem not_next {c : Char} {v : List Char} (ht : t.Is (σ.spell (c :: v)))
    (hc : isSpace c.toLower = false ∧ c.toLower ∉ ['w', 'p', 'b', 'o', 'l', 'e'])
    (h : NextAny (t.gap ++ (t.word ++ r))) : False := by
  obtain ⟨d, u, hdu, hd, _⟩ := spelled_cons (hσ.spell _ _ ht.2)
  have hwf := ht.wf fun w h => spelled_solid (hσ.spell _ w h) hc.1
  have hletter := h d (by rw [afterGap_append ht.1, afterGap_of_gapEnd (hwf.gapEnd r), hdu]; rfl)
  rw [hd] at hletter
  exact hc.2 hletter

theorem direction_unique : Unique (DirectionToks σ) (DirectionToks (Style.canonical : Style α))
    NextAny fun _ => True := by
  intro b ts ts' r r' h h' hr hr' heq
  cases h with
  | none =>
    cases h' with
    | none => exact ⟨rfl, by simpa using heq, trivial⟩
    | asc hd' =>
      simp only [render_cons, render_nil, List.append_nil, List.nil_append, List.append_assoc]
        at heq
      exact (not_next Style.canonical_loose (c := 'A') hd' (by decide) (heq ▸ hr)).elim
  | desc hd =>
    cases h' with
    | desc hd' =>
      simp only [render_cons, render_nil, List.append_nil, List.append_assoc] at heq
      obtain ⟨rfl, rfl⟩ := keyword_peel hσ (c := 'D') (by decide) hd hd' heq
      exact ⟨rfl, rfl, trivial⟩
  | asc hd =>
    cases h' with
    | none =>
      simp only [render_cons, render_nil, List.append_nil, List.nil_append, List.append_assoc]
        at heq
      exact (not_next hσ (c := 'A') hd (by decide) (heq ▸ hr')).elim
    | asc hd' =>
      simp only [render_cons, render_nil, List.append_nil, List.append_assoc] at heq
      obtain ⟨rfl, rfl⟩ := keyword_peel hσ (c := 'A') (by decide) hd hd' heq
      exact ⟨rfl, rfl, trivial⟩

/-- `WITHIN` and `EN` begin with different letters. -/
theorem within_peel (ht : t.Is (σ.spell "WITHIN".toList) ∨ t.Is (σ.spell "EN".toList))
    (ht' : t'.Is ((Style.canonical : Style α).spell "WITHIN".toList) ∨
      t'.Is ((Style.canonical : Style α).spell "EN".toList))
    (heq : t.gap ++ (t.word ++ r) = t'.gap ++ (t'.word ++ r')) : t = t' ∧ r = r' := by
  have hmixed : ∀ {c d : Char} {v u : List Char}, t.Is (σ.spell (c :: v)) →
      t'.Is ((Style.canonical : Style α).spell (d :: u)) → isSpace c.toLower = false →
      isSpace d.toLower = false → c.toLower = d.toLower := by
    intro c d v u h h' hc hd
    have hwf := h.wf fun w hw => spelled_solid (hσ.spell _ w hw) hc
    have hwf' := h'.wf fun w hw => spelled_solid (Style.canonical_loose.spell _ w hw) hd
    obtain ⟨e, w, hew, he, _⟩ := spelled_cons (hσ.spell _ _ h.2)
    obtain ⟨e', w', hew', he', _⟩ := spelled_cons (Style.canonical_loose.spell _ _ h'.2)
    have hword := (hwf.peel hwf' heq).2
    rw [hew, hew'] at hword
    rw [← he, ← he', (List.cons.inj hword).1]
  rcases ht with ht | ht <;> rcases ht' with ht' | ht'
  · exact keyword_peel hσ (c := 'W') (by decide) ht ht' heq
  · exact absurd (hmixed (c := 'W') (d := 'E') ht ht' (by decide) (by decide)) (by decide)
  · exact absurd (hmixed (c := 'E') (d := 'W') ht ht' (by decide) (by decide)) (by decide)
  · exact keyword_peel hσ (c := 'E') (by decide) ht ht' heq

theorem ClauseToks.unique : Unique (ClauseToks σ) (ClauseToks Style.canonical) NextAny
    fun c => c.Shares σ := by
  intro clause ts ts' r r' h h' hr hr' heq
  cases h with
  | metadataWhere ha hb hc hp =>
    cases h' with
    | metadataWhere ha' hb' hc' hp' =>
      simp only [render_cons, List.append_assoc] at heq
      obtain ⟨rfl, h₁⟩ := keyword_peel hσ (c := 'W') (by decide) ha ha' heq
      obtain ⟨rfl, h₂⟩ := keyword_peel hσ (c := 'M') (by decide) hb hb' h₁
      obtain ⟨rfl, h₃⟩ := keyword_peel hσ (c := 'W') (by decide) hc hc' h₂
      obtain ⟨rfl, rfl, hx⟩ := conjunction_unique hσ hp hp' hr.numEnd hr'.numEnd h₃
      refine ⟨rfl, rfl, fun x hmem => ?_, by simp [ParsedClause.orderArgs]⟩
      exact hx x (by simpa [ParsedClause.floats, floatsAll] using hmem)
  | projectOn ha hb hps =>
    cases h' with
    | projectOn ha' hb' hps' =>
      simp only [render_cons, List.append_assoc] at heq
      obtain ⟨rfl, h₁⟩ := keyword_peel hσ (c := 'P') (by decide) ha ha' heq
      obtain ⟨rfl, h₂⟩ := keyword_peel hσ (c := 'O') (by decide) hb hb' h₁
      obtain ⟨rfl, rfl, _⟩ := hps.unique (fun _ => comma_solid) (fun _ => comma_solid)
        (fun _ _ h h' => by rw [h, h']) (projection_unique hσ) (fun _ _ _ => trivial) hps' trivial
        trivial h₂
      exact ⟨rfl, rfl, by simp [ParsedClause.floats], by simp [ParsedClause.orderArgs]⟩
  | bias ha hf hargs _ =>
    cases h' with
    | bias ha' hf' hargs' _ =>
      have hident : Unique (Word Ident) (Word Ident) ListEnd fun _ => True :=
        Word.unique (fun _ _ => Ident.solid) (fun _ _ => Ident.solid) fun _ _ _ _ _ h h' _ _ _ =>
          ⟨h.2.symm.trans h'.2, trivial⟩
      simp only [render_cons, List.append_assoc] at heq
      obtain ⟨rfl, h₁⟩ := keyword_peel hσ (c := 'B') (by decide) ha ha' heq
      obtain ⟨rfl, h₂⟩ := ident_peel hf hf' h₁
      obtain ⟨rfl, rfl, _⟩ := Enclosed.unique hident hargs hargs' trivial trivial h₂
      exact ⟨rfl, rfl, by simp [ParsedClause.floats], by simp [ParsedClause.orderArgs]⟩
  | orderBy ha hb hf hargs _ hds =>
    cases h' with
    | orderBy ha' hb' hf' hargs' _ hds' =>
      simp only [render_cons, render_append, List.append_assoc] at heq
      obtain ⟨rfl, h₁⟩ := keyword_peel hσ (c := 'O') (by decide) ha ha' heq
      obtain ⟨rfl, h₂⟩ := keyword_peel hσ (c := 'B') (by decide) hb hb' h₁
      obtain ⟨rfl, h₃⟩ := ident_peel hf hf' h₂
      obtain ⟨rfl, h₄, ha⟩ := Enclosed.unique hσ.arg hargs hargs' trivial trivial h₃
      obtain ⟨rfl, rfl, _⟩ := direction_unique hσ hds hds' hr hr' h₄
      exact ⟨rfl, rfl, by simp [ParsedClause.floats], ha⟩
  | limit ha hn =>
    cases h' with
    | limit ha' hn' =>
      simp only [render_cons, render_nil, List.append_nil, List.append_assoc] at heq
      obtain ⟨rfl, h₁⟩ := keyword_peel hσ (c := 'L') (by decide) ha ha' heq
      obtain ⟨rfl, rfl⟩ := number_peel hn hn' hr.numEnd hr'.numEnd h₁
      exact ⟨rfl, rfl, by simp [ParsedClause.floats], by simp [ParsedClause.orderArgs]⟩
  | offset ha hn =>
    cases h' with
    | offset ha' hn' =>
      simp only [render_cons, render_nil, List.append_nil, List.append_assoc] at heq
      obtain ⟨rfl, h₁⟩ := keyword_peel hσ (c := 'O') (by decide) ha ha' heq
      obtain ⟨rfl, rfl⟩ := number_peel hn hn' hr.numEnd hr'.numEnd h₁
      exact ⟨rfl, rfl, by simp [ParsedClause.floats], by simp [ParsedClause.orderArgs]⟩
  | within ha hn hm _ =>
    cases h' with
    | within ha' hn' hm' _ =>
      simp only [render_cons, render_nil, List.append_nil, List.append_assoc] at heq
      obtain ⟨rfl, h₁⟩ := within_peel hσ ha ha' heq
      obtain ⟨rfl, h₂⟩ := number_peel hn hn' (keyword_numEnd hσ (c := 'm') hm (by decide))
        (keyword_numEnd Style.canonical_loose (c := 'm') hm' (by decide)) h₁
      obtain ⟨rfl, rfl⟩ := keyword_peel hσ (c := 'm') (by decide) hm hm' h₂
      exact ⟨rfl, rfl, by simp [ParsedClause.floats], by simp [ParsedClause.orderArgs]⟩

/-! ## Lists of clauses -/

/-- The kind of clause that a text in lower case begins with. -/
def kindOf : List Char → Option ClauseKind
  | 'w' :: 'i' :: 't' :: 'h' :: 'i' :: _ => some .within
  | 'w' :: 'i' :: 't' :: 'h' :: _ => some .metadataWhere
  | 'p' :: _ => some .projectOn
  | 'b' :: _ => some .bias
  | 'o' :: 'r' :: _ => some .orderBy
  | 'o' :: _ => some .offset
  | 'l' :: _ => some .limit
  | 'e' :: _ => some .within
  | _ => none

theorem ClauseToks.kindOf {c : ParsedClause α} {ts : List Tok} (h : ClauseToks σ c ts)
    (r : List Char) : kindOf ((body ts ++ r).map Char.toLower) = some c.kind := by
  have hspell : ∀ {k : List Char} {t : Tok}, t.Is (σ.spell k) →
      t.word.map Char.toLower = k.map Char.toLower := fun ht => hσ.spell _ _ ht.2
  cases h with
  | @metadataWhere p a b c ts ha hb hc hp =>
    rw [body_cons, List.append_assoc, List.map_append, hspell ha, render_cons, List.append_assoc]
    -- white space or METADATA is behind WITH
    cases hgap : b.gap with
    | nil =>
      rw [List.nil_append, List.append_assoc, List.map_append, hspell hb]
      rfl
    | cons d g =>
      rcases isSpace_cases (hb.1 d (by rw [hgap]; simp)) with rfl | rfl | rfl | rfl <;> rfl
  | projectOn ha =>
    rw [body_cons, List.append_assoc, List.map_append, hspell ha]
    rfl
  | bias ha =>
    rw [body_cons, List.append_assoc, List.map_append, hspell ha]
    rfl
  | orderBy ha =>
    rw [body_cons, List.append_assoc, List.map_append, hspell ha]
    rfl
  | limit ha =>
    rw [body_cons, List.append_assoc, List.map_append, hspell ha]
    rfl
  | offset ha =>
    rw [body_cons, List.append_assoc, List.map_append, hspell ha]
    rfl
  | within ha =>
    rcases ha with ha | ha
    · rw [body_cons, List.append_assoc, List.map_append, hspell ha]
      rfl
    · rw [body_cons, List.append_assoc, List.map_append, hspell ha]
      rfl

/-- The first token of a clause. -/
theorem ClauseToks.letter {c : ParsedClause α} {ts : List Tok} (h : ClauseToks σ c ts) :
    ∃ t us d v, ts = t :: us ∧ t.Wf ∧ t.word = d :: v ∧
      d.toLower ∈ ['w', 'p', 'b', 'o', 'l', 'e'] := by
  have key : ∀ {t : Tok} {us : List Tok} {d : Char} {v : List Char}, t.Is (σ.spell (d :: v)) →
      isSpace d.toLower = false ∧ d.toLower ∈ ['w', 'p', 'b', 'o', 'l', 'e'] →
      ∃ t' us' e u, t :: us = t' :: us' ∧ t'.Wf ∧ t'.word = e :: u ∧
        e.toLower ∈ ['w', 'p', 'b', 'o', 'l', 'e'] := by
    intro t us d v ht ⟨hspace, hd⟩
    obtain ⟨e, u, heu, he, _⟩ := spelled_cons (hσ.spell _ _ ht.2)
    exact ⟨t, us, e, u, rfl, ht.wf fun w hw => spelled_solid (hσ.spell _ w hw) hspace, heu,
      he ▸ hd⟩
  cases h with
  | metadataWhere ha => exact key (d := 'W') ha (by decide)
  | projectOn ha => exact key (d := 'P') ha (by decide)
  | bias ha => exact key (d := 'B') ha (by decide)
  | orderBy ha => exact key (d := 'O') ha (by decide)
  | limit ha => exact key (d := 'L') ha (by decide)
  | offset ha => exact key (d := 'O') ha (by decide)
  | within ha =>
    rcases ha with ha | ha
    · exact key (d := 'W') ha (by decide)
    · exact key (d := 'E') ha (by decide)

/-- How two clauses begin says that they are of one kind. -/
theorem ClauseToks.kind_eq {c c' : ParsedClause α} {ts ts' : List Tok} (h : ClauseToks σ c ts)
    (h' : ClauseToks Style.canonical c' ts') (heq : render ts ++ r = render ts' ++ r') :
    c.kind = c'.kind := by
  have hkind := h.kindOf hσ r
  have hkind' := h'.kindOf Style.canonical_loose r'
  obtain ⟨t, us, _, _, rfl, hwf, _⟩ := h.letter hσ
  obtain ⟨t', us', _, _, rfl, hwf', _⟩ := h'.letter Style.canonical_loose
  simp only [render_cons, List.append_assoc] at heq
  have hbody := (hwf.peel hwf' heq).2
  rw [body_cons, List.append_assoc] at hkind hkind'
  rw [hbody, hkind'] at hkind
  exact (Option.some.inj hkind).symm

omit [F64Text α] hσ in
/-- A token is no white space. -/
theorem blank_ne_tok {g : List Char} (hg : Blank g) (ht : t.Wf) : g ≠ t.gap ++ (t.word ++ r) := by
  rintro rfl
  obtain ⟨c, v, hcv, hc⟩ := ht.2
  have := hg c (by simp [hcv])
  rw [hc] at this
  cases this

theorem ClausesToks.nextAny {cs : List (ParsedClause α)} {ts : List Tok} {g : List Char}
    (h : ClausesToks σ cs ts) (hg : Blank g) : NextAny (render ts ++ g) := by
  intro c hc
  cases h with
  | nil =>
    rw [render_nil, List.nil_append, ← List.append_nil g, afterGap_append hg] at hc
    cases hc
  | cons hclause =>
    obtain ⟨t, us, d, v, rfl, hwf, hdv, hd⟩ := hclause.letter hσ
    rw [List.cons_append, render_cons, List.append_assoc, List.append_assoc,
      afterGap_append hwf.1, afterGap_of_gapEnd (hwf.gapEnd _), hdv] at hc
    cases hc
    exact hd

/-- Clauses that begin alike and hold the same are written alike, one by one. -/
theorem ClausesToks.unique {cs cs' : List (ParsedClause α)} {ts ts' : List Tok} {g g' : List Char}
    (h : ClausesToks σ cs ts) (h' : ClausesToks Style.canonical cs' ts')
    (hnodup : (cs'.map ParsedClause.kind).Nodup)
    (hsame : ∀ c ∈ cs', (cs.find? fun d => d.kind = c.kind) = some c) (hg : Blank g)
    (hg' : Blank g')
    (heq : render ts ++ g = render ts' ++ g') :
    ts = ts' ∧ g = g' ∧ ∀ c ∈ cs', c.Shares σ := by
  induction h generalizing cs' ts' with
  | nil =>
    cases h' with
    | nil => exact ⟨rfl, by simpa using heq, by simp⟩
    | cons hc' =>
      obtain ⟨t, us, _, _, rfl, hwf, _⟩ := hc'.letter Style.canonical_loose
      simp only [render_nil, List.nil_append, List.cons_append, render_cons, List.append_assoc]
        at heq
      exact absurd heq (blank_ne_tok hg hwf)
  | @cons c cs us vs hc hcs _ ih =>
    cases h' with
    | nil =>
      obtain ⟨t, us, _, _, rfl, hwf, _⟩ := hc.letter hσ
      simp only [render_nil, List.nil_append, List.cons_append, render_cons, List.append_assoc]
        at heq
      exact absurd heq.symm (blank_ne_tok hg' hwf)
    | @cons c' cs' us' vs' hc' hcs' _ =>
      rw [render_append, render_append, List.append_assoc, List.append_assoc] at heq
      have hkind := hc.kind_eq hσ hc' heq
      obtain ⟨hfirst, hrest⟩ := List.forall_mem_cons.mp hsame
      obtain ⟨hnotin, htailnodup⟩ := List.nodup_cons.mp hnodup
      rw [List.find?_cons_of_pos (by simpa using hkind)] at hfirst
      obtain rfl := Option.some.inj hfirst
      obtain ⟨rfl, htail, hshares⟩ := hc.unique hσ hc' (hcs.nextAny hσ hg)
        (hcs'.nextAny Style.canonical_loose hg') heq
      have hlater : ∀ d ∈ cs', (cs.find? fun e => e.kind = d.kind) = some d := by
        intro d hd
        have hne : c.kind ≠ d.kind := fun hk => hnotin (hk ▸ List.mem_map_of_mem hd)
        have := hrest d hd
        rwa [List.find?_cons_of_neg (by simpa using hne)] at this
      obtain ⟨rfl, rfl, hall⟩ := ih hcs' htailnodup hlater htail
      exact ⟨rfl, rfl, List.forall_mem_cons.mpr ⟨hshares, hall⟩⟩

end Unique

/-! ## Queries -/

theorem assemble_find (find : String × SimilarityExpr α) (cs : List (ParsedClause α)) :
    (assemble find cs).find = find.1 ∧ (assemble find cs).similarity = some find.2 := by
  have key : ∀ (cs : List (ParsedClause α)) (q : Query α),
      (cs.foldl (fun q c => (q.add c).getD q) q).find = q.find ∧
        (cs.foldl (fun q c => (q.add c).getD q) q).similarity = q.similarity := by
    intro cs
    induction cs with
    | nil => exact fun q => ⟨rfl, rfl⟩
    | cons c cs ih =>
      intro q
      rw [List.foldl_cons]
      obtain ⟨hfind, hsim⟩ := ih ((q.add c).getD q)
      cases hadd : q.add c with
      | none =>
        rw [hadd] at hfind hsim
        exact ⟨hfind, hsim⟩
      | some q' =>
        obtain ⟨_, hfind', hsim', _⟩ := Query.add_eq_some hadd
        rw [hadd] at hfind hsim
        exact ⟨hfind.trans hfind', hsim.trans hsim'⟩
  exact key cs (Query.start find)

/-- The first clause of a kind counts. -/
theorem assemble_clause (find : String × SimilarityExpr α) (cs : List (ParsedClause α))
    (k : ClauseKind) : (assemble find cs).clause k = cs.find? fun c => c.kind = k := by
  have key : ∀ (cs : List (ParsedClause α)) (q : Query α),
      (cs.foldl (fun q c => (q.add c).getD q) q).clause k =
        (q.clause k).or (cs.find? fun c => c.kind = k) := by
    intro cs
    induction cs with
    | nil => exact fun q => by simp
    | cons c cs ih =>
      intro q
      rw [List.foldl_cons, ih]
      by_cases hk : c.kind = k
      · subst hk
        rw [List.find?_cons_of_pos (by simp)]
        cases hadd : q.add c with
        | none =>
          obtain ⟨d, hd⟩ := Option.isSome_iff_exists.mp (Query.add_eq_none.mp hadd)
          rw [Option.getD_none, hd, Option.some_or, Option.some_or]
        | some q' =>
          obtain ⟨hnone, _, _, hc, _⟩ := Query.add_eq_some hadd
          rw [Option.getD_some, hc, hnone]
          rfl
      · rw [List.find?_cons_of_neg (by simpa using hk)]
        cases hadd : q.add c with
        | none => rfl
        | some q' =>
          obtain ⟨_, _, _, _, hother⟩ := Query.add_eq_some hadd
          rw [Option.getD_some, hother k (Ne.symm hk)]
  rw [assemble, key cs (Query.start find), Query.start_clause, Option.none_or]

theorem find?_of_nodup {cs : List (ParsedClause α)} (h : (cs.map ParsedClause.kind).Nodup)
    {c : ParsedClause α} (hc : c ∈ cs) : (cs.find? fun d => d.kind = c.kind) = some c :=
  (clause_eq_some h).mpr ⟨hc, rfl⟩

/-- A query that is read as such has the tokens it was written with. -/
theorem QueryToks.unique [F64Text α] {σ : Style α} (hσ : σ.Loose) {q : Query α} {ts ts' : List Tok}
    {g g' : List Char} (h : QueryToks σ q ts) (h' : QueryToks Style.canonical q ts') (hg : Blank g)
    (hg' : Blank g') (heq : render ts ++ g = render ts' ++ g') :
    ts = ts' ∧ g = g' ∧ ∀ k c, q.clause k = some c → c.Shares σ := by
  generalize hq : q = q' at h'
  obtain @⟨find, cs, us, vs, hfind, hcs, _⟩ := h
  obtain @⟨find', cs', us', vs', hfind', hcs', hnodup, _⟩ := h'
  obtain rfl : find = find' := by
    have h₁ := congrArg Query.find hq
    have h₂ := congrArg Query.similarity hq
    rw [(assemble_find find cs).1, (assemble_find find' cs').1] at h₁
    rw [(assemble_find find cs).2, (assemble_find find' cs').2] at h₂
    exact Prod.ext h₁ (Option.some.inj h₂)
  have hclause : ∀ k, (cs.find? fun c => c.kind = k) = cs'.find? fun c => c.kind = k := by
    intro k
    rw [← assemble_clause find cs, hq, assemble_clause]
  rw [render_append, render_append, List.append_assoc, List.append_assoc] at heq
  obtain ⟨rfl, htail, _⟩ := find_unique hσ hfind hfind' trivial trivial heq
  obtain ⟨rfl, rfl, hall⟩ := hcs.unique hσ hcs' hnodup
    (fun c hc => (hclause c.kind).trans (find?_of_nodup hnodup hc)) hg hg' htail
  refine ⟨rfl, rfl, fun k c hc => hall c ?_⟩
  rw [assemble_clause] at hc
  exact List.mem_of_find?_eq_some hc

end Tesseract.L5.Vql
