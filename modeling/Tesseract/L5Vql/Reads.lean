import Tesseract.L5Vql.Words

/-!
# Sentences are read

The parsers of `grammar.rs` read what the grammar derives in the canonical style, each up
to what may follow it. A clause ends where only white space and another clause can follow.
-/
namespace Tesseract.L5.Vql

open Nom Tok

variable {α : Type}

/-! ## Well-formed tokens -/

theorem LiteralWord.solid [F64Text α] {l : Literal α} {w : List Char}
    (h : LiteralWord Style.canonical l w) : Solid w := by
  cases l with
  | string s => exact Quoted.solid h
  | integer i =>
    obtain ⟨n, _, hn⟩ := h
    exact hn.solid
  | float x => exact h.1.solid
  | boolean b =>
    have hw : w = if b then "true".toList else "false".toList := h
    rw [hw]
    cases b
    · exact ⟨_, _, rfl, by decide⟩
    · exact ⟨_, _, rfl, by decide⟩
  | null =>
    have hw : w = "null".toList := h
    rw [hw]
    exact ⟨_, _, rfl, by decide⟩

theorem operator_solid (op : ComparisonOp) : Solid op.spelled := by
  cases op <;> exact ⟨_, _, rfl, by decide⟩

theorem Enclosed.toks {A : Type} [F64Text α] {R : A → List Tok → Prop}
    (hR : ∀ a ts, R a ts → Toks ts)
    {as : List A} {ts : List Tok} (h : Enclosed (Style.canonical : Style α) R as ts) : Toks ts := by
  obtain ⟨ho, hts, _, hc, _⟩ := h
  refine .cons (ho.wf_eq (by decide)) fun u hu => ?_
  rcases List.mem_append.mp hu with hu | hu
  · cases hts with
    | nil => cases hu
    | some hts => exact (hts.toks (by rintro _ rfl; exact ⟨_, _, rfl, by decide⟩) hR).wf u hu
  · rw [List.mem_singleton.mp hu]
    exact hc.wf_eq (by decide)

theorem PredicateToks.toks [F64Text α] {p : Predicate α} {ts : List Tok}
    (h : PredicateToks Style.canonical p ts) : Toks ts := by
  cases h with
  | comparison hf ho hv =>
    refine .cons (hf.wf fun _ => Ident.solid) ?_
    simp only [List.forall_mem_cons]
    exact ⟨⟨ho.1, ho.2 ▸ operator_solid _⟩, hv.wf fun _ => LiteralWord.solid, by simp⟩
  | isIn hf hk _ hts =>
    refine .cons (hf.wf fun _ => Ident.solid) (List.forall_mem_cons.mpr ⟨?_, ?_⟩)
    · exact Is.wf_eq (c := 'I') hk (by decide)
    · exact (hts.toks (Word.toks fun _ _ => LiteralWord.solid)).wf
  | between hf hk _ hl ha hh =>
    refine .cons (hf.wf fun _ => Ident.solid) ?_
    simp only [List.forall_mem_cons]
    exact ⟨Is.wf_eq (c := 'B') hk (by decide), hl.wf fun _ => LiteralWord.solid,
      Is.wf_eq (c := 'A') ha (by decide), hh.wf fun _ => LiteralWord.solid, by simp⟩
  | like hf hk _ hs =>
    refine .cons (hf.wf fun _ => Ident.solid) ?_
    simp only [List.forall_mem_cons]
    exact ⟨Is.wf_eq (c := 'L') hk (by decide), hs.wf fun _ => Quoted.solid, by simp⟩

theorem comma_solid {w : List Char} (h : w = [',']) : Solid w := ⟨',', [], h, by decide⟩

theorem ConjunctionToks.toks [F64Text α] {p : Predicate α} {ts : List Tok}
    (h : ConjunctionToks Style.canonical p ts) : Toks ts := by
  obtain ⟨hps⟩ := h
  exact hps.toks (by rintro _ rfl; exact ⟨_, _, rfl, by decide⟩) fun _ _ => PredicateToks.toks

theorem SourceToks.toks [F64Text α] {x : String × Option (List α)} {ts : List Tok}
    (h : SourceToks Style.canonical x ts) : Toks ts := by
  cases h with
  | text _ ht => exact .single (ht.wf fun _ => Quoted.solid)
  | vector hk ho hts hc =>
    refine .cons (Is.wf_eq (c := 'V') hk (by decide)) ?_
    refine List.forall_mem_cons.mpr ⟨ho.wf_eq (by decide), fun u hu => ?_⟩
    rcases List.mem_append.mp hu with hu | hu
    · cases hts with
      | nil => cases hu
      | some hts =>
        exact (hts.toks (fun _ => comma_solid) (Word.toks fun _ _ h => h.1.solid)).wf u hu
    · rw [List.mem_singleton.mp hu]
      exact hc.wf_eq (by decide)

theorem ProjectionToks.toks [F64Text α] {p : Projection} {ts : List Tok}
    (h : ProjectionToks (Style.canonical : Style α) p ts) : Toks ts := by
  cases h with
  | function hn ho hf hc =>
    refine .cons (hn.wf fun _ => Ident.solid) ?_
    simp only [List.forall_mem_cons]
    exact ⟨ho.wf_eq (by decide), hf.wf fun _ => Ident.solid, hc.wf_eq (by decide), by simp⟩
  | aliased hf hk _ ha =>
    refine .cons (hf.wf fun _ => Ident.solid) ?_
    simp only [List.forall_mem_cons]
    exact ⟨Is.wf_eq (c := 'A') hk (by decide), ha.wf fun _ => Ident.solid, by simp⟩
  | field hf => exact .single (hf.wf fun _ => Ident.solid)

/-! ## What a word begins with -/

theorem operator_next (op : ComparisonOp) (r : List Char) : ∃ c v, op.spelled ++ r = c :: v ∧
    c ∈ ['!', '<', '>', '='] := by
  cases op <;> exact ⟨_, _, rfl, by decide⟩

theorem literal_head [F64Text α] {l : Literal α} {w : List Char}
    (h : LiteralWord Style.canonical l w)
    (r : List Char) : ∀ c ∈ (w ++ r).head?, c ≠ '=' := by
  have hdigits : ∀ {v : List Char}, IsDigits v → ∀ u, ∀ c ∈ (v ++ u).head?, c ≠ '=' := by
    intro v hv u c hc
    obtain ⟨d, v, rfl⟩ := List.exists_cons_of_ne_nil hv.1
    cases hc
    rintro rfl
    exact absurd (hv.2 '=' (by simp)) (by decide)
  intro c hc
  cases l with
  | string s =>
    rw [h.1] at hc
    cases hc
    decide
  | integer i =>
    obtain ⟨n, _, hn⟩ := h
    exact hdigits hn.1 r c hc
  | float x =>
    obtain ⟨a, b, ha, _, hw⟩ := h.1
    rw [hw, List.append_assoc] at hc
    exact hdigits ha _ c hc
  | boolean b =>
    have hw : w = if b then "true".toList else "false".toList := h
    rw [hw] at hc
    cases b <;> cases hc <;> decide
  | null =>
    have hw : w = "null".toList := h
    rw [hw] at hc
    cases hc
    decide

theorem gap_head {g r : List Char} (hg : Blank g) {f : Char → Prop}
    (hf : f ' ' ∧ f '\t' ∧ f '\r' ∧ f '\n') (hr : ∀ c ∈ r.head?, f c) :
    ∀ c ∈ (g ++ r).head?, f c := by
  cases g with
  | nil => exact hr
  | cons d g =>
    intro c hc
    cases hc
    rcases isSpace_cases (hg d (by simp)) with rfl | rfl | rfl | rfl
    · exact hf.1
    · exact hf.2.1
    · exact hf.2.2.1
    · exact hf.2.2.2

/-- White space ends a word. -/
theorem wordEnd_gap {g r : List Char} (hg : Blank g) (h : g ≠ [] ∨ WordEnd r) :
    WordEnd (g ++ r) := by
  cases g with
  | nil => exact h.resolve_left fun hne => hne rfl
  | cons d g =>
    intro c hc
    cases hc
    cases hw : isWord d with
    | false => rfl
    | true => exact absurd (hg d (by simp)) (by simp [isWord_not_space hw])

/-! ## Lists in parentheses -/

/-- White space, a comma or a parenthesis follows. -/
def Closes (r : List Char) : Prop := ∃ c v, r = c :: v ∧ (isSpace c = true ∨ c = ',' ∨ c = ')')

theorem Closes.head {r : List Char} (h : Closes r) {f : Char → Prop}
    (hf : ∀ c, c = ' ' ∨ c = '\t' ∨ c = '\r' ∨ c = '\n' ∨ c = ',' ∨ c = ')' → f c) :
    ∀ c ∈ r.head?, f c := by
  obtain ⟨c, v, rfl, hc⟩ := h
  intro d hd
  cases hd
  apply hf
  rcases hc with hc | hc | hc
  · rcases isSpace_cases hc with hc | hc | hc | hc <;> simp [hc]
  · simp [hc]
  · simp [hc]

theorem Closes.wordEnd {r : List Char} (h : Closes r) : WordEnd r :=
  h.head (by rintro c (rfl | rfl | rfl | rfl | rfl | rfl) <;> decide)

theorem Closes.numEnd {r : List Char} (h : Closes r) : NumEnd r :=
  h.head (by rintro c (rfl | rfl | rfl | rfl | rfl | rfl) <;> decide)

theorem Closes.of_gap {g r : List Char} (hg : Blank g) (hr : Closes r) : Closes (g ++ r) := by
  cases g with
  | nil => exact hr
  | cons c g => exact ⟨c, g ++ r, rfl, .inl (hg c (by simp))⟩

theorem Closes.comma {t : Tok} (h : t.Is (· = [','])) (r : List Char) : Closes (t.full ++ r) := by
  rw [full, List.append_assoc, h.2]
  exact .of_gap h.1 ⟨',', r, rfl, .inr (.inl rfl)⟩

theorem Closes.paren (r : List Char) : Closes ([')'] ++ r) := ⟨')', r, rfl, .inr (.inr rfl)⟩

/-! ## What follows a clause -/

/-- White space, and then the first letter of a clause or nothing. -/
def Next (r : List Char) : Prop := ∀ c ∈ (afterGap r).head?, c ∈ ['W', 'P', 'B', 'O', 'L', 'E']

/-- What may follow a clause. -/
def ClauseEnd (c : ParsedClause α) (r : List Char) : Prop :=
  (c.endsInWord = true → WordEnd r) ∧ Next r

theorem Next.not_starts {r : List Char} (h : Next r) {c : Char} {w : List Char}
    (hc : c ∉ ['W', 'P', 'B', 'O', 'L', 'E']) : ¬ c :: w <+: afterGap r := by
  rintro ⟨t, ht⟩
  exact hc (h c (by rw [← ht]; rfl))

theorem Next.head {r : List Char} (h : Next r) {f : Char → Prop}
    (hf : ∀ c, c ∈ [' ', '\t', '\r', '\n', 'W', 'P', 'B', 'O', 'L', 'E'] → f c) :
    ∀ c ∈ r.head?, f c := by
  intro c hc
  apply hf
  cases hs : isSpace c with
  | true =>
    rcases isSpace_cases hs with rfl | rfl | rfl | rfl <;> simp
  | false =>
    have hgap : GapEnd r := by
      intro d hd
      rw [Option.mem_def.mp hc] at hd
      cases hd
      exact hs
    have hmem := h c (by rw [afterGap_of_gapEnd hgap]; exact hc)
    exact List.mem_append_right [' ', '\t', '\r', '\n'] hmem

theorem Next.numEnd {r : List Char} (h : Next r) : NumEnd r := h.head (by simp)

theorem Next.afterGap {r : List Char} (h : Next r) : ¬ "AND".toList <+: afterGap r :=
  h.not_starts (by decide)

section Reads

variable [Nom] [LawfulNom] [F64Text α]

/-- A list in parentheses is read, whatever follows it. -/
theorem enclosed_reads {A : Type} {p : Parser A} {W : A → List Char → Prop}
    (hW : ∀ a w, W a w → Solid w) (hp : ∀ {a w r}, W a w → Closes r → p (w ++ r) = .ok (a, r))
    (hnil : ∀ r, Rejects p ([')'] ++ r)) :
    Reads (delimited (tag ['(']) (separatedList0 (spaced [',']) p) (tag [')']))
      (Enclosed (Style.canonical : Style α) (Word W)) fun _ _ => True := by
  intro as ts r h _
  obtain ⟨ho, hts, hlead, hc, hgap⟩ := h
  rename_i o ts c
  have hgap : c.gap = [] := hgap
  have hopen : body (o :: (ts ++ [c])) ++ r = ['('] ++ (render ts ++ ([')'] ++ r)) := by
    simp [ho.2, hc.2, hgap]
  have hbody : render ts ++ ([')'] ++ r) = body ts ++ ([')'] ++ r) := by
    cases ts with
    | nil => rfl
    | cons t ts =>
      have ht : t.gap = [] := hlead
      simp [ht]
  have hlist := separatedList0_reads (R := Word W) (E := fun _ r => Closes r)
    (comma_solid rfl) (Word.toks hW) (Reads.word hp) (fun _ r t ht => .comma ht r) hts
    (r := [')'] ++ r) ⟨fun _ => hnil r, fun _ _ => .paren r, not_starts (by decide)⟩
  rw [hopen, hbody]
  unfold delimited
  rw [tag_next, bind_ok hlist, tag_next]
  rfl

/-! ## Predicates -/

/-- A keyword or an operator behind an identifier ends it. -/
theorem identifier_next {name : String} {f k : Tok} {r : List Char} (hf : f.Is (Ident name))
    (hk : k.Wf) (hend : k.gap ≠ [] ∨ WordEnd (k.word ++ r)) :
    identifier (f.word ++ (k.gap ++ (k.word ++ r))) = .ok (name, k.gap ++ (k.word ++ r)) :=
  identifier_reads hf.2 (wordEnd_gap hk.1 hend)

/-- A predicate with another keyword. -/
theorem keyword_rejects {A : Type} {name : String} {f k : Tok} {r kw : List Char}
    {F : String → List Char → List Char → Parser A} (hf : f.Is (Ident name)) (hk : k.Wf)
    (hend : k.gap ≠ [] ∨ WordEnd (k.word ++ r)) (hkw : ¬ kw <+: k.word ++ r) :
    Rejects (identifier >>= fun field => ws >>= fun g => tag kw >>= F field g)
      (f.word ++ (k.gap ++ (k.word ++ r))) := by
  refine Rejects.after (identifier_next hf hk hend) ?_
  refine Rejects.after (multispace0_ok hk.1 (hk.gapEnd r)) ?_
  exact Rejects.bind (tag_rejects hkw)

/-- No literal begins with a parenthesis. -/
theorem literal_paren (r : List Char) : Rejects (literal (α := α)) ([')'] ++ r) := by
  have hend : NumEnd ([')'] ++ r) := by
    intro c hc
    cases hc
    decide
  have hstr : Rejects stringLiteral ([')'] ++ r) := stringLiteral_rejects (by decide)
  have hbool : Rejects booleanLiteral ([')'] ++ r) :=
    booleanLiteral_rejects (by decide) (by decide)
  have hfloat := floatLiteral_rejects (α := α) (w := []) (.inl rfl) hend
  have hint : Rejects integerLiteral ([')'] ++ r) := digits_rejects hend.digitEnd
  obtain ⟨e, he⟩ : Rejects (nullLiteral (α := α)) ([')'] ++ r) :=
    value_rejects (not_starts (by decide))
  exact ⟨e, alt_skip (mapped_rejects hstr) (alt_skip (mapped_rejects hbool)
    (alt_skip (mapped_rejects hfloat) (alt_skip (mapped_rejects hint) (alt_only he))))⟩

/-- One of the four kinds of predicates. -/
def predicate : Parser (Predicate α) :=
  alt [inPredicate, betweenPredicate, likePredicate, comparisonPredicate]

theorem predicate_reads : Reads (predicate (α := α)) (PredicateToks Style.canonical)
    fun _ r => NumEnd r := by
  intro p ts r h hr
  cases h with
  | @comparison field operator value f o v hf ho hv =>
    have hlit : v.Wf := hv.wf fun _ => LiteralWord.solid
    obtain ⟨c, u, hcu, hc⟩ := operator_next operator (v.gap ++ (v.word ++ r))
    have hoWf : o.Wf := ⟨ho.1, ho.2 ▸ operator_solid operator⟩
    have hend : WordEnd (o.word ++ (v.gap ++ (v.word ++ r))) := by
      rw [ho.2, hcu]
      intro d hd
      cases hd
      simp only [List.mem_cons, List.not_mem_nil, or_false] at hc
      rcases hc with rfl | rfl | rfl | rfl <;> decide
    have hkw : ∀ {d : Char} {w : List Char}, d ∉ ['!', '<', '>', '='] →
        ¬ d :: w <+: o.word ++ (v.gap ++ (v.word ++ r)) := by
      intro d w hd
      rw [ho.2, hcu]
      exact not_starts fun heq => hd (heq ▸ hc)
    simp only [body_cons, render_cons, render_nil, List.append_nil, List.append_assoc]
    refine alt_skip (keyword_rejects hf hoWf (.inr hend) (hkw (by decide))) ?_
    refine alt_skip (keyword_rejects hf hoWf (.inr hend) (hkw (by decide))) ?_
    refine alt_skip (keyword_rejects hf hoWf (.inr hend) (hkw (by decide))) (alt_only ?_)
    have hop := comparisonOp_reads operator (r := v.gap ++ (v.word ++ r))
      (gap_head hv.1 (by decide) (literal_head hv.2 r))
    unfold comparisonPredicate ws
    rw [bind_ok (identifier_next hf hoWf (.inr hend)), skip_gap hoWf, ho.2, bind_ok hop,
      skip_gap hlit, bind_ok (literal_reads hv.2 hr)]
    rfl
  | @isIn field values f k ts hf hk hne hts =>
    have hkWf : k.Wf := Is.wf_eq (c := 'I') hk (by decide)
    have htoks := hts.toks (Word.toks fun _ _ => LiteralWord.solid)
    simp only [body_cons, render_cons, List.append_assoc]
    refine alt_first ?_
    have hlist := enclosed_reads (p := literal) (fun _ _ => LiteralWord.solid)
      (fun hw hr => literal_reads hw hr.numEnd) literal_paren hts (r := r) trivial
    unfold inPredicate ws
    rw [bind_ok (identifier_next hf hkWf (.inl hne)), skip_gap hkWf, hk.2, tag_next,
      skip_lead htoks, bind_ok hlist]
    rfl
  | @between field low high f k l a h hf hk hne hl ha hh =>
    have hkWf : k.Wf := Is.wf_eq (c := 'B') hk (by decide)
    have haWf : a.Wf := Is.wf_eq (c := 'A') ha (by decide)
    have hlWf : l.Wf := hl.wf fun _ => LiteralWord.solid
    have hhWf : h.Wf := hh.wf fun _ => LiteralWord.solid
    have hlow : NumEnd (a.gap ++ (a.word ++ (h.gap ++ (h.word ++ r)))) := by
      refine gap_head ha.1 (by decide) ?_
      rw [ha.2]
      intro c hc
      cases hc
      decide
    simp only [body_cons, render_cons, render_nil, List.append_nil, List.append_assoc]
    refine alt_skip (keyword_rejects hf hkWf (.inl hne) ?_) (alt_first ?_)
    · rw [hk.2]
      exact not_starts (by decide)
    · unfold betweenPredicate ws
      rw [bind_ok (identifier_next hf hkWf (.inl hne)), skip_gap hkWf, hk.2, tag_next,
        skip_gap hlWf, bind_ok (literal_reads hl.2 hlow), skip_gap haWf, ha.2, tag_next,
        skip_gap hhWf, bind_ok (literal_reads hh.2 hr)]
      rfl
  | @like field pattern f k s hf hk hne hs =>
    have hkWf : k.Wf := Is.wf_eq (c := 'L') hk (by decide)
    have hsWf : s.Wf := hs.wf fun _ => Quoted.solid
    have hkw : ∀ {d : Char} {w u : List Char}, d ≠ 'L' → ¬ d :: w <+: k.word ++ u := by
      intro d w u hd
      rw [hk.2]
      exact not_starts hd
    simp only [body_cons, render_cons, render_nil, List.append_nil, List.append_assoc]
    refine alt_skip (keyword_rejects hf hkWf (.inl hne) (hkw (by decide))) ?_
    refine alt_skip (keyword_rejects hf hkWf (.inl hne) (hkw (by decide))) (alt_first ?_)
    unfold likePredicate ws
    rw [bind_ok (identifier_next hf hkWf (.inl hne)), skip_gap hkWf, hk.2, tag_next,
      skip_gap hsWf, bind_ok (stringLiteral_reads hs.2)]
    rfl

omit [LawfulNom] in
theorem andExpression_eq (i : List Char) : andExpression (α := α) i =
    (separatedList1 (spaced "AND".toList) predicate i).map fun x => (conjunction x.1, x.2) := by
  cases hx : separatedList1 (spaced "AND".toList) (predicate (α := α)) i with
  | error e =>
    show (separatedList1 (spaced "AND".toList) predicate i >>= _) = _
    rw [hx]
    rfl
  | ok x =>
    obtain ⟨ps, r⟩ := x
    refine (bind_ok hx).trans ?_
    match ps with
    | [] => rfl
    | [p] => rfl
    | p :: q :: ps => rfl

theorem andExpression_reads : Reads (andExpression (α := α)) (ConjunctionToks Style.canonical)
    fun _ r => NumEnd r ∧ ¬ "AND".toList <+: afterGap r := by
  intro p ts r ⟨hps⟩ ⟨hr, hand⟩
  have hlist := separatedList1_reads ⟨_, _, rfl, by decide⟩ (fun _ _ => PredicateToks.toks)
    predicate_reads (w := "AND".toList) (fun _ r t ht => ?_) hps ⟨fun _ _ => hr, hand⟩
  · rw [andExpression_eq, hlist]
    rfl
  · rw [full, List.append_assoc, ht.2]
    refine gap_head ht.1 (by decide) ?_
    intro c hc
    cases hc
    decide

/-! ## FIND -/

theorem vectorLiteral_reads {xs : List α} {k o c : Tok} {ts : List Tok}
    (hk : k.Is (· = "VECTOR".toList)) (ho : o.Is (· = ['(']))
    (hts : Separated0 (Word Decimal) (· = [',']) xs ts) (hc : c.Is (· = [')'])) (r : List Char) :
    vectorLiteral (body (k :: o :: (ts ++ [c])) ++ r) = .ok (xs, r) := by
  have hcWf : c.Wf := hc.wf_eq (by decide)
  have htoks : ∀ (x : α) (ts : List Tok), Word Decimal x ts → Toks ts :=
    Word.toks fun _ _ h => h.1.solid
  -- behind the white space stands the first float, or the parenthesis
  obtain ⟨g, i, hi, hskip, hlist⟩ : ∃ g i, render (ts ++ [c]) ++ r = g ++ i ∧
      multispace0 (g ++ i) = .ok (g, i) ∧
      ∃ r', separatedList0 (spaced [',']) (floatLiteral (α := α)) i = .ok (xs, r') ∧
        ∃ g', multispace0 r' = .ok (g', [')'] ++ r) := by
    have hclose : Closes (c.gap ++ ([')'] ++ r)) := .of_gap hc.1 (.paren r)
    cases hts with
    | nil =>
      refine ⟨c.gap, [')'] ++ r, by simp [hc.2], ?_, [')'] ++ r, ?_, [], ?_⟩
      · rw [← hc.2]
        exact multispace0_ok hc.1 (hcWf.gapEnd r)
      · exact LawfulNom.separatedList0_error _ _ _
          (floatLiteral_rejects (w := []) (.inl rfl) (Closes.paren r).numEnd)
      · rw [← hc.2]
        exact multispace0_ok (g := []) (by simp [Blank]) (hcWf.gapEnd r)
    | some hts =>
      have hT := hts.toks (fun _ => comma_solid) htoks
      refine ⟨lead ts, body ts ++ (c.gap ++ ([')'] ++ r)), ?_, ?_, c.gap ++ ([')'] ++ r), ?_, c.gap,
        ?_⟩
      · simp [render_eq ts, hc.2]
      · exact multispace0_ok hT.lead_blank (hT.gapEnd _)
      · refine separatedList0_reads (E := fun _ r => Closes r) (comma_solid rfl) htoks
          (Reads.word fun hw (hr : Closes _) => floatLiteral_reads hw hr.numEnd.digitEnd)
          (fun _ r t ht => .comma ht r) (.some hts)
          ⟨fun hnil => absurd hnil hts.ne_nil, fun _ _ => hclose, ?_⟩
        rw [afterGap_append hc.1]
        exact not_starts (by decide)
      · rw [← hc.2]
        exact multispace0_ok hc.1 (hcWf.gapEnd r)
  obtain ⟨r', hlist, g', hskip'⟩ := hlist
  have htext : body (k :: o :: (ts ++ [c])) ++ r =
      "VECTOR".toList ++ (o.gap ++ (o.word ++ (g ++ i))) := by
    simp only [body_cons, render_cons, List.append_assoc, hk.2, ← hi]
  rw [htext]
  unfold vectorLiteral ws
  rw [tag_next, skip_gap (ho.wf_eq (by decide)), ho.2, tag_next, bind_ok hskip, bind_ok hlist,
    bind_ok hskip', tag_next]
  rfl

/-- The source of a similarity. -/
def querySource : Parser (String × Option (List α)) :=
  alt [mapped vectorLiteral fun v => ("", some v), mapped stringLiteral fun s => (s, none)]

theorem querySource_reads :
    Reads (querySource (α := α)) (SourceToks Style.canonical) fun _ _ => True := by
  intro x ts r h _
  cases h with
  | @text s v t hv ht =>
    have hv : v = none := hv
    obtain ⟨c, w, hw, _⟩ : ∃ c w, t.word = c :: w ∧ c = '\'' := ⟨_, _, ht.2.1, rfl⟩
    have hvec : Rejects (vectorLiteral (α := α)) (body [t] ++ r) := by
      rw [body_cons, ht.2.1]
      exact Rejects.bind (tag_rejects (not_starts (by decide)))
    rw [hv]
    refine alt_skip (mapped_rejects hvec) (alt_only (mapped_ok (f := fun s => (s, none)) ?_))
    rw [body_cons, render_nil, List.append_nil]
    exact stringLiteral_reads ht.2
  | vector hk ho hts hc =>
    exact alt_first (mapped_ok (f := fun v => ("", some v)) (vectorLiteral_reads hk ho hts hc r))

theorem findType_reads {findType : String}
    (h : findType = "SIMILARITY" ∨ findType = "SEMANTIC") (r : List Char) :
    alt [value "SIMILARITY" (tag "SIMILARITY".toList), value "SEMANTIC" (tag "SEMANTIC".toList)]
      (findType.toList ++ r) = .ok (findType, r) := by
  rcases h with rfl | rfl
  · exact alt_first value_ok
  · have hsim : Rejects (value "SIMILARITY" (tag "SIMILARITY".toList)) ("SEMANTIC".toList ++ r) :=
      value_rejects (by simp)
    exact alt_skip hsim (alt_only value_ok)

/-- What `query` reads first. -/
def findClause : Parser (String × SimilarityExpr α) := do
  let _ ← tag "FIND".toList
  let _ ← ws
  findExpr

theorem findClause_reads {x : String × SimilarityExpr α} {ts : List Tok}
    (h : FindToks Style.canonical x ts) (r : List Char) :
    findClause (render ts ++ r) = .ok (x, r) := by
  obtain ⟨hf, hfgap, htype, hs, ho, hogap, hi, hm, hsrc, hc⟩ := h
  rename_i findType field queryText vector f s o i m us c
  have hogap : o.gap = [] := hogap
  have hsWf : s.Wf := by
    refine ⟨hs.1, ?_⟩
    have hw : s.word = findType.toList := hs.2
    rw [hw]
    rcases htype with rfl | rfl
    · exact ⟨_, _, rfl, by decide⟩
    · exact ⟨_, _, rfl, by decide⟩
  have hmWf : m.Wf := hm.wf_eq (by decide)
  have hcWf : c.Wf := hc.wf_eq (by decide)
  have hcomma : WordEnd (m.word ++ (render us ++ (c.gap ++ (c.word ++ r)))) := by
    rw [hm.2]
    intro d hd
    cases hd
    decide
  have hfindType := findType_reads htype
    (o.word ++
      (i.gap ++ (i.word ++ (m.gap ++ (m.word ++ (render us ++ (c.gap ++ (c.word ++ r))))))))
  have hsource := querySource_reads hsrc (r := c.gap ++ (c.word ++ r)) trivial
  simp only [render_cons, render_append, render_nil, List.append_nil, List.append_assoc, hfgap,
    List.nil_append, hogap]
  unfold findClause findExpr ws
  rw [hf.2, tag_next, skip_gap hsWf, hs.2, bind_ok hfindType, ho.2, tag_next,
    skip_gap (hi.wf fun _ => Ident.solid), bind_ok (identifier_next hi hmWf (.inr hcomma)),
    skip_gap hmWf, hm.2, tag_next, skip_lead hsrc.toks]
  refine (bind_ok hsource).trans ?_
  show (multispace0 >>= _) _ = _
  rw [skip_gap hcWf, hc.2, tag_next]
  rfl

/-! ## Projections -/

/-- What may follow a projection. -/
def ProjectionEnd (p : Projection) (r : List Char) : Prop :=
  (p.endsInWord = true → WordEnd r) ∧ ¬ ['('] <+: afterGap r ∧ ¬ "AS".toList <+: afterGap r

/-- A token with a word in between. -/
theorem preceded_next {A : Type} {p : Parser A} {t : Tok} {a : A} {r : List Char} (ht : t.Wf)
    (hp : p (t.word ++ r) = .ok (a, r)) :
    preceded ws p (t.gap ++ (t.word ++ r)) = .ok (a, r) := by
  unfold preceded ws
  rw [skip_gap ht]
  exact hp

theorem preceded_tag {t : Tok} {w r : List Char} (ht : t.Wf) (hw : t.word = w) :
    preceded ws (tag w) (t.gap ++ (t.word ++ r)) = .ok (w, r) :=
  preceded_next ht (hw ▸ LawfulNom.tag_ok _ _)

theorem preceded_rejects {w r : List Char} (h : ¬ w <+: afterGap r) :
    Rejects (preceded ws (tag w)) r :=
  Rejects.after (multispace0_any r) (tag_rejects h)

theorem projection_reads : Reads projection (ProjectionToks (Style.canonical : Style α))
    ProjectionEnd := by
  intro p ts r h ⟨hword, hparen, has⟩
  have hskip := multispace0_ok (g := []) (by simp [Blank]) (h.toks.gapEnd r)
  refine (bind_ok hskip).trans ?_
  cases h with
  | @function name field n o f c hn ho hf hc =>
    have hoWf : o.Wf := ho.wf_eq (by decide)
    have hcWf : c.Wf := hc.wf_eq (by decide)
    have hfWf : f.Wf := hf.wf fun _ => Ident.solid
    have hopen : WordEnd (o.word ++ (f.gap ++ (f.word ++ (c.gap ++ (c.word ++ r))))) := by
      rw [ho.2]
      intro d hd
      cases hd
      decide
    have hclose : WordEnd (c.word ++ r) := by
      rw [hc.2]
      exact (Closes.paren r).wordEnd
    simp only [body_cons, render_cons, render_nil, List.append_nil, List.append_assoc]
    refine alt_first ?_
    rw [bind_ok (identifier_next hn hoWf (.inr hopen)), bind_ok (preceded_tag hoWf ho.2),
      bind_ok (preceded_next hfWf (identifier_reads hf.2 (wordEnd_gap hc.1 (.inr hclose)))),
      bind_ok (preceded_tag hcWf hc.2)]
    rfl
  | @aliased field aliasName f k a hf hk hne ha =>
    have hkWf : k.Wf := Is.wf_eq (c := 'A') hk (by decide)
    have haWf : a.Wf := ha.wf fun _ => Ident.solid
    have hk' : k.word = "AS".toList := hk.2
    simp only [body_cons, render_cons, render_nil, List.append_nil, List.append_assoc]
    have hident := identifier_next (r := a.gap ++ (a.word ++ r)) hf hkWf (.inl hne)
    refine alt_skip (Rejects.after hident (Rejects.bind (preceded_rejects ?_))) (alt_first ?_)
    · rw [afterGap_append hk.1, afterGap_of_gapEnd (hkWf.gapEnd _), hk']
      exact not_starts (by decide)
    · rw [bind_ok hident, bind_ok (preceded_tag hkWf hk'),
        bind_ok (preceded_next haWf (identifier_reads ha.2 (hword rfl)))]
      rfl
  | @field name f hf =>
    have hident := identifier_reads hf.2 (hword rfl)
    simp only [body_cons, render_nil, List.append_nil]
    exact alt_skip (Rejects.after hident (Rejects.bind (preceded_rejects hparen)))
      (alt_skip (Rejects.after hident (Rejects.bind (preceded_rejects has)))
        (alt_only (mapped_ok hident)))

/-! ## Clauses -/

theorem projectOn_reads {ps : List Projection} {ts : List Tok} {r : List Char}
    (h : Separated (ProjectionToks (Style.canonical : Style α)) (· = [',']) ps ts)
    (hlast : ∀ p ∈ ps.getLast?, p.endsInWord = true → WordEnd r) (hr : Next r) :
    separatedList1 (spaced [',']) projection (body ts ++ r) = .ok (ps, r) := by
  refine separatedList1_reads (comma_solid rfl) (fun _ _ => ProjectionToks.toks) projection_reads
    (fun p r t ht => ?_) h ⟨fun p hp => ⟨hlast p hp, hr.not_starts (by decide),
      hr.not_starts (by decide)⟩, hr.not_starts (by decide)⟩
  have hafter : afterGap (t.full ++ r) = [','] ++ r := by
    rw [full, List.append_assoc, afterGap_append ht.1,
      afterGap_of_gapEnd ((ht.wf_eq (by decide)).gapEnd r), ht.2]
  rw [ProjectionEnd, hafter]
  exact ⟨fun _ => (Closes.comma ht r).wordEnd, not_starts (by decide), not_starts (by decide)⟩

/-- A keyword that another clause begins with. -/
theorem clause_rejects {A B : Type} {w i : List Char} {f : List Char → Parser A} {g : A → B}
    (h : ¬ w <+: i) : Rejects (mapped (tag w >>= f) g) i :=
  mapped_rejects (Rejects.bind (tag_rejects h))

theorem direction_reads {descending : Bool} {ds : List Tok} {r : List Char}
    (h : DirectionToks (Style.canonical : Style α) descending ds) (hr : Next r) :
    ∃ o, opt (preceded ws (alt [value true (tag "DESC".toList), value false (tag "ASC".toList)]))
      (render ds ++ r) = .ok (o, r) ∧ o.getD false = descending := by
  cases h with
  | none =>
    have hdesc : Rejects (value true (tag "DESC".toList)) (afterGap r) :=
      value_rejects (hr.not_starts (by decide))
    obtain ⟨e, he⟩ : Rejects (value false (tag "ASC".toList)) (afterGap r) :=
      value_rejects (hr.not_starts (by decide))
    exact ⟨none, LawfulNom.opt_error _ _ (Rejects.after (multispace0_any r)
      ⟨e, alt_skip hdesc (alt_only he)⟩), rfl⟩
  | @desc d hd =>
    refine ⟨some true, ?_, rfl⟩
    rw [render_cons, render_nil, List.append_nil, List.append_assoc]
    refine LawfulNom.opt_ok _ _ (true, r) (preceded_next (Is.wf_eq (c := 'D') hd (by decide)) ?_)
    rw [hd.2]
    exact alt_first value_ok
  | @asc d hd =>
    refine ⟨some false, ?_, rfl⟩
    rw [render_cons, render_nil, List.append_nil, List.append_assoc]
    refine LawfulNom.opt_ok _ _ (false, r) (preceded_next (Is.wf_eq (c := 'A') hd (by decide)) ?_)
    have hdesc : Rejects (value true (tag "DESC".toList)) ("ASC".toList ++ r) :=
      value_rejects (by simp)
    rw [hd.2]
    exact alt_skip hdesc (alt_only value_ok)

theorem identifier_paren (r : List Char) : Rejects identifier ([')'] ++ r) := by
  cases h : identifier ([')'] ++ r) with
  | error e => exact ⟨e, h⟩
  | ok x =>
    obtain ⟨w, ⟨⟨c, v, rfl, hc, _⟩, _⟩, hi, _⟩ := identifier_sound (r := x.2) h
    cases hi
    exact absurd hc (by decide)

theorem orderByArg_paren (r : List Char) : Rejects orderByArg ([')'] ++ r) := by
  have hstr : Rejects stringLiteral ([')'] ++ r) := stringLiteral_rejects (by decide)
  obtain ⟨e, he⟩ := identifier_paren r
  exact ⟨e, alt_skip hstr (alt_only he)⟩

/-- The name of a function ends where its arguments begin. -/
theorem function_next {name : String} {f : Tok} {ts : List Tok} {A : Type} {R : A → List Tok → Prop}
    {as : List A} {r : List Char} (hf : f.Is (Ident name))
    (hts : Enclosed (Style.canonical : Style α) R as ts) (htight : lead ts = []) :
    identifier (f.word ++ (render ts ++ r)) = .ok (name, body ts ++ r) := by
  rw [render_eq, htight, List.nil_append]
  refine identifier_reads hf.2 ?_
  obtain ⟨ho, _⟩ := hts
  rw [body_cons, ho.2]
  intro c hc
  cases hc
  decide

theorem number_next {n : Nat} {t : Tok} {r : List Char} {A : Type} {f : Nat → Parser A}
    (ht : t.Is (Number (2 ^ 64) n)) (hr : DigitEnd r) :
    (ws >>= fun _ => mapRes (recognize digit1) parseU64 >>= f) (t.gap ++ (t.word ++ r)) =
      f n r := by
  unfold ws
  rw [skip_gap (ht.wf fun _ => Number.solid), bind_ok (number_reads ht.2 hr)]

theorem budgetClause_reads {millis : Nat} {k : List Char} {n m : Tok} {r : List Char}
    (hn : n.Is (Number (2 ^ 64) millis)) (hm : m.Is (· = "ms".toList)) (htight : m.gap = []) :
    budgetClause k (k ++ (n.gap ++ (n.word ++ (m.gap ++ (m.word ++ r))))) = .ok (⟨millis⟩, r) := by
  have hend : DigitEnd ("ms".toList ++ r) := by
    intro c hc
    cases hc
    decide
  rw [htight, List.nil_append, hm.2]
  unfold budgetClause
  rw [tag_next, number_next hn hend, tag_next]
  rfl

/-- `WITHIN` begins like `WITH`. -/
theorem metadataWhere_within (r : List Char) :
    Rejects (metadataWhereClause (α := α)) ("WITHIN".toList ++ r) := by
  have hgap := multispace0_any ("IN".toList ++ r)
  refine Rejects.after (LawfulNom.tag_ok "WITH".toList ("IN".toList ++ r)) ?_
  refine Rejects.after hgap (Rejects.bind (tag_rejects ?_))
  rw [afterGap_of_gapEnd (by intro c hc; cases hc; decide)]
  exact not_starts (by decide)

theorem metadataWhereClause_reads {p : Predicate α} {a b c : Tok} {ts : List Tok} {r : List Char}
    (ha : a.Is (· = "WITH".toList)) (hb : b.Is (· = "METADATA".toList))
    (hc : c.Is (· = "WHERE".toList)) (hp : ConjunctionToks Style.canonical p ts) (hr : Next r) :
    metadataWhereClause (body (a :: b :: c :: ts) ++ r) = .ok (⟨[p]⟩, r) := by
  have hb' : b.Wf := Is.wf_eq (c := 'M') hb (by decide)
  have hc' : c.Wf := Is.wf_eq (c := 'W') hc (by decide)
  simp only [body_cons, render_cons, List.append_assoc]
  unfold metadataWhereClause ws
  rw [ha.2, tag_next, skip_gap hb', hb.2, tag_next, skip_gap hc', hc.2, tag_next,
    skip_lead hp.toks, bind_ok (andExpression_reads hp ⟨hr.numEnd, hr.afterGap⟩)]
  rfl

theorem projectOnClause_reads {ps : List Projection} {a b : Tok} {ts : List Tok} {r : List Char}
    (ha : a.Is (· = "PROJECT".toList)) (hb : b.Is (· = "ON".toList))
    (hps : Separated (ProjectionToks (Style.canonical : Style α)) (· = [',']) ps ts)
    (hword : ps.getLast?.any Projection.endsInWord = true → WordEnd r) (hr : Next r) :
    projectOnClause (body (a :: b :: ts) ++ r) = .ok (⟨ps⟩, r) := by
  have hb' : b.Wf := Is.wf_eq (c := 'O') hb (by decide)
  have htoks := hps.toks (fun _ => comma_solid) fun _ _ => ProjectionToks.toks
  have hlast : ∀ p ∈ ps.getLast?, p.endsInWord = true → WordEnd r := by
    intro p hp hends
    refine hword ?_
    rw [Option.mem_def.mp hp]
    exact hends
  simp only [body_cons, render_cons, List.append_assoc]
  unfold projectOnClause ws
  rw [ha.2, tag_next, skip_gap hb', hb.2, tag_next, skip_lead htoks,
    bind_ok (projectOn_reads hps hlast hr)]
  rfl

theorem biasClause_reads {scoringFn : String} {args : List String} {a f : Tok} {ts : List Tok}
    {r : List Char} (ha : a.Is (· = "BIAS".toList)) (hf : f.Is (Ident scoringFn))
    (hargs : Enclosed (Style.canonical : Style α) (Word Ident) args ts) (htight : lead ts = []) :
    biasClause (body (a :: f :: ts) ++ r) = .ok (⟨scoringFn, args⟩, r) := by
  have hargs' := enclosed_reads (p := identifier) (fun _ _ => Ident.solid)
    (fun hw hr => identifier_reads hw hr.wordEnd) identifier_paren hargs (r := r) trivial
  simp only [body_cons, render_cons, List.append_assoc]
  unfold biasClause ws
  rw [ha.2, tag_next, skip_gap (hf.wf fun _ => Ident.solid),
    bind_ok (function_next hf hargs htight), bind_ok hargs']
  rfl

theorem orderByClause_reads {scoringFn : String} {args : List String} {descending : Bool}
    {a b f : Tok} {ts ds : List Tok} {r : List Char} (ha : a.Is (· = "ORDER".toList))
    (hb : b.Is (· = "BY".toList)) (hf : f.Is (Ident scoringFn))
    (hargs : Enclosed (Style.canonical : Style α) (Word OrderByArg) args ts)
    (htight : lead ts = []) (hds : DirectionToks (Style.canonical : Style α) descending ds)
    (hr : Next r) :
    orderByClause (body (a :: b :: f :: (ts ++ ds)) ++ r) =
      .ok (⟨scoringFn, args, descending⟩, r) := by
  have hb' : b.Wf := Is.wf_eq (c := 'B') hb (by decide)
  have hargs' := enclosed_reads (p := orderByArg) (fun _ _ => OrderByArg.solid)
    (fun hw hr => orderByArg_reads hw hr.wordEnd) orderByArg_paren hargs
    (r := render ds ++ r) trivial
  obtain ⟨o, hdir, ho⟩ := direction_reads hds hr
  simp only [body_cons, render_cons, render_append, List.append_assoc]
  unfold orderByClause ws
  rw [ha.2, tag_next, skip_gap hb', hb.2, tag_next, skip_gap (hf.wf fun _ => Ident.solid),
    bind_ok (function_next hf hargs htight), bind_ok hargs']
  refine (bind_ok hdir).trans ?_
  rw [ho]
  rfl

/-- The clauses that are tried before. -/
theorem other_clause {A B : Type} {a : Tok} {ts : List Tok} {k w r : List Char}
    {f : List Char → Parser A} {g : A → B} (ha : a.Is (· = k)) (h : ∀ u, ¬ w <+: k ++ u) :
    Rejects (mapped (tag w >>= f) g) (body (a :: ts) ++ r) := by
  rw [body_cons, List.append_assoc, ha.2]
  exact clause_rejects (h _)

theorem parseAnyClause_reads : Reads (parseAnyClause (α := α)) (ClauseToks Style.canonical)
    ClauseEnd := by
  intro clause ts r h ⟨hword, hr⟩
  cases h with
  | metadataWhere ha hb hc hp =>
    exact alt_first (mapped_ok (metadataWhereClause_reads ha hb hc hp hr))
  | projectOn ha hb hps =>
    exact alt_skip (other_clause ha (by simp))
      (alt_first (mapped_ok (projectOnClause_reads ha hb hps hword hr)))
  | bias ha hf hargs htight =>
    exact alt_skip (other_clause ha (by simp)) (alt_skip (other_clause ha (by simp))
      (alt_first (mapped_ok (biasClause_reads ha hf hargs htight))))
  | orderBy ha hb hf hargs htight hds =>
    exact alt_skip (other_clause ha (by simp)) (alt_skip (other_clause ha (by simp)) (alt_skip
      (other_clause ha (by simp)) (alt_first (mapped_ok
        (orderByClause_reads ha hb hf hargs htight hds hr)))))
  | @limit count a n ha hn =>
    refine alt_skip (other_clause ha (by simp)) (alt_skip (other_clause ha (by simp)) (alt_skip
      (other_clause ha (by simp)) (alt_skip (other_clause ha (by simp))
        (alt_first (mapped_ok ?_)))))
    simp only [body_cons, render_cons, render_nil, List.append_nil, List.append_assoc]
    unfold limitClause
    rw [ha.2, tag_next, number_next hn hr.numEnd.digitEnd]
    rfl
  | @offset count a n ha hn =>
    refine alt_skip (other_clause ha (by simp)) (alt_skip (other_clause ha (by simp)) (alt_skip
      (other_clause ha (by simp)) (alt_skip (other_clause ha (by simp)) (alt_skip
        (other_clause ha (by simp)) (alt_first (mapped_ok ?_))))))
    simp only [body_cons, render_cons, render_nil, List.append_nil, List.append_assoc]
    unfold offsetClause
    rw [ha.2, tag_next, number_next hn hr.numEnd.digitEnd]
    rfl
  | @within millis a n m ha hn hm htight =>
    have hread : ∀ k, a.word = k → budgetClause k (body [a, n, m] ++ r) = .ok (⟨millis⟩, r) := by
      intro k hk
      simp only [body_cons, render_cons, render_nil, List.append_nil, List.append_assoc, hk]
      exact budgetClause_reads hn hm htight
    rcases ha with ha | ha
    · have hwith : Rejects (metadataWhereClause (α := α)) (body [a, n, m] ++ r) := by
        have hword : a.word = "WITHIN".toList := ha.2
        rw [body_cons, List.append_assoc, hword]
        exact metadataWhere_within _
      refine alt_skip (mapped_rejects hwith) ?_
      exact alt_skip (other_clause ha (by simp)) (alt_skip (other_clause ha (by simp)) (alt_skip
        (other_clause ha (by simp)) (alt_skip (other_clause ha (by simp)) (alt_skip
          (other_clause ha (by simp)) (alt_first (mapped_ok (hread _ ha.2)))))))
    · exact alt_skip (other_clause ha (by simp)) (alt_skip (other_clause ha (by simp)) (alt_skip
        (other_clause ha (by simp)) (alt_skip (other_clause ha (by simp)) (alt_skip
          (other_clause ha (by simp)) (alt_skip (other_clause ha (by simp)) (alt_skip
            (other_clause ha (by simp)) (alt_only (mapped_ok (hread _ ha.2)))))))))

end Reads

end Tesseract.L5.Vql
