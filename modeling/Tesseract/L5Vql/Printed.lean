import Tesseract.L5Vql.Display
import Tesseract.L5Vql.Unique

/-!
# What is printed is written in a style

`Query.fmt` writes a query that was parsed in every style that knows the keywords, has no
white space where the canonical one has none, and writes floats and arguments as `Display`
does.

* `clause_prints`: a clause.
* `query_prints`: a query, its clauses in the order of the fields.
-/
namespace Tesseract.L5.Vql

open Nom Tok

variable {α : Type}

/-! ## Lists -/

theorem joined_cons_cons {A : Type} (separator : List Char) (fmt : A → List Char) (a b : A)
    (as : List A) : joined separator fmt (a :: b :: as) =
      fmt a ++ (separator ++ joined separator fmt (b :: as)) := by
  simp [joined]

/-- Elements that are written one by one are written as a list. -/
theorem separated_prints {A : Type} {R : A → List Tok → Prop} {S : List Char → Prop}
    (fmt : A → List Char) (hne : ∀ a ts, R a ts → ts ≠ []) {before word : List Char} (hS : S word)
    (hbefore : Blank before) {as : List A} (has : as ≠ [])
    (hR : ∀ a ∈ as, ∀ g, Blank g → ∃ ts, R a ts ∧ lead ts = g ∧ body ts = fmt a) {g : List Char}
    (hg : Blank g) : ∃ ts, Separated R S as ts ∧ ts ≠ [] ∧ lead ts = g ∧
      body ts = joined (before ++ (word ++ [' '])) fmt as := by
  induction as generalizing g with
  | nil => exact absurd rfl has
  | cons a as ih =>
    obtain ⟨ha, has'⟩ := List.forall_mem_cons.mp hR
    obtain ⟨ts, hts, hlead, hbody⟩ := ha g hg
    cases as with
    | nil => exact ⟨ts, .one hts, hne a ts hts, hlead, by simp [joined, hbody]⟩
    | cons b bs =>
      obtain ⟨us, hus, _, hlead', hbody'⟩ := ih (List.cons_ne_nil b bs) has'
        (blank_one (c := ' ') rfl)
      refine ⟨ts ++ ⟨before, word⟩ :: us, .cons hts ⟨hbefore, hS⟩ hus, by simp, ?_, ?_⟩
      · exact (lead_append (hne a ts hts) _).trans hlead
      · rw [joined_cons_cons, body_append (hne a ts hts), render_cons, render_eq us, hlead', hbody,
          hbody']
        simp

theorem Word.ne {A : Type} {W : A → List Char → Prop} (a : A) (ts : List Tok) (h : Word W a ts) :
    ts ≠ [] := by
  obtain ⟨t, rfl, _⟩ := h
  exact List.cons_ne_nil t []

section Prints

variable {σ : Style α} (hspell : ∀ k, σ.spell k k) (htight : σ.tight [])

include htight in
/-- Words in parentheses. -/
theorem enclosed_prints {A : Type} {W : A → List Char → Prop} {fmt : A → List Char} {as : List A}
    (hW : ∀ a ∈ as, W a (fmt a)) {g : List Char} (hg : Blank g) :
    ∃ ts, Enclosed σ (Word W) as ts ∧ lead ts = g ∧
      body ts = "(".toList ++ (joined ", ".toList fmt as ++ ")".toList) := by
  have hclose : (⟨[], [')']⟩ : Tok).Is (· = [')']) := ⟨blank_nil, rfl⟩
  cases as with
  | nil => exact ⟨[⟨g, ['(']⟩, ⟨[], [')']⟩], .mk ⟨hg, rfl⟩ .nil htight hclose htight, rfl, rfl⟩
  | cons a as =>
    obtain ⟨ts, hts, hne, hlead, hbody⟩ := separated_prints (R := Word W) (S := (· = [','])) fmt
      Word.ne
      rfl blank_nil (List.cons_ne_nil a as)
      (fun b hb g hg => ⟨[⟨g, fmt b⟩], ⟨_, rfl, hg, hW b hb⟩, rfl, by simp⟩) blank_nil
    have hfirst : σ.tight (lead (ts ++ [⟨[], [')']⟩])) := by
      rw [lead_append hne, hlead]
      exact htight
    refine ⟨⟨g, ['(']⟩ :: (ts ++ [⟨[], [')']⟩]), .mk ⟨hg, rfl⟩ (.some hts) hfirst hclose htight,
      rfl, ?_⟩
    rw [body_cons, render_append, render_eq ts, hlead, hbody]
    rfl

/-! ## Predicates -/

theorem Ident.self {name : String} {w : List Char} (h : Ident name w) : Ident name name.toList :=
  ⟨h.2 ▸ h.1, rfl⟩

theorem Quoted.self {s : String} (h : '\'' ∉ s.toList) :
    Quoted s ("'".toList ++ s.toList ++ "'".toList) := ⟨by simp, h⟩

theorem number_self {bound n : Nat} (h : n < bound) : Number bound n (toString n).toList := by
  have htext : (toString n).toList = Nat.toDigits 10 n := Nat.toList_repr
  rw [htext]
  refine ⟨⟨Nat.toDigits_ne_nil, fun c hc => ?_⟩, Nat.ofDigitChars_ten_toDigits, h⟩
  exact Nat.isDigit_of_mem_toDigits (by decide) (by decide) hc

variable [F64Text α]

include hspell in
theorem literal_prints {l : Literal α} {w : List Char} (h : LiteralWord Style.canonical l w)
    (hx : ∀ x ∈ l.floats, (∃ w, Decimal x w) → σ.float x (F64Text.display x)) :
    LiteralWord σ l l.fmt := by
  cases l with
  | string s => exact Quoted.self h.2
  | integer i =>
    obtain ⟨n, rfl, hn⟩ := h
    exact ⟨n, rfl, number_self hn.2.2⟩
  | float x => exact hx x (by simp [Literal.floats]) ⟨w, h⟩
  | boolean b => exact hspell _
  | null => exact hspell _

include hspell htight in
theorem predicate_prints {p : Predicate α} {ts : List Tok} (h : PredicateToks Style.canonical p ts)
    (hx : ∀ x ∈ p.floats, (∃ w, Decimal x w) → σ.float x (F64Text.display x)) {g : List Char}
    (hg : Blank g) : ∃ us, PredicateToks σ p us ∧ lead us = g ∧ body us = p.fmt := by
  have hspace : Blank [' '] := blank_one rfl
  cases h with
  | @comparison field operator value f o v hf _ hv =>
    have hop : operator.fmt = operator.spelled := by cases operator <;> rfl
    refine ⟨[⟨g, field.toList⟩, ⟨[' '], operator.spelled⟩, ⟨[' '], value.fmt⟩],
      .comparison ⟨hg, hf.2.self⟩ ⟨hspace, rfl⟩ ⟨hspace, literal_prints hspell hv.2 hx⟩, rfl, ?_⟩
    simp [Predicate.fmt, hop]
  | @isIn field values f k ts hf _ _ hts =>
    have hwords : ∀ l ∈ values, LiteralWord σ l l.fmt := by
      intro l hl
      obtain ⟨_, hlist, _⟩ := hts
      cases hlist with
      | nil => cases hl
      | some hlist =>
        obtain ⟨_, t, _, ht⟩ := hlist.mem l hl
        exact literal_prints hspell ht.2 fun x hmem => hx x (List.mem_flatMap.mpr ⟨l, hl, hmem⟩)
    obtain ⟨us, hus, hlead, hbody⟩ := enclosed_prints htight hwords hspace
    refine ⟨⟨g, field.toList⟩ :: ⟨[' '], "IN".toList⟩ :: us, .isIn ⟨hg, hf.2.self⟩
      ⟨hspace, hspell _⟩ (by simp) hus, rfl, ?_⟩
    simp [Predicate.fmt, render_eq us, hlead, hbody]
  | @between field low high f k l a h hf _ _ hl _ hh =>
    have hlow := literal_prints hspell hl.2 fun x hmem => hx x (List.mem_append_left _ hmem)
    have hhigh := literal_prints hspell hh.2 fun x hmem => hx x (List.mem_append_right _ hmem)
    refine ⟨[⟨g, field.toList⟩, ⟨[' '], "BETWEEN".toList⟩, ⟨[' '], low.fmt⟩, ⟨[' '], "AND".toList⟩,
      ⟨[' '], high.fmt⟩], .between ⟨hg, hf.2.self⟩ ⟨hspace, hspell _⟩ (by simp) ⟨hspace, hlow⟩
        ⟨hspace, hspell _⟩ ⟨hspace, hhigh⟩, rfl, ?_⟩
    simp [Predicate.fmt]
  | @like field pattern f k s hf _ _ hs =>
    refine ⟨[⟨g, field.toList⟩, ⟨[' '], "LIKE".toList⟩,
      ⟨[' '], "'".toList ++ pattern.toList ++ "'".toList⟩],
      .like ⟨hg, hf.2.self⟩ ⟨hspace, hspell _⟩ (by simp) ⟨hspace, Quoted.self hs.2.2⟩, rfl, ?_⟩
    simp [Predicate.fmt]

theorem fmtAll_eq (ps : List (Predicate α)) :
    fmtAll ps = joined " AND ".toList Predicate.fmt ps := by
  have hrest : ∀ ps : List (Predicate α),
      fmtRest ps = ps.flatMap fun p => " AND ".toList ++ p.fmt := by
    intro ps
    induction ps with
    | nil => rfl
    | cons p ps ih => rw [fmtRest_cons, ih, List.flatMap_cons]
  cases ps with
  | nil => rfl
  | cons p ps => rw [fmtAll_cons, hrest, joined]

theorem conjunction_fmt {ps : List (Predicate α)} (h : ps ≠ []) :
    (conjunction ps).fmt = joined " AND ".toList Predicate.fmt ps := by
  match ps with
  | [] => exact absurd rfl h
  | [p] => simp [conjunction, joined]
  | p :: q :: ps =>
    show fmtAll (p :: q :: ps) = _
    rw [fmtAll_eq]

omit [F64Text α] in
theorem PredicateToks.ne {p : Predicate α} {ts : List Tok} (h : PredicateToks σ p ts) :
    ts ≠ [] := by
  cases h <;> simp

include hspell htight in
theorem conjunction_prints {p : Predicate α} {ts : List Tok}
    (h : ConjunctionToks Style.canonical p ts)
    (hx : ∀ x ∈ p.floats, (∃ w, Decimal x w) → σ.float x (F64Text.display x)) {g : List Char}
    (hg : Blank g) : ∃ us, ConjunctionToks σ p us ∧ us ≠ [] ∧ lead us = g ∧ body us = p.fmt := by
  obtain @⟨ps, _, hps⟩ := h
  have hall : ∀ q ∈ ps, ∀ g, Blank g → ∃ us, PredicateToks σ q us ∧ lead us = g ∧
      body us = q.fmt := by
    intro q hq g hg
    obtain ⟨vs, hvs⟩ := hps.mem q hq
    exact predicate_prints hspell htight hvs
      (fun x hmem => hx x ((conjunction_floats ps).mpr ⟨q, hq, hmem⟩)) hg
  obtain ⟨us, hus, hne, hlead, hbody⟩ := separated_prints (S := σ.spell "AND".toList) Predicate.fmt
    (fun _ _ h => h.ne) (hspell _) (blank_one (c := ' ') rfl) hps.ne_nil hall hg
  refine ⟨us, .mk hus, hne, hlead, ?_⟩
  rw [conjunction_fmt hps.ne_nil]
  exact hbody

/-! ## Clauses -/

omit [F64Text α] in
theorem ProjectionToks.ne {p : Projection} {ts : List Tok} (h : ProjectionToks σ p ts) :
    ts ≠ [] := by
  cases h <;> simp

include hspell in
theorem projection_prints {p : Projection} {ts : List Tok}
    (h : ProjectionToks (Style.canonical : Style α) p ts) {g : List Char} (hg : Blank g) :
    ∃ us, ProjectionToks σ p us ∧ lead us = g ∧ body us = p.fmt := by
  have hspace : Blank [' '] := blank_one rfl
  cases h with
  | @function name field n o f c hn _ hf _ =>
    refine ⟨[⟨g, name.toList⟩, ⟨[], ['(']⟩, ⟨[], field.toList⟩, ⟨[], [')']⟩], .function
      ⟨hg, hn.2.self⟩
      ⟨blank_nil, rfl⟩ ⟨blank_nil, hf.2.self⟩ ⟨blank_nil, rfl⟩, rfl, ?_⟩
    simp [Projection.fmt]
  | @aliased field aliasName f k a hf _ _ ha =>
    refine ⟨[⟨g, field.toList⟩, ⟨[' '], "AS".toList⟩, ⟨[' '], aliasName.toList⟩],
      .aliased ⟨hg, hf.2.self⟩ ⟨hspace, hspell _⟩ (by simp) ⟨hspace, ha.2.self⟩, rfl, ?_⟩
    simp [Projection.fmt]
  | @field name f hf =>
    exact ⟨[⟨g, name.toList⟩], .field ⟨hg, hf.2.self⟩, rfl, by simp [Projection.fmt]⟩

omit [F64Text α] in
theorem Enclosed.mem {A : Type} {W : A → List Char → Prop} {as : List A} {ts : List Tok}
    (h : Enclosed σ (Word W) as ts) : ∀ a ∈ as, ∃ w, W a w := by
  obtain ⟨_, hlist, _⟩ := h
  cases hlist with
  | nil => simp
  | some hlist =>
    intro a ha
    obtain ⟨_, t, _, ht⟩ := hlist.mem a ha
    exact ⟨t.word, ht.2⟩

/-- What `Query.fmt` writes of a clause. -/
def ParsedClause.fmt : ParsedClause α → List Char
  | .metadataWhere v => "WITH METADATA WHERE ".toList ++ v.fmt
  | .projectOn v => "PROJECT ON ".toList ++ v.fmt
  | .bias v => "BIAS ".toList ++ v.fmt
  | .orderBy v => "ORDER BY ".toList ++ v.fmt
  | .limit v => "LIMIT ".toList ++ (toString v.count).toList
  | .offset v => "OFFSET ".toList ++ (toString v.count).toList
  | .within v => "WITHIN ".toList ++ (toString v.millis).toList ++ "ms".toList

include hspell htight in
theorem clause_prints {c : ParsedClause α} {ts : List Tok} (h : ClauseToks Style.canonical c ts)
    (hx : ∀ x ∈ c.floats, (∃ w, Decimal x w) → σ.float x (F64Text.display x))
    (ha : ∀ a ∈ c.orderArgs, (∃ w, OrderByArg a w) → σ.arg a a.toList) {g : List Char}
    (hg : Blank g) : ∃ us, ClauseToks σ c us ∧ us ≠ [] ∧ lead us = g ∧ body us = c.fmt := by
  have hspace : Blank [' '] := blank_one rfl
  cases h with
  | @metadataWhere p a b c ts _ _ _ hp =>
    obtain ⟨us, hus, _, hlead, hbody⟩ := conjunction_prints hspell htight hp
      (fun x hmem => hx x (by simpa [ParsedClause.floats, floatsAll] using hmem)) hspace
    refine ⟨⟨g, "WITH".toList⟩ :: ⟨[' '], "METADATA".toList⟩ :: ⟨[' '], "WHERE".toList⟩ :: us,
      .metadataWhere ⟨hg, hspell _⟩ ⟨hspace, hspell _⟩ ⟨hspace, hspell _⟩ hus, by simp, rfl, ?_⟩
    have hfmt : (MetadataWhere.mk [p]).fmt = p.fmt := List.append_nil p.fmt
    show _ = "WITH METADATA WHERE ".toList ++ (MetadataWhere.mk [p]).fmt
    simp [hfmt, render_eq us, hlead, hbody]
  | @projectOn ps a b ts _ _ hps =>
    obtain ⟨us, hus, _, hlead, hbody⟩ := separated_prints (S := (· = [','])) Projection.fmt
      (fun _ _ h => h.ne) rfl blank_nil hps.ne_nil
      (fun p hp g hg => (hps.mem p hp).elim fun _ hts => projection_prints hspell hts hg) hspace
    refine ⟨⟨g, "PROJECT".toList⟩ :: ⟨[' '], "ON".toList⟩ :: us, .projectOn ⟨hg, hspell _⟩
      ⟨hspace, hspell _⟩ hus, by simp, rfl, ?_⟩
    show _ = "PROJECT ON ".toList ++ joined ", ".toList Projection.fmt ps
    simp [render_eq us, hlead, hbody]
  | @bias scoringFn args a f ts _ hf hargs _ =>
    obtain ⟨us, hus, hlead, hbody⟩ := enclosed_prints (W := Ident) htight
      (fun a ha => (hargs.mem a ha).elim fun _ h => h.self) blank_nil
    refine ⟨⟨g, "BIAS".toList⟩ :: ⟨[' '], scoringFn.toList⟩ :: us, .bias ⟨hg, hspell _⟩
      ⟨hspace, hf.2.self⟩ hus (hlead ▸ htight), by simp, rfl, ?_⟩
    show _ = "BIAS ".toList ++ (Bias.mk scoringFn args).fmt
    simp [Bias.fmt, render_eq us, hlead, hbody]
  | @orderBy scoringFn args descending a b f ts ds _ _ hf hargs _ _ =>
    have hwords : ∀ a ∈ args, σ.arg a a.toList := fun a hmem => ha a hmem (hargs.mem a hmem)
    obtain ⟨us, hus, hlead, hbody⟩ := enclosed_prints htight hwords blank_nil
    obtain ⟨vs, hvs, hrender⟩ : ∃ vs, DirectionToks σ descending vs ∧
        render vs = if descending then " DESC".toList else [] := by
      cases descending with
      | false => exact ⟨[], .none, rfl⟩
      | true => exact ⟨[⟨[' '], "DESC".toList⟩], .desc ⟨hspace, hspell _⟩, rfl⟩
    refine ⟨⟨g, "ORDER".toList⟩ :: ⟨[' '], "BY".toList⟩ :: ⟨[' '], scoringFn.toList⟩ :: (us ++ vs),
      .orderBy ⟨hg, hspell _⟩ ⟨hspace, hspell _⟩ ⟨hspace, hf.2.self⟩ hus (hlead ▸ htight)
        hvs, by simp,
      rfl, ?_⟩
    have hfmt : (OrderBy.mk scoringFn args descending).fmt = scoringFn.toList ++ "(".toList ++
        joined ", ".toList String.toList args ++ ")".toList ++ render vs := by
      rw [hrender]
      rfl
    show _ = "ORDER BY ".toList ++ (OrderBy.mk scoringFn args descending).fmt
    simp [hfmt, render_eq us, hlead, hbody]
  | @limit count a n _ hn =>
    refine ⟨[⟨g, "LIMIT".toList⟩, ⟨[' '], (toString count).toList⟩], .limit ⟨hg, hspell _⟩
      ⟨hspace, number_self hn.2.2.2⟩, by simp, rfl, ?_⟩
    show _ = "LIMIT ".toList ++ (toString count).toList
    simp
  | @offset count a n _ hn =>
    refine ⟨[⟨g, "OFFSET".toList⟩, ⟨[' '], (toString count).toList⟩], .offset ⟨hg, hspell _⟩
      ⟨hspace, number_self hn.2.2.2⟩, by simp, rfl, ?_⟩
    show _ = "OFFSET ".toList ++ (toString count).toList
    simp
  | @within millis a n m _ hn _ _ =>
    refine ⟨[⟨g, "WITHIN".toList⟩, ⟨[' '], (toString millis).toList⟩, ⟨[], "ms".toList⟩],
      .within (.inl ⟨hg, hspell _⟩) ⟨hspace, number_self hn.2.2.2⟩ ⟨blank_nil, hspell _⟩
        htight, by simp,
      rfl, ?_⟩
    show _ = "WITHIN ".toList ++ (toString millis).toList ++ "ms".toList
    simp

/-! ## Queries -/

/-- The clauses of a query in the order in which they are written. -/
def Query.clauses (q : Query α) : List (ParsedClause α) :=
  [ClauseKind.metadataWhere, .projectOn, .bias, .orderBy, .limit, .offset, .within].filterMap
    q.clause

omit [F64Text α] in
theorem Query.mem_clauses {q : Query α} {c : ParsedClause α} :
    c ∈ q.clauses ↔ q.clause c.kind = some c := by
  rw [Query.clauses, List.mem_filterMap]
  constructor
  · rintro ⟨k, _, hk⟩
    rwa [Query.clause_kind hk]
  · intro h
    refine ⟨c.kind, ?_, h⟩
    cases c.kind <;> simp

omit [F64Text α] in
theorem Query.clauses_nodup (q : Query α) : (q.clauses.map ParsedClause.kind).Nodup := by
  have key : ∀ ks : List ClauseKind, ks.Nodup →
      ((ks.filterMap q.clause).map ParsedClause.kind).Nodup := by
    intro ks hks
    have hsub : ((ks.filterMap q.clause).map ParsedClause.kind).Sublist ks := by
      clear hks
      induction ks with
      | nil => exact .slnil
      | cons k ks ih =>
        cases hk : q.clause k with
        | none =>
          rw [List.filterMap_cons_none hk]
          exact ih.cons k
        | some c =>
          rw [List.filterMap_cons_some hk, List.map_cons, Query.clause_kind hk]
          exact ih.cons_cons k
    exact hks.sublist hsub
  exact key _ (by decide)

omit [F64Text α] in
/-- A query with its similarity is assembled from its clauses. -/
theorem Query.assemble_clauses {q : Query α} {sim : SimilarityExpr α}
    (h : q.similarity = some sim) :
    assemble (q.find, sim) q.clauses = q := by
  obtain ⟨hfind, hsim⟩ := assemble_find (q.find, sim) q.clauses
  refine Query.ext_clause hfind (hsim.trans h.symm) fun k => Option.ext fun c => ?_
  rw [assemble_clause, clause_eq_some q.clauses_nodup, Query.mem_clauses]
  constructor
  · rintro ⟨hc, rfl⟩
    exact hc
  · intro hc
    obtain rfl := Query.clause_kind hc
    exact ⟨hc, rfl⟩

/-- Each clause on a line of its own. -/
theorem fmt_eq_clauses {q : Query α} {sim : SimilarityExpr α} (h : q.similarity = some sim) :
    q.fmt = "FIND ".toList ++ q.find.toList ++ ("(".toList ++ sim.field.toList ++ ", '".toList ++
      sim.queryText.toList ++ "')".toList) ++
        q.clauses.flatMap fun c => "\n  ".toList ++ c.fmt := by
  have hopt : ∀ {A : Type} (f : A → ParsedClause α) (fmt : A → List Char) (o : Option A)
      (ks : List ClauseKind) (k : ClauseKind), q.clause k = o.map f →
      (∀ a, fmt a = "\n  ".toList ++ (f a).fmt) →
      ((k :: ks).filterMap q.clause).flatMap (fun c => "\n  ".toList ++ c.fmt) =
        written fmt o ++ (ks.filterMap q.clause).flatMap fun c => "\n  ".toList ++ c.fmt := by
    intro A f fmt o ks k hk hfmt
    cases o with
    | none =>
      rw [List.filterMap_cons_none hk]
      rfl
    | some a =>
      rw [List.filterMap_cons_some hk, List.flatMap_cons, ← hfmt]
      rfl
  rw [Query.clauses, hopt .metadataWhere _ q.metadataWhere _ _ rfl fun _ => rfl,
    hopt .projectOn _ q.projectOn _ _ rfl fun _ => rfl, hopt .bias _ q.bias _ _ rfl fun _ => rfl,
    hopt .orderBy _ q.orderBy _ _ rfl fun _ => rfl, hopt .limit _ q.limit _ _ rfl fun _ => rfl,
    hopt .offset _ q.offset _ _ rfl fun _ => rfl, hopt .within _ q.within _ _ rfl fun _ => rfl]
  have hsome : ∀ f : SimilarityExpr α → List Char, written f (some sim) = f sim := fun _ => rfl
  delta Query.fmt
  rw [h, hsome]
  simp only [List.append_assoc, List.filterMap_nil, List.flatMap_nil, List.append_nil]
  rfl

include hspell htight in
theorem clauses_prints {cs : List (ParsedClause α)}
    (h : ∀ c ∈ cs, ∃ ts, ClauseToks Style.canonical c ts)
    (hx : ∀ c ∈ cs, ∀ x ∈ c.floats, (∃ w, Decimal x w) → σ.float x (F64Text.display x))
    (ha : ∀ c ∈ cs, ∀ a ∈ c.orderArgs, (∃ w, OrderByArg a w) → σ.arg a a.toList) :
    ∃ ts, ClausesToks σ cs ts ∧ (∀ t ∈ ts.head?, t.gap ≠ []) ∧
      render ts = cs.flatMap fun c => "\n  ".toList ++ c.fmt := by
  have hline : Blank "\n  ".toList := by
    show ∀ c ∈ "\n  ".toList, isSpace c = true
    exact List.all_eq_true.mp rfl
  induction cs with
  | nil => exact ⟨[], .nil, by simp, rfl⟩
  | cons c cs ih =>
    obtain ⟨hc, hcs⟩ := List.forall_mem_cons.mp h
    obtain ⟨hxc, hxcs⟩ := List.forall_mem_cons.mp hx
    obtain ⟨hac, hacs⟩ := List.forall_mem_cons.mp ha
    obtain ⟨us, hus, hgap, hrender⟩ := ih hcs hxcs hacs
    obtain ⟨ts, hts⟩ := hc
    obtain ⟨vs, hvs, hne, hlead, hbody⟩ := clause_prints hspell htight hts hxc hac hline
    obtain ⟨v, vs, rfl⟩ := List.exists_cons_of_ne_nil hne
    refine ⟨v :: vs ++ us, .cons hvs hus fun _ => hgap, ?_, ?_⟩
    · intro t ht
      cases ht
      rw [show v.gap = "\n  ".toList from hlead]
      decide
    · rw [render_append, render_eq (v :: vs), hlead, hbody, hrender, List.flatMap_cons]

omit [F64Text α] in
theorem ClausesToks.mem {cs : List (ParsedClause α)} {ts : List Tok} (h : ClausesToks σ cs ts) :
    ∀ c ∈ cs, ∃ us, ClauseToks σ c us := by
  induction h with
  | nil => simp
  | cons hc _ _ ih => exact List.forall_mem_cons.mpr ⟨⟨_, hc⟩, ih⟩

include hspell htight in
/-- A FIND expression is printed with its text, in seven tokens. -/
theorem find_prints {find : String × SimilarityExpr α} {ts : List Tok}
    (h : FindToks Style.canonical find ts) (htext : σ.textual find.2.vector) :
    ∃ us, FindToks σ find us ∧ us.length = 7 ∧ render us = "FIND ".toList ++ find.1.toList ++
      ("(".toList ++ find.2.field.toList ++ ", '".toList ++ find.2.queryText.toList ++
        "')".toList) := by
  have hspace : Blank [' '] := blank_one rfl
  obtain @⟨findType, field, queryText, vector, _, _, _, i, _, us, _, _, _, htype, _, _, _, hi, _,
    hsrc,
    _⟩ := h
  have hquote : '\'' ∉ queryText.toList := by
    cases hsrc with
    | text _ ht => exact ht.2.2
    | vector => simp
  have hsource : SourceToks σ (queryText, vector)
      [⟨[' '], "'".toList ++ queryText.toList ++ "'".toList⟩] := .text htext
        ⟨hspace, Quoted.self hquote⟩
  refine ⟨[⟨[], "FIND".toList⟩, ⟨[' '], findType.toList⟩,
    ⟨[], ['(']⟩, ⟨[], field.toList⟩, ⟨[], [',']⟩,
    ⟨[' '], "'".toList ++ queryText.toList ++ "'".toList⟩, ⟨[], [')']⟩],
    .mk ⟨blank_nil, hspell _⟩ rfl htype ⟨hspace, hspell _⟩ ⟨blank_nil, rfl⟩ htight
      ⟨blank_nil, hi.2.self⟩ ⟨blank_nil, rfl⟩ hsource ⟨blank_nil, rfl⟩, rfl, ?_⟩
  simp

include hspell htight in
/-- A query that was parsed is printed in the style, clause by clause. -/
theorem query_prints {q : Query α} {ts : List Tok} (h : QueryToks Style.canonical q ts)
    (hx : ∀ c ∈ q.clauses, ∀ x ∈ c.floats, (∃ w, Decimal x w) → σ.float x (F64Text.display x))
    (ha : ∀ c ∈ q.clauses, ∀ a ∈ c.orderArgs, (∃ w, OrderByArg a w) → σ.arg a a.toList)
    (htext : ∀ sim, q.similarity = some sim → σ.textual sim.vector) :
    ∃ find us vs, assemble find q.clauses = q ∧ FindToks σ find us ∧ us.length = 7 ∧
      ClausesToks σ q.clauses vs ∧ render (us ++ vs) = q.fmt := by
  obtain @⟨find, cs, ws, _, hfind, hcs, _⟩ := h
  obtain ⟨hname, hsim⟩ := assemble_find find cs
  have hmem : ∀ c ∈ (assemble find cs).clauses, ∃ ts, ClauseToks Style.canonical c ts := by
    intro c hc
    have hclause := Query.mem_clauses.mp hc
    rw [assemble_clause] at hclause
    exact hcs.mem c (List.mem_of_find?_eq_some hclause)
  obtain ⟨us, hus, hlen, hrender⟩ := find_prints hspell htight hfind (htext _ hsim)
  obtain ⟨vs, hvs, _, hrender'⟩ := clauses_prints hspell htight hmem hx ha
  have hassemble := Query.assemble_clauses hsim
  rw [show ((assemble find cs).find, find.2) = find by rw [hname]] at hassemble
  refine ⟨find, us, vs, hassemble, hus, hlen, hvs, ?_⟩
  rw [fmt_eq_clauses hsim, render_append, hrender, hrender', hname]

end Prints

end Tesseract.L5.Vql
