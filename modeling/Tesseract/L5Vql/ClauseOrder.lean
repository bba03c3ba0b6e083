import Mathlib.Data.List.Nodup
import Tesseract.L5Vql.Reads

/-!
# The order of clauses

`query` takes the clauses of a text one after the other. Behind FIND any order of them
gives the same query, and a clause of a kind it has already is not accepted.

* `queryLoop_reads`: the loop reads a list of clauses and adds each to the query.
* `clause_order`: distinct clauses may be permuted, a repeated kind is an error.
-/
namespace Tesseract.L5.Vql

open Nom Tok

variable {α : Type}

/-! ## The clauses of a query -/

/-- The clause of a kind that a query has. -/
def Query.clause (q : Query α) : ClauseKind → Option (ParsedClause α)
  | .metadataWhere => q.metadataWhere.map .metadataWhere
  | .projectOn => q.projectOn.map .projectOn
  | .bias => q.bias.map .bias
  | .orderBy => q.orderBy.map .orderBy
  | .limit => q.limit.map .limit
  | .offset => q.offset.map .offset
  | .within => q.within.map .within

theorem Query.ext_clause {q q' : Query α} (hfind : q.find = q'.find)
    (hsim : q.similarity = q'.similarity) (h : ∀ k, q.clause k = q'.clause k) : q = q' := by
  have hw := h .metadataWhere
  have hp := h .projectOn
  have hb := h .bias
  have ho := h .orderBy
  have hl := h .limit
  have hf := h .offset
  have hn := h .within
  cases q
  cases q'
  simp only [Query.clause] at hw hp hb ho hl hf hn hfind hsim
  subst hfind hsim
  rw [Option.map_injective (fun _ _ h => by cases h; rfl) hw,
    Option.map_injective (fun _ _ h => by cases h; rfl) hp,
    Option.map_injective (fun _ _ h => by cases h; rfl) hb,
    Option.map_injective (fun _ _ h => by cases h; rfl) ho,
    Option.map_injective (fun _ _ h => by cases h; rfl) hl,
    Option.map_injective (fun _ _ h => by cases h; rfl) hf,
    Option.map_injective (fun _ _ h => by cases h; rfl) hn]

theorem Query.clause_kind {q : Query α} {k : ClauseKind} {c : ParsedClause α}
    (h : q.clause k = some c) : c.kind = k := by
  cases k <;> obtain ⟨v, _, rfl⟩ := Option.map_eq_some_iff.mp h <;> rfl

/-- A clause of a kind that is there is not added. -/
theorem Query.add_eq_none {q : Query α} {c : ParsedClause α} :
    q.add c = none ↔ (q.clause c.kind).isSome = true := by
  cases c <;> simp [Query.add, Query.clause, ParsedClause.kind, Option.isSome_iff_ne_none]

/-- A clause is added, and nothing else changes. -/
theorem Query.add_eq_some {q q' : Query α} {c : ParsedClause α} (h : q.add c = some q') :
    q.clause c.kind = none ∧ q'.find = q.find ∧ q'.similarity = q.similarity ∧
      q'.clause c.kind = some c ∧ ∀ k, k ≠ c.kind → q'.clause k = q.clause k := by
  have hnone : q.clause c.kind = none := by
    cases hq : q.clause c.kind with
    | none => rfl
    | some d =>
      rw [Query.add_eq_none.mpr (by rw [hq]; rfl)] at h
      cases h
  refine ⟨hnone, ?_⟩
  cases c <;>
  · simp only [Query.clause, ParsedClause.kind, Option.map_eq_none_iff] at hnone
    simp only [Query.add, hnone, Option.isSome_none, Bool.false_eq_true, if_false,
      Option.some.injEq] at h
    subst h
    refine ⟨rfl, rfl, rfl, fun k hk => ?_⟩
    cases k <;> first | rfl | exact absurd rfl hk

/-- The clauses that are added are those of the query behind them. -/
theorem addAll_clause {cs : List (ParsedClause α)} {q q' : Query α}
    (h : cs.foldlM Query.add q = some q') : q'.find = q.find ∧ q'.similarity = q.similarity ∧
      ∀ k, q'.clause k = (q.clause k).or (cs.find? fun c => c.kind = k) := by
  induction cs generalizing q with
  | nil =>
    cases h
    exact ⟨rfl, rfl, fun k => by simp⟩
  | cons c cs ih =>
    rw [List.foldlM_cons, Option.bind_eq_bind, Option.bind_eq_some_iff] at h
    obtain ⟨q₁, hadd, hrest⟩ := h
    obtain ⟨hnone, hfind, hsim, hc, hother⟩ := Query.add_eq_some hadd
    obtain ⟨hfind', hsim', hclause⟩ := ih hrest
    refine ⟨hfind'.trans hfind, hsim'.trans hsim, fun k => ?_⟩
    rw [hclause]
    by_cases hk : c.kind = k
    · subst hk
      rw [hc, hnone, List.find?_cons_of_pos (by simp)]
      rfl
    · rw [hother k (Ne.symm hk), List.find?_cons_of_neg (by simpa using hk)]

/-- Clauses are added exactly when each kind is new. -/
theorem addAll_isSome {cs : List (ParsedClause α)} {q : Query α} :
    (cs.foldlM Query.add q).isSome = true ↔
      (cs.map ParsedClause.kind).Nodup ∧ ∀ c ∈ cs, q.clause c.kind = none := by
  induction cs generalizing q with
  | nil => simp
  | cons c cs ih =>
    rw [List.foldlM_cons, Option.bind_eq_bind, List.map_cons, List.nodup_cons,
      List.forall_mem_cons]
    cases hadd : q.add c with
    | none =>
      have := Query.add_eq_none.mp hadd
      constructor
      · intro h
        cases h
      · intro ⟨_, hnone, _⟩
        rw [hnone] at this
        cases this
    | some q' =>
      obtain ⟨hnone, _, _, hc, hother⟩ := Query.add_eq_some hadd
      rw [Option.bind_some, ih]
      constructor
      · intro ⟨hnodup, hall⟩
        have hnotin : c.kind ∉ cs.map ParsedClause.kind := by
          intro hmem
          obtain ⟨d, hd, hkind⟩ := List.mem_map.mp hmem
          have := hall d hd
          rw [hkind, hc] at this
          cases this
        refine ⟨⟨hnotin, hnodup⟩, hnone, fun d hd => ?_⟩
        have hne : d.kind ≠ c.kind := fun heq => hnotin (heq ▸ List.mem_map_of_mem hd)
        rw [← hother d.kind hne]
        exact hall d hd
      · intro ⟨⟨hnotin, hnodup⟩, _, hall⟩
        refine ⟨hnodup, fun d hd => ?_⟩
        have hne : d.kind ≠ c.kind := fun heq => hnotin (heq ▸ List.mem_map_of_mem hd)
        rw [hother d.kind hne]
        exact hall d hd

theorem Query.start_clause (find : String × SimilarityExpr α) (k : ClauseKind) :
    (Query.start find).clause k = none := by
  cases k <;> rfl

/-- The kinds of clauses of a query are those that were added. -/
theorem addAll_kind {cs : List (ParsedClause α)} {find : String × SimilarityExpr α} {q : Query α}
    (h : cs.foldlM Query.add (Query.start find) = some q) (k : ClauseKind) :
    (q.clause k).isSome = true ↔ k ∈ cs.map ParsedClause.kind := by
  rw [(addAll_clause h).2.2 k, Query.start_clause, Option.none_or, List.find?_isSome, List.mem_map]
  simp

/-- An OFFSET stands with a LIMIT. -/
theorem addAll_limit {cs : List (ParsedClause α)} {find : String × SimilarityExpr α} {q : Query α}
    (h : cs.foldlM Query.add (Query.start find) = some q) :
    (q.offset.isSome = true → q.limit.isSome = true) ↔
      (.offset ∈ cs.map ParsedClause.kind → .limit ∈ cs.map ParsedClause.kind) := by
  rw [← addAll_kind h .offset, ← addAll_kind h .limit]
  simp [Query.clause]

/-- Where clauses can all be added, they are assembled. -/
theorem addAll_assemble {cs : List (ParsedClause α)} {find : String × SimilarityExpr α}
    {q : Query α} (h : cs.foldlM Query.add (Query.start find) = some q) : assemble find cs = q := by
  have key : ∀ (cs : List (ParsedClause α)) (q q' : Query α), cs.foldlM Query.add q = some q' →
      cs.foldl (fun q c => (q.add c).getD q) q = q' := by
    intro cs
    induction cs with
    | nil =>
      intro q q' h
      cases h
      rfl
    | cons c cs ih =>
      intro q q' h
      rw [List.foldlM_cons, Option.bind_eq_bind, Option.bind_eq_some_iff] at h
      obtain ⟨q₁, hadd, hrest⟩ := h
      rw [List.foldl_cons, hadd]
      exact ih q₁ q' hrest
  exact key cs _ q h

/-! ## The loop -/

/-- A clause begins with one of six letters. -/
theorem ClauseToks.first [F64Text α] {c : ParsedClause α} {ts : List Tok}
    (h : ClauseToks Style.canonical c ts) : ∃ t us, ts = t :: us ∧ t.Wf ∧
      ∃ d v, t.word = d :: v ∧ d ∈ ['W', 'P', 'B', 'O', 'L', 'E'] := by
  have key : ∀ {t : Tok} {us : List Tok} {d : Char} {v : List Char}, t.Is (· = d :: v) →
      d ∈ ['W', 'P', 'B', 'O', 'L', 'E'] → ∃ t' us', t :: us = t' :: us' ∧ t'.Wf ∧
        ∃ d v, t'.word = d :: v ∧ d ∈ ['W', 'P', 'B', 'O', 'L', 'E'] := by
    intro t us d v ht hd
    refine ⟨t, us, rfl, ht.wf_eq ?_, d, v, ht.2, hd⟩
    simp only [List.mem_cons, List.not_mem_nil, or_false] at hd
    rcases hd with rfl | rfl | rfl | rfl | rfl | rfl <;> decide
  cases h with
  | metadataWhere ha => exact key (d := 'W') ha (by decide)
  | projectOn ha => exact key (d := 'P') ha (by decide)
  | bias ha => exact key (d := 'B') ha (by decide)
  | orderBy ha => exact key (d := 'O') ha (by decide)
  | limit ha => exact key (d := 'L') ha (by decide)
  | offset ha => exact key (d := 'O') ha (by decide)
  | within ha =>
    rcases ha with ha | ha
    · exact key (d := 'W') ha (by decide)
    · exact key (d := 'E') ha (by decide)

theorem ClausesToks.cases_toks [F64Text α] {cs : List (ParsedClause α)} {ts : List Tok}
    (h : ClausesToks Style.canonical cs ts) : ts = [] ∨ ∃ t us, ts = t :: us ∧ t.Wf ∧
      ∃ d v, t.word = d :: v ∧ d ∈ ['W', 'P', 'B', 'O', 'L', 'E'] := by
  cases h with
  | nil => exact .inl rfl
  | cons hc =>
    obtain ⟨t, us, rfl, hfirst⟩ := hc.first
    exact .inr ⟨t, us ++ _, rfl, hfirst⟩

/-- Behind a clause stand other clauses or nothing. -/
theorem ClausesToks.next [F64Text α] {cs : List (ParsedClause α)} {ts : List Tok} {g : List Char}
    (h : ClausesToks Style.canonical cs ts) (hg : Blank g) : Next (render ts ++ g) := by
  intro c hc
  rcases h.cases_toks with rfl | ⟨t, us, rfl, hwf, d, v, hdv, hd⟩
  · rw [render_nil, List.nil_append, ← List.append_nil g, afterGap_append hg] at hc
    cases hc
  · rw [render_cons, List.append_assoc, List.append_assoc, afterGap_append hwf.1,
      afterGap_of_gapEnd (hwf.gapEnd _), hdv] at hc
    cases hc
    exact hd

/-- A clause is followed by white space where it has to be. -/
theorem ClausesToks.wordEnd [F64Text α] {cs : List (ParsedClause α)} {ts : List Tok} {g : List Char}
    (h : ClausesToks Style.canonical cs ts) (hg : Blank g) (hgap : ∀ t ∈ ts.head?, t.gap ≠ []) :
    WordEnd (render ts ++ g) := by
  rcases h.cases_toks with rfl | ⟨t, us, rfl, hwf, _⟩
  · have := wordEnd_gap hg (r := []) (.inr (by simp [WordEnd]))
    rwa [List.append_nil] at this
  · rw [render_cons, List.append_assoc]
    exact wordEnd_gap hwf.1 (.inl (hgap t rfl))

section Loop

variable [Nom] [LawfulNom] [F64Text α]

theorem blank_skip {g : List Char} (hg : Blank g) : ws g = .ok (g, []) := by
  have := multispace0_ok (r := []) hg (by simp [GapEnd])
  rwa [List.append_nil] at this

omit [LawfulNom] in
/-- A round of the loop, where a clause stands. -/
theorem queryLoop_step {i g rest rest' : List Char} {c : ParsedClause α} {fuel : Nat} {q : Query α}
    (hskip : ws i = .ok (g, rest)) (hne : rest ≠ []) (hc : parseAnyClause rest = .ok (c, rest')) :
    queryLoop (fuel + 1) i q = match q.add c with
      | some q => queryLoop fuel rest' q
      | none => some (.error ⟨rest, .alt⟩) := by
  have hempty : rest.isEmpty = false := by simpa using hne
  cases hadd : q.add c <;>
    simp only [queryLoop, hskip, hempty, Bool.false_eq_true, if_false, hc, hadd]

/-- The loop adds the clauses of a text one by one. -/
theorem queryLoop_reads {cs : List (ParsedClause α)} {ts : List Tok} {g : List Char}
    (h : ClausesToks Style.canonical cs ts) (hg : Blank g) {fuel : Nat} {q : Query α}
    (hfuel : (render ts ++ g).length < fuel) :
    (∀ q', cs.foldlM Query.add q = some q' →
      queryLoop fuel (render ts ++ g) q = some (.ok (q', g))) ∧
    (cs.foldlM Query.add q = none → ∃ e, queryLoop fuel (render ts ++ g) q = some (.error e)) := by
  obtain ⟨fuel, rfl⟩ : ∃ n, fuel = n + 1 := ⟨fuel - 1, by omega⟩
  induction h generalizing fuel q with
  | nil =>
    refine ⟨fun q' hq' => ?_, fun hnone => by cases hnone⟩
    cases hq'
    rw [render_nil, List.nil_append, queryLoop, blank_skip hg]
    rfl
  | @cons c cs ts us hc hcs hgap ih =>
    obtain ⟨t, vs, hts, hwf, d, v, hdv, _⟩ := hc.first
    have hT : GapEnd (body ts ++ (render us ++ g)) := by
      rw [hts, body_cons, List.append_assoc]
      exact hwf.gapEnd _
    have hskip : ws (render (ts ++ us) ++ g) = .ok (lead ts, body ts ++ (render us ++ g)) := by
      have hlead : Blank (lead ts) := hts ▸ hwf.1
      rw [render_append, render_eq ts, List.append_assoc, List.append_assoc]
      exact multispace0_ok hlead hT
    have hne : body ts ++ (render us ++ g) ≠ [] := by
      rw [hts, body_cons, hdv]
      exact List.cons_ne_nil _ _
    have hread := parseAnyClause_reads hc
      ⟨fun hends => hcs.wordEnd hg (hgap hends), hcs.next hg⟩
    rw [queryLoop_step hskip hne hread, List.foldlM_cons, Option.bind_eq_bind]
    cases hadd : q.add c with
    | none =>
      refine ⟨fun q' hq' => ?_, fun _ => ⟨_, rfl⟩⟩
      cases hq'
    | some q₁ =>
      have hlen : (render us ++ g).length < fuel := by
        rw [render_append, hts, render_cons, hdv] at hfuel
        simp only [List.length_append, List.length_cons] at hfuel ⊢
        omega
      obtain ⟨fuel, rfl⟩ : ∃ n, fuel = n + 1 := ⟨fuel - 1, by omega⟩
      exact ih fuel hlen

/-! ## Any order -/

omit [F64Text α] in
/-- Clauses with a LIMIT for their OFFSET pass the check behind the loop. -/
theorem finish_ok {q : Query α} {g : List Char} (hg : Blank g)
    (h : q.offset.isSome = true → q.limit.isSome = true) : finish q g = .ok (q, []) := by
  have hcheck : (q.offset.isSome && q.limit.isNone) = false := by
    cases hoff : q.offset with
    | none => rfl
    | some o =>
      have := h (by rw [hoff]; rfl)
      simp [this]
  rw [finish, blank_skip hg]
  simp [bind, Except.bind, hcheck]

omit [LawfulNom] in
theorem query_eq (i : List Char) : query (α := α) i =
    match findClause i with
    | .error e => some (.error e)
    | .ok (find, remaining) => (queryLoop (remaining.length + 1) remaining (Query.start find)).map
        fun r => r.bind fun x => finish x.1 x.2 := by
  unfold query
  rw [show (do
    let _ ← tag "FIND".toList
    let _ ← ws
    findExpr : Parser (String × SimilarityExpr α)) = findClause from (rfl)]
  cases findClause (α := α) i with
  | error e => rfl
  | ok x => rfl

/-- A text is read as its FIND expression and the clauses that the loop adds. -/
theorem query_reads {find : String × SimilarityExpr α} {cs : List (ParsedClause α)}
    {fts ts : List Tok} {g : List Char} (hfind : FindToks Style.canonical find fts)
    (hcs : ClausesToks Style.canonical cs ts) (hg : Blank g) :
    (∀ q, cs.foldlM Query.add (Query.start find) = some q →
      query (render (fts ++ ts) ++ g) = some (finish q g)) ∧
    (cs.foldlM Query.add (Query.start find) = none →
      ∃ e, query (α := α) (render (fts ++ ts) ++ g) = some (.error e)) := by
  have hread := findClause_reads hfind (render ts ++ g)
  obtain ⟨hok, herr⟩ := queryLoop_reads hcs hg (q := Query.start find)
    (Nat.lt_succ_self (render ts ++ g).length)
  have hquery : query (render (fts ++ ts) ++ g) =
      (queryLoop ((render ts ++ g).length + 1) (render ts ++ g) (Query.start find)).map
        fun r => r.bind fun x => finish x.1 x.2 := by
    rw [render_append, List.append_assoc, query_eq, hread]
  refine ⟨fun q hq => ?_, fun hnone => ?_⟩
  · rw [hquery, hok q hq]
    rfl
  · obtain ⟨e, he⟩ := herr hnone
    rw [hquery, he]
    exact ⟨e, rfl⟩

end Loop

/-- Clauses with white space before each. -/
inductive Spaced [F64Text α] : List (ParsedClause α) → List Tok → Prop
  | nil : Spaced [] []
  | cons {c cs ts us} : ClauseToks Style.canonical c ts → lead ts ≠ [] → Spaced cs us →
      Spaced (c :: cs) (ts ++ us)

theorem Spaced.toks [F64Text α] {cs : List (ParsedClause α)} {ts : List Tok} (h : Spaced cs ts) :
    ClausesToks Style.canonical cs ts ∧ ∀ t ∈ ts.head?, t.gap ≠ [] := by
  induction h with
  | nil => exact ⟨.nil, by simp⟩
  | @cons c cs ts us hc hgap _ ih =>
    refine ⟨.cons hc ih.1 fun _ => ih.2, ?_⟩
    obtain ⟨t, vs, rfl, _⟩ := hc.first
    intro u hu
    cases hu
    exact hgap

/-- The clauses of a query, found by their kinds. -/
theorem clause_eq_some {cs : List (ParsedClause α)} (h : (cs.map ParsedClause.kind).Nodup)
    {k : ClauseKind} {c : ParsedClause α} :
    (cs.find? fun c => c.kind = k) = some c ↔ c ∈ cs ∧ c.kind = k := by
  constructor
  · intro hfind
    exact ⟨List.mem_of_find?_eq_some hfind, by simpa using List.find?_some hfind⟩
  · intro ⟨hmem, hkind⟩
    subst hkind
    cases hd : cs.find? fun d => d.kind = c.kind with
    | none =>
      have := List.find?_eq_none.mp hd c hmem
      simp at this
    | some d =>
      have hkind : d.kind = c.kind := by simpa using List.find?_some hd
      rw [List.inj_on_of_nodup_map h (List.mem_of_find?_eq_some hd) hmem hkind]

/-- Clauses of distinct kinds may stand in any order, each written in any way: the query
that is returned holds these clauses and no others. A text with a kind repeated is not
accepted. -/
theorem clause_order [Nom] [LawfulNom] [F64Text α] {find : String × SimilarityExpr α}
    {fts : List Tok} (hfind : FindToks Style.canonical find fts) (cs : List (ParsedClause α)) :
    ((cs.map ParsedClause.kind).Nodup →
      (.offset ∈ cs.map ParsedClause.kind → .limit ∈ cs.map ParsedClause.kind) →
      ∃ q : Query α, q.find = find.1 ∧ q.similarity = some find.2 ∧
        (∀ k c, q.clause k = some c ↔ c ∈ cs ∧ c.kind = k) ∧
        ∀ cs' ts g, cs'.Perm cs → Spaced cs' ts → Blank g →
          query (render (fts ++ ts) ++ g) = some (.ok (q, []))) ∧
    (¬ (cs.map ParsedClause.kind).Nodup → ∀ ts g, Spaced cs ts → Blank g →
      ∃ e, query (α := α) (render (fts ++ ts) ++ g) = some (.error e)) := by
  constructor
  · intro hnodup hlimit
    have hadd : ∀ {cs' : List (ParsedClause α)}, cs'.Perm cs →
        ∃ q, cs'.foldlM Query.add (Query.start find) = some q := by
      intro cs' hperm
      have := addAll_isSome.mpr ⟨(hperm.map ParsedClause.kind).nodup_iff.mpr hnodup,
        fun c _ => Query.start_clause find c.kind⟩
      exact Option.isSome_iff_exists.mp this
    have hclause : ∀ {cs' : List (ParsedClause α)} {q : Query α}, cs'.Perm cs →
        cs'.foldlM Query.add (Query.start find) = some q →
        ∀ k c, q.clause k = some c ↔ c ∈ cs ∧ c.kind = k := by
      intro cs' q hperm hq k c
      rw [(addAll_clause hq).2.2 k, Query.start_clause, Option.none_or,
        clause_eq_some ((hperm.map ParsedClause.kind).nodup_iff.mpr hnodup), hperm.mem_iff]
    obtain ⟨q, hq⟩ := hadd (.refl cs)
    obtain ⟨hfind', hsim, _⟩ := addAll_clause hq
    refine ⟨q, hfind', hsim, hclause (.refl cs) hq, fun cs' ts g hperm hts hg => ?_⟩
    obtain ⟨q', hq'⟩ := hadd hperm
    obtain ⟨hfind'', hsim', _⟩ := addAll_clause hq'
    -- a query is known by its clauses
    have hsame : q' = q := by
      refine Query.ext_clause (hfind''.trans hfind'.symm) (hsim'.trans hsim.symm) fun k => ?_
      refine Option.ext fun c => ?_
      rw [hclause hperm hq' k c, hclause (.refl cs) hq k c]
    rw [(query_reads hfind hts.toks.1 hg).1 q' hq', hsame]
    exact congrArg some (finish_ok hg ((addAll_limit hq).mpr hlimit))
  · intro hdup ts g hts hg
    refine (query_reads hfind hts.toks.1 hg).2 ?_
    cases hq : cs.foldlM Query.add (Query.start find) with
    | none => rfl
    | some q => exact absurd (addAll_isSome.mp (by rw [hq]; rfl)).1 hdup

theorem blank_nil : Blank [] := by simp [Blank]

theorem blank_one {c : Char} (h : isSpace c = true) : Blank [c] := by simpa [Blank] using h

/-- `FIND SIMILARITY(e, 'q')`, with `FIND` spelled in some way and white space before the
parenthesis. -/
def shortFind (keyword gap : List Char) : List Tok :=
  [⟨[], keyword⟩, ⟨[' '], "SIMILARITY".toList⟩, ⟨gap, ['(']⟩, ⟨[], ['e']⟩, ⟨[], [',']⟩,
    ⟨[' '], "'q'".toList⟩, ⟨[], [')']⟩]

theorem shortFind_toks {σ : Style α} {keyword gap : List Char}
    (hfind : σ.spell "FIND".toList keyword) (hgap : Blank gap) (htight : σ.tight gap)
    (hsim : σ.spell "SIMILARITY".toList "SIMILARITY".toList) (htext : σ.textual none) :
    FindToks σ ("SIMILARITY", ⟨"e", "q", none⟩) (shortFind keyword gap) := by
  have hsource : SourceToks σ ("q", none) [⟨[' '], "'q'".toList⟩] :=
    .text htext ⟨blank_one rfl, rfl, by decide⟩
  exact .mk ⟨blank_nil, hfind⟩ rfl (.inl rfl) ⟨blank_one rfl, hsim⟩ ⟨hgap, rfl⟩ htight
    ⟨blank_nil, ⟨'e', [], rfl, by decide, by simp⟩, rfl⟩ ⟨blank_nil, rfl⟩ hsource ⟨blank_nil, rfl⟩

/-- A clause of a keyword and a digit. -/
theorem limit_toks [F64Text α] {g : List Char} {d : Char} {n : Nat} (hg : Blank g)
    (hd : d.isDigit = true) (hn : Nat.ofDigitChars 10 [d] 0 = n) (hlt : n < 2 ^ 64) :
    ClauseToks (Style.canonical : Style α) (.limit ⟨n⟩) [⟨g, "LIMIT".toList⟩, ⟨[' '], [d]⟩] :=
  .limit ⟨hg, rfl⟩ ⟨blank_one rfl, ⟨by simp, by simpa⟩, hn, hlt⟩

theorem offset_toks [F64Text α] {g : List Char} {d : Char} {n : Nat} (hg : Blank g)
    (hd : d.isDigit = true) (hn : Nat.ofDigitChars 10 [d] 0 = n) (hlt : n < 2 ^ 64) :
    ClauseToks (Style.canonical : Style α) (.offset ⟨n⟩) [⟨g, "OFFSET".toList⟩, ⟨[' '], [d]⟩] :=
  .offset ⟨hg, rfl⟩ ⟨blank_one rfl, ⟨by simp, by simpa⟩, hn, hlt⟩

attribute [local instance] Nom.complete in
/-- A page written in both orders, and one with two limits. -/
theorem clause_order_page : (∃ q : Query Lit, q.limit = some ⟨5⟩ ∧ q.offset = some ⟨2⟩ ∧
      query "FIND SIMILARITY(e, 'q') LIMIT 5 OFFSET 2".toList = some (.ok (q, [])) ∧
      query "FIND SIMILARITY(e, 'q')\nOFFSET 2  LIMIT 5".toList = some (.ok (q, []))) ∧
    ∃ e, query (α := Lit) "FIND SIMILARITY(e, 'q') LIMIT 5 LIMIT 6".toList = some (.error e) := by
  have := Nom.complete_lawful
  have hfind := shortFind_toks (σ := (Style.canonical : Style Lit)) rfl blank_nil rfl rfl rfl
  have hspace : Blank [' '] := blank_one rfl
  have hspaces : Blank [' ', ' '] := by simp [Blank, isSpace]
  have hline : Blank ['\n'] := blank_one rfl
  constructor
  · obtain ⟨q, _, _, hclause, hq⟩ := (clause_order hfind [.limit ⟨5⟩, .offset ⟨2⟩]).1
      (by decide) (by simp [ParsedClause.kind])
    have hl : q.limit = some ⟨5⟩ := by
      simpa [Query.clause] using (hclause .limit (.limit ⟨5⟩)).mpr ⟨by simp, rfl⟩
    have ho : q.offset = some ⟨2⟩ := by
      simpa [Query.clause] using (hclause .offset (.offset ⟨2⟩)).mpr ⟨by simp, rfl⟩
    refine ⟨q, hl, ho, ?_, ?_⟩
    · have h := hq [.limit ⟨5⟩, .offset ⟨2⟩] _ [] (.refl _)
        (.cons (limit_toks (d := '5') hspace rfl rfl (by decide)) (by simp)
          (.cons (offset_toks (d := '2') hspace rfl rfl (by decide)) (by simp) .nil)) blank_nil
      exact (congrArg query (by decide)).trans h
    · have h := hq [.offset ⟨2⟩, .limit ⟨5⟩] _ [] (.swap _ _ [])
        (.cons (offset_toks (d := '2') hline rfl rfl (by decide)) (by simp)
          (.cons (limit_toks (d := '5') hspaces rfl rfl (by decide)) (by simp) .nil)) blank_nil
      exact (congrArg query (by decide)).trans h
  · obtain ⟨e, h⟩ := (clause_order hfind [.limit ⟨5⟩, .limit ⟨6⟩]).2 (by decide) _ []
      (.cons (limit_toks (d := '5') hspace rfl rfl (by decide)) (by simp)
        (.cons (limit_toks (d := '6') hspace rfl rfl (by decide)) (by simp) .nil)) blank_nil
    exact ⟨e, (congrArg query (by decide)).trans h⟩

end Tesseract.L5.Vql
