import Mathlib.Data.List.DropRight
import Tesseract.L5Vql.Printed

/-!
# Printing and parsing again

`Display` writes a vector as an empty string, a float without a fraction as an integer, and
a quoted argument without its quotes. A query without these is read back from its text,
and no other.

* `print_parse_iff`: when the text of a parsed query is read as that query.
-/
namespace Tesseract.L5.Vql

open Nom Tok

variable {α : Type}

/-- What `Display` writes of a float that was parsed: `inf`, or its shortest decimal, where
an integer stands without a point. There is no sign and no exponent. -/
class LawfulF64Text (α : Type) [F64Text α] : Prop where
  display_form : ∀ (w : List Char) (x : α), Decimal x w → F64Text.display x = "inf".toList ∨
    IsDigits (F64Text.display x) ∨ IsDecimal (F64Text.display x)
  parse_display : ∀ (w : List Char) (x : α), Decimal x w → IsDecimal (F64Text.display x) →
    F64Text.parse (F64Text.display x) = some x

/-! ## How `Display` writes -/

/-- As in the canonical style, but for floats, arguments and vectors. -/
def Style.printed [F64Text α] : Style α where
  spell keyword w := w = keyword
  tight g := g = []
  float x w := w = F64Text.display x ∧ (w = "inf".toList ∨ IsDigits w ∨ IsDecimal w)
  arg a w := w = a.toList ∧ '\'' ∉ w
  textual _ := True
  valid kinds := kinds.Nodup ∧ (.offset ∈ kinds → .limit ∈ kinds)

section Loose

variable [F64Text α]

theorem digits_no_point {w : List Char} (h : IsDigits w) : '.' ∉ w := fun hmem =>
  absurd (h.2 '.' hmem) (by decide)

theorem decimal_point {w : List Char} (h : IsDecimal w) : '.' ∈ w := by
  obtain ⟨a, b, _, _, rfl⟩ := h
  simp

theorem printed_float_unique : Unique (Word (Style.printed : Style α).float) (Word Decimal) NumEnd
    (Style.printed : Style α).SharesFloat := by
  have hsolid : ∀ (x : α) w, (Style.printed : Style α).float x w → Solid w := by
    intro x w ⟨_, hw⟩
    rcases hw with rfl | hw | hw
    · exact ⟨_, _, rfl, by decide⟩
    · exact hw.solid
    · exact hw.solid
  refine Word.unique hsolid (fun _ _ hx => hx.1.solid) fun x w w' r r' hx hx' hr hr' heq => ?_
  obtain ⟨a, b, ha, hb, rfl⟩ := hx'.1
  rcases hx.2 with rfl | hw | hw
  · -- no digit begins `inf`
    obtain ⟨c, v, rfl⟩ := List.exists_cons_of_ne_nil ha.1
    obtain rfl : 'i' = c := (List.cons.inj heq).1
    exact absurd (ha.2 'i' (by simp)) (by decide)
  · -- an integer ends before the point
    have hpoint : DigitEnd ('.' :: (b ++ r')) := by
      intro c hc
      cases hc
      decide
    rw [List.append_assoc] at heq
    obtain ⟨_, htail⟩ := digits_same hw ha hr.digitEnd hpoint heq
    exact absurd rfl (hr '.' (by rw [htail]; rfl)).2
  · obtain rfl := decimal_same hw hx'.1 hr.digitEnd hr'.digitEnd heq
    exact ⟨rfl, _, hx, hx'⟩

/-- A quoted argument has lost its quotes: no string stands where it is printed. -/
theorem printed_arg_quoted {a : String} {t t' : Tok} {r r' : List Char} (hgap : Blank t.gap)
    (hquote : '\'' ∉ t.word) (ht' : t'.Is (Quoted a)) (hr : ListEnd r)
    (heq : t.gap ++ (t.word ++ r) = t'.gap ++ (t'.word ++ r')) : False := by
  have hspace : ∀ {g : List Char}, Blank g → ∀ c ∈ g, (c != '\'') = true := by
    intro g hg c hc
    rw [bne_iff_ne]
    rintro rfl
    exact absurd (hg '\'' hc) (by decide)
  have hplain : ∀ c ∈ t.gap ++ t.word, (c != '\'') = true := by
    intro c hc
    rcases List.mem_append.mp hc with hc | hc
    · exact hspace hgap c hc
    · rw [bne_iff_ne]
      rintro rfl
      exact hquote hc
  -- up to the quote there is white space only on the right, and more on the left
  have htake := congrArg (List.takeWhile (· != '\'')) heq
  rw [← List.append_assoc, List.takeWhile_append_of_pos hplain,
    List.takeWhile_append_of_pos (hspace ht'.1), ht'.2.1] at htake
  have hright : t'.gap ++ List.takeWhile (· != '\'') (('\'' :: (a.toList ++ ['\''])) ++ r') =
      t'.gap := by simp
  rw [hright] at htake
  obtain ⟨c, hc, hor⟩ := hr
  have hmem : c ∈ r.takeWhile (· != '\'') := by
    have hsplit : r.takeWhile isSpace ++ afterGap r = r := List.takeWhile_append_dropWhile
    rw [← hsplit, List.takeWhile_append_of_pos (hspace (blank_takeWhile r))]
    cases hrest : afterGap r with
    | nil =>
      rw [hrest] at hc
      cases hc
    | cons d v =>
      rw [hrest] at hc
      cases hc
      refine List.mem_append_right _ ?_
      rcases hor with rfl | rfl <;> simp
  have hblank : isSpace c = true := ht'.1 c (by rw [← htake]; exact List.mem_append_right _ hmem)
  rcases hor with rfl | rfl <;> cases hblank

theorem printed_arg_unique : Unique (Word (Style.printed : Style α).arg) (Word OrderByArg) ListEnd
    (Style.printed : Style α).SharesArg := by
  intro a ts ts' r r' ⟨t, hts, ht⟩ ⟨t', hts', ht'⟩ hr hr' heq
  subst hts hts'
  have heq' : t.gap ++ (t.word ++ r) = t'.gap ++ (t'.word ++ r') := by simpa using heq
  obtain ⟨hgap, hword, hquote⟩ := ht
  obtain ⟨hgap', hident | hquoted⟩ := ht'
  · have ht : t.Is (Ident a) := ⟨hgap, hword ▸ hident.2 ▸ hident.1, hword.symm⟩
    obtain ⟨rfl, rfl⟩ := ident_peel ht ⟨hgap', hident⟩ heq'
    exact ⟨rfl, rfl, t.word, ⟨hword, hquote⟩, .inl hident⟩
  · exact (printed_arg_quoted hgap hquote ⟨hgap', hquoted⟩ hr heq').elim

theorem Style.printed_loose : (Style.printed : Style α).Loose where
  spell k w h := by rw [show w = k from h]
  float := printed_float_unique
  arg := printed_arg_unique

end Loose

/-! ## Reading a printed query -/

/-- No vector, no float that is printed without a point, no argument of ORDER BY that is
not an identifier. -/
def Query.Printable [F64Text α] (q : Query α) : Prop :=
  (∀ sim, q.similarity = some sim → sim.vector = none) ∧
  (∀ w, q.metadataWhere = some w → ∀ x ∈ floatsAll w.predicates, '.' ∈ F64Text.display x) ∧
  ∀ o, q.orderBy = some o → ∀ a ∈ o.args, IsIdent a.toList

theorem Query.printable_iff [F64Text α] {q : Query α} : q.Printable ↔
    (∀ sim, q.similarity = some sim → sim.vector = none) ∧
    (∀ c ∈ q.clauses, ∀ x ∈ c.floats, '.' ∈ F64Text.display x) ∧
    ∀ c ∈ q.clauses, ∀ a ∈ c.orderArgs, IsIdent a.toList := by
  refine and_congr_right fun _ => and_congr ?_ ?_
  · constructor
    · intro h c hc x hx
      have hclause := Query.mem_clauses.mp hc
      cases c with
      | metadataWhere v =>
        obtain ⟨w, hw, hwv⟩ := Option.map_eq_some_iff.mp hclause
        cases hwv
        exact h _ hw x hx
      | _ => cases hx
    · intro h w hw x hx
      exact h (.metadataWhere w) (Query.mem_clauses.mpr (congrArg (Option.map _) hw)) x hx
  · constructor
    · intro h c hc a ha
      have hclause := Query.mem_clauses.mp hc
      cases c with
      | orderBy v =>
        obtain ⟨o, ho, hov⟩ := Option.map_eq_some_iff.mp hclause
        cases hov
        exact h _ ho a ha
      | _ => cases ha
    · intro h o ho a ha
      exact h (.orderBy o) (Query.mem_clauses.mpr (congrArg (Option.map _) ho)) a ha

/-! ## Parts of a query -/

section Parts

variable [F64Text α] {σ : Style α}

omit [F64Text α] in
theorem QueryToks.find {q : Query α} {ts : List Tok} (h : QueryToks σ q ts) :
    ∃ find us vs, ts = us ++ vs ∧ FindToks σ find us ∧ q.find = find.1 ∧
      q.similarity = some find.2 := by
  obtain @⟨find, cs, us, vs, hfind, _, _⟩ := h
  exact ⟨find, us, vs, rfl, hfind, assemble_find find cs⟩

/-- A vector takes more tokens than a string. -/
theorem FindToks.no_vector {find : String × SimilarityExpr α} {ts : List Tok}
    (h : FindToks Style.canonical find ts) (hlen : ts.length = 7) : find.2.vector = none := by
  obtain ⟨_, _, _, _, _, _, _, _, hsrc, _⟩ := h
  cases hsrc with
  | text hnone _ => exact hnone
  | vector =>
    simp only [List.length_cons, List.length_append, List.length_nil] at hlen
    omega

/-- The clauses of a query that was parsed may stand in the order in which they are printed. -/
theorem QueryToks.valid {q : Query α} {ts : List Tok} (h : QueryToks Style.canonical q ts) :
    (q.clauses.map ParsedClause.kind).Nodup ∧
      (.offset ∈ q.clauses.map ParsedClause.kind → .limit ∈ q.clauses.map ParsedClause.kind) := by
  obtain @⟨find, cs, _, _, _, _, hnodup, hlimit⟩ := h
  refine ⟨Query.clauses_nodup _, fun hoff => ?_⟩
  have hkind : ∀ k, k ∈ (assemble find cs).clauses.map ParsedClause.kind ↔
      k ∈ cs.map ParsedClause.kind := by
    intro k
    rw [List.mem_map, List.mem_map]
    constructor
    · rintro ⟨c, hc, rfl⟩
      have hclause := Query.mem_clauses.mp hc
      rw [assemble_clause] at hclause
      exact ⟨c, List.mem_of_find?_eq_some hclause, rfl⟩
    · rintro ⟨c, hc, rfl⟩
      refine ⟨c, Query.mem_clauses.mpr ?_, rfl⟩
      rw [assemble_clause, find?_of_nodup hnodup hc]
  exact (hkind _).mpr (hlimit ((hkind _).mp hoff))

omit [F64Text α] in
theorem OrderByArg.no_quote {a : String} {w : List Char} (h : OrderByArg a w) :
    '\'' ∉ a.toList := by
  rcases h with h | h
  · rw [h.2]
    intro hmem
    exact absurd (h.1.word '\'' hmem) (by decide)
  · exact h.2

/-- A query that is read back from its text is printable. -/
theorem printable_of_toks [LawfulF64Text α] {q : Query α} {ts ts' : List Tok} {g : List Char}
    (h : QueryToks Style.canonical q ts) (h' : QueryToks Style.canonical q ts') (hg : Blank g)
    (heq : q.fmt = render ts' ++ g) : q.Printable := by
  -- the text of the printer is in the printed style, and read in the canonical one
  obtain ⟨find, us, vs, hassemble, hus, hlen, hvs, hrender⟩ := query_prints
    (σ := Style.printed) (fun _ => rfl) rfl h
    (fun _ _ x _ ⟨w, hw⟩ => ⟨rfl, LawfulF64Text.display_form w x hw⟩)
    (fun _ _ _ _ ⟨_, hw⟩ => ⟨rfl, hw.no_quote⟩) (fun _ _ => trivial)
  have hprinted : QueryToks Style.printed (assemble find q.clauses) (us ++ vs) :=
    .mk hus hvs h.valid
  rw [hassemble] at hprinted
  obtain ⟨_, _, hshares⟩ := hprinted.unique Style.printed_loose h' blank_nil hg
    (by rw [List.append_nil, hrender, heq])
  refine Query.printable_iff.mpr ⟨fun sim hsim => ?_, fun c hc x hx => ?_, fun c hc a ha => ?_⟩
  · obtain ⟨find', us', vs', rfl, hfind', hname, hsim'⟩ := h'.find
    obtain rfl : find = find' := by
      obtain ⟨h₁, h₂⟩ := assemble_find find q.clauses
      rw [hassemble] at h₁ h₂
      exact Prod.ext (h₁.symm.trans hname) (Option.some.inj (h₂.symm.trans hsim'))
    rw [← hrender, render_append, render_append, List.append_assoc] at heq
    obtain ⟨rfl, _, _⟩ := find_unique Style.printed_loose hus hfind' trivial trivial heq
    obtain rfl := Option.some.inj (hsim.symm.trans hsim')
    exact hfind'.no_vector hlen
  · obtain ⟨w, ⟨rfl, _⟩, hw⟩ := (hshares c.kind c (Query.mem_clauses.mp hc)).1 x hx
    exact decimal_point hw.1
  · obtain ⟨w, ⟨rfl, hquote⟩, hident | hquoted⟩ :=
      (hshares c.kind c (Query.mem_clauses.mp hc)).2 a ha
    · exact hident.1
    · exact absurd (by rw [hquoted.1]; simp) hquote

/-- A printable query is printed in the canonical style. -/
theorem toks_of_printable [LawfulF64Text α] {q : Query α} {ts : List Tok}
    (h : QueryToks Style.canonical q ts) (hq : q.Printable) :
    ∃ us, QueryToks Style.canonical q us ∧ q.fmt = render us := by
  obtain ⟨hvector, hfloats, hargs⟩ := Query.printable_iff.mp hq
  have hfloat : ∀ c ∈ q.clauses, ∀ x ∈ c.floats, (∃ w, Decimal x w) →
      Decimal x (F64Text.display x) := by
    intro c hc x hx ⟨w, hw⟩
    have hpoint := hfloats c hc x hx
    rcases LawfulF64Text.display_form w x hw with hform | hform | hform
    · rw [hform] at hpoint
      exact absurd hpoint (by decide)
    · exact absurd hpoint (digits_no_point hform)
    · exact ⟨hform, LawfulF64Text.parse_display w x hw hform⟩
  obtain ⟨find, us, vs, hassemble, hus, _, hvs, hrender⟩ := query_prints (σ := Style.canonical)
    (fun _ => rfl) rfl h hfloat (fun c hc a ha _ => .inl ⟨hargs c hc a ha, rfl⟩) hvector
  refine ⟨us ++ vs, ?_, hrender.symm⟩
  rw [← hassemble]
  exact .mk hus hvs h.valid

end Parts

section RoundTrip

variable [Nom] [LawfulNom] [F64Text α]

/-- The texts that `parse` reads as a query. -/
theorem parse_eq_ok [NomLocate] {input : String} {q : Query α} : parse input = some (.ok q) ↔
    ∃ ts g, QueryToks Style.canonical q ts ∧ Blank g ∧ input.toList = render ts ++ g := by
  unfold parse
  rw [Option.map_eq_some_iff]
  constructor
  · rintro ⟨r, hr, hok⟩
    cases r with
    | error e => cases hok
    | ok x =>
      obtain ⟨q', rest⟩ := x
      cases hok
      exact (query_eq_ok.mp hr).2
  · intro h
    exact ⟨_, query_eq_ok.mpr ⟨rfl, h⟩, rfl⟩

/-- A query that was parsed is read back from its text exactly if it has no vector, no
float that is printed without a point, and no argument that is not an identifier. -/
theorem print_parse_iff [LawfulF64Text α] [NomLocate] {input : String} {q : Query α}
    (h : parse input = some (.ok q)) : parse q.toString = some (.ok q) ↔ q.Printable := by
  obtain ⟨ts, _, hts, _, _⟩ := parse_eq_ok.mp h
  have htext : q.toString.toList = q.fmt := String.toList_ofList
  rw [parse_eq_ok, htext]
  constructor
  · rintro ⟨ts', g, hts', hg, heq⟩
    exact printable_of_toks hts hts' hg heq
  · intro hq
    obtain ⟨us, hus, hrender⟩ := toks_of_printable hts hq
    exact ⟨us, [], hus, blank_nil, by rw [hrender, List.append_nil]⟩

end RoundTrip

/-! ## Short queries -/

/-- Lines and columns, and no text for an error. -/
@[reducible] def NomLocate.plain : NomLocate where
  locationLine input rest := (input.take (input.length - rest.length)).count '\n' + 1
  getColumn input rest :=
    ((input.take (input.length - rest.length)).reverse.takeWhile (· != '\n')).length + 1
  debug _ _ := ""

/-- A decimal, without zeros behind its last digit: the shortest text of its value. -/
structure Shortest where
  whole : Nat
  fraction : List Char
  deriving DecidableEq

instance : F64Text Shortest where
  parse w := some ⟨Nat.ofDigitChars 10 (w.takeWhile (· != '.')) 0,
    ((w.dropWhile (· != '.')).drop 1).rdropWhile (· == '0')⟩
  display x := (toString x.whole).toList ++ if x.fraction = [] then [] else '.' :: x.fraction

theorem Shortest.parse_eq {a b : List Char} (ha : IsDigits a) :
    F64Text.parse (a ++ '.' :: b) =
      some (⟨Nat.ofDigitChars 10 a 0, b.rdropWhile (· == '0')⟩ : Shortest) := by
  have hdigits : ∀ c ∈ a, (c != '.') = true := by
    intro c hc
    rw [bne_iff_ne]
    rintro rfl
    exact digits_no_point ha hc
  have htake : (a ++ '.' :: b).takeWhile (· != '.') = a := by
    rw [List.takeWhile_append_of_pos hdigits]
    simp
  have hdrop : ((a ++ '.' :: b).dropWhile (· != '.')).drop 1 = b := by
    rw [List.dropWhile_append_of_pos hdigits]
    simp
  show some _ = _
  rw [htake, hdrop]

instance : LawfulF64Text Shortest where
  display_form w x h := by
    obtain ⟨⟨a, b, ha, hb, rfl⟩, hparse⟩ := h
    rw [Shortest.parse_eq ha, Option.some.injEq] at hparse
    subst hparse
    have hwhole := (number_self (Nat.lt_succ_self (Nat.ofDigitChars 10 a 0))).1
    by_cases hnil : b.rdropWhile (· == '0') = []
    · right
      left
      simpa [F64Text.display, hnil] using hwhole
    · right
      right
      refine ⟨_, b.rdropWhile (· == '0'), hwhole, ⟨hnil, fun c hc => ?_⟩, ?_⟩
      · exact hb.2 c ((List.rdropWhile_prefix _ _).subset hc)
      · simp [F64Text.display, hnil]
  parse_display w x h hpoint := by
    obtain ⟨⟨a, b, ha, _, rfl⟩, hparse⟩ := h
    rw [Shortest.parse_eq ha, Option.some.injEq] at hparse
    subst hparse
    have hwhole := number_self (Nat.lt_succ_self (Nat.ofDigitChars 10 a 0))
    by_cases hnil : b.rdropWhile (· == '0') = []
    · refine absurd (decimal_point hpoint) (digits_no_point ?_)
      simpa [F64Text.display, hnil] using hwhole.1
    · have hdisplay : F64Text.display
          (⟨Nat.ofDigitChars 10 a 0, b.rdropWhile (· == '0')⟩ : Shortest) =
          (toString (Nat.ofDigitChars 10 a 0)).toList ++ '.' :: b.rdropWhile (· == '0') := by
        simp [F64Text.display, hnil]
      rw [hdisplay, Shortest.parse_eq hwhole.1, hwhole.2.1, List.rdropWhile_idempotent]

/-- `FIND SIMILARITY(e, VECTOR(0.5))` -/
def findVector : Query Shortest := Query.start ("SIMILARITY", ⟨"e", "", some [⟨0, ['5']⟩]⟩)

/-- `FIND SIMILARITY(e, 'q') WITH METADATA WHERE year >= v ORDER BY score(arg) DESC` -/
def findYear (v : Literal Shortest) (arg : String) : Query Shortest :=
  { Query.start ("SIMILARITY", ⟨"e", "q", none⟩) with
    metadataWhere := some ⟨[.comparison "year" .gte v]⟩, orderBy := some ⟨"score", [arg], true⟩ }

attribute [local instance] Nom.complete NomLocate.plain

/-- A float with a fraction, and an identifier. -/
theorem print_parse_fraction :
    parse ("FIND SIMILARITY(e,'q') WITH METADATA WHERE year>=2020.50" ++
        " ORDER BY score(rank) DESC") =
      some (.ok (findYear (.float ⟨2020, ['5']⟩) "rank")) ∧
    parse (findYear (.float ⟨2020, ['5']⟩) "rank").toString =
      some (.ok (findYear (.float ⟨2020, ['5']⟩) "rank")) := by
  have := Nom.complete_lawful
  have hparse : parse ("FIND SIMILARITY(e,'q') WITH METADATA WHERE year>=2020.50" ++
        " ORDER BY score(rank) DESC") =
      some (.ok (findYear (.float ⟨2020, ['5']⟩) "rank")) := by rfl
  refine ⟨hparse, (print_parse_iff hparse).mpr ⟨?_, ?_, ?_⟩⟩
  · rintro _ ⟨⟩
    rfl
  · rintro _ ⟨⟩ x hx
    cases List.mem_singleton.mp hx
    decide
  · rintro _ ⟨⟩ a ha
    cases List.mem_singleton.mp ha
    exact ⟨'r', ['a', 'n', 'k'], rfl, rfl, List.all_eq_true.mp rfl⟩

/-- A vector is lost, a float is read back as an integer, and an argument with a blank is
not read back. -/
theorem print_parse_fails :
    (parse "FIND SIMILARITY(e, VECTOR(0.5))" = some (.ok findVector) ∧
      parse findVector.toString ≠ some (.ok findVector)) ∧
    (parse ("FIND SIMILARITY(e,'q') WITH METADATA WHERE year>=2020.0" ++
          " ORDER BY score(rank) DESC") =
        some (.ok (findYear (.float ⟨2020, []⟩) "rank")) ∧
      parse (findYear (.float ⟨2020, []⟩) "rank").toString ≠
        some (.ok (findYear (.float ⟨2020, []⟩) "rank"))) ∧
    parse ("FIND SIMILARITY(e,'q') WITH METADATA WHERE year>=2020" ++
          " ORDER BY score('a b') DESC") =
        some (.ok (findYear (.integer 2020) "a b")) ∧
      parse (findYear (.integer 2020) "a b").toString ≠
        some (.ok (findYear (.integer 2020) "a b")) := by
  refine ⟨⟨by rfl, fun h => ?_⟩, ⟨by rfl, fun h => ?_⟩, by rfl, fun h => ?_⟩
  · have hread : parse findVector.toString =
        some (.ok { findVector with similarity := some ⟨"e", "", none⟩ }) := by rfl
    rw [hread] at h
    cases h
  · have hread : parse (findYear (.float ⟨2020, []⟩) "rank").toString =
        some (.ok (findYear (.integer 2020) "rank")) := by rfl
    rw [hread] at h
    cases h
  · obtain ⟨e, hread⟩ : ∃ e, parse (α := Shortest) (findYear (.integer 2020) "a b").toString =
        some (.error e) := ⟨_, by rfl⟩
    rw [hread] at h
    cases h

end Tesseract.L5.Vql
