import Tesseract.L5Vql.Unique

/-!
# The documented language

The specification lets keywords be in any letter case and white space stand between any two
tokens. The combinators read less.

* `documented_accepted_iff`: a documented sentence is accepted, as the query it stands for,
  exactly if it is written in the canonical style as it is.
-/
namespace Tesseract.L5.Vql

open Nom Tok

/-- A sentence is accepted exactly if its keywords are spelled as in the grammar, no white
space stands where the combinators read none, and no kind of clause is there twice. -/
theorem documented_accepted_iff {α : Type} [Nom] [LawfulNom] [F64Text α] {q : Query α}
    {ts : List Tok} {g : List Char} (h : QueryToks Style.documented q ts) (hg : Blank g) :
    query (render ts ++ g) = some (.ok (q, [])) ↔ QueryToks Style.canonical q ts := by
  constructor
  · intro hquery
    obtain ⟨_, ts', g', hts', hg', heq⟩ := query_eq_ok.mp hquery
    obtain ⟨rfl, _, _⟩ := h.unique Style.documented_loose hts' hg hg' heq
    exact hts'
  · intro hcanonical
    exact query_eq_ok.mpr ⟨rfl, ts, g, hcanonical, hg, rfl⟩

/-- The short query, spelled in some way. -/
theorem shortFind_documented (keyword gap : List Char)
    (hfind : keyword.map Char.toLower = "find".toList) (hgap : Blank gap) :
    QueryToks (Style.documented : Style Lit) (Query.start ("SIMILARITY", ⟨"e", "q", none⟩))
      (shortFind keyword gap ++ []) :=
  .mk (shortFind_toks hfind hgap trivial rfl rfl) .nil trivial

attribute [local instance] Nom.complete in
/-- The query is accepted in its canonical spelling, with white space behind it. -/
theorem documented_accepted_short : query (α := Lit) "FIND SIMILARITY(e, 'q')\n".toList =
    some (.ok (Query.start ("SIMILARITY", ⟨"e", "q", none⟩), [])) := by
  have := Nom.complete_lawful
  have hdocumented := shortFind_documented "FIND".toList [] rfl blank_nil
  have hcanonical : QueryToks (Style.canonical : Style Lit) _ (shortFind "FIND".toList [] ++ []) :=
    .mk (shortFind_toks rfl blank_nil rfl rfl rfl) .nil ⟨by simp, by simp⟩
  have h := (documented_accepted_iff hdocumented (blank_one (c := '\n') rfl)).mpr hcanonical
  exact (congrArg query (by decide)).trans h

/-- `find` in small letters, and white space before the parenthesis: both are documented, and
neither is accepted. -/
theorem documented_rejected : ∃ q : Query Lit,
    (∃ ts, QueryToks Style.documented q ts ∧ render ts = "find SIMILARITY(e, 'q')".toList ∧
      ∃ e, @query Lit Nom.complete _ (render ts) = some (.error e)) ∧
    ∃ ts, QueryToks Style.documented q ts ∧ render ts = "FIND SIMILARITY (e, 'q')".toList ∧
      ∃ e, @query Lit Nom.complete _ (render ts) = some (.error e) := by
  have hlower := shortFind_documented "find".toList [] rfl blank_nil
  have hapart := shortFind_documented "FIND".toList [' '] rfl (blank_one rfl)
  exact ⟨_, ⟨_, hlower, by decide, _, rfl⟩, _, hapart, by decide, _, rfl⟩

end Tesseract.L5.Vql
