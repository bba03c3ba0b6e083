import Tesseract.Core.Nom

/-!
# Texts as tokens

A text is a list of tokens, each with the white space before it. A relation between a
value and its tokens says how the value is written.

* `Reads`, `Sound`: a parser reads what the relation derives, and returns nothing else.
* `Unique`: two relations read one text in the same way.
* `separatedList1_reads`, `separatedList1_sound`, `Separated.unique`: lists with separators
  inherit all three from their elements.
-/
namespace Tesseract

open Nom

/-- White space only. -/
def Blank (g : List Char) : Prop := ∀ c ∈ g, isSpace c = true

/-- A word of a text, with the white space before it. -/
structure Tok where
  gap : List Char
  word : List Char
  deriving DecidableEq, Repr

namespace Tok

def full (t : Tok) : List Char := t.gap ++ t.word

/-- White space, and a word with `W`. -/
def Is (W : List Char → Prop) (t : Tok) : Prop := Blank t.gap ∧ W t.word

/-- Begins with something else than white space. -/
def Solid (w : List Char) : Prop := ∃ c v, w = c :: v ∧ isSpace c = false

/-- White space, and a word that begins with something else. -/
def Wf (t : Tok) : Prop := t.Is Solid

theorem Is.wf {W : List Char → Prop} {t : Tok} (h : t.Is W) (hW : ∀ w, W w → Solid w) : t.Wf :=
  ⟨h.1, hW t.word h.2⟩

/-- A word that is known. -/
theorem Is.wf_eq {t : Tok} {c : Char} {v : List Char} (h : t.Is (· = c :: v))
    (hc : isSpace c = false) : t.Wf := ⟨h.1, c, v, h.2, hc⟩

def render (ts : List Tok) : List Char := ts.flatMap full

/-- The white space before the first token. -/
def lead : List Tok → List Char
  | [] => []
  | t :: _ => t.gap

/-- The text behind that white space. -/
def body : List Tok → List Char
  | [] => []
  | t :: ts => t.word ++ render ts

@[simp] theorem render_nil : render [] = [] := rfl

@[simp] theorem render_cons (t : Tok) (ts : List Tok) :
    render (t :: ts) = t.gap ++ (t.word ++ render ts) := by
  simp [render, full]

@[simp] theorem render_append (ts us : List Tok) : render (ts ++ us) = render ts ++ render us :=
  List.flatMap_append

@[simp] theorem lead_cons (t : Tok) (ts : List Tok) : lead (t :: ts) = t.gap := rfl

@[simp] theorem body_cons (t : Tok) (ts : List Tok) : body (t :: ts) = t.word ++ render ts := rfl

theorem render_eq (ts : List Tok) : render ts = lead ts ++ body ts := by
  cases ts with
  | nil => rfl
  | cons t ts => rw [render_cons, lead, body]

theorem body_append {ts : List Tok} (h : ts ≠ []) (us : List Tok) :
    body (ts ++ us) = body ts ++ render us := by
  obtain ⟨t, ts, rfl⟩ := List.exists_cons_of_ne_nil h
  simp

theorem lead_append {ts : List Tok} (h : ts ≠ []) (us : List Tok) : lead (ts ++ us) = lead ts := by
  obtain ⟨t, ts, rfl⟩ := List.exists_cons_of_ne_nil h
  rfl

end Tok

open Tok

/-- At least one token, all of them well-formed. -/
structure Toks (ts : List Tok) : Prop where
  ne : ts ≠ []
  wf : ∀ t ∈ ts, t.Wf

theorem Toks.single {t : Tok} (h : t.Wf) : Toks [t] :=
  ⟨List.cons_ne_nil t [], fun u hu => by rw [List.mem_singleton.mp hu]; exact h⟩

theorem Toks.cons {t : Tok} {ts : List Tok} (h : t.Wf) (hs : ∀ u ∈ ts, u.Wf) : Toks (t :: ts) :=
  ⟨List.cons_ne_nil t ts, List.forall_mem_cons.mpr ⟨h, hs⟩⟩

theorem Toks.body_append {ts : List Tok} (h : Toks ts) (us : List Tok) :
    body (ts ++ us) = body ts ++ render us := Tok.body_append h.ne us

theorem Toks.lead_append {ts : List Tok} (h : Toks ts) (us : List Tok) :
    lead (ts ++ us) = lead ts := Tok.lead_append h.ne us

theorem Toks.lead_blank {ts : List Tok} (h : Toks ts) : Blank (lead ts) := by
  obtain ⟨t, ts, rfl⟩ := List.exists_cons_of_ne_nil h.ne
  exact (h.wf t (by simp)).1

/-! ## White space -/

/-- Not white space next. -/
def GapEnd (r : List Char) : Prop := ∀ c ∈ r.head?, isSpace c = false

/-- What is behind the white space. -/
def afterGap (r : List Char) : List Char := r.dropWhile isSpace

theorem gapEnd_afterGap (r : List Char) : GapEnd (afterGap r) := by
  intro c hc
  have := List.head?_dropWhile_not isSpace r
  rw [afterGap] at hc
  rw [Option.mem_def.mp hc] at this
  simpa using this

theorem blank_takeWhile (r : List Char) : Blank (r.takeWhile isSpace) :=
  fun _ hc => (List.mem_takeWhile_imp hc)

theorem takeWhile_blank {g r : List Char} (hg : Blank g) (hr : GapEnd r) :
    (g ++ r).takeWhile isSpace = g := by
  rw [List.takeWhile_append_of_pos hg]
  cases r with
  | nil => simp
  | cons c r =>
    have hc : isSpace c = false := hr c rfl
    simp [hc]

theorem afterGap_append {g r : List Char} (hg : Blank g) : afterGap (g ++ r) = afterGap r :=
  List.dropWhile_append_of_pos hg

theorem afterGap_of_gapEnd {r : List Char} (hr : GapEnd r) : afterGap r = r := by
  cases r with
  | nil => rfl
  | cons c r =>
    have hc : isSpace c = false := hr c rfl
    simp [afterGap, hc]

theorem Tok.Solid.gapEnd {w : List Char} (h : Solid w) (r : List Char) : GapEnd (w ++ r) := by
  obtain ⟨c, v, rfl, hc⟩ := h
  intro d hd
  cases hd
  exact hc

theorem Tok.Wf.gapEnd {t : Tok} (h : t.Wf) (r : List Char) : GapEnd (t.word ++ r) :=
  Solid.gapEnd h.2 r

theorem Toks.gapEnd {ts : List Tok} (h : Toks ts) (r : List Char) : GapEnd (body ts ++ r) := by
  obtain ⟨t, ts, rfl⟩ := List.exists_cons_of_ne_nil h.ne
  rw [body_cons, List.append_assoc]
  exact (h.wf t (by simp)).gapEnd _

/-- The gap of the next token is all the white space there is. -/
theorem Tok.Wf.peel {t t' : Tok} (h : t.Wf) (h' : t'.Wf) {r r' : List Char}
    (heq : t.gap ++ (t.word ++ r) = t'.gap ++ (t'.word ++ r')) :
    t.gap = t'.gap ∧ t.word ++ r = t'.word ++ r' := by
  have hgap := congrArg (List.takeWhile isSpace) heq
  rw [takeWhile_blank h.1 (h.gapEnd r), takeWhile_blank h'.1 (h'.gapEnd r')] at hgap
  refine ⟨hgap, ?_⟩
  rw [hgap] at heq
  exact List.append_cancel_left heq

/-- Two tokens with words of one length are one token. -/
theorem Tok.Wf.peel_word {t t' : Tok} (h : t.Wf) (h' : t'.Wf) {r r' : List Char}
    (hlen : t.word.length = t'.word.length)
    (heq : t.gap ++ (t.word ++ r) = t'.gap ++ (t'.word ++ r')) : t = t' ∧ r = r' := by
  obtain ⟨hgap, hword⟩ := h.peel h' heq
  obtain ⟨hw, hr⟩ := List.append_inj hword hlen
  cases t
  cases t'
  cases hgap
  cases hw
  exact ⟨rfl, hr⟩

/-- Two tokens are one, where their words end at one place. -/
theorem Tok.Is.peel {W W' : List Char → Prop} {t t' : Tok} {r r' : List Char} (ht : t.Is W)
    (ht' : t'.Is W') (hW : ∀ w, W w → Solid w) (hW' : ∀ w, W' w → Solid w)
    (h : ∀ w w', W w → W' w' → w ++ r = w' ++ r' → w.length = w'.length)
    (heq : t.gap ++ (t.word ++ r) = t'.gap ++ (t'.word ++ r')) : t = t' ∧ r = r' := by
  obtain ⟨_, hword⟩ := (ht.wf hW).peel (ht'.wf hW') heq
  exact (ht.wf hW).peel_word (ht'.wf hW') (h _ _ ht.2 ht'.2 hword) heq

/-! ## Parsers of tokens -/

section Parsers

variable {A B : Type} {p : Parser A} {R R' : A → List Tok → Prop} {E E' : A → List Char → Prop}

/-- `p` reads what `R` derives, where `E` allows what follows. -/
def Reads (p : Parser A) (R : A → List Tok → Prop) (E : A → List Char → Prop) : Prop :=
  ∀ {a ts r}, R a ts → E a r → p (body ts ++ r) = .ok (a, r)

/-- Behind white space, `p` returns only what `R` derives, and `E` holds of what follows. -/
def Sound (p : Parser A) (R : A → List Tok → Prop) (E : A → List Char → Prop) : Prop :=
  ∀ {i a r}, GapEnd i → p i = .ok (a, r) → ∀ {g}, Blank g →
    ∃ ts, R a ts ∧ lead ts = g ∧ i = body ts ++ r ∧ E a r

/-- Where a text is read by `R` and by `R'` as the same value, its tokens are the same. -/
def Unique (R R' : A → List Tok → Prop) (F : List Char → Prop) (Q : A → Prop) : Prop :=
  ∀ ⦃a ts ts' r r'⦄, R a ts → R' a ts' → F r → F r' → render ts ++ r = render ts' ++ r' →
    ts = ts' ∧ r = r' ∧ Q a

variable [Nom] [LawfulNom]

theorem multispace0_ok {g r : List Char} (hg : Blank g) (hr : GapEnd r) :
    multispace0 (g ++ r) = .ok (g, r) := by
  rw [LawfulNom.multispace0_eq, takeWhile_blank hg hr]
  exact congrArg (fun x => Except.ok (g, x)) ((afterGap_append hg).trans (afterGap_of_gapEnd hr))

theorem multispace0_any (r : List Char) :
    multispace0 r = .ok (r.takeWhile isSpace, afterGap r) := LawfulNom.multispace0_eq r

/-- Read on behind the white space of a token. -/
theorem skip_gap {t : Tok} (ht : t.Wf) {f : List Char → Parser B} {r : List Char} :
    (multispace0 >>= f) (t.gap ++ (t.word ++ r)) = f t.gap (t.word ++ r) :=
  bind_ok (multispace0_ok ht.1 (ht.gapEnd r))

theorem skip_lead {ts : List Tok} (hts : Toks ts) {f : List Char → Parser B} {r : List Char} :
    (multispace0 >>= f) (render ts ++ r) = f (lead ts) (body ts ++ r) := by
  rw [render_eq, List.append_assoc]
  exact bind_ok (multispace0_ok hts.lead_blank (hts.gapEnd r))

theorem tag_next {w : List Char} {f : List Char → Parser B} {r : List Char} :
    (tag w >>= f) (w ++ r) = f w r :=
  bind_ok (LawfulNom.tag_ok w r)

theorem tag_rejects {w r : List Char} (h : ¬ w <+: r) : Rejects (tag w) r :=
  ⟨_, LawfulNom.tag_error w r h⟩

theorem tag_eq_ok {w i a r : List Char} : tag w i = .ok (a, r) ↔ a = w ∧ i = w ++ r := by
  constructor
  · intro h
    by_cases hw : w <+: i
    · obtain ⟨r', rfl⟩ := hw
      rw [LawfulNom.tag_ok] at h
      cases h
      exact ⟨rfl, rfl⟩
    · rw [LawfulNom.tag_error w i hw] at h
      cases h
  · intro ⟨ha, hi⟩
    rw [ha, hi, LawfulNom.tag_ok]

theorem multispace0_eq_ok {i a r : List Char} (h : multispace0 i = .ok (a, r)) :
    Blank a ∧ i = a ++ r ∧ GapEnd r := by
  rw [multispace0_any] at h
  cases h
  exact ⟨blank_takeWhile i, (List.takeWhile_append_dropWhile).symm, gapEnd_afterGap i⟩

/-! ## Separated lists -/

/-- `tuple((ws, tag(w), ws))` -/
def spaced (w : List Char) : Parser (List Char) := do
  let _ ← multispace0
  let s ← tag w
  let _ ← multispace0
  pure s

/-- A single token, with a word for the value. -/
def Word (W : A → List Char → Prop) : A → List Tok → Prop := fun a ts => ∃ t, ts = [t] ∧ t.Is (W a)

omit [Nom] [LawfulNom] in
/-- A parser of words is one of tokens. -/
theorem Reads.word {W : A → List Char → Prop}
    (h : ∀ {a w r}, W a w → E a r → p (w ++ r) = .ok (a, r)) : Reads p (Word W) E := by
  intro a ts r ⟨t, hts, ht⟩ hr
  rw [hts, body_cons, render_nil, List.append_nil]
  exact h ht.2 hr

omit [Nom] [LawfulNom] in
theorem Sound.word {W : A → List Char → Prop}
    (h : ∀ {i a r}, p i = .ok (a, r) → ∃ w, W a w ∧ i = w ++ r ∧ E' a r) :
    Sound p (Word W) E' := by
  intro i a r _ hp g hg
  obtain ⟨w, hw, hi, hE⟩ := h hp
  exact ⟨[⟨g, w⟩], ⟨⟨g, w⟩, rfl, hg, hw⟩,
    rfl, by rw [body_cons, render_nil, List.append_nil, hi], hE⟩

/-- What one of several parsers returns. -/
theorem Sound.ofAlt {ps : List (Parser A)} (hps : ps ≠ []) (h : ∀ q ∈ ps, Sound q R E) :
    Sound (alt ps) R E := by
  intro i a r hi hok
  obtain ⟨q, hq, hx⟩ := alt_eq_ok hps hok
  exact h q hq hi hx

/-- Elements with a separator between each two. -/
inductive Separated (R : A → List Tok → Prop) (S : List Char → Prop) : List A → List Tok → Prop
  | one {a ts} : R a ts → Separated R S [a] ts
  | cons {a ts t as us} : R a ts → t.Is S → Separated R S as us →
      Separated R S (a :: as) (ts ++ t :: us)

/-- No element, or elements with a separator between each two. -/
inductive Separated0 (R : A → List Tok → Prop) (S : List Char → Prop) : List A → List Tok → Prop
  | nil : Separated0 R S [] []
  | some {as ts} : Separated R S as ts → Separated0 R S as ts

omit [Nom] [LawfulNom] in
theorem Word.toks {W : A → List Char → Prop} (hW : ∀ a w, W a w → Solid w) (a : A)
    (ts : List Tok) (h : Word W a ts) : Toks ts := by
  obtain ⟨t, rfl, ht⟩ := h
  exact .single (ht.wf (hW a))

omit [Nom] [LawfulNom] in
theorem Separated.toks {S : List Char → Prop} (hS : ∀ w, S w → Solid w)
    (hR : ∀ a ts, R a ts → Toks ts) {as ts} (h : Separated R S as ts) : Toks ts := by
  induction h with
  | one ha => exact hR _ _ ha
  | @cons a ts t as us ha ht _ ih =>
    refine ⟨by simp, fun u hu => ?_⟩
    rcases List.mem_append.mp hu with hu | hu
    · exact (hR a ts ha).wf u hu
    · rcases List.mem_cons.mp hu with rfl | hu
      · exact ht.wf hS
      · exact ih.wf u hu

omit [Nom] [LawfulNom] in
theorem Separated.mem {S : List Char → Prop} {as ts} (h : Separated R S as ts) :
    ∀ a ∈ as, ∃ us, R a us := by
  induction h with
  | one ha => simpa using ⟨_, ha⟩
  | cons ha _ _ ih => exact List.forall_mem_cons.mpr ⟨⟨_, ha⟩, ih⟩

omit [Nom] [LawfulNom] in
theorem Separated.ne_nil {S : List Char → Prop} {as ts} (h : Separated R S as ts) : as ≠ [] := by
  cases h <;> simp

section Lists

variable {w : List Char} (hw : Solid w)

include hw

theorem spaced_ok {t : Tok} {us : List Tok} {r : List Char} (ht : t.Is (· = w)) (hus : Toks us) :
    spaced w (render (t :: us) ++ r) = .ok (w, body us ++ r) := by
  have hwf : t.Wf := ⟨ht.1, ht.2 ▸ hw⟩
  unfold spaced
  rw [render_cons, List.append_assoc, List.append_assoc, skip_gap hwf, ht.2, tag_next,
    skip_lead hus]
  rfl

omit hw in
theorem spaced_rejects {r : List Char} (h : ¬ w <+: afterGap r) : Rejects (spaced w) r := by
  unfold spaced
  exact Rejects.after (multispace0_any r) (Rejects.bind (tag_rejects h))

omit hw in
theorem spaced_eq_ok {i a r : List Char} (h : spaced w i = .ok (a, r)) :
    ∃ g g', Blank g ∧ Blank g' ∧ i = g ++ (w ++ (g' ++ r)) ∧ GapEnd r := by
  unfold spaced at h
  obtain ⟨g, i₁, h₁, h⟩ := bind_eq_ok.mp h
  obtain ⟨_, i₂, h₂, h⟩ := bind_eq_ok.mp h
  obtain ⟨g', i₃, h₃, h⟩ := bind_eq_ok.mp h
  obtain ⟨_, rfl⟩ := pure_eq_ok.mp h
  obtain ⟨hg, rfl, _⟩ := multispace0_eq_ok h₁
  obtain ⟨_, rfl⟩ := tag_eq_ok.mp h₂
  obtain ⟨hg', rfl, hend⟩ := multispace0_eq_ok h₃
  exact ⟨g, g', hg, hg', rfl, hend⟩

/-- A list is read up to its last element, if no separator follows. -/
theorem separatedList1_reads (hR : ∀ a ts, R a ts → Toks ts) (hp : Reads p R E)
    (hE : ∀ a r (t : Tok), t.Is (· = w) → E a (t.full ++ r)) :
    Reads (separatedList1 (spaced w) p) (Separated R (· = w))
      fun as r => (∀ a ∈ as.getLast?, E a r) ∧ ¬ w <+: afterGap r := by
  intro as ts r h ⟨hlast, hstop⟩
  induction h with
  | @one a ts ha =>
    refine LawfulNom.separatedList1_last _ _ _ a r (hp ha (hlast a rfl)) fun b r' hs => ?_
    exact absurd hs ((spaced_rejects hstop).not_ok _)
  | @cons a ts t as us ha ht hus ih =>
    have hlast' : ∀ a ∈ as.getLast?, E a r := by
      intro b hb
      refine hlast b ?_
      cases hus with
      | one => exact hb
      | cons => exact hb
    have ih := ih hlast'
    have hts := hR a ts ha
    have htus := hus.toks (by rintro _ rfl; exact hw) hR
    have hfirst : p (body (ts ++ t :: us) ++ r) = .ok (a, render (t :: us) ++ r) := by
      rw [hts.body_append, List.append_assoc]
      refine hp ha ?_
      have := hE a (render us ++ r) t ht
      rwa [full, List.append_assoc, ← List.append_assoc t.word, ← List.append_assoc t.gap,
        ← render_cons] at this
    have hsep := spaced_ok (r := r) hw ht htus
    -- the rest of the list is read, so its first element is
    cases hx : p (body us ++ r) with
    | error e =>
      rw [LawfulNom.separatedList1_error _ _ _ e hx] at ih
      cases ih
    | ok x =>
      have hpos : 0 < t.word.length := by
        obtain ⟨c, v, hv, _⟩ := hw
        rw [ht.2, hv]
        simp
      have hlen : (body us ++ r).length < (render (t :: us) ++ r).length := by
        rw [render_cons, render_eq us]
        simp only [List.length_append]
        omega
      have hle : (render (t :: us) ++ r).length ≤ (body (ts ++ t :: us) ++ r).length := by
        rw [hts.body_append]
        simp only [List.length_append]
        omega
      rw [LawfulNom.separatedList1_cons _ _ _ a _ _ _ x hfirst hsep hlen hle hx, ih]
      rfl

/-- What is read as a list was written as one. -/
theorem separatedList1_sound (hR : ∀ a ts, R a ts → Toks ts) (hp : Sound p R E') :
    Sound (separatedList1 (spaced w) p) (Separated R (· = w))
      fun as r => ∀ a ∈ as.getLast?, E' a r := by
  intro i as r hgap h g hg
  induction hn : i.length using Nat.strongRecOn generalizing i as g with
  | ind n ih =>
    subst hn
    cases hpi : p i with
    | error e =>
      rw [LawfulNom.separatedList1_error _ _ _ e hpi] at h
      cases h
    | ok x =>
      obtain ⟨a, r₁⟩ := x
      obtain ⟨ts, hts, hlead, hi, hE⟩ := hp hgap hpi hg
      have hone : separatedList1 (spaced w) p i = .ok ([a], r₁) →
          ∃ ts, Separated R (· = w) as ts ∧ lead ts = g ∧ i = body ts ++ r ∧
            ∀ a ∈ as.getLast?, E' a r := by
        intro hres
        rw [hres] at h
        cases h
        refine ⟨ts, .one hts, hlead, hi, ?_⟩
        intro b hb
        cases hb
        exact hE
      cases hs : spaced w r₁ with
      | error e =>
        refine hone (LawfulNom.separatedList1_last _ _ i a r₁ hpi fun b r' hb => ?_)
        rw [hs] at hb
        cases hb
      | ok y =>
        obtain ⟨b, r₂⟩ := y
        obtain ⟨g₁, g₂, hg₁, hg₂, hr₁, hend⟩ := spaced_eq_ok hs
        have hpos : 0 < w.length := by
          obtain ⟨c, v, hv, _⟩ := hw
          rw [hv]
          simp
        have hlen : r₂.length < r₁.length := by
          rw [hr₁]
          simp only [List.length_append]
          omega
        have hle : r₁.length ≤ i.length := by
          rw [hi, List.length_append]
          omega
        cases hx : p r₂ with
        | error e =>
          refine hone (LawfulNom.separatedList1_last _ _ i a r₁ hpi fun b' r' hb => ?_)
          rw [hs] at hb
          cases hb
          exact ⟨hlen, e, hx⟩
        | ok x =>
          rw [LawfulNom.separatedList1_cons _ _ i a r₁ b r₂ x hpi hs hlen hle hx] at h
          cases hrest : separatedList1 (spaced w) p r₂ with
          | error e =>
            rw [hrest] at h
            cases h
          | ok z =>
            obtain ⟨as', r'⟩ := z
            rw [hrest] at h
            cases h
            obtain ⟨us, hus, hlead', hr₂, hE'⟩ := ih r₂.length (by omega) hend hrest hg₂ rfl
            refine ⟨ts ++ ⟨g₁, w⟩ :: us, .cons hts ⟨hg₁, rfl⟩ hus, ?_, ?_, ?_⟩
            · rw [(hR a ts hts).lead_append, hlead]
            · rw [(hR a ts hts).body_append, render_cons, render_eq us, hlead', hi, hr₁, hr₂]
              simp only [List.append_assoc]
            · intro c hc
              refine hE' c ?_
              cases hus with
              | one => exact hc
              | cons => exact hc

theorem separatedList0_reads (hR : ∀ a ts, R a ts → Toks ts) (hp : Reads p R E)
    (hE : ∀ a r (t : Tok), t.Is (· = w) → E a (t.full ++ r)) :
    Reads (separatedList0 (spaced w) p) (Separated0 R (· = w))
      fun as r => (as = [] → Rejects p r) ∧ (∀ a ∈ as.getLast?, E a r) ∧ ¬ w <+: afterGap r := by
  intro as ts r h ⟨hnil, hstop⟩
  cases h with
  | nil => exact LawfulNom.separatedList0_error _ _ _ (hnil rfl)
  | some h =>
    have hlist := separatedList1_reads hw hR hp hE h hstop
    cases hx : p (body ts ++ r) with
    | error e =>
      rw [LawfulNom.separatedList1_error _ _ _ e hx] at hlist
      cases hlist
    | ok x => rw [LawfulNom.separatedList0_ok _ _ _ x hx, hlist]

theorem separatedList0_sound (hR : ∀ a ts, R a ts → Toks ts) (hp : Sound p R E')
    {i r : List Char} {as : List A} (hgap : ∀ x, p i = .ok x → GapEnd i)
    (h : separatedList0 (spaced w) p i = .ok (as, r)) {g : List Char} (hg : Blank g) :
    (as = [] ∧ r = i) ∨ ∃ ts, Separated R (· = w) as ts ∧ lead ts = g ∧ i = body ts ++ r := by
  cases hx : p i with
  | error e =>
    rw [LawfulNom.separatedList0_error _ _ _ ⟨e, hx⟩] at h
    cases h
    exact .inl ⟨rfl, rfl⟩
  | ok x =>
    rw [LawfulNom.separatedList0_ok _ _ _ x hx] at h
    obtain ⟨ts, hts, hlead, hi, _⟩ := separatedList1_sound hw hR hp (hgap x hx) h hg
    exact .inr ⟨ts, hts, hlead, hi⟩

end Lists

end Parsers

/-! ## One reading of a text -/

section Unique

variable {A : Type} {R R' : A → List Tok → Prop} {F : List Char → Prop} {Q : A → Prop}
  {S S' : List Char → Prop}

theorem Unique.mono {F' : List Char → Prop} (h : Unique R R' F Q) (hF : ∀ r, F' r → F r) :
    Unique R R' F' Q :=
  fun _ _ _ _ _ ha ha' hr hr' heq => h ha ha' (hF _ hr) (hF _ hr') heq

/-- Words are read alike, if they are equal or their texts go on differently. -/
theorem Word.unique {W W' : A → List Char → Prop} (hW : ∀ a w, W a w → Solid w)
    (hW' : ∀ a w, W' a w → Solid w)
    (h : ∀ a w w' r r', W a w → W' a w' → F r → F r' → w ++ r = w' ++ r' → w = w' ∧ Q a) :
    Unique (Word W) (Word W') F Q := by
  intro a ts ts' r r' ⟨t, hts, ht⟩ ⟨t', hts', ht'⟩ hr hr' heq
  subst hts hts'
  simp only [render_cons, render_nil, List.append_nil, List.append_assoc] at heq
  obtain ⟨_, hword⟩ := (ht.wf (hW a)).peel (ht'.wf (hW' a)) heq
  obtain ⟨hlen, hq⟩ := h a t.word t'.word r r' ht.2 ht'.2 hr hr' hword
  obtain ⟨rfl, rfl⟩ := (ht.wf (hW a)).peel_word (ht'.wf (hW' a)) (by rw [hlen]) heq
  exact ⟨rfl, rfl, hq⟩

/-- Lists are read alike, if their elements are and a separator ends an element. -/
theorem Separated.unique (hS : ∀ w, S w → Solid w) (hS' : ∀ w, S' w → Solid w)
    (hlen : ∀ w w', S w → S' w' → w.length = w'.length) (hR : Unique R R' F Q)
    (hF : ∀ (t : Tok) r, t.Is S ∨ t.Is S' → F (t.full ++ r)) :
    Unique (Separated R S) (Separated R' S') F fun as => ∀ a ∈ as, Q a := by
  intro as ts ts' r r' h h' hr hr' heq
  induction h generalizing ts' with
  | one ha =>
    cases h' with
    | one ha' =>
      obtain ⟨rfl, rfl, hq⟩ := hR ha ha' hr hr' heq
      exact ⟨rfl, rfl, by simpa using hq⟩
    | cons _ _ hus => cases hus
  | @cons a ts t as us ha ht hus ih =>
    cases h' with
    | one => cases hus
    | @cons _ ts₂ t₂ _ us₂ ha₂ ht₂ hus₂ =>
      have hsplit : ∀ (us : List Tok) (t : Tok) (r : List Char),
          render (t :: us) ++ r = t.full ++ (render us ++ r) := by
        intro us t r
        simp [full]
      rw [render_append, render_append, List.append_assoc, List.append_assoc, hsplit, hsplit] at heq
      obtain ⟨rfl, heq, hq⟩ := hR ha ha₂ (hF t _ (.inl ht)) (hF t₂ _ (.inr ht₂)) heq
      rw [full, full, List.append_assoc, List.append_assoc] at heq
      obtain ⟨rfl, htail⟩ := (ht.wf hS).peel_word (ht₂.wf hS') (hlen _ _ ht.2 ht₂.2) heq
      obtain ⟨rfl, rfl, hqs⟩ := ih hus₂ htail
      exact ⟨rfl, rfl, List.forall_mem_cons.mpr ⟨hq, hqs⟩⟩

end Unique

end Tesseract
