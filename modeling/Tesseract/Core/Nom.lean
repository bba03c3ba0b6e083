import Mathlib.Data.List.Infix
import Mathlib.Data.List.TakeWhile

/-!
# Parser combinators

The combinators of a parser library as a parameter: `Nom` has the functions, `LawfulNom`
says what their documentation says of them. A parser takes a text and returns a value
with the rest of the text, or an error; no parser here asks for more input or fails for
good.

`Nom.complete` is one library of this kind.
-/
namespace Tesseract

inductive ErrorKind where
  | tag | alpha | alphaNumeric | digit | mapRes | many0 | separatedList | alt | eof | fail
  deriving DecidableEq, Repr

/-- Where a parser failed. -/
structure NomError where
  input : List Char
  code : ErrorKind
  deriving DecidableEq, Repr

abbrev Parser (A : Type) : Type := StateT (List Char) (Except NomError) A

class Nom where
  tag : List Char → Parser (List Char)
  takeWhile : (Char → Bool) → Parser (List Char)
  alpha1 : Parser (List Char)
  alphanumeric1 : Parser (List Char)
  digit1 : Parser (List Char)
  multispace0 : Parser (List Char)
  alt {A : Type} : List (Parser A) → Parser A
  opt {A : Type} : Parser A → Parser (Option A)
  recognize {A : Type} : Parser A → Parser (List Char)
  mapRes {A B : Type} : Parser A → (A → Option B) → Parser B
  many0 {A : Type} : Parser A → Parser (List A)
  separatedList0 {A B : Type} : Parser B → Parser A → Parser (List A)
  separatedList1 {A B : Type} : Parser B → Parser A → Parser (List A)

namespace Nom

def isAlpha (c : Char) : Bool := c.isAlpha

def isAlphanumeric (c : Char) : Bool := c.isAlphanum

def isDigit (c : Char) : Bool := c.isDigit

/-- Blanks, tabs and the two characters of a line end. -/
def isSpace (c : Char) : Bool := c == ' ' || c == '\t' || c == '\r' || c == '\n'

/-- The longest run of characters with `f`, which may not be empty. -/
def span1 (f : Char → Bool) (code : ErrorKind) : Parser (List Char) := fun i =>
  if i.takeWhile f = [] then .error ⟨i, code⟩ else .ok (i.takeWhile f, i.dropWhile f)

end Nom

section Sequence

variable {A B : Type} {p : Parser A} {f : A → Parser B} {i r r' : List Char} {a : A} {b : B}

/-- `p` fails on `i`. -/
def Rejects (p : Parser A) (i : List Char) : Prop := ∃ e, p i = .error e

theorem Rejects.not_ok (h : Rejects p i) (x : A × List Char) : p i ≠ .ok x := by
  obtain ⟨e, he⟩ := h
  rw [he]
  intro hx
  cases hx

theorem bind_ok (h : p i = .ok (a, r)) : (p >>= f) i = f a r := by
  show (p i >>= fun x => f x.1 x.2) = _
  rw [h]
  rfl

theorem Rejects.bind (h : Rejects p i) : Rejects (p >>= f) i := by
  obtain ⟨e, he⟩ := h
  refine ⟨e, ?_⟩
  show (p i >>= fun x => f x.1 x.2) = _
  rw [he]
  rfl

theorem Rejects.after (h : p i = .ok (a, r)) (hf : Rejects (f a) r) : Rejects (p >>= f) i := by
  obtain ⟨e, he⟩ := hf
  exact ⟨e, (bind_ok h).trans he⟩

theorem bind_eq_ok : (p >>= f) i = .ok (b, r') ↔ ∃ a r, p i = .ok (a, r) ∧ f a r = .ok (b, r') := by
  constructor
  · intro h
    cases hp : p i with
    | error e =>
      obtain ⟨e', he'⟩ := Rejects.bind (f := f) ⟨e, hp⟩
      rw [he'] at h
      cases h
    | ok x =>
      rw [bind_ok hp] at h
      exact ⟨x.1, x.2, rfl, h⟩
  · intro ⟨a, r, hp, h⟩
    rw [bind_ok hp, h]

theorem pure_eq_ok {a' : A} : (pure a : Parser A) i = .ok (a', r) ↔ a = a' ∧ i = r := by
  show Except.ok (a, i) = _ ↔ _
  rw [Except.ok.injEq, Prod.mk.injEq]

end Sequence

/-- What the documentation says of the combinators. -/
class LawfulNom [Nom] : Prop where
  tag_ok : ∀ t r : List Char, Nom.tag t (t ++ r) = .ok (t, r)
  tag_error : ∀ t i : List Char, ¬ t <+: i → Nom.tag t i = .error ⟨i, .tag⟩
  takeWhile_eq : ∀ (f : Char → Bool) (i : List Char),
    Nom.takeWhile f i = .ok (i.takeWhile f, i.dropWhile f)
  alpha1_eq : ∀ i : List Char, Nom.alpha1 i = Nom.span1 Nom.isAlpha .alpha i
  alphanumeric1_eq : ∀ i : List Char,
    Nom.alphanumeric1 i = Nom.span1 Nom.isAlphanumeric .alphaNumeric i
  digit1_eq : ∀ i : List Char, Nom.digit1 i = Nom.span1 Nom.isDigit .digit i
  multispace0_eq : ∀ i : List Char,
    Nom.multispace0 i = .ok (i.takeWhile Nom.isSpace, i.dropWhile Nom.isSpace)
  alt_last : ∀ {A : Type} (p : Parser A) (i : List Char), Nom.alt [p] i = p i
  alt_ok : ∀ {A : Type} (p : Parser A) (ps : List (Parser A)) (i : List Char) (x : A × List Char),
    p i = .ok x → Nom.alt (p :: ps) i = .ok x
  alt_error : ∀ {A : Type} (p q : Parser A) (ps : List (Parser A)) (i : List Char),
    Rejects p i → Nom.alt (p :: q :: ps) i = Nom.alt (q :: ps) i
  opt_ok : ∀ {A : Type} (p : Parser A) (i : List Char) (x : A × List Char),
    p i = .ok x → Nom.opt p i = .ok (some x.1, x.2)
  opt_error : ∀ {A : Type} (p : Parser A) (i : List Char),
    Rejects p i → Nom.opt p i = .ok (none, i)
  recognize_ok : ∀ {A : Type} (p : Parser A) (w r : List Char) (a : A),
    p (w ++ r) = .ok (a, r) → Nom.recognize p (w ++ r) = .ok (w, r)
  recognize_error : ∀ {A : Type} (p : Parser A) (i : List Char) (e : NomError),
    p i = .error e → Nom.recognize p i = .error e
  mapRes_ok : ∀ {A B : Type} (p : Parser A) (f : A → Option B) (i : List Char)
    (x : A × List Char) (b : B), p i = .ok x → f x.1 = some b → Nom.mapRes p f i = .ok (b, x.2)
  mapRes_none : ∀ {A B : Type} (p : Parser A) (f : A → Option B) (i : List Char)
    (x : A × List Char), p i = .ok x → f x.1 = none → Nom.mapRes p f i = .error ⟨i, .mapRes⟩
  mapRes_error : ∀ {A B : Type} (p : Parser A) (f : A → Option B) (i : List Char) (e : NomError),
    p i = .error e → Nom.mapRes p f i = .error e
  many0_error : ∀ {A : Type} (p : Parser A) (i : List Char), Rejects p i →
    Nom.many0 p i = .ok ([], i)
  many0_ok : ∀ {A : Type} (p : Parser A) (i : List Char) (a : A) (r : List Char),
    p i = .ok (a, r) → r.length < i.length →
      Nom.many0 p i = (Nom.many0 p r).map fun x => (a :: x.1, x.2)
  separatedList1_error : ∀ {A B : Type} (s : Parser B) (p : Parser A) (i : List Char)
    (e : NomError), p i = .error e → Nom.separatedList1 s p i = .error e
  /-- no separator, or none with an element behind it -/
  separatedList1_last : ∀ {A B : Type} (s : Parser B) (p : Parser A) (i : List Char) (a : A)
    (r : List Char), p i = .ok (a, r) →
      (∀ b r', s r = .ok (b, r') → r'.length < r.length ∧ Rejects p r') →
      Nom.separatedList1 s p i = .ok ([a], r)
  separatedList1_cons : ∀ {A B : Type} (s : Parser B) (p : Parser A) (i : List Char) (a : A)
    (r : List Char) (b : B) (r' : List Char) (x : A × List Char), p i = .ok (a, r) →
      s r = .ok (b, r') → r'.length < r.length → r.length ≤ i.length → p r' = .ok x →
      Nom.separatedList1 s p i = (Nom.separatedList1 s p r').map fun x => (a :: x.1, x.2)
  separatedList0_error : ∀ {A B : Type} (s : Parser B) (p : Parser A) (i : List Char),
    Rejects p i → Nom.separatedList0 s p i = .ok ([], i)
  separatedList0_ok : ∀ {A B : Type} (s : Parser B) (p : Parser A) (i : List Char)
    (x : A × List Char), p i = .ok x → Nom.separatedList0 s p i = Nom.separatedList1 s p i

/-! ## What a success means -/

section Success

open Nom

variable [Nom] [LawfulNom] {A B : Type} {p : Parser A} {i r : List Char}

theorem alt_eq_ok {ps : List (Parser A)} (hps : ps ≠ []) {x : A × List Char}
    (h : alt ps i = .ok x) : ∃ p ∈ ps, p i = .ok x := by
  induction ps with
  | nil => exact absurd rfl hps
  | cons p ps ih =>
    cases hp : p i with
    | ok y =>
      rw [LawfulNom.alt_ok p ps i y hp] at h
      exact ⟨p, List.mem_cons_self, hp.trans h⟩
    | error e =>
      cases ps with
      | nil =>
        rw [LawfulNom.alt_last, hp] at h
        cases h
      | cons q ps =>
        rw [LawfulNom.alt_error p q ps i ⟨e, hp⟩] at h
        obtain ⟨p', hp', hx⟩ := ih (List.cons_ne_nil q ps) h
        exact ⟨p', List.mem_cons_of_mem p hp', hx⟩

/-- The first parser fails, and so the others decide. -/
theorem alt_skip {q : Parser A} {ps : List (Parser A)} {x : Except NomError (A × List Char)}
    (h : Rejects p i) (hx : alt (q :: ps) i = x) : alt (p :: q :: ps) i = x :=
  (LawfulNom.alt_error p q ps i h).trans hx

theorem alt_first {ps : List (Parser A)} {x : A × List Char} (h : p i = .ok x) :
    alt (p :: ps) i = .ok x :=
  LawfulNom.alt_ok p ps i x h

theorem alt_only {x : Except NomError (A × List Char)} (h : p i = x) : alt [p] i = x :=
  (LawfulNom.alt_last p i).trans h

theorem opt_eq_ok {o : Option A} (h : opt p i = .ok (o, r)) :
    (∃ a, o = some a ∧ p i = .ok (a, r)) ∨ (o = none ∧ r = i) := by
  cases hp : p i with
  | ok x =>
    rw [LawfulNom.opt_ok p i x hp] at h
    cases h
    exact .inl ⟨x.1, rfl, rfl⟩
  | error e =>
    rw [LawfulNom.opt_error p i ⟨e, hp⟩] at h
    cases h
    exact .inr ⟨rfl, rfl⟩

theorem mapRes_eq_ok {f : A → Option B} {b : B} (h : mapRes p f i = .ok (b, r)) :
    ∃ a, p i = .ok (a, r) ∧ f a = some b := by
  cases hp : p i with
  | error e =>
    rw [LawfulNom.mapRes_error p f i e hp] at h
    cases h
  | ok x =>
    cases hf : f x.1 with
    | none =>
      rw [LawfulNom.mapRes_none p f i x hp hf] at h
      cases h
    | some b' =>
      rw [LawfulNom.mapRes_ok p f i x b' hp hf] at h
      cases h
      exact ⟨x.1, rfl, hf⟩

/-- `p` takes its result off the front of the text. -/
theorem recognize_eq_ok {w : List Char} (hp : ∀ a r, p i = .ok (a, r) → ∃ v, i = v ++ r)
    (h : recognize p i = .ok (w, r)) : i = w ++ r ∧ ∃ a, p i = .ok (a, r) := by
  cases hpi : p i with
  | error e =>
    rw [LawfulNom.recognize_error p i e hpi] at h
    cases h
  | ok x =>
    obtain ⟨v, rfl⟩ := hp x.1 x.2 hpi
    rw [LawfulNom.recognize_ok p v x.2 x.1 hpi] at h
    cases h
    exact ⟨rfl, x.1, rfl⟩

end Success

section Span

open Nom

variable {f : Char → Bool} {code : ErrorKind} {w i r : List Char}

theorem span1_ok (hne : w ≠ []) (hw : ∀ c ∈ w, f c = true)
    (hr : ∀ c ∈ r.head?, f c = false) : span1 f code (w ++ r) = .ok (w, r) := by
  have htake : (w ++ r).takeWhile f = w := by
    rw [List.takeWhile_append_of_pos hw]
    cases r with
    | nil => simp
    | cons c r =>
      have hc : f c = false := hr c rfl
      simp [hc]
  have hdrop : (w ++ r).dropWhile f = r := by
    rw [List.dropWhile_append_of_pos hw]
    cases r with
    | nil => rfl
    | cons c r =>
      have hc : f c = false := hr c rfl
      simp [hc]
  rw [span1, htake, hdrop, if_neg hne]

variable (f code) in
theorem span1_rejects (hr : ∀ c ∈ r.head?, f c = false) :
    Rejects (span1 f code) r := by
  refine ⟨⟨r, code⟩, ?_⟩
  have hnil : r.takeWhile f = [] := by
    cases r with
    | nil => rfl
    | cons c r =>
      have hc : f c = false := hr c rfl
      simp [hc]
  rw [span1, if_pos hnil]

theorem span1_eq_ok (h : span1 f code i = .ok (w, r)) :
    w ≠ [] ∧ (∀ c ∈ w, f c = true) ∧ i = w ++ r ∧ ∀ c ∈ r.head?, f c = false := by
  unfold span1 at h
  split at h
  · cases h
  · next hne =>
    cases h
    refine ⟨hne, fun _ hc => List.mem_takeWhile_imp hc, List.takeWhile_append_dropWhile.symm, ?_⟩
    intro c hc
    have := List.head?_dropWhile_not f i
    rw [Option.mem_def.mp hc] at this
    simpa using this

end Span

/-! ## A library of combinators -/

namespace Nom

variable {A B : Type}

/-- The loop of `many0`, at most `fuel` rounds. -/
def many0Loop (p : Parser A) : Nat → Parser (List A)
  | 0, i => .error ⟨i, .many0⟩
  | fuel + 1, i =>
    match p i with
    | .error _ => .ok ([], i)
    | .ok (a, r) =>
      if r.length < i.length then (many0Loop p fuel r).map fun x => (a :: x.1, x.2)
      else .error ⟨i, .many0⟩

/-- The loop of the separated lists, at most `fuel` rounds. -/
def separatedLoop (s : Parser B) (p : Parser A) : Nat → Parser (List A)
  | 0, i => .error ⟨i, .separatedList⟩
  | fuel + 1, i =>
    match p i with
    | .error e => .error e
    | .ok (a, r) =>
      match s r with
      | .error _ => .ok ([a], r)
      | .ok (_, r') =>
        if r'.length = r.length then .error ⟨r', .separatedList⟩
        else
          match p r' with
          | .error _ => .ok ([a], r)
          | .ok _ =>
            if r'.length < i.length then
              (separatedLoop s p fuel r').map fun x => (a :: x.1, x.2)
            else .error ⟨r', .separatedList⟩

theorem many0Loop_fuel (p : Parser A) : ∀ (m n : Nat) (i : List Char), i.length < m →
    i.length < n → many0Loop p m i = many0Loop p n i := by
  intro m
  induction m with
  | zero => intro n i hm; omega
  | succ m ih =>
    intro n i hm hn
    cases n with
    | zero => omega
    | succ n =>
      rw [many0Loop, many0Loop]
      cases p i with
      | error e => rfl
      | ok x =>
        dsimp only
        split
        · rw [ih n x.2 (by omega) (by omega)]
        · rfl

theorem separatedLoop_fuel (s : Parser B) (p : Parser A) : ∀ (m n : Nat) (i : List Char),
    i.length < m → i.length < n → separatedLoop s p m i = separatedLoop s p n i := by
  intro m
  induction m with
  | zero => intro n i hm; omega
  | succ m ih =>
    intro n i hm hn
    cases n with
    | zero => omega
    | succ n =>
      rw [separatedLoop, separatedLoop]
      cases p i with
      | error e => rfl
      | ok x =>
        dsimp only
        cases s x.2 with
        | error e => rfl
        | ok y =>
          dsimp only
          cases p y.2 with
          | error e => rfl
          | ok z =>
            dsimp only
            by_cases hlt : y.2.length < i.length
            · rw [if_pos hlt, if_pos hlt, ih n y.2 (by omega) (by omega)]
            · rw [if_neg hlt, if_neg hlt]

/-- The result of the first parser that succeeds, else the error of the last one. -/
def firstOf : List (Parser A) → Parser A
  | [], i => .error ⟨i, .alt⟩
  | [p], i => p i
  | p :: q :: ps, i =>
    match p i with
    | .ok x => .ok x
    | .error _ => firstOf (q :: ps) i

@[reducible] def complete : Nom where
  tag t i := if t.isPrefixOf i then .ok (t, i.drop t.length) else .error ⟨i, .tag⟩
  takeWhile f i := .ok (i.takeWhile f, i.dropWhile f)
  alpha1 := span1 isAlpha .alpha
  alphanumeric1 := span1 isAlphanumeric .alphaNumeric
  digit1 := span1 isDigit .digit
  multispace0 i := .ok (i.takeWhile isSpace, i.dropWhile isSpace)
  alt := firstOf
  opt p i :=
    match p i with
    | .ok x => .ok (some x.1, x.2)
    | .error _ => .ok (none, i)
  recognize p i :=
    match p i with
    | .ok x => .ok (i.take (i.length - x.2.length), x.2)
    | .error e => .error e
  mapRes p f i :=
    match p i with
    | .ok x =>
      match f x.1 with
      | some b => .ok (b, x.2)
      | none => .error ⟨i, .mapRes⟩
    | .error e => .error e
  many0 p i := many0Loop p (i.length + 1) i
  separatedList0 s p i :=
    match p i with
    | .ok _ => separatedLoop s p (i.length + 1) i
    | .error _ => .ok ([], i)
  separatedList1 s p i := separatedLoop s p (i.length + 1) i

attribute [local instance] complete in
theorem complete_lawful : LawfulNom where
  tag_ok t r := by
    show (if t.isPrefixOf (t ++ r) then _ else _) = _
    rw [if_pos (List.isPrefixOf_iff_prefix.mpr (List.prefix_append t r)), List.drop_left]
  tag_error t i h := by
    show (if t.isPrefixOf i then _ else _) = _
    rw [if_neg (fun hp => h (List.isPrefixOf_iff_prefix.mp hp))]
  takeWhile_eq _ _ := rfl
  alpha1_eq _ := rfl
  alphanumeric1_eq _ := rfl
  digit1_eq _ := rfl
  multispace0_eq _ := rfl
  alt_last _ _ := rfl
  alt_ok p ps i x h := by
    cases ps with
    | nil => exact h
    | cons q ps =>
      show firstOf (p :: q :: ps) i = _
      rw [firstOf, h]
  alt_error p q ps i h := by
    obtain ⟨e, he⟩ := h
    show firstOf (p :: q :: ps) i = firstOf (q :: ps) i
    rw [firstOf, he]
  opt_ok p i x h := by simp only [Nom.opt, h]
  opt_error p i h := by
    obtain ⟨e, he⟩ := h
    simp only [Nom.opt, he]
  recognize_ok p w r a h := by
    simp only [Nom.recognize, h, List.length_append, Nat.add_sub_cancel, List.take_left]
  recognize_error p i e h := by simp only [Nom.recognize, h]
  mapRes_ok p f i x b h hf := by simp only [Nom.mapRes, h, hf]
  mapRes_none p f i x h hf := by simp only [Nom.mapRes, h, hf]
  mapRes_error p f i e h := by simp only [Nom.mapRes, h]
  many0_error p i h := by
    obtain ⟨e, he⟩ := h
    show many0Loop p (i.length + 1) i = _
    rw [many0Loop, he]
  many0_ok p i a r h hlt := by
    show many0Loop p (i.length + 1) i = (many0Loop p (r.length + 1) r).map _
    rw [many0Loop, h]
    simp only [hlt, if_true]
    rw [many0Loop_fuel p i.length (r.length + 1) r hlt (Nat.lt_succ_self _)]
  separatedList1_error s p i e h := by
    show separatedLoop s p (i.length + 1) i = _
    rw [separatedLoop, h]
  separatedList1_last s p i a r h hlast := by
    show separatedLoop s p (i.length + 1) i = _
    rw [separatedLoop, h]
    dsimp only
    cases hs : s r with
    | error e => rfl
    | ok y =>
      obtain ⟨hlt, e, he⟩ := hlast y.1 y.2 hs
      simp only [he, if_neg (Nat.ne_of_lt hlt)]
  separatedList1_cons s p i a r b r' x h hs hlt hle hx := by
    show separatedLoop s p (i.length + 1) i = (separatedLoop s p (r'.length + 1) r').map _
    rw [separatedLoop, h]
    simp only [hs, hx, if_neg (Nat.ne_of_lt hlt), if_pos (Nat.lt_of_lt_of_le hlt hle)]
    rw [separatedLoop_fuel s p i.length (r'.length + 1) r' (by omega) (Nat.lt_succ_self _)]
  separatedList0_error s p i h := by
    obtain ⟨e, he⟩ := h
    simp only [Nom.separatedList0, he]
  separatedList0_ok s p i x h := by simp only [Nom.separatedList0, Nom.separatedList1, h]

end Nom

end Tesseract
