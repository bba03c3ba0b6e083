/-!
# Labelled transition systems

Runs, reachability and inductive invariants, over arbitrary states and labels.
`restrict` keeps only the steps that meet a condition on the state before the
step and its label: "in every run whose steps all meet `C`" is reachability in
`T.restrict C`. `within` keeps only the steps into states that meet a property: a run
of `T` is one of `T.within P` if all the states after its first meet `P`.

* `Guards`: a condition on steps that is met exactly when the property is kept.
* `Guards.run_iff`: the runs that stay within the property are those whose steps all
  meet the condition.
* `foldlM_some_iff`: the sequences of labels that a partial step function can take.
-/
namespace Tesseract

structure LTS (σ : Type) (ℓ : Type) where
  init : σ → Prop
  step : σ → ℓ → σ → Prop

namespace LTS

variable {σ ℓ : Type}

/-- The deterministic system of a partial step function. -/
def ofFn (init : σ → Prop) (f : σ → ℓ → Option σ) : LTS σ ℓ where
  init := init
  step s l s' := f s l = some s'

def restrict (T : LTS σ ℓ) (C : σ → ℓ → Prop) : LTS σ ℓ where
  init := T.init
  step s l s' := T.step s l s' ∧ C s l

inductive Run (T : LTS σ ℓ) : σ → List ℓ → σ → Prop
  | nil (s : σ) : Run T s [] s
  | cons {s s' s'' : σ} {l : ℓ} {ls : List ℓ} :
      T.step s l s' → Run T s' ls s'' → Run T s (l :: ls) s''

def Reachable (T : LTS σ ℓ) (s : σ) : Prop := ∃ s0 ls, T.init s0 ∧ T.Run s0 ls s

/-- `I` holds initially and every step keeps it. -/
structure Inductive (T : LTS σ ℓ) (I : σ → Prop) : Prop where
  init : ∀ s, T.init s → I s
  step : ∀ s l s', I s → T.step s l s' → I s'

variable {T : LTS σ ℓ} {I : σ → Prop}

theorem Run.keeps (hI : ∀ s l s', I s → T.step s l s' → I s') {s s' : σ} {ls : List ℓ}
    (h : T.Run s ls s') : I s → I s' := by
  induction h with
  | nil s => exact id
  | cons hst _ ih => exact fun hs => ih (hI _ _ _ hs hst)

/-- An invariant of the labels taken so far and the state they lead to. -/
theorem Run.history {I : List ℓ → σ → Prop} {s s' : σ} {ls : List ℓ} (h : T.Run s ls s')
    (h0 : I [] s)
    (hI : ∀ pre l s s', pre ++ [l] <+: ls → I pre s → T.step s l s' → I (pre ++ [l]) s') :
    I ls s' := by
  have key : ∀ {s s' : σ} {rest : List ℓ}, T.Run s rest s' → ∀ pre, pre ++ rest = ls →
    I pre s → I ls s' := by
    intro s s' rest h
    induction h with
    | nil s =>
      intro pre heq hpre
      rw [List.append_nil] at heq
      rw [← heq]
      exact hpre
    | @cons s s₁ s₂ l rest hst _ ih =>
      intro pre heq hpre
      have heq' : (pre ++ [l]) ++ rest = ls := by rw [List.append_assoc]; exact heq
      exact ih (pre ++ [l]) heq' (hI pre l s s₁ ⟨rest, heq'⟩ hpre hst)
  exact key h [] (List.nil_append ls) h0

theorem Inductive.reachable (hI : T.Inductive I) (s : σ) (h : T.Reachable s) : I s := by
  obtain ⟨s0, ls, h0, hr⟩ := h
  exact hr.keeps hI.step (hI.init s0 h0)

/-- Run the partial step function `f` on the labels, each step under `C`. -/
def exec (f : σ → ℓ → Option σ) (C : σ → ℓ → Prop) [∀ s l, Decidable (C s l)] :
    σ → List ℓ → Option σ
  | s, [] => some s
  | s, l :: ls => if C s l then (f s l).bind fun s' => exec f C s' ls else none

/-- A computed run is a run. -/
theorem run_of_exec {init : σ → Prop} {f : σ → ℓ → Option σ} {C : σ → ℓ → Prop}
    [∀ s l, Decidable (C s l)] :
    ∀ {ls : List ℓ} {s s' : σ}, exec f C s ls = some s' →
      ((ofFn init f).restrict C).Run s ls s' := by
  intro ls
  induction ls with
  | nil =>
    intro s s' h
    simp only [exec, Option.some.injEq] at h
    subst h
    exact .nil s
  | cons l ls ih =>
    intro s s' h
    unfold exec at h
    split at h
    · next hC =>
      rw [Option.bind_eq_some_iff] at h
      obtain ⟨s₁, h₁, h₂⟩ := h
      exact .cons ⟨h₁, hC⟩ (ih h₂)
    · cases h

theorem reachable_of_exec {init : σ → Prop} {f : σ → ℓ → Option σ} {C : σ → ℓ → Prop}
    [∀ s l, Decidable (C s l)] {s₀ s : σ} {ls : List ℓ} (h0 : init s₀)
    (h : exec f C s₀ ls = some s) :
    ((ofFn init f).restrict C).Reachable s :=
  ⟨s₀, ls, h0, run_of_exec h⟩

theorem Run.of_restrict {C : σ → ℓ → Prop} {s s' : σ} {ls : List ℓ}
    (h : (T.restrict C).Run s ls s') : T.Run s ls s' := by
  induction h with
  | nil s => exact .nil s
  | cons hst _ ih => exact .cons hst.1 ih

theorem Reachable.of_restrict {C : σ → ℓ → Prop} {s : σ} (h : (T.restrict C).Reachable s) :
    T.Reachable s := by
  obtain ⟨s₀, ls, h0, hr⟩ := h
  exact ⟨s₀, ls, h0, hr.of_restrict⟩

/-- Two conditions on the steps, one after the other. -/
theorem Run.restrict_and {C D : σ → ℓ → Prop} {s s' : σ} {ls : List ℓ}
    (h : (T.restrict fun s l => C s l ∧ D s l).Run s ls s') :
    ((T.restrict C).restrict D).Run s ls s' := by
  induction h with
  | nil s => exact .nil s
  | cons hst _ ih => exact .cons ⟨⟨hst.1, hst.2.1⟩, hst.2.2⟩ ih

theorem Reachable.restrict_and {C D : σ → ℓ → Prop} {s : σ}
    (h : (T.restrict fun s l => C s l ∧ D s l).Reachable s) :
    ((T.restrict C).restrict D).Reachable s := by
  obtain ⟨s₀, ls, h0, hr⟩ := h
  exact ⟨s₀, ls, h0, hr.restrict_and⟩

/-! ## The exact condition for a property of runs -/

def within (T : LTS σ ℓ) (P : σ → Prop) : LTS σ ℓ where
  init := T.init
  step s l s' := T.step s l s' ∧ P s'

/-- As long as every step has met `C`, `I` holds; from such a state a step meets `C`
exactly if it leads to a state with `P`. -/
structure Guards (T : LTS σ ℓ) (C : σ → ℓ → Prop) (I P : σ → Prop) : Prop where
  init : ∀ s, T.init s → I s
  holds : ∀ s, I s → P s
  keeps : ∀ s l s', I s → T.step s l s' → C s l → I s'
  exact : ∀ s l s', I s → T.step s l s' → P s' → C s l

variable {C : σ → ℓ → Prop} {P : σ → Prop}

theorem Guards.inductive (h : T.Guards C I P) : (T.restrict C).Inductive I where
  init := h.init
  step s l s' hs hst := h.keeps s l s' hs hst.1 hst.2

theorem Guards.reachable (h : T.Guards C I P) (s : σ) (hs : (T.restrict C).Reachable s) : P s :=
  h.holds s (h.inductive.reachable s hs)

theorem Guards.run_iff (h : T.Guards C I P) {s s' : σ} {ls : List ℓ} (h0 : T.init s) :
    (T.within P).Run s ls s' ↔ (T.restrict C).Run s ls s' := by
  have key : ∀ {s : σ}, I s → ((T.within P).Run s ls s' ↔ (T.restrict C).Run s ls s') := by
    induction ls with
    | nil =>
      intro s _
      constructor <;> (intro hr; cases hr; exact .nil s')
    | cons l ls ih =>
      intro s hs
      constructor
      · intro hr
        cases hr with
        | cons hst hr =>
          have hC := h.exact _ _ _ hs hst.1 hst.2
          exact .cons ⟨hst.1, hC⟩ ((ih (h.keeps _ _ _ hs hst.1 hC)).mp hr)
      · intro hr
        cases hr with
        | cons hst hr =>
          have hs' := h.keeps _ _ _ hs hst.1 hst.2
          exact .cons ⟨hst.1, h.holds _ hs'⟩ ((ih hs').mpr hr)
  exact key (h.init s h0)

/-! ## Partial step functions -/

/-- Where the invariant `I` decides by `C` which steps are defined, a sequence of steps
is defined exactly if `C` is met at each. -/
theorem foldlM_some_iff {f : σ → ℓ → Option σ} (hkeep : ∀ s l s', I s → f s l = some s' → I s')
    (hstep : ∀ s l, I s → ((∃ s', f s l = some s') ↔ C s l)) : ∀ (ls : List ℓ) (s : σ), I s →
    ((∃ s', ls.foldlM f s = some s') ↔ ∀ front l back s', ls = front ++ l :: back →
      front.foldlM f s = some s' → C s' l) := by
  intro ls
  induction ls with
  | nil =>
    intro s _
    simp
  | cons l ls ih =>
    intro s hs
    rw [List.foldlM_cons]
    constructor
    · rintro ⟨s₂, h⟩ front k back s' heq hfront
      obtain ⟨s₁, h₁, h₂⟩ := Option.bind_eq_some_iff.mp h
      cases front with
      | nil =>
        obtain ⟨rfl, rfl⟩ := List.cons.inj heq
        cases hfront
        exact (hstep s l hs).mp ⟨s₁, h₁⟩
      | cons k' front =>
        obtain ⟨rfl, rfl⟩ := List.cons.inj heq
        rw [List.foldlM_cons, Option.bind_eq_bind, h₁, Option.bind_some] at hfront
        exact (ih s₁ (hkeep s l s₁ hs h₁)).mp ⟨s₂, h₂⟩ front k back s' rfl hfront
    · intro h
      obtain ⟨s₁, h₁⟩ := (hstep s l hs).mpr (h [] l ls s rfl rfl)
      rw [Option.bind_eq_bind, h₁, Option.bind_some]
      refine (ih s₁ (hkeep s l s₁ hs h₁)).mpr fun front k back s' heq hfront => ?_
      refine h (l :: front) k back s' (by rw [heq]; rfl) ?_
      rw [List.foldlM_cons, Option.bind_eq_bind, h₁, Option.bind_some]
      exact hfront

end LTS

end Tesseract
