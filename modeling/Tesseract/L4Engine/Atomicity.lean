import Tesseract.L4Engine.Insert
import Tesseract.L4Engine.Open

/-!
# Is a rejected `insert` without effect?

An `insert` writes its entry to the log before the hot store or the index can
reject it, and nothing takes the entry back.

* `logs_reachable`: while the log takes every entry, the log of a reachable engine
  is the list of the entries it was given.
* `insert_grows`: a call that the log takes has its entry recovered, rejected or not.
* `insert_atomic_iff`: so the calls that leave no trace when they fail are those
  that cannot fail.
-/
namespace Tesseract.L4.Engine

open L1.Wal L2.Log L3 L3.Serde

variable {α β : Type} [F64 α]

/-- What a rejected call has to leave as it was. -/
structure Unchanged (P : Deps α) (s s' : Engine α β) : Prop where
  hot : s'.hot = s.hot
  cold : s'.cold = s.cold
  index : s'.index = s.index
  centroids : s'.centroids = s.centroids
  correlations : s'.correlations = s.correlations
  buckets : s'.buckets = s.buckets
  hotBuffer : s'.hotBuffer = s.hotBuffer
  recovered : recover P.wal s'.wal.disk = recover P.wal s.wal.disk

/-- The log takes the entry: no write of it fails, the payload fits its length
field, and the counters do not wrap. -/
def Takes (P : Deps α) (s : Engine α β) (c : Call α) : Prop :=
  c.env.walFault = .none ∧ (payload P c).length < 2 ^ 32 ∧ Room s.wal

/-- A step whose entry, if it is an insert, is taken by the log. -/
def Orderly (P : Deps α) (s : Engine α β) : Label α → Prop
  | .insert c => Takes P s c
  | _ => True

variable [F32 β] [Narrow α β] {P : Deps α}

/-! ## The log of a reachable engine -/

omit [Narrow α β] in
theorem shutdown_logs {s s' : Engine α β} {r : Result Unit} {log : List WalEntry}
    (h : s.shutdown P = some (s', r)) (hlog : Logs P.wal s.wal log) : Logs P.wal s'.wal log := by
  rw [(shutdown_inv h).2.2.1]
  exact hlog.flush

theorem step_logs {s s' : Engine α β} {l : Label α} {log : List WalEntry} (h : step P s l = some s')
    (ho : Orderly P s l) (hlog : Logs P.wal s.wal log) : ∃ log', Logs P.wal s'.wal log' := by
  cases l with
  | insert c =>
    obtain ⟨hwal, hfit, hroom⟩ := ho
    obtain ⟨⟨s₁, r⟩, hins, rfl⟩ := Option.map_eq_some_iff.mp h
    exact ⟨_, insert_logs hins hwal hlog hroom hfit⟩
  | promote rank =>
    cases h
    exact ⟨log, hlog⟩
  | demote env =>
    cases h
    refine ⟨log, ?_⟩
    unfold runDemotion
    split
    · exact hlog
    · exact hlog
  | shutdown =>
    obtain ⟨⟨s₁, r⟩, hdown, rfl⟩ := Option.map_eq_some_iff.mp h
    exact ⟨log, shutdown_logs hdown hlog⟩
  | reopen env =>
    obtain ⟨r, hopen, hr⟩ := Option.bind_eq_some_iff.mp h
    cases r with
    | error x => cases hr
    | ok s₁ =>
      cases hr
      exact ⟨log, reopen_logs hopen hlog⟩

theorem logs_reachable {s : Engine α β} (h : ((system P).restrict (Orderly P)).Reachable s) :
    ∃ log, Logs P.wal s.wal log := by
  apply LTS.Inductive.reachable (I := fun s : Engine α β => ∃ log, Logs P.wal s.wal log) _ s h
  constructor
  · intro s ⟨env, config, hs⟩
    exact ⟨[], create_logs hs⟩
  · intro s l s' ⟨log, hlog⟩ hst
    exact step_logs hst.1 hst.2 hlog

/-! ## Rejected calls -/

/-- The entry of a call is recovered, accepted or not. -/
theorem insert_grows {s s' : Engine α β} {c : Call α} {r : Result Unit}
    (hs : ((system P).restrict (Orderly P)).Reachable s) (h : s.insert P c = some (s', r))
    (ht : Takes P s c) :
    recover P.wal s'.wal.disk ≠ recover P.wal s.wal.disk := by
  obtain ⟨log, hlog⟩ := logs_reachable hs
  have hlog' := insert_logs h ht.1 hlog ht.2.2 ht.2.1
  rw [hlog'.recover, hlog.recover]
  simp

/-- A call that no write fails in leaves no trace when it is rejected, if it
cannot be rejected; and only then, if the log takes its entry. -/
theorem insert_atomic_iff (P : Deps α) (c : Call α) (hf : c.env.Faultless) :
    (∀ s s' : Engine α β, ∀ r, s.insert P c = some (s', r) → Accepted s c → ∀ x, r = .error x →
      Unchanged P s s') ∧
    (∀ s s' : Engine α β, ∀ r, ((system P).restrict (Orderly P)).Reachable s → Takes P s c →
      s.insert P c = some (s', r) → ((∀ x, r = .error x → Unchanged P s s') ↔ Accepted s c)) := by
  have hsuff : ∀ s s' : Engine α β, ∀ r, s.insert P c = some (s', r) → Accepted s c →
      ∀ x, r = .error x → Unchanged P s s' := by
    intro s s' r h hacc x hx
    rw [(insert_ok_iff h hf).mpr hacc] at hx
    cases hx
  refine ⟨hsuff, fun s s' r hs ht h => ⟨fun hatomic => ?_, hsuff s s' r h⟩⟩
  cases r with
  | ok u => exact (insert_ok_iff h hf).mp rfl
  | error x => exact absurd (hatomic x rfl).recovered (insert_grows hs h ht)

/-! ## A vector of the wrong length -/

/-- A new engine with an index of dimension 2. -/
def planar : Engine Lit Lit := (opened (small 10 (some 2))).get (by decide +kernel)

theorem planar_reachable : ((system deps).restrict (Orderly deps)).Reachable planar :=
  ⟨planar, [], ⟨calmOpen, _, create_of_opened (by rw [planar, Option.some_get])⟩, .nil _⟩

/-- One component where the index has two. -/
def short : Call Lit := call 7 [5]

/-- What the call returns. -/
def afterShort : Engine Lit Lit × Result Unit := (planar.insert deps short).get (by decide +kernel)

theorem insert_short : planar.insert deps short = some afterShort := by
  rw [afterShort, Option.some_get]

theorem short_takes : Takes deps planar short :=
  ⟨rfl, by decide +kernel, by decide +kernel, by decide +kernel⟩

/-- The record of a refused vector is in the hot store, and its entry is
recovered. -/
theorem short_not_atomic : (system deps).Reachable planar ∧ short.env.Faultless ∧
    planar.insert deps short = some (afterShort.1, .error (.dimensionMismatch 1 2)) ∧
    ¬ Unchanged deps planar afterShort.1 := by
  have hr : afterShort.2 = .error (.dimensionMismatch 1 2) := by decide +kernel
  refine ⟨planar_reachable.of_restrict, calm_faultless, ?_, ?_⟩
  · rw [insert_short, ← hr]
  · intro h
    have hhot : afterShort.1.hot.vectors.length = planar.hot.vectors.length := by rw [h.hot]
    revert hhot
    decide +kernel

theorem insert_atomic_short : Takes deps planar short ∧ ¬ Accepted planar short ∧
    ¬ ∀ x, afterShort.2 = .error x → Unchanged deps planar afterShort.1 := by
  have hiff := (insert_atomic_iff deps short calm_faultless).2 planar _ _ planar_reachable
    short_takes insert_short
  have hno : ¬ Accepted planar short := by
    intro hacc
    have hdim := hacc.1 _ (show planar.index = some (.new 2 ⟨16, 32, 200, .cosine⟩) from rfl)
    revert hdim
    decide +kernel
  exact ⟨short_takes, hno, fun h => hno (hiff.mp h)⟩

end Tesseract.L4.Engine
