import Mathlib.Algebra.Order.Group.Nat
import Mathlib.Data.List.Infix
import Tesseract.L3Store.Topological

/-!
# Embeddings over HTTP

Model of `tesseract-core/src/embedding.rs`: a text is sent to an embedding service, again and
again while the service is overloaded. What comes back from a call is a parameter, `Reply`;
sleeping is the list of the delays.

* `retryable_iff`: the texts of the errors tell which calls to repeat, whatever the service
  writes into them: those that failed with the status 429 or 5xx.
* `embed_eq`: so the first other reply counts, or the last one that there is a retry for.
-/
namespace Tesseract.L5.Vql

open L3 L3.Serde

variable {α : Type} [F64 α]

/-- mirrors tesseract-core/src/embedding.rs:32-40 -/
structure OpenAIEmbeddingConfig where
  timeoutSecs : UInt64
  maxRetries : UInt32
  baseDelayMs : UInt64
  deriving DecidableEq, Repr

/-- mirrors tesseract-core/src/embedding.rs:44-50 -/
def OpenAIEmbeddingConfig.default : OpenAIEmbeddingConfig := ⟨30, 3, 1000⟩

/-- What a request comes to. -/
inductive EmbeddingReply (α : Type) [F64 α] where
  | timedOut
  | failed (text : String)
  /-- the status, and the body as a text and as JSON -/
  | response (status : Nat) (body : String) (json : Except String (Value α))

/-- `body["data"][0]["embedding"].as_array()` -/
def embeddingOf (body : Value α) : Option (List (Value α)) :=
  match Json.get body "data" with
  | some (.arr (first :: _)) =>
    match Json.get first "embedding" with
    | some (.arr data) => some data
    | _ => none
  | _ => none

namespace OpenAIEmbeddingService

/-- mirrors tesseract-core/src/embedding.rs:102-146 -/
def callOpenai (config : OpenAIEmbeddingConfig) : EmbeddingReply α → Result (List α)
  | .timedOut => .error (.serviceError ("Embedding request timed out after " ++
      toString config.timeoutSecs ++ "s"))
  | .failed text => .error (.ioError text)
  | .response status body json =>
    if (500 ≤ status ∧ status ≤ 599) ∨ status = 429 then
      if status = 429 then .error (.serviceError ("Embedding rate limited (429): " ++ body))
      else .error (.serviceError ("Embedding server error (" ++ toString status ++ "): " ++ body))
    else if ¬ (200 ≤ status ∧ status ≤ 299) then
      .error (.serviceError ("Embedding request failed (" ++ toString status ++ "): " ++ body))
    else match json with
      | .error e => .error (.serviceError ("Failed to parse embedding response: " ++ e))
      | .ok body =>
        match embeddingOf body with
        | none => .error (.serviceError "Unexpected embedding response format")
        | some data => .ok (data.map fun v => (decodeF64 v).getD F64.zero)

/-- mirrors tesseract-core/src/embedding.rs:149-151 -/
def isRetryableStatus (status : Nat) : Bool :=
  status = 429 || (500 ≤ status && status ≤ 599)

/-- `str::starts_with` -/
def startsWith (msg start : String) : Bool := decide (start.toList <+: msg.toList)

/-- mirrors tesseract-core/src/embedding.rs:170-173 -/
def isRetryable : Error → Bool
  | .serviceError msg =>
    startsWith msg "Embedding rate limited" || startsWith msg "Embedding server error"
  | _ => false

/-- The delay before an attempt; it wraps around as in a release build.
mirrors tesseract-core/src/embedding.rs:161-164 -/
def delayMs (config : OpenAIEmbeddingConfig) (attempt : Nat) : List UInt64 :=
  if 0 < attempt then [config.baseDelayMs * .ofNat (2 ^ (attempt - 1))] else []

/-- The attempts that are left, with the delays between them.
mirrors tesseract-core/src/embedding.rs:160-189 -/
def attempts (config : OpenAIEmbeddingConfig) (reply : Nat → EmbeddingReply α) :
    Nat → Nat → Option Error → Result (List α) × List UInt64
  | 0, _, lastError =>
    (.error (lastError.getD (.serviceError "Embedding retries exhausted")), [])
  | left + 1, attempt, _ =>
    let (result, delays) := match callOpenai config (reply attempt) with
      | .ok vec => (Except.ok vec, [])
      | .error e =>
        if isRetryable e then attempts config reply left (attempt + 1) (some e)
        else (Except.error e, [])
    (result, delayMs config attempt ++ delays)

/-- `reply n` is what the attempt `n` comes to.
mirrors tesseract-core/src/embedding.rs:157-189 -/
def embed (config : OpenAIEmbeddingConfig) (reply : Nat → EmbeddingReply α) :
    Result (List α) × List UInt64 :=
  attempts config reply (config.maxRetries.toNat + 1) 0 none

/-! ## Which calls are repeated -/

/-- The service answered that it is overloaded. -/
def Overloaded : EmbeddingReply α → Prop
  | .response status _ _ => isRetryableStatus status = true
  | _ => False

theorem startsWith_append {start text : String} (rest : String)
    (h : start.toList.length ≤ text.toList.length) :
    startsWith (text ++ rest) start = startsWith text start := by
  unfold startsWith
  rw [String.toList_append]
  exact decide_eq_decide.mpr ⟨fun hp => List.prefix_of_prefix_length_le hp
    (List.prefix_append _ _) h, fun hp => hp.trans (List.prefix_append _ _)⟩

theorem isRetryable_append {text : String} (rest : String) (h : 22 ≤ text.toList.length) :
    isRetryable (.serviceError (text ++ rest)) = isRetryable (.serviceError text) := by
  have hstart : ∀ start : String, start.toList.length = 22 →
      startsWith (text ++ rest) start = startsWith text start := fun start hlen =>
    startsWith_append rest (by omega)
  simp only [isRetryable]
  rw [hstart _ (by decide), hstart _ (by decide)]

/-- The texts of the errors are enough to tell. -/
theorem retryable_iff (config : OpenAIEmbeddingConfig) (reply : EmbeddingReply α) :
    (∃ e, callOpenai config reply = .error e ∧ isRetryable e = true) ↔ Overloaded reply := by
  cases reply with
  | timedOut =>
    simp only [callOpenai, Overloaded, iff_false, Except.error.injEq, exists_eq_left',
      String.append_assoc]
    rw [isRetryable_append _ (by decide)]
    decide
  | failed text => simp [callOpenai, Overloaded, isRetryable]
  | response status body json =>
    simp only [Overloaded]
    by_cases hover : (500 ≤ status ∧ status ≤ 599) ∨ status = 429
    · have hstatus : isRetryableStatus status = true := by
        simp only [isRetryableStatus, Bool.or_eq_true, Bool.and_eq_true, decide_eq_true_eq]
        exact hover.symm
      unfold callOpenai
      simp only [if_pos hover, hstatus]
      by_cases hlimit : status = 429
      · rw [if_pos hlimit]
        simp only [Except.error.injEq, exists_eq_left', iff_true]
        rw [isRetryable_append _ (by decide)]
        decide
      · rw [if_neg hlimit]
        simp only [Except.error.injEq, exists_eq_left', iff_true, String.append_assoc]
        rw [isRetryable_append _ (by decide)]
        decide
    · have hstatus : ¬ isRetryableStatus status = true := by
        simp only [isRetryableStatus, Bool.or_eq_true, Bool.and_eq_true, decide_eq_true_eq]
        exact fun h => hover h.symm
      unfold callOpenai
      simp only [if_neg hover, hstatus, Bool.false_eq_true, iff_false]
      rintro ⟨e, he, hretry⟩
      split at he
      · obtain rfl := Except.error.inj he
        rw [String.append_assoc, String.append_assoc, isRetryable_append _ (by decide)] at hretry
        exact absurd hretry (by decide)
      · split at he
        · obtain rfl := Except.error.inj he
          rw [isRetryable_append _ (by decide)] at hretry
          exact absurd hretry (by decide)
        · split at he
          · obtain rfl := Except.error.inj he
            exact absurd hretry (by decide)
          · cases he

/-! ## All attempts -/

theorem attempts_overloaded (config : OpenAIEmbeddingConfig) {reply : Nat → EmbeddingReply α}
    {attempt : Nat} (h : Overloaded (reply attempt)) (left : Nat) (lastError : Option Error) :
    ∃ e, callOpenai config (reply attempt) = .error e ∧
      attempts config reply (left + 1) attempt lastError =
        ((attempts config reply left (attempt + 1) (some e)).1,
          delayMs config attempt ++ (attempts config reply left (attempt + 1) (some e)).2) := by
  obtain ⟨e, he, hretry⟩ := (retryable_iff config _).mpr h
  exact ⟨e, he, by simp only [attempts, he, hretry, if_true]⟩

theorem attempts_final {config : OpenAIEmbeddingConfig} {reply : Nat → EmbeddingReply α}
    {attempt : Nat} (h : ¬ Overloaded (reply attempt)) (left : Nat) (lastError : Option Error) :
    attempts config reply (left + 1) attempt lastError =
      (callOpenai config (reply attempt), delayMs config attempt) := by
  cases hcall : callOpenai config (reply attempt) with
  | ok vec => simp [attempts, hcall]
  | error e =>
    have hretry : ¬ isRetryable e = true := fun hr =>
      h ((retryable_iff config _).mp ⟨e, hcall, hr⟩)
    simp [attempts, hcall, hretry]

/-- From an attempt on that has `left` more behind it. -/
theorem attempts_eq (config : OpenAIEmbeddingConfig) (reply : Nat → EmbeddingReply α)
    (left : Nat) : ∀ (attempt : Nat) (lastError : Option Error), ∃ k ≤ left,
      (∀ i < k, Overloaded (reply (attempt + i))) ∧
      (k = left ∨ ¬ Overloaded (reply (attempt + k))) ∧
      attempts config reply (left + 1) attempt lastError =
        (callOpenai config (reply (attempt + k)),
          (List.range (k + 1)).flatMap fun i => delayMs config (attempt + i)) := by
  induction left with
  | zero =>
    intro attempt lastError
    refine ⟨0, Nat.le_refl 0, by simp, .inl rfl, ?_⟩
    by_cases h : Overloaded (reply attempt)
    · obtain ⟨e, he, hattempts⟩ := attempts_overloaded config h 0 lastError
      rw [hattempts]
      simp [attempts, he]
    · rw [attempts_final h]
      simp
  | succ left ih =>
    intro attempt lastError
    by_cases h : Overloaded (reply attempt)
    · obtain ⟨e, he, hattempts⟩ := attempts_overloaded config h (left + 1) lastError
      obtain ⟨k, hk, hover, hend, hrest⟩ := ih (attempt + 1) (some e)
      have hshift : ∀ i, attempt + 1 + i = attempt + (i + 1) := fun i => by omega
      simp only [hshift] at hover hend hrest
      refine ⟨k + 1, by omega, fun i hi => ?_, ?_, ?_⟩
      · cases i with
        | zero => exact h
        | succ i => exact hover i (by omega)
      · rcases hend with rfl | hend
        · exact .inl rfl
        · exact .inr hend
      · rw [hattempts, hrest, @List.range_succ_eq_map (k + 1), List.flatMap_cons,
          List.flatMap_map]
        rfl
    · refine ⟨0, Nat.zero_le _, by simp, .inr h, ?_⟩
      rw [attempts_final h]
      simp

/-- The first reply counts that does not tell to come again, or the last one that there is a
retry for. The delays before the retries double each time. -/
theorem embed_eq (config : OpenAIEmbeddingConfig) (reply : Nat → EmbeddingReply α) :
    ∃ k ≤ config.maxRetries.toNat, (∀ i < k, Overloaded (reply i)) ∧
      (k = config.maxRetries.toNat ∨ ¬ Overloaded (reply k)) ∧
      embed config reply = (callOpenai config (reply k),
        (List.range k).map fun i => config.baseDelayMs * .ofNat (2 ^ i)) := by
  obtain ⟨k, hk, hover, hend, heq⟩ := attempts_eq config reply config.maxRetries.toNat 0 none
  simp only [Nat.zero_add] at hover hend heq
  refine ⟨k, hk, hover, hend, ?_⟩
  rw [embed, heq, List.range_succ_eq_map, List.flatMap_cons, List.flatMap_map]
  simp [delayMs, List.map_eq_flatMap]

end OpenAIEmbeddingService

end Tesseract.L5.Vql
