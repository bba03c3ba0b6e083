import Mathlib.Algebra.Group.Nat.Defs
import Tesseract.Core.Assoc
import Tesseract.Core.SlidingWindow

/-!
# The rate limiter

Model of `tesseract-api/src/rate_limiter.rs`. The limiter keeps one window for each
address: a request later than `window_duration` after its start begins the next one, and
the first `max_requests` of a window pass.

* `allowed_eq`: what passes of one address depends on the times of its requests only.
* `allowedAlone_none`: it is what the count lets through of each fixed window.
* `passing_eq_take`, `passing_wraps`: those are the first `max_requests`; a count of
  2^64 wraps around and lets one more through.
* `check_sliding_iff`: when that is also the limit of every sliding window.
-/
namespace Tesseract.L7

open Assoc SlidingWindow

/-- Times are in nanoseconds.
mirrors tesseract-api/src/rate_limiter.rs:15-18 -/
structure Window where
  start : Nat
  count : UInt64
  deriving DecidableEq, Repr

variable {ι : Type} [DecidableEq ι]

/-- mirrors tesseract-api/src/rate_limiter.rs:23-27 -/
structure RateLimiter (ι : Type) where
  windows : Map ι Window
  maxRequests : UInt64
  windowDuration : Nat

namespace RateLimiter

/-- `Duration::from_secs(60)` -/
def minute : Nat := 60 * 10 ^ 9

/-- mirrors tesseract-api/src/rate_limiter.rs:31-37 -/
def new (maxRpm : UInt64) : RateLimiter ι := ⟨∅, maxRpm, minute⟩

/-- mirrors tesseract-api/src/rate_limiter.rs:47-52 -/
def countRequest (windowDuration now : Nat) (window : Window) : Window :=
  let window := if windowDuration < now - window.start then ⟨now, 0⟩ else window
  { window with count := window.count + 1 }

/-- `now` is read under the lock. The count wraps around as in a release build.
mirrors tesseract-api/src/rate_limiter.rs:42-57 -/
def check (l : RateLimiter ι) (now : Nat) (ip : ι) : RateLimiter ι × Except Unit Unit :=
  let window := countRequest l.windowDuration now ((l.windows.lookup ip).getD ⟨now, 0⟩)
  ({ l with windows := l.windows.insert ip window },
    if l.maxRequests < window.count then .error () else .ok ())

/-- The times at which requests from `ip` pass, of requests one after the other. -/
def allowed (ip : ι) : RateLimiter ι → List (ι × Nat) → List Nat
  | _, [] => []
  | l, (who, now) :: reqs =>
    if who = ip ∧ (l.check now who).2 = .ok () then now :: allowed ip (l.check now who).1 reqs
    else allowed ip (l.check now who).1 reqs

def timesOf (ip : ι) (reqs : List (ι × Nat)) : List Nat :=
  (reqs.filter fun r => r.1 = ip).map Prod.snd

/-! ## One address alone -/

/-- The times that pass of one address, from its window. -/
def allowedAlone (max : UInt64) (d : Nat) : Option Window → List Nat → List Nat
  | _, [] => []
  | window, t :: ts =>
    let window := countRequest d t (window.getD ⟨t, 0⟩)
    if window.count ≤ max then t :: allowedAlone max d (some window) ts
    else allowedAlone max d (some window) ts

theorem check_lookup (l : RateLimiter ι) (now : Nat) (who ip : ι) :
    (l.check now who).1.windows.lookup ip =
      if ip = who then
        some (countRequest l.windowDuration now ((l.windows.lookup who).getD ⟨now, 0⟩))
      else l.windows.lookup ip := by
  simp only [check]
  exact lookup_insert_eq _ _ _ _

theorem check_ok_iff (l : RateLimiter ι) (now : Nat) (ip : ι) : (l.check now ip).2 = .ok () ↔
    (countRequest l.windowDuration now ((l.windows.lookup ip).getD ⟨now, 0⟩)).count ≤
      l.maxRequests := by
  simp only [check]
  split
  · next h => simpa using h
  · next h => simpa using h

/-- Requests from other addresses do not matter. -/
theorem allowed_eq (ip : ι) (reqs : List (ι × Nat)) : ∀ l : RateLimiter ι, allowed ip l reqs =
    allowedAlone l.maxRequests l.windowDuration (l.windows.lookup ip) (timesOf ip reqs) := by
  induction reqs with
  | nil => exact fun _ => rfl
  | cons r reqs ih =>
    intro l
    obtain ⟨who, now⟩ := r
    rw [allowed, ih, check_lookup]
    simp only [check_ok_iff]
    by_cases hip : who = ip
    · subst hip
      have htimes : timesOf who ((who, now) :: reqs) = now :: timesOf who reqs := by
        simp [timesOf]
      rw [htimes, allowedAlone, if_pos rfl]
      simp only [true_and]
      rfl
    · have htimes : timesOf ip ((who, now) :: reqs) = timesOf ip reqs := by
        simp [timesOf, hip]
      rw [htimes, if_neg (fun h => hip h.1), if_neg (Ne.symm hip)]
      rfl

/-! ## What passes of a window -/

/-- What the count lets through of the requests of one window. -/
def passing (max : UInt64) : UInt64 → List Nat → List Nat
  | _, [] => []
  | count, t :: ts =>
    if count + 1 ≤ max then t :: passing max (count + 1) ts else passing max (count + 1) ts

theorem allowedAlone_some (max : UInt64) (d : Nat) (ts : List Nat) :
    ∀ (start : Nat) (count : UInt64), allowedAlone max d (some ⟨start, count⟩) ts =
      passing max count (windowsFrom d start ts).1 ++
        (windowsFrom d start ts).2.flatMap (passing max 0) := by
  induction ts with
  | nil => exact fun _ _ => rfl
  | cons t ts ih =>
    intro start count
    rw [allowedAlone, windowsFrom, Option.getD_some, countRequest]
    by_cases h : d < t - start
    · -- the next window starts here
      simp only [if_pos h, List.flatMap_cons, ih, passing, List.nil_append]
      split <;> rfl
    · simp only [if_neg h, ih, passing]
      split <;> rfl

theorem allowedAlone_none (max : UInt64) (d : Nat) (ts : List Nat) :
    allowedAlone max d none ts = (SlidingWindow.windows d ts).flatMap (passing max 0) := by
  cases ts with
  | nil => rfl
  | cons t ts =>
    rw [allowedAlone, SlidingWindow.windows, List.flatMap_cons]
    simp only [Option.getD_none, countRequest, Nat.sub_self, Nat.not_lt_zero, if_false, passing,
      allowedAlone_some]
    split <;> rfl

theorem toNat_succ (count : UInt64) (h : count.toNat + 1 < 2 ^ 64) :
    (count + 1).toNat = count.toNat + 1 := by
  rw [UInt64.toNat_add, UInt64.toNat_one, Nat.mod_eq_of_lt h]

theorem passing_eq_take (max : UInt64) (ts : List Nat) : ∀ count : UInt64,
    count.toNat + ts.length < 2 ^ 64 →
    passing max count ts = ts.take (max.toNat - count.toNat) := by
  induction ts with
  | nil => exact fun _ _ => by rw [passing, List.take_nil]
  | cons t ts ih =>
    intro count hroom
    rw [List.length_cons] at hroom
    have hsucc := toNat_succ count (by omega)
    rw [passing, ih (count + 1) (by omega), hsucc]
    by_cases hle : count + 1 ≤ max
    · rw [if_pos hle]
      rw [UInt64.le_iff_toNat_le, hsucc] at hle
      rw [show max.toNat - count.toNat = max.toNat - (count.toNat + 1) + 1 by omega,
        List.take_succ_cons]
    · rw [if_neg hle]
      rw [UInt64.le_iff_toNat_le, hsucc] at hle
      rw [show max.toNat - (count.toNat + 1) = 0 by omega,
        show max.toNat - count.toNat = 0 by omega, List.take_zero, List.take_zero]

theorem passing_append (max : UInt64) (ts us : List Nat) : ∀ count : UInt64,
    passing max count (ts ++ us) =
      passing max count ts ++ passing max (count + UInt64.ofNat ts.length) us := by
  induction ts with
  | nil => intro count; simp [passing]
  | cons t ts ih =>
    intro count
    have hcount : count + UInt64.ofNat (ts.length + 1) = count + 1 + UInt64.ofNat ts.length := by
      rw [UInt64.ofNat_add, UInt64.add_assoc, UInt64.add_comm (UInt64.ofNat ts.length)]
      rfl
    rw [List.cons_append, passing, passing, ih, List.length_cons, hcount]
    split <;> rfl

theorem passing_sublist (max : UInt64) (ts : List Nat) : ∀ count : UInt64,
    (passing max count ts).Sublist ts := by
  induction ts with
  | nil => exact fun _ => .slnil
  | cons t ts ih =>
    intro count
    rw [passing]
    split
    · exact (ih _).cons_cons t
    · exact (ih _).cons t

/-- The request that brings the count to 2^64 passes as well. -/
theorem passing_wraps (max : UInt64) {ts : List Nat} (h : 2 ^ 64 ≤ ts.length) :
    max.toNat < (passing max 0 ts).length := by
  have hmax := max.toNat_lt
  obtain ⟨t, rest, hrest⟩ : ∃ t rest, ts.drop (2 ^ 64 - 1) = t :: rest :=
    List.exists_cons_of_ne_nil (by rw [ne_eq, List.drop_eq_nil_iff]; omega)
  have hlen : (ts.take (2 ^ 64 - 1)).length = 2 ^ 64 - 1 := by
    rw [List.length_take]
    omega
  have hzero : (0 : UInt64) + UInt64.ofNat (2 ^ 64 - 1) + 1 = 0 := by decide
  rw [← List.take_append_drop (2 ^ 64 - 1) ts, passing_append, hrest, hlen, passing, hzero,
    if_pos (UInt64.le_iff_toNat_le.mpr (Nat.zero_le _)), passing_eq_take _ _ _ (by
      rw [hlen]; decide), List.length_append, List.length_take, List.length_cons, hlen]
  have : (0 : UInt64).toNat = 0 := rfl
  omega

/-! ## The limit of every sliding window -/

theorem allowed_new (maxRpm : UInt64) (ip : ι) (reqs : List (ι × Nat)) :
    allowed ip (new maxRpm) reqs =
      (SlidingWindow.windows minute (timesOf ip reqs)).flatMap (passing maxRpm 0) := by
  rw [allowed_eq, ← allowedAlone_none]
  rfl

/-- Where no count wraps around, the first `max_requests` of every window pass. -/
theorem allowed_takes {maxRpm : UInt64} {ip : ι} {reqs : List (ι × Nat)}
    (h : ∀ ts ∈ SlidingWindow.windows minute (timesOf ip reqs), ts.length < 2 ^ 64) :
    allowed ip (new maxRpm) reqs =
      (SlidingWindow.windows minute (timesOf ip reqs)).flatMap (List.take maxRpm.toNat) := by
  rw [allowed_new]
  refine List.flatMap_congr fun ts hts => ?_
  have hzero : (0 : UInt64).toNat = 0 := rfl
  rw [passing_eq_take _ _ _ (by rw [hzero, Nat.zero_add]; exact h ts hts), hzero, Nat.sub_zero]

theorem passing_sublist_allowed {maxRpm : UInt64} {ip : ι} {reqs : List (ι × Nat)} {ts : List Nat}
    (h : ts ∈ SlidingWindow.windows minute (timesOf ip reqs)) :
    (passing maxRpm 0 ts).Sublist (allowed ip (new maxRpm) reqs) := by
  rw [allowed_new, List.flatMap_def]
  exact List.sublist_flatten_of_mem (List.mem_map_of_mem h)

/-- At most `max_requests` requests of one address pass in every interval of a minute exactly
if every window of the limiter follows the one before slowly enough and no count wraps
around. -/
theorem check_sliding_iff (maxRpm : UInt64) (ip : ι) (reqs : List (ι × Nat))
    (hs : (timesOf ip reqs).Pairwise (· ≤ ·)) :
    (∀ a, (during minute a (allowed ip (new maxRpm) reqs)).length ≤ maxRpm.toNat) ↔
      (∀ ts ∈ SlidingWindow.windows minute (timesOf ip reqs), ts.length < 2 ^ 64) ∧
      (SlidingWindow.windows minute (timesOf ip reqs)).IsChain (Follows maxRpm.toNat minute) := by
  by_cases hroom : ∀ ts ∈ SlidingWindow.windows minute (timesOf ip reqs), ts.length < 2 ^ 64
  · rw [allowed_takes hroom, takes_during_iff hs]
    exact (and_iff_right hroom).symm
  · refine iff_of_false (fun hlimit => ?_) (fun h => hroom h.1)
    push Not at hroom
    obtain ⟨ts, hts, hlong⟩ := hroom
    -- the window alone lets too many through
    obtain ⟨start, _, hin⟩ := (windows_cut hs).inside ts hts
    have hpass : (passing maxRpm 0 ts).length ≤
        (during minute start (allowed ip (new maxRpm) reqs)).length :=
      length_during_le (passing_sublist_allowed hts)
        fun t ht => hin t ((passing_sublist maxRpm ts 0).subset ht)
    have := passing_wraps maxRpm hlong
    have := hlimit start
    omega

theorem check_sliding_slow : (during minute (59 * 10 ^ 9) (allowed () (new 2)
    [((), 0), ((), 59 * 10 ^ 9), ((), 61 * 10 ^ 9), ((), 120 * 10 ^ 9)])).length ≤ 2 :=
  (check_sliding_iff 2 () _ (by decide)).mpr ⟨by decide, by decide⟩ (59 * 10 ^ 9)

/-- Two requests a minute: one at the end of a window and two at the start of the next. -/
theorem check_not_sliding : ¬ ∀ (maxRpm : UInt64) (reqs : List (Unit × Nat)),
    (timesOf () reqs).Pairwise (· ≤ ·) →
    ∀ a, (during minute a (allowed () (new maxRpm) reqs)).length ≤ maxRpm.toNat := by
  intro h
  have hburst := h 2 [((), 0), ((), 59 * 10 ^ 9), ((), 61 * 10 ^ 9), ((), 61 * 10 ^ 9)] (by decide)
    (59 * 10 ^ 9)
  exact absurd hburst (by decide)

end RateLimiter

end Tesseract.L7
