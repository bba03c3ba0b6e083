import Mathlib.Algebra.Order.Ring.Int
import Mathlib.Tactic.Linarith

/-!
# Jump hash

Model of `tesseract-cluster/src/jump_hash.rs`. The step `j` of the loop, an `f64`
expression in the source, is exact floor division here; `as i64` saturates. The
loop has fuel.

* `Consistent`: what a consistent hash is: a new bucket takes keys from the old
  ones, and no key moves between old buckets (`Consistent.moves`).
* `jumpHash_terminates`: with one round for each bucket and one more, the loop ends.
* `jumpHash_consistent`: the buckets of a key under `1, 2, 3, …` buckets are consistent.
-/
namespace Tesseract.L6

/-! ## Consistent hashes -/

/-- The buckets `f n` of one key under `n` buckets, for `n` below `bound`. -/
structure Consistent (bound : Nat) (f : Nat → Nat) : Prop where
  lt : ∀ n, 0 < n → n < bound → f n < n
  step : ∀ n, 0 < n → n + 1 < bound → f (n + 1) = f n ∨ f (n + 1) = n

/-- A key that moves when buckets are added moves to one of the new buckets. -/
theorem Consistent.moves {bound : Nat} {f : Nat → Nat} (h : Consistent bound f) {n m : Nat}
    (hn : 0 < n) (hnm : n ≤ m) (hm : m < bound) : f m = f n ∨ n ≤ f m ∧ f m < m := by
  induction m, hnm using Nat.le_induction with
  | base => exact .inl rfl
  | succ m hnm ih =>
    rcases h.step m (by omega) hm with hsame | hnew
    · rw [hsame]
      rcases ih (by omega) with heq | hlt
      · exact .inl heq
      · exact .inr (by omega)
    · exact .inr (by omega)

/-! ## The code -/

/-- A `u64` as an `i64`. -/
def asI64 (n : UInt64) : Int := (n.toNat : Int).bmod (2 ^ 64)

/-- An `i64` as a `u64`. -/
def asU64 (b : Int) : UInt64 := UInt64.ofNat (b % 2 ^ 64).toNat

/-- A number as an `i64`: what does not fit is the nearest that does. -/
def saturateI64 (x : Int) : Int := max (-2 ^ 63) (min x (2 ^ 63 - 1))

/-- mirrors tesseract-cluster/src/jump_hash.rs:20 -/
def nextKey (key : UInt64) : UInt64 := key * 2862933555777941757 + 1

/-- mirrors tesseract-cluster/src/jump_hash.rs:21 -/
def nextJump (b : Int) (key : UInt64) : Int :=
  saturateI64 ((b + 1).bmod (2 ^ 64) * (2 : Int) ^ 31 / ((key >>> 33).toNat + 1 : Int))

/-- mirrors tesseract-cluster/src/jump_hash.rs:18-22 -/
def jumpLoop (numBuckets : Int) : Nat → UInt64 → Int → Int → Option Int
  | 0, _, _, _ => none
  | fuel + 1, key, b, j =>
    if j < numBuckets then
      let b := j
      let key := nextKey key
      jumpLoop numBuckets fuel key b (nextJump b key)
    else some b

/-- mirrors tesseract-cluster/src/jump_hash.rs:11-24 -/
def jumpHash (fuel : Nat) (key numBuckets : UInt64) : Option UInt64 :=
  if numBuckets = 0 then some 0
  else (jumpLoop (asI64 numBuckets) fuel key (-1) 0).map asU64

/-! ## The loop -/

theorem asI64_eq {n : UInt64} (h : n.toNat < 2 ^ 63) : asI64 n = n.toNat := by
  unfold asI64
  rw [Int.bmod_eq_of_le (by omega) (by omega)]

theorem asU64_toNat {b : Int} (h0 : 0 ≤ b) (h : b < 2 ^ 63) : ((asU64 b).toNat : Int) = b := by
  unfold asU64
  rw [UInt64.toNat_ofNat']
  omega

theorem shift_le (key : UInt64) : (key >>> 33).toNat + 1 ≤ 2 ^ 31 := by
  rw [UInt64.toNat_shiftRight]
  have := key.toNat_lt
  simp only [UInt64.reduceToNat, Nat.reduceMod, Nat.shiftRight_eq_div_pow]
  omega

/-- A jump goes forward: the divisor is at most `2 ^ 31`. -/
theorem lt_nextJump {b : Int} (key : UInt64) (h0 : 0 ≤ b) (hb : b < 2 ^ 63 - 1) :
    b < nextJump b key := by
  have hK := shift_le key
  unfold nextJump saturateI64
  generalize (key >>> 33).toNat = K at hK ⊢
  have hmod : (b + 1).bmod (2 ^ 64) = b + 1 := Int.bmod_eq_of_le (by omega) (by omega)
  have hle : b + 1 ≤ (b + 1) * 2 ^ 31 / ((K : Int) + 1) := by
    rw [Int.le_ediv_iff_mul_le (by omega)]
    exact Int.mul_le_mul_of_nonneg_left (by omega) (by omega)
  rw [hmod]
  omega

/-- The loop ends, on a bucket in range. -/
theorem jumpLoop_some {N : Int} (hN : N < 2 ^ 63) {fuel : Nat} {key : UInt64} {b j : Int}
    (hj : 0 ≤ j) (hb : j < N ∨ 0 ≤ b ∧ b < N) (hpos : 0 < fuel) (hfuel : N - j < fuel) :
    ∃ r, jumpLoop N fuel key b j = some r ∧ 0 ≤ r ∧ r < N := by
  induction fuel generalizing key b j with
  | zero => omega
  | succ fuel ih =>
    unfold jumpLoop
    split
    · next hlt =>
      have hnext := lt_nextJump (nextKey key) hj (by omega)
      exact ih (by omega) (.inr ⟨hj, hlt⟩) (by omega) (by omega)
    · next hge => exact ⟨b, rfl, by omega, by omega⟩

/-- More fuel changes nothing. -/
theorem jumpLoop_fuel {N : Int} {fuel fuel' : Nat} {key : UInt64} {b j r : Int}
    (h : jumpLoop N fuel key b j = some r) (hle : fuel ≤ fuel') :
    jumpLoop N fuel' key b j = some r := by
  induction fuel generalizing key b j fuel' with
  | zero => cases h
  | succ fuel ih =>
    obtain ⟨fuel', rfl⟩ : ∃ m, fuel' = m + 1 := ⟨fuel' - 1, by omega⟩
    unfold jumpLoop at h ⊢
    split at h
    · next hlt => simpa only [if_pos hlt] using ih h (by omega)
    · next hge => simpa only [if_neg hge] using h

/-- The bucket only grows from round to round. -/
theorem le_jumpLoop {N : Int} (hN : N < 2 ^ 63) {fuel : Nat} {key : UInt64} {b j r : Int}
    (hj : 0 ≤ j) (hbj : b ≤ j) (h : jumpLoop N fuel key b j = some r) : b ≤ r := by
  induction fuel generalizing key b j with
  | zero => cases h
  | succ fuel ih =>
    unfold jumpLoop at h
    split at h
    · have hnext := lt_nextJump (nextKey key) hj (by omega)
      have := ih (by omega) (by omega) h
      omega
    · exact (Option.some.inj h).le

/-- The rounds do not depend on the number of buckets, only their number does: under
more buckets the loop ends on the same bucket, or goes on past the old ones. -/
theorem jumpLoop_more {N N' : Int} (hle : N ≤ N') (hN' : N' < 2 ^ 63) {fuel fuel' : Nat}
    {key : UInt64} {b j r r' : Int} (hj : 0 ≤ j) (h : jumpLoop N fuel key b j = some r)
    (h' : jumpLoop N' fuel' key b j = some r') : r' = r ∨ N ≤ r' := by
  induction fuel' generalizing key b j fuel with
  | zero => cases h'
  | succ fuel' ih =>
    cases fuel with
    | zero => cases h
    | succ fuel =>
      unfold jumpLoop at h h'
      by_cases hlt : j < N
      · rw [if_pos hlt] at h
        rw [if_pos (by omega)] at h'
        have hnext := lt_nextJump (nextKey key) hj (by omega)
        exact ih (by omega) h h'
      · rw [if_neg hlt] at h
        split at h'
        · -- `j` is the first of the new buckets on the way
          have hnext := lt_nextJump (nextKey key) hj (by omega)
          have := le_jumpLoop hN' (by omega) (by omega) h'
          omega
        · rw [h] at h'
          exact .inl (Option.some.inj h').symm

/-! ## The buckets of a key -/

/-- With fuel for one round a bucket and one more, the bucket of `key` is `r`. -/
def Lands (key numBuckets r : UInt64) : Prop :=
  ∀ fuel, numBuckets.toNat < fuel → jumpHash fuel key numBuckets = some r

/-- The bucket of `key` under `n` buckets, as a number. -/
def bucket (key : UInt64) (n : Nat) : Nat :=
  ((jumpLoop n (n + 1) key (-1) 0).getD 0).toNat

theorem jumpLoop_bucket (key : UInt64) {n : Nat} (hpos : 0 < n) (hn : n < 2 ^ 63) :
    jumpLoop n (n + 1) key (-1) 0 = some (bucket key n : Int) ∧ bucket key n < n := by
  obtain ⟨r, hr, h0, hlt⟩ :
      ∃ r, jumpLoop n (n + 1) key (-1) 0 = some r ∧ 0 ≤ r ∧ r < (n : Int) :=
    jumpLoop_some (by omega) (by omega) (.inl (by omega)) (by omega) (by omega)
  have hb : bucket key n = r.toNat := by simp [bucket, hr]
  exact ⟨by rw [hr, hb, Int.toNat_of_nonneg h0], by omega⟩

theorem bucket_consistent (key : UInt64) : Consistent (2 ^ 63) (bucket key) where
  lt n hpos hn := (jumpLoop_bucket key hpos hn).2
  step n hpos hn := by
    obtain ⟨h, hlt⟩ := jumpLoop_bucket key hpos (by omega)
    obtain ⟨h', hlt'⟩ := jumpLoop_bucket key (n := n + 1) (by omega) hn
    have := jumpLoop_more (by omega) (by omega) (by omega) h h'
    omega

/-- For every key and every number of buckets the loop ends. -/
theorem jumpHash_terminates (key : UInt64) {n : UInt64} (hpos : 0 < n.toNat)
    (hn : n.toNat < 2 ^ 63) : Lands key n (UInt64.ofNat (bucket key n.toNat)) := by
  intro fuel hfuel
  obtain ⟨h, hlt⟩ := jumpLoop_bucket key hpos hn
  have hne : n ≠ 0 := by
    intro hz
    simp [hz] at hpos
  rw [jumpHash, if_neg hne, asI64_eq hn, jumpLoop_fuel h hfuel, Option.map_some]
  congr 1
  apply UInt64.toNat_inj.mp
  have := asU64_toNat (b := bucket key n.toNat) (by omega) (by omega)
  rw [UInt64.toNat_ofNat', Nat.mod_eq_of_lt (by omega)]
  omega

/-- A key has a bucket in range; one more bucket leaves it there or takes it, and among
more buckets the key stays or moves to a new one. -/
theorem jumpHash_consistent (key n : UInt64) (hpos : 1 ≤ n.toNat) (hn : n.toNat ≤ 2 ^ 31) :
    ∃ r, Lands key n r ∧ r < n ∧
      (∃ r', Lands key (n + 1) r' ∧ (r' = r ∨ r' = n)) ∧
      ∀ n', n < n' → n'.toNat < 2 ^ 63 →
        ∃ r', Lands key n' r' ∧ (r' = r ∨ n ≤ r' ∧ r' < n') := by
  have hlands := jumpHash_terminates key (n := n) (by omega) (by omega)
  have hlt := (bucket_consistent key).lt n.toNat (by omega) (by omega)
  have hsucc : (n + 1).toNat = n.toNat + 1 := by
    rw [UInt64.toNat_add]
    simp only [UInt64.reduceToNat]
    omega
  have hlands' := jumpHash_terminates key (n := n + 1) (by omega) (by omega)
  have hbucket : ∀ {m r : Nat}, r < m → m < 2 ^ 63 → (UInt64.ofNat r).toNat = r := by
    intro m r hr hm
    rw [UInt64.toNat_ofNat', Nat.mod_eq_of_lt (by omega)]
  refine ⟨_, hlands, ?_, ⟨_, hlands', ?_⟩, ?_⟩
  · rw [UInt64.lt_iff_toNat_lt, hbucket hlt (by omega)]
    exact hlt
  · rw [hsucc]
    rcases (bucket_consistent key).step n.toNat (by omega) (by omega) with hsame | hnew
    · exact .inl (by rw [hsame])
    · exact .inr (by rw [hnew, UInt64.ofNat_toNat])
  · intro n' hlt' hn'
    rw [UInt64.lt_iff_toNat_lt] at hlt'
    refine ⟨_, jumpHash_terminates key (by omega) hn', ?_⟩
    rcases (bucket_consistent key).moves (by omega) hlt'.le hn' with hsame | ⟨hge, hlt''⟩
    · exact .inl (by rw [hsame])
    · right
      rw [UInt64.le_iff_toNat_le, UInt64.lt_iff_toNat_lt, hbucket hlt'' hn']
      exact ⟨hge, hlt''⟩

theorem jumpHash_consistent_8 : ∃ r, Lands 42 8 r ∧ r < 8 ∧
    (∃ r', Lands 42 (8 + 1) r' ∧ (r' = r ∨ r' = 8)) ∧
    ∀ n', 8 < n' → n'.toNat < 2 ^ 63 → ∃ r', Lands 42 n' r' ∧ (r' = r ∨ 8 ≤ r' ∧ r' < n') :=
  jumpHash_consistent 42 8 (by decide) (by decide)

end Tesseract.L6
