/-!
# Streams of self-delimiting frames

A `Framing` is an encoder of frames into strings of symbols and a decoder that
reads one frame off the front of a string: it recognises every encoded frame
whatever follows, and refuses every strict prefix of an encoded frame.
`frames` reads greedily until the decoder refuses.

* `frames_stream`: reading a stream of encoded frames yields these frames and
  then whatever the remaining symbols yield.
* `frames_torn`: a strict prefix of an encoded frame yields nothing.
* `frames_ext`: a string cut short yields the first of its frames, where every
  frame is decided by its own symbols.
-/
namespace Tesseract

/-- `Fits a`: the encoder can represent `a`. -/
structure Framing (β α : Type) where
  Fits : α → Prop
  enc : α → List β
  dec : List β → Option (α × Nat)
  dec_size : ∀ bs a k, dec bs = some (a, k) → 0 < k ∧ k ≤ bs.length
  dec_enc : ∀ a s, Fits a → dec (enc a ++ s) = some (a, (enc a).length)
  dec_torn : ∀ a p, Fits a → p <+: enc a → p ≠ enc a → dec p = none

namespace Framing

variable {β α : Type} (F : Framing β α)

/-- Greedy reading, at most `n` frames. -/
def scan : Nat → List β → List α
  | 0, _ => []
  | n + 1, bs =>
    match F.dec bs with
    | none => []
    | some (a, k) => a :: scan n (bs.drop k)

/-- All frames read off the front of `bs`: every frame takes at least one
symbol, so the bound `bs.length` is never the reason to stop. -/
def frames (bs : List β) : List α := F.scan bs.length bs

def stream (as : List α) : List β := (as.map F.enc).flatten

/-- A strict prefix of some encoded frame (the empty one included). -/
def Torn (p : List β) : Prop := ∃ a, F.Fits a ∧ p <+: F.enc a ∧ p ≠ F.enc a

@[simp] theorem stream_cons (a : α) (as : List α) :
    F.stream (a :: as) = F.enc a ++ F.stream as := rfl

@[simp] theorem stream_append (as bs : List α) :
    F.stream (as ++ bs) = F.stream as ++ F.stream bs := by
  simp [stream]

theorem enc_pos {a : α} (h : F.Fits a) : 0 < (F.enc a).length := by
  have hd := F.dec_enc a [] h
  exact (F.dec_size _ _ _ hd).1

theorem dec_nil : F.dec [] = none := by
  cases h : F.dec [] with
  | none => rfl
  | some p =>
    have hs := F.dec_size [] p.1 p.2 h
    simp only [List.length_nil] at hs
    omega

/-- More than `bs.length` rounds change nothing. -/
theorem scan_stable : ∀ (n m : Nat) (bs : List β), bs.length ≤ n → bs.length ≤ m →
    F.scan n bs = F.scan m bs := by
  intro n
  induction n with
  | zero =>
    intro m bs hn _
    have : bs = [] := List.length_eq_zero_iff.mp (by omega)
    subst this
    cases m <;> simp [scan, F.dec_nil]
  | succ n ih =>
    intro m bs hn hm
    cases m with
    | zero =>
      have : bs = [] := List.length_eq_zero_iff.mp (by omega)
      subst this
      simp [scan, F.dec_nil]
    | succ m =>
      simp only [scan]
      cases h : F.dec bs with
      | none => rfl
      | some p =>
        have hs := F.dec_size bs p.1 p.2 h
        have hl : (bs.drop p.2).length ≤ n ∧ (bs.drop p.2).length ≤ m := by
          simp only [List.length_drop]; omega
        simp only [ih m (bs.drop p.2) hl.1 hl.2]

theorem frames_eq (bs : List β) :
    F.frames bs = match F.dec bs with
      | none => []
      | some (a, k) => a :: F.frames (bs.drop k) := by
  have h1 : F.frames bs = F.scan (bs.length + 1) bs := F.scan_stable _ _ bs (by omega) (by omega)
  rw [h1, scan]
  cases h : F.dec bs with
  | none => rfl
  | some p =>
    have hs := F.dec_size bs p.1 p.2 h
    simp only [frames, List.cons.injEq, true_and]
    exact F.scan_stable _ _ _ (by simp) (by simp)

theorem frames_stop {bs : List β} (h : F.dec bs = none) : F.frames bs = [] := by
  rw [frames_eq, h]

theorem frames_enc {a : α} (h : F.Fits a) (s : List β) :
    F.frames (F.enc a ++ s) = a :: F.frames s := by
  rw [frames_eq, F.dec_enc a s h]
  simp

/-- Every frame read is what the decoder made of some string. -/
theorem of_mem_frames {a : α} {bs : List β} (h : a ∈ F.frames bs) :
    ∃ s k, F.dec s = some (a, k) := by
  unfold frames at h
  generalize bs.length = n at h
  induction n generalizing bs with
  | zero => cases h
  | succ n ih =>
    unfold scan at h
    split at h
    · cases h
    · next b k hd =>
      rcases List.mem_cons.mp h with rfl | h
      · exact ⟨bs, k, hd⟩
      · exact ih h

/-- Reading a stream yields its frames and goes on behind it. -/
theorem frames_stream {as : List α} (h : ∀ a ∈ as, F.Fits a) (s : List β) :
    F.frames (F.stream as ++ s) = as ++ F.frames s := by
  induction as with
  | nil => rfl
  | cons a as ih =>
    rw [stream_cons, List.append_assoc, F.frames_enc (h a (by simp)),
      ih (fun b hb => h b (by simp [hb]))]
    rfl

theorem dec_of_torn {p : List β} (h : F.Torn p) : F.dec p = none := by
  obtain ⟨a, ha, hp, hne⟩ := h
  exact F.dec_torn a p ha hp hne

theorem frames_torn {p : List β} (h : F.Torn p) : F.frames p = [] :=
  F.frames_stop (F.dec_of_torn h)

@[simp] theorem frames_nil : F.frames [] = [] := rfl

/-- A frame is decided by its own symbols. -/
def Ext : Prop := ∀ bs rest a k, F.dec bs = some (a, k) → F.dec (bs ++ rest) = some (a, k)

/-- Then more symbols behind a string add frames and change none. -/
theorem frames_ext (hext : F.Ext) (bs rest : List β) :
    F.frames bs <+: F.frames (bs ++ rest) := by
  generalize hn : bs.length = n
  induction n using Nat.strongRecOn generalizing bs with
  | ind n ih =>
    rw [F.frames_eq bs, F.frames_eq (bs ++ rest)]
    cases hd : F.dec bs with
    | none => exact List.nil_prefix
    | some p =>
      obtain ⟨a, k⟩ := p
      obtain ⟨hk, hle⟩ := F.dec_size bs a k hd
      rw [hext bs rest a k hd]
      show a :: F.frames (bs.drop k) <+: a :: F.frames ((bs ++ rest).drop k)
      rw [List.drop_append_of_le_length hle, List.prefix_cons_inj]
      exact ih (bs.drop k).length (by rw [List.length_drop]; omega) (bs.drop k) rfl

/-- The symbols behind a stream: none, or a torn frame. -/
def Tail (p : List β) : Prop := p = [] ∨ F.Torn p

theorem frames_tail {p : List β} (h : F.Tail p) : F.frames p = [] := by
  rcases h with rfl | h
  · rfl
  · exact F.frames_torn h

end Framing

end Tesseract
