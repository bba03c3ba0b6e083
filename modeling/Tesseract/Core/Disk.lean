import Mathlib.Data.List.AList
import Tesseract.Core.Endian

/-!
# A directory of files that survives crashes

A file is its content and how much of it is known to be on stable storage
(`synced`, moved by `sync`). A crash keeps the synced bytes of every file and
any prefix of the rest; a file none of whose bytes were synced may be gone.

Only the names in use differ between programs, so `ν` is arbitrary. The
lemmas say what each operation does to the file it names and that it leaves
every other file alone.
-/
namespace Tesseract

structure File where
  bytes : Bytes
  synced : Nat
  synced_le : synced ≤ bytes.length
  deriving DecidableEq

namespace File

def empty : File := ⟨[], 0, Nat.le_refl 0⟩

def extend (f : File) (bs : Bytes) : File :=
  ⟨f.bytes ++ bs, f.synced, by have := f.synced_le; rw [List.length_append]; omega⟩

def sync (f : File) : File := ⟨f.bytes, f.bytes.length, Nat.le_refl _⟩

/-- A whole new content on stable storage. -/
def durable (bs : Bytes) : File := ⟨bs, bs.length, Nat.le_refl _⟩

/-- What a crash leaves of `f`: the first `k` bytes, but no fewer than the
synced ones; `none` stands for a file that was never synced and is lost. -/
def survive (f : File) : Option Nat → Option File
  | none => if f.synced = 0 then none else some (durable (f.bytes.take f.synced))
  | some k => some (durable (f.bytes.take (max k f.synced)))

@[simp] theorem extend_bytes (f : File) (bs : Bytes) : (f.extend bs).bytes = f.bytes ++ bs := rfl

@[simp] theorem sync_bytes (f : File) : f.sync.bytes = f.bytes := rfl

@[simp] theorem sync_synced (f : File) : f.sync.synced = f.bytes.length := rfl

/-- The synced bytes survive. -/
theorem survive_synced {f : File} (h : 0 < f.synced) (k : Option Nat) :
    ∃ n, f.synced ≤ n ∧ f.survive k = some (durable (f.bytes.take n)) := by
  cases k with
  | none => exact ⟨f.synced, Nat.le_refl _, by simp [survive, Nat.ne_of_gt h]⟩
  | some k => exact ⟨max k f.synced, Nat.le_max_right _ _, rfl⟩

end File

abbrev Disk (ν : Type) [DecidableEq ν] := AList (fun _ : ν => File)

namespace Disk

variable {ν : Type} [DecidableEq ν]

def read (d : Disk ν) (n : ν) : Option Bytes := (d.lookup n).map File.bytes

/-- `File::create`: an existing file is truncated. -/
def create (d : Disk ν) (n : ν) : Disk ν := d.insert n File.empty

/-- Change the file `n`, if it is there. -/
def modify (d : Disk ν) (n : ν) (g : File → File) : Disk ν :=
  match d.lookup n with
  | some f => d.insert n (g f)
  | none => d

/-- Write through a handle open for appending. -/
def write (d : Disk ν) (n : ν) (bs : Bytes) : Disk ν := d.modify n (·.extend bs)

def sync (d : Disk ν) (n : ν) : Disk ν := d.modify n File.sync

/-- `fs::rename`, over an existing target if there is one. -/
def rename (d : Disk ν) (a b : ν) : Disk ν :=
  match d.lookup a with
  | some f => (d.erase a).insert b f
  | none => d

/-- `fs::write`: a whole new content, not synced. -/
def put (d : Disk ν) (n : ν) (bs : Bytes) : Disk ν := (d.create n).write n bs

/-- The directory after a crash; `keep` is what happens to the unsynced bytes. -/
def crash (d : Disk ν) (keep : ν → Option Nat) : Disk ν :=
  (d.entries.filterMap fun p => (p.2.survive (keep p.1)).map fun f =>
    (⟨p.1, f⟩ : Sigma fun _ : ν => File)).toAList

theorem lookup_create (d : Disk ν) (n m : ν) :
    (d.create n).lookup m = if m = n then some File.empty else d.lookup m := by
  by_cases h : m = n
  · subst h; simp [create]
  · simp [create, h, AList.lookup_insert_ne h]

theorem lookup_modify (d : Disk ν) (n m : ν) (g : File → File) :
    (d.modify n g).lookup m = if m = n then (d.lookup n).map g else d.lookup m := by
  unfold modify
  cases hl : d.lookup n with
  | none =>
    by_cases h : m = n
    · subst h; simp [hl]
    · simp [h]
  | some f =>
    by_cases h : m = n
    · subst h; simp
    · simp [h, AList.lookup_insert_ne h]

theorem read_put (d : Disk ν) (n m : ν) (bs : Bytes) :
    (d.put n bs).read m = if m = n then some bs else d.read m := by
  rw [put, write, read, lookup_modify, lookup_create, lookup_create, if_pos rfl]
  by_cases h : m = n
  · simp [h, File.empty]
  · rw [if_neg h, if_neg h, if_neg h, read]

theorem lookup_rename {d : Disk ν} {a b : ν} {f : File} (hf : d.lookup a = some f) (m : ν) :
    (d.rename a b).lookup m = if m = b then some f else if m = a then none else d.lookup m := by
  unfold rename
  rw [hf]
  by_cases hb : m = b
  · subst hb; simp
  · rw [if_neg hb]
    simp only [AList.lookup_insert_ne hb]
    by_cases ha : m = a
    · subst ha; simp
    · rw [if_neg ha, AList.lookup_erase_ne ha]

theorem lookup_crash (d : Disk ν) (keep : ν → Option Nat) (n : ν) :
    (d.crash keep).lookup n = (d.lookup n).bind (·.survive (keep n)) := by
  unfold crash
  rw [AList.lookup_to_alist]
  have key : ∀ l : List (Sigma fun _ : ν => File), l.NodupKeys →
      (l.filterMap fun p => (p.2.survive (keep p.1)).map fun f =>
        (⟨p.1, f⟩ : Sigma fun _ : ν => File)).dlookup n =
          (l.dlookup n).bind (·.survive (keep n)) := by
    intro l
    induction l with
    | nil => intro _; rfl
    | cons p l ih =>
      intro hnd
      obtain ⟨m, f⟩ := p
      obtain ⟨hm, hl⟩ := List.nodupKeys_cons.mp hnd
      have ih' := ih hl
      by_cases hmn : n = m
      · subst hmn
        have hnone : l.dlookup n = none := List.dlookup_eq_none.mpr hm
        rw [hnone] at ih'
        rw [List.dlookup_cons_eq, List.filterMap_cons]
        cases hs : f.survive (keep n) with
        | none => simpa [hs] using ih'
        | some g => simp [hs]
      · rw [List.dlookup_cons_ne _ _ hmn, List.filterMap_cons]
        cases hs : f.survive (keep m) with
        | none => simpa [hs] using ih'
        | some g =>
          have hcons := List.dlookup_cons_ne (l.filterMap fun p =>
            (p.2.survive (keep p.1)).map fun f =>
            (⟨p.1, f⟩ : Sigma fun _ : ν => File)) ⟨m, g⟩ hmn
          exact hcons.trans ih'
  exact key d.entries d.nodupKeys

/-! ## Directories that only grow -/

/-- Every file of `d` is still there, with its content and perhaps more behind
it, and nothing that was synced is unsynced. -/
def Grows (d d' : Disk ν) : Prop :=
  ∀ n f, d.lookup n = some f → ∃ f', d'.lookup n = some f' ∧ f.bytes <+: f'.bytes ∧
    f.synced ≤ f'.synced

theorem Grows.refl (d : Disk ν) : d.Grows d := fun _ f hf => ⟨f, hf, List.prefix_rfl, Nat.le_refl _⟩

theorem Grows.trans {d₁ d₂ d₃ : Disk ν} (h : d₁.Grows d₂) (h' : d₂.Grows d₃) : d₁.Grows d₃ := by
  intro n f hf
  obtain ⟨f', hf', hb, hs⟩ := h n f hf
  obtain ⟨f'', hf'', hb', hs'⟩ := h' n f' hf'
  exact ⟨f'', hf'', hb.trans hb', Nat.le_trans hs hs'⟩

theorem grows_modify (d : Disk ν) (n : ν) {g : File → File}
    (hg : ∀ f, f.bytes <+: (g f).bytes ∧ f.synced ≤ (g f).synced) : d.Grows (d.modify n g) := by
  intro m f hf
  rw [lookup_modify]
  by_cases h : m = n
  · subst h
    exact ⟨g f, by simp [hf], hg f⟩
  · exact ⟨f, by simp [h, hf], List.prefix_rfl, Nat.le_refl _⟩

theorem grows_write (d : Disk ν) (n : ν) (bs : Bytes) : d.Grows (d.write n bs) :=
  grows_modify d n fun _ => ⟨List.prefix_append _ _, Nat.le_refl _⟩

theorem grows_sync (d : Disk ν) (n : ν) : d.Grows (d.sync n) :=
  grows_modify d n fun f => ⟨List.prefix_rfl, f.synced_le⟩

/-- Creating a file that is not there yet destroys nothing. -/
theorem grows_create {d : Disk ν} {n : ν} (h : d.lookup n = none) : d.Grows (d.create n) := by
  intro m f hf
  rw [lookup_create]
  have hmn : m ≠ n := by rintro rfl; rw [h] at hf; cases hf
  exact ⟨f, by simp [hmn, hf], List.prefix_rfl, Nat.le_refl _⟩

end Disk

end Tesseract
