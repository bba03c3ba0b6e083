import Tesseract.Core.LTS
import Tesseract.L2Wal.AppendLog

/-!
# Concurrent appends

Any number of `append` calls on one `WriteAheadLog`. A call fetches its id
before it takes the lock; under the lock it rotates if the segment is full,
writes, and syncs if it must, each a step of its own; then it returns. Other
calls run between any two steps. No I/O call fails.

* `Inv`: the log on disk holds, in some order, the entries of the calls that
  have written, and ids are handed out once.
* `concurrent_appends_when`: in every interleaving of fewer than 2^64 calls whose
  payload lengths fit the `u32` field, returned ids are distinct and recovery
  returns every written entry exactly once.
* `long_payload_lost`: a payload of 2^32 bytes is acknowledged and never read.
-/
namespace Tesseract.L2.Concurrent

open L1.Wal L1.SegmentName L2.Log

/-- How far a call is, with the id it fetched. -/
inductive Phase where
  | start
  | fetched (id : UInt64)
  | locked (id : UInt64)
  | rotated (id : UInt64)
  | written (id : UInt64)
  | done (id : UInt64)

structure Call where
  entry : WalEntry
  mode : WriteMode
  phase : Phase

/-- `lock`: the call that holds the segment mutex. -/
structure Sys where
  session : Session
  lock : Option Nat
  calls : List Call

inductive Act where
  | call (entry : WalEntry) (mode : WriteMode)
  | run (i : Nat)

/-- The entry the call writes, once it has its id. -/
def Call.wal (c : Call) (id : UInt64) : WalEntry := { c.entry with txnId := id }

def Sys.at (st : Sys) (i : Nat) (c : Call) (p : Phase) : Sys :=
  { st with calls := st.calls.set i { c with phase := p } }

def Sys.write (st : Sys) (d : Dir) (seg : SegmentWriter) : Sys :=
  { st with session := ⟨d, { st.session.wal with currentSegment := seg }⟩ }

/-- The next step of call `i`; a call that waits for the lock has none while
another holds it.
mirrors tesseract-storage/src/wal.rs:225-251 -/
def advance (C : Crates) (st : Sys) (i : Nat) (c : Call) : Option Sys :=
  let wal := st.session.wal
  match c.phase with
  | .start =>
    some ({ st with
      session := ⟨st.session.disk, { wal with nextTxnId := wal.nextTxnId + 1 }⟩ }.at i c
      (.fetched wal.nextTxnId))
  | .fetched id =>
    if st.lock = none then some ({ st with lock := some i }.at i c (.locked id)) else none
  | .locked id =>
    let r := rotateIfFull .none st.session ((c.wal id).toBytes C.crc).length
    some ((st.write r.1 r.2.1).at i c (.rotated id))
  | .rotated id =>
    let r := wal.currentSegment.writeEntry .none st.session.disk ((c.wal id).toBytes C.crc)
    some ((st.write r.1 r.2.1).at i c (.written id))
  | .written id =>
    if shouldFsync wal.config c.mode wal.currentSegment then
      let r := wal.currentSegment.fsync false st.session.disk
      some ({ st.write r.1 r.2.1 with lock := none }.at i c (.done id))
    else some ({ st with lock := none }.at i c (.done id))
  | .done _ => none

def step (C : Crates) (st : Sys) : Act → Option Sys
  | .call entry mode => some { st with calls := st.calls ++ [⟨entry, mode, .start⟩] }
  | .run i => st.calls[i]?.bind (advance C st i)

/-- One session, opened on an empty directory. -/
def system (C : Crates) : LTS Sys Act :=
  LTS.ofFn (fun st => ∃ config, st = ⟨openLog C config ∅, none, []⟩) (step C)

/-! ## What the calls have done -/

def Call.id? (c : Call) : Option UInt64 :=
  match c.phase with
  | .start => none
  | .fetched id | .locked id | .rotated id | .written id | .done id => some id

/-- The call is past its rotation. -/
def Call.rotated? (c : Call) : Option UInt64 :=
  match c.phase with
  | .start | .fetched _ | .locked _ => none
  | .rotated id | .written id | .done id => some id

/-- The entry, once it is in the file. -/
def Call.onDisk (c : Call) : Option WalEntry :=
  match c.phase with
  | .start | .fetched _ | .locked _ | .rotated _ => none
  | .written id | .done id => some (c.wal id)

/-- The id the call returned. -/
def Call.returned (c : Call) : Option UInt64 :=
  match c.phase with
  | .done id => some id
  | _ => none

@[simp] theorem at_calls (st : Sys) (i : Nat) (c : Call) (p : Phase) :
    (st.at i c p).calls = st.calls.set i { c with phase := p } := rfl

@[simp] theorem write_calls (st : Sys) (d : Dir) (seg : SegmentWriter) :
    (st.write d seg).calls = st.calls := rfl

section Lists
variable {α β : Type} {f g : α → Option β}

theorem filterMap_set_same {l : List α} {i : Nat} {a a' : α} (h : l[i]? = some a)
    (hf : f a' = f a) :
    (l.set i a').filterMap f = l.filterMap f := by
  obtain ⟨hi, rfl⟩ := List.getElem?_eq_some_iff.mp h
  rw [List.set_eq_take_append_cons_drop, if_pos hi]
  conv => rhs; rw [← List.take_append_drop i l, List.drop_eq_getElem_cons hi]
  rw [List.filterMap_append, List.filterMap_append, List.filterMap_cons, List.filterMap_cons, hf]

theorem filterMap_set_new {l : List α} {i : Nat} {a a' : α} {x : β} (h : l[i]? = some a)
    (hn : f a = none) (hs : f a' = some x) :
    ((l.set i a').filterMap f).Perm (x :: l.filterMap f) := by
  obtain ⟨hi, rfl⟩ := List.getElem?_eq_some_iff.mp h
  rw [List.set_eq_take_append_cons_drop, if_pos hi]
  conv => rhs; rw [← List.take_append_drop i l, List.drop_eq_getElem_cons hi]
  rw [List.filterMap_append, List.filterMap_append, List.filterMap_cons_some hs,
    List.filterMap_cons_none hn]
  exact List.perm_middle

theorem filterMap_sublist (hfg : ∀ a x, g a = some x → f a = some x) :
    ∀ l : List α, (l.filterMap g).Sublist (l.filterMap f) := by
  intro l
  induction l with
  | nil => exact List.Sublist.slnil
  | cons a l ih =>
    cases hg : g a with
    | none =>
      rw [List.filterMap_cons_none hg]
      cases hf : f a with
      | none => rw [List.filterMap_cons_none hf]; exact ih
      | some x => rw [List.filterMap_cons_some hf]; exact ih.cons x
    | some x =>
      rw [List.filterMap_cons_some hg, List.filterMap_cons_some (hfg a x hg)]
      exact ih.cons_cons x

/-- A call that has not passed a point leaves room below the number of calls. -/
theorem filterMap_lt {l : List α} {i : Nat} {a : α} (h : l[i]? = some a) (hn : f a = none) :
    (l.filterMap f).length < l.length := by
  obtain ⟨hi, rfl⟩ := List.getElem?_eq_some_iff.mp h
  rw [← List.take_append_drop i l, List.drop_eq_getElem_cons hi, List.filterMap_append,
    List.filterMap_cons_none hn, List.length_append, List.length_append, List.length_cons]
  have h₁ := List.length_filterMap_le f (l.take i)
  have h₂ := List.length_filterMap_le f (l.drop (i + 1))
  omega

end Lists

/-! ## The invariant -/

/-- The log on disk holds the entries of the calls that have written. -/
def Holds (C : Crates) (st : Sys) : Prop :=
  ∃ segs, Active C st.session.disk st.session.wal.currentSegment segs ∧
    segs.flatten.Perm (st.calls.filterMap Call.onDisk) ∧
    segs.length ≤ 1 + (st.calls.filterMap Call.rotated?).length

structure Inv (C : Crates) (st : Sys) : Prop where
  few : st.calls.length < 2 ^ 64
  fits : ∀ c ∈ st.calls, c.entry.payload.length < 2 ^ 32
  next : st.session.wal.nextTxnId = UInt64.ofNat (1 + (st.calls.filterMap Call.id?).length)
  nodup : (st.calls.filterMap Call.id?).Nodup
  range : ∀ id ∈ st.calls.filterMap Call.id?, 0 < id.toNat ∧
    id.toNat ≤ (st.calls.filterMap Call.id?).length
  holds : Holds C st

/-- Fewer than 2^64 calls, with payload lengths that fit a `u32`. -/
def Bounded (st : Sys) : Act → Prop
  | .call entry _ => entry.payload.length < 2 ^ 32 ∧ st.calls.length + 1 < 2 ^ 64
  | .run _ => True

variable {C : Crates} {st st' : Sys} {i : Nat} {c : Call} {p : Phase}

theorem fits_set {l : List Call} (hc : l[i]? = some c)
    (h : ∀ x ∈ l, x.entry.payload.length < 2 ^ 32) :
    ∀ x ∈ l.set i { c with phase := p }, x.entry.payload.length < 2 ^ 32 := by
  intro x hx
  rcases List.mem_or_eq_of_mem_set hx with hx | rfl
  · exact h x hx
  · exact h c (List.mem_of_getElem? hc)

/-- A step that hands out no id. -/
theorem Inv.of_phase (hi : Inv C st) (hc : st.calls[i]? = some c)
    (hcalls : st'.calls = st.calls.set i { c with phase := p })
    (hid : ({ c with phase := p } : Call).id? = c.id?)
    (hnext : st'.session.wal.nextTxnId = st.session.wal.nextTxnId) (hholds : Holds C st') :
      Inv C st' := by
  have hids : st'.calls.filterMap Call.id? = st.calls.filterMap Call.id? := by
    rw [hcalls]
    exact filterMap_set_same hc hid
  refine ⟨by rw [hcalls, List.length_set]; exact hi.few, by rw [hcalls]; exact fits_set hc hi.fits,
    ?_, ?_, ?_, hholds⟩
  · rw [hnext, hids]
    exact hi.next
  · rw [hids]
    exact hi.nodup
  · rw [hids]
    exact hi.range

/-- A step that leaves the log alone. -/
theorem Holds.of_same (hh : Holds C st) (hc : st.calls[i]? = some c)
    (hcalls : st'.calls = st.calls.set i { c with phase := p })
    (hdisk : st'.session.disk = st.session.disk ∧ st'.session.wal.currentSegment =
      st.session.wal.currentSegment)
    (hon : ({ c with phase := p } : Call).onDisk = c.onDisk)
    (hrot : ({ c with phase := p } : Call).rotated? = c.rotated?) : Holds C st' := by
  obtain ⟨segs, hact, hperm, hlen⟩ := hh
  refine ⟨segs, by rw [hdisk.1, hdisk.2]; exact hact, ?_, ?_⟩
  · rw [hcalls, filterMap_set_same hc hon]
    exact hperm
  · rw [hcalls, filterMap_set_same hc hrot]
    exact hlen

theorem Inv.fetch (hi : Inv C st) (hc : st.calls[i]? = some c) (hp : c.phase = .start)
    (h : advance C st i c = some st') : Inv C st' := by
  simp only [advance, hp, Option.some.injEq] at h
  subst h
  have hnone : c.id? = none := by simp only [Call.id?, hp]
  have hroom := filterMap_lt hc hnone
  have hfew := hi.few
  have hperm : ((st.calls.set i { c with phase := .fetched st.session.wal.nextTxnId }).filterMap
    Call.id?).Perm
      (st.session.wal.nextTxnId :: st.calls.filterMap Call.id?) := filterMap_set_new hc hnone rfl
  have hval : st.session.wal.nextTxnId.toNat = 1 + (st.calls.filterMap Call.id?).length := by
    rw [hi.next, toNat_ofNat (by omega)]
  refine ⟨by rw [at_calls, List.length_set]; exact hfew, fits_set hc hi.fits, ?_, ?_, ?_, ?_⟩
  · show st.session.wal.nextTxnId + 1 = _
    rw [at_calls, hperm.length_eq, List.length_cons, hi.next, ← UInt64.ofNat_one,
      ← UInt64.ofNat_add]
    congr 1
  · rw [at_calls, hperm.nodup_iff, List.nodup_cons]
    refine ⟨?_, hi.nodup⟩
    intro hin
    have := (hi.range _ hin).2
    omega
  · intro id hid
    rw [at_calls, hperm.mem_iff, List.mem_cons] at hid
    rw [at_calls, hperm.length_eq, List.length_cons]
    rcases hid with rfl | hid
    · omega
    · have := hi.range id hid
      omega
  · refine hi.holds.of_same hc rfl ⟨rfl, rfl⟩ ?_ ?_
    · simp only [Call.onDisk, hp]
    · simp only [Call.rotated?, hp]

theorem Inv.rotate (hi : Inv C st) (hc : st.calls[i]? = some c) {id : UInt64}
    (hp : c.phase = .locked id) (h : advance C st i c = some st') : Inv C st' := by
  simp only [advance, hp, Option.some.injEq, rotateIfFull_none] at h
  subst h
  refine hi.of_phase hc rfl (by simp only [Call.id?, hp]) rfl ?_
  obtain ⟨segs, hact, hperm, hlen⟩ := hi.holds
  have hnone : c.rotated? = none := by simp only [Call.rotated?, hp]
  have hroom := filterMap_lt hc hnone
  have hfew := hi.few
  obtain ⟨segs', hlen', hflat, hact'⟩ := hact.rotated
    fun (_ : st.session.wal.full ((c.wal id).toBytes C.crc).length) => by omega
  refine ⟨segs', hact', ?_, ?_⟩
  · rw [hflat, at_calls, write_calls, filterMap_set_same hc (by simp only [Call.onDisk, hp])]
    exact hperm
  · have hnew : ((st.calls.set i { c with phase := .rotated id }).filterMap Call.rotated?).Perm
        (id :: st.calls.filterMap Call.rotated?) := filterMap_set_new hc hnone rfl
    rw [at_calls, write_calls, hnew.length_eq, List.length_cons]
    omega

theorem Inv.write (hi : Inv C st) (hc : st.calls[i]? = some c) {id : UInt64}
    (hp : c.phase = .rotated id) (h : advance C st i c = some st') : Inv C st' := by
  simp only [advance, hp, Option.some.injEq] at h
  subst h
  refine hi.of_phase hc rfl (by simp only [Call.id?, hp]) rfl ?_
  obtain ⟨segs, hact, hperm, hlen⟩ := hi.holds
  have hnone : c.onDisk = none := by simp only [Call.onDisk, hp]
  obtain ⟨segs', hlen', hflat, hact'⟩ := hact.write (c.wal id)
    (st.session.wal.currentSegment.writeEntry .none st.session.disk ((c.wal id).toBytes C.crc)).2.1
      ⟨rfl, rfl⟩
  refine ⟨segs', hact', ?_, ?_⟩
  · have hnew : ((st.calls.set i { c with phase := .written id }).filterMap Call.onDisk).Perm
        (c.wal id :: st.calls.filterMap Call.onDisk) := filterMap_set_new hc hnone rfl
    rw [hflat, at_calls, write_calls]
    exact (List.perm_append_singleton _ _).trans ((hperm.cons _).trans hnew.symm)
  · rw [hlen', at_calls, write_calls, filterMap_set_same hc (by simp only [Call.rotated?, hp])]
    exact hlen

theorem Inv.finish (hi : Inv C st) (hc : st.calls[i]? = some c) {id : UInt64}
    (hp : c.phase = .written id) (h : advance C st i c = some st') : Inv C st' := by
  simp only [advance, hp, SegmentWriter.fsync] at h
  split at h
  · simp only [Bool.false_eq_true, if_false, Option.some.injEq] at h
    subst h
    refine hi.of_phase hc rfl (by simp only [Call.id?, hp]) rfl ?_
    obtain ⟨segs, hact, hperm, hlen⟩ := hi.holds
    refine ⟨segs, hact.sync ⟨rfl, rfl⟩, ?_, ?_⟩
    · rw [at_calls, write_calls, filterMap_set_same hc (by simp only [Call.onDisk, Call.wal, hp])]
      exact hperm
    · rw [at_calls, write_calls, filterMap_set_same hc (by simp only [Call.rotated?, hp])]
      exact hlen
  · simp only [Option.some.injEq] at h
    subst h
    refine hi.of_phase hc rfl (by simp only [Call.id?, hp]) rfl ?_
    exact hi.holds.of_same hc rfl ⟨rfl, rfl⟩ (by simp only [Call.onDisk, Call.wal, hp])
      (by simp only [Call.rotated?, hp])

theorem Inv.advance (hi : Inv C st) (hc : st.calls[i]? = some c) (h : advance C st i c = some st') :
    Inv C st' := by
  cases hp : c.phase with
  | start => exact hi.fetch hc hp h
  | fetched id =>
    simp only [Concurrent.advance, hp] at h
    split at h
    · simp only [Option.some.injEq] at h
      subst h
      refine hi.of_phase hc rfl (by simp only [Call.id?, hp]) rfl ?_
      exact hi.holds.of_same hc rfl ⟨rfl, rfl⟩ (by simp only [Call.onDisk, hp])
        (by simp only [Call.rotated?, hp])
    · cases h
  | locked id => exact hi.rotate hc hp h
  | rotated id => exact hi.write hc hp h
  | written id => exact hi.finish hc hp h
  | done id =>
    simp only [Concurrent.advance, hp] at h
    cases h

theorem Inv.call (hi : Inv C st) {entry : WalEntry} {mode : WriteMode}
    (hb : Bounded st (.call entry mode)) :
    Inv C { st with calls := st.calls ++ [⟨entry, mode, .start⟩] } := by
  have hsame : ∀ {β : Type} (f : Call → Option β), f ⟨entry, mode, .start⟩ = none →
      (st.calls ++ [(⟨entry, mode, .start⟩ : Call)]).filterMap f = st.calls.filterMap f := by
    intro β f hf
    rw [List.filterMap_append, List.filterMap_cons_none hf, List.filterMap_nil, List.append_nil]
  refine ⟨?_, ?_, ?_, ?_, ?_, ?_⟩
  · rw [List.length_append, List.length_singleton]
    exact hb.2
  · intro c hc
    rcases List.mem_append.mp hc with hc | hc
    · exact hi.fits c hc
    · rw [List.mem_singleton.mp hc]
      exact hb.1
  · rw [hsame Call.id? rfl]
    exact hi.next
  · rw [hsame Call.id? rfl]
    exact hi.nodup
  · rw [hsame Call.id? rfl]
    exact hi.range
  · obtain ⟨segs, hact, hperm, hlen⟩ := hi.holds
    exact ⟨segs,
      hact, by rw [hsame Call.onDisk rfl]; exact hperm, by rw [hsame Call.rotated? rfl]; exact hlen⟩

theorem Inv.open (C : Crates) (config : WalConfig) : Inv C ⟨openLog C config ∅, none, []⟩ := by
  have hempty : Layout ∅ (([] : List (List WalEntry)).map (framing C.crc).stream) := Layout.empty
  obtain ⟨segs, hlen, hflat, hact⟩ := openLog_active hempty config
  refine ⟨by simp, by simp, rfl, by simp, by simp, segs, hact, ?_, by simpa using hlen⟩
  rw [hflat]
  exact List.Perm.refl _

theorem inv_inductive (C : Crates) : ((system C).restrict Bounded).Inductive (Inv C) where
  init st h := by
    obtain ⟨config, rfl⟩ := h
    exact Inv.open C config
  step st a st' hi hst := by
    cases a with
    | call entry mode =>
      have hcall := hst.1
      simp only [system, LTS.ofFn, step, Option.some.injEq] at hcall
      subst hcall
      exact hi.call hst.2
    | run i =>
      obtain ⟨c, hc, hadv⟩ := Option.bind_eq_some_iff.mp hst.1
      exact hi.advance hc hadv

theorem inv_reachable (h : ((system C).restrict Bounded).Reachable st) : Inv C st :=
  (inv_inductive C).reachable st h

theorem onDisk_good (hi : Inv C st) : ∀ e ∈ st.calls.filterMap Call.onDisk, Good e := by
  intro e he
  obtain ⟨c, hc, hon⟩ := List.mem_filterMap.mp he
  obtain ⟨id, hid, rfl⟩ : ∃ id, c.id? = some id ∧ e = c.wal id := by
    unfold Call.onDisk at hon
    unfold Call.id?
    split at hon <;> simp_all
  refine ⟨hi.fits c hc, ?_⟩
  have hpos := (hi.range id (List.mem_filterMap.mpr ⟨c, hc, hid⟩)).1
  intro h0
  have : id = 0 := h0
  rw [this] at hpos
  exact absurd hpos (by decide)

/-- **When concurrent appends lose and repeat nothing.** In every interleaving of
fewer than 2^64 calls with payloads below 2^32 bytes, at every point and for
every `segment_size`: the returned ids are pairwise distinct, and recovery
returns the entries of the calls that have written, each exactly once. -/
theorem concurrent_appends_when (C : Crates) {st : Sys}
    (h : ((system C).restrict Bounded).Reachable st) :
    (st.calls.filterMap Call.returned).Nodup ∧
    ∃ es, recover C st.session.disk = .ok es ∧ es.Perm (st.calls.filterMap Call.onDisk) := by
  have hi := inv_reachable h
  constructor
  · refine List.Nodup.sublist (filterMap_sublist ?_ st.calls) hi.nodup
    intro c id hret
    unfold Call.returned at hret
    unfold Call.id?
    split at hret <;> simp_all
  · obtain ⟨segs, hact, hperm, _⟩ := hi.holds
    have hgood : ∀ e ∈ segs.flatten, Good e := fun e he => onDisk_good hi e (hperm.mem_iff.mp he)
    exact ⟨segs.flatten, hact.layout.recover_stream hgood, hperm⟩

/-- Two calls that fetch their ids in one order and write in the other, each
entry larger than `segment_size`. -/
def crossed : List Act :=
  [.call ⟨0, 1, [7]⟩ .durable, .call ⟨0, 1, [8]⟩ .fast, .run 0, .run 1,
   .run 1, .run 1, .run 1, .run 1, .run 0, .run 0, .run 0, .run 0]

instance (st : Sys) : DecidablePred (Bounded st)
  | .call entry _ => inferInstanceAs
    (Decidable (entry.payload.length < 2 ^ 32 ∧ st.calls.length + 1 < 2 ^ 64))
  | .run _ => inferInstanceAs (Decidable True)

theorem concurrent_appends_crossed :
    ∃ st : Sys, st.calls.filterMap Call.onDisk = [⟨1, 1, [7]⟩, ⟨2, 1, [8]⟩] ∧
      recover crates st.session.disk = .ok [⟨2, 1, [8]⟩, ⟨1, 1, [7]⟩] ∧
      (st.calls.filterMap Call.returned).Nodup := by
  refine ⟨(LTS.exec (step crates) Bounded ⟨openLog crates ⟨4, 1000⟩ ∅, none, []⟩ crossed).get
    (by decide +kernel), by decide +kernel, by decide +kernel, ?_⟩
  exact (concurrent_appends_when crates
    (LTS.reachable_of_exec ⟨⟨4, 1000⟩, rfl⟩ (Option.some_get _).symm)).1

/-! ## A payload too long for its length field -/

/-- A single call runs to its end. -/
theorem solo_done (C : Crates) (config : WalConfig) (entry : WalEntry) :
    ∃ st, (system C).Reachable st ∧ st.calls = [⟨entry, .durable, .done 1⟩] := by
  obtain ⟨st, hrun, hcalls⟩ : ∃ st, (system C).Run ⟨openLog C config ∅, none, []⟩
      [.call entry .durable, .run 0, .run 0, .run 0, .run 0, .run 0] st ∧
      st.calls = [⟨entry, .durable, .done 1⟩] :=
    ⟨_, .cons rfl (.cons rfl (.cons rfl (.cons rfl (.cons rfl (.cons rfl (.nil _)))))), rfl⟩
  exact ⟨st, ⟨_, _, ⟨config, rfl⟩, hrun⟩, hcalls⟩

/-- An append with a payload of 2^32 bytes is acknowledged, and recovery does
not return it. -/
theorem long_payload_lost :
    ¬ ∀ st : Sys, (system crates).Reachable st →
      ∃ es, recover crates st.session.disk = .ok es ∧ es.Perm (st.calls.filterMap Call.onDisk) := by
  intro h
  obtain ⟨st, hreach, hcalls⟩ := solo_done crates ⟨64, 1000⟩ ⟨0, 1, List.replicate (2 ^ 32) 0⟩
  obtain ⟨es, hrec, hperm⟩ := h st hreach
  rw [hcalls] at hperm
  have hmem : (⟨1, 1, List.replicate (2 ^ 32) 0⟩ : WalEntry) ∈ es :=
    hperm.mem_iff.mpr (List.mem_singleton.mpr rfl)
  have hfits : (List.replicate (2 ^ 32) (0 : UInt8)).length < 2 ^ 32 := recover_fits hrec _ hmem
  rw [List.length_replicate] at hfits
  exact Nat.lt_irrefl _ hfits

end Tesseract.L2.Concurrent
