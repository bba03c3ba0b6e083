import Tesseract.L2Wal.Concurrent

/-!
# The order of ids in the log

A call fetches its id before it takes the lock, so the calls may write in another order
than that of their ids.

* `recover_advance`: what recovery returns grows at the end, when a call writes.
* `log_ordered_iff`: the log stays in the order of the ids just when every call that
  writes has an id above all that are in the log.
* `log_crossed`: two calls, and a log with id 2 before id 1.
-/
namespace Tesseract.L2.Concurrent

open L1.Wal L2.Log

/-- Recovery returns the entries in the order of their ids. -/
def Ordered (C : Crates) (st : Sys) : Prop :=
  ∃ es, recover C st.session.disk = .ok es ∧ es.Pairwise fun a b => a.txnId < b.txnId

/-- What the next step of a call writes. -/
def Call.writes (c : Call) : List WalEntry :=
  match c.phase with
  | .rotated id => [c.wal id]
  | _ => []

/-- A call that writes has an id above all that are in the log. -/
def InOrder (st : Sys) : Act → Prop
  | .call _ _ => True
  | .run i => ∀ c, st.calls[i]? = some c → ∀ e ∈ c.writes,
    ∀ old ∈ st.calls.filterMap Call.onDisk, old.txnId < e.txnId

variable {C : Crates} {st st' : Sys} {i : Nat} {c : Call}

theorem writes_of_ne (h : ∀ id, c.phase ≠ .rotated id) : c.writes = [] := by
  unfold Call.writes
  cases hp : c.phase with
  | rotated id => exact (h id hp).elim
  | start | fetched | locked | written | done => rfl

/-- The entry of a call in a bounded run can be read back. -/
theorem good_wal (hi : Inv C st) (hc : st.calls[i]? = some c) {id : UInt64}
    (hid : c.id? = some id) : Good (c.wal id) := by
  have hmem := List.mem_of_getElem? hc
  have hpos := (hi.range id (List.mem_filterMap.mpr ⟨c, hmem, hid⟩)).1
  refine ⟨hi.fits c hmem, ?_⟩
  intro h0
  have hzero : id = 0 := h0
  rw [hzero] at hpos
  exact Nat.lt_irrefl 0 hpos

/-- The log on disk, in the order of the writes. -/
def Logged (C : Crates) (st : Sys) (es : List WalEntry) : Prop :=
  ∃ segs, Active C st.session.disk st.session.wal.currentSegment segs ∧ segs.flatten = es

theorem Logged.recover {es : List WalEntry} (h : Logged C st es) (hgood : ∀ e ∈ es, Good e) :
    Log.recover C st.session.disk = .ok es := by
  obtain ⟨segs, hact, rfl⟩ := h
  exact hact.layout.recover_stream hgood

theorem Inv.logged (hi : Inv C st) :
    ∃ es, Logged C st es ∧ es.Perm (st.calls.filterMap Call.onDisk) ∧
      Log.recover C st.session.disk = .ok es := by
  obtain ⟨segs, hact, hperm, -⟩ := hi.holds
  have hlogged : Logged C st segs.flatten := ⟨segs, hact, rfl⟩
  refine ⟨segs.flatten, hlogged, hperm, hlogged.recover ?_⟩
  exact fun e he => onDisk_good hi e (hperm.mem_iff.mp he)

/-- One step of a call leaves the log as it is, or adds the entry at its end. -/
theorem logged_advance (hi : Inv C st) (hc : st.calls[i]? = some c)
    (h : advance C st i c = some st') :
    ∃ es, Logged C st es ∧ es.Perm (st.calls.filterMap Call.onDisk) ∧
      Logged C st' (es ++ c.writes) := by
  obtain ⟨segs, hact, hperm, hlen⟩ := hi.holds
  refine ⟨segs.flatten, ⟨segs, hact, rfl⟩, hperm, ?_⟩
  cases hp : c.phase with
  | start =>
    rw [writes_of_ne (by simp [hp]), List.append_nil]
    simp only [advance, hp, Option.some.injEq] at h
    subst h
    exact ⟨segs, hact, rfl⟩
  | fetched id =>
    rw [writes_of_ne (by simp [hp]), List.append_nil]
    simp only [advance, hp] at h
    split at h
    · simp only [Option.some.injEq] at h
      subst h
      exact ⟨segs, hact, rfl⟩
    · cases h
  | locked id =>
    rw [writes_of_ne (by simp [hp]), List.append_nil]
    simp only [advance, hp, Option.some.injEq, rotateIfFull_none] at h
    subst h
    have hnone : c.rotated? = none := by simp only [Call.rotated?, hp]
    have hroom := filterMap_lt hc hnone
    have hfew := hi.few
    obtain ⟨segs', -, hflat, hact'⟩ := hact.rotated
      fun (_ : st.session.wal.full ((c.wal id).toBytes C.crc).length) => by omega
    exact ⟨segs', hact', hflat⟩
  | rotated id =>
    simp only [advance, hp, Option.some.injEq] at h
    subst h
    obtain ⟨segs', -, hflat, hact'⟩ := hact.write (c.wal id)
      (st.session.wal.currentSegment.writeEntry .none st.session.disk
        ((c.wal id).toBytes C.crc)).2.1 ⟨rfl, rfl⟩
    refine ⟨segs', hact', ?_⟩
    rw [hflat]
    simp only [Call.writes, hp]
  | written id =>
    rw [writes_of_ne (by simp [hp]), List.append_nil]
    simp only [advance, hp, SegmentWriter.fsync] at h
    split at h
    · simp only [Bool.false_eq_true, if_false, Option.some.injEq] at h
      subst h
      exact ⟨segs, hact.sync ⟨rfl, rfl⟩, rfl⟩
    · simp only [Option.some.injEq] at h
      subst h
      exact ⟨segs, hact, rfl⟩
  | done id =>
    simp only [advance, hp] at h
    cases h

/-- What recovery returns grows at the end. -/
theorem recover_advance (hi : Inv C st) (hc : st.calls[i]? = some c)
    (h : advance C st i c = some st') :
    ∃ es, recover C st.session.disk = .ok es ∧ es.Perm (st.calls.filterMap Call.onDisk) ∧
      recover C st'.session.disk = .ok (es ++ c.writes) := by
  obtain ⟨es, hlogged, hperm, hlogged'⟩ := logged_advance hi hc h
  have hgood : ∀ e ∈ es, Good e := fun e he => onDisk_good hi e (hperm.mem_iff.mp he)
  refine ⟨es, hlogged.recover hgood, hperm, hlogged'.recover ?_⟩
  intro e he
  rcases List.mem_append.mp he with he | he
  · exact hgood e he
  · unfold Call.writes at he
    split at he
    · next id hp =>
      rw [List.mem_singleton.mp he]
      exact good_wal hi hc (by simp only [Call.id?, hp])
    · cases he

/-- A step keeps the order just when what it writes comes last. -/
theorem ordered_advance (hi : Inv C st) (ho : Ordered C st) (hc : st.calls[i]? = some c)
    (h : advance C st i c = some st') :
    Ordered C st' ↔
      ∀ e ∈ c.writes, ∀ old ∈ st.calls.filterMap Call.onDisk, old.txnId < e.txnId := by
  obtain ⟨es, hrec, hperm, hrec'⟩ := recover_advance hi hc h
  obtain ⟨es₀, hrec₀, hsorted⟩ := ho
  obtain rfl : es₀ = es := Except.ok.inj (hrec₀.symm.trans hrec)
  have hsingle : c.writes.Pairwise fun a b => a.txnId < b.txnId := by
    unfold Call.writes
    split
    · exact List.pairwise_singleton _ _
    · exact List.Pairwise.nil
  constructor
  · intro ⟨es', hrec'', hsorted'⟩
    obtain rfl : es' = es₀ ++ c.writes := Except.ok.inj (hrec''.symm.trans hrec')
    obtain ⟨-, -, hlt⟩ := List.pairwise_append.mp hsorted'
    intro e he old hold
    exact hlt old (hperm.mem_iff.mpr hold) e he
  · intro hlt
    refine ⟨_, hrec', List.pairwise_append.mpr ⟨hsorted, hsingle, ?_⟩⟩
    intro old hold e he
    exact hlt e he old (hperm.mem_iff.mp hold)

/-- A step keeps the order just when it meets the condition. -/
theorem ordered_step {a : Act} (hi : Inv C st) (ho : Ordered C st) (h : step C st a = some st') :
    Ordered C st' ↔ InOrder st a := by
  cases a with
  | call entry mode =>
    simp only [step, Option.some.injEq] at h
    subst h
    exact ⟨fun _ => trivial, fun _ => ho⟩
  | run i =>
    obtain ⟨c, hc, hadv⟩ := Option.bind_eq_some_iff.mp h
    rw [ordered_advance hi ho hc hadv]
    constructor
    · intro hlt c' hc'
      obtain rfl : c = c' := Option.some.inj (hc.symm.trans hc')
      exact hlt
    · intro hin
      exact hin c hc

theorem ordered_guards (C : Crates) :
    ((system C).restrict Bounded).Guards InOrder (fun st => Inv C st ∧ Ordered C st)
      (Ordered C) where
  init st h := by
    have hi := (inv_inductive C).init st h
    obtain ⟨config, rfl⟩ := h
    obtain ⟨es, -, hperm, hrec⟩ := hi.logged
    obtain rfl : es = [] := hperm.eq_nil
    exact ⟨hi, [], hrec, List.Pairwise.nil⟩
  holds st h := h.2
  keeps st a st' h hst hin :=
    ⟨(inv_inductive C).step st a st' h.1 hst, (ordered_step h.1 h.2 hst.1).mpr hin⟩
  exact st a st' h hst ho' := (ordered_step h.1 h.2 hst.1).mp ho'

/-- In every interleaving of fewer than 2^64 calls with payloads below 2^32 bytes the log
is in the order of the ids, as long as each call that writes has an id above all in the
log; and one that does not ends the order. -/
theorem log_ordered_iff (C : Crates) :
    (∀ st, (((system C).restrict Bounded).restrict InOrder).Reachable st → Ordered C st) ∧
      ∀ config acts st,
        ((((system C).restrict Bounded).within (Ordered C)).Run ⟨openLog C config ∅, none, []⟩
            acts st ↔
          (((system C).restrict Bounded).restrict InOrder).Run ⟨openLog C config ∅, none, []⟩
            acts st) :=
  ⟨(ordered_guards C).reachable, fun config _ _ => (ordered_guards C).run_iff ⟨config, rfl⟩⟩

/-! ## Two calls -/

instance (st : Sys) : DecidablePred (InOrder st) := fun a =>
  match a with
  | .call _ _ => isTrue trivial
  | .run i =>
    decidable_of_iff (∀ c ∈ st.calls[i]?, ∀ e ∈ c.writes,
      ∀ old ∈ st.calls.filterMap Call.onDisk, old.txnId < e.txnId) Iff.rfl

/-- Two calls that fetch their ids and write in one order. -/
def uncrossed : List Act :=
  [.call ⟨0, 1, [7]⟩ .durable, .call ⟨0, 1, [8]⟩ .fast, .run 0, .run 1,
   .run 0, .run 0, .run 0, .run 0, .run 1, .run 1, .run 1, .run 1]

def uncrossedEnd : Sys :=
  (LTS.exec (step crates) (fun st a => Bounded st a ∧ InOrder st a)
    ⟨openLog crates ⟨4, 1000⟩ ∅, none, []⟩ uncrossed).get (by decide +kernel)

example : recover crates uncrossedEnd.session.disk = .ok [⟨1, 1, [7]⟩, ⟨2, 1, [8]⟩] := by
  decide +kernel

theorem uncrossed_reachable :
    (((system crates).restrict Bounded).restrict InOrder).Reachable uncrossedEnd := by
  have hrun : LTS.exec (step crates) (fun st a => Bounded st a ∧ InOrder st a)
      ⟨openLog crates ⟨4, 1000⟩ ∅, none, []⟩ uncrossed = some uncrossedEnd := by
    rw [uncrossedEnd, Option.some_get]
  exact (LTS.reachable_of_exec ⟨⟨4, 1000⟩, rfl⟩ hrun).restrict_and

theorem log_ordered_uncrossed : Ordered crates uncrossedEnd :=
  (log_ordered_iff crates).1 uncrossedEnd uncrossed_reachable

def crossedEnd : Sys :=
  (LTS.exec (step crates) Bounded ⟨openLog crates ⟨4, 1000⟩ ∅, none, []⟩ crossed).get
    (by decide +kernel)

/-- The second call writes first. -/
theorem log_crossed : ((system crates).restrict Bounded).Reachable crossedEnd ∧
    recover crates crossedEnd.session.disk = .ok [⟨2, 1, [8]⟩, ⟨1, 1, [7]⟩] ∧
    ¬ Ordered crates crossedEnd := by
  have hrun : LTS.exec (step crates) Bounded ⟨openLog crates ⟨4, 1000⟩ ∅, none, []⟩ crossed =
      some crossedEnd := by
    rw [crossedEnd, Option.some_get]
  have hrec : recover crates crossedEnd.session.disk = .ok [⟨2, 1, [8]⟩, ⟨1, 1, [7]⟩] := by
    decide +kernel
  refine ⟨LTS.reachable_of_exec ⟨⟨4, 1000⟩, rfl⟩ hrun, hrec, ?_⟩
  intro ⟨es, hes, hsorted⟩
  obtain rfl := Except.ok.inj (hes.symm.trans hrec)
  exact absurd (List.rel_of_pairwise_cons hsorted (List.mem_singleton.mpr rfl)) (by decide)

end Tesseract.L2.Concurrent
