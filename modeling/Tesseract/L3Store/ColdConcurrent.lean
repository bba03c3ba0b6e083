import Tesseract.L3Store.ColdSessions

/-!
# Concurrent writes to the cold store

Any number of `write_batch` calls on one `ColdStore`. A call takes the mutex
twice, to peek the batch number and to update the metadata; the batch file is
written between the two, `meta.json` and `manifest.json` behind the second. Each
of the five is a step of its own and other calls run between any two of them.
No I/O call fails.

* `run_alone`: a call that is not interrupted does what `writeBatch` does.
* `Inv`: the batch files below the number in memory are complete, and at most one
  call of a partition is between its peek and its update.
* `quiet_keeps_all`: if no call peeks while another of its partition has
  not published its number, and the last manifest written is not a stale one,
  nothing is lost.
* `overlapping_writes_lose`: either overlap loses a batch or a partition.
-/
namespace Tesseract.L3.ColdStore.Concurrent

open Serde

variable {α : Type} [F64 α] {K : Codec α}

/-- How far a call is. Behind the update it carries the metadata and the
partitions whose JSON it is going to write. -/
inductive Phase where
  | start
  | peeked (batchNum : UInt64)
  | written (batchNum : UInt64)
  | updated (m : PartitionMeta) (partitions : List UInt64)
  | metaWritten (partitions : List UInt64)
  | done
  deriving DecidableEq

structure Call (α : Type) [F64 α] where
  partition : UInt64
  records : List (VectorRecord α)
  phase : Phase

structure Sys (α : Type) [F64 α] where
  store : ColdStore
  calls : List (Call α)

inductive Act (α : Type) [F64 α] where
  | call (partition : UInt64) (records : List (VectorRecord α))
  /-- `rank` is the order of the `HashMap` at this step. -/
  | run (rank : UInt64 → Nat) (i : Nat)

def compressed (K : Codec α) (records : List (VectorRecord α)) : Bytes :=
  K.encodeAll (K.text.print (encodeBatch records))

/-- The metadata of a batch whose number was peeked before.
mirrors tesseract-storage/src/cold_store.rs:134-137 -/
def publish (s : ColdStore) (partition : UInt64) (batchNum : UInt64) (count size : Nat) :
    PartitionMeta :=
  let m := (s.writers.lookup partition).getD ⟨0, 0, 0⟩
  ⟨m.recordCount + .ofNat count, batchNum, m.sizeBytes + .ofNat size⟩

def Sys.at (st : Sys α) (i : Nat) (c : Call α) (p : Phase) : Sys α :=
  { st with calls := st.calls.set i { c with phase := p } }

def Sys.put (st : Sys α) (f : ColdFile) (bs : Bytes) : Sys α :=
  { st with store := ⟨st.store.disk.put f bs, st.store.writers⟩ }

/-- The next step of call `i`.
mirrors tesseract-storage/src/cold_store.rs:108-152 -/
def advance (K : Codec α) (rank : UInt64 → Nat) (st : Sys α) (i : Nat) (c : Call α) :
    Option (Sys α) :=
  match c.phase with
  | .start =>
    if c.records.isEmpty then some (st.at i c .done)
    else some (st.at i c (.peeked (st.store.batchNum c.partition)))
  | .peeked n =>
    some ((st.put (.batch c.partition n.toNat) (compressed K c.records)).at i c (.written n))
  | .written n =>
    let m := publish st.store c.partition n c.records.length (compressed K c.records).length
    let writers := st.store.writers.insert c.partition m
    some ({ st with store := ⟨st.store.disk, writers⟩ }.at i c
      (.updated m (keysInOrder rank writers)))
  | .updated m partitions =>
    some ((st.put (.meta c.partition) (K.text.print (encodeMeta m))).at i c
      (.metaWritten partitions))
  | .metaWritten partitions =>
    some ((st.put .manifest (K.text.print (encodeManifest partitions))).at i c .done)
  | .done => none

def step (K : Codec α) (st : Sys α) : Act α → Option (Sys α)
  | .call partition records => some { st with calls := st.calls ++ [⟨partition, records, .start⟩] }
  | .run rank i => st.calls[i]?.bind (advance K rank st i)

/-- A store that was written to one call after the other, and no call yet. -/
def system (K : Codec α) : LTS (Sys α) (Act α) :=
  LTS.ofFn (fun st => st.calls = [] ∧ ∃ parts, Stored K st.store parts) (step K)

/-! ## When writes overlap -/

/-- The call has peeked its number and not published it yet. -/
def Call.holding (c : Call α) : Bool :=
  match c.phase with
  | .peeked _ | .written _ => true
  | _ => false

/-- The call still has its manifest to write. -/
def Call.pending (c : Call α) : Bool :=
  !c.records.isEmpty && match c.phase with
    | .done => false
    | _ => true

/-- What a step needs so that nothing is lost: a peek finds no other call of its
partition that holds a number, and the number fits the `u32` of the reader; a
manifest that misses a partition known in memory is not the last one written. -/
def Orderly (st : Sys α) : Act α → Prop
  | .call _ _ => True
  | .run _ i =>
    match st.calls[i]? with
    | none => True
    | some c =>
      match c.phase with
      | .start => c.records.isEmpty ∨
          ((∀ c' ∈ st.calls, c'.partition = c.partition → c'.holding = false) ∧
            (st.store.batchNum c.partition).toNat < 2 ^ 32)
      | .metaWritten partitions => (∀ p ∈ st.store.writers.keys, p ∈ partitions) ∨
          ∃ j < st.calls.length, j ≠ i ∧ (st.calls[j]?.any Call.pending) = true
      | _ => True

instance (st : Sys α) (a : Act α) : Decidable (Orderly st a) := by
  unfold Orderly
  split
  · infer_instance
  · split
    · infer_instance
    · split
      · infer_instance
      -- over the keys, not over every `UInt64`
      · exact @instDecidableOr _ _ (List.decidableBAll _ _) inferInstance
      · infer_instance

/-- JSON reads every record of the call back as it was. -/
def Act.RoundTrips (K : Codec α) : Act α → Prop
  | .call _ records => ∀ r ∈ records, Readable r ∧ K.text.backRecord r = r
  | .run _ _ => True

/-! ## The invariant -/

@[simp] theorem at_store (st : Sys α) (i : Nat) (c : Call α) (p : Phase) :
    (st.at i c p).store = st.store := rfl

@[simp] theorem put_read (st : Sys α) (f g : ColdFile) (bs : Bytes) :
    (st.put f bs).store.disk.read g = if g = f then some bs else st.store.disk.read g :=
  Disk.read_put st.store.disk f g bs

theorem at_get (st : Sys α) {i : Nat} {c : Call α} (hc : st.calls[i]? = some c) (p : Phase)
    (j : Nat) :
    (st.at i c p).calls[j]? = if j = i then some { c with phase := p } else st.calls[j]? := by
  have hlt : i < st.calls.length := (List.getElem?_eq_some_iff.mp hc).1
  rw [Sys.at, List.getElem?_set]
  by_cases hj : i = j
  · subst hj
    simp [hlt]
  · simp [hj, Ne.symm hj]

theorem at_keeps (st : Sys α) {i j : Nat} {c c' : Call α} (hc : st.calls[i]? = some c) (p : Phase)
    (hj : st.calls[j]? = some c') (hne : c' ≠ c) : (st.at i c p).calls[j]? = some c' := by
  rw [at_get st hc, if_neg]
  · exact hj
  · intro hji
    rw [hji, hc, Option.some.injEq] at hj
    exact hne hj.symm

/-- What is known of a call on the disk `d`, with `parts` published in memory. -/
def CallOk (K : Codec α) (d : Disk ColdFile) (parts : Parts α) (c : Call α) : Prop :=
  (∀ r ∈ c.records, Readable r ∧ K.text.backRecord r = r) ∧
  match c.phase with
  | .start => True
  | .peeked n => c.records ≠ [] ∧ n.toNat = (parts c.partition).length + 1 ∧ n.toNat < 2 ^ 32
  | .written n => c.records ≠ [] ∧ n.toNat = (parts c.partition).length + 1 ∧ n.toNat < 2 ^ 32 ∧
      d.read (.batch c.partition n.toNat) = some (compressed K c.records)
  | .updated _ _ | .metaWritten _ => c.records ≠ [] ∧ c.records ∈ parts c.partition
  | .done => c.records = [] ∨ c.records ∈ parts c.partition

/-- At most one call of a partition holds a number. -/
def Alone (calls : List (Call α)) : Prop :=
  ∀ (i j : Nat) (c c' : Call α), calls[i]? = some c → calls[j]? = some c' → c.holding →
    c'.holding → c.partition = c'.partition → i = j

structure Inv (K : Codec α) (st : Sys α) (parts : Parts α) : Prop where
  calls : ∀ (i : Nat) (c : Call α), st.calls[i]? = some c → CallOk K st.store.disk parts c
  alone : Alone st.calls
  batches : ∀ p i b, (parts p)[i]? = some b →
    ∃ bs, st.store.disk.read (.batch p (i + 1)) = some bs ∧ decodeFile K bs = .ok b
  noMore : ∀ p n, n = 0 ∨ (parts p).length < n → st.store.disk.read (.batch p n) = none ∨
    ∃ (i : Nat) (c : Call α) (m : UInt64), st.calls[i]? = some c ∧ c.partition = p ∧
      c.phase = .written m ∧ m.toNat = n
  writers : ∀ p, p ∈ st.store.writers ↔ parts p ≠ []
  count : ∀ p m, st.store.writers.lookup p = some m → m.batchCount.toNat = (parts p).length
  short : ∀ p, (parts p).length < 2 ^ 32
  metas : ∀ p ∈ st.store.writers, (∃ m, readMeta K st.store.disk p = some m) ∨
    ∃ (i : Nat) (c : Call α) (m : PartitionMeta) (ps : List UInt64), st.calls[i]? = some c ∧
      c.partition = p ∧ c.phase = .updated m ps
  listed : ∃ pids, Listed K st.store.disk pids ∧ ((∀ p ∈ st.store.writers, p ∈ pids) ∨
    ∃ (i : Nat) (c : Call α), st.calls[i]? = some c ∧ c.pending)

theorem CallOk.frame {d d' : Disk ColdFile} {parts parts' : Parts α} {c : Call α}
    (h : CallOk K d parts c)
    (hfile : c.holding → ∀ n, d'.read (.batch c.partition n) = d.read (.batch c.partition n))
    (hsame : c.holding → parts' c.partition = parts c.partition)
    (hsub : ∀ b ∈ parts c.partition, b ∈ parts' c.partition) : CallOk K d' parts' c := by
  obtain ⟨p, rs, ph⟩ := c
  refine ⟨h.1, ?_⟩
  have h2 := h.2
  cases ph with
  | start => trivial
  | peeked n =>
    rw [← hsame rfl] at h2
    exact h2
  | written n =>
    simp only at h2 hfile hsame ⊢
    rw [hsame rfl, hfile rfl]
    exact h2
  | updated m ps => exact ⟨h2.1, hsub _ h2.2⟩
  | metaWritten ps => exact ⟨h2.1, hsub _ h2.2⟩
  | done => exact h2.imp id (hsub _)

/-- Call `i` moves on, and no other call holds its partition. -/
theorem Alone.set {st : Sys α} {i : Nat} {c : Call α} {ph : Phase} (h : Alone st.calls)
    (hc : st.calls[i]? = some c)
    (hi : Call.holding { c with phase := ph } → ∀ (j : Nat) (c' : Call α),
      st.calls[j]? = some c' → c'.holding → c'.partition = c.partition → j = i) :
    Alone (st.at i c ph).calls := by
  intro a b x y hx hy hxh hyh hp
  rw [at_get st hc] at hx hy
  by_cases ha : a = i
  · by_cases hb : b = i
    · rw [ha, hb]
    · rw [if_pos ha, Option.some.injEq] at hx
      rw [if_neg hb] at hy
      subst hx
      exact ha.trans (hi hxh b y hy hyh hp.symm).symm
  · rw [if_neg ha] at hx
    by_cases hb : b = i
    · rw [if_pos hb, Option.some.injEq] at hy
      subst hy
      exact (hi hyh a x hx hxh hp).trans hb.symm
    · rw [if_neg hb] at hy
      exact h a b x y hx hy hxh hyh hp

theorem Alone.at {st : Sys α} {i : Nat} {c : Call α} {ph : Phase} (h : Alone st.calls)
    (hc : st.calls[i]? = some c) (hmono : Call.holding { c with phase := ph } → c.holding) :
    Alone (st.at i c ph).calls :=
  h.set hc fun hhold j c' hj hj' hp => h j i c' c hj hc hj' (hmono hhold) hp

section Steps

variable {st : Sys α} {parts : Parts α} {i : Nat} {c : Call α} {ph : Phase}

/-- What is known of the calls, when call `i` moves on. -/
theorem calls_at {d : Disk ColdFile} {parts' : Parts α} (hc : st.calls[i]? = some c)
    (hnew : CallOk K d parts' { c with phase := ph })
    (hrest : ∀ (j : Nat) (c' : Call α), st.calls[j]? = some c' → j ≠ i → CallOk K d parts' c') :
    ∀ (j : Nat) (c' : Call α), (st.at i c ph).calls[j]? = some c' → CallOk K d parts' c' := by
  intro j c' hj
  rw [at_get st hc] at hj
  by_cases hji : j = i
  · rw [if_pos hji, Option.some.injEq] at hj
    subst hj
    exact hnew
  · rw [if_neg hji] at hj
    exact hrest j c' hj hji

/-- A number is held by the same call still, unless it is call `i` that held it. -/
theorem held_at (hc : st.calls[i]? = some c) {p : UInt64} {n : Nat}
    (hother : ∀ m : UInt64, c.partition = p → c.phase = .written m → m.toNat ≠ n)
    (h : ∃ (j : Nat) (c' : Call α) (m : UInt64), st.calls[j]? = some c' ∧ c'.partition = p ∧
      c'.phase = .written m ∧ m.toNat = n) :
    ∃ (j : Nat) (c' : Call α) (m : UInt64), (st.at i c ph).calls[j]? = some c' ∧
      c'.partition = p ∧ c'.phase = .written m ∧ m.toNat = n := by
  obtain ⟨j, c', m, hj, hpart, hphase, hm⟩ := h
  refine ⟨j, c', m, at_keeps st hc ph hj ?_, hpart, hphase, hm⟩
  intro heq
  subst heq
  exact hother m hpart hphase hm

/-- A step that leaves memory and batch files alone. -/
theorem Inv.frame (h : Inv K st parts) (hc : st.calls[i]? = some c) {d : Disk ColdFile}
    (hbatch : ∀ p n, d.read (.batch p n) = st.store.disk.read (.batch p n))
    (hwas : ∀ n, c.phase ≠ .written n) (hok : CallOk K d parts { c with phase := ph })
    (halone : Alone (st.at i c ph).calls)
    (hmetas : ∀ p ∈ st.store.writers, (∃ m, readMeta K d p = some m) ∨
      ∃ (j : Nat) (c' : Call α) (m : PartitionMeta) (ps : List UInt64),
        (st.at i c ph).calls[j]? = some c' ∧ c'.partition = p ∧ c'.phase = .updated m ps)
    (hlisted : ∃ pids, Listed K d pids ∧ ((∀ p ∈ st.store.writers, p ∈ pids) ∨
      ∃ (j : Nat) (c' : Call α), (st.at i c ph).calls[j]? = some c' ∧ c'.pending)) :
    Inv K { st.at i c ph with store := ⟨d, st.store.writers⟩ } parts := by
  refine ⟨calls_at hc hok ?_, halone, ?_, ?_, h.writers, h.count, h.short, hmetas, hlisted⟩
  · intro j c' hj _
    exact (h.calls j c' hj).frame (fun _ n => hbatch _ n) (fun _ => rfl) fun _ hb => hb
  · intro p k b hb
    simp only [hbatch]
    exact h.batches p k b hb
  · intro p n hn
    simp only [hbatch]
    exact (h.noMore p n hn).imp id (held_at hc fun m _ hm => absurd hm (hwas m))

theorem pending_at (hc : st.calls[i]? = some c) (hne : c.records ≠ []) (hph : ph ≠ .done) :
    ∃ (j : Nat) (c' : Call α), (st.at i c ph).calls[j]? = some c' ∧ c'.pending := by
  refine ⟨i, { c with phase := ph }, by rw [at_get st hc, if_pos rfl], ?_⟩
  unfold Call.pending
  cases ph with
  | done => exact absurd rfl hph
  | _ => simp [hne]

theorem Inv.metas_at (h : Inv K st parts) (hc : st.calls[i]? = some c)
    (hwas : ∀ m ps, c.phase ≠ .updated m ps) {d : Disk ColdFile}
    (hmeta : ∀ p, d.read (.meta p) = st.store.disk.read (.meta p)) :
    ∀ p ∈ st.store.writers, (∃ m, readMeta K d p = some m) ∨
      ∃ (j : Nat) (c' : Call α) (m : PartitionMeta) (ps : List UInt64),
        (st.at i c ph).calls[j]? = some c' ∧ c'.partition = p ∧ c'.phase = .updated m ps := by
  intro p hp
  rcases h.metas p hp with hm | ⟨j, c', m, ps, hj, hpart, hphase⟩
  · left
    simp only [readMeta, hmeta] at hm ⊢
    exact hm
  · refine .inr ⟨j, c', m, ps, at_keeps st hc ph hj ?_, hpart, hphase⟩
    intro heq
    subst heq
    exact hwas m ps hphase

theorem Listed.of_read {d d' : Disk ColdFile} {pids : List UInt64} (h : Listed K d pids)
    (hd : d'.read .manifest = d.read .manifest) : Listed K d' pids := by
  rw [Listed, hd]
  exact h

theorem Inv.skip (h : Inv K st parts) (hc : st.calls[i]? = some c) (hp : c.phase = .start)
    (hnil : c.records = []) : Inv K (st.at i c .done) parts := by
  refine h.frame hc (fun _ _ => rfl) (by simp [hp]) ⟨(h.calls i c hc).1, .inl hnil⟩
    (h.alone.at hc (by simp [Call.holding])) (h.metas_at hc (by simp [hp]) fun _ => rfl) ?_
  obtain ⟨pids, hpids, hall⟩ := h.listed
  refine ⟨pids, hpids, hall.imp id ?_⟩
  rintro ⟨j, c', hj, hpend⟩
  refine ⟨j, c', at_keeps st hc .done hj ?_, hpend⟩
  intro heq
  subst heq
  simp [Call.pending, hnil] at hpend

theorem Inv.batchNum (h : Inv K st parts) (p : UInt64) :
    (st.store.batchNum p).toNat = (parts p).length + 1 := by
  have hshort := h.short p
  exact batchNum_eq (by rw [h.writers, Ne, ← List.length_eq_zero_iff]) (h.count p) (by omega)

theorem Inv.peek (h : Inv K st parts) (hc : st.calls[i]? = some c) (hp : c.phase = .start)
    (hne : c.records ≠ [])
    (hfree : ∀ c' ∈ st.calls, c'.partition = c.partition → c'.holding = false)
    (hnum : (st.store.batchNum c.partition).toNat < 2 ^ 32) :
    Inv K (st.at i c (.peeked (st.store.batchNum c.partition))) parts := by
  have hother : ∀ (j : Nat) (c' : Call α), st.calls[j]? = some c' → c'.holding →
      c'.partition ≠ c.partition := by
    intro j c' hj hhold hpart
    rw [hfree c' (List.mem_of_getElem? hj) hpart] at hhold
    cases hhold
  refine h.frame hc (fun _ _ => rfl) (by simp [hp])
    ⟨(h.calls i c hc).1, hne, h.batchNum c.partition, hnum⟩ ?_
    (h.metas_at hc (by simp [hp]) fun _ => rfl) ?_
  · exact h.alone.set hc fun _ j c' hj hhold hpart => absurd hpart (hother j c' hj hhold)
  · obtain ⟨pids, hpids, _⟩ := h.listed
    exact ⟨pids, hpids, .inr (pending_at hc hne (by simp))⟩

theorem Inv.writeMeta (hK : K.Lawful) (h : Inv K st parts) (hc : st.calls[i]? = some c)
    {m : PartitionMeta} {ps : List UInt64} (hp : c.phase = .updated m ps) :
    Inv K ((st.put (.meta c.partition) (K.text.print (encodeMeta m))).at i c (.metaWritten ps))
      parts := by
  have hok := h.calls i c hc
  have hdone := hok.2
  rw [hp] at hdone
  refine h.frame hc (by simp [Disk.read_put]) (by simp [hp]) ⟨hok.1, hdone⟩
    (h.alone.at hc (by simp [Call.holding])) ?_ ?_
  · intro p hmem
    by_cases hpart : p = c.partition
    · subst hpart
      exact .inl ⟨m, readMeta_encodeMeta hK (by rw [Disk.read_put, if_pos rfl])⟩
    · have hread : (st.store.disk.put (.meta c.partition) (K.text.print (encodeMeta m))).read
          (.meta p) = st.store.disk.read (.meta p) := by
        simp [Disk.read_put, hpart]
      rcases h.metas p hmem with hm | ⟨j, c', m', ps', hj, hpart', hphase⟩
      · left
        rw [readMeta, hread]
        exact hm
      · refine .inr ⟨j, c', m', ps', at_keeps st hc _ hj ?_, hpart', hphase⟩
        intro heq
        subst heq
        exact hpart hpart'.symm
  · obtain ⟨pids, hpids, _⟩ := h.listed
    exact ⟨pids, Listed.of_read hpids (by simp [Disk.read_put]),
      .inr (pending_at hc hdone.1 (by simp))⟩

theorem Inv.writeManifest (h : Inv K st parts) (hc : st.calls[i]? = some c) {ps : List UInt64}
    (hp : c.phase = .metaWritten ps)
    (hlast : (∀ p ∈ st.store.writers.keys, p ∈ ps) ∨
      ∃ j < st.calls.length, j ≠ i ∧ (st.calls[j]?.any Call.pending) = true) :
    Inv K ((st.put .manifest (K.text.print (encodeManifest ps))).at i c .done) parts := by
  have hok := h.calls i c hc
  have hdone := hok.2
  rw [hp] at hdone
  refine h.frame hc (by simp [Disk.read_put]) (by simp [hp]) ⟨hok.1, .inr hdone.2⟩
    (h.alone.at hc (by simp [Call.holding]))
    (h.metas_at hc (by simp [hp]) (by simp [Disk.read_put])) ?_
  refine ⟨ps, .inr (by rw [Disk.read_put, if_pos rfl]), hlast.imp id ?_⟩
  rintro ⟨j, _, hji, hpend⟩
  obtain ⟨c', hj, hpend⟩ := (Option.any_eq_true _ _).mp hpend
  exact ⟨j, c', by rw [at_get st hc, if_neg hji]; exact hj, hpend⟩

theorem Inv.writeFile (h : Inv K st parts) (hc : st.calls[i]? = some c) {n : UInt64}
    (hp : c.phase = .peeked n) :
    Inv K ((st.put (.batch c.partition n.toNat) (compressed K c.records)).at i c (.written n))
      parts := by
  have hok := h.calls i c hc
  obtain ⟨hrt, hnum⟩ := hok
  rw [hp] at hnum
  have hhold : c.holding := by simp [Call.holding, hp]
  have hput : (st.put (.batch c.partition n.toNat) (compressed K c.records)).calls[i]? =
    some c := hc
  have hget := at_get (st.put (.batch c.partition n.toNat) (compressed K c.records)) hput
    (.written n)
  have hread : ∀ p k, (st.put (.batch c.partition n.toNat)
      (compressed K c.records)).store.disk.read (.batch p k) =
      if p = c.partition ∧ k = n.toNat then some (compressed K c.records)
      else st.store.disk.read (.batch p k) := by
    simp
  refine ⟨calls_at hc ?_ ?_, h.alone.at hc (fun _ => hhold), ?_, ?_, h.writers, h.count, h.short,
    ?_, ?_⟩
  · refine ⟨hrt, hnum.1, hnum.2.1, hnum.2.2, ?_⟩
    rw [at_store, hread, if_pos ⟨rfl, rfl⟩]
  · intro j c' hj hji
    refine (h.calls j c' hj).frame ?_ (fun _ => rfl) fun _ hb => hb
    intro hhold' k
    rw [at_store, hread, if_neg]
    exact fun hsame => hji (h.alone j i c' c hj hc hhold' hhold hsame.1)
  · intro p k b hb
    have hk : k < (parts p).length := (List.getElem?_eq_some_iff.mp hb).1
    rw [at_store, hread, if_neg]
    · exact h.batches p k b hb
    · rintro ⟨rfl, hkn⟩
      omega
  · intro p k hk
    rw [at_store, hread]
    by_cases hnew : p = c.partition ∧ k = n.toNat
    · exact .inr ⟨i, { c with phase := .written n }, n, by rw [hget, if_pos rfl], hnew.1.symm, rfl,
        hnew.2.symm⟩
    · rw [if_neg hnew]
      exact (h.noMore p k hk).imp id (held_at hput (by simp [hp]))
  · exact h.metas_at hc (by simp [hp]) (by simp)
  · obtain ⟨pids, hpids, _⟩ := h.listed
    exact ⟨pids, Listed.of_read hpids (by simp), .inr (pending_at hc hnum.1 (by simp))⟩

theorem decodeFile_compressed (hK : K.Lawful) {rs : List (VectorRecord α)}
    (h : ∀ r ∈ rs, Readable r ∧ K.text.backRecord r = r) :
    decodeFile K (compressed K rs) = .ok rs := by
  rw [compressed, decodeFile_encode hK fun r hr => (h r hr).1, map_backRecord h]

/-- The batch counts as written from here on. -/
theorem Inv.update (hK : K.Lawful) (h : Inv K st parts) (hc : st.calls[i]? = some c)
    {n : UInt64} (hp : c.phase = .written n) {m : PartitionMeta} (hm : m.batchCount = n)
    (ps : List UInt64) :
    Inv K ({ st with store := ⟨st.store.disk, st.store.writers.insert c.partition m⟩ }.at i c
      (.updated m ps)) (Function.update parts c.partition (parts c.partition ++ [c.records])) := by
  obtain ⟨hrt, hnum⟩ := h.calls i c hc
  rw [hp] at hnum
  have hhold : c.holding := by simp [Call.holding, hp]
  have hput : ({ st with store := ⟨st.store.disk, st.store.writers.insert c.partition m⟩ } :
    Sys α).calls[i]? = some c := hc
  have hget := at_get { st with store :=
    ⟨st.store.disk, st.store.writers.insert c.partition m⟩ } hput (.updated m ps)
  have hlen : (parts c.partition).length + 1 < 2 ^ 32 := by
    rw [← hnum.2.1]
    exact hnum.2.2.1
  refine ⟨calls_at hc ⟨hrt, hnum.1, by simp⟩ ?_, h.alone.at hc (fun _ => hhold), ?_, ?_, ?_, ?_,
    short_more h.short hlen, ?_, ?_⟩
  · intro j c' hj hji
    refine (h.calls j c' hj).frame (fun _ _ => rfl) ?_ (fun b hb => mem_more hb)
    intro hhold'
    rw [Function.update_of_ne]
    exact fun hsame => hji (h.alone j i c' c hj hc hhold' hhold hsame)
  · intro p k b hb
    rw [getElem?_more] at hb
    split at hb
    · next hlast =>
      cases hb
      rw [hlast.1, hlast.2, ← hnum.2.1]
      exact ⟨_, hnum.2.2.2, decodeFile_compressed hK hrt⟩
    · exact h.batches p k b hb
  · intro p k hk
    rw [length_more] at hk
    refine (h.noMore p k (by omega)).imp id (held_at hput ?_)
    -- the number that call `i` holds is the next one of its partition
    intro m' hpart hphase hmk
    rw [hp, Phase.written.injEq] at hphase
    subst hphase hpart
    rw [if_pos rfl] at hk
    omega
  · intro p
    rw [at_store, AList.mem_insert, ne_nil_more, h.writers p]
  · intro p m' hm'
    rw [length_more]
    rw [at_store] at hm'
    by_cases hpart : p = c.partition
    · subst hpart
      rw [AList.lookup_insert, Option.some.injEq] at hm'
      rw [if_pos rfl, ← hm', hm]
      exact hnum.2.1
    · rw [AList.lookup_insert_ne hpart] at hm'
      rw [if_neg hpart]
      exact h.count p m' hm'
  · intro p hmem
    rw [at_store, AList.mem_insert] at hmem
    by_cases hpart : p = c.partition
    · exact .inr ⟨i, { c with phase := .updated m ps }, m, ps, by rw [hget, if_pos rfl],
        hpart.symm, rfl⟩
    · exact h.metas_at hc (by simp [hp]) (fun _ => rfl) p (hmem.resolve_left hpart)
  · obtain ⟨pids, hpids, _⟩ := h.listed
    exact ⟨pids, hpids, .inr (pending_at hc hnum.1 (by simp))⟩

theorem Inv.call (h : Inv K st parts) {p : UInt64} {rs : List (VectorRecord α)}
    (hrs : ∀ r ∈ rs, Readable r ∧ K.text.backRecord r = r) :
    Inv K { st with calls := st.calls ++ [⟨p, rs, .start⟩] } parts := by
  have hold : ∀ {j : Nat} {c' : Call α}, st.calls[j]? = some c' →
      (st.calls ++ [⟨p, rs, .start⟩])[j]? = some c' := by
    intro j c' hj
    rw [List.getElem?_append_left (List.getElem?_eq_some_iff.mp hj).1, hj]
  have hsplit : ∀ {j : Nat} {c' : Call α}, (st.calls ++ [⟨p, rs, .start⟩])[j]? = some c' →
      st.calls[j]? = some c' ∨ c' = ⟨p, rs, .start⟩ := by
    intro j c' hj
    by_cases hlt : j < st.calls.length
    · rw [List.getElem?_append_left hlt] at hj
      exact .inl hj
    · rw [List.getElem?_append_right (by omega)] at hj
      exact .inr (List.mem_singleton.mp (List.mem_of_getElem? hj))
  have hholding : ∀ {j : Nat} {c' : Call α}, (st.calls ++ [⟨p, rs, .start⟩])[j]? = some c' →
      c'.holding → st.calls[j]? = some c' := by
    intro j c' hj hhold
    refine (hsplit hj).resolve_right ?_
    intro heq
    subst heq
    cases hhold
  refine ⟨?_, ?_, h.batches, ?_, h.writers, h.count, h.short, ?_, ?_⟩
  · intro j c' hj
    rcases hsplit hj with hj | rfl
    · exact h.calls j c' hj
    · exact ⟨hrs, trivial⟩
  · intro a b x y hx hy hxh hyh hpart
    exact h.alone a b x y (hholding hx hxh) (hholding hy hyh) hxh hyh hpart
  · intro q n hn
    refine (h.noMore q n hn).imp id ?_
    rintro ⟨j, c', m, hj, hrest⟩
    exact ⟨j, c', m, hold hj, hrest⟩
  · intro q hq
    refine (h.metas q hq).imp id ?_
    rintro ⟨j, c', m, ps, hj, hrest⟩
    exact ⟨j, c', m, ps, hold hj, hrest⟩
  · obtain ⟨pids, hpids, hall⟩ := h.listed
    refine ⟨pids, hpids, hall.imp id ?_⟩
    rintro ⟨j, c', hj, hpend⟩
    exact ⟨j, c', hold hj, hpend⟩

/-- An orderly step of call `i` keeps the invariant; the update adds a batch. -/
theorem Inv.advance (hK : K.Lawful) (h : Inv K st parts) (hc : st.calls[i]? = some c)
    {rank : UInt64 → Nat} {st' : Sys α} (hord : Orderly st (.run rank i))
    (hstep : advance K rank st i c = some st') : ∃ parts', Inv K st' parts' := by
  simp only [Orderly, hc] at hord
  unfold Concurrent.advance at hstep
  cases hp : c.phase with
  | start =>
    simp only [hp] at hord hstep
    by_cases hnil : c.records = []
    · simp only [hnil, List.isEmpty_nil, if_true, Option.some.injEq] at hstep
      subst hstep
      exact ⟨parts, h.skip hc hp hnil⟩
    · have hemp : c.records.isEmpty = false := by simpa using hnil
      simp only [hemp, Bool.false_eq_true, if_false, Option.some.injEq] at hstep
      simp only [hemp, Bool.false_eq_true, false_or] at hord
      subst hstep
      exact ⟨parts, h.peek hc hp hnil hord.1 hord.2⟩
  | peeked n =>
    simp only [hp, Option.some.injEq] at hstep
    subst hstep
    exact ⟨parts, h.writeFile hc hp⟩
  | written n =>
    simp only [hp, Option.some.injEq] at hstep
    subst hstep
    exact ⟨_, h.update hK hc hp rfl _⟩
  | updated m ps =>
    simp only [hp, Option.some.injEq] at hstep
    subst hstep
    exact ⟨parts, h.writeMeta hK hc hp⟩
  | metaWritten ps =>
    simp only [hp, Option.some.injEq] at hstep
    simp only [hp] at hord
    subst hstep
    exact ⟨parts, h.writeManifest hc hp hord⟩
  | done => simp [hp] at hstep

end Steps

theorem Inv.init {st : Sys α} (hcalls : st.calls = []) {parts : Parts α}
    (h : Stored K st.store parts) : Inv K st parts := by
  obtain ⟨pids, hpids, hkeys⟩ := h.listed
  refine ⟨?_, ?_, h.holds.batches, fun p n hn => .inl (h.holds.noMore p n hn), h.holds.writers,
    h.holds.count, h.short, ?_, pids, hpids, .inl fun p => (hkeys p).mpr⟩
  · intro i c hc
    simp [hcalls] at hc
  · intro i j c c' hc
    simp [hcalls] at hc
  · intro p hp
    obtain ⟨m, hm⟩ := Option.isSome_iff_exists.mp (AList.lookup_isSome.mpr hp)
    exact .inl ⟨m, h.metaFile p m hm⟩

theorem inv_run (hK : K.Lawful) {st₀ st : Sys α} {acts : List (Act α)}
    (hinit : (system K).init st₀) (hrun : ((system K).restrict Orderly).Run st₀ acts st)
    (hacts : ∀ a ∈ acts, a.RoundTrips K) : ∃ parts, Inv K st parts := by
  obtain ⟨hcalls, parts, hstored⟩ := hinit
  refine hrun.history (I := fun _ st => ∃ parts, Inv K st parts) ⟨parts, .init hcalls hstored⟩ ?_
  intro pre a s s' hpre h hst
  obtain ⟨parts, h⟩ := h
  obtain ⟨hstep, hord⟩ := hst
  have hrt : a.RoundTrips K := hacts a (hpre.subset (by simp))
  cases a with
  | call p rs =>
    cases hstep
    exact ⟨parts, h.call hrt⟩
  | run rank i =>
    obtain ⟨c, hc, hadv⟩ := Option.bind_eq_some_iff.mp hstep
    exact h.advance hK hc hord hadv

/-- Once every call has returned, the store holds a batch for each of them. -/
theorem Inv.quiet {st : Sys α} {parts : Parts α} (h : Inv K st parts)
    (hdone : ∀ c ∈ st.calls, c.phase = .done) : Holds K st.store parts := by
  refine ⟨h.batches, ?_, h.writers, h.count, ?_⟩
  · intro p n hn
    refine (h.noMore p n hn).resolve_right ?_
    rintro ⟨i, c, m, hc, _, hphase, _⟩
    rw [hdone c (List.mem_of_getElem? hc)] at hphase
    cases hphase
  · obtain ⟨pids, hpids, _⟩ := h.listed
    rcases hpids with ⟨hnone, _⟩ | hsome
    · exact .inl hnone
    · exact .inr ⟨pids, hsome⟩

/-- In every interleaving whose steps are orderly: when all calls have returned,
each partition reads with the records of all its calls, and is known to a store
opened on the directory. -/
theorem quiet_keeps_all (hK : K.Lawful) {st₀ st : Sys α} {acts : List (Act α)}
    (hinit : (system K).init st₀) (hrun : ((system K).restrict Orderly).Run st₀ acts st)
    (hacts : ∀ a ∈ acts, a.RoundTrips K) (hdone : ∀ c ∈ st.calls, c.phase = .done) :
    (∀ p, ∃ rs, readPartition K st.store p = .ok rs ∧
      ∀ c ∈ st.calls, c.partition = p → ∀ r ∈ c.records, r ∈ rs) ∧
    ∃ s, openStore K st.store.disk = .ok s ∧
      ∀ rank, ∀ c ∈ st.calls, c.records ≠ [] → c.partition ∈ s.partitions rank := by
  obtain ⟨parts, h⟩ := inv_run hK hinit hrun hacts
  have hholds := h.quiet hdone
  have hmem : ∀ c ∈ st.calls, c.records = [] ∨ c.records ∈ parts c.partition := by
    intro c hc
    obtain ⟨i, hi⟩ := List.mem_iff_getElem?.mp hc
    have hok := (h.calls i c hi).2
    rw [hdone c hc] at hok
    exact hok
  refine ⟨?_, ?_⟩
  · intro p
    refine ⟨_, hholds.readPartition (h.short p), ?_⟩
    intro c hc hpart r hr
    subst hpart
    rcases hmem c hc with hnil | hin
    · rw [hnil] at hr
      cases hr
    · exact List.mem_flatten.mpr ⟨c.records, hin, hr⟩
  · obtain ⟨pids, hpids, hall⟩ := h.listed
    obtain ⟨writers, hw, hload⟩ := hpids.loadManifest hK
    refine ⟨⟨st.store.disk, writers⟩, by rw [openStore, hw]; rfl, ?_⟩
    intro rank c hc hne
    have hknown : c.partition ∈ st.store.writers := by
      rw [h.writers]
      exact List.ne_nil_of_mem ((hmem c hc).resolve_left hne)
    have hlisted : c.partition ∈ pids := by
      rcases hall with hall | ⟨i, c', hc', hpend⟩
      · exact hall _ hknown
      · simp [Call.pending, hdone c' (List.mem_of_getElem? hc')] at hpend
    have hmeta : ∃ m, readMeta K st.store.disk c.partition = some m := by
      refine (h.metas _ hknown).resolve_right ?_
      rintro ⟨i, c', m, ps, hc', _, hphase⟩
      rw [hdone c' (List.mem_of_getElem? hc')] at hphase
      cases hphase
    obtain ⟨m, hm⟩ := hmeta
    rw [partitions, mem_keysInOrder, ← AList.lookup_isSome, hload, if_pos hlisted, hm]
    rfl

/-! ## A call that runs alone -/

theorem step_run {st : Sys α} {i : Nat} {c : Call α} (hc : st.calls[i]? = some c)
    (rank : UInt64 → Nat) : step K st (.run rank i) = advance K rank st i c := by
  rw [step, hc, Option.bind_some]

theorem at_self {st : Sys α} {i : Nat} {c : Call α} (hc : st.calls[i]? = some c) (p : Phase) :
    (st.at i c p).calls[i]? = some { c with phase := p } := by
  rw [at_get st hc, if_pos rfl]

theorem run_peeked (st : Sys α) {i : Nat} {c : Call α} (hc : st.calls[i]? = some c)
    (rank : UInt64 → Nat) (n : UInt64) :
    step K (st.at i c (.peeked n)) (.run rank i) =
      some ((st.put (.batch c.partition n.toNat) (compressed K c.records)).at i c
        (.written n)) := by
  rw [step_run (at_self hc _)]
  simp [advance, Sys.at, Sys.put]

theorem run_written (st : Sys α) {i : Nat} {c : Call α} (hc : st.calls[i]? = some c)
    (rank : UInt64 → Nat) (n : UInt64) {m : PartitionMeta}
    (hm : m = publish st.store c.partition n c.records.length (compressed K c.records).length) :
    step K (st.at i c (.written n)) (.run rank i) =
      some ({ st with store := ⟨st.store.disk, st.store.writers.insert c.partition m⟩ }.at i c
        (.updated m (keysInOrder rank (st.store.writers.insert c.partition m)))) := by
  rw [step_run (at_self hc _), hm]
  simp [advance, Sys.at]

theorem run_updated (st : Sys α) {i : Nat} {c : Call α} (hc : st.calls[i]? = some c)
    (rank : UInt64 → Nat) (m : PartitionMeta) (ps : List UInt64) :
    step K (st.at i c (.updated m ps)) (.run rank i) =
      some ((st.put (.meta c.partition) (K.text.print (encodeMeta m))).at i c
        (.metaWritten ps)) := by
  rw [step_run (at_self hc _)]
  simp [advance, Sys.at, Sys.put]

theorem run_metaWritten (st : Sys α) {i : Nat} {c : Call α} (hc : st.calls[i]? = some c)
    (rank : UInt64 → Nat) (ps : List UInt64) :
    step K (st.at i c (.metaWritten ps)) (.run rank i) =
      some ((st.put .manifest (K.text.print (encodeManifest ps))).at i c .done) := by
  rw [step_run (at_self hc _)]
  simp [advance, Sys.at, Sys.put]

/-- The five steps in a row are `writeBatch`. -/
theorem run_alone {st : Sys α} {i : Nat} {c : Call α} (hc : st.calls[i]? = some c)
    (hp : c.phase = .start) (hne : c.records ≠ []) (rank : UInt64 → Nat) :
    (system K).Run st (List.replicate 5 (.run rank i))
      ({ st with store := (writeBatch K .none rank st.store c.partition c.records).1 }.at i c
        .done) := by
  have hemp : c.records.isEmpty = false := by simpa using hne
  have hpeek : step K st (.run rank i) =
      some (st.at i c (.peeked (st.store.batchNum c.partition))) := by
    rw [step_run hc, advance, hp]
    simp [hemp]
  rw [writeBatch_none K rank st.store c.partition hne]
  refine .cons hpeek (.cons (run_peeked st hc rank _)
    (.cons (run_written _ ?_ rank _ rfl) (.cons (run_updated _ ?_ rank _ _)
      (.cons (run_metaWritten _ ?_ rank _) (.nil _)))))
  · exact hc
  · exact hc
  · exact hc

/-! ## Concrete interleavings -/

def two : VectorRecord Lit := ⟨2, [.fin 7], .null, 0, 0⟩

theorem two_roundTrips : Readable two ∧ plain.text.backRecord two = two := ⟨by decide, rfl⟩

def empty : Sys Lit := ⟨⟨∅, ∅⟩, []⟩

theorem empty_init : (system plain).init empty := ⟨rfl, _, Stored.empty plain⟩

/-- Start the calls, then let them take their steps in the order given. -/
def interleave (calls : List (UInt64 × List (VectorRecord Lit))) (order : List Nat) :
    List (Act Lit) :=
  calls.map (fun c => .call c.1 c.2) ++ order.map (.run UInt64.toNat)

theorem interleave_roundTrips {calls : List (UInt64 × List (VectorRecord Lit))} {order : List Nat}
    (h : ∀ c ∈ calls, ∀ r ∈ c.2, r = one ∨ r = two) :
    ∀ a ∈ interleave calls order, a.RoundTrips plain := by
  intro a ha
  rcases List.mem_append.mp ha with ha | ha
  · obtain ⟨c, hc, rfl⟩ := List.mem_map.mp ha
    intro r hr
    rcases h c hc r hr with rfl | rfl
    · exact one_roundTrips
    · exact two_roundTrips
  · obtain ⟨i, _, rfl⟩ := List.mem_map.mp ha
    exact trivial

/-- Two partitions at once, and a second call of partition 1 that peeks when the
first has published its number; a stale manifest is overwritten in the end. -/
def orderly : List (Act Lit) :=
  interleave [(1, [one]), (2, [one]), (1, [two])] [0, 1, 0, 0, 1, 2, 1, 2, 1, 1, 0, 0, 2, 2, 2]

def orderlyEnd : Sys Lit :=
  (LTS.exec (step plain) Orderly empty orderly).get (by decide +kernel)

theorem quiet_keeps_all_orderly :
    (∀ p, ∃ rs, readPartition plain orderlyEnd.store p = .ok rs ∧
      ∀ c ∈ orderlyEnd.calls, c.partition = p → ∀ r ∈ c.records, r ∈ rs) ∧
    ∃ s, openStore plain orderlyEnd.store.disk = .ok s ∧
      ∀ rank, ∀ c ∈ orderlyEnd.calls, c.records ≠ [] → c.partition ∈ s.partitions rank := by
  refine quiet_keeps_all plain_lawful empty_init (LTS.run_of_exec (Option.some_get _).symm)
    (interleave_roundTrips (by simp)) ?_
  decide +kernel

/-- Both calls peek the number 1: the second overwrites the file of the first. -/
def samePeek : List (Act Lit) := interleave [(0, [one]), (0, [two])] [0, 1, 0, 1, 0, 0, 0, 1, 1, 1]

def samePeekEnd : Sys Lit :=
  (LTS.exec (step plain) (fun _ _ => True) empty samePeek).get (by decide +kernel)

theorem samePeek_loses : ¬ ∃ rs, readPartition plain samePeekEnd.store 0 = .ok rs ∧
    ∀ c ∈ samePeekEnd.calls, c.partition = 0 → ∀ r ∈ c.records, r ∈ rs := by
  rintro ⟨rs, hread, hall⟩
  have hids : (readPartition plain samePeekEnd.store 0).toOption.map (List.map VectorRecord.id) =
    some [2] := by decide +kernel
  have hcall : ∃ c ∈ samePeekEnd.calls, c.partition = 0 ∧ 1 ∈ c.records.map VectorRecord.id := by
    decide +kernel
  obtain ⟨c, hc, hpart, hrec⟩ := hcall
  obtain ⟨r, hr, hid⟩ := List.mem_map.mp hrec
  have hmem := List.mem_map_of_mem (f := VectorRecord.id) (hall c hc hpart r hr)
  rw [hread] at hids
  simp only [Except.toOption, Option.map_some, Option.some.injEq] at hids
  rw [hids, hid] at hmem
  simp at hmem

/-- The call of partition 1 lists the partitions before the call of partition 2
is known, and writes its manifest last. -/
def staleManifest : List (Act Lit) :=
  interleave [(1, [one]), (2, [two])] [0, 0, 0, 1, 1, 1, 1, 1, 0, 0]

def staleManifestEnd : Sys Lit :=
  (LTS.exec (step plain) (fun _ _ => True) empty staleManifest).get (by decide +kernel)

theorem staleManifest_loses : ¬ ∃ s, openStore plain staleManifestEnd.store.disk = .ok s ∧
    ∀ rank, ∀ c ∈ staleManifestEnd.calls, c.records ≠ [] → c.partition ∈ s.partitions rank := by
  rintro ⟨s, hopen, hall⟩
  have hkeys : (openStore plain staleManifestEnd.store.disk).toOption.map
    (fun s => s.partitions UInt64.toNat) = some [1] := by decide +kernel
  have hcall : ∃ c ∈ staleManifestEnd.calls, c.partition = 2 ∧ c.records.isEmpty = false := by
    decide +kernel
  obtain ⟨c, hc, hpart, hrec⟩ := hcall
  have hmem := hall UInt64.toNat c hc (by simpa using hrec)
  rw [hopen] at hkeys
  simp only [Except.toOption, Option.map_some, Option.some.injEq] at hkeys
  rw [hkeys, hpart] at hmem
  simp at hmem

/-- Either overlap loses something: a batch, or a partition behind a reopen. -/
theorem overlapping_writes_lose :
    ((system plain).Run empty samePeek samePeekEnd ∧
      (∀ a ∈ samePeek, a.RoundTrips plain) ∧ (∀ c ∈ samePeekEnd.calls, c.phase = .done) ∧
      ¬ ∃ rs, readPartition plain samePeekEnd.store 0 = .ok rs ∧
        ∀ c ∈ samePeekEnd.calls, c.partition = 0 → ∀ r ∈ c.records, r ∈ rs) ∧
    ((system plain).Run empty staleManifest staleManifestEnd ∧
      (∀ a ∈ staleManifest, a.RoundTrips plain) ∧
      (∀ c ∈ staleManifestEnd.calls, c.phase = .done) ∧
      ¬ ∃ s, openStore plain staleManifestEnd.store.disk = .ok s ∧ ∀ rank,
        ∀ c ∈ staleManifestEnd.calls, c.records ≠ [] → c.partition ∈ s.partitions rank) := by
  refine ⟨⟨?_, interleave_roundTrips (by simp), by decide +kernel, samePeek_loses⟩,
    ⟨?_, interleave_roundTrips (by simp), by decide +kernel, staleManifest_loses⟩⟩
  · exact (LTS.run_of_exec (Option.some_get _).symm).of_restrict
  · exact (LTS.run_of_exec (Option.some_get _).symm).of_restrict

end Tesseract.L3.ColdStore.Concurrent
