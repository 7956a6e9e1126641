/-
# `Reliar.Store.Memory` — `InMemoryOutboxStore`
(`reliar-outbox`: `test_support/store.rs`)

The store other test suites drive the dispatcher with.  Every method locks the
rows once and runs to its end, so a call is one step; only a `complete` or `fail`
that meets an armed hang is put off, to a later step or for ever (`deferred`).

The five methods that look a row up by reference — `complete`, `fail`,
`release`, `extend_lease`, `retry_dead` — are one loop, `updateEach`, with a
guard and an assignment each.  `sequence` tells rows apart: the store does not
check that message ids are unique.

Date arithmetic is unbounded here; `time` panics at the year 10000.  `leases` is
a log nobody reads: the `locked_until`s written, latest first.
-/
import Reliar.Lib.Machine
import Reliar.Outbox.Retry

namespace Reliar.Store.Memory

open Reliar.Core Reliar.Outbox

inductive InMemoryStoreError
  | injected
  | injectedPermanent
  deriving DecidableEq, Repr

instance : Classify InMemoryStoreError where
  kind
    | .injected => .transient
    | .injectedPermanent => .permanent

def EXPIRED_ERROR_MESSAGE : String := "reliar: expired before publication"

/-- One write of `locked_until`. -/
structure LeaseWrite where
  sequence : Int
  worker : WorkerId
  lockedUntil : Timestamp
  deriving DecidableEq

structure Inner where
  rows : List OutboxRecord
  nextSequence : Int
  now : Timestamp
  failNext : Nat
  failNextPermanent : Nat
  hangNext : Nat
  hangDuration : Duration
  completeCalls : Nat
  failNextComplete : Nat
  failNextEnqueue : Nat
  enqueueCalls : Nat
  leases : List LeaseWrite
  deriving DecidableEq

def Inner.default : Inner where
  rows := []
  nextSequence := 1
  now := 0
  failNext := 0
  failNextPermanent := 0
  hangNext := 0
  hangDuration := 0
  completeCalls := 0
  failNextComplete := 0
  failNextEnqueue := 0
  enqueueCalls := 0
  leases := []

/-! ## Rows -/

def insertRow (envelope : SerializedEnvelope) (availableAt : Option Timestamp)
    (orderingKey : Option String) (s : Inner) : MessageRef × Inner :=
  let record := { OutboxRecord.build envelope s.nextSequence s.now with
    orderingKey := orderingKey
    availableAt := availableAt.getD s.now }
  (⟨envelope.id, s.now⟩,
    { s with rows := s.rows ++ [record], nextSequence := s.nextSequence + 1 })

def leaseIsFree (row : OutboxRecord) (now : Timestamp) : Bool :=
  match row.lockedUntil with
  | none => true
  | some t => decide (t < now)

def isClaimable (row : OutboxRecord) (now : Timestamp) : Bool :=
  row.publishedAt.isNone && row.deadAt.isNone && decide (row.availableAt ≤ now) &&
    leaseIsFree row now &&
    match row.envelope.expiresAt with
    | none => true
    | some t => decide (now < t)

def refMatches (row : OutboxRecord) (message : MessageRef) : Bool :=
  decide (row.envelope.id = message.id) && decide (row.createdAt = message.createdAt)

/-- The guard of `find_owned_mut`. -/
def owns (worker : WorkerId) (message : MessageRef) (row : OutboxRecord) : Bool :=
  refMatches row message && decide (row.lockedBy = some worker)

/-- `iter_mut().find(p)` and an assignment through it; `none` if there is no such row. -/
def updateFirst (p : OutboxRecord → Bool) (f : OutboxRecord → OutboxRecord) :
    List OutboxRecord → Option (List OutboxRecord)
  | [] => none
  | r :: rs => if p r then some (f r :: rs) else (updateFirst p f rs).map (r :: ·)

/-- One iteration of the loops over `items`; the second component is `affected`. -/
def updateOne {α : Type} (p : α → OutboxRecord → Bool) (f : α → OutboxRecord → OutboxRecord)
    (acc : List OutboxRecord × Nat) (item : α) : List OutboxRecord × Nat :=
  match updateFirst (p item) (f item) acc.1 with
  | some rows => (rows, acc.2 + 1)
  | none => acc

def updateEach {α : Type} (p : α → OutboxRecord → Bool) (f : α → OutboxRecord → OutboxRecord)
    (items : List α) (rows : List OutboxRecord) : List OutboxRecord × Nat :=
  items.foldl (updateOne p f) (rows, 0)

/-! ## Injected failures -/

def takeInjectedFailure (s : Inner) : Option InMemoryStoreError × Inner :=
  if 0 < s.failNextPermanent then
    (some .injectedPermanent, { s with failNextPermanent := s.failNextPermanent - 1 })
  else if 0 < s.failNext then (some .injected, { s with failNext := s.failNext - 1 })
  else (none, s)

/-- A method behind `take_injected_failure`. -/
def guarded {α : Type} (body : Inner → α × Inner) (s : Inner) :
    Except InMemoryStoreError α × Inner :=
  match takeInjectedFailure s with
  | (some err, s) => (.error err, s)
  | (none, s) => ((.ok (body s).1), (body s).2)

/-! ## The methods -/

/-- `ORDER BY available_at, sequence`. -/
def claimsBefore (r r' : OutboxRecord) : Prop :=
  r.availableAt < r'.availableAt ∨ r.availableAt = r'.availableAt ∧ r.sequence ≤ r'.sequence

instance : DecidableRel claimsBefore := fun r r' => by unfold claimsBefore; infer_instance

def lockRow (worker : WorkerId) (until' : Timestamp) (row : OutboxRecord) : OutboxRecord :=
  { row with lockedBy := some worker, lockedUntil := some until' }

def unlock (row : OutboxRecord) : OutboxRecord := { row with lockedBy := none, lockedUntil := none }

/-- The rows a claim takes. -/
def chosen (request : AcquireRequest) (s : Inner) : List OutboxRecord :=
  ((s.rows.filter fun row => isClaimable row s.now).insertionSort claimsBefore).take
    request.batchSize

/-- The claim's loop: the rows it takes are those of these sequence numbers. -/
def lockAmong (worker : WorkerId) (until' : Timestamp) (sequences : List Int)
    (row : OutboxRecord) : OutboxRecord :=
  if row.sequence ∈ sequences then lockRow worker until' row else row

def tryAcquire (request : AcquireRequest) : Inner → Except InMemoryStoreError AcquiredBatch × Inner :=
  guarded fun s =>
    let until' := s.now + request.lease
    let claimed := (chosen request s).map (·.sequence)
    (⟨(chosen request s).map (lockRow request.worker until'), []⟩,
      { s with
        rows := s.rows.map (lockAmong request.worker until' claimed)
        leases := claimed.map (fun q => ⟨q, request.worker, until'⟩) ++ s.leases })

/-- `u32::saturating_add(1)`. -/
def bump (attempts : Nat) : Nat := min (attempts + 1) U32_MAX

def completeRow (now : Timestamp) (_ : CompletedMessage) (row : OutboxRecord) : OutboxRecord :=
  unlock { row with publishedAt := some now, attempts := bump row.attempts }

/-- `try_complete` has a failure of its own, taken before the shared ones. -/
def tryComplete (worker : WorkerId) (items : List CompletedMessage) (s : Inner) :
    Except InMemoryStoreError Nat × Inner :=
  let s := { s with completeCalls := s.completeCalls + 1 }
  if 0 < s.failNextComplete then
    (.error .injected, { s with failNextComplete := s.failNextComplete - 1 })
  else
    guarded (fun s =>
      let updated := updateEach (fun item => owns worker item.message) (completeRow s.now) items
        s.rows
      (updated.2, { s with rows := updated.1 })) s

def failRow (now : Timestamp) (item : FailedMessage) (row : OutboxRecord) : OutboxRecord :=
  let row := { row with
    attempts := bump row.attempts
    lastError := some (truncateError item.error) }
  match item.outcome with
  | .retry delay => unlock { row with availableAt := now + delay }
  | .dead reason => unlock { row with deadAt := some now, deadReason := some reason }

def tryFail (worker : WorkerId) (items : List FailedMessage) :
    Inner → Except InMemoryStoreError Nat × Inner :=
  guarded fun s =>
    let updated := updateEach (fun item => owns worker item.message) (failRow s.now) items s.rows
    (updated.2, { s with rows := updated.1 })

def tryRelease (worker : WorkerId) (items : List MessageRef) :
    Inner → Except InMemoryStoreError Nat × Inner :=
  guarded fun s =>
    let updated := updateEach (owns worker) (fun _ => unlock) items s.rows
    (updated.2, { s with rows := updated.1 })

def extendRow (until' : Timestamp) (_ : MessageRef) (row : OutboxRecord) : OutboxRecord :=
  { row with lockedUntil := some until' }

/-- The rows a renewal reaches, for the log. -/
def touched (worker : WorkerId) (items : List MessageRef) (rows : List OutboxRecord) : List Int :=
  items.filterMap fun item => (rows.find? (owns worker item)).map (·.sequence)

def tryExtendLease (worker : WorkerId) (items : List MessageRef) (lease : Duration) :
    Inner → Except InMemoryStoreError Nat × Inner :=
  guarded fun s =>
    let until' := s.now + lease
    let updated := updateEach (owns worker) (extendRow until') items s.rows
    (updated.2,
      { s with
        rows := updated.1
        leases := (touched worker items s.rows).map (fun q => ⟨q, worker, until'⟩) ++ s.leases })

/-- `expires_at.is_some_and(|expires_at| expires_at <= now)`. -/
def isExpired (row : OutboxRecord) (now : Timestamp) : Bool :=
  row.envelope.expiresAt.any fun t => decide (t ≤ now)

/-- What the expiry sweep takes: neither settled nor leased, and past `expires_at`. -/
def sweepable (now : Timestamp) (row : OutboxRecord) : Bool :=
  row.publishedAt.isNone && row.deadAt.isNone && leaseIsFree row now && isExpired row now

def sweepRow (now : Timestamp) (row : OutboxRecord) : OutboxRecord :=
  unlock { row with
    deadAt := some now
    deadReason := some .expired
    lastError := some EXPIRED_ERROR_MESSAGE }

/-- The sweep's loop, with `budget` rows to go. -/
def sweepRows (now : Timestamp) : (budget : Nat) → List OutboxRecord → List OutboxRecord × Nat
  | _, [] => ([], 0)
  | 0, rows => (rows, 0)
  | budget + 1, row :: rows =>
      if sweepable now row then
        let rest := sweepRows now budget rows
        (sweepRow now row :: rest.1, rest.2 + 1)
      else
        let rest := sweepRows now (budget + 1) rows
        (row :: rest.1, rest.2)

/-- `retain` with a budget of rows to drop. -/
def dropRows (p : OutboxRecord → Bool) : (budget : Nat) → List OutboxRecord →
    List OutboxRecord × Nat
  | _, [] => ([], 0)
  | 0, rows => (rows, 0)
  | budget + 1, row :: rows =>
      if p row then
        let rest := dropRows p budget rows
        (rest.1, rest.2 + 1)
      else
        let rest := dropRows p (budget + 1) rows
        (row :: rest.1, rest.2)

/-- `at.is_some_and(|at| at < before)`. -/
def isBefore (before : Timestamp) (at' : Option Timestamp) : Bool :=
  match at' with
  | none => false
  | some t => decide (t < before)

/-- One retention of `purge`; without one nothing is deleted. -/
def dropOld (now : Timestamp) (retention : Option Duration) (at' : OutboxRecord → Option Timestamp)
    (batchSize : Nat) (rows : List OutboxRecord) : List OutboxRecord × Nat :=
  match retention with
  | none => (rows, 0)
  | some d => dropRows (fun row => isBefore (now - d) (at' row)) batchSize rows

def tryPurge (request : PurgeRequest) : Inner → Except InMemoryStoreError PurgeReport × Inner :=
  guarded fun s =>
    let swept := sweepRows s.now request.batchSize s.rows
    let published := dropOld s.now request.publishedRetention (·.publishedAt) request.batchSize
      swept.1
    let dead := dropOld s.now request.deadRetention (·.deadAt) request.batchSize published.1
    (⟨published.2, dead.2, swept.2⟩, { s with rows := dead.1 })

/-- One row of `try_stats`. -/
def countRow (now : Timestamp) (stats : OutboxStats) (row : OutboxRecord) : OutboxStats :=
  if row.deadAt.isSome then { stats with dead := stats.dead + 1 }
  else if row.publishedAt.isSome then stats
  else if isExpired row now then
    { stats with expiredPending := stats.expiredPending + 1 }
  else if isClaimable row now then
    { stats with
      pending := stats.pending + 1
      oldestPendingAvailableAt :=
        match stats.oldestPendingAvailableAt with
        | some current => if current ≤ row.availableAt then some current else some row.availableAt
        | none => some row.availableAt }
  else stats

def tryStats : Inner → Except InMemoryStoreError OutboxStats × Inner :=
  guarded fun s => (s.rows.foldl (countRow s.now) ⟨0, 0, 0, none, s.now⟩, s)

def retryRow (now : Timestamp) (_ : MessageRef) (row : OutboxRecord) : OutboxRecord :=
  { row with deadAt := none, deadReason := none, availableAt := now, attempts := 0 }

/-- The dead-letter methods take no injected failure. -/
def retryDead (refs : List MessageRef) (s : Inner) : Nat × Inner :=
  let updated := updateEach (fun message row => refMatches row message && row.deadAt.isSome)
    (retryRow s.now) refs s.rows
  (updated.2, { s with rows := updated.1 })

def isDeadAmong (refs : List MessageRef) (row : OutboxRecord) : Bool :=
  row.deadAt.isSome && refs.any (refMatches row)

def purgeDead (refs : List MessageRef) (s : Inner) : Nat × Inner :=
  ((s.rows.filter (isDeadAmong refs)).length,
    { s with rows := s.rows.filter fun row => !isDeadAmong refs row })

/-- `stage`: an injected failure of its own, else an insert. -/
def tryEnqueue (envelope : SerializedEnvelope) (s : Inner) :
    Except InMemoryStoreError MessageId × Inner :=
  let s := { s with enqueueCalls := s.enqueueCalls + 1 }
  if 0 < s.failNextEnqueue then
    (.error .injected, { s with failNextEnqueue := s.failNextEnqueue - 1 })
  else
    let inserted := insertRow envelope none none s
    (.ok inserted.1.id, inserted.2)

/-! ## Calls -/

/-- The methods that work on the rows there are. -/
inductive Op
  | acquire (request : AcquireRequest)
  | complete (worker : WorkerId) (items : List CompletedMessage)
  | fail (worker : WorkerId) (items : List FailedMessage)
  | release (worker : WorkerId) (items : List MessageRef)
  | extendLease (worker : WorkerId) (items : List MessageRef) (lease : Duration)
  | purge (request : PurgeRequest)
  | stats
  | retryDead (refs : List MessageRef)
  | purgeDead (refs : List MessageRef)
  deriving DecidableEq

inductive Reply
  | batch (batch : AcquiredBatch)
  | affected (count : Nat)
  | report (report : PurgeReport)
  | stats (stats : OutboxStats)
  deriving DecidableEq

def Op.run (op : Op) (s : Inner) : Except InMemoryStoreError Reply × Inner :=
  match op with
  | .acquire request => (tryAcquire request s).map (·.map .batch) id
  | .complete worker items => (tryComplete worker items s).map (·.map .affected) id
  | .fail worker items => (tryFail worker items s).map (·.map .affected) id
  | .release worker items => (tryRelease worker items s).map (·.map .affected) id
  | .extendLease worker items lease => (tryExtendLease worker items lease s).map (·.map .affected) id
  | .purge request => (tryPurge request s).map (·.map .report) id
  | .stats => (tryStats s).map (·.map .stats) id
  | .retryDead refs => (Memory.retryDead refs s).map (fun n => .ok (.affected n)) id
  | .purgeDead refs => (Memory.purgeDead refs s).map (fun n => .ok (.affected n)) id

/-- `complete` and `fail` look for an armed hang first. -/
def Op.mayHang : Op → Bool
  | .complete .. => true
  | .fail .. => true
  | _ => false

structure InMemoryOutboxStore where
  inner : Inner
  /-- Calls asleep in a hang. -/
  deferred : List Op
  deriving DecidableEq

def InMemoryOutboxStore.default : InMemoryOutboxStore := ⟨Inner.default, []⟩

inductive Event
  | advance (by' : Duration)
  | insert (envelope : SerializedEnvelope) (availableAt : Option Timestamp)
      (orderingKey : Option String)
  | stage (envelope : SerializedEnvelope)
  | failNext (n : Nat)
  | failNextPermanent (n : Nat)
  | hangNext (n : Nat) (duration : Duration)
  | failNextComplete (n : Nat)
  | failNextEnqueue (n : Nat)
  | call (op : Op)
  /-- A call wakes from its hang. -/
  | resume (k : Nat)
  deriving DecidableEq

/-- The call meets an armed hang. -/
def InMemoryOutboxStore.hangs (st : InMemoryOutboxStore) (op : Op) : Bool := op.mayHang && decide (0 < st.inner.hangNext)

/-- The method body a step runs. -/
def InMemoryOutboxStore.executes (st : InMemoryOutboxStore) : Event → Option Op
  | .call op => if st.hangs op then none else some op
  | .resume k => st.deferred[k]?
  | _ => none

/-- One step; `resume` needs a call that sleeps. -/
def next (st : InMemoryOutboxStore) : Event → Option InMemoryOutboxStore
  | .advance by' => some { st with inner := { st.inner with now := st.inner.now + by' } }
  | .insert envelope availableAt orderingKey =>
      some { st with inner := (insertRow envelope availableAt orderingKey st.inner).2 }
  | .stage envelope => some { st with inner := (tryEnqueue envelope st.inner).2 }
  | .failNext n => some { st with inner := { st.inner with failNext := n } }
  | .failNextPermanent n => some { st with inner := { st.inner with failNextPermanent := n } }
  | .hangNext n duration =>
      some { st with inner := { st.inner with hangNext := n, hangDuration := duration } }
  | .failNextComplete n => some { st with inner := { st.inner with failNextComplete := n } }
  | .failNextEnqueue n => some { st with inner := { st.inner with failNextEnqueue := n } }
  | .call op =>
      if st.hangs op then
        some ⟨{ st.inner with hangNext := st.inner.hangNext - 1 }, st.deferred ++ [op]⟩
      else some { st with inner := (op.run st.inner).2 }
  | .resume k =>
      match st.deferred[k]? with
      | some op => some ⟨(op.run st.inner).2, st.deferred.eraseIdx k⟩
      | none => none

/-- A run of the store, from its default. -/
abbrev Run (es : List Event) (st : InMemoryOutboxStore) : Prop :=
  Machine.Path (Machine.Next next) InMemoryOutboxStore.default es st

theorem mem_chosen {request : AcquireRequest} {s : Inner} {x : OutboxRecord}
    (h : x ∈ chosen request s) : x ∈ s.rows ∧ isClaimable x s.now = true :=
  List.mem_filter.mp ((List.mem_insertionSort claimsBefore).mp (List.mem_of_mem_take h))

/-! ## Sequence numbers -/

def sequences (rows : List OutboxRecord) : List Int := rows.map (·.sequence)

/-- No two rows share a sequence number, and the next one is new. -/
structure Inner.Ok (s : Inner) : Prop where
  nodup : (sequences s.rows).Nodup
  below : ∀ q ∈ sequences s.rows, q < s.nextSequence

section
variable {p : OutboxRecord → Bool} {f : OutboxRecord → OutboxRecord}

theorem updateFirst_sequences (hf : ∀ r, (f r).sequence = r.sequence) :
    ∀ (rows : List OutboxRecord) {rows' : List OutboxRecord},
      updateFirst p f rows = some rows' → sequences rows' = sequences rows
  | [], _, h => by cases h
  | r :: rs, rows', h => by
      by_cases hpr : p r = true
      · simp only [updateFirst, hpr, if_true, Option.some.injEq] at h
        simp [← h, sequences, hf]
      · simp only [updateFirst, hpr, Bool.false_eq_true, if_false, Option.map_eq_some_iff] at h
        obtain ⟨rs', hrs', rfl⟩ := h
        have ih := updateFirst_sequences hf rs hrs'
        simpa [sequences] using ih

/-- The assignment reaches the row `find` gives, and no other. -/
theorem updateFirst_eq_map : ∀ {rows : List OutboxRecord}, (sequences rows).Nodup →
    updateFirst p f rows = (rows.find? p).map fun r =>
      rows.map fun x => if x.sequence = r.sequence then f x else x
  | [], _ => rfl
  | r :: rs, hnd => by
      rw [sequences, List.map_cons, List.nodup_cons] at hnd
      by_cases hpr : p r = true
      · have hrs : rs.map (fun x => if x.sequence = r.sequence then f x else x) = rs := by
          refine (List.map_congr_left fun x hx => ?_).trans (List.map_id _)
          have hne : x.sequence ≠ r.sequence := fun heq => hnd.1 (heq ▸ List.mem_map_of_mem hx)
          exact if_neg hne
        simp [updateFirst, hpr, List.find?_cons_of_pos hpr, hrs]
      · rw [updateFirst, if_neg hpr, updateFirst_eq_map hnd.2, List.find?_cons_of_neg hpr]
        cases hfind : rs.find? p with
        | none => rfl
        | some y =>
          have hne : r.sequence ≠ y.sequence := fun heq =>
            hnd.1 (heq ▸ List.mem_map_of_mem (List.mem_of_find?_eq_some hfind))
          simp [hne]

theorem dropRows_sublist : ∀ (budget : Nat) (rows : List OutboxRecord),
    (dropRows p budget rows).1.Sublist rows
  | _, [] => .slnil
  | 0, _ :: _ => .refl _
  | budget + 1, r :: rs => by
      unfold dropRows
      split
      · exact (dropRows_sublist budget rs).cons _
      · exact (dropRows_sublist (budget + 1) rs).cons_cons _

end

theorem updateEach_sequences {α : Type} {p : α → OutboxRecord → Bool}
    {f : α → OutboxRecord → OutboxRecord} (hf : ∀ a r, (f a r).sequence = r.sequence)
    (items : List α) (rows : List OutboxRecord) :
    sequences (updateEach p f items rows).1 = sequences rows := by
  suffices h : ∀ acc : List OutboxRecord × Nat,
      sequences (items.foldl (updateOne p f) acc).1 = sequences acc.1 from h (rows, 0)
  induction items with
  | nil => exact fun _ => rfl
  | cons item items ih =>
    intro acc
    rw [List.foldl_cons, ih, updateOne]
    cases hu : updateFirst (p item) (f item) acc.1 with
    | none => rfl
    | some rows' => exact updateFirst_sequences (hf item) _ hu

theorem sweepRows_sequences (now : Timestamp) : ∀ (budget : Nat) (rows : List OutboxRecord),
    sequences (sweepRows now budget rows).1 = sequences rows
  | _, [] => rfl
  | 0, _ :: _ => rfl
  | budget + 1, r :: rs => by
      unfold sweepRows
      split
      · exact congrArg (r.sequence :: ·) (sweepRows_sequences now budget rs)
      · exact congrArg (r.sequence :: ·) (sweepRows_sequences now (budget + 1) rs)

theorem dropOld_sublist (now : Timestamp) (retention : Option Duration)
    (at' : OutboxRecord → Option Timestamp) (batchSize : Nat) (rows : List OutboxRecord) :
    (dropOld now retention at' batchSize rows).1.Sublist rows := by
  cases retention with
  | none => exact .refl _
  | some d => exact dropRows_sublist _ _

theorem failRow_sequence (now : Timestamp) (item : FailedMessage) (r : OutboxRecord) :
    (failRow now item r).sequence = r.sequence := by
  unfold failRow
  cases item.outcome <;> rfl

theorem lockAmong_sequence (worker : WorkerId) (until' : Timestamp) (qs : List Int)
    (r : OutboxRecord) : (lockAmong worker until' qs r).sequence = r.sequence := by
  unfold lockAmong
  split <;> rfl

/-- What a method does not do: no new rows, no other numbering, no time. -/
structure Shrinks (s s' : Inner) : Prop where
  rows : (sequences s'.rows).Sublist (sequences s.rows)
  nextSequence : s'.nextSequence = s.nextSequence
  now : s'.now = s.now

theorem Shrinks.trans {s s' s'' : Inner} (h : Shrinks s s') (h' : Shrinks s' s'') :
    Shrinks s s'' :=
  ⟨h'.rows.trans h.rows, h'.nextSequence.trans h.nextSequence, h'.now.trans h.now⟩

theorem guarded_shrinks {α : Type} {body : Inner → α × Inner} {s : Inner}
    (h : ∀ s' : Inner, Shrinks s' (body s').2) : Shrinks s (guarded body s).2 := by
  unfold guarded takeInjectedFailure
  split_ifs
  · exact ⟨.refl _, rfl, rfl⟩
  · exact ⟨.refl _, rfl, rfl⟩
  · exact h s

/-- A method that is one loop over its items. -/
theorem update_shrinks {α : Type} {p : α → OutboxRecord → Bool}
    {f : α → OutboxRecord → OutboxRecord} (hf : ∀ a r, (f a r).sequence = r.sequence)
    (items : List α) {s s' : Inner} (hrows : s'.rows = (updateEach p f items s.rows).1)
    (hnext : s'.nextSequence = s.nextSequence) (hnow : s'.now = s.now) : Shrinks s s' := by
  refine ⟨?_, hnext, hnow⟩
  rw [hrows, updateEach_sequences hf]

theorem run_shrinks (op : Op) (s : Inner) : Shrinks s (op.run s).2 := by
  cases op with
  | acquire request =>
    show Shrinks s (tryAcquire request s).2
    refine guarded_shrinks fun s' => ⟨?_, rfl, rfl⟩
    have hsame : sequences (s'.rows.map (lockAmong request.worker (s'.now + request.lease)
        ((chosen request s').map (·.sequence)))) = sequences s'.rows := by
      simp [sequences, Function.comp_def, lockAmong_sequence]
    rw [hsame]
  | complete worker items =>
    show Shrinks s (tryComplete worker items s).2
    unfold tryComplete
    simp only
    split_ifs
    · exact ⟨.refl _, rfl, rfl⟩
    · have hbegin : Shrinks s { s with completeCalls := s.completeCalls + 1 } := ⟨.refl _, rfl, rfl⟩
      exact hbegin.trans (guarded_shrinks fun s' =>
        update_shrinks (f := completeRow s'.now) (fun _ _ => rfl) items rfl rfl rfl)
  | fail worker items =>
    show Shrinks s (tryFail worker items s).2
    exact guarded_shrinks fun s' => update_shrinks (failRow_sequence s'.now) items rfl rfl rfl
  | release worker items =>
    show Shrinks s (tryRelease worker items s).2
    exact guarded_shrinks fun s' => update_shrinks (f := fun _ => unlock) (fun _ _ => rfl) items
      rfl rfl rfl
  | extendLease worker items lease =>
    show Shrinks s (tryExtendLease worker items lease s).2
    exact guarded_shrinks fun s' => update_shrinks (f := extendRow (s'.now + lease))
      (fun _ _ => rfl) items rfl rfl rfl
  | purge request =>
    show Shrinks s (tryPurge request s).2
    refine guarded_shrinks fun s' => ⟨?_, rfl, rfl⟩
    rw [← sweepRows_sequences s'.now request.batchSize s'.rows]
    exact ((dropOld_sublist ..).trans (dropOld_sublist ..)).map _
  | stats =>
    show Shrinks s (tryStats s).2
    exact guarded_shrinks fun s' => ⟨.refl _, rfl, rfl⟩
  | retryDead refs =>
    exact update_shrinks (f := retryRow s.now) (fun _ _ => rfl) refs rfl rfl rfl
  | purgeDead refs => exact ⟨List.filter_sublist.map _, rfl, rfl⟩

theorem Inner.Ok.shrink {s s' : Inner} (h : s.Ok) (hs : Shrinks s s') : s'.Ok where
  nodup := h.nodup.sublist hs.rows
  below := fun q hq => by
    rw [hs.nextSequence]
    exact h.below q (hs.rows.subset hq)

theorem Inner.Ok.insertRow {s : Inner} (h : s.Ok) (envelope : SerializedEnvelope)
    (availableAt : Option Timestamp) (orderingKey : Option String) :
    (insertRow envelope availableAt orderingKey s).2.Ok where
  nodup := by
    simp only [Memory.insertRow, sequences, List.map_append, List.map_cons, List.map_nil]
    refine List.nodup_append.mpr ⟨h.nodup, List.nodup_singleton _, ?_⟩
    intro q hq q' hq'
    rw [List.mem_singleton.mp hq']
    exact Int.ne_of_lt (h.below q hq)
  below := fun q hq => by
    simp only [Memory.insertRow, sequences, List.map_append, List.map_cons, List.map_nil,
      List.mem_append, List.mem_singleton] at hq ⊢
    rcases hq with hq | rfl
    · have := h.below q hq
      omega
    · exact Int.lt_succ _

/-! ## What a step can do -/

/-- The inversion of `next`: a call's body runs, a row is inserted, or neither. -/
inductive Step (st : InMemoryOutboxStore) : Event → InMemoryOutboxStore → Prop
  | run {e op deferred} : st.executes e = some op → Step st e ⟨(op.run st.inner).2, deferred⟩
  | insert {e envelope availableAt orderingKey s} : s.rows = st.inner.rows → s.now = st.inner.now →
      s.nextSequence = st.inner.nextSequence → s.leases = st.inner.leases →
      st.executes e = none →
      Step st e ⟨(insertRow envelope availableAt orderingKey s).2, st.deferred⟩
  | rest {e s deferred} : s.rows = st.inner.rows → s.nextSequence = st.inner.nextSequence →
      s.leases = st.inner.leases → st.inner.now ≤ s.now → st.executes e = none →
      Step st e ⟨s, deferred⟩

theorem step_of_next {st st' : InMemoryOutboxStore} {e : Event} (h : next st e = some st') :
    Step st e st' := by
  cases e with
  | call op =>
    simp only [next] at h
    split at h
    case isTrue hh => cases h; exact .rest rfl rfl rfl (Int.le_refl _) (if_pos hh)
    case isFalse hh => cases h; exact .run (if_neg hh)
  | resume k =>
    simp only [next] at h
    split at h
    case h_1 op hop => cases h; exact .run hop
    case h_2 => cases h
  | insert => cases h; exact .insert rfl rfl rfl rfl rfl
  | stage envelope =>
    cases h
    unfold tryEnqueue
    simp only
    split_ifs
    · exact .rest rfl rfl rfl (Int.le_refl _) rfl
    · exact .insert rfl rfl rfl rfl rfl
  | advance by' =>
    cases h
    exact .rest rfl rfl rfl (Int.le_add_of_nonneg_right (Int.natCast_nonneg _)) rfl
  | _ => cases h; exact .rest rfl rfl rfl (Int.le_refl _) rfl

theorem Step.ok {st st' : InMemoryOutboxStore} {e : Event} (hok : st.inner.Ok)
    (h : Step st e st') : st'.inner.Ok := by
  cases h with
  | run => exact hok.shrink (run_shrinks _ _)
  | insert hrows _ hnext =>
    refine Inner.Ok.insertRow ⟨?_, ?_⟩ _ _ _
    · rw [hrows]; exact hok.nodup
    · rw [hrows, hnext]; exact hok.below
  | rest hrows hnext =>
    refine ⟨?_, ?_⟩
    · rw [hrows]; exact hok.nodup
    · rw [hrows, hnext]; exact hok.below

theorem Run.ok {es : List Event} {st : InMemoryOutboxStore} (h : Run es st) : st.inner.Ok :=
  h.inv (P := fun st => st.inner.Ok) (fun hok hs => (step_of_next hs).ok hok)
    ⟨List.nodup_nil, fun _ hq => absurd hq List.not_mem_nil⟩

end Reliar.Store.Memory
