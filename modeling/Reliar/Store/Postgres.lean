/-
# `Reliar.Store.Postgres` — the outbox statements under READ COMMITTED
(`reliar-store-postgres`: `store.rs`, `migrations/0001_outbox.sql`)

A statement has two phases.  It begins: with the `now()` of its transaction it
picks its target rows from a snapshot.  Then it takes the targets one by one,
each under a row lock, and re-evaluates its outer `WHERE` clause on the newest
version of the row before it writes.  Anything may happen between the phases and
between two targets: other statements begin and write, rows are inserted, the
clock advances.

* A row is known by its `sequence`: a row that was deleted and inserted again
  under the same id is another row, which no running statement has picked.
* What a statement writes to a row is placed at the statement's commit; until
  then the row is locked and nobody else sees or changes it.  A statement that is
  rolled back has written nothing, and is one that takes no target.
* `now()` is the start of the transaction, so it may lag behind the clock.
* `$n * interval '1 millisecond'` is exact; a result outside PostgreSQL's
  timestamp range, and an `attempts` outside `integer`, abort the statement.

`Db` also keeps what no statement reads: which rows were inserted, deleted and
swept, and which leases were written.
-/
import Reliar.Lib.Machine
import Reliar.Store.Records

namespace Reliar.Store.Postgres

open Reliar.Core Reliar.Outbox

/-! ## Errors -/

inductive Constraint
  | attempts
  | messageVersion
  | metadataVersion
  | lease
  | terminal
  | deadReason
  deriving DecidableEq, Repr

/-- What aborts a statement. -/
inductive SqlError
  | timestampOutOfRange
  | integerOutOfRange
  | check (c : Constraint)
  | nulCharacter
  deriving DecidableEq, Repr

/-- The first `CHECK` of the table that a row version fails, in the order of the migration. -/
def violated (r : Row) : Option Constraint :=
  if r.attempts < 0 then some .attempts
  else if r.columns.messageVersion < 0 then some .messageVersion
  else if r.columns.metadataVersion < 1 then some .metadataVersion
  else if r.lockedBy.isNone ≠ r.lockedUntil.isNone then some .lease
  else if r.publishedAt.isSome ∧ r.deadAt.isSome then some .terminal
  else if r.deadAt.isNone ≠ r.deadReason.isNone then some .deadReason
  else none

/-- `4713-11-24 BC`, PostgreSQL's first timestamp. -/
def MIN_TIMESTAMP : Timestamp := -210866803200000000000

/-- `294277-01-01`, the end of its range. -/
def END_TIMESTAMP : Timestamp := 9224318016000000000000

/-- `t + ms * interval '1 millisecond'`. -/
def addMillis (t : Timestamp) (ms : Int) : Except SqlError Timestamp :=
  let t' := t + ms * 1000000
  if MIN_TIMESTAMP ≤ t' ∧ t' < END_TIMESTAMP then .ok t' else .error .timestampOutOfRange

def INT_MAX : Int := 2147483647

/-- `attempts + 1` in `integer`. -/
def incAttempts (attempts : Int) : Except SqlError Int :=
  if attempts < INT_MAX then .ok (attempts + 1) else .error .integerOutOfRange

/-! ## Statements -/

/-- One constructor per SQL text; the parameters are the statement's binds. -/
inductive Stmt
  | claim (batchSize : Int) (worker : String) (leaseMs : Int)
  | poisonSweep (items : List (Uuid × String)) (worker reason : String)
  | complete (ids : List Uuid) (worker : String)
  | failRetry (items : List (Uuid × String × Int)) (worker : String)
  | failDead (items : List (Uuid × String × String)) (worker : String)
  | release (ids : List Uuid) (worker : String)
  | extendLease (ids : List Uuid) (leaseMs : Int) (worker : String)
  | purgePublished (retentionMs batchSize : Int)
  | purgeDeadRetention (retentionMs batchSize : Int)
  | purgeExpiredSweep (batchSize : Int) (reason : String)
  | retryDead (ids : List Uuid)
  | purgeDead (ids : List Uuid)
  deriving DecidableEq

/-- `locked_until IS NULL OR locked_until < now()`. -/
def leaseFree (now : Timestamp) (r : Row) : Bool :=
  match r.lockedUntil with
  | none => true
  | some t => decide (t < now)

/-- The predicate of the claim. -/
def claimable (now : Timestamp) (r : Row) : Bool :=
  r.publishedAt.isNone && r.deadAt.isNone && decide (r.availableAt ≤ now) && leaseFree now r &&
    match r.columns.expires with
    | none => true
    | some t => decide (now < t)

/-- `at IS NOT NULL AND at < now() - retention`. -/
def olderThan (at' : Option Timestamp) (now : Timestamp) (retentionMs : Int) : Bool :=
  match at' with
  | none => false
  | some t => decide (t < now - retentionMs * 1000000)

/-- `id = ANY(ids) AND locked_by = worker`. -/
def owned (ids : List Uuid) (worker : String) (r : Row) : Bool :=
  decide (r.columns.id ∈ ids) && decide (r.lockedBy = some worker)

/-- The mutable half of the sweep's predicate, which its outer `WHERE` repeats. -/
def sweepable (now : Timestamp) (r : Row) : Bool :=
  r.publishedAt.isNone && r.deadAt.isNone && leaseFree now r

/-- `expires_at IS NOT NULL AND expires_at < now()`. -/
def expired (now : Timestamp) (r : Row) : Bool :=
  match r.columns.expires with
  | none => false
  | some t => decide (t < now)

/-- The `WHERE` clause re-evaluated on the newest version of a target. -/
def Stmt.outer (now : Timestamp) (r : Row) : Stmt → Bool
  | .claim .. => claimable now r
  | .poisonSweep items worker _ => owned (items.map Prod.fst) worker r
  | .complete ids worker => owned ids worker r
  | .failRetry items worker => owned (items.map Prod.fst) worker r
  | .failDead items worker => owned (items.map Prod.fst) worker r
  | .release ids worker => owned ids worker r
  | .extendLease ids _ worker => owned ids worker r
  | .purgePublished ms _ => olderThan r.publishedAt now ms
  | .purgeDeadRetention ms _ => olderThan r.deadAt now ms
  | .purgeExpiredSweep .. => sweepable now r
  | .retryDead ids => decide (r.columns.id ∈ ids) && r.deadAt.isSome
  | .purgeDead ids => decide (r.columns.id ∈ ids) && r.deadAt.isSome

/-- The predicate evaluated on the snapshot.  Only the sweep's differs from the outer one: its
subselect alone looks at `expires_at`, which no statement writes. -/
def Stmt.inner (now : Timestamp) (r : Row) : Stmt → Bool
  | .purgeExpiredSweep .. => expired now r && sweepable now r
  | stmt => stmt.outer now r

/-- `LIMIT`. -/
def Stmt.limit : Stmt → Option Int
  | .claim batchSize _ _ => some batchSize
  | .purgePublished _ batchSize => some batchSize
  | .purgeDeadRetention _ batchSize => some batchSize
  | .purgeExpiredSweep batchSize _ => some batchSize
  | _ => none

/-- What `SET` makes of a row; `none` for `DELETE`.  Of several `UNNEST` items for one row
PostgreSQL uses one it does not specify: the item at index `i`. -/
def Stmt.set (now : Timestamp) (i : Nat) (r : Row) : Stmt → Except SqlError (Option Row)
  | .claim _ worker leaseMs => do
      let until' ← addMillis now leaseMs
      return some { r with
        lockedBy := some worker, lockedUntil := some until', updatedAt := now }
  | .poisonSweep items _ reason =>
      return some { r with
        deadAt := some now, deadReason := some reason
        lastError := items[i]?.map fun item => item.2
        lockedBy := none, lockedUntil := none, updatedAt := now }
  | .complete .. => do
      let attempts ← incAttempts r.attempts
      return some { r with
        publishedAt := some now, attempts := attempts
        lockedBy := none, lockedUntil := none, updatedAt := now }
  | .failRetry items _ => do
      let attempts ← incAttempts r.attempts
      let availableAt ← addMillis now ((items[i]?.map fun item => item.2.2).getD 0)
      return some { r with
        attempts := attempts, lastError := items[i]?.map fun item => item.2.1
        lockedBy := none, lockedUntil := none, availableAt := availableAt, updatedAt := now }
  | .failDead items _ => do
      let attempts ← incAttempts r.attempts
      return some { r with
        attempts := attempts, lastError := items[i]?.map fun item => item.2.1
        deadAt := some now, deadReason := some ((items[i]?.map fun item => item.2.2).getD "")
        lockedBy := none, lockedUntil := none, updatedAt := now }
  | .release .. =>
      return some { r with lockedBy := none, lockedUntil := none, updatedAt := now }
  | .extendLease _ leaseMs _ => do
      let until' ← addMillis now leaseMs
      return some { r with lockedUntil := some until', updatedAt := now }
  | .purgePublished .. => return none
  | .purgeDeadRetention .. => return none
  | .purgeExpiredSweep _ reason =>
      return some { r with
        deadAt := some now, deadReason := some reason
        lastError := some "reliar: expired before publication"
        lockedBy := none, lockedUntil := none, updatedAt := now }
  | .retryDead _ =>
      return some { r with
        deadAt := none, deadReason := none, availableAt := now, attempts := 0
        lockedBy := none, lockedUntil := none, updatedAt := now }
  | .purgeDead _ => return none

/-- Whether the `UNNEST` item at index `i` is one for this row; without `UNNEST` there is no
choice. -/
def Stmt.picks (i : Nat) (r : Row) : Stmt → Bool
  | .poisonSweep items _ _ => (items[i]?.map Prod.fst) == some r.columns.id
  | .failRetry items _ => (items[i]?.map Prod.fst) == some r.columns.id
  | .failDead items _ => (items[i]?.map Prod.fst) == some r.columns.id
  | _ => true

/-- What a statement does with one target. -/
inductive Outcome
  | skip
  | update (r : Row)
  | delete

/-- One target: lock, re-evaluate, write, check the constraints of the table. -/
def Stmt.touch (now : Timestamp) (i : Nat) (r : Row) (stmt : Stmt) : Except SqlError Outcome :=
  if stmt.outer now r then
    match stmt.set now i r with
    | .error err => .error err
    | .ok none => .ok .delete
    | .ok (some r') =>
        match violated r' with
        | some c => .error (.check c)
        | none => .ok (.update r')
  else .ok .skip

/-! ## The store's calls -/

def I64_MAX : Nat := 9223372036854775807

/-- `i64::try_from(d.as_millis()).unwrap_or(i64::MAX)`. -/
def millis (d : Duration) : Int := (min d.asMillis I64_MAX : Nat)

/-- `acquire`'s claim. -/
def acquire (request : AcquireRequest) : Stmt :=
  .claim request.batchSize request.worker.asStr (millis request.lease)

/-- The constants of `truncate_last_error`, which `records.rs` has again. -/
def MAX_LAST_ERROR_LEN : Nat := 2048
def LAST_ERROR_MARKER : String := "…[truncated]"

/-- `truncate_last_error`. -/
def truncateLastError (error : String) : String :=
  if error.utf8ByteSize ≤ MAX_LAST_ERROR_LEN then error
  else
    let budget := MAX_LAST_ERROR_LEN - LAST_ERROR_MARKER.utf8ByteSize
    let stop := walkBack error.toList (min budget error.utf8ByteSize)
    String.ofList (takeBytes error.toList stop) ++ LAST_ERROR_MARKER

/-- The two crates cut at the same place. -/
theorem truncateLastError_eq (error : String) : truncateLastError error = truncateError error := rfl

/-- The rows of a claim that `decode_row` refuses, with the text persisted for each. -/
def poisoned (r : Rendering) (rows : List Row) : List (Uuid × String) :=
  rows.filterMap fun row =>
    match decodeRow row with
    | .ok _ => none
    | .error err => some (err.id.uuid, truncateLastError (err.detail.text r))

theorem mem_poisoned {rendering : Rendering} {rows : List Row} {item : Uuid × String} :
    item ∈ poisoned rendering rows ↔ ∃ r ∈ rows, ∃ err, decodeRow r = .error err ∧
      item = (r.columns.id, truncateLastError (err.detail.text rendering)) := by
  rw [poisoned, List.mem_filterMap]
  constructor
  · rintro ⟨r, hr, hitem⟩
    cases hdecode : decodeRow r with
    | ok record => simp [hdecode] at hitem
    | error err =>
        simp only [hdecode, Option.some.injEq] at hitem
        exact ⟨r, hr, err, hdecode, by rw [← hitem, (decodeRow_error hdecode).1]⟩
  · rintro ⟨r, hr, err, hdecode, rfl⟩
    refine ⟨r, hr, ?_⟩
    simp only [hdecode, (decodeRow_error hdecode).1]

/-- The records of a claim. -/
def decoded (rows : List Row) : List OutboxRecord :=
  rows.filterMap fun row => (decodeRow row).toOption

/-- `acquire`'s poison sweep. -/
def sweepPoisoned (r : Rendering) (rows : List Row) (worker : String) : Stmt :=
  .poisonSweep (poisoned r rows) worker (encodeDeadReason .undecodable)

def complete (worker : WorkerId) (items : List CompletedMessage) : Stmt :=
  .complete (items.map fun item => item.message.id.uuid) worker.asStr

/-- The retries of `fail`: ids, errors and delays. -/
def retries (items : List FailedMessage) : List (Uuid × String × Int) :=
  items.filterMap fun item =>
    match item.outcome with
    | .retry delay => some (item.message.id.uuid, item.error, millis delay)
    | .dead _ => none

/-- The deaths of `fail`: ids, errors and reasons. -/
def deaths (items : List FailedMessage) : List (Uuid × String × String) :=
  items.filterMap fun item =>
    match item.outcome with
    | .retry _ => none
    | .dead reason => some (item.message.id.uuid, item.error, encodeDeadReason reason)

theorem mem_retries {items : List FailedMessage} {x : Uuid × String × Int} :
    x ∈ retries items ↔ ∃ m ∈ items, ∃ delay, m.outcome = .retry delay ∧
      x = (m.message.id.uuid, m.error, millis delay) := by
  simp only [retries, List.mem_filterMap]
  constructor
  · rintro ⟨m, hm, h⟩
    split at h
    · rename_i delay hd
      exact ⟨m, hm, delay, hd, (Option.some.inj h).symm⟩
    · cases h
  · rintro ⟨m, hm, delay, hd, rfl⟩
    exact ⟨m, hm, by rw [hd]⟩

theorem mem_deaths {items : List FailedMessage} {x : Uuid × String × String} :
    x ∈ deaths items ↔ ∃ m ∈ items, ∃ reason, m.outcome = .dead reason ∧
      x = (m.message.id.uuid, m.error, encodeDeadReason reason) := by
  simp only [deaths, List.mem_filterMap]
  constructor
  · rintro ⟨m, hm, h⟩
    split at h
    · cases h
    · rename_i reason hd
      exact ⟨m, hm, reason, hd, (Option.some.inj h).symm⟩
  · rintro ⟨m, hm, reason, hd, rfl⟩
    exact ⟨m, hm, by rw [hd]⟩

/-- `fail`: the retries in one statement, then the deaths in another, each if there are any. -/
def fail (worker : WorkerId) (items : List FailedMessage) : List Stmt :=
  (if (retries items).isEmpty then [] else [.failRetry (retries items) worker.asStr]) ++
    (if (deaths items).isEmpty then [] else [.failDead (deaths items) worker.asStr])

def release (worker : WorkerId) (items : List MessageRef) : Stmt :=
  .release (items.map fun item => item.id.uuid) worker.asStr

def extendLease (worker : WorkerId) (items : List MessageRef) (lease : Duration) : Stmt :=
  .extendLease (items.map fun item => item.id.uuid) (millis lease) worker.asStr

/-- `purge`: up to three statements, the sweep always. -/
def purge (request : PurgeRequest) : List Stmt :=
  (request.publishedRetention.map fun d => Stmt.purgePublished (millis d) request.batchSize).toList ++
    (request.deadRetention.map fun d =>
      Stmt.purgeDeadRetention (millis d) request.batchSize).toList ++
    [.purgeExpiredSweep request.batchSize (encodeDeadReason .expired)]

def retryDead (refs : List MessageRef) : Stmt := .retryDead (refs.map fun r => r.id.uuid)

def purgeDead (refs : List MessageRef) : Stmt := .purgeDead (refs.map fun r => r.id.uuid)

/-! ## The database -/

/-- A statement in progress. -/
structure Running where
  stmt : Stmt
  now : Timestamp
  /-- The picked rows it has not come to yet. -/
  targets : List Int
  /-- `rows_affected`. -/
  affected : Nat
  /-- `RETURNING`, for a claim. -/
  returned : List Row

/-- One deletion: the row as it was, the statement, and the clock. -/
structure Deletion where
  row : Row
  stmt : Stmt
  clock : Timestamp

/-- One write of `locked_until`. -/
structure LeaseWrite where
  sequence : Int
  worker : String
  lockedUntil : Timestamp
  deriving DecidableEq

structure Db where
  rows : List Row
  clock : Timestamp
  running : List Running
  /-- The sequence numbers ever given to a row. -/
  inserted : List Int
  /-- Latest first. -/
  deleted : List Deletion
  /-- The expiry sweep's rows, as they were, and the clock.  Latest first. -/
  swept : List (Row × Timestamp)
  /-- Latest first. -/
  leases : List LeaseWrite

def Db.empty (clock : Timestamp) : Db := ⟨[], clock, [], [], [], [], []⟩

def Db.find (db : Db) (sequence : Int) : Option Row :=
  db.rows.find? fun r => r.sequence = sequence

inductive Event
  /-- Time passes. -/
  | advance (by' : Duration)
  /-- `insert_row` commits under a sequence number that was never given before. -/
  | insert (columns : Columns) (sequence : Int) (now : Timestamp)
  /-- A statement takes its snapshot and picks its targets. -/
  | start (stmt : Stmt) (now : Timestamp) (targets : List Int)
  /-- The poison sweep that `acquire` runs after claim number `k`. -/
  | sweep (k : Nat) (now : Timestamp) (targets : List Int)
  /-- Statement number `k` comes to one of its targets, with an `UNNEST` item. -/
  | touch (k : Nat) (sequence : Int) (item : Nat)

/-- Everything the `WHERE` clause asks is computable: the cutoffs lie in PostgreSQL's range. -/
def Stmt.ready (now : Timestamp) : Stmt → Bool
  | .purgePublished ms _ => (addMillis now (-ms)).isOk
  | .purgeDeadRetention ms _ => (addMillis now (-ms)).isOk
  | _ => true

/-- The targets picked from the snapshot: rows that satisfy the inner predicate, all of them or,
under a `LIMIT`, at most that many. -/
def Stmt.pick (now : Timestamp) (rows : List Row) (targets : List Int) (stmt : Stmt) : Bool :=
  decide targets.Nodup &&
    targets.all (fun q => rows.any fun r => r.sequence == q && stmt.inner now r) &&
    match stmt.limit with
    | some n => decide ((targets.length : Int) ≤ n)
    | none => rows.all fun r => !stmt.inner now r || targets.contains r.sequence

def Db.begin (db : Db) (stmt : Stmt) (now : Timestamp) (targets : List Int) : Option Db :=
  if now ≤ db.clock ∧ stmt.ready now = true ∧ stmt.pick now db.rows targets = true then
    some { db with running := db.running ++ [⟨stmt, now, targets, 0, []⟩] }
  else none

/-- The lease a written row version carries, for the statements that write one. -/
def leaseWrite (stmt : Stmt) (r : Row) : List LeaseWrite :=
  match stmt with
  | .claim _ worker _ => (r.lockedUntil.map fun t => ⟨r.sequence, worker, t⟩).toList
  | .extendLease _ _ worker => (r.lockedUntil.map fun t => ⟨r.sequence, worker, t⟩).toList
  | _ => []

def sweepEntry (stmt : Stmt) (r : Row) (clock : Timestamp) : List (Row × Timestamp) :=
  match stmt with
  | .purgeExpiredSweep .. => [(r, clock)]
  | _ => []

/-- `RETURNING` is the claim's alone. -/
def returning (stmt : Stmt) (r : Row) : List Row :=
  match stmt with
  | .claim .. => [r]
  | _ => []

def Db.write (db : Db) (k : Nat) (run : Running) (r r' : Row) : Db :=
  { db with
    rows := db.rows.map fun x => if x.sequence = r.sequence then r' else x
    running := db.running.set k
      { run with affected := run.affected + 1, returned := run.returned ++ returning run.stmt r' }
    swept := sweepEntry run.stmt r db.clock ++ db.swept
    leases := leaseWrite run.stmt r' ++ db.leases }

def Db.remove (db : Db) (k : Nat) (run : Running) (r : Row) : Db :=
  { db with
    rows := db.rows.filter fun x => x.sequence ≠ r.sequence
    running := db.running.set k { run with affected := run.affected + 1 }
    deleted := ⟨r, run.stmt, db.clock⟩ :: db.deleted }

/-- A target that is gone, or whose newest version the outer `WHERE` refuses, is passed over. -/
def Db.pass (db : Db) (k : Nat) (run : Running) : Db := { db with running := db.running.set k run }

/-- One step.  `Rendering` is how `acquire` words the rows it cannot decode. -/
def next (rendering : Rendering) (db : Db) : Event → Option Db
  | .advance by' => some { db with clock := db.clock + by' }
  | .insert columns sequence now =>
      let r := Row.inserted columns sequence now
      if now ≤ db.clock ∧ sequence ∉ db.inserted ∧
          (db.rows.all fun x => x.columns.id ≠ columns.id) = true ∧ violated r = none then
        some { db with rows := db.rows ++ [r], inserted := sequence :: db.inserted }
      else none
  | .start stmt now targets => db.begin stmt now targets
  | .sweep k now targets =>
      match db.running[k]? with
      | some ⟨.claim _ worker _, _, [], _, returned⟩ =>
          db.begin (sweepPoisoned rendering returned worker) now targets
      | _ => none
  | .touch k sequence item =>
      match db.running[k]? with
      | none => none
      | some run =>
          if sequence ∈ run.targets then
            let run' := { run with targets := run.targets.erase sequence }
            match db.find sequence with
            | none => some (db.pass k run')
            | some r =>
                if run.stmt.outer run.now r && !run.stmt.picks item r then none
                else
                  match run.stmt.touch run.now item r with
                  | .error _ => none
                  | .ok .skip => some (db.pass k run')
                  | .ok (.update r') => some (db.write k run' r r')
                  | .ok .delete => some (db.remove k run' r)
          else none

/-- A run of the database, from an empty table. -/
abbrev Run (rendering : Rendering) (clock : Timestamp) (es : List Event) (db : Db) : Prop :=
  Machine.Path (Machine.Next (next rendering)) (Db.empty clock) es db

/-! ## What a statement can do to a row -/

/-- What an update writes, statement by statement, under the clause that allowed it. -/
inductive Update (now : Timestamp) (r : Row) : Stmt → Row → Prop
  | claim {batchSize worker leaseMs t} : claimable now r = true →
      Update now r (.claim batchSize worker leaseMs)
        { r with lockedBy := some worker, lockedUntil := some t, updatedAt := now }
  | poisonSweep {items worker reason err} : owned (items.map Prod.fst) worker r = true →
      Update now r (.poisonSweep items worker reason)
        { r with
          deadAt := some now, deadReason := some reason, lastError := err
          lockedBy := none, lockedUntil := none, updatedAt := now }
  | complete {ids worker} : owned ids worker r = true → r.attempts < INT_MAX →
      Update now r (.complete ids worker)
        { r with
          publishedAt := some now, attempts := r.attempts + 1
          lockedBy := none, lockedUntil := none, updatedAt := now }
  | failRetry {items worker err t} : owned (items.map Prod.fst) worker r = true →
      r.attempts < INT_MAX →
      Update now r (.failRetry items worker)
        { r with
          attempts := r.attempts + 1, lastError := err
          lockedBy := none, lockedUntil := none, availableAt := t, updatedAt := now }
  | failDead {items worker err reason} : owned (items.map Prod.fst) worker r = true →
      r.attempts < INT_MAX →
      Update now r (.failDead items worker)
        { r with
          attempts := r.attempts + 1, lastError := err, deadAt := some now
          deadReason := some reason, lockedBy := none, lockedUntil := none, updatedAt := now }
  | release {ids worker} : owned ids worker r = true →
      Update now r (.release ids worker)
        { r with lockedBy := none, lockedUntil := none, updatedAt := now }
  | extendLease {ids leaseMs worker t} : owned ids worker r = true →
      Update now r (.extendLease ids leaseMs worker)
        { r with lockedUntil := some t, updatedAt := now }
  | sweep {batchSize reason err} : sweepable now r = true →
      Update now r (.purgeExpiredSweep batchSize reason)
        { r with
          deadAt := some now, deadReason := some reason, lastError := err
          lockedBy := none, lockedUntil := none, updatedAt := now }
  | retryDead {ids} : r.columns.id ∈ ids → r.deadAt.isSome = true →
      Update now r (.retryDead ids)
        { r with
          deadAt := none, deadReason := none, availableAt := now, attempts := 0
          lockedBy := none, lockedUntil := none, updatedAt := now }

/-- The statements that delete, under the clause that allowed it. -/
inductive Delete (now : Timestamp) (r : Row) : Stmt → Prop
  | published {ms batchSize} : olderThan r.publishedAt now ms = true →
      Delete now r (.purgePublished ms batchSize)
  | dead {ms batchSize} : olderThan r.deadAt now ms = true →
      Delete now r (.purgeDeadRetention ms batchSize)
  | purgeDead {ids} : r.columns.id ∈ ids → r.deadAt.isSome = true →
      Delete now r (.purgeDead ids)

theorem incAttempts_ok {attempts n : Int} (h : incAttempts attempts = .ok n) :
    n = attempts + 1 ∧ attempts < INT_MAX := by
  simp only [incAttempts] at h
  split at h
  case isTrue hlt => exact ⟨(Except.ok.inj h).symm, hlt⟩
  case isFalse => cases h

theorem retry_outer {r : Row} {ids : List Uuid}
    (h : (decide (r.columns.id ∈ ids) && r.deadAt.isSome) = true) :
    r.columns.id ∈ ids ∧ r.deadAt.isSome = true := by
  rw [Bool.and_eq_true, decide_eq_true_eq] at h
  exact h

/-- The two ways `SET` can succeed. -/
theorem set_cases {now : Timestamp} {i : Nat} {r : Row} {stmt : Stmt} {o : Option Row}
    (houter : stmt.outer now r = true) (h : stmt.set now i r = .ok o) :
    (∃ r', o = some r' ∧ Update now r stmt r') ∨ (o = none ∧ Delete now r stmt) := by
  cases stmt with
  | claim batchSize worker leaseMs =>
    obtain ⟨t, -, h⟩ := bind_eq_ok h
    cases h
    exact .inl ⟨_, rfl, .claim houter⟩
  | poisonSweep items worker reason =>
    cases h
    exact .inl ⟨_, rfl, .poisonSweep houter⟩
  | complete ids worker =>
    obtain ⟨n, hn, h⟩ := bind_eq_ok h
    obtain ⟨rfl, hlt⟩ := incAttempts_ok hn
    cases h
    exact .inl ⟨_, rfl, .complete houter hlt⟩
  | failRetry items worker =>
    obtain ⟨n, hn, h⟩ := bind_eq_ok h
    obtain ⟨t, -, h⟩ := bind_eq_ok h
    obtain ⟨rfl, hlt⟩ := incAttempts_ok hn
    cases h
    exact .inl ⟨_, rfl, .failRetry houter hlt⟩
  | failDead items worker =>
    obtain ⟨n, hn, h⟩ := bind_eq_ok h
    obtain ⟨rfl, hlt⟩ := incAttempts_ok hn
    cases h
    exact .inl ⟨_, rfl, .failDead houter hlt⟩
  | release ids worker =>
    cases h
    exact .inl ⟨_, rfl, .release houter⟩
  | extendLease ids leaseMs worker =>
    obtain ⟨t, -, h⟩ := bind_eq_ok h
    cases h
    exact .inl ⟨_, rfl, .extendLease houter⟩
  | purgePublished ms batchSize =>
    cases h
    exact .inr ⟨rfl, .published houter⟩
  | purgeDeadRetention ms batchSize =>
    cases h
    exact .inr ⟨rfl, .dead houter⟩
  | purgeExpiredSweep batchSize reason =>
    cases h
    exact .inl ⟨_, rfl, .sweep houter⟩
  | retryDead ids =>
    cases h
    obtain ⟨hid, hdead⟩ := retry_outer houter
    exact .inl ⟨_, rfl, .retryDead hid hdead⟩
  | purgeDead ids =>
    cases h
    obtain ⟨hid, hdead⟩ := retry_outer houter
    exact .inr ⟨rfl, .purgeDead hid hdead⟩

/-- The inversion of `touch`. -/
theorem touch_update {now : Timestamp} {i : Nat} {r r' : Row} {stmt : Stmt}
    (h : stmt.touch now i r = .ok (.update r')) : Update now r stmt r' := by
  simp only [Stmt.touch] at h
  split at h
  case isFalse => cases h
  case isTrue houter =>
    split at h
    case h_1 => cases h
    case h_2 => cases h
    case h_3 r'' hset =>
      split at h
      case h_1 => cases h
      case h_2 =>
        cases h
        rcases set_cases houter hset with ⟨_, heq, hu⟩ | ⟨hnone, -⟩
        · cases heq
          exact hu
        · cases hnone

theorem touch_delete {now : Timestamp} {i : Nat} {r : Row} {stmt : Stmt}
    (h : stmt.touch now i r = .ok .delete) : Delete now r stmt := by
  simp only [Stmt.touch] at h
  split at h
  case isFalse => cases h
  case isTrue houter =>
    split at h
    case h_1 => cases h
    case h_2 hset =>
      rcases set_cases houter hset with ⟨_, heq, -⟩ | ⟨-, hd⟩
      · cases heq
      · exact hd
    case h_3 =>
      split at h
      case h_1 => cases h
      case h_2 => cases h

/-! ## What a step of the database can do -/

/-- A statement comes to a target: the entry it leaves behind, before the write is counted. -/
def Running.past (run : Running) (sequence : Int) : Running :=
  { run with targets := run.targets.erase sequence }

/-- The inversion of `next`. -/
inductive Step (rendering : Rendering) (db : Db) : Event → Db → Prop
  | advance (by' : Duration) : Step rendering db (.advance by') { db with clock := db.clock + by' }
  | insert {columns sequence now} : now ≤ db.clock → sequence ∉ db.inserted →
      (∀ x ∈ db.rows, x.columns.id ≠ columns.id) →
      violated (Row.inserted columns sequence now) = none →
      Step rendering db (.insert columns sequence now)
        { db with
          rows := db.rows ++ [Row.inserted columns sequence now]
          inserted := sequence :: db.inserted }
  | start {stmt now targets} : now ≤ db.clock → stmt.pick now db.rows targets = true →
      Step rendering db (.start stmt now targets)
        { db with running := db.running ++ [⟨stmt, now, targets, 0, []⟩] }
  | sweep {k now targets run batchSize worker leaseMs} : now ≤ db.clock →
      db.running[k]? = some run → run.stmt = .claim batchSize worker leaseMs →
      (sweepPoisoned rendering run.returned worker).pick now db.rows targets = true →
      Step rendering db (.sweep k now targets)
        { db with
          running := db.running ++
            [⟨sweepPoisoned rendering run.returned worker, now, targets, 0, []⟩] }
  | pass {k sequence item run} : db.running[k]? = some run → sequence ∈ run.targets →
      Step rendering db (.touch k sequence item) (db.pass k (run.past sequence))
  | write {k item run r r'} : db.running[k]? = some run → r.sequence ∈ run.targets →
      r ∈ db.rows → run.stmt.picks item r = true →
      run.stmt.touch run.now item r = .ok (.update r') →
      Step rendering db (.touch k r.sequence item) (db.write k (run.past r.sequence) r r')
  | remove {k item run r} : db.running[k]? = some run → r.sequence ∈ run.targets →
      r ∈ db.rows → Delete run.now r run.stmt →
      Step rendering db (.touch k r.sequence item) (db.remove k (run.past r.sequence) r)

theorem Db.begin_some {db db' : Db} {stmt : Stmt} {now : Timestamp} {targets : List Int}
    (h : db.begin stmt now targets = some db') :
    now ≤ db.clock ∧ stmt.pick now db.rows targets = true ∧
      db' = { db with running := db.running ++ [⟨stmt, now, targets, 0, []⟩] } := by
  simp only [Db.begin] at h
  split at h
  case isTrue hc => exact ⟨hc.1, hc.2.2, (Option.some.inj h).symm⟩
  case isFalse => cases h

theorem Db.find_some {db : Db} {sequence : Int} {r : Row} (h : db.find sequence = some r) :
    r ∈ db.rows ∧ r.sequence = sequence :=
  ⟨List.mem_of_find?_eq_some h, by simpa using List.find?_some h⟩

theorem step_of_next {rendering : Rendering} {db db' : Db} {e : Event}
    (h : next rendering db e = some db') : Step rendering db e db' := by
  cases e with
  | advance by' =>
    cases h
    exact .advance by'
  | insert columns sequence now =>
    simp only [next] at h
    split at h
    case isTrue hc =>
      cases h
      exact .insert hc.1 hc.2.1 (by simpa using hc.2.2.1) hc.2.2.2
    case isFalse => cases h
  | start stmt now targets =>
    obtain ⟨hnow, hpick, rfl⟩ := Db.begin_some h
    exact .start hnow hpick
  | sweep k now targets =>
    simp only [next] at h
    split at h
    case h_1 batchSize worker leaseMs _ _ returned hrun =>
      obtain ⟨hnow, hpick, rfl⟩ := Db.begin_some h
      exact Step.sweep hnow hrun rfl hpick
    case h_2 => cases h
  | touch k sequence item =>
    simp only [next] at h
    split at h
    case h_1 => cases h
    case h_2 run hrun =>
      split at h
      case isFalse => cases h
      case isTrue hmem =>
        split at h
        case h_1 =>
          cases h
          exact .pass hrun hmem
        case h_2 r hfind =>
          obtain ⟨hr, rfl⟩ := Db.find_some hfind
          split at h
          case isTrue => cases h
          case isFalse hpicks =>
            split at h
            case h_1 => cases h
            case h_2 =>
              cases h
              exact .pass hrun hmem
            case h_3 r' htouch =>
              cases h
              refine .write hrun hmem hr ?_ htouch
              have houter : run.stmt.outer run.now r = true := by
                by_contra hout
                simp [Stmt.touch, hout] at htouch
              simpa [houter] using hpicks
            case h_4 htouch =>
              cases h
              exact .remove hrun hmem hr (touch_delete htouch)

end Reliar.Store.Postgres
