/-
# `Reliar.Outbox.Types` — rows, requests and outcomes (`reliar-outbox`: `record.rs`, `store.rs`)

The values that cross the `OutboxStore` boundary.  Store timestamps are plain
instants; durations are nanoseconds.

`FailedMessage.new` and `PoisonedRow.new` truncate their error text, as the
source does, by walking a byte offset back to a character boundary.
-/
import Reliar.Core.Envelope

namespace Reliar.Outbox

open Reliar.Core

/-! ## Error text -/

def MAX_ERROR_LEN : Nat := 2048
def TRUNCATION_MARKER : String := "…[truncated]"

/-- `str::is_char_boundary`: byte offset `n` lies between two characters. -/
def isCharBoundary : List Char → Nat → Bool
  | _, 0 => true
  | [], _ + 1 => false
  | c :: cs, n + 1 => decide (c.utf8Size ≤ n + 1) && isCharBoundary cs (n + 1 - c.utf8Size)

/-- The backwards loop: the largest boundary at or below `n`. -/
def walkBack (cs : List Char) : Nat → Nat
  | 0 => 0
  | n + 1 => if isCharBoundary cs (n + 1) then n + 1 else walkBack cs n

/-- `&s[..n]`, for `n` on a character boundary. -/
def takeBytes : List Char → Nat → List Char
  | [], _ => []
  | c :: cs, n => if c.utf8Size ≤ n then c :: takeBytes cs (n - c.utf8Size) else []

def truncateError (error : String) : String :=
  if error.utf8ByteSize ≤ MAX_ERROR_LEN then error
  else
    let budget := MAX_ERROR_LEN - TRUNCATION_MARKER.utf8ByteSize
    let stop := walkBack error.toList (min budget error.utf8ByteSize)
    String.ofList (takeBytes error.toList stop) ++ TRUNCATION_MARKER

/-! ## Outcomes -/

/-- Why a row is dead. -/
inductive DeadReason
  | permanentError
  | attemptsExhausted
  | expired
  | undecodable
  deriving DecidableEq, Repr

/-- What `fail` does with one row, as decided by a retry policy. -/
inductive FailureOutcome
  | retry (delay : Duration)
  | dead (reason : DeadReason)
  deriving DecidableEq, Repr

/-- Identifies one row; `createdAt` prunes partitions. -/
structure MessageRef where
  id : MessageId
  createdAt : Timestamp
  deriving DecidableEq, Repr

structure CompletedMessage where
  message : MessageRef
  deriving DecidableEq, Repr

structure FailedMessage where
  message : MessageRef
  error : String
  outcome : FailureOutcome
  deriving DecidableEq, Repr

def FailedMessage.new (message : MessageRef) (error : String) (outcome : FailureOutcome) :
    FailedMessage :=
  ⟨message, truncateError error, outcome⟩

/-! ## Rows -/

/-- An envelope plus its outbound delivery state. -/
structure OutboxRecord where
  envelope : SerializedEnvelope
  sequence : Int
  createdAt : Timestamp
  orderingKey : Option String
  attempts : Nat
  availableAt : Timestamp
  lockedBy : Option WorkerId
  lockedUntil : Option Timestamp
  publishedAt : Option Timestamp
  deadAt : Option Timestamp
  deadReason : Option DeadReason
  lastError : Option String
  deriving DecidableEq

def OutboxRecord.messageRef (r : OutboxRecord) : MessageRef := ⟨r.envelope.id, r.createdAt⟩

/-- `OutboxRecord::builder(..).build()`: nothing observed yet, due at once. -/
def OutboxRecord.build (envelope : SerializedEnvelope) (sequence : Int) (createdAt : Timestamp) :
    OutboxRecord where
  envelope := envelope
  sequence := sequence
  createdAt := createdAt
  orderingKey := none
  attempts := 0
  availableAt := createdAt
  lockedBy := none
  lockedUntil := none
  publishedAt := none
  deadAt := none
  deadReason := none
  lastError := none

/-- A row the store could not decode. -/
structure PoisonedRow where
  id : MessageId
  sequence : Int
  error : String
  deriving DecidableEq, Repr

def PoisonedRow.new (id : MessageId) (sequence : Int) (error : String) : PoisonedRow :=
  ⟨id, sequence, truncateError error⟩

structure AcquiredBatch where
  records : List OutboxRecord
  poisoned : List PoisonedRow
  deriving DecidableEq

/-! ## Requests -/

inductive Ordering
  | unordered
  | perKey
  deriving DecidableEq, Repr

structure AcquireRequest where
  worker : WorkerId
  batchSize : Nat
  lease : Duration
  ordering : Ordering
  deriving DecidableEq

/-- What `purge` deletes or sweeps in one bounded pass. -/
structure PurgeRequest where
  publishedRetention : Option Duration
  deadRetention : Option Duration
  batchSize : Nat
  deriving DecidableEq, Repr

structure PurgeReport where
  publishedDeleted : Nat
  deadDeleted : Nat
  expiredToDead : Nat
  deriving DecidableEq, Repr

/-- Which dead rows `list_dead` returns. -/
structure DeadQuery where
  messageType : Option String
  tenantId : Option String
  deadBefore : Option OffsetDateTime
  limit : Nat
  afterSequence : Option Int

def DeadQuery.default : DeadQuery := ⟨none, none, none, 100, none⟩

structure DeadLetterPage where
  records : List OutboxRecord
  poisoned : List PoisonedRow
  nextAfterSequence : Option Int
  deriving DecidableEq

structure OutboxStats where
  pending : Nat
  dead : Nat
  expiredPending : Nat
  oldestPendingAvailableAt : Option Timestamp
  asOf : Timestamp
  deriving DecidableEq, Repr

end Reliar.Outbox
