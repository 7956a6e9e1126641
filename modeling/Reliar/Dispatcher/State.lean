/-
# `Reliar.Dispatcher.State` — the collections of `OutboxDispatcher::run`
(`reliar-outbox`: `dispatcher.rs`)

`Books` holds the collections `run` keeps its claims in — `pending`, the
`in_flight` join set, `outstanding`, `unwritten_complete`, `unwritten_fail` —
and the functions of `dispatcher.rs` that move a claim from one to another:
`spawn_ready`, `record_publish_results`, `expire_past_lease`, and the two halves
of `retry_unwritten_outcomes`, split where they await the store.

**Ghost state.**  `History` is a log nobody reads: what `acquire` returned, what
every publish returned, and where a claim went when it left the collections.  A
claim is named by the id of the publish task it was spawned as (tokio never
hands out the same id twice), and an unwritten outcome remembers that id
(`Unwritten.task`).  `stamp` is ghost too: the number of the claim in its row's
own history, set by the store.  No branch of the model depends on any of them.

The metrics hooks and the log lines are left out; nothing reads them back.
-/
import Reliar.Outbox.Settings

namespace Reliar.Dispatcher

open Reliar.Core Reliar.Outbox

/-- tokio's monotonic clock, in nanoseconds. -/
abbrev Instant := Nat

abbrev TaskId := Nat

/-! ## Publishing one message -/

/-- A claimed record, with the ghost number of the claim. -/
structure Claimed where
  record : OutboxRecord
  stamp : Nat
  deriving DecidableEq

/-- One claimed row not yet spawned as a publish task. -/
structure PendingRow where
  message : MessageRef
  messageType : MessageType
  attemptsBefore : Nat
  envelope : SerializedEnvelope
  stamp : Nat
  deriving DecidableEq

/-- What the claim arm keeps of an acquired record. -/
def PendingRow.ofClaimed (c : Claimed) : PendingRow where
  message := c.record.messageRef
  messageType := c.record.envelope.messageType
  attemptsBefore := c.record.attempts
  envelope := c.record.envelope
  stamp := c.stamp

/-- What `tokio::time::timeout(publish_timeout, publisher.publish(&envelope))` gave. -/
inductive PublishResult
  | ok
  | err (kind : FailureKind) (error : String)
  | elapsed
  deriving DecidableEq, Repr

inductive PublishTaskOutcome
  | published (message : MessageRef) (messageType : MessageType)
  | failed (message : MessageRef) (attemptsBefore : Nat) (kind : FailureKind) (error : String)
  deriving DecidableEq, Repr

/-- Decimal digits after the point, without trailing zeros; `width` digits in all. -/
def fracDigits : (width value : Nat) → String
  | 0, _ => ""
  | width + 1, value =>
      if value = 0 then ""
      else toString (value / 10 ^ width) ++ fracDigits width (value % 10 ^ width)

/-- `Duration`'s `Debug`: the largest unit that is not zero. -/
def debugDuration (d : Duration) : String :=
  let show' (unit width : Nat) (suffix : String) : String :=
    let frac := fracDigits width (d % unit)
    toString (d / unit) ++ (if frac = "" then "" else "." ++ frac) ++ suffix
  if 1000000000 ≤ d then show' 1000000000 9 "s"
  else if 1000000 ≤ d then show' 1000000 6 "ms"
  else if 1000 ≤ d then show' 1000 3 "µs"
  else show' 1 0 "ns"

/-- The verdict of `publish_one` on a row; `none` is a closed semaphore, which `run` never does
to its own. -/
def publishOne (row : PendingRow) (publishTimeout : Duration) :
    Option PublishResult → PublishTaskOutcome
  | none =>
      .failed row.message row.attemptsBefore .transient
        "reliar-outbox: publish semaphore closed unexpectedly"
  | some .ok => .published row.message row.messageType
  | some (.err kind error) => .failed row.message row.attemptsBefore kind error
  | some .elapsed =>
      .failed row.message row.attemptsBefore .transient
        ("reliar-outbox: publish timed out after " ++ debugDuration publishTimeout)

/-- How far a spawned `publish_one` has come. -/
inductive TaskPhase
  /-- waiting for a permit; `started` is still false -/
  | waiting
  /-- holds a permit and is inside `publisher.publish` -/
  | publishing (since : Instant)
  /-- ended normally, not yet joined -/
  | finished (outcome : PublishTaskOutcome)
  | panicked
  /-- an `abort()` landed -/
  | cancelled
  deriving DecidableEq, Repr

/-- A join set hands out a task once it has ended, in whatever way. -/
def TaskPhase.ended : TaskPhase → Bool
  | .waiting | .publishing _ => false
  | .finished _ | .panicked | .cancelled => true

/-- The shared `started` flag: set by the task once it has its permit. -/
def TaskPhase.started : TaskPhase → Bool
  | .waiting => false
  | _ => true

/-- A member of the `in_flight` join set. -/
structure PublishTask where
  id : TaskId
  row : PendingRow
  phase : TaskPhase
  abortRequested : Bool
  deriving DecidableEq

/-- A value of the `outstanding` map, with its key. -/
structure OutstandingTask where
  id : TaskId
  message : MessageRef
  deriving DecidableEq, Repr

/-! ## The collections -/

/-- An outcome whose write has not been confirmed, and since when. -/
structure Unwritten (α : Type) where
  since : Instant
  item : α
  task : TaskId
  deriving DecidableEq

/-- Ghost log of a run. -/
structure History where
  /-- every record an `acquire` returned -/
  acquired : List Claimed
  /-- the task each of them was spawned as -/
  spawned : List (TaskId × PendingRow)
  /-- every publish that came back -/
  resolved : List (TaskId × PublishResult)
  /-- outcomes whose `complete`/`fail` call returned `Ok` -/
  written : List TaskId
  /-- outcomes `expire_past_lease` gave up on, and the age it saw -/
  abandoned : List (TaskId × Duration)
  /-- tasks joined without an outcome, and how they ended -/
  lost : List (TaskId × TaskPhase)
  /-- handed back at shutdown: before they had a permit, or failed and not written -/
  dropped : List TaskId
  deriving DecidableEq

def History.empty : History := ⟨[], [], [], [], [], [], []⟩

structure Books where
  pending : List PendingRow
  inFlight : List PublishTask
  outstanding : List OutstandingTask
  unwrittenComplete : List (Unwritten CompletedMessage)
  unwrittenFail : List (Unwritten FailedMessage)
  nextTask : TaskId
  hist : History
  deriving DecidableEq

namespace Books

def empty : Books := ⟨[], [], [], [], [], 0, History.empty⟩

/-- `outstanding.len() + unwritten_complete.len() + unwritten_fail.len()`. -/
def outstandingCount (b : Books) : Nat :=
  b.outstanding.length + b.unwrittenComplete.length + b.unwrittenFail.length

/-- The rows a lease renewal covers. -/
def leaseRefs (b : Books) : List MessageRef :=
  b.outstanding.map (·.message) ++ b.unwrittenComplete.map (·.item.message) ++
    b.unwrittenFail.map (·.item.message)

def hasUnwritten (b : Books) : Bool := !b.unwrittenComplete.isEmpty || !b.unwrittenFail.isEmpty

/-! ### Claiming and spawning -/

/-- One iteration of `spawn_ready`.  The task id is new, so `HashMap::insert` adds an entry. -/
def spawn (b : Books) (row : PendingRow) : Books :=
  { b with
    inFlight := b.inFlight ++ [⟨b.nextTask, row, .waiting, false⟩]
    outstanding := b.outstanding ++ [⟨b.nextTask, row.message⟩]
    nextTask := b.nextTask + 1
    hist := { b.hist with spawned := b.hist.spawned ++ [(b.nextTask, row)] } }

/-- `spawn_ready`: every pending row, in order. -/
def spawnReady (b : Books) : Books := b.pending.foldl spawn { b with pending := [] }

/-- The claim arm's `for record in batch.records`, then `spawn_ready`. -/
def claim (b : Books) (records : List Claimed) : Books :=
  spawnReady
    { b with
      pending := b.pending ++ records.map PendingRow.ofClaimed
      hist := { b.hist with acquired := b.hist.acquired ++ records } }

/-! ### Joining results -/

def removeOutstanding (b : Books) (id : TaskId) : Books :=
  { b with outstanding := b.outstanding.filter fun t => t.id ≠ id }

/-- One iteration of `record_publish_results`: the join set yields `task`, `unit` is the draw the
retry policy takes if it is asked. -/
def recordOne (retry : RetryPolicy) (now : Instant) (unit : ℚ) (b : Books) (task : PublishTask) :
    Books :=
  let b := b.removeOutstanding task.id
  match task.phase with
  | .finished (.published message _) =>
      { b with
        unwrittenComplete := b.unwrittenComplete ++ [⟨now, ⟨message⟩, task.id⟩] }
  | .finished (.failed message attemptsBefore kind error) =>
      let outcome := retry.next unit attemptsBefore kind
      { b with
        unwrittenFail :=
          b.unwrittenFail ++ [⟨now, FailedMessage.new message error outcome, task.id⟩] }
  | ended => { b with hist := { b.hist with lost := b.hist.lost ++ [(task.id, ended)] } }

/-- The join set hands over task `id`, if it has ended. -/
def joinOne (retry : RetryPolicy) (now : Instant) (b : Books) (joined : TaskId × ℚ) : Books :=
  match b.inFlight.find? fun t => decide (t.id = joined.1) && t.phase.ended with
  | some task =>
      recordOne retry now joined.2
        { b with inFlight := b.inFlight.filter fun t => t.id ≠ joined.1 } task
  | none => b

/-- `join_next_with_id`, the `try_join_next_with_id` loop, `record_publish_results`. -/
def join (retry : RetryPolicy) (now : Instant) (b : Books) (joined : List (TaskId × ℚ)) : Books :=
  joined.foldl (joinOne retry now) b

/-- `joined` is a non-empty batch of distinct tasks that have ended.  The source takes all that
have; tokio's cooperative budget may make it stop earlier. -/
def joinable (b : Books) (joined : List (TaskId × ℚ)) : Bool :=
  !joined.isEmpty && decide (joined.map Prod.fst).Nodup &&
    joined.all fun j => b.inFlight.any fun t => decide (t.id = j.1) && t.phase.ended

/-- Some task could be joined now. -/
def joinReady (b : Books) : Bool := b.inFlight.any fun t => t.phase.ended

/-! ### Outcome writes -/

/-- Still within the retry budget: `now.saturating_duration_since(since) <= lease`. -/
def keeps {α : Type} (lease : Duration) (now : Instant) (e : Unwritten α) : Bool :=
  decide (now - e.since ≤ lease)

/-- `unwritten_complete.clear()` after the store said `Ok`. -/
def clearComplete (b : Books) : Books :=
  { b with
    unwrittenComplete := []
    hist := { b.hist with written := b.hist.written ++ b.unwrittenComplete.map (·.task) } }

def clearFail (b : Books) : Books :=
  { b with
    unwrittenFail := []
    hist := { b.hist with written := b.hist.written ++ b.unwrittenFail.map (·.task) } }

/-- `expire_past_lease(unwritten_complete, ..)`. -/
def expireComplete (lease : Duration) (now : Instant) (b : Books) : Books :=
  { b with
    unwrittenComplete := b.unwrittenComplete.filter (keeps lease now)
    hist := { b.hist with
      abandoned := b.hist.abandoned ++
        (b.unwrittenComplete.filter fun e => !keeps lease now e).map
          fun e => (e.task, now - e.since) } }

def expireFail (lease : Duration) (now : Instant) (b : Books) : Books :=
  { b with
    unwrittenFail := b.unwrittenFail.filter (keeps lease now)
    hist := { b.hist with
      abandoned := b.hist.abandoned ++
        (b.unwrittenFail.filter fun e => !keeps lease now e).map
          fun e => (e.task, now - e.since) } }

/-! ### What the publish tasks do on their own -/

def setPhase (b : Books) (id : TaskId) (phase : TaskPhase) : Books :=
  { b with inFlight := b.inFlight.map fun t => if t.id = id then { t with phase := phase } else t }

/-- Permits in use: the semaphore has `max_in_flight` of them. -/
def permitsHeld (b : Books) : Nat :=
  (b.inFlight.filter fun t => match t.phase with | .publishing _ => true | _ => false).length

/-- `publisher.publish` comes back in task `t`, which ends with its verdict. -/
def resolve (b : Books) (publishTimeout : Duration) (t : PublishTask) (r : PublishResult) : Books :=
  let b := b.setPhase t.id (.finished (publishOne t.row publishTimeout (some r)))
  { b with hist := { b.hist with resolved := b.hist.resolved ++ [(t.id, r)] } }

/-! ### Shutdown -/

/-- The tasks cancellation treats as not started: no permit yet, or a flag not seen yet. -/
def notYetPermitted (b : Books) (lagging : List TaskId) : List OutstandingTask :=
  b.outstanding.filter fun o =>
    b.inFlight.any fun t => decide (t.id = o.id) && (!t.phase.started || decide (t.id ∈ lagging))

/-- `outstanding.retain(..)` of the shutdown path: drop and abort what has not started. -/
def dropNotStarted (b : Books) (lagging : List TaskId) : Books :=
  let gone := (b.notYetPermitted lagging).map (·.id)
  { b with
    pending := []
    outstanding := b.outstanding.filter fun o => o.id ∉ gone
    inFlight := b.inFlight.map fun t => if t.id ∈ gone then { t with abortRequested := true } else t
    hist := { b.hist with dropped := b.hist.dropped ++ gone } }

/-- What the shutdown path releases at once. -/
def releaseImmediately (b : Books) (lagging : List TaskId) : List MessageRef :=
  b.pending.map (·.message) ++ (b.notYetPermitted lagging).map (·.message)

/-- What drain releases at its end. -/
def releaseNow (b : Books) : List MessageRef :=
  b.outstanding.map (·.message) ++ b.unwrittenFail.map (·.item.message)

/-- `unwritten_fail.drain(..)`: those rows are handed back without an outcome. -/
def drainFail (b : Books) : Books :=
  { b with
    unwrittenFail := []
    hist := { b.hist with dropped := b.hist.dropped ++ b.unwrittenFail.map (·.task) } }

end Books

end Reliar.Dispatcher
