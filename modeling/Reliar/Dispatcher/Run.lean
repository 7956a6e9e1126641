/-
# `Reliar.Dispatcher.Run` — the state machine of `OutboxDispatcher::run`
(`reliar-outbox`: `dispatcher.rs`, `run`, `drain`, `retry_unwritten_outcomes`)

`run` is cut at its await points.  A state is the program counter (`Pc`: where
the future is suspended, with the locals alive there), the collections
(`Books`), the timers, and the clock; `next` is one step, either of `run` itself
(a `select!` branch wins, a store call answers, a straight stretch of code is
executed) or of what runs beside it (time, the token, the publish tasks, the
store).

**A store call** is a `Call`.  The store may carry it out while it is awaited
(`apply`); only then can it answer `Ok`.  It may answer an error with or without
having been carried out, `bounded` may time it out, and a `select!` may drop it.

**`select!` is biased**: a branch wins only if no branch written above it is
ready, and when a branch wins, the retry future is dropped wherever it was; the
next iteration makes a new one, asleep until `next_outcome_retry_at`.

Timers are ideal: ready as soon as the clock reaches them.
-/
import Reliar.Lib.Machine
import Reliar.Dispatcher.State

namespace Reliar.Dispatcher

open Reliar.Core Reliar.Outbox

/-! ## Calls to the store -/

/-- A method of `OutboxStore` and its arguments; the worker is the dispatcher's own. -/
inductive StoreCall
  | acquire (request : AcquireRequest)
  | complete (items : List CompletedMessage)
  | fail (items : List FailedMessage)
  | release (messages : List MessageRef)
  | extendLease (messages : List MessageRef) (lease : Duration)
  | stats
  deriving DecidableEq

/-- The `Ok` values of the store's methods. -/
inductive Reply
  | batch (records : List Claimed) (poisoned : List PoisonedRow)
  | affected (count : Nat)
  | stats (stats : OutboxStats)
  deriving DecidableEq

/-- The reply has the type the method returns. -/
def StoreCall.returns : StoreCall → Reply → Bool
  | .acquire _, .batch _ _ => true
  | .complete _, .affected _ => true
  | .fail _, .affected _ => true
  | .release _, .affected _ => true
  | .extendLease _ _, .affected _ => true
  | .stats, .stats _ => true
  | _, _ => false

/-- A call being awaited, from `since`; `applied` is the reply once the store has carried it out. -/
structure Call where
  op : StoreCall
  since : Instant
  applied : Option Reply
  deriving DecidableEq

def Call.issue (op : StoreCall) (now : Instant) : Call := ⟨op, now, none⟩

/-- What awaiting a bounded call gives. -/
inductive Answer (E : Type)
  | ok
  | err (e : E)
  | elapsed
  deriving DecidableEq

/-- `Ok` needs an effect, a timeout needs the time. -/
def Call.mayAnswer {E : Type} (storeTimeout : Duration) (now : Instant) (call : Call) :
    Answer E → Bool
  | .ok => call.applied.isSome
  | .err _ => true
  | .elapsed => decide (call.since + storeTimeout ≤ now)

/-! ## A round of `retry_unwritten_outcomes` -/

/-- Where a round is suspended. -/
inductive Round
  | completing (call : Call)
  | failing (anyFailed : Bool) (call : Call)
  deriving DecidableEq

def Round.call : Round → Call
  | .completing call => call
  | .failing _ call => call

def Round.setCall : Round → Call → Round
  | .completing _, call => .completing call
  | .failing anyFailed _, call => .failing anyFailed call

/-- What a stretch of a round ends in: the next store call, or its `RetryOutcome`. -/
inductive Progress (E : Type)
  | awaiting (round : Round)
  | done (anyFailed : Bool) (permanent : Option E)
  deriving DecidableEq

section
variable {E : Type} [Classify E]

/-- After the `complete` half: expire, then issue `fail` if there is anything to write. -/
def failHalf (lease : Duration) (now : Instant) (anyFailed : Bool) (b : Books) :
    Books × Progress E :=
  let b := b.expireComplete lease now
  if b.unwrittenFail.isEmpty then (b.expireFail lease now, .done anyFailed none)
  else (b, .awaiting (.failing anyFailed (.issue (.fail (b.unwrittenFail.map (·.item))) now)))

def startRound (lease : Duration) (now : Instant) (b : Books) : Books × Progress E :=
  if b.unwrittenComplete.isEmpty then failHalf lease now false b
  else (b, .awaiting (.completing (.issue (.complete (b.unwrittenComplete.map (·.item))) now)))

/-- The awaited call answers.  A permanent error returns at once, past `expire_past_lease`. -/
def resumeRound (lease : Duration) (now : Instant) (b : Books) :
    Round → Answer E → Books × Progress E
  | .completing _, .ok => failHalf lease now false b.clearComplete
  | .completing _, .err e =>
      if Classify.kind e = .permanent then (b, .done true (some e)) else failHalf lease now true b
  | .completing _, .elapsed => failHalf lease now true b
  | .failing anyFailed _, .ok => (b.clearFail.expireFail lease now, .done anyFailed none)
  | .failing _ _, .err e =>
      if Classify.kind e = .permanent then (b, .done true (some e))
      else (b.expireFail lease now, .done true none)
  | .failing _ _, .elapsed => (b.expireFail lease now, .done true none)

end

/-! ## States -/

/-- The retry branch's future within one iteration of the loop. -/
inductive RetryFut
  /-- `has_unwritten` was false -/
  | disabled
  /-- in `sleep_until(due_at)` -/
  | sleeping
  | running (round : Round)
  deriving DecidableEq

/-- The locals computed at a loop head that outlive it. -/
structure LoopHead where
  outstandingCount : Nat
  leaseRefs : List MessageRef
  deriving DecidableEq

/-- Where `run` is suspended. -/
inductive Pc (E : Type)
  /-- the top of `'run: loop` -/
  | head
  | select (at_ : LoopHead) (fut : RetryFut)
  /-- in the handler of the lease, stats or claim branch -/
  | body (call : Call)
  /-- out of the loop -/
  | stopping
  /-- releasing the rows that never started -/
  | releasing (call : Call)
  /-- the top of `'drain: loop` -/
  | drainHead (deadline : Instant) (permanent : Option E)
  | drainSelect (deadline : Instant)
  | drainRound (deadline : Instant) (round : Round)
  /-- the last attempt to persist outcomes -/
  | finalRound (round : Round)
  /-- releasing what drain could not settle -/
  | finalRelease (permanent : Option E) (call : Call)
  | returned (result : Option E)
  | crashed
  deriving DecidableEq

/-- The store call `run` is suspended on. -/
def Pc.call? {E : Type} : Pc E → Option Call
  | .select _ (.running round) => some round.call
  | .body call => some call
  | .releasing call => some call
  | .drainRound _ round => some round.call
  | .finalRound round => some round.call
  | .finalRelease _ call => some call
  | _ => none

def Pc.setCall {E : Type} (call : Call) : Pc E → Pc E
  | .select at_ (.running round) => .select at_ (.running (round.setCall call))
  | .body _ => .body call
  | .releasing _ => .releasing call
  | .drainRound deadline round => .drainRound deadline (round.setCall call)
  | .finalRound round => .finalRound (round.setCall call)
  | .finalRelease permanent _ => .finalRelease permanent call
  | pc => pc

/-- The future still exists, and with it the join set's tasks. -/
def Pc.live {E : Type} : Pc E → Bool
  | .returned _ | .crashed => false
  | _ => true

structure RunState (E : Type) where
  now : Instant
  books : Books
  nextPollAt : Instant
  leaseDue : Instant
  statsDue : Option Instant
  nextOutcomeRetryAt : Instant
  exitReason : Option E
  cancelled : Bool
  pc : Pc E
  deriving DecidableEq

/-- `run` up to its loop. -/
def RunState.start {E : Type} (s : DispatcherSettings) (now : Instant) : RunState E where
  now := now
  books := Books.empty
  nextPollAt := now
  leaseDue := now + s.leaseTickPeriod
  statsDue := if s.statsInterval = 0 then none else some (now + s.statsInterval)
  nextOutcomeRetryAt := now
  exitReason := none
  cancelled := false
  pc := .head

/-- `Interval::tick` with `MissedTickBehavior::Delay`: a tick more than 5 ms late restarts the
period. -/
def nextTick (due : Instant) (period : Duration) (now : Instant) : Instant :=
  if due + Duration.ofMillis 5 < now then now + period else due + period

/-! ## Readiness in `select!` -/

namespace RunState

variable {E : Type} (s : RunState E)

def leaseReady (at_ : LoopHead) : Bool :=
  decide (0 < at_.outstandingCount) && decide (s.leaseDue ≤ s.now)

def statsReady : Bool := s.statsDue.any fun due => decide (due ≤ s.now)

/-- The retry future would make progress if polled now. -/
def retryReady (storeTimeout : Duration) : RetryFut → Bool
  | .disabled => false
  | .sleeping => decide (s.nextOutcomeRetryAt ≤ s.now)
  | .running round => decide (round.call.since + storeTimeout ≤ s.now)

def claimReady (maxInFlight : Nat) (at_ : LoopHead) : Bool :=
  decide (at_.outstandingCount < maxInFlight) && decide (s.nextPollAt ≤ s.now)

/-- No branch above the lease branch is ready. -/
def clearAboveLease : Bool := !s.cancelled && !s.books.joinReady

def clearAboveStats (at_ : LoopHead) : Bool := s.clearAboveLease && !s.leaseReady at_

def clearAboveRetry (at_ : LoopHead) : Bool := s.clearAboveStats at_ && !s.statsReady

def clearAboveClaim (storeTimeout : Duration) (at_ : LoopHead) (fut : RetryFut) : Bool :=
  s.clearAboveRetry at_ && !s.retryReady storeTimeout fut

end RunState

/-! ## Steps -/

inductive Event (E : Type)
  /-- time passes -/
  | tick (elapsed : Duration)
  /-- the host cancels the token -/
  | cancel
  /-- the process dies, or the host drops the future -/
  | crash
  /-- task `t` gets its permit -/
  | permit (t : TaskId)
  | publishReturns (t : TaskId) (result : PublishResult)
  | panic (t : TaskId)
  /-- an abort takes effect -/
  | abortLands (t : TaskId)
  /-- the store carries out the awaited call -/
  | apply (reply : Reply)
  /-- from the loop head into `select!` -/
  | enter
  | fireCancel
  | fireJoin (joined : List (TaskId × ℚ))
  | fireLease
  | fireStats
  /-- the retry future wakes from its sleep -/
  | retryWakes
  | fireClaim
  /-- the awaited call answers -/
  | answer (a : Answer E)
  /-- the shutdown path up to its first await; `lagging` are started tasks whose flag it misses -/
  | stop (lagging : List TaskId)
  /-- the test at the top of the drain loop -/
  | drainCheck
  | drainJoin (joined : List (TaskId × ℚ))
  | drainDeadline
  deriving DecidableEq

section
variable {E : Type} [Classify E]

/-- The request the claim branch makes. -/
def claimRequest (d : OutboxDispatcher) (at_ : LoopHead) : AcquireRequest where
  worker := d.worker
  batchSize := min d.settings.batchSize (min (d.settings.maxInFlight - at_.outstandingCount) U32_MAX)
  lease := d.settings.lease
  ordering := d.settings.ordering

/-- The retry branch's handler. -/
def finishRetry (d : OutboxDispatcher) (s : RunState E) (anyFailed : Bool)
    (permanent : Option E) : RunState E :=
  let s := { s with
    nextOutcomeRetryAt :=
      if anyFailed && s.books.hasUnwritten then s.now + d.settings.outcomeRetryInterval
      else s.now }
  match permanent with
  | some e => { s with exitReason := some e, pc := .stopping }
  | none => { s with pc := .head }

/-- The retry branch ran up to a suspension, or to its end. -/
def afterRetry (d : OutboxDispatcher) (s : RunState E) (at_ : LoopHead)
    (p : Books × Progress E) : RunState E :=
  let s := { s with books := p.1 }
  match p.2 with
  | .awaiting round => { s with pc := .select at_ (.running round) }
  | .done anyFailed permanent => finishRetry d s anyFailed permanent

/-- The handlers of the lease, stats and claim branches, after their store call. -/
def afterBody (d : OutboxDispatcher) (s : RunState E) (call : Call) (a : Answer E) : RunState E :=
  match call.op, a, call.applied with
  | .acquire _, .ok, some (.batch records poisoned) =>
      if records.isEmpty && poisoned.isEmpty then
        { s with nextPollAt := s.now + d.settings.idlePollInterval, pc := .head }
      else
        { s with
          nextPollAt := s.now + d.settings.pollInterval
          books := s.books.claim records
          pc := .head }
  | .acquire _, .err e, _ =>
      if Classify.kind e = .permanent then { s with exitReason := some e, pc := .stopping }
      else { s with nextPollAt := s.now + d.settings.idlePollInterval, pc := .head }
  | .acquire _, _, _ =>
      { s with nextPollAt := s.now + d.settings.idlePollInterval, pc := .head }
  | _, _, _ => { s with pc := .head }

def beginDrain (d : OutboxDispatcher) (s : RunState E) : RunState E :=
  { s with pc := .drainHead (s.now + d.settings.drainTimeout) none }

/-- The tail of `run`: an error of the loop comes before one of the drain. -/
def returnWith (s : RunState E) (permanent : Option E) : RunState E :=
  { s with pc := .returned (s.exitReason.or permanent) }

/-- Drain after its last outcome write. -/
def finalize (s : RunState E) (permanent : Option E) : RunState E :=
  let refs := s.books.releaseNow
  let s := { s with books := s.books.drainFail }
  if refs.isEmpty then returnWith s permanent
  else { s with pc := .finalRelease permanent (.issue (.release refs) s.now) }

/-- The last attempt ran up to a suspension, or to its end. -/
def afterFinal (s : RunState E) (p : Books × Progress E) : RunState E :=
  let s := { s with books := p.1 }
  match p.2 with
  | .awaiting round => { s with pc := .finalRound round }
  | .done _ permanent => finalize s permanent

/-- Out of the drain loop. -/
def leaveDrain (d : OutboxDispatcher) (s : RunState E) (permanent : Option E) : RunState E :=
  match permanent with
  | none => afterFinal s (startRound d.settings.lease s.now s.books)
  | some e => finalize s (some e)

def afterDrainRound (s : RunState E) (deadline : Instant) (p : Books × Progress E) : RunState E :=
  let s := { s with books := p.1 }
  match p.2 with
  | .awaiting round => { s with pc := .drainRound deadline round }
  | .done _ permanent => { s with pc := .drainHead deadline permanent }

/-- What follows an answer, by the suspension it ends. -/
def afterAnswer (d : OutboxDispatcher) (s : RunState E) (a : Answer E) : RunState E :=
  match s.pc with
  | .select at_ (.running round) =>
      afterRetry d s at_ (resumeRound d.settings.lease s.now s.books round a)
  | .body call => afterBody d s call a
  | .releasing _ => beginDrain d s
  | .drainRound deadline round =>
      afterDrainRound s deadline (resumeRound d.settings.lease s.now s.books round a)
  | .finalRound round => afterFinal s (resumeRound d.settings.lease s.now s.books round a)
  | .finalRelease permanent _ => returnWith s permanent
  | _ => s

/-- Inside the loop's `select!` an answer is seen only if no branch above is ready. -/
def mayHear (s : RunState E) : Bool :=
  match s.pc with
  | .select at_ _ => s.clearAboveRetry at_
  | _ => true

/-- The locals of an iteration, and its retry future. -/
def enterSelect (s : RunState E) : RunState E :=
  { s with
    pc := .select ⟨s.books.outstandingCount, s.books.leaseRefs⟩
      (if s.books.hasUnwritten then .sleeping else .disabled) }

/-- The shutdown path: drop what has not started, release it if there is any. -/
def shutdown (d : OutboxDispatcher) (s : RunState E) (lagging : List TaskId) : RunState E :=
  let refs := s.books.releaseImmediately lagging
  let s := { s with books := s.books.dropNotStarted lagging }
  if refs.isEmpty then beginDrain d s
  else { s with pc := .releasing (.issue (.release refs) s.now) }

/-- Whether `publish` may come back with `r` now. -/
def mayReturn (publishTimeout : Duration) (now since : Instant) : PublishResult → Bool
  | .elapsed => decide (since + publishTimeout ≤ now)
  | _ => true

/-- The steps of publish task `t`. -/
def taskStep (d : OutboxDispatcher) (s : RunState E) (t : PublishTask) :
    Event E → Option Books
  | .permit _ =>
      if t.phase = .waiting ∧ s.books.permitsHeld < d.settings.maxInFlight then
        some (s.books.setPhase t.id (.publishing s.now))
      else none
  | .publishReturns _ r =>
      match t.phase with
      | .publishing since =>
          if mayReturn d.settings.publishTimeout s.now since r then
            some (s.books.resolve d.settings.publishTimeout t r)
          else none
      | _ => none
  | .panic _ => if t.phase.ended then none else some (s.books.setPhase t.id .panicked)
  | .abortLands _ =>
      if t.abortRequested && !t.phase.ended then some (s.books.setPhase t.id .cancelled) else none
  | _ => none

def Event.task? : Event E → Option TaskId
  | .permit t | .publishReturns t _ | .panic t | .abortLands t => some t
  | _ => none

/-- Steps beside `run`: time, the host, the publish tasks, the store. -/
def environment (d : OutboxDispatcher) (s : RunState E) (e : Event E) : Option (RunState E) :=
  match e with
  | .tick elapsed => some { s with now := s.now + elapsed }
  | .cancel => some { s with cancelled := true }
  | .crash => some { s with pc := .crashed }
  | .apply reply =>
      match s.pc.call? with
      | some call =>
          if call.applied.isNone && call.op.returns reply then
            some { s with pc := s.pc.setCall { call with applied := some reply } }
          else none
      | none => none
  | e =>
      (e.task?.bind fun id => s.books.inFlight.find? fun t => t.id = id).bind fun t =>
        (taskStep d s t e).map fun b => { s with books := b }

/-- The branches of the loop's `select!`. -/
def selectStep (d : OutboxDispatcher) (s : RunState E) (at_ : LoopHead) (fut : RetryFut) :
    Event E → Option (RunState E)
  | .fireCancel => if s.cancelled then some { s with pc := .stopping } else none
  | .fireJoin joined =>
      if !s.cancelled && s.books.joinable joined then
        some { s with books := (s.books.join d.retry s.now joined).spawnReady, pc := .head }
      else none
  | .fireLease =>
      if s.clearAboveLease && s.leaseReady at_ then
        some { s with
          leaseDue := nextTick s.leaseDue d.settings.leaseTickPeriod s.now
          pc := .body (.issue (.extendLease at_.leaseRefs d.settings.lease) s.now) }
      else none
  | .fireStats =>
      if s.clearAboveStats at_ && s.statsReady then
        some { s with
          statsDue := s.statsDue.map fun due => nextTick due d.settings.statsInterval s.now
          pc := .body (.issue .stats s.now) }
      else none
  | .retryWakes =>
      if fut = .sleeping ∧ s.nextOutcomeRetryAt ≤ s.now ∧ s.clearAboveRetry at_ then
        some (afterRetry d s at_ (startRound d.settings.lease s.now s.books))
      else none
  | .fireClaim =>
      if s.clearAboveClaim d.settings.storeTimeout at_ fut &&
          s.claimReady d.settings.maxInFlight at_ then
        some { s with pc := .body (.issue (.acquire (claimRequest d at_)) s.now) }
      else none
  | _ => none

/-- Steps of `run` itself. -/
def control (d : OutboxDispatcher) (s : RunState E) (e : Event E) : Option (RunState E) :=
  match e, s.pc with
  | .enter, .head => some (enterSelect s)
  | .answer a, pc =>
      match pc.call? with
      | some call =>
          if mayHear s && call.mayAnswer d.settings.storeTimeout s.now a then
            some (afterAnswer d s a)
          else none
      | none => none
  | .stop lagging, .stopping => some (shutdown d s lagging)
  | .drainCheck, .drainHead deadline permanent =>
      if s.books.inFlight.isEmpty || decide (deadline ≤ s.now) || permanent.isSome then
        some (leaveDrain d s permanent)
      else some { s with pc := .drainSelect deadline }
  | .drainJoin joined, .drainSelect deadline =>
      if s.books.joinable joined then
        let b := s.books.join d.retry s.now joined
        some (afterDrainRound s deadline (startRound d.settings.lease s.now b))
      else none
  | .drainDeadline, .drainSelect deadline =>
      if decide (deadline ≤ s.now) && !s.books.joinReady then some (leaveDrain d s none) else none
  | e, .select at_ fut => selectStep d s at_ fut e
  | _, _ => none

/-- One step; a future that returned or was dropped takes none. -/
def next (d : OutboxDispatcher) (s : RunState E) (e : Event E) : Option (RunState E) :=
  if s.pc.live then (control d s e).or (environment d s e) else none

/-! ## What a step can do

`Step` lists the steps with their guards; every proof about runs goes by cases on it. -/

inductive Step (d : OutboxDispatcher) (s : RunState E) : Event E → RunState E → Prop
  | tick (elapsed : Duration) : Step d s (.tick elapsed) { s with now := s.now + elapsed }
  | cancel : Step d s .cancel { s with cancelled := true }
  | crash : Step d s .crash { s with pc := .crashed }
  | task {e : Event E} {t : PublishTask} {b : Books} (hid : e.task? = some t.id)
      (ht : t ∈ s.books.inFlight) (hb : taskStep d s t e = some b) :
      Step d s e { s with books := b }
  | apply {reply : Reply} {call : Call} (hc : s.pc.call? = some call) (hn : call.applied = none)
      (hr : call.op.returns reply = true) :
      Step d s (.apply reply) { s with pc := s.pc.setCall { call with applied := some reply } }
  | enter (hpc : s.pc = .head) : Step d s .enter (enterSelect s)
  | fireCancel {at_ : LoopHead} {fut : RetryFut} (hpc : s.pc = .select at_ fut)
      (hc : s.cancelled = true) : Step d s .fireCancel { s with pc := .stopping }
  | fireJoin {at_ : LoopHead} {fut : RetryFut} {joined : List (TaskId × ℚ)}
      (hpc : s.pc = .select at_ fut) (hc : s.cancelled = false)
      (hj : s.books.joinable joined = true) :
      Step d s (.fireJoin joined)
        { s with books := (s.books.join d.retry s.now joined).spawnReady, pc := .head }
  | fireLease {at_ : LoopHead} {fut : RetryFut} (hpc : s.pc = .select at_ fut)
      (hb : s.clearAboveLease = true) (hr : s.leaseReady at_ = true) :
      Step d s .fireLease
        { s with
          leaseDue := nextTick s.leaseDue d.settings.leaseTickPeriod s.now
          pc := .body (.issue (.extendLease at_.leaseRefs d.settings.lease) s.now) }
  | fireStats {at_ : LoopHead} {fut : RetryFut} (hpc : s.pc = .select at_ fut)
      (hb : s.clearAboveStats at_ = true) (hr : s.statsReady = true) :
      Step d s .fireStats
        { s with
          statsDue := s.statsDue.map fun due => nextTick due d.settings.statsInterval s.now
          pc := .body (.issue .stats s.now) }
  | retryWakes {at_ : LoopHead} (hpc : s.pc = .select at_ .sleeping)
      (hd : s.nextOutcomeRetryAt ≤ s.now) (hb : s.clearAboveRetry at_ = true) :
      Step d s .retryWakes (afterRetry d s at_ (startRound d.settings.lease s.now s.books))
  | fireClaim {at_ : LoopHead} {fut : RetryFut} (hpc : s.pc = .select at_ fut)
      (hb : s.clearAboveClaim d.settings.storeTimeout at_ fut = true)
      (hr : s.claimReady d.settings.maxInFlight at_ = true) :
      Step d s .fireClaim
        { s with pc := .body (.issue (.acquire (claimRequest d at_)) s.now) }
  | answerRetry {at_ : LoopHead} {round : Round} {a : Answer E}
      (hpc : s.pc = .select at_ (.running round)) (hb : s.clearAboveRetry at_ = true)
      (ha : round.call.mayAnswer d.settings.storeTimeout s.now a = true) :
      Step d s (.answer a)
        (afterRetry d s at_ (resumeRound d.settings.lease s.now s.books round a))
  | answerBody {call : Call} {a : Answer E} (hpc : s.pc = .body call)
      (ha : call.mayAnswer d.settings.storeTimeout s.now a = true) :
      Step d s (.answer a) (afterBody d s call a)
  | answerReleasing {call : Call} {a : Answer E} (hpc : s.pc = .releasing call)
      (ha : call.mayAnswer d.settings.storeTimeout s.now a = true) :
      Step d s (.answer a) (beginDrain d s)
  | answerDrain {deadline : Instant} {round : Round} {a : Answer E}
      (hpc : s.pc = .drainRound deadline round)
      (ha : round.call.mayAnswer d.settings.storeTimeout s.now a = true) :
      Step d s (.answer a)
        (afterDrainRound s deadline (resumeRound d.settings.lease s.now s.books round a))
  | answerFinal {round : Round} {a : Answer E} (hpc : s.pc = .finalRound round)
      (ha : round.call.mayAnswer d.settings.storeTimeout s.now a = true) :
      Step d s (.answer a) (afterFinal s (resumeRound d.settings.lease s.now s.books round a))
  | answerRelease {permanent : Option E} {call : Call} {a : Answer E}
      (hpc : s.pc = .finalRelease permanent call)
      (ha : call.mayAnswer d.settings.storeTimeout s.now a = true) :
      Step d s (.answer a) (returnWith s permanent)
  | stop {lagging : List TaskId} (hpc : s.pc = .stopping) :
      Step d s (.stop lagging) (shutdown d s lagging)
  | drainLeave {deadline : Instant} {permanent : Option E}
      (hpc : s.pc = .drainHead deadline permanent)
      (hc : s.books.inFlight = [] ∨ deadline ≤ s.now ∨ permanent.isSome = true) :
      Step d s .drainCheck (leaveDrain d s permanent)
  | drainStay {deadline : Instant} (hpc : s.pc = .drainHead deadline none)
      (hi : s.books.inFlight ≠ []) (hd : s.now < deadline) :
      Step d s .drainCheck { s with pc := .drainSelect deadline }
  | drainJoin {deadline : Instant} {joined : List (TaskId × ℚ)}
      (hpc : s.pc = .drainSelect deadline) (hj : s.books.joinable joined = true) :
      Step d s (.drainJoin joined)
        (afterDrainRound s deadline
          (startRound d.settings.lease s.now (s.books.join d.retry s.now joined)))
  | drainDeadline {deadline : Instant} (hpc : s.pc = .drainSelect deadline)
      (hd : deadline ≤ s.now) (hj : s.books.joinReady = false) :
      Step d s .drainDeadline (leaveDrain d s none)

section
variable {d : OutboxDispatcher} {s s' : RunState E} {e : Event E}

theorem step_of_selectStep {at_ : LoopHead} {fut : RetryFut} (hpc : s.pc = .select at_ fut)
    (h : selectStep d s at_ fut e = some s') : Step d s e s' := by
  cases e <;> simp only [selectStep, reduceCtorEq, Option.ite_none_right_eq_some, Option.some.injEq,
    Bool.and_eq_true, Bool.not_eq_true', and_assoc] at h
  case fireCancel => obtain ⟨hc, rfl⟩ := h; exact .fireCancel hpc hc
  case fireJoin => obtain ⟨hc, hj, rfl⟩ := h; exact .fireJoin hpc hc hj
  case fireLease => obtain ⟨hb, hr, rfl⟩ := h; exact .fireLease hpc hb hr
  case fireStats => obtain ⟨hb, hr, rfl⟩ := h; exact .fireStats hpc hb hr
  case retryWakes => obtain ⟨rfl, hd, hb, rfl⟩ := h; exact .retryWakes hpc hd hb
  case fireClaim => obtain ⟨hb, hr, rfl⟩ := h; exact .fireClaim hpc hb hr

theorem step_of_answer {a : Answer E} {call : Call} (hc : s.pc.call? = some call)
    (hh : mayHear s = true) (ha : call.mayAnswer d.settings.storeTimeout s.now a = true) :
    Step d s (.answer a) (afterAnswer d s a) := by
  cases hpc : s.pc <;> simp only [hpc, Pc.call?, reduceCtorEq, Option.some.injEq] at hc <;>
    simp only [afterAnswer, hpc]
  case select at_ fut =>
    cases fut with
    | disabled => cases hc
    | sleeping => cases hc
    | running round =>
        simp only [Option.some.injEq] at hc
        subst hc
        exact .answerRetry hpc (by simpa only [mayHear, hpc] using hh) ha
  case body => subst hc; exact .answerBody hpc ha
  case releasing => subst hc; exact .answerReleasing hpc ha
  case drainRound => subst hc; exact .answerDrain hpc ha
  case finalRound => subst hc; exact .answerFinal hpc ha
  case finalRelease => subst hc; exact .answerRelease hpc ha

theorem step_of_control (h : control d s e = some s') : Step d s e s' := by
  unfold control at h
  split at h
  · rename_i hpc; cases h; exact .enter hpc
  · split at h
    · rename_i call hc
      simp only [Option.ite_none_right_eq_some, Option.some.injEq, Bool.and_eq_true, and_assoc] at h
      obtain ⟨hh, ha, rfl⟩ := h
      exact step_of_answer hc hh ha
    · cases h
  · rename_i hpc; cases h; exact .stop hpc
  · rename_i deadline permanent hpc
    split at h
    · rename_i hc
      cases h
      refine .drainLeave hpc ?_
      simpa only [Bool.or_eq_true, List.isEmpty_iff, decide_eq_true_eq, or_assoc] using hc
    · rename_i hc
      cases h
      simp only [Bool.or_eq_true, List.isEmpty_iff, decide_eq_true_eq, not_or, not_le,
        Bool.not_eq_true, Option.isSome_eq_false_iff, Option.isNone_iff_eq_none] at hc
      obtain ⟨⟨hi, hd⟩, rfl⟩ := hc
      exact .drainStay hpc hi hd
  · rename_i hpc
    simp only [Option.ite_none_right_eq_some, Option.some.injEq] at h
    obtain ⟨hj, rfl⟩ := h
    exact .drainJoin hpc hj
  · rename_i hpc
    simp only [Option.ite_none_right_eq_some, Option.some.injEq, Bool.and_eq_true,
      decide_eq_true_eq, Bool.not_eq_true', and_assoc] at h
    obtain ⟨hd, hj, rfl⟩ := h
    exact .drainDeadline hpc hd hj
  · rename_i hpc; exact step_of_selectStep hpc h
  · cases h

theorem step_of_environment (h : environment d s e = some s') : Step d s e s' := by
  unfold environment at h
  split at h
  · cases h; exact .tick _
  · cases h; exact .cancel
  · cases h; exact .crash
  · split at h
    · rename_i call hc
      simp only [Option.ite_none_right_eq_some, Option.some.injEq, Bool.and_eq_true,
        Option.isNone_iff_eq_none, and_assoc] at h
      obtain ⟨hn, hr, rfl⟩ := h
      exact .apply hc hn hr
    · cases h
  · obtain ⟨t, ht, h⟩ := Option.bind_eq_some_iff.mp h
    obtain ⟨id, hid, ht⟩ := Option.bind_eq_some_iff.mp ht
    obtain ⟨b, hb, rfl⟩ := Option.map_eq_some_iff.mp h
    have htid : t.id = id := by simpa using List.find?_some ht
    exact .task (htid ▸ hid) (List.mem_of_find?_eq_some ht) hb

/-- Every step is one of the listed ones. -/
theorem step_of_next (h : next d s e = some s') : Step d s e s' := by
  unfold next at h
  split at h
  · rcases Option.or_eq_some_iff.mp h with hc | ⟨-, he⟩
    · exact step_of_control hc
    · exact step_of_environment he
  · cases h

theorem live_of_next (h : next d s e = some s') : s.pc.live = true := by
  unfold next at h
  split at h
  · assumption
  · cases h

end

/-- A run of the dispatcher, from the loop's first head at `now`. -/
abbrev Run (d : OutboxDispatcher) (now : Instant) (es : List (Event E)) (s : RunState E) : Prop :=
  Machine.Path (Machine.Next (next d)) (RunState.start d.settings now) es s

end

/-- Either way to build a dispatcher. -/
def Built (settings : DispatcherSettings) (d : OutboxDispatcher) : Prop :=
  ∃ fresh, build settings fresh = .ok d ∨
    ∃ policy backoff, buildWith settings fresh policy backoff = .ok d

theorem Built.valid {settings : DispatcherSettings} {d : OutboxDispatcher} (h : Built settings d) :
    validateShared settings = .ok () ∧ d.settings = settings := by
  obtain ⟨fresh, hbuild | ⟨policy, backoff, hbuild⟩⟩ := h
  · obtain ⟨hv, hs, -⟩ := build_ok hbuild
    exact ⟨hv, hs⟩
  · exact buildWith_ok hbuild

/-! ## Sample values

A dispatcher and a message for the concrete runs of later modules; a store error there is just
its kind. -/

instance : Classify FailureKind := ⟨id⟩

def sampleWorker : WorkerId := ⟨"worker-1", by decide, by decide⟩

def sample (s : DispatcherSettings) : OutboxDispatcher := ⟨s, sampleWorker, s.retry.policy⟩

def sampleEnvelope (n : Nat) : SerializedEnvelope where
  id := ⟨⟨BitVec.ofNat 128 n⟩⟩
  messageType := ⟨"order.placed", 1⟩
  body := []
  metadata := Metadata.default
  headers := none

def sampleClaim (n : Nat) : Claimed := ⟨OutboxRecord.build (sampleEnvelope n) n 0, 1⟩

end Reliar.Dispatcher
