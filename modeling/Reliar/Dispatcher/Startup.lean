/-
# `Reliar.Dispatcher.Startup` — which accepted settings `run` can start with
(`reliar-outbox`: `dispatcher.rs`)

`validate_shared` compares fields with each other and with zero; nothing bounds
them from above.  `run` feeds them to `Semaphore::new`, which panics beyond
`MAX_PERMITS`, and adds them to the clock, which panics beyond the last instant.
`setUp` is `run` up to its loop with these panics; without one it gives the state
the machine of `Reliar.Dispatcher.Run` starts from.
-/
import Reliar.Core.Clock
import Reliar.Dispatcher.Run

namespace Reliar.Dispatcher

open Reliar.Core Reliar.Outbox

/-! ## Arithmetic that can panic -/

/-- `usize::MAX` of a 64-bit target. -/
def USIZE_MAX : Nat := 2 ^ 64 - 1

/-- `Semaphore::MAX_PERMITS`. -/
def MAX_PERMITS : Nat := USIZE_MAX >>> 3

/-- `Semaphore::new`. -/
def semaphoreNew (permits : Nat) : Option Nat :=
  if permits ≤ MAX_PERMITS then some permits else none

/-- `tokio::time::interval_at`: its first tick is due at `start`. -/
def intervalAt (start : Instant) (period : Duration) : Option Instant :=
  if period = 0 then none else some start

/-- `stats_ticker`: none when the interval is zero. -/
def statsTicker (s : DispatcherSettings) (now : Instant) : Option (Option Instant) :=
  if s.statsInterval = 0 then some none
  else (Core.Instant.add now s.statsInterval).bind fun start =>
    (intervalAt start s.statsInterval).map some

/-- `run` up to its loop. -/
def setUp {E : Type} (s : DispatcherSettings) (now : Instant) : Option (RunState E) := do
  let _ ← semaphoreNew s.maxInFlight
  let leaseStart ← Core.Instant.add now s.leaseTickPeriod
  let leaseDue ← intervalAt leaseStart s.leaseTickPeriod
  let statsDue ← statsTicker s now
  return {
    now := now
    books := Books.empty
    nextPollAt := now
    leaseDue := leaseDue
    statsDue := statsDue
    nextOutcomeRetryAt := now
    exitReason := none
    cancelled := false
    pc := .head }

/-- `next_poll_at` after a claim: the idle interval when it was empty or failed. -/
def nextPoll (s : DispatcherSettings) (idle : Bool) (now : Instant) : Option Instant :=
  Core.Instant.add now (if idle then s.idlePollInterval else s.pollInterval)

/-- `next_outcome_retry_at` after a round of outcome writes. -/
def nextOutcomeRetry (s : DispatcherSettings) (paced : Bool) (now : Instant) : Option Instant :=
  if paced then Core.Instant.add now s.outcomeRetryInterval else some now

/-- `drain_deadline`. -/
def drainDeadline (s : DispatcherSettings) (now : Instant) : Option Instant :=
  Core.Instant.add now s.drainTimeout

/-! ## What starts -/

/-- Nothing `run` computes from its settings and the clock panics at this reading. -/
structure Starts (s : DispatcherSettings) (now : Instant) : Prop where
  setUp : ∀ E : Type, setUp s now = some (RunState.start s now : RunState E)
  poll : ∀ idle, ∃ due, nextPoll s idle now = some due
  outcomeRetry : ∀ paced, ∃ due, nextOutcomeRetry s paced now = some due
  drain : ∃ deadline, drainDeadline s now = some deadline

/-- The settings leave room: for the semaphore, and on the clock up to its reading `horizon`. -/
structure Room (s : DispatcherSettings) (horizon : Instant) : Prop where
  permits : s.maxInFlight ≤ MAX_PERMITS
  lease : horizon + max (s.lease / 2) (Duration.ofMillis 1) ≤ Core.Instant.MAX
  stats : horizon + s.statsInterval ≤ Core.Instant.MAX
  poll : horizon + s.pollInterval ≤ Core.Instant.MAX
  idlePoll : horizon + s.idlePollInterval ≤ Core.Instant.MAX
  drain : horizon + s.drainTimeout ≤ Core.Instant.MAX

section
variable {s : DispatcherSettings} {now : Instant}

theorem leaseTickPeriod_ne_zero (s : DispatcherSettings) : s.leaseTickPeriod ≠ 0 := by
  have hfloor : Duration.ofMillis 1 ≤ s.leaseTickPeriod := Nat.le_max_right _ _
  have hpos : 0 < Duration.ofMillis 1 := by decide
  exact Nat.ne_of_gt (Nat.lt_of_lt_of_le hpos hfloor)

/-- The pause after a failed write is no longer than another addition `run` makes. -/
theorem outcomeRetryInterval_le (s : DispatcherSettings) :
    s.outcomeRetryInterval ≤ max s.pollInterval s.leaseTickPeriod := by
  refine max_le ?_ ?_
  · exact (min_le_left _ _).trans (le_max_left _ _)
  · exact (le_max_right _ _).trans (le_max_right _ _)

theorem intervalAt_some {start : Instant} {period : Duration} (h : period ≠ 0) :
    intervalAt start period = some start := if_neg h

theorem semaphoreNew_eq_some {permits n : Nat} :
    semaphoreNew permits = some n ↔ permits ≤ MAX_PERMITS ∧ n = permits := by
  unfold semaphoreNew
  split
  case isTrue h =>
    rw [Option.some.injEq, eq_comm]
    exact ⟨fun heq => ⟨h, heq⟩, fun heq => heq.2⟩
  case isFalse h =>
    constructor
    · intro heq
      cases heq
    · rintro ⟨hle, -⟩
      exact absurd hle h

theorem statsTicker_some (hstats : now + s.statsInterval ≤ Core.Instant.MAX) :
    statsTicker s now =
      some (if s.statsInterval = 0 then none else some (now + s.statsInterval)) := by
  unfold statsTicker
  split
  case isTrue => rfl
  case isFalse hzero =>
    rw [Core.Instant.add_some hstats, Option.bind_some, intervalAt_some hzero]
    rfl

theorem statsTicker_bound {due : Option Instant} (h : statsTicker s now = some due)
    (hzero : s.statsInterval ≠ 0) : now + s.statsInterval ≤ Core.Instant.MAX := by
  rw [statsTicker, if_neg hzero] at h
  obtain ⟨start, hadd, -⟩ := Option.bind_eq_some_iff.mp h
  exact (Core.Instant.add_eq_some.mp hadd).1

/-- Without a panic `run` starts where its machine does. -/
theorem setUp_start {E : Type} (hpermits : s.maxInFlight ≤ MAX_PERMITS)
    (hlease : now + s.leaseTickPeriod ≤ Core.Instant.MAX)
    (hstats : now + s.statsInterval ≤ Core.Instant.MAX) :
    setUp s now = some (RunState.start s now : RunState E) := by
  have hsemaphore : semaphoreNew s.maxInFlight = some s.maxInFlight :=
    semaphoreNew_eq_some.mpr ⟨hpermits, rfl⟩
  have hticker : intervalAt (now + s.leaseTickPeriod) s.leaseTickPeriod =
      some (now + s.leaseTickPeriod) := intervalAt_some (leaseTickPeriod_ne_zero s)
  simp only [setUp, hsemaphore, Core.Instant.add_some hlease, hticker, statsTicker_some hstats,
    Option.bind_eq_bind, Option.bind_some]
  rfl

theorem setUp_some {E : Type} {state : RunState E} (h : setUp s now = some state) :
    s.maxInFlight ≤ MAX_PERMITS ∧ now + s.leaseTickPeriod ≤ Core.Instant.MAX ∧
      (s.statsInterval ≠ 0 → now + s.statsInterval ≤ Core.Instant.MAX) := by
  simp only [setUp, Option.bind_eq_bind, Option.bind_eq_some_iff] at h
  obtain ⟨_, hsemaphore, leaseStart, hlease, _, -, statsDue, hstats, -⟩ := h
  exact ⟨(semaphoreNew_eq_some.mp hsemaphore).1, (Core.Instant.add_eq_some.mp hlease).1,
    statsTicker_bound hstats⟩

theorem Room.starts {horizon : Instant} (h : Room s horizon) (hnow : now ≤ horizon) :
    Starts s now := by
  have hle : ∀ {d : Duration}, horizon + d ≤ Core.Instant.MAX → now + d ≤ Core.Instant.MAX :=
    fun hd => (Nat.add_le_add_right hnow _).trans hd
  have hlease : now + s.leaseTickPeriod ≤ Core.Instant.MAX := hle h.lease
  refine ⟨fun _ => setUp_start h.permits hlease (hle h.stats), ?_, ?_, ?_⟩
  · rintro (_ | _)
    · exact ⟨_, Core.Instant.add_some (hle h.poll)⟩
    · exact ⟨_, Core.Instant.add_some (hle h.idlePoll)⟩
  · rintro (_ | _)
    · exact ⟨_, rfl⟩
    · refine ⟨_, Core.Instant.add_some ?_⟩
      have hinterval := outcomeRetryInterval_le s
      have hpoll := hle h.poll
      rcases le_total s.pollInterval s.leaseTickPeriod with hmax | hmax
      · rw [max_eq_right hmax] at hinterval
        exact (Nat.add_le_add_left hinterval now).trans hlease
      · rw [max_eq_left hmax] at hinterval
        exact (Nat.add_le_add_left hinterval now).trans hpoll
  · exact ⟨_, Core.Instant.add_some (hle h.drain)⟩

theorem Starts.room (h : Starts s now) : Room s now := by
  obtain ⟨hpermits, hlease, hstats⟩ := setUp_some (h.setUp Unit)
  obtain ⟨_, hpoll⟩ := h.poll false
  obtain ⟨_, hidle⟩ := h.poll true
  obtain ⟨_, hdrain⟩ := h.drain
  have hpoll' := (Core.Instant.add_eq_some.mp hpoll).1
  refine ⟨hpermits, hlease, ?_, hpoll', (Core.Instant.add_eq_some.mp hidle).1,
    (Core.Instant.add_eq_some.mp hdrain).1⟩
  by_cases hzero : s.statsInterval = 0
  · rw [hzero]
    exact (Nat.add_le_add_left (Nat.zero_le _) now).trans hpoll'
  · exact hstats hzero

end

/-- For every settings value the builder accepts, and every latest reading of the clock: `run`
starts, and computes its due times and its drain deadline, at every reading exactly when the
settings leave room. -/
theorem starts_iff {s : DispatcherSettings} {d : OutboxDispatcher} (h : Built s d)
    (horizon : Instant) : (∀ now ≤ horizon, Starts d.settings now) ↔ Room s horizon := by
  rw [h.valid.2]
  constructor
  · intro hstarts
    exact (hstarts horizon (Nat.le_refl _)).room
  · intro hroom now hnow
    exact hroom.starts hnow

/-- The defaults leave room for 292 billion years. -/
theorem starts_default :
    Built .default ⟨.default, sampleWorker, ExponentialBackoff.default.policy⟩ ∧
      ∀ now ≤ Duration.ofSecs (2 ^ 62), Starts .default now := by
  have hbuilt : Built .default ⟨.default, sampleWorker, ExponentialBackoff.default.policy⟩ :=
    ⟨sampleWorker, .inl (build_default sampleWorker)⟩
  refine ⟨hbuilt, (starts_iff hbuilt _).mpr ?_⟩
  exact ⟨by decide, by decide, by decide, by decide, by decide, by decide⟩

/-- One permit too many. -/
def crowded : DispatcherSettings := { DispatcherSettings.default with maxInFlight := 2 ^ 61 }

/-- No polling, as an operator may write it. -/
def unpolled : DispatcherSettings :=
  { DispatcherSettings.default with pollInterval := Duration.ofSecs (2 ^ 64 - 1) }

theorem crowded_built :
    Built crowded ⟨crowded, sampleWorker, ExponentialBackoff.default.policy⟩ :=
  ⟨sampleWorker, .inl (build_of_validateShared sampleWorker rfl (by decide))⟩

theorem unpolled_built :
    Built unpolled ⟨unpolled, sampleWorker, ExponentialBackoff.default.policy⟩ :=
  ⟨sampleWorker, .inl (build_of_validateShared sampleWorker rfl (by decide))⟩

/-- Both are accepted.  The first panics before the loop, the second after the first claim that is
not empty, at whatever time. -/
theorem crowded_unpolled :
    (∃ d, Built crowded d ∧ ∀ now, (setUp d.settings now : Option (RunState Unit)) = none) ∧
      ∃ d, Built unpolled d ∧ ∀ now, nextPoll d.settings false now = none := by
  refine ⟨⟨_, crowded_built, fun now => ?_⟩, ⟨_, unpolled_built, fun now => ?_⟩⟩
  · have hmany : MAX_PERMITS < 2 ^ 61 := by decide
    cases hrun : (setUp crowded now : Option (RunState Unit)) with
    | none => rfl
    | some state => exact absurd (setUp_some hrun).1 (Nat.not_le_of_lt hmany)
  · unfold nextPoll
    refine if_neg (Nat.not_le_of_lt ?_)
    have hlong : Core.Instant.MAX < Duration.ofSecs (2 ^ 64 - 1) := by decide
    exact Nat.lt_of_lt_of_le hlong (Nat.le_add_left _ now)

end Reliar.Dispatcher
