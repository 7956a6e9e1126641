/-
# `Reliar.Outbox.Settings` — dispatcher configuration (`reliar-outbox`: `settings.rs`,
`error.rs`, `ordering.rs`, and the builder half of `dispatcher.rs`)

`validateShared` is translated check by check, in the source's order; the two
`tracing::warn!`s at its end do not decide anything and are left out.  `build`
is the path with the default retry policy, `buildWith` the one with a custom
policy.
-/
import Reliar.Outbox.Retry

namespace Reliar.Outbox

open Reliar.Core

inductive ConfigError
  | zeroInFlight
  | zeroBatchSize
  | zeroPollInterval (field : String)
  | storeTimeoutTooLong (storeTimeout lease : Duration)
  | leaseTooShort (lease publishTimeout : Duration)
  | unsupportedOrdering (ordering : Ordering) (availableIn : String)
  | invalidJitter (value : ℚ)
  | zeroMaxAttempts
  | zeroRetryBase
  | retryPolicyConflict
  deriving DecidableEq

def Ordering.validate : Ordering → Except ConfigError Unit
  | .unordered => .ok ()
  | .perKey => .error (.unsupportedOrdering .perKey "0.2")

def ExponentialBackoff.validate (b : ExponentialBackoff) : Except ConfigError Unit :=
  if ¬ (0 ≤ b.jitter ∧ b.jitter < 1) then .error (.invalidJitter b.jitter)
  else if b.maxAttempts = 0 then .error .zeroMaxAttempts
  else if b.base = 0 then .error .zeroRetryBase
  else .ok ()

structure DispatcherSettings where
  batchSize : Nat
  lease : Duration
  maxInFlight : Nat
  publishTimeout : Duration
  pollInterval : Duration
  idlePollInterval : Duration
  drainTimeout : Duration
  storeTimeout : Duration
  statsInterval : Duration
  ordering : Ordering
  retry : ExponentialBackoff
  workerId : Option WorkerId
  deriving DecidableEq

namespace DispatcherSettings

def default : DispatcherSettings where
  batchSize := 100
  lease := Duration.ofSecs 30
  maxInFlight := 16
  publishTimeout := Duration.ofSecs 10
  pollInterval := Duration.ofMillis 500
  idlePollInterval := Duration.ofSecs 5
  drainTimeout := Duration.ofSecs 30
  storeTimeout := Duration.ofSecs 10
  statsInterval := Duration.ofSecs 15
  ordering := .unordered
  retry := ExponentialBackoff.default
  workerId := none

/-- Half a lease, floored at a millisecond: the period of the renewal ticker. -/
def leaseTickPeriod (s : DispatcherSettings) : Duration := max (s.lease / 2) (Duration.ofMillis 1)

/-- The pause after a failed outcome write. -/
def outcomeRetryInterval (s : DispatcherSettings) : Duration :=
  max (min s.pollInterval (s.lease / 4)) (Duration.ofMillis 1)

end DispatcherSettings

/-- The validation shared by both `build()` paths. -/
def validateShared (s : DispatcherSettings) : Except ConfigError Unit :=
  if s.maxInFlight = 0 then .error .zeroInFlight
  else if s.batchSize = 0 then .error .zeroBatchSize
  else if s.pollInterval = 0 then .error (.zeroPollInterval "poll_interval")
  else if s.idlePollInterval = 0 then .error (.zeroPollInterval "idle_poll_interval")
  else
    match s.ordering.validate with
    | .error e => .error e
    | .ok () =>
        if s.lease ≤ s.publishTimeout then .error (.leaseTooShort s.lease s.publishTimeout)
        else if s.lease / 2 ≤ s.storeTimeout then
          .error (.storeTimeoutTooLong s.storeTimeout s.lease)
        else .ok ()

/-- A built dispatcher: what `run` reads besides the store, the publisher and the metrics. -/
structure OutboxDispatcher where
  settings : DispatcherSettings
  worker : WorkerId
  retry : RetryPolicy

/-- `build` with the policy from `settings.retry`; `fresh` is the id `WorkerId::default()` would
generate. -/
def build (s : DispatcherSettings) (fresh : WorkerId) : Except ConfigError OutboxDispatcher :=
  match validateShared s with
  | .error e => .error e
  | .ok () =>
      match s.retry.validate with
      | .error e => .error e
      | .ok () => .ok ⟨s, s.workerId.getD fresh, s.retry.policy⟩

/-- `build` with a custom policy; `backoff` is the policy itself when it happens to be an
`ExponentialBackoff` (the source's `downcast_ref`). -/
def buildWith (s : DispatcherSettings) (fresh : WorkerId) (policy : RetryPolicy)
    (backoff : Option ExponentialBackoff) : Except ConfigError OutboxDispatcher :=
  match validateShared s with
  | .error e => .error e
  | .ok () =>
      if s.retry ≠ ExponentialBackoff.default then .error .retryPolicyConflict
      else
        match backoff.elim (.ok ()) ExponentialBackoff.validate with
        | .error e => .error e
        | .ok () => .ok ⟨s, s.workerId.getD fresh, policy⟩

/-- Every configuration `build` accepts passed the shared validation and kept its settings. -/
theorem build_ok {s : DispatcherSettings} {fresh : WorkerId} {d : OutboxDispatcher}
    (h : build s fresh = .ok d) :
    validateShared s = .ok () ∧ d.settings = s ∧ d.retry = s.retry.policy := by
  unfold build at h
  split at h
  · cases h
  · rename_i hv
    split at h
    · cases h
    · cases h; exact ⟨hv, rfl, rfl⟩

theorem buildWith_ok {s : DispatcherSettings} {fresh : WorkerId} {policy : RetryPolicy}
    {backoff : Option ExponentialBackoff} {d : OutboxDispatcher}
    (h : buildWith s fresh policy backoff = .ok d) :
    validateShared s = .ok () ∧ d.settings = s := by
  unfold buildWith at h
  split at h
  · cases h
  · rename_i hv
    split at h
    · cases h
    · split at h
      · cases h
      · cases h
        exact ⟨hv, rfl⟩

theorem ExponentialBackoff.validate_default : ExponentialBackoff.default.validate = .ok () := by
  simp only [ExponentialBackoff.validate, ExponentialBackoff.default]
  norm_num [Duration.ofSecs]

/-- With the default policy, the shared validation decides. -/
theorem build_of_validateShared {s : DispatcherSettings} (fresh : WorkerId)
    (hretry : s.retry = .default) (hv : validateShared s = .ok ()) :
    build s fresh = .ok ⟨s, s.workerId.getD fresh, ExponentialBackoff.default.policy⟩ := by
  simp only [build, hv]
  rw [hretry, ExponentialBackoff.validate_default]

/-- The defaults pass every check. -/
theorem build_default (fresh : WorkerId) :
    build .default fresh = .ok ⟨.default, fresh, ExponentialBackoff.default.policy⟩ :=
  build_of_validateShared fresh rfl (by decide)

end Reliar.Outbox
