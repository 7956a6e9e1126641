/-
# `Reliar.Outbox.Retry` — retry decisions (`reliar-outbox`: `retry.rs`)

`ExponentialBackoff.next` is the house policy.  Its only impurity is the jitter
draw: `unit` is the fraction in `[0, 1]` the source takes from a fresh hasher.
The `f64` jitter is taken as the exact rational it denotes, and the product
with the capped delay is rounded to the nearest nanosecond.

What the dispatcher's correctness needs from the policy is `next_dead`: the two
reasons it ever gives, and exactly when.
-/
import Reliar.Outbox.Types

namespace Reliar.Outbox

open Reliar.Core

def U32_MAX : Nat := 2 ^ 32 - 1

/-- `Duration::MAX`, in nanoseconds. -/
def DURATION_MAX : Nat := (2 ^ 64 - 1) * 1000000000 + 999999999

/-- `RetryPolicy::next`, with the policy's source of randomness as an argument. -/
structure RetryPolicy where
  next : (unit : ℚ) → (attempts : Nat) → FailureKind → FailureOutcome

/-- Exponential backoff with a cap, a jittered delay and a bounded number of attempts. -/
structure ExponentialBackoff where
  base : Duration
  maxDelay : Duration
  maxAttempts : Nat
  jitter : ℚ
  deriving DecidableEq

namespace ExponentialBackoff

def default : ExponentialBackoff where
  base := Duration.ofSecs 1
  maxDelay := Duration.ofSecs (5 * 60)
  maxAttempts := 10
  jitter := 1 / 5

/-- A factor in `[1 - jitter, 1 + jitter]`. -/
def jitterFactor (jitter unit : ℚ) : ℚ :=
  let jitter := min (max jitter 0) 1
  if jitter ≤ 0 then 1 else max (1 + jitter * (2 * unit - 1)) 0

/-- The delay before jitter: `2u32.saturating_pow`, `Duration::saturating_mul`, then the cap. -/
def capped (b : ExponentialBackoff) (attempts : Nat) : Duration :=
  let exponent := min (2 ^ attempts) U32_MAX
  let uncapped := min (b.base * exponent) DURATION_MAX
  min uncapped b.maxDelay

/-- `Duration::mul_f64`. -/
def mulFactor (d : Duration) (factor : ℚ) : Duration := ((d : ℚ) * factor + 1 / 2).floor.toNat

def next (b : ExponentialBackoff) (unit : ℚ) (attempts : Nat) (kind : FailureKind) :
    FailureOutcome :=
  if kind = .permanent then .dead .permanentError
  else if b.maxAttempts ≤ min (attempts + 1) U32_MAX then .dead .attemptsExhausted
  else .retry (mulFactor (b.capped attempts) (jitterFactor b.jitter unit))

def policy (b : ExponentialBackoff) : RetryPolicy := ⟨b.next⟩

/-- The policy gives two reasons only: never `Expired`, never `Undecodable`. -/
theorem next_dead {b : ExponentialBackoff} {unit : ℚ} {attempts : Nat} {kind : FailureKind}
    {reason : DeadReason} (h : b.next unit attempts kind = .dead reason) :
    reason = .permanentError ∨ reason = .attemptsExhausted := by
  unfold next at h
  split at h
  · cases h; exact .inl rfl
  · split at h
    · cases h; exact .inr rfl
    · cases h

/-- The verdict does not depend on the jitter draw, only the delay does. -/
theorem next_dead_unit {b : ExponentialBackoff} {unit unit' : ℚ} {attempts : Nat}
    {kind : FailureKind} {reason : DeadReason} (h : b.next unit attempts kind = .dead reason) :
    b.next unit' attempts kind = .dead reason := by
  unfold next at h ⊢
  split at h
  · rename_i hk; rw [if_pos hk]; exact h
  · rename_i hk
    rw [if_neg hk]
    split at h
    · rename_i hm; rw [if_pos hm]; exact h
    · cases h

end ExponentialBackoff

end Reliar.Outbox
