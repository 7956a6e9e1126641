/-
# `Reliar.Core.Clock` — instants of the monotonic clock

tokio's `Instant` is `std`'s: seconds in an `i64` and the nanoseconds within one.
Adding a `Duration`, whose seconds are a `u64`, panics where the sum is no
instant.
-/
import Reliar.Core.Envelope

namespace Reliar.Core

/-- A `tokio::time::Instant`, in nanoseconds since the clock's start. -/
abbrev Instant := Nat

/-- The last instant there is: `std` holds an `i64` of seconds and the nanoseconds within one. -/
def Instant.MAX : Instant := 2 ^ 63 * 1000000000 - 1

/-- `Instant + Duration`, which panics on overflow. -/
def Instant.add (t : Instant) (d : Duration) : Option Instant :=
  if t + d ≤ Instant.MAX then some (t + d) else none

theorem Instant.add_some {t : Instant} {d : Duration} (h : t + d ≤ Instant.MAX) :
    Instant.add t d = some (t + d) := if_pos h

theorem Instant.add_eq_some {t t' : Instant} {d : Duration} :
    Instant.add t d = some t' ↔ t + d ≤ Instant.MAX ∧ t' = t + d := by
  unfold Instant.add
  split
  case isTrue h =>
    rw [Option.some.injEq, eq_comm]
    exact ⟨fun heq => ⟨h, heq⟩, fun heq => heq.2⟩
  case isFalse h =>
    constructor
    · intro heq
      cases heq
    · rintro ⟨hle, -⟩
      exact absurd hle h

end Reliar.Core
