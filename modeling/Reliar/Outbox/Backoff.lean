/-
# `Reliar.Outbox.Backoff` — the delay of a retry (`reliar-outbox`: `retry.rs`)

`next` chains saturating operations of three widths: `attempts + 1` and
`2^attempts` in `u32`, the product in `Duration`.  The sum does no harm, since
`max_attempts` is a `u32` itself.  The power does: from the 32nd attempt on it
stands still at `u32::MAX`, and with it every delay whose `base` times that has
not reached the cap.

`mul_f64` panics on a product that no `Duration` holds; `tryNext` says where.
-/
import Reliar.Outbox.Settings

namespace Reliar.Outbox

open Reliar.Core

/-! ## Saturating arithmetic -/

/-- A saturating sum compares like the sum with what does not exceed the bound. -/
theorem le_min_iff_of_le {m n bound : Nat} (h : m ≤ bound) : m ≤ min n bound ↔ m ≤ n :=
  ⟨fun hle => hle.trans (Nat.min_le_left _ _), fun hle => le_min hle h⟩

namespace ExponentialBackoff

/-! ## Jitter -/

section
variable {jitter unit : ℚ}

/-- The clamps do nothing to a jitter that passed `validate`. -/
theorem jitterFactor_eq (hjitter : 0 ≤ jitter) (hlt : jitter < 1) (hunit : 0 ≤ unit) :
    jitterFactor jitter unit = 1 + jitter * (2 * unit - 1) := by
  have hclamp : min (max jitter 0) 1 = jitter := by
    rw [max_eq_left hjitter, min_eq_left hlt.le]
  unfold jitterFactor
  simp only [hclamp]
  by_cases hzero : jitter ≤ 0
  · have hnone : jitter = 0 := le_antisymm hzero hjitter
    rw [if_pos hzero, hnone, zero_mul, add_zero]
  · rw [if_neg hzero]
    refine max_eq_left ?_
    nlinarith [mul_nonneg hjitter hunit]

/-- The factors that can be drawn are those of `[1 - jitter, 1 + jitter]`. -/
theorem jitterFactor_range (hjitter : 0 ≤ jitter) (hlt : jitter < 1) (factor : ℚ) :
    (∃ unit, 0 ≤ unit ∧ unit ≤ 1 ∧ jitterFactor jitter unit = factor) ↔
      1 - jitter ≤ factor ∧ factor ≤ 1 + jitter := by
  constructor
  · rintro ⟨unit, hunit, hone, rfl⟩
    rw [jitterFactor_eq hjitter hlt hunit]
    exact ⟨by nlinarith [mul_nonneg hjitter hunit], by nlinarith [mul_nonneg hjitter (sub_nonneg.mpr hone)]⟩
  · rintro ⟨hlow, hhigh⟩
    by_cases hzero : jitter = 0
    · refine ⟨0, le_refl 0, zero_le_one, ?_⟩
      rw [jitterFactor_eq hjitter hlt (le_refl 0), hzero]
      rw [hzero] at hlow hhigh
      linarith
    · have hpos : 0 < jitter := lt_of_le_of_ne hjitter (Ne.symm hzero)
      have hunit : 0 ≤ ((factor - 1) / jitter + 1) / 2 := by
        have hge : -1 ≤ (factor - 1) / jitter := by
          rw [le_div_iff₀ hpos]
          linarith
        linarith
      have hone : ((factor - 1) / jitter + 1) / 2 ≤ 1 := by
        have hle : (factor - 1) / jitter ≤ 1 := by
          rw [div_le_iff₀ hpos]
          linarith
        linarith
      refine ⟨_, hunit, hone, ?_⟩
      rw [jitterFactor_eq hjitter hlt hunit]
      field_simp
      ring

end

theorem le_mulFactor_iff {d n : Nat} {factor : ℚ} (hn : 0 < n) :
    n ≤ mulFactor d factor ↔ (n : ℚ) ≤ d * factor + 1 / 2 := by
  have hfloor : ((n : Int) ≤ ((d : ℚ) * factor + 1 / 2).floor) ↔ (n : ℚ) ≤ d * factor + 1 / 2 := by
    rw [Rat.le_floor_iff]
    push_cast
    exact Iff.rfl
  rw [← hfloor, mulFactor]
  omega

theorem mulFactor_mono {d : Duration} {factor factor' : ℚ} (h : factor ≤ factor') :
    mulFactor d factor ≤ mulFactor d factor' := by
  refine Int.toNat_le_toNat (Rat.floor_monotone ?_)
  have hmul : (d : ℚ) * factor ≤ d * factor' := mul_le_mul_of_nonneg_left h (Nat.cast_nonneg d)
  linarith

/-! ## The decision -/

/-- The ranges of the source's types. -/
structure InRange (b : ExponentialBackoff) : Prop where
  base : b.base ≤ DURATION_MAX
  maxDelay : b.maxDelay ≤ DURATION_MAX
  maxAttempts : b.maxAttempts ≤ U32_MAX

/-- `next`, which panics where `mul_f64` does. -/
def tryNext (b : ExponentialBackoff) (unit : ℚ) (attempts : Nat) (kind : FailureKind) :
    Option FailureOutcome :=
  match b.next unit attempts kind with
  | .dead reason => some (.dead reason)
  | .retry delay => if delay ≤ DURATION_MAX then some (.retry delay) else none

section
variable {b : ExponentialBackoff} {unit : ℚ} {attempts : Nat} {kind : FailureKind}

theorem validate_ok (h : b.validate = .ok ()) :
    0 ≤ b.jitter ∧ b.jitter < 1 ∧ 0 < b.maxAttempts ∧ 0 < b.base := by
  unfold ExponentialBackoff.validate at h
  split at h
  · cases h
  · rename_i hjitter
    split at h
    · cases h
    · split at h
      · cases h
      · rw [not_not] at hjitter
        exact ⟨hjitter.1, hjitter.2, Nat.pos_of_ne_zero ‹_›, Nat.pos_of_ne_zero ‹_›⟩

theorem next_permanent : b.next unit attempts .permanent = .dead .permanentError := if_pos rfl

theorem next_exhausted (hrange : b.InRange) (hkind : kind ≠ .permanent)
    (h : b.maxAttempts ≤ attempts + 1) : b.next unit attempts kind = .dead .attemptsExhausted := by
  rw [next, if_neg hkind, if_pos ((le_min_iff_of_le hrange.maxAttempts).mpr h)]

theorem next_retry (hrange : b.InRange) (hkind : kind ≠ .permanent)
    (h : attempts + 1 < b.maxAttempts) : b.next unit attempts kind =
      .retry (mulFactor (b.capped attempts) (jitterFactor b.jitter unit)) := by
  rw [next, if_neg hkind, if_neg]
  rw [le_min_iff_of_le hrange.maxAttempts]
  exact Nat.not_le.mpr h

/-- The cap hides a product that saturated as a `Duration`, not a power that saturated as a
`u32`. -/
theorem capped_eq (hrange : b.InRange) :
    b.capped attempts = min (b.base * min (2 ^ attempts) U32_MAX) b.maxDelay := by
  unfold capped
  rw [Nat.min_assoc, Nat.min_eq_right hrange.maxDelay]

theorem tryNext_retry {delay : Duration} :
    b.tryNext unit attempts kind = some (.retry delay) ↔
      b.next unit attempts kind = .retry delay ∧ delay ≤ DURATION_MAX := by
  unfold tryNext
  cases hnext : b.next unit attempts kind with
  | dead reason => simp
  | retry delay' =>
      by_cases hle : delay' ≤ DURATION_MAX
      · simp only [if_pos hle, Option.some.injEq, FailureOutcome.retry.injEq]
        constructor
        · rintro rfl
          exact ⟨rfl, hle⟩
        · exact fun h => h.1
      · simp only [if_neg hle, reduceCtorEq, FailureOutcome.retry.injEq, false_iff]
        rintro ⟨rfl, hle'⟩
        exact hle hle'

end

end ExponentialBackoff

end Reliar.Outbox
