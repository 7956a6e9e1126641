/-
# `Reliar.Store.RetryDelay` — from a retry to the next claim (`reliar-outbox`: `retry.rs`;
`reliar-store-postgres`: `store.rs`, `fail`)

The delay of a retry goes through three hands: the policy caps it at a
`max_delay` nobody validates, multiplies it with a factor that may be near zero,
and `fail` cuts it to whole milliseconds.  A delay of a millisecond keeps the row
from every claim at the same instant (`deferred_of_millis`); what is less does
not.  `retry_deferred_iff` says when every draw gives a millisecond.
-/
import Reliar.Outbox.Backoff
import Reliar.Store.Backlog
import Reliar.Store.Poison
import Reliar.Store.ReplayCalls

namespace Reliar.Store.Postgres

open Reliar.Core Reliar.Outbox

/-- After every `fail` that gives a held row this delay, among whatever other items, the row is not
available yet, and no claim of that instant returns it. -/
structure Deferred (delay : Duration) : Prop where
  millis : 1 ≤ millis delay
  kept : ∀ (worker : WorkerId) (items : List FailedMessage) (mode : Mode) (env : Env)
    (rows rows' : List Row) (reply : Reply), Healthy rows → env.Valid 0 (fail worker items) rows →
      (items.map fun item => item.message.id.uuid).Nodup →
      (Call.fail worker items).run mode env rows = (rows', .ok reply) →
      ∀ item ∈ items, item.outcome = .retry delay →
      ∀ r ∈ rows, r.columns.id = item.message.id.uuid → r.lockedBy = some worker.asStr →
        ∃ r' ∈ rows', r'.sequence = r.sequence ∧ env.now < r'.availableAt ∧
          ∀ (batchSize : Int) (claimer : String) (leaseMs : Int) (choice : Choice),
            choice.Valid env.now rows' (.claim batchSize claimer leaseMs) →
              r'.sequence ∉ choice.targets

section
variable {stmt : Stmt} {now : Timestamp} {choice : Choice} {rows : List Row} {r : Row}

/-- A statement leaves a row that does not qualify. -/
theorem Stmt.onRow_idle (h : stmt.outer now r = false) : stmt.onRow now choice r = .ok (some r) := by
  unfold Stmt.onRow
  split
  · simp only [Stmt.touch, h, Bool.false_eq_true, if_false]
  · rfl

/-- Without a `LIMIT` a row that qualifies is a target. -/
theorem target_of_inner (hvalid : choice.Valid now rows stmt) (hlimit : stmt.limit = none)
    (hr : r ∈ rows) (hinner : stmt.inner now r = true) : r.sequence ∈ choice.targets := by
  have hpick := hvalid.pick
  simp only [Stmt.pick, hlimit, Bool.and_eq_true, List.all_eq_true, Bool.or_eq_true,
    Bool.not_eq_true', List.contains_iff_mem] at hpick
  rcases hpick.2 r hr with hnot | htarget
  · rw [hinner] at hnot
    cases hnot
  · exact htarget

end

section
variable {worker : WorkerId} {items : List FailedMessage} {item : FailedMessage}
  {delay : Duration} {now : Timestamp} {choice : Choice} {rows rows₁ : List Row} {r : Row}

/-- What the retries make of a row: available after the delay in milliseconds, and held by
nobody. -/
theorem failRetry_row (hids : (items.map fun item => item.message.id.uuid).Nodup)
    (hvalid : choice.Valid now rows (.failRetry (retries items) worker.asStr))
    (hrows : (Stmt.failRetry (retries items) worker.asStr).onRows now choice rows = .ok rows₁)
    (hitem : item ∈ items) (houtcome : item.outcome = .retry delay) (hr : r ∈ rows)
    (hid : r.columns.id = item.message.id.uuid) (hlocked : r.lockedBy = some worker.asStr) :
    ∃ r' ∈ rows₁, r'.sequence = r.sequence ∧ r'.lockedBy = none ∧
      r'.availableAt = now + millis delay * 1000000 := by
  obtain ⟨j, hj⟩ := List.getElem?_of_mem (mem_retries.mpr ⟨item, hitem, delay, houtcome, rfl⟩)
  have howned : owned ((retries items).map Prod.fst) worker.asStr r = true := by
    rw [owned, Bool.and_eq_true, decide_eq_true_eq, decide_eq_true_eq, hid]
    exact ⟨List.mem_map.mpr ⟨_, List.mem_of_getElem? hj, rfl⟩, hlocked⟩
  have htarget := target_of_inner hvalid rfl hr howned
  -- the item PostgreSQL joins the row with is the only one for it
  obtain ⟨x, hx, hxid⟩ : ∃ x, (retries items)[choice.item r.sequence]? = some x ∧
      x.1 = r.columns.id := by
    have hpicks := hvalid.item r hr htarget
    simp only [Stmt.picks, beq_iff_eq, Option.map_eq_some_iff] at hpicks
    exact hpicks
  have hdistinct : ((retries items).map Prod.fst).Nodup := by
    rw [retries_ids]
    exact hids.sublist (List.filter_sublist.map _)
  have hsame : x = (item.message.id.uuid, item.error, millis delay) :=
    List.inj_on_of_nodup_map hdistinct (List.mem_of_getElem? hx) (List.mem_of_getElem? hj)
      (hxid.trans hid)
  obtain ⟨o, ho⟩ := (Stmt.onRows_ok.mp hrows).1 r hr
  have hset := Stmt.onRow_inside ho htarget howned
  obtain ⟨attempts, -, hset⟩ := bind_eq_ok hset
  obtain ⟨availableAt, hadd, hset⟩ := bind_eq_ok hset
  cases hset
  refine ⟨_, (Stmt.onRows_mem hrows).mpr ⟨r, hr, ho⟩, rfl, rfl, ?_⟩
  rw [hx, hsame, Option.map_some, Option.getD_some, addMillis] at hadd
  dsimp only at hadd
  split at hadd
  · exact (Except.ok.inj hadd).symm
  · cases hadd

/-- A whole millisecond keeps the row. -/
theorem deferred_of_millis (h : 1 ≤ millis delay) : Deferred delay := by
  refine ⟨h, ?_⟩
  intro worker items mode env rows rows' reply hhealthy hvalid hids hrun item hitem houtcome r hr hid
    hlocked
  have hnonempty : items.isEmpty = false := by
    rw [List.isEmpty_eq_false_iff]
    exact List.ne_nil_of_mem hitem
  obtain ⟨j, hj⟩ := List.getElem?_of_mem (mem_retries.mpr ⟨item, hitem, delay, houtcome, rfl⟩)
  have hretries : (retries items).isEmpty = false := by
    rw [List.isEmpty_eq_false_iff]
    exact List.ne_nil_of_mem (List.mem_of_getElem? hj)
  have hstmts : fail worker items = .failRetry (retries items) worker.asStr ::
      if (deaths items).isEmpty then [] else [.failDead (deaths items) worker.asStr] := by
    rw [fail, hretries]
    rfl
  have hcall : (Call.fail worker items).stmts = fail worker items := by
    rw [Call.stmts, hnonempty]
    rfl
  obtain ⟨counts, hall⟩ := run_ok (by rw [hcall, hstmts]; rfl) hrun
  rw [hcall, hstmts] at hall
  rw [hstmts] at hvalid
  simp only [Env.execAll] at hall
  split at hall
  case h_1 => cases hall
  case h_2 rows₁ count hexec =>
    obtain ⟨hretry, hfails, -⟩ := Env.exec_ok hexec
    obtain ⟨r', hr', hseq, hfree, hat⟩ := failRetry_row hids (hvalid.1 hfails)
      (Stmt.exec_onRows hretry) hitem houtcome hr hid hlocked
    have hhealthy₁ := hhealthy.onRows (Stmt.exec_onRows hretry)
    -- the deaths do not touch a row nobody holds
    have hkept : r' ∈ rows' ∧ Healthy rows' := by
      by_cases hdeaths : (deaths items).isEmpty = true
      · rw [if_pos hdeaths] at hall
        cases hall
        exact ⟨hr', hhealthy₁⟩
      · rw [if_neg hdeaths] at hall
        simp only [Env.execAll] at hall
        split at hall
        case h_1 => cases (Prod.mk.inj hall).2
        case h_2 rows₂ count₂ hexec₂ =>
          cases (Prod.mk.inj hall).1
          have hrows₂ := Stmt.exec_onRows (Env.exec_ok hexec₂).1
          have hidle : (Stmt.failDead (deaths items) worker.asStr).outer env.now r' = false := by
            simp [Stmt.outer, owned, hfree]
          exact ⟨(Stmt.onRows_mem hrows₂).mpr ⟨r', hr', Stmt.onRow_idle hidle⟩,
            hhealthy₁.onRows hrows₂⟩
    have hlater : env.now < r'.availableAt := by
      rw [hat]
      lia
    refine ⟨r', hkept.1, hseq, hlater, ?_⟩
    intro batchSize claimer leaseMs choice hchoice htarget
    have hclaim : claimable env.now r' = true :=
      inner_of_target hkept.2.sequences hchoice hkept.1 htarget
    simp only [claimable, Bool.and_eq_true, decide_eq_true_eq] at hclaim
    exact absurd hclaim.1.1.2 (not_le.mpr hlater)

theorem one_le_millis_iff : 1 ≤ millis delay ↔ 1000000 ≤ delay := by
  have hle : 1 ≤ min delay.asMillis I64_MAX ↔ 1 ≤ delay.asMillis :=
    ⟨fun h => h.trans (Nat.min_le_left _ _), fun h => le_min h (by decide)⟩
  have hdiv : 1 ≤ delay.asMillis ↔ 1000000 ≤ delay := Nat.le_div_iff_mul_le (by decide)
  rw [← hdiv, ← hle, millis]
  exact Int.ofNat_le

end

/-- For every backoff that `validate` accepts and every attempt: a row retried there is kept from the
claims of that instant, whatever factor of `[1 - jitter, 1 + jitter]` is drawn, exactly when the
lowest of them makes a millisecond of the capped delay. -/
theorem retry_deferred_iff (b : ExponentialBackoff) (attempts : Nat)
    (hvalid : b.validate = .ok ()) (hrange : b.InRange) :
    (∀ unit kind delay, 0 ≤ unit → unit ≤ 1 →
      b.tryNext unit attempts kind = some (.retry delay) → Deferred delay) ↔
    (attempts + 1 < b.maxAttempts → (1000000 : ℚ) ≤
      (min (b.base * min (2 ^ attempts) U32_MAX) b.maxDelay : Nat) * (1 - b.jitter) + 1 / 2) := by
  obtain ⟨hjitter, hlt, -, -⟩ := ExponentialBackoff.validate_ok hvalid
  rw [← ExponentialBackoff.capped_eq hrange]
  have hmillis : ∀ factor : ℚ, 1000000 ≤ ExponentialBackoff.mulFactor (b.capped attempts) factor ↔
      (1000000 : ℚ) ≤ (b.capped attempts : Nat) * factor + 1 / 2 := by
    intro factor
    have hpos : 0 < 1000000 := by decide
    exact_mod_cast ExponentialBackoff.le_mulFactor_iff hpos
  constructor
  · intro hall hlast
    obtain ⟨unit, hunit, hone, hfactor⟩ :=
      (ExponentialBackoff.jitterFactor_range hjitter hlt (1 - b.jitter)).mpr
        ⟨le_refl _, by linarith⟩
    by_contra hless
    have hkind : FailureKind.transient ≠ .permanent := fun heq => by cases heq
    have hnext : b.next unit attempts .transient =
        .retry (ExponentialBackoff.mulFactor (b.capped attempts) (1 - b.jitter)) := by
      rw [ExponentialBackoff.next_retry hrange hkind hlast, hfactor]
    have hshort := Nat.lt_of_not_le fun hle => hless ((hmillis (1 - b.jitter)).mp hle)
    have hfits : ExponentialBackoff.mulFactor (b.capped attempts) (1 - b.jitter) ≤ DURATION_MAX :=
      hshort.le.trans (by decide)
    have hkept := hall unit .transient _ hunit hone
      (ExponentialBackoff.tryNext_retry.mpr ⟨hnext, hfits⟩)
    exact absurd (one_le_millis_iff.mp hkept.millis) (Nat.not_le.mpr hshort)
  · intro hlong unit kind delay hunit hone hretry
    obtain ⟨hnext, -⟩ := ExponentialBackoff.tryNext_retry.mp hretry
    have hkind : kind ≠ .permanent := by
      rintro rfl
      rw [ExponentialBackoff.next_permanent] at hnext
      cases hnext
    have hlast : attempts + 1 < b.maxAttempts := by
      by_contra hlast
      rw [ExponentialBackoff.next_exhausted hrange hkind (Nat.le_of_not_lt hlast)] at hnext
      cases hnext
    rw [ExponentialBackoff.next_retry hrange hkind hlast] at hnext
    cases hnext
    have hlow := ((ExponentialBackoff.jitterFactor_range hjitter hlt _).mp
      ⟨unit, hunit, hone, rfl⟩).1
    exact deferred_of_millis (one_le_millis_iff.mpr
      (((hmillis (1 - b.jitter)).mpr (hlong hlast)).trans (ExponentialBackoff.mulFactor_mono hlow)))

/-- The defaults draw no less than 0.8 s; an even draw gives the second. -/
theorem retry_deferred_default :
    ExponentialBackoff.default.tryNext (1 / 2) 0 .transient = some (.retry (Duration.ofSecs 1)) ∧
      Deferred (Duration.ofSecs 1) := by
  have hretry : ExponentialBackoff.default.tryNext (1 / 2) 0 .transient =
      some (.retry (Duration.ofSecs 1)) := by decide +kernel
  have hvalid : ExponentialBackoff.default.validate = .ok () := by
    simp only [ExponentialBackoff.validate, ExponentialBackoff.default]
    norm_num [Duration.ofSecs]
  have hrange : ExponentialBackoff.default.InRange := ⟨by decide, by decide, by decide⟩
  have hlong : (1000000 : ℚ) ≤ (min (ExponentialBackoff.default.base * min (2 ^ 0) U32_MAX)
      ExponentialBackoff.default.maxDelay : Nat) * (1 - ExponentialBackoff.default.jitter) + 1 / 2 := by
    norm_num [ExponentialBackoff.default, Duration.ofSecs, U32_MAX]
  exact ⟨hretry, (retry_deferred_iff .default 0 hvalid hrange).mpr (fun _ => hlong) (1 / 2)
    .transient _ (by norm_num) (by norm_num) hretry⟩

/-- `RETRY_BASE_MS=1`, everything else by default. -/
def hasty : ExponentialBackoff := { ExponentialBackoff.default with base := Duration.ofMillis 1 }

/-- Its lowest draw is 0.8 ms, which `fail` writes as none: the row can be claimed at the instant
it failed. -/
theorem hasty_not_deferred :
    hasty.validate = .ok () ∧ hasty.tryNext 0 0 .transient = some (.retry 800000) ∧
      millis 800000 = 0 ∧ ¬ Deferred 800000 ∧
      ((Call.fail workerW [FailedMessage.new ⟨⟨⟨1⟩⟩, 0⟩ "busy" (.retry 800000)]).run .pool
        (failingAt 1) [heldRow 1 1]).1.map (fun r => (r.availableAt, claimable 5000000 r)) =
          [(5000000, true)] := by
  refine ⟨?_, by decide +kernel, by decide, fun h => ?_, by decide⟩
  · simp only [ExponentialBackoff.validate, hasty, ExponentialBackoff.default]
    norm_num [Duration.ofMillis]
  · exact absurd h.millis (by decide)

end Reliar.Store.Postgres
