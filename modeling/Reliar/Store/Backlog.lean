/-
# `Reliar.Store.Backlog` — claim, gauge and sweep (`reliar-store-postgres`: `store.rs`'s `stats`,
`claim_rows`, `purge_expired_sweep_rows`)

Three statements divide the backlog between them, each with its own wording of
"due" and "expired": the claim takes what may still be published, the sweep buries
what may not, and `stats` counts both.  The claim asks for `expires_at > now()`,
the sweep and the gauge for `expires_at < now()`.  `backlog_partition` says that
nothing else keeps them from dividing the backlog: they do, at every instant that
is no waiting row's `expires_at`.
-/
import Reliar.Store.Serial

namespace Reliar.Store.Postgres

open Reliar.Core Reliar.Outbox

/-! ## The gauge -/

/-- The `FILTER` of `pending` and of `oldest_pending_available_at`, in both branches. -/
def pendingFilter (now : Timestamp) (r : Row) : Bool :=
  r.publishedAt.isNone && r.deadAt.isNone && decide (r.availableAt ≤ now) &&
    (r.lockedUntil.isNone || r.lockedUntil.any fun t => decide (t < now)) &&
    (r.columns.expires.isNone || r.columns.expires.any fun t => decide (now < t))

/-- The `FILTER` of `expired_pending`. -/
def expiredPendingFilter (now : Timestamp) (r : Row) : Bool :=
  r.publishedAt.isNone && r.deadAt.isNone && r.columns.expires.any fun t => decide (t < now)

/-- `stats`: four aggregates over one scan. -/
def stats (now : Timestamp) (rows : List Row) : OutboxStats where
  pending := (rows.filter (pendingFilter now)).length
  dead := (rows.filter fun r => r.deadAt.isSome).length
  expiredPending := (rows.filter (expiredPendingFilter now)).length
  oldestPendingAvailableAt := ((rows.filter (pendingFilter now)).map (·.availableAt)).min?
  asOf := now

/-- The gauge's wording is the claim's. -/
theorem pendingFilter_eq (now : Timestamp) (r : Row) : pendingFilter now r = claimable now r := by
  have hlease : (r.lockedUntil.isNone || r.lockedUntil.any fun t => decide (t < now)) =
      leaseFree now r := by
    cases hl : r.lockedUntil <;> simp [leaseFree, hl]
  cases hx : r.columns.expires with
  | none => simp [pendingFilter, claimable, hlease, hx]
  | some t => simp [pendingFilter, claimable, hlease, hx]

/-! ## Rows that wait -/

/-- Neither published nor dead, due, and without a lease that still runs. -/
def waiting (now : Timestamp) (r : Row) : Bool :=
  r.publishedAt.isNone && r.deadAt.isNone && decide (r.availableAt ≤ now) && leaseFree now r

theorem claimable_of_waiting {now : Timestamp} {r : Row} (h : waiting now r = true) :
    claimable now r = true ↔ ∀ t, r.columns.expires = some t → now < t := by
  simp only [waiting] at h
  cases hx : r.columns.expires <;> simp [claimable, h, hx]

theorem expired_of_waiting {now : Timestamp} {r : Row} (h : waiting now r = true) :
    expiredPendingFilter now r = true ↔ ∃ t, r.columns.expires = some t ∧ t < now := by
  simp only [waiting, Bool.and_eq_true] at h
  cases hx : r.columns.expires <;> simp [expiredPendingFilter, h.1.1.1, h.1.1.2, hx]

theorem sweeps_of_waiting {now : Timestamp} {r : Row} {batchSize : Int} {reason : String}
    (h : waiting now r = true) :
    (Stmt.purgeExpiredSweep batchSize reason).inner now r =
      expiredPendingFilter now r := by
  simp only [waiting, Bool.and_eq_true] at h
  cases hx : r.columns.expires <;>
    simp [Stmt.inner, expired, sweepable, expiredPendingFilter, h.1.1.1, h.1.1.2, h.2, hx]

/-! ## Statements without a limit -/

/-- A limit no smaller than the table leaves no qualifying row out. -/
theorem Choice.Full.all_targets {now : Timestamp} {rows : List Row} {stmt : Stmt} {choice : Choice}
    (h : choice.Full now rows stmt) (hlimit : ∀ n, stmt.limit = some n → (rows.length : Int) ≤ n)
    {r : Row} (hr : r ∈ rows) (hinner : stmt.inner now r = true) :
    r.sequence ∈ choice.targets := by
  by_contra hout
  obtain ⟨⟨n, hn, hle⟩, -⟩ := h.full r hr hinner hout
  have hpick := h.pick
  simp only [Stmt.pick, Bool.and_eq_true, List.all_eq_true, List.any_eq_true, beq_iff_eq,
    decide_eq_true_eq] at hpick
  -- the targets are sequence numbers of other rows
  have hsub : choice.targets ⊆ (rows.map (·.sequence)).filter (· ≠ r.sequence) := by
    intro q hq
    obtain ⟨x, hx, hxq, -⟩ := hpick.1.2 q hq
    refine List.mem_filter.mpr ⟨List.mem_map.mpr ⟨x, hx, hxq⟩, ?_⟩
    simp only [ne_eq, decide_eq_true_eq]
    rintro rfl
    exact hout hq
  have hlength := (List.Nodup.subperm hpick.1.1 hsub).length_le
  have hless : ((rows.map (·.sequence)).filter (· ≠ r.sequence)).length < rows.length := by
    have hmap : (rows.map (·.sequence)).length = rows.length := List.length_map _
    rw [← hmap]
    refine lt_of_le_of_ne (List.length_filter_le _ _) ?_
    intro heq
    have := List.length_filter_eq_length_iff.mp heq r.sequence (List.mem_map.mpr ⟨r, hr, rfl⟩)
    simp at this
  have := hlimit n hn
  omega

/-- The rows a claim takes when its batch is no smaller than the table. -/
theorem claim_targets {now : Timestamp} {rows : List Row} {batchSize : Int} {worker : String}
    {leaseMs : Int} {choice : Choice} (hbatch : (rows.length : Int) ≤ batchSize)
    (h : choice.Full now rows (.claim batchSize worker leaseMs)) {r : Row} (hr : r ∈ rows) :
    (r.sequence ∈ choice.targets ∧
      (Stmt.claim batchSize worker leaseMs).outer now r = true) ↔ pendingFilter now r = true := by
  rw [pendingFilter_eq]
  constructor
  · intro hboth
    exact hboth.2
  · intro hclaim
    exact ⟨h.all_targets (fun n hn => by cases hn; exact hbatch) hr hclaim, hclaim⟩

/-- What an unlimited purge leaves of a row that the sweep takes. -/
def Buried (now : Timestamp) (r : Row) (rows : List Row) : Prop :=
  ∃ r' ∈ rows, r'.sequence = r.sequence ∧ r'.columns = r.columns ∧ r'.deadAt = some now ∧
    r'.deadReason = some (encodeDeadReason .expired)

/-- The sweep comes to a waiting row that is past its expiry. -/
theorem sweep_buries {env : Env} {k : Nat} {batchSize : Int} {rows rows' : List Row} {count : Nat}
    {r : Row} (hfull : (env.choice k).Full env.now rows
      (.purgeExpiredSweep batchSize (encodeDeadReason .expired)))
    (hbatch : (rows.length : Int) ≤ batchSize)
    (hexec : env.exec k (.purgeExpiredSweep batchSize (encodeDeadReason .expired)) rows =
      .ok (rows', count))
    (hr : r ∈ rows) (hwait : waiting env.now r = true)
    (hexpired : expiredPendingFilter env.now r = true) : Buried env.now r rows' := by
  have hinner : (Stmt.purgeExpiredSweep batchSize (encodeDeadReason .expired)).inner env.now r =
      true := (sweeps_of_waiting hwait).trans hexpired
  have htarget := hfull.all_targets (fun n hn => by cases hn; exact hbatch) hr hinner
  have hrows := Stmt.exec_onRows (Env.exec_ok hexec).1
  obtain ⟨o, ho⟩ := (Stmt.onRows_ok.mp hrows).1 r hr
  -- the row is a target and qualifies, so the statement wrote it
  rcases Stmt.onRow_target ho htarget (Stmt.outer_of_inner hinner) with
    ⟨r', rfl, hupdate⟩ | ⟨-, hdelete⟩
  · refine ⟨r', (Stmt.onRows_mem hrows).mpr ⟨r, hr, ho⟩, ?_⟩
    cases hupdate
    exact ⟨rfl, rfl, rfl, rfl⟩
  · cases hdelete

/-- Deletions that do not qualify a row leave it to the sweep that comes last. -/
theorem purge_buries {env : Env} {k : Nat} {before : List Stmt} {batchSize : Int}
    {rows rows' : List Row} {counts : List Nat} {r : Row}
    (hdel : ∀ stmt ∈ before, stmt.deletes = true ∧ stmt.outer env.now r = false)
    (hfull : env.Full k (before ++ [.purgeExpiredSweep batchSize (encodeDeadReason .expired)]) rows)
    (hbatch : (rows.length : Int) ≤ batchSize)
    (hrun : env.execAll k (before ++ [.purgeExpiredSweep batchSize (encodeDeadReason .expired)])
      rows = (rows', .ok counts))
    (hr : r ∈ rows) (hwait : waiting env.now r = true)
    (hexpired : expiredPendingFilter env.now r = true) : Buried env.now r rows' := by
  induction before generalizing k rows counts with
  | nil =>
    simp only [List.nil_append, Env.execAll] at hrun
    split at hrun
    · cases hrun
    · rename_i rows₁ count hexec
      cases hrun
      exact sweep_buries hfull.1 hbatch hexec hr hwait hexpired
  | cons stmt before ih =>
    obtain ⟨hdeletes, houter⟩ := hdel stmt List.mem_cons_self
    simp only [List.cons_append, Env.execAll] at hrun
    split at hrun
    · cases hrun
    · rename_i rows₁ count hexec
      have hrows := Stmt.exec_onRows (Env.exec_ok hexec).1
      rw [Stmt.onRows_deletes hdeletes, Except.ok.injEq] at hrows
      have hmem : r ∈ rows₁ := by
        rw [← hrows, List.mem_filter]
        exact ⟨hr, by simp [houter]⟩
      have hlength := (length_deletes hdeletes hexec).1
      obtain ⟨hfst, hsnd⟩ := Prod.mk.inj hrun
      cases hrest : (env.execAll (k + 1) (before ++
          [.purgeExpiredSweep batchSize (encodeDeadReason .expired)]) rows₁).2 with
      | error err => simp [hrest, Except.map] at hsnd
      | ok rest =>
        refine ih (fun s hs => hdel s (List.mem_cons_of_mem _ hs)) (hfull.2 rows₁ count hexec)
          (by omega) (Prod.ext hfst hrest) hmem

/-! ## The partition -/

/-- The rows a claim locks. -/
def locks (now : Timestamp) (choice : Choice) (claim : Stmt) (r : Row) : Prop :=
  r.sequence ∈ choice.targets ∧ claim.outer now r = true

/-- Counted as pending only, and taken by every claim that is large enough. -/
def Taken (now : Timestamp) (rows : List Row) (r : Row) : Prop :=
  pendingFilter now r = true ∧ expiredPendingFilter now r = false ∧
    ∀ (batchSize : Int) (worker : String) (leaseMs : Int) (choice : Choice),
      (rows.length : Int) ≤ batchSize → choice.Full now rows (.claim batchSize worker leaseMs) →
        locks now choice (.claim batchSize worker leaseMs) r

/-- Counted as expired only, and dead after every purge that is large enough. -/
def Swept (now : Timestamp) (rows : List Row) (r : Row) : Prop :=
  pendingFilter now r = false ∧ expiredPendingFilter now r = true ∧
    ∀ (request : PurgeRequest) (mode : Mode) (env : Env) (rows' : List Row) (reply : Reply),
      rows.length ≤ request.batchSize → env.now = now → env.Full 0 (purge request) rows →
        (Call.purge request).run mode env rows = (rows', .ok reply) → Buried now r rows'

/-- Claim, gauge and sweep agree about a table at an instant. -/
structure Partition (now : Timestamp) (rows : List Row) : Prop where
  pending : ∀ (batchSize : Int) (worker : String) (leaseMs : Int) (choice : Choice),
    (rows.length : Int) ≤ batchSize → choice.Full now rows (.claim batchSize worker leaseMs) →
      (stats now rows).pending = (Stmt.claim batchSize worker leaseMs).affected now choice rows
  oldest : ∀ (batchSize : Int) (worker : String) (leaseMs : Int) (choice : Choice),
    (rows.length : Int) ≤ batchSize → choice.Full now rows (.claim batchSize worker leaseMs) →
      ∀ t, (stats now rows).oldestPendingAvailableAt = some t ↔
        IsLeast {t | ∃ r ∈ rows, locks now choice (.claim batchSize worker leaseMs) r ∧
          r.availableAt = t} t
  divided : ∀ r ∈ rows, waiting now r = true → Taken now rows r ∨ Swept now rows r

/-- A call that returns has run its statements, and kept what they wrote. -/
theorem run_ok {call : Call} (hne : call.stmts.isEmpty = false) {mode : Mode} {env : Env}
    {rows rows' : List Row} {reply : Reply} (h : call.run mode env rows = (rows', .ok reply)) :
    ∃ counts, env.execAll 0 call.stmts rows = (rows', .ok counts) := by
  cases hres : (env.execAll 0 call.stmts rows).2 with
  | error err =>
    cases mode with
    | pool => simp [Call.run, hres] at h
    | transaction fault => cases fault <;> simp [Call.run, hres] at h
  | ok counts =>
    refine ⟨counts, Prod.ext ?_ hres⟩
    cases mode with
    | pool =>
      simp only [Call.run, hres, Prod.mk.injEq] at h
      exact h.1
    | transaction fault =>
      cases fault with
      | false =>
        simp only [Call.run, hres, Prod.mk.injEq] at h
        exact h.1
      | true => simp [Call.run, hres, hne] at h

theorem purge_run {request : PurgeRequest} {mode : Mode} {env : Env} {rows rows' : List Row}
    {reply : Reply} (h : (Call.purge request).run mode env rows = (rows', .ok reply)) :
    ∃ counts, env.execAll 0 (purge request) rows = (rows', .ok counts) :=
  run_ok (by simp [Call.stmts, purge]) h

/-- A waiting row past its expiry is swept. -/
theorem swept_of_expired {now : Timestamp} {rows : List Row} {r : Row} (hr : r ∈ rows)
    (hwait : waiting now r = true) (hexpired : expiredPendingFilter now r = true)
    (hpending : pendingFilter now r = false) : Swept now rows r := by
  refine ⟨hpending, hexpired, ?_⟩
  rintro request mode env rows' reply hbatch rfl hfull hrun
  obtain ⟨counts, hall⟩ := purge_run hrun
  -- a waiting row is neither published nor dead, so the two deletions pass it by
  have hlive : r.publishedAt = none ∧ r.deadAt = none := by
    simp only [waiting, Bool.and_eq_true, Option.isNone_iff_eq_none] at hwait
    exact hwait.1.1
  refine purge_buries ?_ hfull (by exact_mod_cast hbatch) hall hr hwait hexpired
  intro stmt hstmt
  simp only [List.mem_append, Option.mem_toList, Option.map_eq_some_iff] at hstmt
  rcases hstmt with ⟨d, -, rfl⟩ | ⟨d, -, rfl⟩
  · exact ⟨rfl, by simp [Stmt.outer, olderThan, hlive]⟩
  · exact ⟨rfl, by simp [Stmt.outer, olderThan, hlive]⟩

/-- For every table and every instant: claim, gauge and sweep divide the backlog between them
exactly when the instant is no waiting row's `expires_at`. -/
theorem backlog_partition (now : Timestamp) (rows : List Row) :
    Partition now rows ↔
      ∀ r ∈ rows, waiting now r = true → r.columns.expires ≠ some now := by
  constructor
  · intro h r hr hwait hexpires
    rcases h.divided r hr hwait with ⟨hpending, -, -⟩ | ⟨-, hexpired, -⟩
    · rw [pendingFilter_eq] at hpending
      exact lt_irrefl now ((claimable_of_waiting hwait).mp hpending now hexpires)
    · obtain ⟨t, ht, hlt⟩ := (expired_of_waiting hwait).mp hexpired
      rw [hexpires] at ht
      cases ht
      exact lt_irrefl now hlt
  · intro hboundary
    refine ⟨?_, ?_, ?_⟩
    · intro batchSize worker leaseMs choice hbatch hfull
      refine congrArg List.length (List.filter_congr fun r hr => ?_)
      rw [Bool.eq_iff_iff, ← claim_targets hbatch hfull hr, Bool.and_eq_true, decide_eq_true_eq]
    · intro batchSize worker leaseMs choice hbatch hfull t
      have hset : ∀ t', t' ∈ (rows.filter (pendingFilter now)).map (·.availableAt) ↔
          ∃ r ∈ rows, locks now choice (.claim batchSize worker leaseMs) r ∧
            r.availableAt = t' := by
        intro t'
        simp only [List.mem_map, List.mem_filter]
        constructor
        · rintro ⟨r, ⟨hr, hp⟩, rfl⟩
          exact ⟨r, hr, (claim_targets hbatch hfull hr).mpr hp, rfl⟩
        · rintro ⟨r, hr, hlock, rfl⟩
          exact ⟨r, ⟨hr, (claim_targets hbatch hfull hr).mp hlock⟩, rfl⟩
      simp only [stats, List.min?_eq_some_iff, hset]
      exact ⟨fun h => ⟨h.1, fun b hb => h.2 b hb⟩, fun h => ⟨h.1, fun b hb => h.2 hb⟩⟩
    · intro r hr hwait
      by_cases hclaim : claimable now r = true
      · refine .inl ⟨(pendingFilter_eq now r).trans hclaim, ?_, ?_⟩
        · rw [Bool.eq_false_iff]
          intro hexpired
          obtain ⟨t, ht, hlt⟩ := (expired_of_waiting hwait).mp hexpired
          exact lt_asymm hlt ((claimable_of_waiting hwait).mp hclaim t ht)
        · intro batchSize worker leaseMs choice hbatch hfull
          exact (claim_targets hbatch hfull hr).mpr ((pendingFilter_eq now r).trans hclaim)
      · refine .inr (swept_of_expired hr hwait ?_ ?_)
        · rw [claimable_of_waiting hwait] at hclaim
          obtain ⟨t, ht, hle⟩ := by simpa using hclaim
          have hne : t ≠ now := fun heq => hboundary r hr hwait (heq ▸ ht)
          exact (expired_of_waiting hwait).mpr ⟨t, ht, lt_of_le_of_ne hle hne⟩
        · rw [pendingFilter_eq]
          simpa using hclaim

/-- A pending row that expires at the given instant. -/
def expiringRow (sequence : Int) (expires : Timestamp)
    (h : OffsetDateTime.MIN_NANOS ≤ expires + 0 * 1000000000 ∧
      expires + 0 * 1000000000 ≤ OffsetDateTime.MAX_NANOS) : Row :=
  let delivery : DeliveryMetadata :=
    ⟨ContentType.JSON, none, some ⟨expires, 0, OffsetDateTime.zero_offset, h⟩, none⟩
  let envelope : SerializedEnvelope :=
    ⟨⟨⟨13⟩⟩, MessageType.fromParts "order.placed" 1, [],
      { Metadata.default with delivery := delivery }, none⟩
  Row.inserted (stage envelope) sequence 0

/-- At the very instant of its `expires_at` a waiting row is neither claimed, nor counted, nor
swept. -/
theorem backlog_boundary :
    waiting 50 (expiringRow 1 50 (by decide)) = true ∧
      claimable 50 (expiringRow 1 50 (by decide)) = false ∧
      stats 50 [expiringRow 1 50 (by decide)] = ⟨0, 0, 0, none, 50⟩ ∧
      (Stmt.purgeExpiredSweep 1000 (encodeDeadReason .expired)).inner 50
        (expiringRow 1 50 (by decide)) = false ∧
      ¬ Partition 50 [expiringRow 1 50 (by decide)] := by
  refine ⟨by decide, by decide, by decide, by decide, ?_⟩
  intro h
  rcases h.divided _ List.mem_cons_self (by decide) with ⟨hpending, -⟩ | ⟨-, hexpired, -⟩
  · exact absurd hpending (by decide)
  · exact absurd hexpired (by decide)

/-- One instant later and one instant earlier the two rows are told apart. -/
theorem backlog_partition_apart :
    Partition 50 [expiringRow 1 49 (by decide), expiringRow 2 51 (by decide)] := by
  refine (backlog_partition 50 [expiringRow 1 49 (by decide), expiringRow 2 51 (by decide)]).mpr ?_
  intro r hr _
  simp only [List.mem_cons, List.not_mem_nil, or_false] at hr
  rcases hr with rfl | rfl
  · decide
  · decide

end Reliar.Store.Postgres
