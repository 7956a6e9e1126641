/-
# `Reliar.Store.Writes` — what a call does to a row
(`reliar-store-postgres`: `store.rs`)

The calls fall into four kinds.  `complete` and `fail` count an attempt and end
the lease, on rows the worker holds (`Counted`); an `acquire` gives leases
(`acquired_rows`); `retry_dead` starts a row over (`Revived`); the others count
nothing and give no lease (`Quiet`).  Nothing is assumed of PostgreSQL's choices
here, and a call may fail in the middle.
-/
import Reliar.Store.Poison
import Reliar.Store.Mirror
import Reliar.Store.Lease

namespace Reliar.Store

open Reliar.Core Reliar.Outbox Relation

def Row.messageRef (r : Row) : MessageRef := ⟨⟨r.columns.id⟩, r.createdAt⟩

namespace Postgres

/-- No attempt is counted, and no lease is given. -/
structure Quiet (r r' : Row) : Prop where
  ref : r'.messageRef = r.messageRef
  attempts : r'.attempts = r.attempts
  lock : r'.lockedBy = r.lockedBy ∨ r'.lockedBy = none
  dead : r.deadAt.isSome = true → r'.deadAt.isSome = true

/-- An outcome of the lease's holder is recorded: one attempt more, and the lease is over. -/
structure Counted (ids : List Uuid) (worker : String) (r r' : Row) : Prop where
  owned : owned ids worker r = true
  ref : r'.messageRef = r.messageRef
  attempts : r'.attempts = r.attempts + 1
  lock : r'.lockedBy = none

/-- A dead row starts over. -/
structure Revived (r r' : Row) : Prop where
  dead : r.deadAt.isSome = true
  alive : r'.deadAt = none
  ref : r'.messageRef = r.messageRef
  attempts : r'.attempts = 0
  lock : r'.lockedBy = none

section
variable {now : Timestamp} {r r' r'' : Row} {stmt : Stmt}

theorem Quiet.refl (r : Row) : Quiet r r := ⟨rfl, rfl, .inl rfl, id⟩

theorem Quiet.trans (h : Quiet r r') (h' : Quiet r' r'') : Quiet r r'' where
  ref := h'.ref.trans h.ref
  attempts := h'.attempts.trans h.attempts
  lock := by
    rcases h'.lock with heq | hnone
    · rw [heq]
      exact h.lock
    · exact .inr hnone
  dead hr := h'.dead (h.dead hr)

/-- A lease that is there after a quiet write was there before. -/
theorem Quiet.locked (h : Quiet r r') {worker : String} (hl : r'.lockedBy = some worker) :
    r.lockedBy = some worker := by
  rcases h.lock with heq | hnone
  · rw [← heq]
    exact hl
  · rw [hnone] at hl
    cases hl

/-- The statements that neither count, nor lease, nor revive. -/
def Stmt.quiet : Stmt → Bool
  | .claim .. | .complete .. | .failRetry .. | .failDead .. | .retryDead _ => false
  | _ => true

theorem Update.toQuiet (hu : Update now r stmt r') (h : stmt.quiet = true) : Quiet r r' := by
  cases hu with
  | claim | complete | failRetry | failDead | retryDead => cases h
  | poisonSweep | sweep => exact ⟨rfl, rfl, .inr rfl, fun _ => rfl⟩
  | release => exact ⟨rfl, rfl, .inr rfl, id⟩
  | extendLease => exact ⟨rfl, rfl, .inl rfl, id⟩

/-- The messages an outcome statement names, and its worker. -/
def Stmt.records : Stmt → Option (List Uuid × String)
  | .complete ids worker => some (ids, worker)
  | .failRetry items worker => some (items.map Prod.fst, worker)
  | .failDead items worker => some (items.map Prod.fst, worker)
  | _ => none

theorem Update.toCounted (hu : Update now r stmt r') {ids : List Uuid} {worker : String}
    (h : stmt.records = some (ids, worker)) : Counted ids worker r r' := by
  cases hu with
  | complete howned | failRetry howned | failDead howned =>
      cases h
      exact ⟨howned, rfl, rfl, rfl⟩
  | _ => cases h

theorem Update.toRevived {ids : List Uuid} (hu : Update now r (.retryDead ids) r') :
    Revived r r' := by
  cases hu with
  | retryDead _ hdead => exact ⟨hdead, rfl, rfl, rfl, rfl⟩

end

/-! ## A call, row by row -/

section
variable {env : Env} {k : Nat} {stmt : Stmt} {stmts : List Stmt} {rows rows' : List Row}
  {count : Nat} {r' : Row}

theorem exec_row (h : env.exec k stmt rows = .ok (rows', count)) (hr' : r' ∈ rows') :
    ∃ r ∈ rows, r' = r ∨ Update env.now r stmt r' := by
  obtain ⟨r, hr, hrow⟩ := (Stmt.onRows_mem (Stmt.exec_onRows (Env.exec_ok h).1)).mp hr'
  exact ⟨r, hr, Stmt.onRow_some hrow⟩

/-- What is left of a row after some of the statements. -/
abbrev Written (env : Env) (stmts : List Stmt) : Row → Row → Prop :=
  ReflTransGen fun x y => ∃ stmt ∈ stmts, Update env.now x stmt y

theorem execAll_row (hr' : r' ∈ (env.execAll k stmts rows).1) :
    ∃ r ∈ rows, Written env stmts r r' := by
  induction stmts generalizing k rows with
  | nil => exact ⟨r', hr', .refl⟩
  | cons stmt stmts ih =>
      simp only [Env.execAll] at hr'
      split at hr'
      · exact ⟨r', hr', .refl⟩
      · rename_i rows₁ count hexec
        obtain ⟨r₁, hr₁, hrest⟩ := ih hr'
        have hlater : Written env (stmt :: stmts) r₁ r' := by
          refine hrest.lift id fun x y hu => ?_
          obtain ⟨stmt', hstmt', hu⟩ := hu
          exact ⟨stmt', List.mem_cons_of_mem _ hstmt', hu⟩
        obtain ⟨r, hr, hfirst⟩ := exec_row hexec hr₁
        refine ⟨r, hr, ?_⟩
        rcases hfirst with rfl | hu
        · exact hlater
        · exact .head ⟨stmt, List.mem_cons_self, hu⟩ hlater

/-- A call that fails in a transaction leaves the table as it was. -/
theorem run_row {c : Call} {mode : Mode} (hr' : r' ∈ (c.run mode env rows).1) :
    ∃ r ∈ rows, Written env c.stmts r r' := by
  simp only [Call.run] at hr'
  split at hr'
  · exact execAll_row hr'
  · exact execAll_row hr'
  · exact ⟨r', hr', .refl⟩
  · split at hr' <;> exact ⟨r', hr', .refl⟩
  · exact execAll_row hr'

theorem Written.quiet {r : Row} (h : Written env stmts r r')
    (hq : ∀ stmt ∈ stmts, stmt.quiet = true) : Quiet r r' := by
  induction h with
  | refl => exact .refl _
  | tail _ hlast ih =>
      obtain ⟨stmt, hstmt, hu⟩ := hlast
      exact ih.trans (hu.toQuiet (hq stmt hstmt))

/-- Outcomes need the lease and end it, so a call records at most one of a row. -/
theorem Written.counted {r : Row} {ids : List Uuid} {worker : String}
    (h : Written env stmts r r') (hc : ∀ stmt ∈ stmts, ∃ ids', stmt.records = some (ids', worker) ∧
      ids' ⊆ ids) : r' = r ∨ Counted ids worker r r' := by
  induction h with
  | refl => exact .inl rfl
  | @tail x y _ hlast ih =>
      obtain ⟨stmt, hstmt, hu⟩ := hlast
      obtain ⟨ids', hrecords, hsub⟩ := hc stmt hstmt
      have hcounted := hu.toCounted hrecords
      have howned := hcounted.owned
      simp only [owned, Bool.and_eq_true, decide_eq_true_eq] at howned
      rcases ih with rfl | hbefore
      · refine .inr ⟨?_, hcounted.ref, hcounted.attempts, hcounted.lock⟩
        simp only [owned, Bool.and_eq_true, decide_eq_true_eq]
        exact ⟨hsub howned.1, howned.2⟩
      · rw [hbefore.lock] at howned
        cases howned.2

end

/-! ### The methods -/

/-- The messages of an outcome call. -/
def Call.outcomes : Call → Option (WorkerId × List MessageRef)
  | .complete worker items => some (worker, items.map (·.message))
  | .fail worker items => some (worker, items.map (·.message))
  | _ => none

/-- The calls that neither count, nor revive. -/
def Call.quiet : Call → Bool
  | .release .. | .extendLease .. | .purge _ | .purgeDead _ => true
  | _ => false

theorem Call.stmts_quiet {c : Call} (h : c.quiet = true) : ∀ stmt ∈ c.stmts, stmt.quiet = true := by
  intro stmt hstmt
  cases c with
  | release worker items | extendLease worker items lease | purgeDead refs =>
      simp only [Call.stmts] at hstmt
      split at hstmt
      · cases hstmt
      · rw [List.mem_singleton.mp hstmt]
        rfl
  | purge request =>
      simp only [Call.stmts, Postgres.purge, List.mem_append, Option.mem_toList, Option.map_eq_some_iff,
        List.mem_singleton] at hstmt
      obtain (⟨_, -, rfl⟩ | ⟨_, -, rfl⟩) | rfl := hstmt
      · rfl
      · rfl
      · rfl
  | complete | fail | retryDead => cases h

theorem Call.stmts_records {c : Call} {worker : WorkerId} {refs : List MessageRef}
    (h : c.outcomes = some (worker, refs)) : ∀ stmt ∈ c.stmts,
      ∃ ids, stmt.records = some (ids, worker.asStr) ∧ ids ⊆ refs.map (·.id.uuid) := by
  intro stmt hstmt
  cases c with
  | complete worker items =>
      cases h
      simp only [Call.stmts] at hstmt
      split at hstmt
      · cases hstmt
      · rw [List.mem_singleton.mp hstmt]
        exact ⟨_, rfl, by rw [List.map_map]; exact fun _ hx => hx⟩
  | fail worker items =>
      cases h
      simp only [Call.stmts, Postgres.fail] at hstmt
      split at hstmt
      · cases hstmt
      · rcases List.mem_append.mp hstmt with hstmt | hstmt
        · split at hstmt
          · cases hstmt
          · rw [List.mem_singleton.mp hstmt]
            refine ⟨_, rfl, fun id hid => ?_⟩
            obtain ⟨x, hx, rfl⟩ := List.mem_map.mp hid
            obtain ⟨m, hm, _, -, rfl⟩ := mem_retries.mp hx
            exact List.mem_map_of_mem (List.mem_map_of_mem hm)
        · split at hstmt
          · cases hstmt
          · rw [List.mem_singleton.mp hstmt]
            refine ⟨_, rfl, fun id hid => ?_⟩
            obtain ⟨x, hx, rfl⟩ := List.mem_map.mp hid
            obtain ⟨m, hm, _, -, rfl⟩ := mem_deaths.mp hx
            exact List.mem_map_of_mem (List.mem_map_of_mem hm)
  | _ => cases h

section
variable {c : Call} {mode : Mode} {env : Env} {rows : List Row} {r' : Row}

theorem run_quiet (h : c.quiet = true) (hr' : r' ∈ (c.run mode env rows).1) :
    ∃ r ∈ rows, Quiet r r' := by
  obtain ⟨r, hr, hw⟩ := run_row hr'
  exact ⟨r, hr, hw.quiet (Call.stmts_quiet h)⟩

theorem run_counted {worker : WorkerId} {refs : List MessageRef}
    (h : c.outcomes = some (worker, refs)) (hr' : r' ∈ (c.run mode env rows).1) :
    ∃ r ∈ rows, r' = r ∨ Counted (refs.map (·.id.uuid)) worker.asStr r r' := by
  obtain ⟨r, hr, hw⟩ := run_row hr'
  exact ⟨r, hr, hw.counted (Call.stmts_records h)⟩

theorem run_revived {refs : List MessageRef} (hr' : r' ∈ ((Call.retryDead refs).run mode env rows).1) :
    ∃ r ∈ rows, r' = r ∨ Revived r r' := by
  obtain ⟨r, hr, hw⟩ := run_row hr'
  refine ⟨r, hr, ?_⟩
  have hstmt : ∀ stmt ∈ (Call.retryDead refs).stmts, ∃ ids, stmt = .retryDead ids := by
    intro stmt hstmt
    simp only [Call.stmts] at hstmt
    split at hstmt
    · cases hstmt
    · exact ⟨_, List.mem_singleton.mp hstmt⟩
  clear hr' hr
  induction hw with
  | refl => exact .inl rfl
  | @tail x y _ hlast ih =>
      obtain ⟨stmt, hmem, hu⟩ := hlast
      obtain ⟨ids, rfl⟩ := hstmt stmt hmem
      have hrevived := hu.toRevived
      rcases ih with rfl | hbefore
      · exact .inr hrevived
      · -- a row that has just been revived is not dead
        have hdead := hrevived.dead
        rw [hbefore.alive] at hdead
        cases hdead

end

/-! ### `acquire` -/

/-- Both statements meet choices PostgreSQL can make. -/
structure AcquireValid (rendering : Rendering) (request : AcquireRequest) (env env' : Env)
    (rows : List Row) : Prop where
  claim : (env.choice 0).Valid env.now rows (acquire request)
  sweep : ∀ rows' count, env.exec 0 (acquire request) rows = .ok (rows', count) →
    (poisoned rendering
      (returnedRows env.now (env.choice 0) (acquire request) rows)).isEmpty = false →
    (env'.choice 1).Valid env'.now rows' (sweepPoisoned rendering
      (returnedRows env.now (env.choice 0) (acquire request) rows) request.worker.asStr)

/-- A claim of readable rows has no second statement. -/
theorem AcquireValid.of_readable {rendering : Rendering} {request : AcquireRequest} {env env' : Env}
    {rows : List Row} (hpick : (acquire request).pick env.now rows (env.choice 0).targets = true)
    (hnone : (poisoned rendering
      (returnedRows env.now (env.choice 0) (acquire request) rows)).isEmpty = true) :
    AcquireValid rendering request env env' rows := by
  refine ⟨⟨hpick, fun _ _ _ => rfl⟩, fun _ _ _ hsome => ?_⟩
  rw [hnone] at hsome
  cases hsome

section
variable {rendering : Rendering} {request : AcquireRequest} {env env' : Env} {rows rows' : List Row}

/-- The rows the claim of an `acquire` takes, as it leaves them. -/
def claimReturns (request : AcquireRequest) (env : Env) (rows : List Row) : List Row :=
  match env.exec 0 (acquire request) rows with
  | .error _ => []
  | .ok _ => returnedRows env.now (env.choice 0) (acquire request) rows

/-- Decoding keeps the reference. -/
theorem decodeRow_messageRef {r : Row} {record : OutboxRecord} (h : decodeRow r = .ok record) :
    record.messageRef = r.messageRef := by
  have hid : record.envelope.id = ⟨r.columns.id⟩ :=
    (decodeEnvelope_reads (decodeEnvelope_of_ok h)).id
  have hcreated : record.createdAt = r.createdAt := by
    unfold decodeRow at h
    cases hrecord : decodeRecord r with
    | error fault =>
        rw [hrecord] at h
        cases h
    | ok record' =>
        rw [hrecord] at h
        cases h
        obtain ⟨_, -, hrest⟩ := bind_eq_ok hrecord
        obtain ⟨_, -, hrest⟩ := bind_eq_ok hrest
        obtain ⟨_, -, hrest⟩ := bind_eq_ok hrest
        obtain ⟨_, -, hrest⟩ := bind_eq_ok hrest
        cases hrest
        rfl
  rw [OutboxRecord.messageRef, Row.messageRef, hid, hcreated]

/-- A returned row is a row of the table with a new lease. -/
theorem mem_returnedRows {now : Timestamp} {choice : Choice} {x : Row}
    (h : x ∈ returnedRows now choice (acquire request) rows) :
    ∃ r ∈ rows, r.sequence ∈ choice.targets ∧ (acquire request).outer now r = true ∧
      x.messageRef = r.messageRef ∧ x.sequence = r.sequence := by
  obtain ⟨r, hr, hafter⟩ := List.mem_filterMap.mp h
  obtain ⟨hmem, hpicked⟩ := List.mem_filter.mp hr
  simp only [Bool.and_eq_true, decide_eq_true_eq] at hpicked
  refine ⟨r, hmem, hpicked.1, hpicked.2, ?_⟩
  unfold Stmt.after at hafter
  split at hafter
  · rename_i o ho
    subst hafter
    rcases Stmt.onRow_some ho with rfl | hu
    · exact ⟨rfl, rfl⟩
    · obtain ⟨hcolumns, hcreated, hseq⟩ := hu.immutable
      exact ⟨by rw [Row.messageRef, hcolumns, hcreated, Row.messageRef], hseq⟩
  · cases hafter

theorem claimReturns_ref {x : Row} (h : x ∈ claimReturns request env rows) :
    ∃ r ∈ rows, x.messageRef = r.messageRef := by
  simp only [claimReturns] at h
  split at h
  · cases h
  · obtain ⟨r, hr, -, -, href, -⟩ := mem_returnedRows h
    exact ⟨r, hr, href⟩

/-- What the claim leaves of a row: it was not taken and is as before, or it was taken. -/
theorem claim_row {count : Nat} (hkeyed : Keyed rows)
    (h : env.exec 0 (acquire request) rows = .ok (rows', count)) {r' : Row} (hr' : r' ∈ rows') :
    (r' ∈ rows ∧ r'.messageRef ∉ (claimReturns request env rows).map Row.messageRef) ∨
      r' ∈ claimReturns request env rows ∧ r'.lockedBy = some request.worker.asStr ∧
        ∃ r ∈ rows, r'.messageRef = r.messageRef ∧ r'.attempts = r.attempts := by
  have hreturns : claimReturns request env rows =
      returnedRows env.now (env.choice 0) (acquire request) rows := by
    simp only [claimReturns, h]
  obtain ⟨r, hr, hrow⟩ := (Stmt.onRows_mem (Stmt.exec_onRows (Env.exec_ok h).1)).mp hr'
  rw [hreturns]
  by_cases hpicked : r.sequence ∈ (env.choice 0).targets ∧
      (acquire request).outer env.now r = true
  · obtain ⟨htarget, houter⟩ := hpicked
    rcases Stmt.onRow_target hrow htarget houter with ⟨r₁, heq, hu⟩ | ⟨hnone, -⟩
    · cases heq
      refine .inr ⟨?_, ?_⟩
      · refine List.mem_filterMap.mpr ⟨r, List.mem_filter.mpr ⟨hr, ?_⟩, Stmt.after_eq hrow⟩
        simp only [htarget, houter, decide_true, Bool.and_self]
      · cases hu with
        | claim => exact ⟨rfl, r, hr, rfl, rfl⟩
    · cases hnone
  · refine .inl ?_
    have hsame : r' = r := by
      by_cases htarget : r.sequence ∈ (env.choice 0).targets
      · have houter : ¬ (acquire request).outer env.now r = true := fun ho => hpicked ⟨htarget, ho⟩
        simp only [Stmt.onRow, htarget, if_true, Stmt.touch, houter, Bool.false_eq_true, if_false,
          Except.ok.injEq, Option.some.injEq] at hrow
        exact hrow.symm
      · rw [Stmt.onRow_outside htarget] at hrow
        cases hrow
        rfl
    subst hsame
    refine ⟨hr, fun hmem => ?_⟩
    obtain ⟨x, hx, href⟩ := List.mem_map.mp hmem
    obtain ⟨y, hy, htarget, houter, hxy, -⟩ := mem_returnedRows hx
    have hid : y.columns.id = r'.columns.id := by
      have heq := congrArg (·.id.uuid) (hxy.symm.trans href)
      exact heq
    have hyr : y = r' := List.inj_on_of_nodup_map hkeyed.ids hy hr hid
    subst hyr
    exact hpicked ⟨htarget, houter⟩

/-- A row after an `acquire`: it counts no attempt, and a lease is an old one, on a row that was not
taken, or the caller's. -/
structure Acquired (request : AcquireRequest) (env : Env) (rows : List Row) (r r' : Row) : Prop where
  ref : r'.messageRef = r.messageRef
  attempts : r'.attempts = r.attempts
  lock : ∀ worker, r'.lockedBy = some worker →
    (r.lockedBy = some worker ∧
        r'.messageRef ∉ (claimReturns request env rows).map Row.messageRef) ∨
      r'.messageRef ∈ (claimReturns request env rows).map Row.messageRef ∧
        worker = request.worker.asStr

theorem claimed_row {count : Nat} (hkeyed : Keyed rows)
    (h : env.exec 0 (acquire request) rows = .ok (rows', count)) {r' : Row} (hr' : r' ∈ rows') :
    ∃ r ∈ rows, Acquired request env rows r r' := by
  rcases claim_row hkeyed h hr' with ⟨hr, hnot⟩ | ⟨htaken, hworker, r, hr, href, hattempts⟩
  · exact ⟨r', hr, rfl, rfl, fun worker hl => .inl ⟨hl, hnot⟩⟩
  · refine ⟨r, hr, href, hattempts, fun worker hl => .inr ⟨List.mem_map_of_mem htaken, ?_⟩⟩
    rw [hworker] at hl
    exact (Option.some.inj hl).symm

theorem Acquired.sweep {r r₁ r' : Row} (h : Acquired request env rows r r₁) (hq : Quiet r₁ r') :
    Acquired request env rows r r' where
  ref := hq.ref.trans h.ref
  attempts := hq.attempts.trans h.attempts
  lock worker hl := by
    rw [hq.ref]
    exact h.lock worker (hq.locked hl)

theorem acquire_row (hkeyed : Keyed rows) {r' : Row}
    (hr' : r' ∈ (runAcquireThen rendering request env env' rows).1) :
    ∃ r ∈ rows, Acquired request env rows r r' := by
  simp only [runAcquireThen] at hr'
  split at hr'
  · rename_i err hexec
    refine ⟨r', hr', rfl, rfl, fun worker hl => .inl ⟨hl, ?_⟩⟩
    simp only [claimReturns, hexec]
    exact List.not_mem_nil
  · rename_i rows₁ count hexec
    split at hr'
    · exact claimed_row hkeyed hexec hr'
    · split at hr'
      · exact claimed_row hkeyed hexec hr'
      · rename_i rows₂ count₂ hsweep
        obtain ⟨r₁, hr₁, hswept⟩ := exec_row hsweep hr'
        obtain ⟨r, hr, hacquired⟩ := claimed_row hkeyed hexec hr₁
        refine ⟨r, hr, hacquired.sweep ?_⟩
        rcases hswept with rfl | hu
        · exact .refl _
        · exact hu.toQuiet rfl

/-- The records of an `acquire` are rows its claim took. -/
theorem acquire_record {batch : AcquiredBatch} {record : OutboxRecord}
    (h : (runAcquireThen rendering request env env' rows).2 = .ok batch)
    (hrecord : record ∈ batch.records) :
    record.messageRef ∈ (claimReturns request env rows).map Row.messageRef := by
  simp only [runAcquireThen] at h
  split at h
  · cases h
  · rename_i rows₁ count hexec
    have hreturns : claimReturns request env rows =
        returnedRows env.now (env.choice 0) (acquire request) rows := by
      simp only [claimReturns, hexec]
    rw [hreturns]
    have hbatch : batch.records =
        decoded (returnedRows env.now (env.choice 0) (acquire request) rows) := by
      split at h
      · cases h; rfl
      · split at h
        · cases h
        · cases h; rfl
    rw [hbatch] at hrecord
    obtain ⟨x, hx, hdecode⟩ := List.mem_filterMap.mp hrecord
    cases hrow : decodeRow x with
    | error err =>
        rw [hrow] at hdecode
        cases hdecode
    | ok record' =>
        rw [hrow] at hdecode
        cases hdecode
        rw [decodeRow_messageRef hrow]
        exact List.mem_map_of_mem hx

end

/-! ### The unique columns -/

section
variable {rows rows' : List Row} {env env' : Env} {rendering : Rendering}

/-- A column that no statement writes. -/
theorem onRows_column {β : Type} (f : Row → β)
    (hf : ∀ {now r stmt r'}, Update now r stmt r' → f r' = f r) {now : Timestamp}
    {choice : Choice} {stmt : Stmt} (h : stmt.onRows now choice rows = .ok rows') :
    (rows'.map f).Sublist (rows.map f) := by
  obtain ⟨hall, rfl⟩ := Stmt.onRows_ok.mp h
  clear h
  induction rows with
  | nil => exact .slnil
  | cons r rows ih =>
      have hrest := ih fun x hx => hall x (List.mem_cons_of_mem _ hx)
      obtain ⟨o, ho⟩ := hall r List.mem_cons_self
      cases o with
      | none =>
          rw [List.filterMap_cons_none (Stmt.after_eq ho)]
          exact hrest.cons _
      | some r' =>
          have hsame : f r' = f r := by
            rcases Stmt.onRow_some ho with rfl | hu
            · rfl
            · exact hf hu
          rw [List.filterMap_cons_some (Stmt.after_eq ho), List.map_cons, List.map_cons, hsame]
          exact hrest.cons_cons _

theorem Keyed.exec (h : Keyed rows) {k : Nat} {stmt : Stmt} {count : Nat}
    (hexec : env.exec k stmt rows = .ok (rows', count)) : Keyed rows' := by
  have hrows := Stmt.exec_onRows (Env.exec_ok hexec).1
  refine ⟨h.ids.sublist (onRows_column _ (fun hu => ?_) hrows),
    h.sequences.sublist (Stmt.onRows_sequences hrows)⟩
  rw [hu.immutable.1]

theorem Keyed.execAll (h : Keyed rows) {k : Nat} {stmts : List Stmt} :
    Keyed (env.execAll k stmts rows).1 := by
  induction stmts generalizing k rows with
  | nil => exact h
  | cons stmt stmts ih =>
      simp only [Env.execAll]
      split
      · exact h
      · rename_i hexec
        exact ih (h.exec hexec)

theorem Keyed.run (h : Keyed rows) (c : Call) (mode : Mode) : Keyed (c.run mode env rows).1 := by
  simp only [Call.run]
  split
  · exact h.execAll
  · exact h.execAll
  · exact h
  · split <;> exact h
  · exact h.execAll

theorem Keyed.acquire (h : Keyed rows) (request : AcquireRequest) :
    Keyed (runAcquireThen rendering request env env' rows).1 := by
  simp only [runAcquireThen]
  split
  · exact h
  · rename_i hexec
    split
    · exact h.exec hexec
    · split
      · exact h.exec hexec
      · rename_i hsweep
        exact (h.exec hexec).exec hsweep

theorem Keyed.insert (h : Keyed rows) {columns : Columns} {sequence : Int} {now : Timestamp}
    (hid : columns.id ∉ rows.map fun r => r.columns.id) (hseq : sequence ∉ rows.map Row.sequence) :
    Keyed (rows ++ [Row.inserted columns sequence now]) := by
  refine ⟨?_, ?_⟩
  · rw [List.map_append]
    exact h.ids.append (List.nodup_singleton _) (List.disjoint_singleton.mpr hid)
  · rw [List.map_append]
    exact h.sequences.append (List.nodup_singleton _) (List.disjoint_singleton.mpr hseq)

/-- A row is known by its reference. -/
theorem Keyed.eq_of_id (h : Keyed rows) {r x : Row} (hr : r ∈ rows) (hx : x ∈ rows)
    (heq : r.messageRef.id = x.messageRef.id) : r = x :=
  List.inj_on_of_nodup_map h.ids hr hx (congrArg MessageId.uuid heq)

end

end Postgres

end Reliar.Store
