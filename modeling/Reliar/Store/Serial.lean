/-
# `Reliar.Store.Serial` — one call at a time (`reliar-store-postgres`: `store.rs`)

Without other statements running, a statement is atomic: it takes its targets
from the table and writes them, or fails and writes nothing.  What PostgreSQL is
free in is a `Choice`: which rows a `LIMIT` picks, and which of several `UNNEST`
items a row is joined with.

Every method has two branches.  Without a `statement_timeout` its statements run
one by one on the pool, each committed on its own; with one they run inside
`BEGIN`/`SET LOCAL`/`COMMIT`.  For the methods of one statement there is nothing
to see.  `fail` and `purge` issue up to two and three, and the pool branch keeps
what was written before the statement that failed: `call_atomic_iff` says exactly
when that is something.
-/
import Reliar.Store.Postgres

namespace Reliar.Store.Postgres

open Reliar.Core Reliar.Outbox

/-! ## One statement -/

/-- What PostgreSQL chooses. -/
structure Choice where
  targets : List Int
  item : Int → Nat

def hasNul (s : String) : Bool := s.toList.any fun ch => ch.toNat == 0

/-- The text parameters. -/
def Stmt.texts : Stmt → List String
  | .claim _ worker _ => [worker]
  | .poisonSweep items worker reason => items.map Prod.snd ++ [worker, reason]
  | .complete _ worker => [worker]
  | .failRetry items worker => items.map (fun item => item.2.1) ++ [worker]
  | .failDead items worker =>
      items.map (fun item => item.2.1) ++ items.map (fun item => item.2.2) ++ [worker]
  | .release _ worker => [worker]
  | .extendLease _ _ worker => [worker]
  | .purgeExpiredSweep _ reason => [reason]
  | _ => []

/-- What becomes of one row. -/
def Stmt.onRow (now : Timestamp) (choice : Choice) (stmt : Stmt) (r : Row) :
    Except SqlError (Option Row) :=
  if r.sequence ∈ choice.targets then
    match stmt.touch now (choice.item r.sequence) r with
    | .error err => .error err
    | .ok .skip => .ok (some r)
    | .ok (.update r') => .ok (some r')
    | .ok .delete => .ok none
  else .ok (some r)

def Stmt.onRows (now : Timestamp) (choice : Choice) (stmt : Stmt) :
    List Row → Except SqlError (List Row)
  | [] => .ok []
  | r :: rows =>
      match stmt.onRow now choice r with
      | .error err => .error err
      | .ok o =>
          match stmt.onRows now choice rows with
          | .error err => .error err
          | .ok rows' => .ok (o.toList ++ rows')

/-- One statement on a table nobody else writes: the table after it. -/
def Stmt.exec (now : Timestamp) (choice : Choice) (stmt : Stmt) (rows : List Row) :
    Except SqlError (List Row) :=
  if stmt.texts.any hasNul then .error .nulCharacter
  else if stmt.ready now then stmt.onRows now choice rows
  else .error .timestampOutOfRange

/-- `rows_affected`. -/
def Stmt.affected (now : Timestamp) (choice : Choice) (stmt : Stmt) (rows : List Row) : Nat :=
  (rows.filter fun r => decide (r.sequence ∈ choice.targets) && stmt.outer now r).length

/-- A choice PostgreSQL can make on this table. -/
structure Choice.Valid (now : Timestamp) (rows : List Row) (stmt : Stmt) (choice : Choice) :
    Prop where
  pick : stmt.pick now rows choice.targets = true
  item : ∀ r ∈ rows, r.sequence ∈ choice.targets → stmt.picks (choice.item r.sequence) r = true

/-- `ORDER BY available_at, sequence`, which the claim alone has. -/
def Stmt.ordered (r r' : Row) : Stmt → Bool
  | .claim .. => decide (r.availableAt < r'.availableAt ∨
      r.availableAt = r'.availableAt ∧ r.sequence ≤ r'.sequence)
  | _ => true

/-- A choice on a table where no row is locked by anybody else: a row that qualifies is left out
only because the `LIMIT` is reached, and by rows that come before it. -/
structure Choice.Full (now : Timestamp) (rows : List Row) (stmt : Stmt) (choice : Choice) :
    Prop extends choice.Valid now rows stmt where
  full : ∀ r ∈ rows, stmt.inner now r = true → r.sequence ∉ choice.targets →
    (∃ n, stmt.limit = some n ∧ n ≤ choice.targets.length) ∧
      ∀ r' ∈ rows, r'.sequence ∈ choice.targets → stmt.ordered r' r = true

/-- With no target nothing is written. -/
theorem Stmt.onRows_nil {now : Timestamp} {choice : Choice} {stmt : Stmt}
    (h : choice.targets = []) (rows : List Row) : stmt.onRows now choice rows = .ok rows := by
  induction rows with
  | nil => rfl
  | cons r rows ih => simp [Stmt.onRows, Stmt.onRow, h, ih]

theorem Stmt.exec_nil {now : Timestamp} {choice : Choice} {stmt : Stmt} {rows rows' : List Row}
    (h : choice.targets = []) (hexec : stmt.exec now choice rows = .ok rows') : rows' = rows := by
  simp only [Stmt.exec] at hexec
  split at hexec
  · cases hexec
  · split at hexec
    · rw [Stmt.onRows_nil h] at hexec
      exact (Except.ok.inj hexec).symm
    · cases hexec

/-! ## Calls -/

/-- The methods that write, `acquire` apart. -/
inductive Call
  | complete (worker : WorkerId) (items : List CompletedMessage)
  | fail (worker : WorkerId) (items : List FailedMessage)
  | release (worker : WorkerId) (items : List MessageRef)
  | extendLease (worker : WorkerId) (items : List MessageRef) (lease : Duration)
  | purge (request : PurgeRequest)
  | retryDead (refs : List MessageRef)
  | purgeDead (refs : List MessageRef)

/-- The statements a call issues, in order; a call without items returns before any. -/
def Call.stmts : Call → List Stmt
  | .complete worker items => if items.isEmpty then [] else [Postgres.complete worker items]
  | .fail worker items => if items.isEmpty then [] else Postgres.fail worker items
  | .release worker items => if items.isEmpty then [] else [Postgres.release worker items]
  | .extendLease worker items lease =>
      if items.isEmpty then [] else [Postgres.extendLease worker items lease]
  | .purge request => Postgres.purge request
  | .retryDead refs => if refs.isEmpty then [] else [Postgres.retryDead refs]
  | .purgeDead refs => if refs.isEmpty then [] else [Postgres.purgeDead refs]

inductive Reply
  | affected (count : Nat)
  | report (report : PurgeReport)
  deriving DecidableEq

/-- One `if let Some(retention) = .. { statement } else { 0 }` of `purge`. -/
def takeCount (retention : Option Duration) (counts : List Nat) : Nat × List Nat :=
  match retention with
  | none => (0, counts)
  | some _ => (counts.headD 0, counts.tail)

/-- What a call returns, from what each of its statements affected. -/
def Call.reply (counts : List Nat) : Call → Reply
  | .purge request =>
      let published := takeCount request.publishedRetention counts
      let dead := takeCount request.deadRetention published.2
      .report ⟨published.1, dead.1, dead.2.headD 0⟩
  | _ => .affected counts.sum

/-- Why a call fails: an error of a statement, or the connection under it. -/
inductive CallError
  | sql (err : SqlError)
  | connection
  deriving DecidableEq

/-- What a call meets: the `now()` of its statements, PostgreSQL's choice for each, and which of
them the connection fails. -/
structure Env where
  now : Timestamp
  choice : Nat → Choice
  fails : Nat → Bool

/-- Statement number `k` of a call: the table after it, and the rows it affected. -/
def Env.exec (env : Env) (k : Nat) (stmt : Stmt) (rows : List Row) :
    Except CallError (List Row × Nat) :=
  if env.fails k then .error .connection
  else
    match stmt.exec env.now (env.choice k) rows with
    | .error err => .error (.sql err)
    | .ok rows' => .ok (rows', stmt.affected env.now (env.choice k) rows)

/-- The statements one after the other, from number `k` on, up to the first that fails. -/
def Env.execAll (env : Env) : Nat → List Stmt → List Row → List Row × Except CallError (List Nat)
  | _, [], rows => (rows, .ok [])
  | k, stmt :: stmts, rows =>
      match env.exec k stmt rows with
      | .error err => (rows, .error err)
      | .ok (rows', count) =>
          let rest := env.execAll (k + 1) stmts rows'
          (rest.1, rest.2.map (count :: ·))

/-- The two branches; a transaction may also fail at `BEGIN`, at `SET LOCAL` or at `COMMIT`. -/
inductive Mode
  | pool
  | transaction (fault : Bool)

/-- A call on a table: the table after it, and what it returns. -/
def Call.run (call : Call) (mode : Mode) (env : Env) (rows : List Row) :
    List Row × Except CallError Reply :=
  let done := env.execAll 0 call.stmts rows
  match mode, done.2 with
  | .pool, .error err => (done.1, .error err)
  | .pool, .ok counts => (done.1, .ok (call.reply counts))
  | .transaction _, .error err => (rows, .error err)
  | .transaction true, .ok _ =>
      -- a call without statements opens no transaction
      if call.stmts.isEmpty then (rows, .ok (call.reply [])) else (rows, .error .connection)
  | .transaction false, .ok counts => (done.1, .ok (call.reply counts))

/-! ## What a statement makes of the table -/

/-- What is left of a row the statement does not abort on. -/
def Stmt.after (now : Timestamp) (choice : Choice) (stmt : Stmt) (r : Row) : Option Row :=
  match stmt.onRow now choice r with
  | .ok o => o
  | .error _ => none

theorem Stmt.after_eq {stmt : Stmt} {now : Timestamp} {choice : Choice} {r : Row} {o : Option Row}
    (h : stmt.onRow now choice r = .ok o) : stmt.after now choice r = o := by
  simp only [Stmt.after, h]

/-- A statement runs when it aborts on no row, and then it does to each what it does to it. -/
theorem Stmt.onRows_ok {stmt : Stmt} {now : Timestamp} {choice : Choice} {rows rows' : List Row} :
    stmt.onRows now choice rows = .ok rows' ↔
      (∀ r ∈ rows, ∃ o, stmt.onRow now choice r = .ok o) ∧
        rows' = rows.filterMap (stmt.after now choice) := by
  induction rows generalizing rows' with
  | nil => simp [Stmt.onRows, eq_comm]
  | cons r rows ih =>
    cases hrow : stmt.onRow now choice r with
    | error err => simp [Stmt.onRows, hrow]
    | ok o =>
      have hafter : (r :: rows).filterMap (stmt.after now choice) =
          o.toList ++ rows.filterMap (stmt.after now choice) := by
        cases o <;> simp [Stmt.after_eq hrow]
      rw [hafter, List.forall_mem_cons]
      cases hrest : stmt.onRows now choice rows with
      | error err =>
        have hnot : ¬ ∀ x ∈ rows, ∃ o, stmt.onRow now choice x = .ok o := by
          intro hall
          rw [ih.mpr ⟨hall, rfl⟩] at hrest
          cases hrest
        simp [Stmt.onRows, hrow, hrest, hnot]
      | ok rest =>
        obtain ⟨hall, rfl⟩ := ih.mp hrest
        simp only [Stmt.onRows, hrow, hrest, Except.ok.injEq]
        exact ⟨fun h => ⟨⟨⟨o, rfl⟩, hall⟩, h.symm⟩, fun h => h.2.symm⟩

theorem Stmt.onRows_error {stmt : Stmt} {now : Timestamp} {choice : Choice} {rows : List Row} :
    (∃ err, stmt.onRows now choice rows = .error err) ↔
      ∃ r ∈ rows, ∃ err, stmt.onRow now choice r = .error err := by
  cases hrows : stmt.onRows now choice rows with
  | ok rows' =>
    have hall := (Stmt.onRows_ok.mp hrows).1
    simp only [reduceCtorEq, exists_false, false_iff]
    rintro ⟨r, hr, err, herr⟩
    obtain ⟨o, ho⟩ := hall r hr
    rw [ho] at herr
    cases herr
  | error err =>
    refine ⟨fun _ => ?_, fun _ => ⟨err, rfl⟩⟩
    by_contra hnone
    have hall : ∀ r ∈ rows, ∃ o, stmt.onRow now choice r = .ok o := by
      intro r hr
      cases hrow : stmt.onRow now choice r with
      | ok o => exact ⟨o, rfl⟩
      | error err' => exact absurd ⟨r, hr, err', hrow⟩ hnone
    rw [Stmt.onRows_ok.mpr ⟨hall, rfl⟩] at hrows
    cases hrows

theorem Stmt.onRow_error {stmt : Stmt} {now : Timestamp} {choice : Choice} {r : Row}
    {err : SqlError} :
    stmt.onRow now choice r = .error err ↔
      r.sequence ∈ choice.targets ∧ stmt.touch now (choice.item r.sequence) r = .error err := by
  by_cases ht : r.sequence ∈ choice.targets
  · simp only [Stmt.onRow, ht, if_true, true_and]
    cases stmt.touch now (choice.item r.sequence) r with
    | error err' => simp
    | ok o => cases o <;> simp
  · simp [Stmt.onRow, ht]

/-- A row that is left is as before, or the statement wrote it. -/
theorem Stmt.onRow_some {stmt : Stmt} {now : Timestamp} {choice : Choice} {r r' : Row}
    (h : stmt.onRow now choice r = .ok (some r')) : r' = r ∨ Update now r stmt r' := by
  simp only [Stmt.onRow] at h
  split at h
  · split at h
    · cases h
    · cases h
      exact .inl rfl
    · rename_i x htouch
      cases h
      exact .inr (touch_update htouch)
    · cases h
  · cases h
    exact .inl rfl

theorem Stmt.onRows_mem {stmt : Stmt} {now : Timestamp} {choice : Choice} {rows rows' : List Row}
    (h : stmt.onRows now choice rows = .ok rows') {r' : Row} :
    r' ∈ rows' ↔ ∃ r ∈ rows, stmt.onRow now choice r = .ok (some r') := by
  obtain ⟨hall, rfl⟩ := Stmt.onRows_ok.mp h
  rw [List.mem_filterMap]
  constructor
  · rintro ⟨r, hr, hafter⟩
    obtain ⟨o, ho⟩ := hall r hr
    rw [Stmt.after_eq ho] at hafter
    exact ⟨r, hr, by rw [ho, hafter]⟩
  · rintro ⟨r, hr, hrow⟩
    exact ⟨r, hr, Stmt.after_eq hrow⟩

/-- The statements that delete. -/
def Stmt.deletes : Stmt → Bool
  | .purgePublished .. => true
  | .purgeDeadRetention .. => true
  | .purgeDead _ => true
  | _ => false

theorem Stmt.set_deletes {stmt : Stmt} (h : stmt.deletes = true) (now : Timestamp) (i : Nat)
    (r : Row) : stmt.set now i r = .ok none := by
  cases stmt with
  | purgePublished ms batchSize => rfl
  | purgeDeadRetention ms batchSize => rfl
  | purgeDead ids => rfl
  | _ => cases h

theorem Stmt.touch_deletes {stmt : Stmt} (h : stmt.deletes = true) (now : Timestamp) (i : Nat)
    (r : Row) : stmt.touch now i r = .ok (if stmt.outer now r then .delete else .skip) := by
  cases houter : stmt.outer now r <;> simp [Stmt.touch, houter, Stmt.set_deletes h]

/-- The targets that still qualify are gone, and nothing else changes. -/
theorem Stmt.onRows_deletes {stmt : Stmt} (h : stmt.deletes = true) (now : Timestamp)
    (choice : Choice) (rows : List Row) :
    stmt.onRows now choice rows = .ok (rows.filter fun r =>
      !(decide (r.sequence ∈ choice.targets) && stmt.outer now r)) := by
  induction rows with
  | nil => rfl
  | cons r rows ih =>
    by_cases hmem : r.sequence ∈ choice.targets
    · cases houter : stmt.outer now r <;>
        simp [Stmt.onRows, Stmt.onRow, hmem, Stmt.touch_deletes h, houter, ih]
    · simp [Stmt.onRows, Stmt.onRow, hmem, ih]

theorem Stmt.touch_ne_skip {stmt : Stmt} {now : Timestamp} {i : Nat} {r : Row}
    (houter : stmt.outer now r = true) : stmt.touch now i r ≠ .ok .skip := by
  intro h
  simp only [Stmt.touch, houter, if_true] at h
  split at h
  · cases h
  · cases h
  · split at h <;> cases h

/-- A target that qualifies is updated or deleted. -/
theorem Stmt.onRow_target {stmt : Stmt} {now : Timestamp} {choice : Choice} {r : Row}
    {o : Option Row} (h : stmt.onRow now choice r = .ok o) (htarget : r.sequence ∈ choice.targets)
    (houter : stmt.outer now r = true) :
    (∃ r', o = some r' ∧ Update now r stmt r') ∨ (o = none ∧ Delete now r stmt) := by
  simp only [Stmt.onRow, htarget, if_true] at h
  split at h
  · cases h
  · rename_i hskip
    exact absurd hskip (Stmt.touch_ne_skip houter)
  · rename_i r' htouch
    exact .inl ⟨r', (Except.ok.inj h).symm, touch_update htouch⟩
  · rename_i htouch
    exact .inr ⟨(Except.ok.inj h).symm, touch_delete htouch⟩

/-- A statement that deletes nothing keeps every row in its place. -/
theorem Stmt.onRows_updates {stmt : Stmt} {now : Timestamp} {choice : Choice}
    {rows rows' : List Row} (h : stmt.onRows now choice rows = .ok rows')
    (hkeep : ∀ r ∈ rows, stmt.onRow now choice r ≠ .ok none) :
    List.Forall₂ (fun r r' => stmt.onRow now choice r = .ok (some r')) rows rows' := by
  obtain ⟨hall, rfl⟩ := Stmt.onRows_ok.mp h
  clear h
  induction rows with
  | nil => exact .nil
  | cons r rows ih =>
    obtain ⟨o, ho⟩ := hall r List.mem_cons_self
    have hrest := ih (fun x hx => hkeep x (List.mem_cons_of_mem _ hx))
      fun x hx => hall x (List.mem_cons_of_mem _ hx)
    cases o with
    | none => exact absurd ho (hkeep r List.mem_cons_self)
    | some r' =>
      rw [List.filterMap_cons_some (Stmt.after_eq ho)]
      exact .cons ho hrest

theorem Stmt.exec_onRows {stmt : Stmt} {now : Timestamp} {choice : Choice} {rows rows' : List Row}
    (h : stmt.exec now choice rows = .ok rows') : stmt.onRows now choice rows = .ok rows' := by
  simp only [Stmt.exec] at h
  split at h
  · cases h
  · split at h
    · exact h
    · cases h

theorem Env.exec_ok {env : Env} {k : Nat} {stmt : Stmt} {rows rows' : List Row} {count : Nat}
    (h : env.exec k stmt rows = .ok (rows', count)) :
    stmt.exec env.now (env.choice k) rows = .ok rows' ∧ env.fails k = false ∧
      count = stmt.affected env.now (env.choice k) rows := by
  simp only [Env.exec] at h
  split at h
  · cases h
  · rename_i hrun
    split at h
    · cases h
    · rename_i hexec
      cases h
      exact ⟨hexec, by simpa using hrun, rfl⟩

/-- A row that a valid choice targets. -/
theorem Choice.Valid.exists_target {now : Timestamp} {rows : List Row} {stmt : Stmt}
    {choice : Choice} (h : choice.Valid now rows stmt) (hne : choice.targets ≠ []) :
    ∃ r ∈ rows, r.sequence ∈ choice.targets ∧ stmt.inner now r = true := by
  obtain ⟨q, targets, hq⟩ := List.exists_cons_of_ne_nil hne
  have hpick := h.pick
  simp only [Stmt.pick, Bool.and_eq_true, List.all_eq_true, List.any_eq_true, beq_iff_eq] at hpick
  obtain ⟨r, hr, hrq, hinner⟩ := hpick.1.2 q (by rw [hq]; exact List.mem_cons_self)
  exact ⟨r, hr, by rw [hrq, hq]; exact List.mem_cons_self, hinner⟩

theorem Stmt.outer_of_inner {now : Timestamp} {r : Row} {stmt : Stmt}
    (h : stmt.inner now r = true) : stmt.outer now r = true := by
  cases stmt with
  | purgeExpiredSweep batchSize reason =>
    simp only [Stmt.inner, Bool.and_eq_true] at h
    exact h.2
  | _ => exact h

/-- A deletion never adds a row, and a target makes it drop one. -/
theorem length_deletes {env : Env} {k : Nat} {stmt : Stmt} {rows rows' : List Row} {count : Nat}
    (hdel : stmt.deletes = true) (h : env.exec k stmt rows = .ok (rows', count)) :
    rows'.length ≤ rows.length ∧
      ((env.choice k).Valid env.now rows stmt → (env.choice k).targets ≠ [] →
        rows'.length < rows.length) := by
  have hrows := Stmt.exec_onRows (Env.exec_ok h).1
  rw [Stmt.onRows_deletes hdel, Except.ok.injEq] at hrows
  subst hrows
  refine ⟨List.length_filter_le _ _, ?_⟩
  intro hvalid hne
  obtain ⟨r, hr, htarget, hinner⟩ := hvalid.exists_target hne
  refine lt_of_le_of_ne (List.length_filter_le _ _) ?_
  intro heq
  have hkept := List.length_filter_eq_length_iff.mp heq r hr
  simp [htarget, Stmt.outer_of_inner hinner] at hkept

/-- A retry that reaches a row changes the table: the row has one attempt more. -/
theorem failRetry_changes {env : Env} {k : Nat} {items : List (Uuid × String × Int)}
    {worker : String} {rows rows' : List Row} {count : Nat}
    (h : env.exec k (.failRetry items worker) rows = .ok (rows', count))
    (hvalid : (env.choice k).Valid env.now rows (.failRetry items worker))
    (hne : (env.choice k).targets ≠ []) : rows' ≠ rows := by
  rintro rfl
  have hkeep : ∀ r ∈ rows', (Stmt.failRetry items worker).onRow env.now (env.choice k) r ≠
      .ok none := by
    intro r _ hnone
    simp only [Stmt.onRow] at hnone
    split at hnone
    · split at hnone
      · cases hnone
      · cases hnone
      · cases hnone
      · rename_i htouch
        cases touch_delete htouch
    · cases hnone
  have hsame := List.forall₂_same.mp
    (Stmt.onRows_updates (Stmt.exec_onRows (Env.exec_ok h).1) hkeep)
  obtain ⟨r, hr, htarget, hinner⟩ := hvalid.exists_target hne
  rcases Stmt.onRow_target (hsame r hr) htarget (Stmt.outer_of_inner hinner) with
    ⟨r', hr', hupdate⟩ | ⟨hnone, -⟩
  · have hattempts : r'.attempts = r.attempts + 1 := by
      cases hupdate
      rfl
    cases hr'
    omega
  · cases hnone

/-! ## All or nothing -/

/-- The number of the first statement that fails. -/
def Env.firstFailure (env : Env) : Nat → List Stmt → List Row → Option Nat
  | _, [], _ => none
  | k, stmt :: stmts, rows =>
      match env.exec k stmt rows with
      | .error _ => some k
      | .ok (rows', _) => env.firstFailure (k + 1) stmts rows'

/-- Every statement that runs meets a choice PostgreSQL can make on the table as it then is. -/
def Env.Valid (env : Env) : Nat → List Stmt → List Row → Prop
  | _, [], _ => True
  | k, stmt :: stmts, rows =>
      (env.fails k = false → (env.choice k).Valid env.now rows stmt) ∧
        ∀ rows' count, env.exec k stmt rows = .ok (rows', count) →
          env.Valid (k + 1) stmts rows'

/-- The same on a table where no row is locked by anybody else. -/
def Env.Full (env : Env) : Nat → List Stmt → List Row → Prop
  | _, [], _ => True
  | k, stmt :: stmts, rows =>
      (env.choice k).Full env.now rows stmt ∧
        ∀ rows' count, env.exec k stmt rows = .ok (rows', count) →
          env.Full (k + 1) stmts rows'

/-- A failed call changes nothing in either branch, and the branches agree. -/
structure Call.Atomic (call : Call) (env : Env) (rows : List Row) : Prop where
  unchanged : ∀ mode err, (call.run mode env rows).2 = .error err →
    (call.run mode env rows).1 = rows
  agree : call.run .pool env rows = call.run (.transaction false) env rows

theorem execAll_failure {env : Env} {k : Nat} {stmts : List Stmt} {rows : List Row} :
    (∃ err, (env.execAll k stmts rows).2 = .error err) ↔
      ∃ i, env.firstFailure k stmts rows = some i := by
  induction stmts generalizing k rows with
  | nil => simp [Env.execAll, Env.firstFailure]
  | cons stmt stmts ih =>
    cases hexec : env.exec k stmt rows with
    | error err => simp [Env.execAll, Env.firstFailure, hexec]
    | ok x =>
      simp only [Env.execAll, Env.firstFailure, hexec]
      rw [← ih]
      cases hrest : (env.execAll (k + 1) stmts x.1).2 <;> simp [Except.map]

theorem firstFailure_ge {env : Env} {k i : Nat} {stmts : List Stmt} {rows : List Row}
    (h : env.firstFailure k stmts rows = some i) : k ≤ i := by
  induction stmts generalizing k rows with
  | nil => cases h
  | cons stmt stmts ih =>
    simp only [Env.firstFailure] at h
    split at h
    · exact (Option.some.inj h).le
    · exact Nat.le_of_succ_le (ih h)

/-- Statements without targets leave the table to the one that fails. -/
theorem execAll_unchanged {env : Env} {k i : Nat} {stmts : List Stmt} {rows : List Row}
    (h : env.firstFailure k stmts rows = some i)
    (hnone : ∀ j, k ≤ j → j < i → (env.choice j).targets = []) :
    (env.execAll k stmts rows).1 = rows := by
  induction stmts generalizing k rows with
  | nil => rfl
  | cons stmt stmts ih =>
    simp only [Env.firstFailure] at h
    simp only [Env.execAll]
    split at h
    · rfl
    · rename_i rows' count hexec
      have hle := firstFailure_ge h
      have hrows : rows' = rows :=
        Stmt.exec_nil (hnone k (Nat.le_refl _) (by omega)) (Env.exec_ok hexec).1
      subst hrows
      exact ih h fun j hj hji => hnone j (by omega) hji

/-- Deletions before the statement that fails leave fewer rows, if they had a target. -/
theorem execAll_deletes {env : Env} {k i : Nat} {stmts : List Stmt} {rows : List Row}
    (h : env.firstFailure k stmts rows = some i) (hvalid : env.Valid k stmts rows)
    (hdel : ∀ j, k + j < i → ∀ stmt, stmts[j]? = some stmt → stmt.deletes = true) :
    (env.execAll k stmts rows).1.length ≤ rows.length ∧
      ∀ j, k ≤ j → j < i → (env.choice j).targets ≠ [] →
        (env.execAll k stmts rows).1.length < rows.length := by
  induction stmts generalizing k rows with
  | nil => cases h
  | cons stmt stmts ih =>
    simp only [Env.firstFailure] at h
    simp only [Env.execAll]
    split at h
    · cases h
      exact ⟨Nat.le_refl _, fun j hj hji => absurd hji (by omega)⟩
    · rename_i rows' count hexec
      have hle := firstFailure_ge h
      have hlen := length_deletes (hdel 0 (by omega) stmt rfl) hexec
      obtain ⟨hrest, hstrict⟩ := ih h (hvalid.2 rows' count hexec) fun j hj stmt' hstmt' =>
        hdel (j + 1) (by omega) stmt' (by simpa using hstmt')
      refine ⟨Nat.le_trans hrest hlen.1, ?_⟩
      intro j hj hji hne
      rcases Nat.eq_or_lt_of_le hj with rfl | hj
      · exact Nat.lt_of_le_of_lt hrest (hlen.2 (hvalid.1 (Env.exec_ok hexec).2.1) hne)
      · exact Nat.lt_of_lt_of_le (hstrict j hj hji hne) hlen.1

theorem firstFailure_lt {env : Env} {k i : Nat} {stmts : List Stmt} {rows : List Row}
    (h : env.firstFailure k stmts rows = some i) : i < k + stmts.length := by
  induction stmts generalizing k rows with
  | nil => cases h
  | cons stmt stmts ih =>
    simp only [Env.firstFailure] at h
    simp only [List.length_cons]
    split at h
    · cases h
      omega
    · have := ih h
      omega

/-- All statements of `purge` but the last, the sweep, delete. -/
theorem purge_deletes {request : PurgeRequest} {j : Nat} {stmt : Stmt}
    (hj : j + 1 < (purge request).length) (h : (purge request)[j]? = some stmt) :
    stmt.deletes = true := by
  have hmem : stmt ∈ (purge request).dropLast := by
    rw [List.mem_iff_getElem?]
    refine ⟨j, ?_⟩
    rw [List.getElem?_dropLast, if_pos (by omega), h]
  simp only [purge, List.dropLast_concat, List.mem_append, Option.mem_toList, Option.map_eq_some_iff]
    at hmem
  rcases hmem with ⟨d, -, rfl⟩ | ⟨d, -, rfl⟩
  · rfl
  · rfl

/-- A `fail` of two statements begins with the retries. -/
theorem fail_two {worker : WorkerId} {items : List FailedMessage}
    (h : 1 < (Call.fail worker items).stmts.length) :
    ∃ second, (Call.fail worker items).stmts =
      [.failRetry (retries items) worker.asStr, second] := by
  simp only [Call.stmts, fail] at h ⊢
  by_cases hitems : items.isEmpty = true
  · rw [if_pos hitems] at h
    cases h
  · rw [if_neg hitems] at h ⊢
    by_cases hretry : (retries items).isEmpty = true
    · rw [if_pos hretry] at h
      split at h
      · cases h
      · exact absurd h (Nat.lt_irrefl 1)
    · rw [if_neg hretry] at h ⊢
      by_cases hdead : (deaths items).isEmpty = true
      · rw [if_pos hdead] at h
        exact absurd h (Nat.lt_irrefl 1)
      · rw [if_neg hdead]
        exact ⟨_, rfl⟩

/-- A call that failed after a statement with a target has changed the table. -/
theorem execAll_changed {call : Call} {env : Env} {rows : List Row} {i j : Nat}
    (hvalid : env.Valid 0 call.stmts rows) (h : env.firstFailure 0 call.stmts rows = some i)
    (hji : j < i) (hne : (env.choice j).targets ≠ []) :
    (env.execAll 0 call.stmts rows).1 ≠ rows := by
  have hlt := firstFailure_lt h
  -- the calls of at most one statement have nothing before the one that fails
  have hsingle : ∀ {b : Bool} {stmt : Stmt}, call.stmts = (if b then [] else [stmt]) → False := by
    intro b stmt heq
    rw [heq] at hlt
    cases b
    · simp at hlt
      omega
    · simp at hlt
  cases call with
  | complete worker items => exact absurd rfl hsingle
  | release worker items => exact absurd rfl hsingle
  | extendLease worker items lease => exact absurd rfl hsingle
  | retryDead refs => exact absurd rfl hsingle
  | purgeDead refs => exact absurd rfl hsingle
  | purge request =>
    have hshrunk := (execAll_deletes h hvalid fun m hm stmt hstmt =>
      purge_deletes (by simp only [Call.stmts] at hlt; omega) hstmt).2 j (Nat.zero_le _) hji hne
    intro heq
    rw [heq] at hshrunk
    exact absurd hshrunk (Nat.lt_irrefl _)
  | fail worker items =>
    -- two statements, and the second failed
    have hlen : 1 < (Call.fail worker items).stmts.length := by omega
    obtain ⟨second, hstmts⟩ := fail_two hlen
    rw [hstmts] at h hvalid ⊢
    simp only [Env.firstFailure] at h
    simp only [Env.execAll]
    split at h
    · cases h
      omega
    · rename_i rows' count hexec
      split at h
      · cases h
        obtain rfl : j = 0 := by omega
        exact failRetry_changes hexec (hvalid.1 (Env.exec_ok hexec).2.1) hne
      · cases h

/-- For every call, table and choice of failures: a failed call changes nothing and the two
branches agree, exactly when no statement before the first that fails had a row to write. -/
theorem call_atomic_iff (call : Call) (env : Env) (rows : List Row)
    (hvalid : env.Valid 0 call.stmts rows) :
    call.Atomic env rows ↔
      ∀ i, env.firstFailure 0 call.stmts rows = some i →
        ∀ j, j < i → (env.choice j).targets = [] := by
  cases hfirst : env.firstFailure 0 call.stmts rows with
  | none =>
    obtain ⟨counts, hok⟩ : ∃ counts, (env.execAll 0 call.stmts rows).2 = .ok counts := by
      cases hres : (env.execAll 0 call.stmts rows).2 with
      | ok counts => exact ⟨counts, rfl⟩
      | error err =>
        obtain ⟨i, hi⟩ := execAll_failure.mp ⟨err, hres⟩
        rw [hfirst] at hi
        cases hi
    suffices hatomic : call.Atomic env rows by simpa using hatomic
    refine ⟨?_, ?_⟩
    · intro mode err herr
      cases mode with
      | pool => simp [Call.run, hok] at herr
      | transaction fault =>
        cases fault with
        | false => simp [Call.run, hok] at herr
        | true =>
          simp only [Call.run, hok]
          split <;> rfl
    · simp [Call.run, hok]
  | some i =>
    obtain ⟨err, herr⟩ := execAll_failure.mpr ⟨i, hfirst⟩
    constructor
    · intro hatomic i' hi' j hji
      cases hi'
      by_contra hne
      refine execAll_changed hvalid hfirst hji hne ?_
      simpa [Call.run, herr] using hatomic.unchanged .pool err (by simp [Call.run, herr])
    · intro hnone
      have hrows := execAll_unchanged hfirst fun j _ hji => hnone i rfl j hji
      refine ⟨?_, ?_⟩
      · intro mode err' _
        cases mode with
        | pool => simpa [Call.run, herr] using hrows
        | transaction fault => cases fault <;> simp [Call.run, herr]
      · simp [Call.run, herr, hrows]

/-! ## A batch of two failures -/

/-- A row worker `w` holds. -/
def heldRow (n : BitVec 128) (sequence : Int) : Row :=
  let envelope : SerializedEnvelope :=
    ⟨⟨⟨n⟩⟩, MessageType.fromParts "order.placed" 1, [], Metadata.default, none⟩
  { Row.inserted (stage envelope) sequence 0 with
    lockedBy := some "w", lockedUntil := some 1000000000 }

def workerW : WorkerId := ⟨"w", by decide, by decide⟩

/-- One message to be retried after a second and one that is dead. -/
def mixedFail : Call :=
  .fail workerW
    [FailedMessage.new ⟨⟨⟨1⟩⟩, 0⟩ "busy" (.retry (Duration.ofSecs 1)),
      FailedMessage.new ⟨⟨⟨2⟩⟩, 0⟩ "refused" (.dead .permanentError)]

/-- The connection fails statement number `k`; the two statements pick one row each. -/
def failingAt (k : Nat) : Env where
  now := 5000000
  choice n := ⟨[(n : Int) + 1], fun _ => 0⟩
  fails n := n == k

/-- The second statement fails: the call returns an error, and the first message has been given an
attempt and a new time. -/
theorem call_half_applied :
    (failingAt 1).Valid 0 mixedFail.stmts [heldRow 1 1, heldRow 2 2] ∧
      (mixedFail.run .pool (failingAt 1) [heldRow 1 1, heldRow 2 2]).2 = .error .connection ∧
      (mixedFail.run .pool (failingAt 1) [heldRow 1 1, heldRow 2 2]).1 ≠
        [heldRow 1 1, heldRow 2 2] ∧
      mixedFail.run .pool (failingAt 1) [heldRow 1 1, heldRow 2 2] ≠
        mixedFail.run (.transaction false) (failingAt 1) [heldRow 1 1, heldRow 2 2] := by
  have hattempts : (mixedFail.run .pool (failingAt 1) [heldRow 1 1, heldRow 2 2]).1.map
      (fun r => r.attempts) = [1, 0] := by decide
  have hkept : (mixedFail.run (.transaction false) (failingAt 1) [heldRow 1 1, heldRow 2 2]).1.map
      (fun r => r.attempts) = [0, 0] := by decide
  refine ⟨?_, by decide, ?_, ?_⟩
  · refine ⟨fun _ => ⟨by decide, by decide⟩, ?_⟩
    intro rows' count _
    refine ⟨fun hrun => ?_, fun _ _ _ => trivial⟩
    cases hrun
  · intro heq
    rw [heq] at hattempts
    exact absurd hattempts (by decide)
  · intro heq
    rw [heq, hkept] at hattempts
    exact absurd hattempts (by decide)

/-- The first statement fails: nothing is written in either branch. -/
theorem call_atomic_first : mixedFail.Atomic (failingAt 0) [heldRow 1 1, heldRow 2 2] := by
  refine (call_atomic_iff mixedFail (failingAt 0) [heldRow 1 1, heldRow 2 2] ?_).mpr ?_
  · refine ⟨fun hrun => ?_, ?_⟩
    · cases hrun
    · intro rows' count hexec
      cases (Env.exec_ok hexec).2.1
  · intro i hi j hji
    have hzero : (failingAt 0).firstFailure 0 mixedFail.stmts [heldRow 1 1, heldRow 2 2] = some 0 :=
      by decide
    rw [hzero] at hi
    cases hi
    cases hji

end Reliar.Store.Postgres
