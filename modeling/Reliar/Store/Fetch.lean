/-
# `Reliar.Store.Fetch` — the calls that return rows
(`reliar-store-postgres`: `store.rs`, `acquire`, `list_dead`; `reliar-outbox`:
`test_support/store.rs`, `list_dead`)

`acquire` is a claim and, where a returned row cannot be decoded, a second
statement that buries it.  `list_dead` is one `SELECT`.  Both decode what they
get row by row and report what they cannot decode.

Each statement of `acquire` runs in a transaction of its own in both branches, so
a `COMMIT` that fails is a statement that fails.  `RETURNING` gives its rows in
no particular order; here it is the table's.
-/
import Reliar.Store.Serial
import Reliar.Store.Memory

namespace Reliar.Store.Postgres

open Reliar.Core Reliar.Outbox

/-- The rows `decode_row` refuses, as a caller sees them. -/
def poisonedRows (rendering : Rendering) (rows : List Row) : List PoisonedRow :=
  rows.filterMap fun row =>
    match decodeRow row with
    | .ok _ => none
    | .error err => some (PoisonedRow.new err.id err.sequence (err.detail.text rendering))

/-! ## `acquire` -/

/-- `RETURNING`: the new versions of the rows a claim updated. -/
def returnedRows (now : Timestamp) (choice : Choice) (claim : Stmt) (rows : List Row) : List Row :=
  (rows.filter fun r => decide (r.sequence ∈ choice.targets) && claim.outer now r).filterMap
    (claim.after now choice)

/-- `PostgresOutboxStore::acquire`. -/
def runAcquire (rendering : Rendering) (request : AcquireRequest) (env : Env) (rows : List Row) :
    List Row × Except CallError AcquiredBatch :=
  match env.exec 0 (acquire request) rows with
  | .error err => (rows, .error err)
  | .ok (rows', _) =>
      let returned := returnedRows env.now (env.choice 0) (acquire request) rows
      let batch : AcquiredBatch := ⟨decoded returned, poisonedRows rendering returned⟩
      if (poisoned rendering returned).isEmpty then (rows', .ok batch)
      else
        match env.exec 1 (sweepPoisoned rendering returned request.worker.asStr) rows' with
        | .error err => (rows', .error err)
        | .ok (rows'', _) => (rows'', .ok batch)

/-! ## `list_dead` -/

def MAX_LIST_DEAD_LIMIT : Nat := 1000

/-- The `WHERE` clause; a bind that is `NULL` asks nothing. -/
def deadFilter (query : DeadQuery) (r : Row) : Bool :=
  r.deadAt.isSome &&
    (query.messageType.all fun ty => decide (r.columns.messageType = ty)) &&
    (query.tenantId.all fun tenant => decide (r.columns.tenantId = some tenant)) &&
    (query.deadBefore.all fun before => r.deadAt.any fun at' => decide (at' < before.unixNanos)) &&
    (query.afterSequence.all fun after => decide (after < r.sequence))

/-- The text parameters of `list_dead`. -/
def queryTexts (query : DeadQuery) : List String :=
  query.messageType.toList ++ query.tenantId.toList

/-- `list_dead_rows`. -/
def listDeadRows (query : DeadQuery) (limit : Nat) (rows : List Row) : Except SqlError (List Row) :=
  if (queryTexts query).any hasNul then .error .nulCharacter
  else
    .ok (((rows.filter (deadFilter query)).insertionSort fun r r' => r.sequence ≤ r'.sequence).take
      limit)

/-- The largest `sequence` scanned. -/
def maxSequence (rows : List Row) : Option Int :=
  rows.foldl (fun m r => some (m.elim r.sequence fun m => max m r.sequence)) none

/-- Of rows in ascending order it is the last one's. -/
theorem maxSequence_sorted {rows : List Row}
    (h : rows.Pairwise fun r r' => r.sequence ≤ r'.sequence) :
    maxSequence rows = rows.getLast?.map Row.sequence := by
  induction rows using List.reverseRecOn with
  | nil => rfl
  | append_singleton rows r ih =>
      obtain ⟨hrows, -, hlast⟩ := List.pairwise_append.mp h
      have hsnoc : maxSequence (rows ++ [r]) =
          some ((maxSequence rows).elim r.sequence fun m => max m r.sequence) := by
        rw [maxSequence, List.foldl_append]
        rfl
      rw [hsnoc, ih hrows, List.getLast?_concat, Option.map_some]
      cases hlast? : rows.getLast? with
      | none => rfl
      | some x =>
          have hle := hlast x (List.mem_of_getLast? hlast?) r List.mem_cons_self
          rw [Option.map_some, Option.elim_some, max_eq_right hle]

/-- `PostgresOutboxStore::list_dead`.  A page is full if as many rows were scanned as the limit
allows, whether they could be decoded or not. -/
def listDead (rendering : Rendering) (query : DeadQuery) (rows : List Row) :
    Except SqlError DeadLetterPage :=
  let cappedLimit := min query.limit MAX_LIST_DEAD_LIMIT
  match listDeadRows query cappedLimit rows with
  | .error err => .error err
  | .ok scanned =>
      .ok ⟨decoded scanned, poisonedRows rendering scanned,
        if scanned.length = cappedLimit then maxSequence scanned else none⟩

end Reliar.Store.Postgres

namespace Reliar.Store.Memory

open Reliar.Core Reliar.Outbox

/-- The five `filter`s of `list_dead`. -/
def deadMatches (query : DeadQuery) (row : OutboxRecord) : Bool :=
  row.deadAt.isSome &&
    (query.messageType.all fun ty => decide (row.envelope.messageType.name = ty)) &&
    (query.tenantId.all fun tenant => decide (row.envelope.metadata.tenantId = some tenant)) &&
    (query.deadBefore.all fun before => row.deadAt.any fun at' => decide (at' < before.unixNanos)) &&
    (query.afterSequence.all fun after => decide (after < row.sequence))

/-- `InMemoryOutboxStore::list_dead`. -/
def listDead (query : DeadQuery) (s : Inner) : DeadLetterPage :=
  let page := ((s.rows.filter (deadMatches query)).insertionSort
    fun r r' => r.sequence ≤ r'.sequence).take query.limit
  ⟨page, [], if page.length = query.limit then page.getLast?.map (·.sequence) else none⟩

end Reliar.Store.Memory
