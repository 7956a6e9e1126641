/-
# `Reliar.Store.Enqueue` — a message in the caller's transaction
(`reliar-store-postgres`: `store.rs`, `error.rs`)

`enqueue` and `stage` write into a transaction that is not theirs.  They are up
to four statements, of which each may fail: the caller's `search_path` is read,
replaced, used by an unqualified `INSERT` and put back, the last only if nothing
has failed.

`Plain` is what the caller should see of it: one statement that adds a row to one
table, and leaves the setting alone.  Whatever else the transaction does, the two
cannot be told apart, so its messages are there exactly if its other writes are.
-/
import Reliar.Lib.Transaction
import Reliar.Store.SchemaName
import Reliar.Store.RowState

namespace Reliar.Store.Postgres

open Reliar.Core Reliar.Outbox

structure PostgresOutboxSettings where
  schema : String
  enqueueSetsSearchPath : Bool
  statementTimeout : Duration

def PostgresOutboxSettings.default : PostgresOutboxSettings := ⟨"reliar", false, 0⟩

/-- What `enqueue` looks at in a `sqlx::Error`: the constraint, beside the SQLSTATE. -/
structure QueryError where
  constraint : Option String
  source : SqlxError
  deriving DecidableEq

inductive EnqueueError (E : Type)
  | serialize (source : E)
  | duplicate (id : MessageId)
  | database (source : QueryError)

def isConstraintViolation (err : QueryError) (constraint : String) : Bool :=
  decide (err.constraint = some constraint)

def mapEnqueueError {E : Type} (id : MessageId) (err : QueryError) : EnqueueError E :=
  if isConstraintViolation err "pk_outbox" then .duplicate id else .database err

/-! ## A transaction of the host -/

/-- What a transaction writes: rows of the host's own, and messages. -/
inductive Effect (H : Type)
  | host (write : H)
  | outbox (schema : String) (columns : Columns)

/-- The setting `search_path`, and what has been written so far. -/
structure Work (H : Type) where
  searchPath : String
  wrote : List (Effect H)

/-- The tables there are.  The transaction neither makes nor drops one named `outbox`, and there is
none in `pg_temp`. -/
structure Server where
  catalog : Catalog
  user : String

/-- The schema whose `outbox` an unqualified name means, under this setting. -/
def Server.home (server : Server) (setting : String) : Option String :=
  server.catalog.resolve
    (((searchPath setting).getD []).map fun n => if n = "$user" then server.user else n)

namespace Enqueue

variable {H : Type}

/-! ### The statements -/

abbrev Statement (H α : Type) := StateT (Work H) (Except QueryError) α

abbrev Session (H α : Type) := Transaction.Session QueryError (Work H) α

/-- `25P02`: the transaction has failed before. -/
def refused : QueryError := ⟨none, .database (some "25P02")⟩

/-- `22023`: no list of identifiers. -/
def invalidPath : QueryError := ⟨none, .database (some "22023")⟩

/-- `42P01` -/
def undefinedTable : QueryError := ⟨none, .database (some "42P01")⟩

/-- `23505`: the transaction has written this id itself.  A row of somebody else's is a `fault`. -/
def duplicateKey : QueryError := ⟨some "pk_outbox", .database (some "23505")⟩

/-- Any statement may fail. -/
def query {α : Type} (fault : Option QueryError) (f : Statement H α) : Statement H α :=
  match fault with
  | some err => throw err
  | none => f

/-- `SELECT current_setting('search_path')` -/
def currentSetting : Statement H String := do
  return (← get).searchPath

/-- `SELECT set_config('search_path', $1, true)`, or the host's `SET LOCAL search_path`. -/
def setConfig (setting : String) : Statement H Unit := do
  if (searchPath setting).isSome then modify fun w => { w with searchPath := setting }
  else throw invalidPath

/-- The ids the transaction has written to this table. -/
def ids (home : String) (wrote : List (Effect H)) : List Uuid :=
  wrote.filterMap fun
    | .outbox schema columns => if schema = home then some columns.id else none
    | .host _ => none

/-- `INSERT INTO outbox` -/
def insertOutbox (server : Server) (columns : Columns) : Statement H Unit := do
  let w ← get
  match server.home w.searchPath with
  | none => throw undefinedTable
  | some home =>
      if columns.id ∈ ids home w.wrote then throw duplicateKey
      else set { w with wrote := w.wrote ++ [Effect.outbox home columns] }

/-- How each statement of an `insert_staged` fails, if it is issued and does. -/
structure Faults where
  current : Option QueryError
  set : Option QueryError
  insert : Option QueryError
  restore : Option QueryError

def noFaults : Faults := ⟨none, none, none, none⟩

/-! ### `store.rs` -/

def issue {α : Type} (fault : Option QueryError) (f : Statement H α) : Session H α :=
  Transaction.statement refused (query fault f)

def setSearchPath (schema : String) (faults : Faults) : Session H String := do
  let previous ← issue faults.current currentSetting
  issue faults.set (setConfig (wantedPath schema))
  return previous

def restoreSearchPath (previous : String) (faults : Faults) : Session H Unit :=
  issue faults.restore (setConfig previous)

/-- The `?` of the `INSERT` comes before the restore: a failed transaction is left as it is. -/
def insertStaged (settings : PostgresOutboxSettings) (server : Server) (columns : Columns)
    (faults : Faults) : Session H Unit := do
  let restore ←
    if settings.enqueueSetsSearchPath then some <$> setSearchPath settings.schema faults
    else pure none
  issue faults.insert (insertOutbox server columns)
  match restore with
  | some previous => restoreSearchPath previous faults
  | none => pure ()

/-- `enqueue_with`: a body that does not serialize issues nothing. -/
def enqueueWith {T E : Type} (settings : PostgresOutboxSettings) (serializer : Serializer T E)
    (server : Server) (envelope : Envelope T) (options : EnqueueOptions) (faults : Faults)
    (t : Transaction (Work H)) : Except (EnqueueError E) MessageId × Transaction (Work H) :=
  match Store.enqueueWith serializer envelope options with
  | .error source => (.error (.serialize source), t)
  | .ok columns =>
      let (result, t) := Transaction.perform (insertStaged settings server columns faults) t
      ((result.mapError (mapEnqueueError envelope.id)).map fun _ => envelope.id, t)

/-- `OutboxStaging::stage` -/
def stage (settings : PostgresOutboxSettings) (server : Server) (envelope : SerializedEnvelope)
    (faults : Faults) (t : Transaction (Work H)) :
    Except (EnqueueError Empty) MessageId × Transaction (Work H) :=
  let (result, t) := Transaction.perform
    (insertStaged settings server (Store.stage envelope) faults) t
  ((result.mapError (mapEnqueueError envelope.id)).map fun _ => envelope.id, t)

/-! ## One statement -/

/-- The statements of an `insert_staged`, as one. -/
def staged (settings : PostgresOutboxSettings) (server : Server) (columns : Columns)
    (faults : Faults) : Statement H Unit :=
  if settings.enqueueSetsSearchPath then do
    let previous ← query faults.current currentSetting
    query faults.set (setConfig (wantedPath settings.schema))
    query faults.insert (insertOutbox server columns)
    query faults.restore (setConfig previous)
  else query faults.insert (insertOutbox server columns)

/-- What goes wrong before the row is written, and after. -/
def Faults.early (settings : PostgresOutboxSettings) (faults : Faults) : Option QueryError :=
  if settings.enqueueSetsSearchPath then faults.current <|> faults.set <|> faults.insert
  else faults.insert

def Faults.late (settings : PostgresOutboxSettings) (faults : Faults) : Option QueryError :=
  if settings.enqueueSetsSearchPath then faults.restore else none

/-- What the caller should see: one row more, or an error. -/
def plain (settings : PostgresOutboxSettings) (home : String) (columns : Columns) (faults : Faults) :
    Statement H Unit := do
  let w ← query (faults.early settings) get
  if columns.id ∈ ids home w.wrote then throw duplicateKey
  else query (faults.late settings) (set { w with wrote := w.wrote ++ [Effect.outbox home columns] })

section
variable {settings : PostgresOutboxSettings} {server : Server} {columns : Columns} {faults : Faults}
  {home : String} {w w' : Work H}

theorem insertStaged_eq : insertStaged (H := H) settings server columns faults =
    Transaction.statement refused (staged settings server columns faults) := by
  unfold insertStaged staged
  split
  · simp only [setSearchPath, restoreSearchPath, issue, bind_assoc, map_eq_pure_bind, pure_bind,
      Transaction.statement_bind]
  · simp only [issue, pure_bind, bind_pure_unit]

/-- The `INSERT` reaches this table: the configured schema is put in front, or the caller's own
setting says so; and what the caller has set can be set again. -/
structure Homed (settings : PostgresOutboxSettings) (server : Server) (home : String)
    (setting : String) : Prop where
  valid : (searchPath setting).isSome = true
  wanted : settings.enqueueSetsSearchPath = true →
    (searchPath (wantedPath settings.schema)).isSome = true ∧
      server.home (wantedPath settings.schema) = some home
  own : settings.enqueueSetsSearchPath = false → server.home setting = some home

open Transaction (run_bind_ok run_bind_error)

theorem setConfig_run {setting : String} (h : (searchPath setting).isSome = true) :
    (setConfig setting).run w = .ok ((), { w with searchPath := setting }) := by
  simp only [setConfig, h, if_true, StateT.run_modify]
  rfl

theorem insertOutbox_run (h : server.home w.searchPath = some home) :
    (insertOutbox server columns).run w =
      if columns.id ∈ ids home w.wrote then .error duplicateKey
      else .ok ((), { w with wrote := w.wrote ++ [.outbox home columns] }) := by
  simp only [insertOutbox, StateT.run_bind, StateT.run_get, pure_bind, h]
  split <;> rfl

theorem plain_run : (plain settings home columns faults).run w =
    match faults.early settings with
    | some err => .error err
    | none =>
        if columns.id ∈ ids home w.wrote then .error duplicateKey
        else match faults.late settings with
          | some err => .error err
          | none => .ok ((), { w with wrote := w.wrote ++ [.outbox home columns] }) := by
  unfold plain
  cases faults.early settings with
  | some err => rfl
  | none =>
      simp only [query, StateT.run_bind, StateT.run_get, pure_bind]
      split
      · rfl
      · cases faults.late settings <;> rfl

/-- Putting the setting back hides that it was replaced. -/
theorem staged_eq (columns : Columns) (faults : Faults)
    (h : Homed settings server home w.searchPath) :
    (staged settings server columns faults).run w = (plain settings home columns faults).run w := by
  obtain ⟨current, set, insert, restore⟩ := faults
  rw [plain_run, Faults.early, Faults.late]
  unfold staged
  cases hsets : settings.enqueueSetsSearchPath with
  | false =>
      cases insert with
      | some err => rfl
      | none => exact insertOutbox_run (h.own hsets)
  | true =>
      obtain ⟨hwanted, hhome⟩ := h.wanted hsets
      simp only [if_true]
      cases current with
      | some err => rfl
      | none =>
          have hread : (query none currentSetting).run w = .ok (w.searchPath, w) := rfl
          rw [run_bind_ok hread]
          cases set with
          | some err => rfl
          | none =>
              have hset : (query none (setConfig (wantedPath settings.schema))).run w = _ :=
                setConfig_run hwanted
              rw [run_bind_ok hset]
              cases insert with
              | some err => rfl
              | none =>
                  have hinsert : (query none (insertOutbox server columns)).run
                      { w with searchPath := wantedPath settings.schema } = _ :=
                    insertOutbox_run hhome
                  by_cases hdup : columns.id ∈ ids home w.wrote
                  · rw [if_pos hdup] at hinsert ⊢
                    exact run_bind_error hinsert
                  · rw [if_neg hdup] at hinsert ⊢
                    rw [run_bind_ok hinsert]
                    cases restore with
                    | some err => rfl
                    | none => exact setConfig_run h.valid

theorem Homed.move {setting setting' : String} (h : Homed settings server home setting)
    (hvalid : (searchPath setting').isSome = true)
    (hown : settings.enqueueSetsSearchPath = false → server.home setting' = some home) :
    Homed settings server home setting' := ⟨hvalid, h.wanted, hown⟩

end

/-! ## A host's transaction -/

/-- What a host issues: statements of its own, and messages, serialized.  What its statements read
is not modelled; any of them may fail. -/
inductive HostCall (H : Type)
  | write (row : H) (fault : Option QueryError)
  | setSearchPath (setting : String) (fault : Option QueryError)
  | enqueue (columns : Columns) (faults : Faults)

def HostCall.own (c : HostCall H) (enqueue : Columns → Faults → Statement H Unit) :
    Statement H Unit :=
  match c with
  | .write row fault => query fault (modify fun w => { w with wrote := w.wrote ++ [.host row] })
  | .setSearchPath setting fault => query fault (setConfig setting)
  | .enqueue columns faults => enqueue columns faults

/-- With `insert_staged` for every message. -/
def HostCall.proc (settings : PostgresOutboxSettings) (server : Server) (c : HostCall H) :
    Session H Unit :=
  match c with
  | .enqueue columns faults => insertStaged settings server columns faults
  | c => Transaction.statement refused (c.own fun _ _ => pure ())

/-- With one statement for every message. -/
def HostCall.plain (settings : PostgresOutboxSettings) (home : String) (c : HostCall H) :
    Session H Unit :=
  Transaction.statement refused (c.own (Enqueue.plain settings home))

/-- What a call that goes well adds to what the transaction writes. -/
def HostCall.effect (home : String) : HostCall H → List (Effect H)
  | .write row _ => [.host row]
  | .setSearchPath _ _ => []
  | .enqueue columns _ => [.outbox home columns]

section
variable {settings : PostgresOutboxSettings} {server : Server} {home : String}
  {cs : List (Transaction.Command (HostCall H))} {w w' : Work H} {setting : String}

/-- Every `INSERT` of the transaction reaches this table. -/
structure Reaches (settings : PostgresOutboxSettings) (server : Server) (home setting : String)
    (cs : List (Transaction.Command (HostCall H))) : Prop where
  start : Homed settings server home setting
  own : ∀ other fault, Transaction.Command.call (.setSearchPath other fault) ∈ cs →
    settings.enqueueSetsSearchPath = false → server.home other = some home

/-- A message that goes well is new to the transaction. -/
theorem plain_ok {columns : Columns} {faults : Faults} {u : Unit}
    (h : (Enqueue.plain settings home columns faults).run w = .ok (u, w')) :
    columns.id ∉ ids home w.wrote ∧ w' = { w with wrote := w.wrote ++ [.outbox home columns] } := by
  rw [plain_run] at h
  split at h
  · cases h
  · split at h
    · cases h
    · rename_i hnew
      split at h
      · cases h
      · cases h
        exact ⟨hnew, rfl⟩

/-- The state every call of the program starts from. -/
def Kept (settings : PostgresOutboxSettings) (server : Server) (home : String) (w : Work H) : Prop :=
  Homed settings server home w.searchPath ∧ (ids home w.wrote).Nodup

end

/-! ### A store that connected -/

section
variable {settings : PostgresOutboxSettings} {server : Server} {setting : String}

/-- With `enqueue_sets_search_path`, whatever the host does with the setting: the row goes where the
store was connected to. -/
theorem homed_of_connect {pool : String} {others : List String}
    (hconnect : connect server.catalog pool (none, none) settings.schema = .ok others)
    (hlower : ∀ c ∈ settings.schema.toList, c.isUpper = false)
    (hsets : settings.enqueueSetsSearchPath = true) (hvalid : (searchPath setting).isSome = true) :
    Homed settings server settings.schema setting := by
  have hschema : isValidSchemaName settings.schema = true := by
    by_contra hnot
    rw [Bool.not_eq_true] at hnot
    simp only [connect, hnot, Bool.not_false, if_true] at hconnect
    cases hconnect
  have hmem := mem_of_firstOf ((connect_ok_iff hschema).mp ⟨others, hconnect⟩)
  have hwanted := searchPath_wantedPath hschema
  rw [folded_eq_self.mpr hlower] at hwanted
  have huser : settings.schema ≠ "$user" := by
    intro heq
    rw [heq] at hschema
    exact absurd hschema (by decide)
  refine ⟨hvalid, fun _ => ⟨by rw [hwanted]; rfl, ?_⟩, fun hno => ?_⟩
  · rw [Server.home, hwanted, Option.getD_some, List.map_cons, if_neg huser]
    exact firstOf_of_mem hmem
  · rw [hsets] at hno
    cases hno

end

/-! ### Three messages, of which one is rolled back -/

def sampleServer : Server where
  catalog :=
    { schemas := ["public", "reliar"]
      outboxes := ["public", "reliar"]
      recorded := []
      outboxes_mem := fun _ h => h
      recorded_mem := fun _ h => absurd h List.not_mem_nil }
  user := "app"

def setsPath : PostgresOutboxSettings := { PostgresOutboxSettings.default with
  enqueueSetsSearchPath := true }

def message (n : Nat) (faults : Faults) : Transaction.Command (HostCall String) :=
  .call (.enqueue (sampleColumns n none) faults)

/-- The second message fails within a savepoint, under a setting of the host's. -/
def sampleCalls : List (Transaction.Command (HostCall String)) :=
  [.call (.write "order" none), message 1 noFaults, .savepoint,
    .call (.setSearchPath "public" none),
    message 2 { noFaults with insert := some ⟨none, .database (some "57014")⟩ }, .rollbackTo,
    message 3 noFaults]

theorem sampleCalls_reach : Reaches setsPath sampleServer "reliar" "app" sampleCalls := by
  have hconnect : connect sampleServer.catalog "reliar" (none, none) "reliar" = .ok ["public"] := rfl
  refine ⟨homed_of_connect hconnect (fun c hc => ?_) rfl (by decide), fun _ _ _ hno => by cases hno⟩
  exact Bool.eq_false_iff.mpr fun hupper =>
    absurd (List.any_eq_true.mpr ⟨c, hc, hupper⟩) (by decide)

end Enqueue

end Reliar.Store.Postgres
