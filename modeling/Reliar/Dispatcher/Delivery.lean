/-
# `Reliar.Dispatcher.Delivery` — what became of every message
(`reliar-outbox`: `dispatcher.rs`; `reliar-store-postgres`: `store.rs`)

`Causes` asks of the in-memory store what stands behind a terminal row.  Here the
table is PostgreSQL's and rows are purged, so the question is asked of the messages:
each is still in the table, as it was inserted, or it was delivered, refused by a
policy, past its expiry, or no dispatcher could have read it.

The evidence is in the logs of the dispatchers, which only grow, so it outlives the
row.  A message is inserted once (`Archive.Elsewhere.insert`), for a write names its
row by the id alone.
-/
import Reliar.Dispatcher.Attempts
import Reliar.Dispatcher.Causes
import Reliar.Store.Endings

namespace Reliar.Dispatcher

open Reliar.Core Reliar.Outbox Reliar.Store

/-! ## The table and what was inserted -/

/-- The table, and beside it every message that was ever inserted, and when others used the table. -/
structure Archive where
  db : Database
  inserted : List (MessageRef × Columns)
  times : List Timestamp

def Archive.empty : Archive := ⟨.empty, [], []⟩

def Archive.withRows (a : Archive) (rows : List Row) : Archive :=
  { a with db := { a.db with rows := rows } }

inductive Archive.Elsewhere (a : Archive) : Archive → Prop
  | insert {columns : Columns} {sequence : Int} {now : Timestamp}
      (hid : columns.id ∉ a.inserted.map (·.1.id.uuid))
      (hseq : sequence ∉ a.db.rows.map Row.sequence)
      (hok : Postgres.violated (Row.inserted columns sequence now) = none) :
      Archive.Elsewhere a
        { a.withRows (a.db.rows ++ [Row.inserted columns sequence now]) with
          inserted := ((Row.inserted columns sequence now).messageRef, columns) :: a.inserted }
  | call {c : Postgres.Call} {mode : Postgres.Mode} {env : Postgres.Env} (hc : c.outcomes = none)
      (hvalid : env.Valid 0 c.stmts a.db.rows) :
      Archive.Elsewhere a
        { a.withRows (c.run mode env a.db.rows).1 with times := env.now :: a.times }

def archive (rendering : Rendering) : Backend Archive where
  carriesOut a w op reply a' :=
    (database rendering).carriesOut a.db w op reply a'.db ∧ a'.inserted = a.inserted ∧
      a'.times = a.times
  elsewhere a a' := a.Elsewhere a'

/-! ## Evidence in the logs -/

section
variable {ι E : Type}

/-- Some member's publish of what these columns hold returned `Ok`. -/
def DeliveredBy (runs : ι → RunState E) (m : MessageRef) (columns : Columns) : Prop :=
  ∃ i t claimed, claimed ∈ (runs i).books.hist.acquired ∧
    (t, PendingRow.ofClaimed claimed) ∈ (runs i).books.hist.spawned ∧
    (t, .ok) ∈ (runs i).books.hist.resolved ∧
    claimed.record.messageRef = m ∧ decodeEnvelope columns = .ok claimed.record.envelope

/-- Some member's publish of it failed, and `reason` is its policy's verdict on that failure and the
attempts its claim read. -/
def RefusedBy (d : ι → OutboxDispatcher) (runs : ι → RunState E) (m : MessageRef)
    (columns : Columns) (reason : DeadReason) : Prop :=
  ∃ i t claimed result kind error unit, claimed ∈ (runs i).books.hist.acquired ∧
    (t, PendingRow.ofClaimed claimed) ∈ (runs i).books.hist.spawned ∧
    (t, result) ∈ (runs i).books.hist.resolved ∧
    publishOne (.ofClaimed claimed) (d i).settings.publishTimeout (some result) =
      .failed claimed.record.messageRef claimed.record.attempts kind error ∧
    claimed.record.messageRef = m ∧ decodeEnvelope columns = .ok claimed.record.envelope ∧
    (d i).retry.next unit claimed.record.attempts kind = .dead reason

def evidence (d : ι → OutboxDispatcher) (runs : ι → RunState E) (times : List Timestamp) :
    Postgres.Evidence :=
  ⟨DeliveredBy runs, RefusedBy d runs, (· ∈ times)⟩

theorem evidence_grows {d : ι → OutboxDispatcher} {runs runs' : ι → RunState E}
    {times times' : List Timestamp} (h : ∀ i, (runs i).books.Grows (runs' i).books)
    (htimes : times ⊆ times') : (evidence d runs times).Grows (evidence d runs' times') := by
  refine ⟨fun m columns hdelivered => ?_, fun m columns reason hrefused => ?_,
    fun now hnow => htimes hnow⟩
  · obtain ⟨i, t, claimed, hacq, hspawned, hresolved, hrest⟩ := hdelivered
    exact ⟨i, t, claimed, (h i).acquired hacq, (h i).spawned hspawned, (h i).resolved hresolved,
      hrest⟩
  · obtain ⟨i, t, claimed, result, kind, error, unit, hacq, hspawned, hresolved, hrest⟩ := hrefused
    exact ⟨i, t, claimed, result, kind, error, unit, (h i).acquired hacq, (h i).spawned hspawned,
      (h i).resolved hresolved, hrest⟩

/-- What holds of the archive and its clients. -/
structure Witnessed (d : ι → OutboxDispatcher) (runs : ι → RunState E) (a : Archive) : Prop where
  covers : (evidence d runs a.times).Covers a.inserted a.db.rows
  unique : (a.inserted.map (·.1.id)).Nodup
  /-- a record is a message that was inserted, decoded -/
  claims : ∀ i, ∀ x ∈ (runs i).received, ∃ columns,
    (x.record.messageRef, columns) ∈ a.inserted ∧ decodeEnvelope columns = .ok x.record.envelope

section
variable {d : ι → OutboxDispatcher} {runs runs' : ι → RunState E} {a a' : Archive}

theorem Witnessed.grow (h : Witnessed d runs a) (hruns : ∀ i, (runs i).books.Grows (runs' i).books)
    (hclaims : ∀ i, ∀ x ∈ (runs' i).received, ∃ columns,
      (x.record.messageRef, columns) ∈ a.inserted ∧
        decodeEnvelope columns = .ok x.record.envelope) : Witnessed d runs' a :=
  ⟨h.covers.grow (evidence_grows hruns fun _ ht => ht), h.unique, hclaims⟩

theorem Witnessed.elsewhere (h : Witnessed d runs a) (ha : a.Elsewhere a') : Witnessed d runs a' := by
  cases ha with
  | @insert columns sequence now hid hseq hok =>
      refine ⟨h.covers.insert hid hseq hok, List.nodup_cons.mpr ⟨fun hmem => hid ?_, h.unique⟩,
        fun i x hx => ?_⟩
      · obtain ⟨p, hp, heq⟩ := List.mem_map.mp hmem
        exact List.mem_map.mpr ⟨p, hp, congrArg MessageId.uuid heq⟩
      · obtain ⟨c, hc, hdecode⟩ := h.claims i x hx
        exact ⟨c, List.mem_cons_of_mem _ hc, hdecode⟩
  | @call c mode env hc hvalid =>
      have hlater : (evidence d runs (env.now :: a.times)).Covers a.inserted a.db.rows :=
        h.covers.grow (evidence_grows (fun _ => .refl _) (List.subset_cons_self _ _))
      exact ⟨hlater.run c mode (.of_none hc List.mem_cons_self) hvalid, h.unique, h.claims⟩

/-- A method the store carries out, given evidence for what it records. -/
theorem Witnessed.carriesOut (h : Witnessed d runs a) {rendering : Rendering} {w : WorkerId}
    {op : StoreCall} {reply : Reply} (ha : (archive rendering).carriesOut a w op reply a')
    (hop : ∀ c, op.postgres w = some c → ∀ time, (evidence d runs a.times).Vouches a.inserted time c) :
    Witnessed d runs a' := by
  obtain ⟨db', inserted', times'⟩ := a'
  obtain ⟨hdb, rfl, rfl⟩ := ha
  refine ⟨?_, h.unique, h.claims⟩
  cases hdb with
  | @acquire request env env' rows result after hvalid hrun hafter =>
      have hrows : rows = (Postgres.runAcquireThen rendering request env env' a.db.rows).1 := by
        rw [hrun]
      rw [hafter, Database.take, hrows]
      exact h.covers.acquire h.unique hvalid
  | @call _ c mode env rows count hc hvalid hrun =>
      have hrows : rows = (c.run mode env a.db.rows).1 := by rw [hrun]
      rw [hrows]
      exact h.covers.run c mode (hop c hc env.now) hvalid
  | stats => exact h.covers

/-- What an `acquire` hands out was inserted. -/
theorem Witnessed.batch (h : Witnessed d runs a) {rendering : Rendering} {w : WorkerId} {op : StoreCall}
    {records : List Claimed} {poisoned : List PoisonedRow}
    (ha : (archive rendering).carriesOut a w op (.batch records poisoned) a') {x : Claimed}
    (hx : x ∈ records) : ∃ columns, (x.record.messageRef, columns) ∈ a.inserted ∧
      decodeEnvelope columns = .ok x.record.envelope := by
  obtain ⟨db', inserted', times'⟩ := a'
  obtain ⟨hdb, -⟩ := ha
  generalize hreply : Reply.batch records poisoned = reply at hdb
  cases hdb with
  | @acquire request env env' rows result after hvalid hrun hafter =>
      cases result with
      | error err =>
          cases hreply
          cases hx
      | ok batch =>
          cases hreply
          obtain ⟨record, hrecord, rfl⟩ := List.mem_map.mp hx
          have hdecoded := Postgres.acquire_decoded (by rw [hrun]) hrecord
          exact h.covers.record hdecoded
  | call | stats => cases hreply

end

variable [DecidableEq ι] [Classify E] {d : ι → OutboxDispatcher} {now : ι → Instant}
  {rendering : Rendering} {c c' : Fleet ι E Archive} {es : List (FleetEvent ι E)}
  {e : FleetEvent ι E}

end

/-! ### A message that is delivered, completed and purged -/

/-- The publish has returned `Ok`, and the member is about to say so. -/
def completing : RunState FailureKind :=
  Machine.reach (next (sample .default)) (RunState.start .default 0)
    ([.enter, .fireClaim, .apply (leasedTable.handOut (claimAt 0 0 storedTable).2)] ++
      publishAndRetry)

end Reliar.Dispatcher
