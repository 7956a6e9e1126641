/-
# `Reliar.Dispatcher.Database` — a fleet over PostgreSQL
(`reliar-store-postgres`: `store.rs`)

`Database` is the table as a `Backend`.  Each method runs its own statements, on the
rows as they are.  PostgreSQL chooses as it can, and nothing is assumed of its clock,
or of which statement fails; a call of which only a part is carried out is the
fleet's `FleetEvent.part`.

Beside the table stands a log nobody reads: the claims, each by the reference of its
row.  It numbers the claims of a row, and that number is the `stamp` of a `Claimed`.
-/
import Reliar.Dispatcher.Fleet
import Reliar.Store.Writes

namespace Reliar.Dispatcher

open Reliar.Core Reliar.Outbox Reliar.Store

structure Database where
  rows : List Row
  /-- The claims, latest first. -/
  taken : List MessageRef

def Database.empty : Database := ⟨[], []⟩

/-- The methods that write, `acquire` apart. -/
def StoreCall.postgres (w : WorkerId) : StoreCall → Option Postgres.Call
  | .complete items => some (.complete w items)
  | .fail items => some (.fail w items)
  | .release messages => some (.release w messages)
  | .extendLease messages lease => some (.extendLease w messages lease)
  | _ => none

/-- How many times the row was claimed. -/
def Database.claims (st : Database) (m : MessageRef) : Nat := st.taken.count m

/-- The claim of an `acquire` takes these rows. -/
def Database.take (st : Database) (rows : List Row) (refs : List MessageRef) : Database :=
  ⟨rows, refs ++ st.taken⟩

/-- What an `acquire` hands out; nothing where its second statement fails. -/
def Database.handOut (st : Database) : Except Postgres.CallError AcquiredBatch → Reply
  | .ok batch => .batch (batch.records.map fun r => ⟨r, st.claims r.messageRef⟩) batch.poisoned
  | .error _ => .batch [] []

inductive Database.CarriesOut (rendering : Rendering) (st : Database) (w : WorkerId) :
    StoreCall → Reply → Database → Prop
  | acquire {request : AcquireRequest} {env env' : Postgres.Env} {rows : List Row}
      {result : Except Postgres.CallError AcquiredBatch} {after : Database}
      (hvalid : Postgres.AcquireValid rendering request env env' st.rows)
      (h : Postgres.runAcquireThen rendering request env env' st.rows = (rows, result))
      (hafter : after = st.take rows
        ((Postgres.claimReturns request env st.rows).map Row.messageRef)) :
      Database.CarriesOut rendering st w (.acquire request) (after.handOut result) after
  | call {op : StoreCall} {c : Postgres.Call} {mode : Postgres.Mode} {env : Postgres.Env}
      {rows : List Row} {count : Nat} (hop : op.postgres w = some c)
      (hvalid : env.Valid 0 c.stmts st.rows)
      (h : c.run mode env st.rows = (rows, .ok (.affected count))) :
      Database.CarriesOut rendering st w op (.affected count) { st with rows := rows }
  | stats {stats : OutboxStats} :
      Database.CarriesOut rendering st w .stats (.stats stats) st

/-- Everyone but the dispatchers: an insert, or a call that records no outcome, whether it succeeds or
not. -/
inductive Database.Elsewhere (st : Database) : Database → Prop
  | insert {columns : Columns} {sequence : Int} {now : Timestamp}
      (hid : columns.id ∉ st.rows.map fun r => r.columns.id)
      (hseq : sequence ∉ st.rows.map Row.sequence)
      (hok : Postgres.violated (Row.inserted columns sequence now) = none) :
      Database.Elsewhere st { st with rows := st.rows ++ [Row.inserted columns sequence now] }
  | call {c : Postgres.Call} {mode : Postgres.Mode} {env : Postgres.Env} (hc : c.outcomes = none)
      (hvalid : env.Valid 0 c.stmts st.rows) :
      Database.Elsewhere st { st with rows := (c.run mode env st.rows).1 }

def database (rendering : Rendering) : Backend Database where
  carriesOut st w op reply st' := Database.CarriesOut rendering st w op reply st'
  elsewhere st st' := st.Elsewhere st'

/-! ## Row by row -/

section
variable {rendering : Rendering} {st st' : Database} {w : WorkerId} {op : StoreCall} {reply : Reply}

theorem postgres_outcomes {c : Postgres.Call} (h : op.postgres w = some c) :
    (∃ items, op = .complete items ∧ c.outcomes = some (w, items.map (·.message))) ∨
      (∃ items, op = .fail items ∧ c.outcomes = some (w, items.map (·.message))) ∨
        c.quiet = true := by
  cases op with
  | complete items => cases h; exact .inl ⟨items, rfl, rfl⟩
  | fail items => cases h; exact .inr (.inl ⟨items, rfl, rfl⟩)
  | release messages => cases h; exact .inr (.inr rfl)
  | extendLease messages lease => cases h; exact .inr (.inr rfl)
  | acquire | stats => cases h

/-- The messages of an outcome write. -/
def StoreCall.outcomes : StoreCall → List MessageRef
  | .complete items => items.map (·.message)
  | .fail items => items.map (·.message)
  | _ => []

/-- What a row has behind it after a method that takes no rows. -/
theorem CarriesOut.row (h : (database rendering).carriesOut st w op reply st')
    (hop : ∀ request, op ≠ .acquire request) {r' : Row} (hr' : r' ∈ st'.rows) :
    ∃ r ∈ st.rows, Postgres.Quiet r r' ∨
      Postgres.Counted (op.outcomes.map (·.id.uuid)) w.asStr r r' := by
  cases h with
  | acquire => exact absurd rfl (hop _)
  | @call _ c mode env rows count hc _ hrun =>
      have hrows : rows = (c.run mode env st.rows).1 := by rw [hrun]
      subst hrows
      rcases postgres_outcomes hc with ⟨items, rfl, hout⟩ | ⟨items, rfl, hout⟩ | hquiet
      · obtain ⟨r, hr, rfl | hcounted⟩ := Postgres.run_counted hout hr'
        · exact ⟨r', hr, .inl (.refl _)⟩
        · exact ⟨r, hr, .inr hcounted⟩
      · obtain ⟨r, hr, rfl | hcounted⟩ := Postgres.run_counted hout hr'
        · exact ⟨r', hr, .inl (.refl _)⟩
        · exact ⟨r, hr, .inr hcounted⟩
      · obtain ⟨r, hr, hq⟩ := Postgres.run_quiet hquiet hr'
        exact ⟨r, hr, .inl hq⟩
  | stats => exact ⟨r', hr', .inl (.refl _)⟩

/-- Such a method claims nothing. -/
theorem CarriesOut.taken_eq (h : (database rendering).carriesOut st w op reply st')
    (hop : ∀ request, op ≠ .acquire request) :
    st'.taken = st.taken ∧ ∀ records poisoned, reply ≠ .batch records poisoned := by
  cases h with
  | acquire => exact absurd rfl (hop _)
  | call | stats => exact ⟨rfl, fun _ _ h => by cases h⟩

theorem CarriesOut.keyed (h : (database rendering).carriesOut st w op reply st')
    (hkeyed : Postgres.Keyed st.rows) : Postgres.Keyed st'.rows := by
  cases h with
  | @acquire request env env' rows result after _ hrun hafter =>
      subst hafter
      have hrows : rows = (Postgres.runAcquireThen rendering request env env' st.rows).1 := by
        rw [hrun]
      rw [Database.take, hrows]
      exact hkeyed.acquire request
  | @call _ c mode env rows count _ _ hrun =>
      have hrows : rows = (c.run mode env st.rows).1 := by rw [hrun]
      rw [hrows]
      exact hkeyed.run c mode
  | stats => exact hkeyed

theorem Database.Elsewhere.keyed (h : st.Elsewhere st') (hkeyed : Postgres.Keyed st.rows) :
    Postgres.Keyed st'.rows := by
  cases h with
  | insert hid hseq => exact hkeyed.insert hid hseq
  | @call c mode env => exact hkeyed.run c mode

/-- A row after a step elsewhere: it is new, it starts over, or it counts nothing and gains no
lease. -/
theorem Database.Elsewhere.row (h : st.Elsewhere st') (hkeyed : Postgres.Keyed st.rows) {r' : Row}
    (hr' : r' ∈ st'.rows) :
    (r'.attempts = 0 ∧ r'.lockedBy = none ∧ r'.deadAt = none ∧
        ∀ r ∈ st.rows, r.messageRef = r'.messageRef → r.deadAt.isSome = true) ∨
      ∃ r ∈ st.rows, Postgres.Quiet r r' := by
  cases h with
  | @insert columns sequence now hid =>
      rcases List.mem_append.mp hr' with hr' | hr'
      · exact .inr ⟨r', hr', .refl _⟩
      · rw [List.mem_singleton.mp hr']
        refine .inl ⟨rfl, rfl, rfl, fun r hr href => absurd ?_ hid⟩
        have heq : r.columns.id = columns.id := congrArg (·.id.uuid) href
        exact heq ▸ List.mem_map_of_mem hr
  | @call c mode env hc =>
      have hquiet : c.quiet = true → ∃ r ∈ st.rows, Postgres.Quiet r r' :=
        fun hq => Postgres.run_quiet hq hr'
      cases c with
      | complete | fail => cases hc
      | release | extendLease | purge | purgeDead => exact .inr (hquiet rfl)
      | retryDead refs =>
          obtain ⟨r, hr, rfl | hrevived⟩ := Postgres.run_revived hr'
          · exact .inr ⟨r', hr, .refl _⟩
          · refine .inl ⟨hrevived.attempts, hrevived.lock, hrevived.alive, fun x hx href => ?_⟩
            rw [hkeyed.eq_of_id hx hr (congrArg MessageRef.id (href.trans hrevived.ref))]
            exact hrevived.dead

theorem Database.Elsewhere.taken_eq (h : st.Elsewhere st') : st'.taken = st.taken := by
  cases h with
  | insert | call => rfl

end

end Reliar.Dispatcher
