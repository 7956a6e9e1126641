/-
# `Reliar.Store.Healthy` — one statement on a table in order

The table a statement meets when nobody else writes: rows as every run leaves
them (`RowOk`), each under its own sequence number.  On such a table a statement
can abort on its arithmetic only, PostgreSQL always has a choice to make, and
what is left is again a table in order.
-/
import Reliar.Store.RowState
import Reliar.Store.Serial

namespace Reliar.Store.Postgres

open Reliar.Core Reliar.Outbox

/-- Rows in order, under distinct numbers. -/
structure Healthy (rows : List Row) : Prop where
  ok : ∀ r ∈ rows, RowOk r
  sequences : (rows.map Row.sequence).Nodup

/-- Every reachable table is one. -/
theorem Db.Ok.healthy {db : Db} (h : db.Ok) : Healthy db.rows := ⟨h.rows, h.sequences⟩

theorem Healthy.unique {rows : List Row} (h : Healthy rows) {r x : Row} (hr : r ∈ rows)
    (hx : x ∈ rows) (heq : x.sequence = r.sequence) : x = r :=
  List.inj_on_of_nodup_map h.sequences hx hr heq

/-- A statement numbers no row anew. -/
theorem Stmt.onRows_sequences {stmt : Stmt} {now : Timestamp} {choice : Choice}
    {rows rows' : List Row} (h : stmt.onRows now choice rows = .ok rows') :
    (rows'.map Row.sequence).Sublist (rows.map Row.sequence) := by
  obtain ⟨hall, rfl⟩ := Stmt.onRows_ok.mp h
  clear h
  induction rows with
  | nil => exact .slnil
  | cons r rows ih =>
    have hrest := ih fun x hx => hall x (List.mem_cons_of_mem _ hx)
    obtain ⟨o, ho⟩ := hall r List.mem_cons_self
    cases o with
    | none =>
      rw [List.filterMap_cons_none (Stmt.after_eq ho)]
      exact hrest.cons _
    | some r' =>
      have hseq : r'.sequence = r.sequence := by
        rcases Stmt.onRow_some ho with rfl | hu
        · rfl
        · exact hu.immutable.2.2
      rw [List.filterMap_cons_some (Stmt.after_eq ho), List.map_cons, List.map_cons, hseq]
      exact hrest.cons_cons _

/-- What is left after a statement is a table in order. -/
theorem Healthy.onRows {stmt : Stmt} {now : Timestamp} {choice : Choice} {rows rows' : List Row}
    (h : Healthy rows) (hrows : stmt.onRows now choice rows = .ok rows') : Healthy rows' := by
  constructor
  · intro r' hr'
    obtain ⟨r, hr, hrow⟩ := (Stmt.onRows_mem hrows).mp hr'
    rcases Stmt.onRow_some hrow with rfl | hu
    · exact h.ok r' hr
    · exact hu.ok (h.ok r hr)
  · exact h.sequences.sublist (Stmt.onRows_sequences hrows)

/-- A target that qualifies gets what `SET` makes of it. -/
theorem Stmt.onRow_set {stmt : Stmt} {now : Timestamp} {choice : Choice} {r r' : Row}
    (hok : RowOk r) (htarget : r.sequence ∈ choice.targets) (houter : stmt.outer now r = true)
    (hset : stmt.set now (choice.item r.sequence) r = .ok (some r')) :
    stmt.onRow now choice r = .ok (some r') := by
  have hviolated : violated r' = none := by
    rcases set_cases houter hset with ⟨_, heq, hu⟩ | ⟨hnone, -⟩
    · cases heq
      exact (hu.ok hok).checked
    · cases hnone
  simp only [Stmt.onRow, htarget, if_true, Stmt.touch, houter, hset, hviolated]

/-! ## When a statement aborts -/

/-- On a row in order a statement aborts on its arithmetic only. -/
theorem touch_error {stmt : Stmt} {now : Timestamp} {i : Nat} {r : Row} (hok : RowOk r) :
    (∃ err, stmt.touch now i r = .error err) ↔
      stmt.outer now r = true ∧ ∃ err, stmt.set now i r = .error err := by
  constructor
  · rintro ⟨err, htouch⟩
    simp only [Stmt.touch] at htouch
    split at htouch
    · rename_i houter
      refine ⟨houter, ?_⟩
      split at htouch
      · exact ⟨_, ‹_›⟩
      · cases htouch
      · rename_i r' hset
        split at htouch
        · rename_i c hviolated
          cases htouch
          refine absurd ?_ (touch_ne_check hok stmt now i c)
          simp [Stmt.touch, houter, hset, hviolated]
        · cases htouch
    · cases htouch
  · rintro ⟨houter, err, hset⟩
    exact ⟨err, by simp [Stmt.touch, houter, hset]⟩


/-! ## Choices PostgreSQL can make -/

/-- The rows a statement without `LIMIT` picks. -/
def allTargets (now : Timestamp) (stmt : Stmt) (rows : List Row) : List Int :=
  (rows.filter (stmt.inner now)).map Row.sequence

theorem mem_allTargets {now : Timestamp} {stmt : Stmt} {rows : List Row} {r : Row}
    (hnd : (rows.map Row.sequence).Nodup) (hr : r ∈ rows) :
    r.sequence ∈ allTargets now stmt rows ↔ stmt.inner now r = true := by
  constructor
  · intro h
    obtain ⟨x, hx, hseq⟩ := List.mem_map.mp h
    obtain ⟨hx, hinner⟩ := List.mem_filter.mp hx
    rw [← List.inj_on_of_nodup_map hnd hx hr hseq]
    exact hinner
  · intro h
    exact List.mem_map.mpr ⟨r, List.mem_filter.mpr ⟨hr, h⟩, rfl⟩

/-- Without a `LIMIT` all rows that qualify are picked; which of its items joins a row is free. -/
theorem exists_choice {now : Timestamp} {stmt : Stmt} {rows : List Row} {Q : Row → Nat → Prop}
    (hnd : (rows.map Row.sequence).Nodup) (hlimit : stmt.limit = none)
    (hitems : ∀ r ∈ rows, stmt.inner now r = true → ∃ i, stmt.picks i r = true ∧ Q r i) :
    ∃ choice : Choice, choice.Valid now rows stmt ∧
      ∀ r ∈ rows, stmt.inner now r = true →
        r.sequence ∈ choice.targets ∧ Q r (choice.item r.sequence) := by
  classical
  have hex : ∀ q, ∃ i, ∀ r ∈ rows, r.sequence = q → stmt.inner now r = true →
      stmt.picks i r = true ∧ Q r i := by
    intro q
    by_cases hq : ∃ r ∈ rows, r.sequence = q ∧ stmt.inner now r = true
    · obtain ⟨r, hr, rfl, hinner⟩ := hq
      obtain ⟨i, hi⟩ := hitems r hr hinner
      refine ⟨i, fun x hx hseq _ => ?_⟩
      rw [List.inj_on_of_nodup_map hnd hx hr hseq]
      exact hi
    · exact ⟨0, fun r hr hseq hinner => absurd ⟨r, hr, hseq, hinner⟩ hq⟩
  choose item hitem using hex
  refine ⟨⟨allTargets now stmt rows, item⟩, ⟨?_, ?_⟩, ?_⟩
  · simp only [Stmt.pick, hlimit, Bool.and_eq_true, decide_eq_true_eq, List.all_eq_true,
      List.any_eq_true, beq_iff_eq, Bool.or_eq_true, Bool.not_eq_true', List.contains_iff_mem]
    refine ⟨⟨hnd.sublist (List.filter_sublist.map _), ?_⟩, ?_⟩
    · intro q hq
      obtain ⟨r, hr, rfl⟩ := List.mem_map.mp hq
      obtain ⟨hr, hinner⟩ := List.mem_filter.mp hr
      exact ⟨r, hr, rfl, hinner⟩
    · intro r hr
      cases hinner : stmt.inner now r with
      | false => exact .inl rfl
      | true => exact .inr ((mem_allTargets hnd hr).mpr hinner)
  · intro r hr htarget
    exact (hitem r.sequence r hr rfl ((mem_allTargets hnd hr).mp htarget)).1
  · intro r hr hinner
    exact ⟨(mem_allTargets hnd hr).mpr hinner, (hitem r.sequence r hr rfl hinner).2⟩

end Reliar.Store.Postgres
