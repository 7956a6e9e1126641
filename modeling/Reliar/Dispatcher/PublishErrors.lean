/-
# `Reliar.Dispatcher.PublishErrors` — what a publish error can do to the loop
(`reliar-outbox`: `dispatcher.rs`; `reliar-store-postgres`: `store.rs`, `error.rs`)

A failed publish is an outcome like any other: `record_publish_results` asks the
retry policy, `FailedMessage::new` truncates the error text, `fail` binds text
and delay to a statement.  Both values come from outside, and PostgreSQL takes
neither unseen: a text with U+0000 and a timestamp out of range are data
exceptions, class 22, which `classify_sqlstate` calls permanent, and a permanent
error of an outcome write ends `run`.

`publish_errors_survive_iff` says exactly which failures can be recorded.
-/
import Reliar.Dispatcher.Moves
import Reliar.Store.Errors
import Reliar.Store.Healthy

/-! ## The error of a statement -/

namespace Reliar.Store.Postgres

open Reliar.Core Reliar.Outbox

/-- The SQLSTATE PostgreSQL aborts a statement with. -/
def SqlError.sqlstate : SqlError → String
  | .timestampOutOfRange => "22008"
  | .integerOutOfRange => "22003"
  | .check _ => "23514"
  | .nulCharacter => "22021"

def CallError.sqlx : CallError → SqlxError
  | .sql err => .database (some err.sqlstate)
  | .connection => .other

/-- What a method of the store returns for a failed call. -/
def CallError.stored (schema : String) (err : CallError) : PostgresStoreError :=
  mapOperationalError schema err.sqlx

/-- A statement never aborts for a passing reason; only the connection fails so. -/
theorem stored_permanent_iff (schema : String) (err : CallError) :
    Classify.kind (err.stored schema) = .permanent ↔ ∃ e, err = .sql e := by
  cases err with
  | connection => simp [CallError.stored, CallError.sqlx, mapOperationalError, isUndefinedTable,
      Classify.kind, classifySqlstate]
  | sql e =>
      refine ⟨fun _ => ⟨e, rfl⟩, fun _ => ?_⟩
      have hnot : isUndefinedTable (.database (some e.sqlstate)) = false := by
        cases e <;> rfl
      have hclass : classifySqlstate (.database (some e.sqlstate)) = .permanent := by
        cases e with
        | check c => exact (by decide : classifySqlstate (.database (some "23514")) = .permanent)
        | _ => decide
      simp only [CallError.stored, CallError.sqlx, mapOperationalError, hnot, Bool.false_eq_true,
        if_false]
      exact hclass

/-! ## When a statement aborts -/

theorem incAttempts_error {n : Int} : (∃ err, incAttempts n = .error err) ↔ INT_MAX ≤ n := by
  simp only [incAttempts]
  split
  · rename_i hlt
    simp only [reduceCtorEq, exists_false, false_iff]
    omega
  · rename_i hge
    exact ⟨fun _ => by omega, fun _ => ⟨_, rfl⟩⟩

theorem failRetry_set_error {items : List (Uuid × String × Int)} {worker : String}
    {now : Timestamp} {i : Nat} {r : Row} :
    (∃ err, (Stmt.failRetry items worker).set now i r = .error err) ↔
      INT_MAX ≤ r.attempts ∨
        ∃ err, addMillis now ((items[i]?.map fun item => item.2.2).getD 0) = .error err := by
  rw [← incAttempts_error]
  cases hinc : incAttempts r.attempts with
  | error err => simp [Stmt.set, hinc, bind, Except.bind]
  | ok n =>
      cases hadd : addMillis now ((items[i]?.map fun item => item.2.2).getD 0) with
      | error err => simp [Stmt.set, hinc, hadd, bind, Except.bind]
      | ok t => simp [Stmt.set, hinc, hadd, bind, Except.bind, pure, Except.pure]

theorem failDead_set_error {items : List (Uuid × String × String)} {worker : String}
    {now : Timestamp} {i : Nat} {r : Row} :
    (∃ err, (Stmt.failDead items worker).set now i r = .error err) ↔ INT_MAX ≤ r.attempts := by
  rw [← incAttempts_error]
  cases hinc : incAttempts r.attempts with
  | error err => simp [Stmt.set, hinc, bind, Except.bind]
  | ok n => simp [Stmt.set, hinc, bind, Except.bind, pure, Except.pure]

/-! ## The two statements of `fail` -/

/-- What `fail` can write for one message: its text, and its row if the worker still holds it. -/
structure Writable (worker : WorkerId) (now : Timestamp) (rows : List Row) (m : FailedMessage) :
    Prop where
  owner : hasNul worker.asStr = false
  text : hasNul m.error = false
  row : ∀ r ∈ rows, r.columns.id = m.message.id.uuid → r.lockedBy = some worker.asStr →
    r.attempts < INT_MAX ∧
      ∀ delay, m.outcome = .retry delay → ∃ t, addMillis now (millis delay) = .ok t

theorem owned_iff {ids : List Uuid} {worker : String} {r : Row} :
    owned ids worker r = true ↔ r.columns.id ∈ ids ∧ r.lockedBy = some worker := by
  simp only [owned, Bool.and_eq_true, decide_eq_true_eq]

theorem reason_noNul (reason : DeadReason) : hasNul (encodeDeadReason reason) = false := by
  cases reason <;> decide

/-- A statement that is ready and has clean texts aborts on a row or not at all. -/
theorem exec_ok_of_rows {stmt : Stmt} {now : Timestamp} {choice : Choice} {rows : List Row}
    (htexts : stmt.texts.any hasNul = false) (hready : stmt.ready now = true)
    (hrows : ∀ r ∈ rows, ∀ err, stmt.onRow now choice r ≠ .error err) :
    ∃ rows', stmt.exec now choice rows = .ok rows' := by
  simp only [Stmt.exec, htexts, hready, Bool.false_eq_true, if_false, if_true]
  cases hres : stmt.onRows now choice rows with
  | ok rows' => exact ⟨rows', rfl⟩
  | error err =>
      obtain ⟨r, hr, err', herr⟩ := Stmt.onRows_error.mp ⟨err, hres⟩
      exact absurd herr (hrows r hr err')

section
variable {worker : WorkerId} {now : Timestamp} {rows : List Row} {items : List FailedMessage}
  {choice : Choice}

theorem failRetry_runs (h : Healthy rows) (hw : ∀ m ∈ items, Writable worker now rows m)
    (hne : retries items ≠ [])
    (hvalid : choice.Valid now rows (.failRetry (retries items) worker.asStr)) :
    ∃ rows', (Stmt.failRetry (retries items) worker.asStr).exec now choice rows = .ok rows' := by
  refine exec_ok_of_rows ?_ rfl ?_
  · obtain ⟨x, hx⟩ := List.exists_mem_of_ne_nil _ hne
    obtain ⟨m, hm, -⟩ := mem_retries.mp hx
    simp only [Stmt.texts, List.any_append, List.any_map, List.any_cons, List.any_nil,
      Bool.or_eq_false_iff, (hw m hm).owner, List.any_eq_false, Function.comp_apply,
      Bool.not_eq_true, and_true]
    intro y hy
    obtain ⟨m', hm', delay, -, rfl⟩ := mem_retries.mp hy
    exact (hw m' hm').text
  · intro r hr err herr
    obtain ⟨htarget, htouch⟩ := Stmt.onRow_error.mp herr
    obtain ⟨houter, err', hset⟩ := (touch_error (h.ok r hr)).mp ⟨err, htouch⟩
    have hpicks := hvalid.item r hr htarget
    -- the item PostgreSQL joined is one of the row's own
    simp only [Stmt.picks, beq_iff_eq, Option.map_eq_some_iff] at hpicks
    obtain ⟨x, hx, hid⟩ := hpicks
    obtain ⟨m, hm, delay, hd, rfl⟩ := mem_retries.mp (List.mem_of_getElem? hx)
    obtain ⟨hatt, hdelay⟩ := (hw m hm).row r hr hid.symm (owned_iff.mp houter).2
    rcases failRetry_set_error.mp ⟨err', hset⟩ with hmax | ⟨err'', hadd⟩
    · omega
    · obtain ⟨t, ht⟩ := hdelay delay hd
      rw [hx, Option.map_some, Option.getD_some, ht] at hadd
      cases hadd

theorem failDead_runs (choice : Choice) (h : Healthy rows)
    (hw : ∀ m ∈ items, Writable worker now rows m)
    (hne : deaths items ≠ []) :
    ∃ rows', (Stmt.failDead (deaths items) worker.asStr).exec now choice rows = .ok rows' := by
  refine exec_ok_of_rows ?_ rfl ?_
  · obtain ⟨x, hx⟩ := List.exists_mem_of_ne_nil _ hne
    obtain ⟨m, hm, -⟩ := mem_deaths.mp hx
    simp only [Stmt.texts, List.any_append, List.any_map, List.any_cons, List.any_nil,
      Bool.or_eq_false_iff, (hw m hm).owner, List.any_eq_false, Function.comp_apply,
      Bool.not_eq_true, and_true]
    constructor
    · intro y hy
      obtain ⟨m', hm', reason, -, rfl⟩ := mem_deaths.mp hy
      exact (hw m' hm').text
    · intro y hy
      obtain ⟨m', hm', reason, -, rfl⟩ := mem_deaths.mp hy
      exact reason_noNul reason
  · intro r hr err herr
    obtain ⟨htarget, htouch⟩ := Stmt.onRow_error.mp herr
    obtain ⟨houter, err', hset⟩ := (touch_error (h.ok r hr)).mp ⟨err, htouch⟩
    obtain ⟨hid, hlocked⟩ := owned_iff.mp houter
    obtain ⟨x, hx, hxid⟩ := List.mem_map.mp hid
    obtain ⟨m, hm, reason, hd, rfl⟩ := mem_deaths.mp hx
    have hatt := ((hw m hm).row r hr hxid.symm hlocked).1
    have hmax := failDead_set_error.mp ⟨err', hset⟩
    omega

/-- After the retries a row is as before, or no longer held. -/
theorem failRetry_rows {rows' : List Row}
    (hexec : (Stmt.failRetry (retries items) worker.asStr).exec now choice rows = .ok rows') :
    (∀ r' ∈ rows', r' ∈ rows ∨ r'.lockedBy = none) ∧
      ∀ r ∈ rows, owned ((retries items).map Prod.fst) worker.asStr r = false → r ∈ rows' := by
  have hrows := Stmt.exec_onRows hexec
  constructor
  · intro r' hr'
    obtain ⟨r, hr, hrow⟩ := (Stmt.onRows_mem hrows).mp hr'
    rcases Stmt.onRow_some hrow with rfl | hu
    · exact .inl hr
    · cases hu
      exact .inr rfl
  · intro r hr hfree
    refine (Stmt.onRows_mem hrows).mpr ⟨r, hr, ?_⟩
    have htouch : (Stmt.failRetry (retries items) worker.asStr).touch now
        (choice.item r.sequence) r = .ok .skip := by
      simp only [Stmt.touch, Stmt.outer, hfree, Bool.false_eq_true, if_false]
    simp only [Stmt.onRow, htouch]
    split <;> rfl

end

section
variable {worker : WorkerId} {now : Timestamp} {rows : List Row} {items : List FailedMessage}

theorem fail_stmts (worker : WorkerId) (items : List FailedMessage) :
    (Call.fail worker items).stmts = fail worker items := by
  cases items with
  | nil => rfl
  | cons m items => rfl

theorem exec_error {env : Env} {k : Nat} {stmt : Stmt} {err : CallError}
    (h : env.exec k stmt rows = .error err) :
    err = .connection ∨ ∃ e, err = .sql e ∧ env.fails k = false ∧
      stmt.exec env.now (env.choice k) rows = .error e := by
  simp only [Env.exec] at h
  split at h
  · cases h
    exact .inl rfl
  · rename_i hrun
    split at h
    · rename_i e hexec
      cases h
      exact .inr ⟨e, rfl, by simpa using hrun, hexec⟩
    · cases h

/-- A failed call failed on a statement, or on the connection. -/
theorem run_error {call : Call} {mode : Mode} {env : Env} {err : CallError}
    (h : (call.run mode env rows).2 = .error err) :
    err = .connection ∨ (env.execAll 0 call.stmts rows).2 = .error err := by
  cases hres : (env.execAll 0 call.stmts rows).2 with
  | error err' =>
      have herr : err' = err := by
        cases mode with
        | pool => simpa [Call.run, hres] using h
        | transaction fault => cases fault <;> simpa [Call.run, hres] using h
      exact .inr (by rw [herr])
  | ok counts =>
      left
      cases mode with
      | pool => simp [Call.run, hres] at h
      | transaction fault =>
          cases fault with
          | false => simp [Call.run, hres] at h
          | true =>
              simp only [Call.run, hres] at h
              split at h
              · cases h
              · exact (Except.error.inj h).symm

theorem execAll_cons_error {env : Env} {k : Nat} {stmt : Stmt} {stmts : List Stmt}
    {err : CallError} :
    (env.execAll k (stmt :: stmts) rows).2 = .error err ↔
      env.exec k stmt rows = .error err ∨
        ∃ rows' count, env.exec k stmt rows = .ok (rows', count) ∧
          (env.execAll (k + 1) stmts rows').2 = .error err := by
  cases hexec : env.exec k stmt rows with
  | error err' => simp [Env.execAll, hexec]
  | ok x =>
      obtain ⟨rows', count⟩ := x
      cases hrest : (env.execAll (k + 1) stmts rows').2 with
      | error err' => simp [Env.execAll, hexec, hrest, Except.map]
      | ok counts => simp [Env.execAll, hexec, hrest, Except.map]

/-- The second half of `fail`. -/
def failDeaths (worker : WorkerId) (items : List FailedMessage) : List Stmt :=
  if (deaths items).isEmpty then [] else [.failDead (deaths items) worker.asStr]

theorem fail_eq (worker : WorkerId) (items : List FailedMessage) :
    fail worker items = (if (retries items).isEmpty then []
      else [.failRetry (retries items) worker.asStr]) ++ failDeaths worker items := rfl

/-- Writable messages are written, unless the connection fails: the deaths. -/
theorem failDeaths_runs {env : Env} {k : Nat} {err : CallError} (h : Healthy rows)
    (hw : ∀ m ∈ items, Writable worker env.now rows m)
    (herr : (env.execAll k (failDeaths worker items) rows).2 = .error err) : err = .connection := by
  by_cases hempty : deaths items = []
  · simp [failDeaths, hempty, Env.execAll] at herr
  · have hstmts : failDeaths worker items = [.failDead (deaths items) worker.asStr] := by
      simp [failDeaths, hempty]
    rw [hstmts] at herr
    rcases execAll_cons_error.mp herr with hexec | ⟨rows', count, -, hrest⟩
    · rcases exec_error hexec with hconn | ⟨e, -, hrun, herr'⟩
      · exact hconn
      · obtain ⟨rows', hok⟩ := failDead_runs (env.choice k) h hw hempty
        rw [hok] at herr'
        cases herr'
    · cases hrest

/-- Writable messages are written, unless the connection fails. -/
theorem fail_runs {env : Env} {mode : Mode} {err : CallError} (h : Healthy rows)
    (hw : ∀ m ∈ items, Writable worker env.now rows m)
    (hvalid : env.Valid 0 (fail worker items) rows)
    (herr : ((Call.fail worker items).run mode env rows).2 = .error err) : err = .connection := by
  rcases run_error herr with hconn | hall
  · exact hconn
  · rw [fail_stmts] at hall
    by_cases hempty : retries items = []
    · have hstmts : fail worker items = failDeaths worker items := by simp [fail_eq, hempty]
      rw [hstmts] at hall
      exact failDeaths_runs h hw hall
    · have hstmts : fail worker items =
          .failRetry (retries items) worker.asStr :: failDeaths worker items := by
        simp [fail_eq, hempty]
      rw [hstmts] at hvalid hall
      rcases execAll_cons_error.mp hall with hexec | ⟨rows', count, hexec, hrest⟩
      · rcases exec_error hexec with hconn | ⟨e, -, hrun, herr'⟩
        · exact hconn
        · obtain ⟨rows', hok⟩ := failRetry_runs h hw hempty (hvalid.1 hrun)
          rw [hok] at herr'
          cases herr'
      · have hok := (Env.exec_ok hexec).1
        refine failDeaths_runs (h.onRows (Stmt.exec_onRows hok)) ?_ hrest
        -- a row that is still held is one the retries did not write
        intro m hm
        refine ⟨(hw m hm).owner, (hw m hm).text, ?_⟩
        intro r hr hid hlocked
        rcases (failRetry_rows hok).1 r hr with hold | hfree
        · exact (hw m hm).row r hold hid hlocked
        · rw [hfree] at hlocked
          cases hlocked

/-! ## And nothing else is -/

/-- The call aborts on some choice PostgreSQL can make. -/
def CanAbort (worker : WorkerId) (now : Timestamp) (rows : List Row) (items : List FailedMessage) :
    Prop :=
  ∃ env : Env, env.now = now ∧ env.Valid 0 (fail worker items) rows ∧
    ∃ e, ((Call.fail worker items).run .pool env rows).2 = .error (.sql e)

/-- What is wrong with a message that cannot be written. -/
theorem not_writable {m : FailedMessage} (h : ¬ Writable worker now rows m) :
    (hasNul worker.asStr = true ∨ hasNul m.error = true) ∨
      ∃ r ∈ rows, r.columns.id = m.message.id.uuid ∧ r.lockedBy = some worker.asStr ∧
        (INT_MAX ≤ r.attempts ∨
          ∃ delay, m.outcome = .retry delay ∧ ∃ err, addMillis now (millis delay) = .error err) := by
  by_contra hno
  push Not at hno
  obtain ⟨⟨howner, htext⟩, hrow⟩ := hno
  refine h ⟨by simpa using howner, by simpa using htext, ?_⟩
  intro r hr hid hlocked
  obtain ⟨hatt, hdelay⟩ := hrow r hr hid hlocked
  refine ⟨hatt, fun delay hd => ?_⟩
  cases hadd : addMillis now (millis delay) with
  | ok t => exact ⟨t, rfl⟩
  | error err => exact absurd hadd (hdelay delay hd err)

theorem exec_nul {stmt : Stmt} {choice : Choice} {text : String} (ht : text ∈ stmt.texts)
    (hnul : hasNul text = true) : ∃ e, stmt.exec now choice rows = .error e := by
  have hany : stmt.texts.any hasNul = true := List.any_eq_true.mpr ⟨text, ht, hnul⟩
  exact ⟨.nulCharacter, by simp [Stmt.exec, hany]⟩

/-- A statement with a target it cannot compute aborts. -/
theorem exec_target {stmt : Stmt} {choice : Choice} {r : Row} (hr : r ∈ rows)
    (htarget : r.sequence ∈ choice.targets) (houter : stmt.outer now r = true)
    (hset : ∃ err, stmt.set now (choice.item r.sequence) r = .error err) :
    ∃ e, stmt.exec now choice rows = .error e := by
  obtain ⟨err, hset⟩ := hset
  have hrow : stmt.onRow now choice r = .error err :=
    Stmt.onRow_error.mpr ⟨htarget, by simp [Stmt.touch, houter, hset]⟩
  obtain ⟨err', hrows⟩ := Stmt.onRows_error.mpr ⟨r, hr, err, hrow⟩
  simp only [Stmt.exec]
  split
  · exact ⟨_, rfl⟩
  · split
    · exact ⟨err', hrows⟩
    · exact ⟨_, rfl⟩

/-- Every row a statement of `fail` picks has an item of its own. -/
theorem exists_item {α : Type} {items : List (Uuid × α)} {r : Row}
    (h : r.columns.id ∈ items.map Prod.fst) :
    ∃ i : Nat, (items[i]?.map Prod.fst == some r.columns.id) = true := by
  obtain ⟨x, hx, hid⟩ := List.mem_map.mp h
  obtain ⟨i, hi⟩ := List.mem_iff_getElem?.mp hx
  exact ⟨i, by simp [hi, hid]⟩

theorem failRetry_aborts {m : FailedMessage} {delay : Duration} (h : Healthy rows) (hm : m ∈ items)
    (hd : m.outcome = .retry delay) (hbad : ¬ Writable worker now rows m) :
    ∃ choice : Choice, choice.Valid now rows (.failRetry (retries items) worker.asStr) ∧
      ∃ e, (Stmt.failRetry (retries items) worker.asStr).exec now choice rows = .error e := by
  have hitem : (m.message.id.uuid, m.error, millis delay) ∈ retries items :=
    mem_retries.mpr ⟨m, hm, delay, hd, rfl⟩
  have hfree : ∀ r ∈ rows, (Stmt.failRetry (retries items) worker.asStr).inner now r = true →
      ∃ i, (Stmt.failRetry (retries items) worker.asStr).picks i r = true ∧ True := by
    intro r _ hinner
    obtain ⟨i, hi⟩ := exists_item (owned_iff.mp hinner).1
    exact ⟨i, hi, trivial⟩
  rcases not_writable hbad with hnul | ⟨r, hr, hid, hlocked, hwhy⟩
  · obtain ⟨choice, hvalid, -⟩ := exists_choice h.sequences rfl hfree
    refine ⟨choice, hvalid, ?_⟩
    rcases hnul with hnul | hnul
    · exact exec_nul (List.mem_append_right _ List.mem_cons_self) hnul
    · exact exec_nul (List.mem_append_left _ (List.mem_map.mpr ⟨_, hitem, rfl⟩)) hnul
  · -- let the row be joined with this very message
    obtain ⟨i₀, hi₀⟩ := List.mem_iff_getElem?.mp hitem
    have hpick : ∀ x ∈ rows, (Stmt.failRetry (retries items) worker.asStr).inner now x = true →
        ∃ i, (Stmt.failRetry (retries items) worker.asStr).picks i x = true ∧
          (x = r → i = i₀) := by
      intro x hx hinner
      by_cases hxr : x = r
      · subst hxr
        exact ⟨i₀, by simp [Stmt.picks, hi₀, hid], fun _ => rfl⟩
      · obtain ⟨i, hi⟩ := exists_item (owned_iff.mp hinner).1
        exact ⟨i, hi, fun heq => absurd heq hxr⟩
    obtain ⟨choice, hvalid, hall⟩ := exists_choice h.sequences rfl hpick
    have houter : (Stmt.failRetry (retries items) worker.asStr).outer now r = true :=
      owned_iff.mpr ⟨List.mem_map.mpr ⟨_, hitem, hid.symm⟩, hlocked⟩
    obtain ⟨htarget, hjoined⟩ := hall r hr houter
    refine ⟨choice, hvalid, exec_target hr htarget houter (failRetry_set_error.mpr ?_)⟩
    rcases hwhy with hmax | ⟨delay', hd', err, hadd⟩
    · exact .inl hmax
    · rw [hd] at hd'
      cases hd'
      refine .inr ⟨err, ?_⟩
      rw [hjoined rfl, hi₀]
      exact hadd

theorem failDead_aborts {m : FailedMessage} {reason : DeadReason} (h : Healthy rows)
    (hm : m ∈ items) (hd : m.outcome = .dead reason) (hbad : ¬ Writable worker now rows m) :
    ∃ choice : Choice, choice.Valid now rows (.failDead (deaths items) worker.asStr) ∧
      ∃ e, (Stmt.failDead (deaths items) worker.asStr).exec now choice rows = .error e := by
  have hitem : (m.message.id.uuid, m.error, encodeDeadReason reason) ∈ deaths items :=
    mem_deaths.mpr ⟨m, hm, reason, hd, rfl⟩
  have hfree : ∀ r ∈ rows, (Stmt.failDead (deaths items) worker.asStr).inner now r = true →
      ∃ i, (Stmt.failDead (deaths items) worker.asStr).picks i r = true ∧ True := by
    intro r _ hinner
    obtain ⟨i, hi⟩ := exists_item (owned_iff.mp hinner).1
    exact ⟨i, hi, trivial⟩
  obtain ⟨choice, hvalid, hall⟩ := exists_choice h.sequences rfl hfree
  refine ⟨choice, hvalid, ?_⟩
  rcases not_writable hbad with (hnul | hnul) | ⟨r, hr, hid, hlocked, hwhy⟩
  · exact exec_nul (List.mem_append_right _ List.mem_cons_self) hnul
  · refine exec_nul (List.mem_append_left _ (List.mem_append_left _ ?_)) hnul
    exact List.mem_map.mpr ⟨_, hitem, rfl⟩
  · have houter : (Stmt.failDead (deaths items) worker.asStr).outer now r = true :=
      owned_iff.mpr ⟨List.mem_map.mpr ⟨_, hitem, hid.symm⟩, hlocked⟩
    refine exec_target hr (hall r hr houter).1 houter (failDead_set_error.mpr ?_)
    rcases hwhy with hmax | ⟨delay, hd', -⟩
    · exact hmax
    · rw [hd] at hd'
      cases hd'

/-- One choice on which a call of one or two statements aborts. -/
theorem canAbort_of_first {stmt : Stmt} {stmts : List Stmt} {choice : Choice}
    (hstmts : fail worker items = stmt :: stmts) (hvalid : choice.Valid now rows stmt)
    (hexec : ∃ e, stmt.exec now choice rows = .error e) : CanAbort worker now rows items := by
  obtain ⟨e, hexec⟩ := hexec
  let env : Env := ⟨now, fun _ => choice, fun _ => false⟩
  have hfirst : env.exec 0 stmt rows = .error (.sql e) := by
    simp only [Env.exec, env, hexec, Bool.false_eq_true, if_false]
  refine ⟨env, rfl, ?_, e, ?_⟩
  · rw [hstmts]
    refine ⟨fun _ => hvalid, ?_⟩
    intro rows' count hok
    rw [hfirst] at hok
    cases hok
  · have hall : (env.execAll 0 (fail worker items) rows).2 = .error (.sql e) := by
      rw [hstmts]
      exact execAll_cons_error.mpr (.inl hfirst)
    simp only [Call.run, fail_stmts, hall]

theorem canAbort_of_second {stmt stmt' : Stmt} {rows' : List Row} {choice choice' : Choice}
    (hstmts : fail worker items = [stmt, stmt']) (hvalid : choice.Valid now rows stmt)
    (hok : stmt.exec now choice rows = .ok rows') (hvalid' : choice'.Valid now rows' stmt')
    (hexec : ∃ e, stmt'.exec now choice' rows' = .error e) : CanAbort worker now rows items := by
  obtain ⟨e, hexec⟩ := hexec
  let env : Env := ⟨now, fun k => if k = 0 then choice else choice', fun _ => false⟩
  have hfirst : env.exec 0 stmt rows = .ok (rows', stmt.affected now choice rows) := by
    simp only [Env.exec, env, hok, Bool.false_eq_true, if_false, if_true]
  have hsecond : env.exec 1 stmt' rows' = .error (.sql e) := by
    simp only [Env.exec, env, hexec, Bool.false_eq_true, if_false, one_ne_zero]
  refine ⟨env, rfl, ?_, e, ?_⟩
  · rw [hstmts]
    refine ⟨fun _ => hvalid, ?_⟩
    intro rows'' count hok'
    rw [hfirst] at hok'
    cases hok'
    refine ⟨fun _ => hvalid', ?_⟩
    intro rows'' count hok''
    rw [hsecond] at hok''
    cases hok''
  · have hall : (env.execAll 0 (fail worker items) rows).2 = .error (.sql e) := by
      rw [hstmts]
      exact execAll_cons_error.mpr (.inr ⟨rows', _, hfirst,
        execAll_cons_error.mpr (.inl hsecond)⟩)
    simp only [Call.run, fail_stmts, hall]

/-- A message that cannot be written lets the call abort. -/
theorem canAbort_of_unwritable {m : FailedMessage} (h : Healthy rows) (hm : m ∈ items)
    (hbad : ¬ Writable worker now rows m) : CanAbort worker now rows items := by
  cases hd : m.outcome with
  | retry delay =>
      obtain ⟨choice, hvalid, hexec⟩ := failRetry_aborts h hm hd hbad
      have hne : retries items ≠ [] :=
        List.ne_nil_of_mem (mem_retries.mpr ⟨m, hm, delay, hd, rfl⟩)
      exact canAbort_of_first (by simp [fail_eq, hne]; rfl) hvalid hexec
  | dead reason =>
      have hne : deaths items ≠ [] := List.ne_nil_of_mem (mem_deaths.mpr ⟨m, hm, reason, hd, rfl⟩)
      by_cases hempty : retries items = []
      · obtain ⟨choice, hvalid, hexec⟩ := failDead_aborts h hm hd hbad
        exact canAbort_of_first (by simp [fail_eq, failDeaths, hempty, hne]; rfl) hvalid hexec
      · -- the retries run first; they abort themselves, or leave the message's row alone
        have hstmts : fail worker items = [.failRetry (retries items) worker.asStr,
            .failDead (deaths items) worker.asStr] := by
          simp [fail_eq, failDeaths, hempty, hne]
        have hfree : ∀ r ∈ rows, (Stmt.failRetry (retries items) worker.asStr).inner now r = true →
            ∃ i, (Stmt.failRetry (retries items) worker.asStr).picks i r = true ∧ True := by
          intro r _ hinner
          obtain ⟨i, hi⟩ := exists_item (owned_iff.mp hinner).1
          exact ⟨i, hi, trivial⟩
        obtain ⟨choice, hvalid, hall⟩ := exists_choice h.sequences rfl hfree
        cases hexec : (Stmt.failRetry (retries items) worker.asStr).exec now choice rows with
        | error e => exact canAbort_of_first hstmts hvalid ⟨e, hexec⟩
        | ok rows' =>
            have hbad' : ¬ Writable worker now rows' m := by
              intro hw
              rcases not_writable hbad with hnul | ⟨r, hr, hid, hlocked, hwhy⟩
              · rcases hnul with hnul | hnul
                · rw [hw.owner] at hnul
                  cases hnul
                · rw [hw.text] at hnul
                  cases hnul
              · have hmax : INT_MAX ≤ r.attempts := by
                  rcases hwhy with hmax | ⟨delay, hd', -⟩
                  · exact hmax
                  · rw [hd] at hd'
                    cases hd'
                have hunnamed : owned ((retries items).map Prod.fst) worker.asStr r = false := by
                  by_contra hnamed
                  have houter : (Stmt.failRetry (retries items) worker.asStr).outer now r = true :=
                    (Bool.not_eq_false _).mp hnamed
                  obtain ⟨e, he⟩ := exec_target hr (hall r hr houter).1 houter
                    (failRetry_set_error.mpr (.inl hmax))
                  rw [hexec] at he
                  cases he
                have hr' := (failRetry_rows hexec).2 r hr hunnamed
                have := (hw.row r hr' hid hlocked).1
                omega
            obtain ⟨choice', hvalid', hexec'⟩ :=
              failDead_aborts (h.onRows (Stmt.exec_onRows hexec)) hm hd hbad'
            exact canAbort_of_second hstmts hvalid hexec hvalid' hexec'

end

end Reliar.Store.Postgres

/-! ## Recording failed publishes -/

namespace Reliar.Dispatcher

open Reliar.Core Reliar.Outbox Reliar.Store

/-- A publish that returned an error, and the draw the retry policy takes for it. -/
structure PublishFailure where
  task : TaskId
  row : PendingRow
  kind : FailureKind
  error : String
  unit : ℚ

namespace PublishFailure

/-- The task as the join set yields it. -/
def joined (publishTimeout : Duration) (f : PublishFailure) : PublishTask :=
  ⟨f.task, f.row, .finished (publishOne f.row publishTimeout (some (.err f.kind f.error))), false⟩

/-- What is to be written for it. -/
def item (backoff : ExponentialBackoff) (f : PublishFailure) : FailedMessage :=
  FailedMessage.new f.row.message f.error (backoff.next f.unit f.row.attemptsBefore f.kind)

/-- What PostgreSQL accepts of a failure: no U+0000 in the texts bound, and a held row whose
`attempts` and `available_at` stay in range. -/
structure Recordable (backoff : ExponentialBackoff) (worker : WorkerId) (now : Timestamp)
    (rows : List Row) (f : PublishFailure) : Prop where
  owner : Postgres.hasNul worker.asStr = false
  text : Postgres.hasNul (truncateError f.error) = false
  row : ∀ r ∈ rows, r.columns.id = f.row.message.id.uuid → r.lockedBy = some worker.asStr →
    r.attempts < Postgres.INT_MAX ∧
      ∀ delay, backoff.next f.unit f.row.attemptsBefore f.kind = .retry delay →
        ∃ t, Postgres.addMillis now (Postgres.millis delay) = .ok t

theorem recordable_iff {backoff : ExponentialBackoff} {worker : WorkerId} {now : Timestamp}
    {rows : List Row} {f : PublishFailure} :
    f.Recordable backoff worker now rows ↔
      Postgres.Writable worker now rows (f.item backoff) :=
  ⟨fun h => ⟨h.owner, h.text, h.row⟩, fun h => ⟨h.owner, h.text, h.row⟩⟩

end PublishFailure

/-- `record_publish_results` on failed publishes. -/
def recordFailures (backoff : ExponentialBackoff) (publishTimeout : Duration) (now : Instant)
    (b : Books) (failures : List PublishFailure) : Books :=
  failures.foldl
    (fun b f => b.recordOne backoff.policy now f.unit (f.joined publishTimeout)) b

theorem recordFailures_items (backoff : ExponentialBackoff) (publishTimeout : Duration)
    (now : Instant) (failures : List PublishFailure) (b : Books) :
    (recordFailures backoff publishTimeout now b failures).unwrittenFail.map (·.item) =
      b.unwrittenFail.map (·.item) ++ failures.map (·.item backoff) := by
  induction failures generalizing b with
  | nil => simp [recordFailures]
  | cons f failures ih =>
      have hstep : recordFailures backoff publishTimeout now b (f :: failures) =
          recordFailures backoff publishTimeout now
            (b.recordOne backoff.policy now f.unit (f.joined publishTimeout)) failures := rfl
      rw [hstep, ih, List.map_cons, List.append_cons]
      congr 1
      simp [Books.recordOne, PublishFailure.joined, publishOne, Books.removeOutstanding,
        PublishFailure.item, ExponentialBackoff.policy]

/-- Whatever `fail` meets at `t`, the round that writes the unwritten failures does not end in a
permanent error. -/
def KeepsRunning (schema : String) (lease : Duration) (worker : WorkerId) (t : Timestamp)
    (rows : List Row) (b : Books) : Prop :=
  ∀ (mode : Postgres.Mode) (env : Postgres.Env) (err : Postgres.CallError), env.now = t →
    env.Valid 0 (Postgres.fail worker (b.unwrittenFail.map (·.item))) rows →
    ((Postgres.Call.fail worker (b.unwrittenFail.map (·.item))).run mode env rows).2 = .error err →
    ∀ (now : Instant) (anyFailed : Bool) (call : Call),
      (resumeRound lease now b (.failing anyFailed call)
        (.err (err.stored schema))).2.permanent = none

/-- For every list of failed publishes, with any texts and kinds, every backoff, every reachable
database and every instant: the round that writes them never ends the loop exactly when PostgreSQL
accepts each of them, and what was unwritten before. -/
theorem publish_errors_survive_iff (schema : String) (backoff : ExponentialBackoff)
    (lease publishTimeout : Duration) (now : Instant) (worker : WorkerId)
    (failures : List PublishFailure) (b : Books)
    {rendering : Rendering} {clock : Timestamp} {es : List Postgres.Event} {db : Postgres.Db}
    (hdb : Postgres.Run rendering clock es db) (t : Timestamp) :
    KeepsRunning schema lease worker t db.rows
        (recordFailures backoff publishTimeout now b failures) ↔
      (∀ e ∈ b.unwrittenFail, Postgres.Writable worker t db.rows e.item) ∧
        ∀ f ∈ failures, f.Recordable backoff worker t db.rows := by
  have hhealthy := hdb.ok.healthy
  unfold KeepsRunning
  rw [recordFailures_items]
  constructor
  · intro hkeeps
    have hall : ∀ m ∈ b.unwrittenFail.map (·.item) ++ failures.map (·.item backoff),
        Postgres.Writable worker t db.rows m := by
      intro m hm
      by_contra hbad
      obtain ⟨env, rfl, hvalid, e, herr⟩ := Postgres.canAbort_of_unwritable hhealthy hm hbad
      have hnone := hkeeps .pool env (.sql e) rfl hvalid herr now false (.issue .stats now)
      rw [resumeRound_permanent, Answer.permanent_err] at hnone
      exact hnone ((Postgres.stored_permanent_iff schema (.sql e)).mpr ⟨e, rfl⟩)
    refine ⟨fun e he => ?_, fun f hf => ?_⟩
    · exact hall _ (List.mem_append_left _ (List.mem_map.mpr ⟨e, he, rfl⟩))
    · refine PublishFailure.recordable_iff.mpr ?_
      exact hall _ (List.mem_append_right _ (List.mem_map.mpr ⟨f, hf, rfl⟩))
  · rintro ⟨hbefore, hall⟩ mode env err rfl hvalid herr now' anyFailed call
    have hw : ∀ m ∈ b.unwrittenFail.map (·.item) ++ failures.map (·.item backoff),
        Postgres.Writable worker env.now db.rows m := by
      intro m hm
      rcases List.mem_append.mp hm with hm | hm
      · obtain ⟨e, he, rfl⟩ := List.mem_map.mp hm
        exact hbefore e he
      · obtain ⟨f, hf, rfl⟩ := List.mem_map.mp hm
        exact PublishFailure.recordable_iff.mp (hall f hf)
    rw [resumeRound_permanent, Answer.permanent_err, Postgres.fail_runs hhealthy hw hvalid herr]
    intro hpermanent
    obtain ⟨e, he⟩ := (Postgres.stored_permanent_iff schema .connection).mp hpermanent
    cases he

/-! ## Two error texts -/

/-- One row, claimed by worker `w`. -/
def claimedRun : List Postgres.Event :=
  [.insert (Postgres.sampleColumns 1 none) 1 0, .start (.claim 10 "w" 30000) 0 [1], .touch 0 1 0]

def claimedDb : Postgres.Db :=
  Machine.reach (Postgres.next Postgres.sampleRendering) (Postgres.Db.empty 0) claimedRun

theorem claimedDb_reached : Postgres.Run Postgres.sampleRendering 0 claimedRun claimedDb :=
  Machine.path_reach (by decide)

/-- Its publish failed with the given text. -/
def failedWith (error : String) : PublishFailure :=
  ⟨0, .ofClaimed (sampleClaim 1), .transient, error, 1 / 2⟩

/-- The round that writes a failure whose text holds U+0000 ends in a permanent error. -/
theorem publish_error_ends_loop :
    ExponentialBackoff.default.validate = .ok () ∧
      Postgres.Run Postgres.sampleRendering 0 claimedRun claimedDb ∧
      ¬ KeepsRunning "reliar" (Duration.ofSecs 30) Postgres.workerW 0 claimedDb.rows
        (recordFailures .default (Duration.ofSecs 10) 0 Books.empty [failedWith "a\x00b"]) := by
  refine ⟨?_, claimedDb_reached, ?_⟩
  · simp only [ExponentialBackoff.validate, ExponentialBackoff.default]
    norm_num [Duration.ofSecs]
  · intro hkeeps
    have hbad : ¬ Postgres.Writable Postgres.workerW 0 claimedDb.rows
        ((failedWith "a\x00b").item .default) := fun h => absurd h.text (by decide)
    obtain ⟨env, hnow, hvalid, e, herr⟩ :=
      Postgres.canAbort_of_unwritable claimedDb_reached.ok.healthy List.mem_cons_self hbad
    have hnone := hkeeps .pool env (.sql e) hnow
      (by rw [recordFailures_items]; exact hvalid) (by rw [recordFailures_items]; exact herr)
      0 false (.issue .stats 0)
    rw [resumeRound_permanent, Answer.permanent_err] at hnone
    exact hnone ((Postgres.stored_permanent_iff "reliar" (.sql e)).mpr ⟨e, rfl⟩)

theorem publish_errors_survive_plain :
    KeepsRunning "reliar" (Duration.ofSecs 30) Postgres.workerW 0 claimedDb.rows
      (recordFailures .default (Duration.ofSecs 10) 0 Books.empty [failedWith "connection reset"]) := by
  refine (publish_errors_survive_iff "reliar" .default (Duration.ofSecs 30) (Duration.ofSecs 10) 0
    Postgres.workerW [failedWith "connection reset"] Books.empty claimedDb_reached 0).mpr ⟨?_, ?_⟩
  · intro e he
    cases he
  · intro f hf
    rw [List.mem_singleton.mp hf]
    refine ⟨by decide, by decide, ?_⟩
    intro r hr _ _
    have hone : ∀ r ∈ claimedDb.rows, r.attempts < Postgres.INT_MAX := by decide
    refine ⟨hone r hr, ?_⟩
    intro delay hdelay
    have hnext : ExponentialBackoff.default.next (1 / 2) 0 .transient =
        .retry (Duration.ofSecs 1) := by
      have hround : (2000000001 / 2 : ℚ).floor = 1000000000 := by decide +kernel
      norm_num [ExponentialBackoff.next, ExponentialBackoff.default, ExponentialBackoff.capped,
        ExponentialBackoff.jitterFactor, ExponentialBackoff.mulFactor, Duration.ofSecs, U32_MAX,
        DURATION_MAX, hround]
      rfl
    have hdelay' : FailureOutcome.retry (Duration.ofSecs 1) = .retry delay := hnext.symm.trans hdelay
    cases hdelay'
    exact ⟨_, rfl⟩

end Reliar.Dispatcher
