/-
# `Reliar.Store.Mirror` — one row in both stores

A row of the table mirrors a record of the in-memory store if the two agree in
every column they share; two stores are the same if every row of one has its
mirror in the other.  Neither has an order: rows are told apart by `sequence`.

What a statement does to the table follows from what it does to one row
(`Same.update`, `Same.delete`), and what it counts from what it counts of one
(`Same.perm`).

Instants are exact on both sides; PostgreSQL keeps microseconds.
-/
import Reliar.Store.Healthy
import Reliar.Store.RoundTrip
import Reliar.Store.Fetch
import Reliar.Store.MemoryRows

namespace Reliar.Store

open Reliar.Core Reliar.Outbox

/-! ## Rows -/

/-- The shared columns of a row and a record agree. -/
structure Mirrors (row : Row) (record : OutboxRecord) : Prop where
  envelope : ∃ e, decodeEnvelope row.columns = .ok e ∧ e.Same record.envelope
  sequence : row.sequence = record.sequence
  createdAt : row.createdAt = record.createdAt
  orderingKey : row.columns.orderingKey = record.orderingKey
  attempts : row.attempts = record.attempts
  availableAt : row.availableAt = record.availableAt
  lockedBy : row.lockedBy = record.lockedBy.map WorkerId.asStr
  lockedUntil : row.lockedUntil = record.lockedUntil
  publishedAt : row.publishedAt = record.publishedAt
  deadAt : row.deadAt = record.deadAt
  deadReason : row.deadReason = record.deadReason.map encodeDeadReason
  lastError : row.lastError = record.lastError

/-- Equal records: the envelopes by their `PartialEq`, the rest as it is. -/
structure SameRecord (r r' : OutboxRecord) : Prop where
  envelope : r.envelope.Same r'.envelope
  rest : { r with envelope := r'.envelope } = r'

/-- What a decoded envelope takes from the columns the statements look at. -/
structure ReadsColumns (c : Columns) (e : SerializedEnvelope) : Prop where
  id : e.id = ⟨c.id⟩
  messageType : e.messageType.name = c.messageType
  tenantId : e.metadata.tenantId = c.tenantId
  expiresAt : e.metadata.delivery.expiresAt = c.expiresAt
  messageVersion : 0 ≤ c.messageVersion
  metadataVersion : 1 ≤ c.metadataVersion

theorem decodeEnvelope_reads {c : Columns} {e : SerializedEnvelope}
    (h : decodeEnvelope c = .ok e) : ReadsColumns c e := by
  obtain ⟨_, hversion, h⟩ := bind_eq_ok h
  obtain ⟨_, hmessage, h⟩ := bind_eq_ok h
  obtain ⟨_, -, h⟩ := bind_eq_ok h
  obtain ⟨_, -, h⟩ := bind_eq_ok h
  obtain ⟨_, -, h⟩ := bind_eq_ok h
  obtain ⟨_, -, h⟩ := bind_eq_ok h
  obtain ⟨_, -, h⟩ := bind_eq_ok h
  obtain ⟨_, -, h⟩ := bind_eq_ok h
  obtain ⟨_, -, h⟩ := bind_eq_ok h
  obtain ⟨_, -, h⟩ := bind_eq_ok h
  cases h
  refine ⟨rfl, rfl, rfl, rfl, ?_, ?_⟩
  · unfold decodeVersion at hmessage
    split at hmessage
    · rename_i hrange
      exact hrange.1
    · cases hmessage
  · unfold checkVersion at hversion
    split at hversion
    · cases hversion
    · rename_i heq
      rw [not_not.mp heq]
      decide

namespace Mirrors

variable {row : Row} {record : OutboxRecord}

theorem id (h : Mirrors row record) : row.columns.id = record.envelope.id.uuid := by
  obtain ⟨e, he, hsame⟩ := h.envelope
  rw [← hsame.id, (decodeEnvelope_reads he).id]

theorem messageType (h : Mirrors row record) :
    row.columns.messageType = record.envelope.messageType.name := by
  obtain ⟨e, he, hsame⟩ := h.envelope
  rw [← hsame.messageType, (decodeEnvelope_reads he).messageType]

theorem tenantId (h : Mirrors row record) :
    row.columns.tenantId = record.envelope.metadata.tenantId := by
  obtain ⟨e, he, hsame⟩ := h.envelope
  rw [← hsame.metadata.tenantId, (decodeEnvelope_reads he).tenantId]

theorem expires (h : Mirrors row record) : row.columns.expires = record.envelope.expiresAt := by
  obtain ⟨e, he, hsame⟩ := h.envelope
  have hinstant : e.metadata.delivery.expiresAt.map OffsetDateTime.unixNanos =
      record.envelope.expiresAt := hsame.metadata.delivery.expiresAt
  rw [← hinstant, (decodeEnvelope_reads he).expiresAt]
  rfl

/-- A mirror is in the state the table's constraints ask for. -/
theorem rowOk (h : Mirrors row record) (hok : Memory.RecordOk record)
    (hattempts : (record.attempts : Int) ≤ Postgres.INT_MAX) : Postgres.RowOk row := by
  obtain ⟨e, he, -⟩ := h.envelope
  have hreads := decodeEnvelope_reads he
  exact
    { attempts := by rw [h.attempts]; exact Int.natCast_nonneg _
      attempts_le := by rw [h.attempts]; exact hattempts
      messageVersion := hreads.messageVersion
      metadataVersion := hreads.metadataVersion
      lease := by rw [h.lockedBy, h.lockedUntil, Option.isSome_map]; exact hok.lease
      terminal := by rw [h.publishedAt, h.deadAt]; exact hok.terminal
      reason := by rw [h.deadAt, h.deadReason, Option.isSome_map]; exact hok.reason
      idle := by
        intro hlocked
        rw [h.publishedAt, h.deadAt]
        refine hok.idle fun hnone => hlocked ?_
        rw [h.lockedBy, hnone]
        rfl }

end Mirrors

theorem decodeReason_encode (reason : Option DeadReason) :
    decodeReason (reason.map encodeDeadReason) = .ok reason := by
  cases reason with
  | none => rfl
  | some reason => cases reason <;> simp [decodeReason, decodeDeadReason, encodeDeadReason]

theorem decodeAttempts_nat {n : Nat} (h : (n : Int) ≤ Postgres.INT_MAX) :
    decodeAttempts n = .ok n := by
  have hlt : (n : Int) < 4294967296 := by
    simp only [Postgres.INT_MAX] at h
    omega
  simp [decodeAttempts, hlt]

/-- A mirror decodes to the record. -/
theorem Mirrors.decodes {row : Row} {record : OutboxRecord} (h : Mirrors row record)
    (hok : Memory.RecordOk record) (hattempts : (record.attempts : Int) ≤ Postgres.INT_MAX) :
    ∃ r, decodeRow row = .ok r ∧ SameRecord r record := by
  obtain ⟨e, he, hsame⟩ := h.envelope
  refine ⟨{ record with envelope := e }, ?_, ⟨hsame, rfl⟩⟩
  have hreason := decodeReason_encode record.deadReason
  have hworker : parseOption WorkerId.parse .invalidLockedBy (record.lockedBy.map WorkerId.asStr) =
      .ok record.lockedBy := parseOption_map WorkerId.parse_text _
  have herror : row.lastError.map truncateError = record.lastError := by
    rw [h.lastError]
    cases htext : record.lastError with
    | none => rfl
    | some text => rw [Option.map_some, truncateError_of_fits (hok.error text htext)]
  simp only [decodeRow, decodeRecord, he, h.deadReason, hreason, h.lockedBy, hworker, h.attempts,
    decodeAttempts_nat hattempts, ok_bind, h.sequence, h.createdAt, h.orderingKey, h.availableAt,
    h.lockedUntil, h.publishedAt, h.deadAt, herror]
  rfl

/-! ## Tables -/

/-- The two stores hold the same rows. -/
structure Same (rows : List Row) (records : List OutboxRecord) : Prop where
  rows_nodup : (rows.map Row.sequence).Nodup
  records_nodup : (Memory.sequences records).Nodup
  ofRow : ∀ row ∈ rows, ∃ record ∈ records, Mirrors row record
  ofRecord : ∀ record ∈ records, ∃ row ∈ rows, Mirrors row record

section
variable {rows : List Row} {records : List OutboxRecord}

/-- The mirror is the row of the same number. -/
theorem Same.mirrors (h : Same rows records) {row : Row} {record : OutboxRecord} (hrow : row ∈ rows)
    (hrecord : record ∈ records) (hseq : row.sequence = record.sequence) : Mirrors row record := by
  obtain ⟨record', hrecord', hm⟩ := h.ofRow row hrow
  have hsame : record' = record :=
    List.inj_on_of_nodup_map h.records_nodup hrecord' hrecord (hm.sequence.symm.trans hseq)
  rw [← hsame]
  exact hm

/-- What is true of a row and its mirror adds up to the same over both stores. -/
theorem Same.perm {β : Type} (h : Same rows records) {p : Row → Bool} {q : OutboxRecord → Bool}
    {f : Row → β} {g : OutboxRecord → β}
    (hpq : ∀ row ∈ rows, ∀ record ∈ records, Mirrors row record → p row = q record)
    (hfg : ∀ row ∈ rows, ∀ record ∈ records, Mirrors row record → q record = true →
      f row = g record) :
    ((rows.filter p).map f).Perm ((records.filter q).map g) := by
  -- numbered, the values are distinct on both sides
  have hpairs : ((rows.filter p).map fun r => (r.sequence, f r)).Perm
      ((records.filter q).map fun r => (r.sequence, g r)) := by
    refine (List.perm_ext_iff_of_nodup ?_ ?_).mpr ?_
    · refine List.Nodup.of_map Prod.fst ?_
      rw [List.map_map]
      exact h.rows_nodup.sublist (List.filter_sublist.map _)
    · refine List.Nodup.of_map Prod.fst ?_
      rw [List.map_map]
      exact h.records_nodup.sublist (List.filter_sublist.map _)
    · intro x
      constructor
      · intro hx
        obtain ⟨row, hrow, rfl⟩ := List.mem_map.mp hx
        obtain ⟨hrow, hp⟩ := List.mem_filter.mp hrow
        obtain ⟨record, hrecord, hm⟩ := h.ofRow row hrow
        have hq : q record = true := (hpq row hrow record hrecord hm).symm.trans hp
        refine List.mem_map.mpr ⟨record, List.mem_filter.mpr ⟨hrecord, hq⟩, ?_⟩
        rw [hm.sequence, hfg row hrow record hrecord hm hq]
      · intro hx
        obtain ⟨record, hrecord, rfl⟩ := List.mem_map.mp hx
        obtain ⟨hrecord, hq⟩ := List.mem_filter.mp hrecord
        obtain ⟨row, hrow, hm⟩ := h.ofRecord record hrecord
        have hp : p row = true := (hpq row hrow record hrecord hm).trans hq
        refine List.mem_map.mpr ⟨row, List.mem_filter.mpr ⟨hrow, hp⟩, ?_⟩
        rw [hm.sequence, hfg row hrow record hrecord hm hq]
  have hvalues := hpairs.map Prod.snd
  rwa [List.map_map, List.map_map] at hvalues

theorem Same.count (h : Same rows records) {p : Row → Bool} {q : OutboxRecord → Bool}
    (hpq : ∀ row ∈ rows, ∀ record ∈ records, Mirrors row record → p row = q record) :
    (rows.filter p).length = (records.filter q).length := by
  have hperm := h.perm (f := fun _ => ()) (g := fun _ => ()) hpq (fun _ _ _ _ _ _ => rfl)
  simpa using hperm.length_eq

/-! ## Statements -/

open Postgres

variable {stmt : Stmt} {now : Timestamp} {choice : Choice}

/-- A statement runs if it runs on every row, and what it leaves is mirrored row by row. -/
theorem Same.onRows (h : Same rows records) {g : OutboxRecord → Option OutboxRecord}
    (hseq : ∀ record ∈ records, ∀ r, g record = some r → r.sequence = record.sequence)
    (hrow : ∀ row ∈ rows, ∀ record ∈ records, Mirrors row record →
      ∃ o, stmt.onRow now choice row = .ok o ∧ Option.Rel Mirrors o (g record)) :
    ∃ rows', stmt.onRows now choice rows = .ok rows' ∧ Same rows' (records.filterMap g) := by
  have hall : ∀ row ∈ rows, ∃ o, stmt.onRow now choice row = .ok o := by
    intro row hr
    obtain ⟨record, hrecord, hm⟩ := h.ofRow row hr
    obtain ⟨o, ho, -⟩ := hrow row hr record hrecord hm
    exact ⟨o, ho⟩
  have hrows := Stmt.onRows_ok.mpr ⟨hall, rfl⟩
  refine ⟨_, hrows, ?_, ?_, ?_, ?_⟩
  · exact h.rows_nodup.sublist (Stmt.onRows_sequences hrows)
  · refine h.records_nodup.sublist ?_
    clear hrows hall hrow h
    induction records with
    | nil => exact .slnil
    | cons record records ih =>
        have hrest := ih fun x hx => hseq x (List.mem_cons_of_mem _ hx)
        cases hg : g record with
        | none =>
            rw [List.filterMap_cons_none hg]
            exact hrest.cons _
        | some r =>
            rw [List.filterMap_cons_some hg, Memory.sequences, List.map_cons,
              hseq record List.mem_cons_self r hg]
            exact hrest.cons_cons _
  · intro row' hrow'
    obtain ⟨row, hr, honrow⟩ := (Stmt.onRows_mem hrows).mp hrow'
    obtain ⟨record, hrecord, hm⟩ := h.ofRow row hr
    obtain ⟨o, ho, hrel⟩ := hrow row hr record hrecord hm
    rw [honrow] at ho
    cases ho
    cases hg : g record with
    | none =>
        rw [hg] at hrel
        cases hrel
    | some r =>
        rw [hg] at hrel
        cases hrel with
        | some hm' => exact ⟨r, List.mem_filterMap.mpr ⟨record, hrecord, hg⟩, hm'⟩
  · intro record' hrecord'
    obtain ⟨record, hrecord, hg⟩ := List.mem_filterMap.mp hrecord'
    obtain ⟨row, hr, hm⟩ := h.ofRecord record hrecord
    obtain ⟨o, ho, hrel⟩ := hrow row hr record hrecord hm
    rw [hg] at hrel
    cases hrel with
    | @some row' _ hm' => exact ⟨row', (Stmt.onRows_mem hrows).mpr ⟨row, hr, ho⟩, hm'⟩

/-- An `UPDATE`: its targets are the rows whose mirrors satisfy `p`, and it does `f` to them. -/
theorem Same.update (h : Same rows records) (stmt : Stmt) (now : Timestamp) (choice : Choice)
    (hok : ∀ row ∈ rows, RowOk row)
    {p : OutboxRecord → Bool} {f : OutboxRecord → OutboxRecord}
    (hseq : ∀ r, (f r).sequence = r.sequence)
    (htarget : ∀ row ∈ rows, ∀ record ∈ records, Mirrors row record →
      (row.sequence ∈ choice.targets ↔ p record = true))
    (hset : ∀ row ∈ rows, ∀ record ∈ records, Mirrors row record → p record = true →
      stmt.outer now row = true ∧
        ∃ row', stmt.set now (choice.item row.sequence) row = .ok (some row') ∧
          Mirrors row' (f record)) :
    ∃ rows', stmt.onRows now choice rows = .ok rows' ∧
      Same rows' (records.map fun r => if p r then f r else r) ∧
      stmt.affected now choice rows = (records.filter p).length := by
  have hrow : ∀ row ∈ rows, ∀ record ∈ records, Mirrors row record →
      ∃ o, stmt.onRow now choice row = .ok o ∧
        Option.Rel Mirrors o (some (if p record then f record else record)) := by
    intro row hr record hrecord hm
    by_cases hp : p record = true
    · obtain ⟨houter, row', hset, hm'⟩ := hset row hr record hrecord hm hp
      refine ⟨some row', ?_, ?_⟩
      · exact Stmt.onRow_set (hok row hr) ((htarget row hr record hrecord hm).mpr hp) houter hset
      · rw [if_pos hp]
        exact .some hm'
    · have hnot := mt (htarget row hr record hrecord hm).mp hp
      refine ⟨some row, by simp only [Stmt.onRow, hnot, if_false], ?_⟩
      rw [if_neg hp]
      exact .some hm
  obtain ⟨rows', hrows, hsame⟩ := h.onRows (g := fun r => some (if p r then f r else r))
    (by
      rintro record - r hr
      cases hr
      split
      · exact hseq record
      · rfl) hrow
  refine ⟨rows', hrows, ?_, ?_⟩
  · rwa [← List.filterMap_eq_map]
  · refine h.count fun row hr record hrecord hm => ?_
    by_cases hp : p record = true
    · simp only [hp, (htarget row hr record hrecord hm).mpr hp,
        (hset row hr record hrecord hm hp).1, decide_true, Bool.and_self]
    · have hnot := mt (htarget row hr record hrecord hm).mp hp
      simp only [hnot, hp, decide_false, Bool.false_and]

/-- A `DELETE`. -/
theorem Same.delete (h : Same rows records) (stmt : Stmt) (now : Timestamp) (choice : Choice)
    (hdel : stmt.deletes = true) {p : OutboxRecord → Bool}
    (htarget : ∀ row ∈ rows, ∀ record ∈ records, Mirrors row record →
      (row.sequence ∈ choice.targets ↔ p record = true))
    (houter : ∀ row ∈ rows, ∀ record ∈ records, Mirrors row record → p record = true →
      stmt.outer now row = true) :
    ∃ rows', stmt.onRows now choice rows = .ok rows' ∧
      Same rows' (records.filter fun r => !p r) ∧
      stmt.affected now choice rows = (records.filter p).length := by
  have hrow : ∀ row ∈ rows, ∀ record ∈ records, Mirrors row record →
      ∃ o, stmt.onRow now choice row = .ok o ∧
        Option.Rel Mirrors o (if p record then none else some record) := by
    intro row hr record hrecord hm
    by_cases hp : p record = true
    · refine ⟨none, ?_, ?_⟩
      · simp only [Stmt.onRow, (htarget row hr record hrecord hm).mpr hp, if_true,
          Stmt.touch_deletes hdel, houter row hr record hrecord hm hp]
      · rw [if_pos hp]
        exact .none
    · have hnot := mt (htarget row hr record hrecord hm).mp hp
      refine ⟨some row, by simp only [Stmt.onRow, hnot, if_false], ?_⟩
      rw [if_neg hp]
      exact .some hm
  obtain ⟨rows', hrows, hsame⟩ := h.onRows (g := fun r => if p r then none else some r)
    (by
      rintro record - r hr
      split at hr
      · cases hr
      · cases hr
        rfl) hrow
  have hfilter : records.filterMap (fun r => if p r then none else some r) =
      records.filter fun r => !p r := by
    rw [← List.filterMap_eq_filter]
    refine List.filterMap_congr fun r _ => ?_
    cases hp : p r <;> simp [Option.guard, hp]
  refine ⟨rows', hrows, by rwa [← hfilter], ?_⟩
  refine h.count fun row hr record hrecord hm => ?_
  by_cases hp : p record = true
  · simp only [hp, (htarget row hr record hrecord hm).mpr hp,
      houter row hr record hrecord hm hp, decide_true, Bool.and_self]
  · have hnot := mt (htarget row hr record hrecord hm).mp hp
    simp only [hnot, hp, decide_false, Bool.false_and]

end

end Reliar.Store
