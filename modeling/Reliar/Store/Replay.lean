/-
# `Reliar.Store.Replay` — a loop of the in-memory store as a statement

A method of `InMemoryOutboxStore` is a loop over the rows or over its items; the
SQL store's is a statement, or a few.  Here a loop is replayed by a statement on
the same rows: by one without `LIMIT` that touches the rows its items name
(`Paired.replay_items`), or by one with a `LIMIT` that picks the first rows the
loop takes (`Same.replay_drop`, `Same.replay_sweep`).

`Plays` is a sequence of statements, each with a choice PostgreSQL can make;
`Plays.exists_env` turns it into the environment of a call.
-/
import Reliar.Store.Claim
import Reliar.Store.Mirror
import Reliar.Store.MemoryLoops

namespace Reliar.Store

open Reliar.Core Reliar.Outbox Postgres

/-! ## Choices and environments -/

section
variable {rows rows' : List Row} {stmt : Stmt} {now : Timestamp} {choice : Choice}

/-- Without a `LIMIT` the rows that qualify are the targets. -/
theorem exists_full (now : Timestamp) (rows : List Row) (stmt : Stmt) {Q : Row → Nat → Prop} (hnd : (rows.map Row.sequence).Nodup)
    (hlimit : stmt.limit = none)
    (hitems : ∀ r ∈ rows, stmt.inner now r = true → ∃ i, stmt.picks i r = true ∧ Q r i) :
    ∃ choice : Choice, choice.Full now rows stmt ∧
      (∀ r ∈ rows, r.sequence ∈ choice.targets ↔ stmt.inner now r = true) ∧
      ∀ r ∈ rows, stmt.inner now r = true → Q r (choice.item r.sequence) := by
  obtain ⟨choice, hvalid, hall⟩ := exists_choice hnd hlimit hitems
  refine ⟨choice, ⟨hvalid, ?_⟩, ?_, fun r hr hinner => (hall r hr hinner).2⟩
  · intro r hr hinner hnot
    exact absurd (hall r hr hinner).1 hnot
  · intro r hr
    exact ⟨inner_of_target hnd hvalid hr, fun hinner => (hall r hr hinner).1⟩

end

/-- The statements one after the other, each with a choice PostgreSQL can make, and what each
affected. -/
inductive Plays (now : Timestamp) : List Stmt → List Row → List Row → List Nat → Prop
  | nil (rows : List Row) : Plays now [] rows rows []
  | cons {stmt : Stmt} {stmts : List Stmt} {rows rows₁ rows' : List Row} {counts : List Nat}
      {choice : Choice} : choice.Full now rows stmt → stmt.exec now choice rows = .ok rows₁ →
      Plays now stmts rows₁ rows' counts →
      Plays now (stmt :: stmts) rows rows' (stmt.affected now choice rows :: counts)

/-- An environment without failures. -/
def playEnv (now : Timestamp) (choice : Nat → Choice) : Env := ⟨now, choice, fun _ => false⟩

theorem playEnv_congr (now : Timestamp) {choice choice' : Nat → Choice} {k : Nat}
    (h : ∀ n, k ≤ n → choice n = choice' n) (stmts : List Stmt) (rows : List Row) :
    (playEnv now choice).execAll k stmts rows = (playEnv now choice').execAll k stmts rows ∧
      ((playEnv now choice).Full k stmts rows ↔ (playEnv now choice').Full k stmts rows) := by
  induction stmts generalizing k rows with
  | nil => exact ⟨rfl, Iff.rfl⟩
  | cons stmt stmts ih =>
      have hk : choice k = choice' k := h k (Nat.le_refl k)
      have hexec : (playEnv now choice).exec k stmt rows = (playEnv now choice').exec k stmt rows := by
        have hchoice : (playEnv now choice).choice k = (playEnv now choice').choice k := hk
        unfold Env.exec
        rw [hchoice]
        rfl
      have hrest := fun rows => ih (fun n hn => h n (Nat.le_of_succ_le hn)) rows
      refine ⟨?_, ?_⟩
      · simp only [Env.execAll, hexec]
        split
        · rfl
        · rw [(hrest _).1]
      · simp only [Env.Full, hexec]
        have hchoice : (playEnv now choice).choice k = (playEnv now choice').choice k := hk
        rw [hchoice]
        exact and_congr Iff.rfl (forall_congr' fun rows' => forall_congr' fun count =>
          imp_congr Iff.rfl (hrest rows').2)

/-- An environment in which the statements play as they may. -/
theorem Plays.exists_env {now : Timestamp} {stmts : List Stmt} {rows rows' : List Row}
    {counts : List Nat} (h : Plays now stmts rows rows' counts) (k : Nat) :
    ∃ choice, (playEnv now choice).Full k stmts rows ∧
      (playEnv now choice).execAll k stmts rows = (rows', .ok counts) := by
  induction h generalizing k with
  | nil rows => exact ⟨fun _ => ⟨[], fun _ => 0⟩, trivial, rfl⟩
  | @cons stmt stmts rows rows₁ rows' counts choice hfull hexec _ ih =>
      obtain ⟨later, hlater, hrun⟩ := ih (k + 1)
      let now' : Nat → Choice := fun n => if n = k then choice else later n
      have hagree : ∀ n, k + 1 ≤ n → now' n = later n := fun n hn =>
        if_neg (by omega)
      obtain ⟨hexecAll, hfullAll⟩ := playEnv_congr now hagree stmts rows₁
      have hchoice : (playEnv now now').choice k = choice := if_pos rfl
      have hstep : (playEnv now now').exec k stmt rows =
          .ok (rows₁, stmt.affected now choice rows) := by
        have hnow : (playEnv now now').now = now := rfl
        simp only [Env.exec, hchoice, hnow, hexec]
        rfl
      refine ⟨now', ⟨?_, ?_⟩, ?_⟩
      · rw [hchoice]
        exact hfull
      · intro rows₂ count h₂
        rw [hstep] at h₂
        cases h₂
        exact hfullAll.mpr hlater
      · simp only [Env.execAll, hstep, hexecAll, hrun]
        rfl

/-! ## Paired stores -/

/-- The same rows in both stores, in a state a run leaves them in. -/
structure Paired (rows : List Row) (records : List OutboxRecord) : Prop where
  same : Same rows records
  ok : ∀ r ∈ records, Memory.RecordOk r
  ids : (records.map (·.envelope.id)).Nodup
  attempts : ∀ r ∈ records, (r.attempts : Int) ≤ INT_MAX

/-- Distinct references to rows there are. -/
structure Names (records : List OutboxRecord) (refs : List MessageRef) : Prop where
  distinct : refs.Nodup
  exist : ∀ m ∈ refs, ∃ r ∈ records, r.messageRef = m

section
variable {rows : List Row} {records : List OutboxRecord}

theorem Paired.rowOk (h : Paired rows records) : ∀ row ∈ rows, RowOk row := by
  intro row hrow
  obtain ⟨record, hrecord, hm⟩ := h.same.ofRow row hrow
  exact hm.rowOk (h.ok record hrecord) (h.attempts record hrecord)

theorem Paired.refs (h : Paired rows records) : (records.map OutboxRecord.messageRef).Nodup := by
  refine List.Nodup.of_map MessageRef.id ?_
  rw [List.map_map]
  exact h.ids

/-- `id = ANY(ids)` asks no `created_at`, and need not: the reference names the row. -/
theorem Paired.named (h : Paired rows records) {refs : List MessageRef} (hrefs : Names records refs)
    {row : Row} {record : OutboxRecord} (hrecord : record ∈ records) (hm : Mirrors row record) :
    decide (row.columns.id ∈ refs.map fun m => m.id.uuid) = refs.any (Memory.refMatches record) := by
  rw [Bool.eq_iff_iff, decide_eq_true_eq, List.any_eq_true, List.mem_map]
  constructor
  · rintro ⟨m, hmem, hid⟩
    refine ⟨m, hmem, ?_⟩
    obtain ⟨r, hr, rfl⟩ := hrefs.exist m hmem
    have heq : r.envelope.id = record.envelope.id := by
      have huuid : r.envelope.id.uuid = record.envelope.id.uuid := hid.trans hm.id
      exact congrArg MessageId.mk huuid
    have hsame : r = record := List.inj_on_of_nodup_map h.ids hr hrecord heq
    subst hsame
    simp [Memory.refMatches, OutboxRecord.messageRef]
  · rintro ⟨m, hmem, hmatch⟩
    simp only [Memory.refMatches, Bool.and_eq_true, decide_eq_true_eq] at hmatch
    refine ⟨m, hmem, ?_⟩
    rw [hm.id, hmatch.1]

/-- Both guards find the same rows. -/
theorem Paired.owned (h : Paired rows records) {refs : List MessageRef} (hrefs : Names records refs)
    (worker : WorkerId) {row : Row} {record : OutboxRecord} (hrecord : record ∈ records)
    (hm : Mirrors row record) :
    Postgres.owned (refs.map fun m => m.id.uuid) worker.asStr row =
      refs.any fun m => Memory.owns worker m record := by
  have hlocked : decide (row.lockedBy = some worker.asStr) =
      decide (record.lockedBy = some worker) := by
    rw [hm.lockedBy]
    cases record.lockedBy with
    | none => rfl
    | some w => simp [WorkerId.asStr_inj]
  have hany : (refs.any fun m => Memory.owns worker m record) =
      (refs.any (Memory.refMatches record) && decide (record.lockedBy = some worker)) := by
    rw [Bool.eq_iff_iff]
    simp only [Memory.owns, List.any_eq_true, Bool.and_eq_true]
    constructor
    · rintro ⟨m, hmem, hmatch, hw⟩
      exact ⟨⟨m, hmem, hmatch⟩, hw⟩
    · rintro ⟨⟨m, hmem, hmatch⟩, hw⟩
      exact ⟨m, hmem, hmatch, hw⟩
  rw [Postgres.owned, h.named hrefs hrecord hm, hlocked, hany]

end

/-! ## The predicates -/

section
variable {row : Row} {record : OutboxRecord} {now : Timestamp}

theorem Mirrors.leaseFree (h : Mirrors row record) :
    Postgres.leaseFree now row = Memory.leaseIsFree record now := by
  cases hl : record.lockedUntil with
  | none => simp only [Postgres.leaseFree, Memory.leaseIsFree, h.lockedUntil, hl]
  | some t => simp only [Postgres.leaseFree, Memory.leaseIsFree, h.lockedUntil, hl]

theorem Mirrors.claimable (h : Mirrors row record) :
    Postgres.claimable now row = Memory.isClaimable record now := by
  cases hx : record.envelope.expiresAt with
  | none =>
      simp only [Postgres.claimable, Memory.isClaimable, h.leaseFree, h.publishedAt, h.deadAt,
        h.availableAt, h.expires, hx]
  | some t =>
      simp only [Postgres.claimable, Memory.isClaimable, h.leaseFree, h.publishedAt, h.deadAt,
        h.availableAt, h.expires, hx]

/-- The one takes a row at its `expires_at`, the other after it. -/
theorem Mirrors.expired (h : Mirrors row record) (hne : record.envelope.expiresAt ≠ some now) :
    Postgres.expired now row = Memory.isExpired record now := by
  simp only [Postgres.expired, Memory.isExpired, h.expires]
  cases hx : record.envelope.expiresAt with
  | none => rfl
  | some t =>
      have hlt : t ≠ now := fun heq => hne (heq ▸ hx)
      simp only [Option.any_some, decide_eq_decide]
      exact ⟨Int.le_of_lt, fun hle => lt_of_le_of_ne hle hlt⟩

theorem Mirrors.sweepable (h : Mirrors row record) (hne : record.envelope.expiresAt ≠ some now) :
    (Postgres.expired now row && Postgres.sweepable now row) = Memory.sweepable now record := by
  simp only [h.expired hne, Postgres.sweepable, Memory.sweepable, h.leaseFree, h.publishedAt,
    h.deadAt]
  exact Bool.and_comm _ _

theorem Mirrors.swept (h : Mirrors row record) :
    Mirrors { row with
      deadAt := some now, deadReason := some (encodeDeadReason .expired)
      lastError := some "reliar: expired before publication"
      lockedBy := none, lockedUntil := none, updatedAt := now } (Memory.sweepRow now record) :=
  { h with
    lockedBy := rfl, lockedUntil := rfl, deadAt := rfl, deadReason := rfl, lastError := rfl }

end

/-! ## Loops over items -/

section
variable {stmt : Stmt} {now : Timestamp} {choice : Choice}

theorem exec_of_texts (now : Timestamp) (choice : Choice)
    (htexts : ∀ text ∈ stmt.texts, hasNul text = false)
    (hready : stmt.ready now = true) (rows : List Row) :
    stmt.exec now choice rows = stmt.onRows now choice rows := by
  have hnone : stmt.texts.any hasNul = false := by
    rw [List.any_eq_false]
    exact fun text htext => Bool.not_eq_true _ ▸ htexts text htext
  simp only [Stmt.exec, hnone, hready, if_true, Bool.false_eq_true, if_false]

theorem Plays.one {stmt : Stmt} {rows rows' : List Row} (hfull : choice.Full now rows stmt)
    (hexec : stmt.exec now choice rows = .ok rows') :
    Plays now [stmt] rows rows' [stmt.affected now choice rows] :=
  .cons hfull hexec (.nil rows')

theorem Plays.append {stmts stmts' : List Stmt} {rows rows₁ rows' : List Row}
    {counts counts' : List Nat} (h : Plays now stmts rows rows₁ counts)
    (h' : Plays now stmts' rows₁ rows' counts') :
    Plays now (stmts ++ stmts') rows rows' (counts ++ counts') := by
  induction h with
  | nil => exact h'
  | cons hfull hexec _ ih => exact .cons hfull hexec (ih h')

variable {rows : List Row} {records : List OutboxRecord} {α : Type}
  {p : α → OutboxRecord → Bool} {f : α → OutboxRecord → OutboxRecord} {items : List α}
  {key : α → MessageRef}

/-- A loop over items is one statement that touches the rows the items find. -/
theorem Paired.replay_items (h : Paired rows records) (now : Timestamp) (stmt : Stmt)
    (items : List α) (key : α → MessageRef)
    (hkey : ∀ a r, p a r = true → r.messageRef = key a)
    (href : ∀ a r, (f a r).messageRef = r.messageRef)
    (hseq : ∀ a r, (f a r).sequence = r.sequence) (hitems : (items.map key).Nodup)
    (hlimit : stmt.limit = none) (htexts : ∀ text ∈ stmt.texts, hasNul text = false)
    (hready : stmt.ready now = true)
    (hinner : ∀ row ∈ rows, ∀ record ∈ records, Mirrors row record →
      stmt.inner now row = items.any fun a => p a record)
    (houter : ∀ row, stmt.inner now row = true → stmt.outer now row = true)
    (hset : ∀ row record, record ∈ records → Mirrors row record → ∀ a ∈ items, p a record = true →
      ∃ i, stmt.picks i row = true ∧
        ∃ row', stmt.set now i row = .ok (some row') ∧ Mirrors row' (f a record)) :
    ∃ rows', Plays now [stmt] rows rows' [(Memory.updateEach p f items records).2] ∧
      Same rows' (Memory.updateEach p f items records).1 := by
  have hall : ∀ row ∈ rows, ∀ record ∈ records, Mirrors row record → stmt.inner now row = true →
      ∃ i, stmt.picks i row = true ∧
        ∃ row', stmt.set now i row = .ok (some row') ∧
          Mirrors row' (Memory.applyItems p f items record) := by
    intro row hrow record hrecord hm hin
    rw [hinner row hrow record hrecord hm, List.any_eq_true] at hin
    obtain ⟨a, ha, hp⟩ := hin
    rw [Memory.applyItems_eq hkey hitems ha hp]
    exact hset row record hrecord hm a ha hp
  obtain ⟨choice, hfull, htargets, hchosen⟩ := exists_full now rows stmt
    (Q := fun row i => ∀ record ∈ records, Mirrors row record →
      ∃ row', stmt.set now i row = .ok (some row') ∧
        Mirrors row' (Memory.applyItems p f items record)) h.same.rows_nodup hlimit (by
      intro row hrow hin
      obtain ⟨record, hrecord, hm⟩ := h.same.ofRow row hrow
      obtain ⟨i, hi, hwrite⟩ := hall row hrow record hrecord hm hin
      refine ⟨i, hi, fun record' hrecord' hm' => ?_⟩
      have hsame : record' = record := List.inj_on_of_nodup_map h.same.records_nodup hrecord'
        hrecord (hm'.sequence.symm.trans hm.sequence)
      rw [hsame]
      exact hwrite)
  obtain ⟨rows', hrows, hsame, hcount⟩ := h.same.update stmt now choice h.rowOk
    (p := fun r => items.any fun a => p a r)
    (f := Memory.applyItems p f items)
    (by
      intro r
      unfold Memory.applyItems
      split
      · exact hseq _ r
      · rfl)
    (by
      intro row hrow record hrecord hm
      rw [htargets row hrow, hinner row hrow record hrecord hm])
    (by
      intro row hrow record hrecord hm hp
      have hin := (hinner row hrow record hrecord hm).trans hp
      exact ⟨houter row hin, hchosen row hrow hin record hrecord hm⟩)
  have hexec := (exec_of_texts now choice htexts hready rows).trans hrows
  have hloop := Memory.updateEach_eq hkey href hseq hitems h.same.records_nodup
    h.refs
  refine ⟨rows', ?_, ?_⟩
  · rw [hloop, ← hcount]
    exact .one hfull hexec
  · rw [hloop]
    have hmap : (records.map fun r => if (items.any fun a => p a r) then
        Memory.applyItems p f items r else r) = records.map (Memory.applyItems p f items) := by
      refine List.map_congr_left fun r _ => ?_
      split
      · rfl
      · rename_i hnone
        exact (Memory.applyItems_of_none (Bool.not_eq_true _ ▸ hnone)).symm
    rwa [← hmap]

end

/-! ## Loops with a budget -/

section
variable {stmt : Stmt} {now : Timestamp} {rows : List Row} {records : List OutboxRecord}
  {p : OutboxRecord → Bool} {n : Nat}

omit stmt now rows in
theorem firstOf_length_le : (Memory.firstOf p n records).length ≤ n := by
  simp only [Memory.firstOf, Memory.sequences, List.length_map, List.length_take]
  exact Nat.min_le_left _ _

omit stmt now rows in
/-- A row that is left out is left out for want of budget. -/
theorem firstOf_rest {r : OutboxRecord} (hr : r ∈ records) (hp : p r = true)
    (hout : r.sequence ∉ Memory.firstOf p n records) : n ≤ (Memory.firstOf p n records).length := by
  by_contra hlt
  have hall : (records.filter p).take n = records.filter p := by
    refine List.take_of_length_le ?_
    simp only [Memory.firstOf, Memory.sequences, List.length_map, List.length_take] at hlt
    omega
  refine hout (List.mem_map.mpr ⟨r, ?_, rfl⟩)
  rw [hall]
  exact List.mem_filter.mpr ⟨hr, hp⟩

/-- The first rows are a choice PostgreSQL can make. -/
theorem Same.full_first (h : Same rows records) (now : Timestamp) (stmt : Stmt)
    (hlimit : stmt.limit = some (n : Int))
    (hpicks : ∀ i r, stmt.picks i r = true) (hordered : ∀ r r', stmt.ordered r r' = true)
    (hinner : ∀ row ∈ rows, ∀ record ∈ records, Mirrors row record →
      stmt.inner now row = p record) :
    (⟨Memory.firstOf p n records, fun _ => 0⟩ : Choice).Full now rows stmt := by
  refine full_of_targets ?_ ?_ hpicks hlimit (Int.ofNat_le.mpr firstOf_length_le) ?_
  · exact h.records_nodup.sublist (((List.take_sublist _ _).trans List.filter_sublist).map _)
  · intro q hq
    obtain ⟨record, hrecord, hp, rfl⟩ := Memory.firstOf_subset hq
    obtain ⟨row, hrow, hm⟩ := h.ofRecord record hrecord
    exact ⟨row, hrow, hm.sequence, (hinner row hrow record hrecord hm).trans hp⟩
  · intro row hrow hin hout
    obtain ⟨record, hrecord, hm⟩ := h.ofRow row hrow
    rw [hm.sequence] at hout
    have hp : p record = true := (hinner row hrow record hrecord hm).symm.trans hin
    exact ⟨Int.ofNat_le.mpr (firstOf_rest hrecord hp hout), fun r' _ _ => hordered r' row⟩

theorem Same.mem_first (h : Same rows records) {record : OutboxRecord} (hrecord : record ∈ records)
    (hmem : decide (record.sequence ∈ Memory.firstOf p n records) = true) : p record = true := by
  obtain ⟨r, hr, hp, hseq⟩ := Memory.firstOf_subset (of_decide_eq_true hmem)
  rw [← List.inj_on_of_nodup_map h.records_nodup hr hrecord hseq]
  exact hp

omit rows records in
theorem length_of_numbers {records : List OutboxRecord} (hnd : (Memory.sequences records).Nodup) :
    (records.filter fun r => decide (r.sequence ∈ Memory.firstOf p n records)).length =
      (Memory.firstOf p n records).length := by
  have hperm : (Memory.sequences (records.filter fun r =>
      decide (r.sequence ∈ Memory.firstOf p n records))).Perm (Memory.firstOf p n records) := by
    refine (List.perm_ext_iff_of_nodup ?_ ?_).mpr fun q => ?_
    · exact hnd.sublist (List.filter_sublist.map _)
    · exact hnd.sublist (((List.take_sublist _ _).trans List.filter_sublist).map _)
    · constructor
      · intro hq
        obtain ⟨r, hr, rfl⟩ := List.mem_map.mp hq
        exact of_decide_eq_true (List.mem_filter.mp hr).2
      · intro hq
        obtain ⟨r, hr, -, rfl⟩ := Memory.firstOf_subset hq
        exact List.mem_map.mpr ⟨r, List.mem_filter.mpr ⟨hr, decide_eq_true hq⟩, rfl⟩
  rw [← hperm.length_eq, Memory.sequences, List.length_map]

/-- A bounded `retain` is a bounded `DELETE`. -/
theorem Same.replay_drop (h : Same rows records) (now : Timestamp) (stmt : Stmt) (hdel : stmt.deletes = true)
    (hlimit : stmt.limit = some (n : Int))
    (hpicks : ∀ i r, stmt.picks i r = true) (hordered : ∀ r r', stmt.ordered r r' = true)
    (htexts : stmt.texts = []) (hready : stmt.ready now = true)
    (hsame : ∀ row, stmt.inner now row = stmt.outer now row)
    (hinner : ∀ row ∈ rows, ∀ record ∈ records, Mirrors row record →
      stmt.inner now row = p record) :
    ∃ rows', Plays now [stmt] rows rows' [(Memory.dropRows p n records).2] ∧
      Same rows' (Memory.dropRows p n records).1 := by
  have hfull := h.full_first now stmt hlimit hpicks hordered hinner
  obtain ⟨rows', hrows, hleft, hcount⟩ := h.delete stmt now
    ⟨Memory.firstOf p n records, fun _ => 0⟩ hdel
    (p := fun r => decide (r.sequence ∈ Memory.firstOf p n records))
    (by
      intro row hrow record hrecord hm
      rw [hm.sequence, decide_eq_true_eq])
    (by
      intro row hrow record hrecord hm hmem
      rw [← hsame, hinner row hrow record hrecord hm]
      exact h.mem_first hrecord hmem)
  have hexec := (exec_of_texts now ⟨Memory.firstOf p n records, fun _ => 0⟩
    (by simp [htexts]) hready rows).trans hrows
  rw [Memory.dropRows_eq p n records h.records_nodup]
  refine ⟨rows', ?_, hleft⟩
  rw [← length_of_numbers h.records_nodup, ← hcount]
  exact .one hfull hexec

/-- What is left of paired stores is paired. -/
theorem Paired.sublist (h : Paired rows records) {rows' : List Row} {records' : List OutboxRecord}
    (hsub : records'.Sublist records) (hsame : Same rows' records') : Paired rows' records' where
  same := hsame
  ok := fun r hr => h.ok r (hsub.subset hr)
  ids := h.ids.sublist (hsub.map _)
  attempts := fun r hr => h.attempts r (hsub.subset hr)

theorem Paired.replay_sweep (h : Paired rows records) (now : Timestamp) (n : Nat)
    (hexpires : ∀ r ∈ records, r.envelope.expiresAt ≠ some now) :
    ∃ rows', Plays now [.purgeExpiredSweep n (encodeDeadReason .expired)] rows rows'
        [(Memory.sweepRows now n records).2] ∧ Same rows' (Memory.sweepRows now n records).1 := by
  have hinner : ∀ row ∈ rows, ∀ record ∈ records, Mirrors row record →
      (Stmt.purgeExpiredSweep n (encodeDeadReason .expired)).inner now row =
        Memory.sweepable now record :=
    fun row _ record hrecord hm => hm.sweepable (hexpires record hrecord)
  have hfull := h.same.full_first now
    (.purgeExpiredSweep n (encodeDeadReason .expired)) rfl (fun _ _ => rfl)
    (fun _ _ => rfl) hinner
  obtain ⟨rows', hrows, hleft, hcount⟩ := h.same.update
    (.purgeExpiredSweep n (encodeDeadReason .expired)) now
    ⟨Memory.firstOf (Memory.sweepable now) n records, fun _ => 0⟩ h.rowOk
    (p := fun r => decide (r.sequence ∈ Memory.firstOf (Memory.sweepable now) n records))
    (f := Memory.sweepRow now) (fun _ => rfl)
    (by
      intro row hrow record hrecord hm
      rw [hm.sequence, decide_eq_true_eq])
    (by
      intro row hrow record hrecord hm hmem
      have hp := (hinner row hrow record hrecord hm).trans (h.same.mem_first hrecord hmem)
      simp only [Stmt.inner, Bool.and_eq_true] at hp
      exact ⟨hp.2, _, rfl, hm.swept⟩)
  have hreason : ∀ text ∈ (Stmt.purgeExpiredSweep n (encodeDeadReason .expired)).texts,
      hasNul text = false := by
    intro text htext
    rw [List.mem_singleton.mp htext]
    decide
  have hexec := (exec_of_texts now
    ⟨Memory.firstOf (Memory.sweepable now) n records, fun _ => 0⟩ hreason rfl rows).trans hrows
  rw [Memory.sweepRows_eq now n records h.same.records_nodup]
  refine ⟨rows', ?_, ?_⟩
  · rw [← length_of_numbers h.same.records_nodup, ← hcount]
    exact .one hfull hexec
  · simpa only [decide_eq_true_eq] using hleft

end

end Reliar.Store
