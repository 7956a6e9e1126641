/-
# `Reliar.Store.ReplayCalls` — the calls that write, replayed

Every method of the in-memory store that settles, releases, renews, purges or
revives rows has its statements on the SQL side (`Start.replay_call`).  Three do
not go the same way about it: `fail` is one loop here and two statements there,
`purge` sweeps first here and last there, and `retry_dead` takes a lease off
there that no dead row has.
-/
import Reliar.Store.Replay

namespace Reliar.Store

open Reliar.Core Reliar.Outbox Postgres

/-! ## What both are given -/

/-- A whole number of milliseconds that an `i64` holds. -/
def WholeMillis (d : Duration) : Prop := d % 1000000 = 0 ∧ d / 1000000 ≤ I64_MAX

/-- PostgreSQL has such a timestamp. -/
def InRange (t : Timestamp) : Prop := MIN_TIMESTAMP ≤ t ∧ t < END_TIMESTAMP

/-- A duration the statement adds to `now()`. -/
structure Ahead (now : Timestamp) (d : Duration) : Prop where
  whole : WholeMillis d
  range : InRange (now + d)

/-- A retention the statement takes off `now()`. -/
structure Ago (now : Timestamp) (d : Duration) : Prop where
  whole : WholeMillis d
  range : InRange (now - d)

/-- The arguments of a call: references as above, items as their constructors build them,
durations whole milliseconds and in range. -/
def CallOk (s : Memory.Inner) : Call → Prop
  | .complete _ items => Names s.rows (items.map (·.message))
  | .fail _ items =>
      Names s.rows (items.map (·.message)) ∧
        ∀ item ∈ items, (∃ error, item = FailedMessage.new item.message error item.outcome) ∧
          ∀ delay, item.outcome = .retry delay → Ahead s.now delay
  | .release _ refs => Names s.rows refs
  | .extendLease _ refs lease => Names s.rows refs ∧ Ahead s.now lease
  | .purge request =>
      (∀ d, request.publishedRetention = some d → Ago s.now d) ∧
        ∀ d, request.deadRetention = some d → Ago s.now d
  | .retryDead refs => Names s.rows refs
  | .purgeDead refs => Names s.rows refs

/-- No failure is armed. -/
structure Unarmed (s : Memory.Inner) : Prop where
  failNext : s.failNext = 0
  failNextPermanent : s.failNextPermanent = 0
  failNextComplete : s.failNextComplete = 0

theorem Unarmed.guarded {s : Memory.Inner} (h : Unarmed s) {α : Type}
    (body : Memory.Inner → α × Memory.Inner) :
    Memory.guarded body s = (.ok (body s).1, (body s).2) := by
  simp only [Memory.guarded, Memory.takeInjectedFailure, h.failNext, h.failNextPermanent,
    Nat.lt_irrefl, if_false]

theorem WholeMillis.millis {d : Duration} (h : WholeMillis d) : millis d * 1000000 = (d : Int) := by
  obtain ⟨hmod, hle⟩ := h
  have hmin : min d.asMillis I64_MAX = d / 1000000 := Nat.min_eq_left hle
  rw [Postgres.millis, hmin]
  have hnat : d / 1000000 * 1000000 = d := Nat.div_mul_cancel (Nat.dvd_of_mod_eq_zero hmod)
  exact_mod_cast hnat

theorem Ahead.addMillis {now : Timestamp} {d : Duration} (h : Ahead now d) :
    Postgres.addMillis now (millis d) = .ok (now + d) := by
  simp only [Postgres.addMillis, h.whole.millis]
  exact if_pos h.range

theorem Ago.ready {now : Timestamp} {d : Duration} (h : Ago now d) :
    (Postgres.addMillis now (-(millis d))).isOk = true := by
  have hsub : now + -(millis d) * 1000000 = now - d := by
    rw [Int.neg_mul, h.whole.millis]
    rfl
  have hrange : MIN_TIMESTAMP ≤ now - d ∧ now - d < END_TIMESTAMP := h.range
  simp only [Postgres.addMillis, hsub, if_pos hrange]
  rfl

theorem Ago.olderThan {now : Timestamp} {d : Duration} (h : Ago now d) (at' : Option Timestamp) :
    Postgres.olderThan at' now (millis d) = Memory.isBefore (now - d) at' := by
  cases at' with
  | none => rfl
  | some t => simp only [Postgres.olderThan, Memory.isBefore, h.whole.millis]

/-- What the two stores start from. -/
structure Start (rows : List Row) (s : Memory.Inner) : Prop where
  paired : Paired rows s.rows
  attempts : ∀ r ∈ s.rows, (r.attempts : Int) < INT_MAX
  expires : ∀ r ∈ s.rows, r.envelope.expiresAt ≠ some s.now
  unarmed : Unarmed s

/-! ## The settling calls -/

section
variable {rows : List Row} {records : List OutboxRecord} {now : Timestamp} {worker : WorkerId}

theorem Paired.owned_items (h : Paired rows records) {α : Type} {key : α → MessageRef}
    {items : List α} (hnames : Names records (items.map key)) (worker : WorkerId) {row : Row}
    {record : OutboxRecord} (hrecord : record ∈ records) (hm : Mirrors row record) :
    Postgres.owned (items.map fun a => (key a).id.uuid) worker.asStr row =
      items.any fun a => Memory.owns worker (key a) record := by
  have howned := h.owned hnames worker hrecord hm
  rwa [List.map_map, List.any_map] at howned

theorem Mirrors.incAttempts {row : Row} {record : OutboxRecord} (h : Mirrors row record)
    (hlt : (record.attempts : Int) < INT_MAX) :
    Postgres.incAttempts row.attempts = .ok (Memory.bump record.attempts : Nat) := by
  have hbump : Memory.bump record.attempts = record.attempts + 1 := by
    have hmax : INT_MAX < U32_MAX := by decide
    unfold Memory.bump
    omega
  rw [h.attempts, hbump, Postgres.incAttempts, if_pos hlt]
  rfl

theorem owns_ref {message : MessageRef} {r : OutboxRecord}
    (h : Memory.owns worker message r = true) : r.messageRef = message := by
  simp only [Memory.owns, Memory.refMatches, Bool.and_eq_true, decide_eq_true_eq] at h
  simp only [OutboxRecord.messageRef, h.1.1, h.1.2]

theorem Paired.replay_complete (h : Paired rows records) (now : Timestamp)
    (hattempts : ∀ r ∈ records, (r.attempts : Int) < INT_MAX) {items : List CompletedMessage}
    (hnames : Names records (items.map (·.message))) (htext : hasNul worker.asStr = false) :
    ∃ rows', Plays now [Postgres.complete worker items] rows rows'
        [(Memory.updateEach (fun item => Memory.owns worker item.message) (Memory.completeRow now)
          items records).2] ∧
      Same rows' (Memory.updateEach (fun item => Memory.owns worker item.message)
        (Memory.completeRow now) items records).1 := by
  refine h.replay_items now _ items CompletedMessage.message (fun _ _ howns => owns_ref howns)
    (fun _ _ => rfl) (fun _ _ => rfl) hnames.distinct rfl ?_ rfl ?_ (fun _ hin => hin) ?_
  · intro text hmem
    rw [List.mem_singleton.mp hmem]
    exact htext
  · exact fun row _ record hrecord hm => h.owned_items hnames worker hrecord hm
  · intro row record hrecord hm item _ _
    refine ⟨0, rfl, ?_⟩
    simp only [Postgres.complete, Stmt.set, hm.incAttempts (hattempts record hrecord), ok_bind]
    exact ⟨_, rfl, { hm with
      attempts := rfl, publishedAt := rfl, lockedBy := rfl, lockedUntil := rfl }⟩

theorem Paired.replay_release (h : Paired rows records) (now : Timestamp) {refs : List MessageRef}
    (hnames : Names records refs) (htext : hasNul worker.asStr = false) :
    ∃ rows', Plays now [Postgres.release worker refs] rows rows'
        [(Memory.updateEach (Memory.owns worker) (fun _ => Memory.unlock) refs records).2] ∧
      Same rows' (Memory.updateEach (Memory.owns worker) (fun _ => Memory.unlock) refs
        records).1 := by
  refine h.replay_items now _ refs id (fun _ _ howns => owns_ref howns)
    (fun _ _ => rfl) (fun _ _ => rfl) ?_ rfl ?_ rfl ?_ (fun _ hin => hin) ?_
  · rw [List.map_id]
    exact hnames.distinct
  · intro text hmem
    rw [List.mem_singleton.mp hmem]
    exact htext
  · exact fun row _ record hrecord hm => h.owned hnames worker hrecord hm
  · intro row record hrecord hm message _ _
    exact ⟨0, rfl, _, rfl, { hm with lockedBy := rfl, lockedUntil := rfl }⟩

theorem Paired.replay_extendLease (h : Paired rows records) {refs : List MessageRef}
    {lease : Duration} (hnames : Names records refs) (hlease : Ahead now lease)
    (htext : hasNul worker.asStr = false) :
    ∃ rows', Plays now [Postgres.extendLease worker refs lease] rows rows'
        [(Memory.updateEach (Memory.owns worker) (Memory.extendRow (now + lease)) refs
          records).2] ∧
      Same rows' (Memory.updateEach (Memory.owns worker) (Memory.extendRow (now + lease)) refs
        records).1 := by
  refine h.replay_items now _ refs id (fun _ _ howns => owns_ref howns)
    (fun _ _ => rfl) (fun _ _ => rfl) ?_ rfl ?_ rfl ?_ (fun _ hin => hin) ?_
  · rw [List.map_id]
    exact hnames.distinct
  · intro text hmem
    rw [List.mem_singleton.mp hmem]
    exact htext
  · exact fun row _ record hrecord hm => h.owned hnames worker hrecord hm
  · intro row record hrecord hm message _ _
    refine ⟨0, rfl, ?_⟩
    simp only [Postgres.extendLease, Stmt.set, hlease.addMillis, ok_bind]
    exact ⟨_, rfl, { hm with lockedUntil := rfl }⟩

/-! ## `fail`

One loop here, there the retries and then the deaths. -/

def isRetry (item : FailedMessage) : Bool :=
  match item.outcome with
  | .retry _ => true
  | .dead _ => false

omit rows records now worker

theorem Names.filter {records : List OutboxRecord} {α : Type} {key : α → MessageRef}
    {items : List α} (h : Names records (items.map key)) (q : α → Bool) :
    Names records ((items.filter q).map key) where
  distinct := h.distinct.sublist (List.filter_sublist.map _)
  exist := fun m hm => h.exist m ((List.filter_sublist.map _).subset hm)

theorem retries_ids (items : List FailedMessage) :
    (retries items).map Prod.fst = (items.filter isRetry).map fun item => item.message.id.uuid := by
  induction items with
  | nil => rfl
  | cons item items ih =>
      cases houtcome : item.outcome <;>
        simp_all [retries, isRetry]

theorem deaths_ids (items : List FailedMessage) :
    (deaths items).map Prod.fst =
      (items.filter fun item => !isRetry item).map fun item => item.message.id.uuid := by
  induction items with
  | nil => rfl
  | cons item items ih =>
      cases houtcome : item.outcome <;>
        simp_all [deaths, isRetry]

/-- The text is not cut twice. -/
theorem failed_error {item : FailedMessage}
    (h : ∃ error, item = FailedMessage.new item.message error item.outcome) :
    truncateError item.error = item.error := by
  obtain ⟨error, h⟩ := h
  rw [h]
  exact truncateError_truncateError error

variable {rows : List Row} {records : List OutboxRecord} {now : Timestamp} {worker : WorkerId}
  {items : List FailedMessage}

theorem failRow_ref (item : FailedMessage) (r : OutboxRecord) :
    (Memory.failRow now item r).messageRef = r.messageRef := by
  unfold Memory.failRow
  cases item.outcome <;> rfl

variable (now worker) in
/-- A failed row is nobody's. -/
theorem failRow_unowned (message : MessageRef) (item : FailedMessage) (r : OutboxRecord) :
    Memory.owns worker message (Memory.failRow now item r) = false := by
  have hlocked : (Memory.failRow now item r).lockedBy = none := by
    unfold Memory.failRow
    cases item.outcome <;> rfl
  simp [Memory.owns, hlocked]

/-- What both statements of `fail` are given. -/
structure Failing (now : Timestamp) (records : List OutboxRecord) (worker : WorkerId)
    (items : List FailedMessage) : Prop where
  names : Names records (items.map (·.message))
  built : ∀ item ∈ items, ∃ error, item = FailedMessage.new item.message error item.outcome
  ahead : ∀ item ∈ items, ∀ delay, item.outcome = .retry delay → Ahead now delay
  texts : ∀ stmt ∈ Postgres.fail worker items, ∀ text ∈ stmt.texts, hasNul text = false
  attempts : ∀ r ∈ records, ∀ item ∈ items, Memory.owns worker item.message r = true →
    (r.attempts : Int) < INT_MAX

/-- The item of a row, by its id. -/
theorem owns_id {row : Row} {record : OutboxRecord} {message : MessageRef} (hm : Mirrors row record)
    (howns : Memory.owns worker message record = true) : message.id.uuid = row.columns.id := by
  rw [hm.id, ← owns_ref howns]
  rfl

/-- One of the two statements, which is not issued if it has no items. -/
theorem Paired.replay_kind (h : Paired rows records) (hfail : Failing now records worker items)
    (kind : FailedMessage → Bool) {stmt : Stmt} {empty : Bool}
    (hempty : empty = true → items.filter kind = [])
    (hmem : empty = false → stmt ∈ Postgres.fail worker items)
    (hlimit : stmt.limit = none) (hready : stmt.ready now = true)
    (hinner : ∀ row, stmt.inner now row = Postgres.owned
      ((items.filter kind).map fun item => item.message.id.uuid) worker.asStr row)
    (houter : ∀ row, stmt.inner now row = true → stmt.outer now row = true)
    (hset : ∀ row record, Mirrors row record → (record.attempts : Int) < INT_MAX →
      ∀ item ∈ items, kind item = true → item.message.id.uuid = row.columns.id →
        ∃ i, stmt.picks i row = true ∧
          ∃ row', stmt.set now i row = .ok (some row') ∧
            Mirrors row' (Memory.failRow now item record)) :
    ∃ rows' counts, Plays now (if empty then [] else [stmt]) rows rows' counts ∧
      counts.sum = (Memory.updateEach (fun item => Memory.owns worker item.message)
        (Memory.failRow now) (items.filter kind) records).2 ∧
      Same rows' (Memory.updateEach (fun item => Memory.owns worker item.message)
        (Memory.failRow now) (items.filter kind) records).1 := by
  cases empty with
  | true =>
      rw [hempty rfl]
      exact ⟨rows, [], .nil rows, rfl, h.same⟩
  | false =>
      obtain ⟨rows', hplays, hsame⟩ := h.replay_items now stmt (items.filter kind)
        FailedMessage.message (p := fun item => Memory.owns worker item.message)
        (f := Memory.failRow now) (fun _ _ howns => owns_ref howns) failRow_ref (Memory.failRow_sequence now)
        (hfail.names.filter kind).distinct hlimit (hfail.texts _ (hmem rfl)) hready
        (by
          intro row _ record hrecord hm
          rw [hinner]
          exact h.owned_items (hfail.names.filter kind) worker hrecord hm) houter
        (by
          intro row record hrecord hm item hitem howns
          obtain ⟨hitem, hkind⟩ := List.mem_filter.mp hitem
          exact hset row record hm (hfail.attempts record hrecord item hitem howns) item hitem hkind
            (owns_id hm howns))
      exact ⟨rows', _, hplays, Nat.add_zero _, hsame⟩

theorem Paired.replay_retries (h : Paired rows records) (hfail : Failing now records worker items) :
    ∃ rows' counts,
      Plays now (if (retries items).isEmpty then [] else [.failRetry (retries items) worker.asStr])
          rows rows' counts ∧
        counts.sum = (Memory.updateEach (fun item => Memory.owns worker item.message)
          (Memory.failRow now) (items.filter isRetry) records).2 ∧
        Same rows' (Memory.updateEach (fun item => Memory.owns worker item.message)
          (Memory.failRow now) (items.filter isRetry) records).1 := by
  refine h.replay_kind hfail isRetry ?_ ?_ rfl rfl ?_ (fun _ hin => hin) ?_
  · intro hempty
    have hids := retries_ids items
    rw [List.isEmpty_iff.mp hempty] at hids
    exact List.map_eq_nil_iff.mp hids.symm
  · intro hempty
    simp [Postgres.fail, hempty]
  · intro row
    rw [← retries_ids]
    rfl
  · intro row record hm hlt item hitem hkind hid
    cases houtcome : item.outcome with
    | dead reason =>
        simp only [isRetry, houtcome] at hkind
        cases hkind
    | retry delay =>
        obtain ⟨i, hi⟩ :=
          List.getElem?_of_mem (mem_retries.mpr ⟨item, hitem, delay, houtcome, rfl⟩)
        refine ⟨i, ?_, ?_⟩
        · simp only [Stmt.picks, hi, Option.map_some, hid, beq_self_eq_true]
        · simp only [Stmt.set, hm.incAttempts hlt, ok_bind, hi, Option.map_some,
            Option.getD_some, (hfail.ahead item hitem delay houtcome).addMillis,
            Memory.failRow, houtcome, failed_error (hfail.built item hitem)]
          exact ⟨_, rfl, { hm with
            attempts := rfl, lastError := rfl, availableAt := rfl
            lockedBy := rfl, lockedUntil := rfl }⟩

theorem Paired.replay_deaths (h : Paired rows records) (hfail : Failing now records worker items) :
    ∃ rows' counts,
      Plays now (if (deaths items).isEmpty then [] else [.failDead (deaths items) worker.asStr])
          rows rows' counts ∧
        counts.sum = (Memory.updateEach (fun item => Memory.owns worker item.message)
          (Memory.failRow now) (items.filter fun item => !isRetry item) records).2 ∧
        Same rows' (Memory.updateEach (fun item => Memory.owns worker item.message)
          (Memory.failRow now) (items.filter fun item => !isRetry item) records).1 := by
  refine h.replay_kind hfail (fun item => !isRetry item) ?_ ?_ rfl rfl ?_
    (fun _ hin => hin) ?_
  · intro hempty
    have hids := deaths_ids items
    rw [List.isEmpty_iff.mp hempty] at hids
    exact List.map_eq_nil_iff.mp hids.symm
  · intro hempty
    simp [Postgres.fail, hempty]
  · intro row
    rw [← deaths_ids]
    rfl
  · intro row record hm hlt item hitem hkind hid
    cases houtcome : item.outcome with
    | retry delay =>
        simp only [isRetry, houtcome] at hkind
        cases hkind
    | dead reason =>
        obtain ⟨i, hi⟩ :=
          List.getElem?_of_mem (mem_deaths.mpr ⟨item, hitem, reason, houtcome, rfl⟩)
        refine ⟨i, ?_, ?_⟩
        · simp only [Stmt.picks, hi, Option.map_some, hid, beq_self_eq_true]
        · simp only [Stmt.set, hm.incAttempts hlt, ok_bind, hi, Option.map_some,
            Option.getD_some, Memory.failRow, houtcome, failed_error (hfail.built item hitem)]
          exact ⟨_, rfl, { hm with
            attempts := rfl, lastError := rfl, deadAt := rfl, deadReason := rfl
            lockedBy := rfl, lockedUntil := rfl }⟩

/-- Between the two statements. -/
theorem Paired.failed (h : Paired rows records) (hfail : Failing now records worker items)
    (kind : FailedMessage → Bool) {rows' : List Row}
    (hsame : Same rows' (Memory.updateEach (fun item => Memory.owns worker item.message)
      (Memory.failRow now) (items.filter kind) records).1) :
    Paired rows' (Memory.updateEach (fun item => Memory.owns worker item.message)
        (Memory.failRow now) (items.filter kind) records).1 ∧
      Failing now (Memory.updateEach (fun item => Memory.owns worker item.message)
        (Memory.failRow now) (items.filter kind) records).1 worker items := by
  have hloop := Memory.updateEach_eq (p := fun item : FailedMessage => Memory.owns worker item.message) (f := Memory.failRow now)
    (fun _ _ howns => owns_ref howns) failRow_ref (Memory.failRow_sequence now)
    (hfail.names.filter kind).distinct h.same.records_nodup h.refs
  rw [hloop] at hsame ⊢
  have hcases := Memory.applyItems_cases (fun item : FailedMessage => Memory.owns worker item.message)
    (Memory.failRow now) (items.filter kind)
  have henvelope : ∀ (item : FailedMessage) r, (Memory.failRow now item r).envelope = r.envelope := by
    intro item r
    unfold Memory.failRow
    cases item.outcome <;> rfl
  refine ⟨⟨hsame, ?_, ?_, ?_⟩, ⟨⟨hfail.names.distinct, ?_⟩, hfail.built, hfail.ahead, hfail.texts, ?_⟩⟩
  · intro y hy
    obtain ⟨r, hr, rfl⟩ := List.mem_map.mp hy
    rcases hcases r with hkept | ⟨item, hitem, howns, hfailed⟩
    · rw [hkept]
      exact h.ok r hr
    · rw [hfailed]
      have hchange : Memory.Change now r (.fail worker items) (Memory.failRow now item r) :=
        .fail (List.mem_filter.mp hitem).1 howns
      exact hchange.ok (h.ok r hr)
  · rw [List.map_map]
    have hids : (records.map fun r => (Memory.applyItems
        (fun item : FailedMessage => Memory.owns worker item.message) (Memory.failRow now)
        (items.filter kind) r).envelope.id) = records.map fun r => r.envelope.id :=
      List.map_congr_left fun r _ =>
        Memory.applyItems_kept (g := fun r => r.envelope.id)
          (fun item r => congrArg Envelope.id (henvelope item r)) r
    exact hids.symm ▸ h.ids
  · intro y hy
    obtain ⟨r, hr, rfl⟩ := List.mem_map.mp hy
    rcases hcases r with hkept | ⟨item, hitem, howns, hfailed⟩
    · rw [hkept]
      exact h.attempts r hr
    · have hlt := hfail.attempts r hr item (List.mem_filter.mp hitem).1 howns
      have hbump : (Memory.failRow now item r).attempts ≤ r.attempts + 1 := by
        unfold Memory.failRow
        cases item.outcome <;> exact Nat.min_le_left _ _
      rw [hfailed]
      omega
  · intro m hm
    obtain ⟨r, hr, href⟩ := hfail.names.exist m hm
    refine ⟨_, List.mem_map_of_mem hr, ?_⟩
    rw [← href]
    exact Memory.applyItems_kept failRow_ref r
  · intro y hy item hitem howns
    obtain ⟨r, hr, rfl⟩ := List.mem_map.mp hy
    rcases hcases r with hkept | ⟨item', -, -, hfailed⟩
    · rw [hkept] at howns ⊢
      exact hfail.attempts r hr item hitem howns
    · rw [hfailed, failRow_unowned] at howns
      cases howns

theorem Paired.replay_fail (h : Paired rows records) (hfail : Failing now records worker items) :
    ∃ rows' counts, Plays now (Postgres.fail worker items) rows rows' counts ∧
      counts.sum = (Memory.updateEach (fun item => Memory.owns worker item.message)
        (Memory.failRow now) items records).2 ∧
      Same rows' (Memory.updateEach (fun item => Memory.owns worker item.message)
        (Memory.failRow now) items records).1 := by
  obtain ⟨rows₁, retried, hretries, hretried, hsame₁⟩ := h.replay_retries hfail
  obtain ⟨hpaired, hfailing⟩ := h.failed hfail isRetry hsame₁
  obtain ⟨rows₂, buried, hdeaths, hburied, hsame₂⟩ := hpaired.replay_deaths hfailing
  have hsplit := Memory.updateEach_split (p := fun item : FailedMessage => Memory.owns worker item.message)
    (f := Memory.failRow now) (fun _ _ howns => owns_ref howns) failRow_ref (Memory.failRow_sequence now) hfail.names.distinct
    (fun item item' r _ => failRow_unowned now worker item'.message item r) isRetry
    h.same.records_nodup h.refs
  rw [hsplit]
  refine ⟨rows₂, retried ++ buried, hretries.append hdeaths, ?_, hsame₂⟩
  rw [List.sum_append, hretried, hburied]

/-! ## The dead letters -/

theorem Paired.dead_named (h : Paired rows records) {refs : List MessageRef}
    (hnames : Names records refs) {row : Row} {record : OutboxRecord} (hrecord : record ∈ records)
    (hm : Mirrors row record) :
    (decide (row.columns.id ∈ refs.map fun m => m.id.uuid) && row.deadAt.isSome) =
      (record.deadAt.isSome && refs.any (Memory.refMatches record)) := by
  rw [h.named hnames hrecord hm, hm.deadAt, Bool.and_comm]

/-- SQL also takes the lease off; a dead row has none. -/
theorem Paired.replay_retryDead (h : Paired rows records) (now : Timestamp) {refs : List MessageRef}
    (hnames : Names records refs) :
    ∃ rows', Plays now [Postgres.retryDead refs] rows rows'
        [(Memory.updateEach (fun message row => Memory.refMatches row message && row.deadAt.isSome)
          (Memory.retryRow now) refs records).2] ∧
      Same rows' (Memory.updateEach
        (fun message row => Memory.refMatches row message && row.deadAt.isSome)
        (Memory.retryRow now) refs records).1 := by
  refine h.replay_items now _ refs id ?_ (fun _ _ => rfl) (fun _ _ => rfl) ?_ rfl ?_ rfl ?_
    (fun _ hin => hin) ?_
  · intro message r hp
    simp only [Memory.refMatches, Bool.and_eq_true, decide_eq_true_eq] at hp
    simp only [OutboxRecord.messageRef, hp.1.1, hp.1.2, id]
  · rw [List.map_id]
    exact hnames.distinct
  · exact fun text hmem => absurd hmem List.not_mem_nil
  · intro row _ record hrecord hm
    refine (h.dead_named hnames hrecord hm).trans ?_
    cases record.deadAt.isSome <;> simp
  · intro row record hrecord hm message _ hp
    rw [Bool.and_eq_true] at hp
    have hrow := h.ok record hrecord
    have hunlocked : record.lockedBy = none := by
      by_contra hlocked
      rw [(hrow.idle hlocked).2] at hp
      cases hp.2
    have huntil : record.lockedUntil = none := by
      have hlease := hrow.lease
      rw [hunlocked] at hlease
      exact Option.isSome_eq_false_iff.mp hlease.symm |> Option.isNone_iff_eq_none.mp
    refine ⟨0, rfl, _, rfl, { hm with
      deadAt := rfl, deadReason := rfl, availableAt := rfl, attempts := rfl
      lockedBy := ?_, lockedUntil := huntil.symm }⟩
    show none = record.lockedBy.map WorkerId.asStr
    rw [hunlocked]
    rfl

theorem Paired.replay_purgeDead (h : Paired rows records) (now : Timestamp) {refs : List MessageRef}
    (hnames : Names records refs) :
    ∃ rows', Plays now [Postgres.purgeDead refs] rows rows'
        [(records.filter (Memory.isDeadAmong refs)).length] ∧
      Same rows' (records.filter fun r => !Memory.isDeadAmong refs r) := by
  obtain ⟨choice, hfull, htargets, -⟩ := exists_full now rows
    (Postgres.purgeDead refs) (Q := fun _ _ => True) h.same.rows_nodup rfl
    (fun _ _ _ => ⟨0, rfl, trivial⟩)
  have hinner : ∀ row ∈ rows, ∀ record ∈ records, Mirrors row record →
      (Postgres.purgeDead refs).inner now row = Memory.isDeadAmong refs record :=
    fun row _ record hrecord hm => h.dead_named hnames hrecord hm
  obtain ⟨rows', hrows, hleft, hcount⟩ := h.same.delete (Postgres.purgeDead refs)
    now choice rfl (p := Memory.isDeadAmong refs)
    (by
      intro row hrow record hrecord hm
      rw [htargets row hrow, hinner row hrow record hrecord hm])
    (by
      intro row hrow record hrecord hm hp
      exact (hinner row hrow record hrecord hm).trans hp)
  have hexec := (exec_of_texts now choice
    (fun _ hmem => absurd hmem List.not_mem_nil) rfl rows).trans hrows
  refine ⟨rows', ?_, hleft⟩
  rw [← hcount]
  exact .one hfull hexec

end

/-! ## `purge` -/

section
variable {rows : List Row} {records : List OutboxRecord} {now : Timestamp}

/-- One retention: a statement if there is one. -/
theorem Paired.replay_dropOld (h : Paired rows records) (now : Timestamp)
    (retention : Option Duration) (n : Nat) (stmt : Duration → Stmt)
    (at' : OutboxRecord → Option Timestamp)
    (hdel : ∀ d, (stmt d).deletes = true) (hlimit : ∀ d, (stmt d).limit = some (n : Int))
    (hpicks : ∀ d i r, (stmt d).picks i r = true)
    (hordered : ∀ d r r', (stmt d).ordered r r' = true) (htexts : ∀ d, (stmt d).texts = [])
    (hready : ∀ d, retention = some d → (stmt d).ready now = true)
    (hsame : ∀ d row, (stmt d).inner now row = (stmt d).outer now row)
    (hinner : ∀ d, retention = some d → ∀ row ∈ rows, ∀ record ∈ records, Mirrors row record →
      (stmt d).inner now row = Memory.isBefore (now - d) (at' record)) :
    ∃ rows' counts, Plays now (retention.map stmt).toList rows rows' counts ∧
      (∀ rest, takeCount retention (counts ++ rest) =
        ((Memory.dropOld now retention at' n records).2, rest)) ∧
      Paired rows' (Memory.dropOld now retention at' n records).1 := by
  cases retention with
  | none => exact ⟨rows, [], .nil rows, fun _ => rfl, h⟩
  | some d =>
      obtain ⟨rows', hplays, hleft⟩ := h.same.replay_drop now (stmt d) (hdel d)
        (hlimit d) (hpicks d) (hordered d) (htexts d) (hready d rfl) (hsame d) (hinner d rfl)
      exact ⟨rows', _, hplays, fun _ => rfl, h.sublist (Memory.dropOld_sublist now (some d) at' n
        records) hleft⟩

/-- SQL deletes first, the loops sweep first. -/
theorem Paired.replay_purge (h : Paired rows records) {request : PurgeRequest}
    (hexpires : ∀ r ∈ records, r.envelope.expiresAt ≠ some now)
    (hpublished : ∀ d, request.publishedRetention = some d → Ago now d)
    (hdead : ∀ d, request.deadRetention = some d → Ago now d) :
    let swept := Memory.sweepRows now request.batchSize records
    let published := Memory.dropOld now request.publishedRetention (·.publishedAt)
      request.batchSize swept.1
    let dead := Memory.dropOld now request.deadRetention (·.deadAt) request.batchSize published.1
    ∃ rows' counts, Plays now (Postgres.purge request) rows rows' counts ∧
      Call.reply counts (.purge request) = .report ⟨published.2, dead.2, swept.2⟩ ∧
      Same rows' dead.1 := by
  intro swept published dead
  obtain ⟨hsweep, hcount, hcount'⟩ := Memory.purge_passes request now h.same.records_nodup
  obtain ⟨rows₁, counts₁, hplays₁, htake₁, hpaired₁⟩ := h.replay_dropOld now
    request.publishedRetention request.batchSize
    (fun d => .purgePublished (millis d) request.batchSize) (·.publishedAt) (fun _ => rfl) (fun _ => rfl)
    (fun _ _ _ => rfl) (fun _ _ _ => rfl) (fun _ => rfl) (fun d hd => (hpublished d hd).ready)
    (fun _ _ => rfl)
    (fun d hd row _ record _ hm => by
      rw [← hm.publishedAt]
      exact (hpublished d hd).olderThan row.publishedAt)
  obtain ⟨rows₂, counts₂, hplays₂, htake₂, hpaired₂⟩ := hpaired₁.replay_dropOld now
    request.deadRetention request.batchSize
    (fun d => .purgeDeadRetention (millis d) request.batchSize) (·.deadAt) (fun _ => rfl)
    (fun _ => rfl) (fun _ _ _ => rfl) (fun _ _ _ => rfl) (fun _ => rfl)
    (fun d hd => (hdead d hd).ready) (fun _ _ => rfl)
    (fun d hd row _ record _ hm => by
      rw [← hm.deadAt]
      exact (hdead d hd).olderThan row.deadAt)
  obtain ⟨rows₃, hplays₃, hsame₃⟩ := hpaired₂.replay_sweep now request.batchSize
    fun r hr => hexpires r
      ((Memory.dropOld_sublist ..).subset ((Memory.dropOld_sublist ..).subset hr))
  rw [hsweep] at hplays₃ hsame₃
  refine ⟨rows₃, (counts₁ ++ counts₂) ++ [swept.2], (hplays₁.append hplays₂).append hplays₃, ?_,
    hsame₃⟩
  rw [Call.reply, List.append_assoc]
  simp only [htake₁, htake₂, List.headD_cons]
  exact congrArg₂ (fun a b => Reply.report ⟨a, b, swept.2⟩) hcount hcount'

end

/-! ## The calls that write -/

/-- The same call of the in-memory store. -/
def opOf : Call → Memory.Op
  | .complete worker items => .complete worker items
  | .fail worker items => .fail worker items
  | .release worker items => .release worker items
  | .extendLease worker items lease => .extendLease worker items lease
  | .purge request => .purge request
  | .retryDead refs => .retryDead refs
  | .purgeDead refs => .purgeDead refs

/-- The same reply. -/
def replyOf : Postgres.Reply → Memory.Reply
  | .affected n => .affected n
  | .report report => .report report

section
variable {rows : List Row} {s : Memory.Inner}

/-- A call without items returns before any statement. -/
theorem Same.plays_unless_empty {records records' : List OutboxRecord} (h : Same rows records)
    {now : Timestamp} {α : Type} (items : List α) (stmts : List Stmt) {n : Nat}
    (hempty : items = [] → n = 0 ∧ records' = records)
    (hissued : items.isEmpty = false → ∃ rows' counts, Plays now stmts rows rows' counts ∧
      counts.sum = n ∧ Same rows' records') :
    ∃ rows' counts, Plays now (if items.isEmpty then [] else stmts) rows rows' counts ∧
      counts.sum = n ∧ Same rows' records' := by
  cases hitems : items.isEmpty with
  | true =>
      obtain ⟨rfl, rfl⟩ := hempty (List.isEmpty_iff.mp hitems)
      exact ⟨rows, [], .nil rows, rfl, h⟩
  | false => exact hissued hitems

theorem plays_one {now : Timestamp} {stmt : Stmt} {n : Nat} {records : List OutboxRecord}
    (h : ∃ rows', Plays now [stmt] rows rows' [n] ∧ Same rows' records) :
    ∃ rows' counts, Plays now [stmt] rows rows' counts ∧ counts.sum = n ∧ Same rows' records := by
  obtain ⟨rows', hplays, hsame⟩ := h
  exact ⟨rows', [n], hplays, Nat.add_zero n, hsame⟩

theorem Start.complete_eq (h : Start rows s) (worker : WorkerId) (items : List CompletedMessage) :
    Memory.tryComplete worker items s =
      (.ok (Memory.updateEach (fun item => Memory.owns worker item.message)
          (Memory.completeRow s.now) items s.rows).2,
        { s with
          completeCalls := s.completeCalls + 1
          rows := (Memory.updateEach (fun item => Memory.owns worker item.message)
            (Memory.completeRow s.now) items s.rows).1 }) := by
  have hcounted : Unarmed { s with completeCalls := s.completeCalls + 1 } :=
    ⟨h.unarmed.failNext, h.unarmed.failNextPermanent, h.unarmed.failNextComplete⟩
  have hnone : ¬ 0 < s.failNextComplete := by
    rw [h.unarmed.failNextComplete]
    exact Nat.lt_irrefl 0
  unfold Memory.tryComplete
  simp only [hnone, if_false]
  rw [hcounted.guarded]

/-- SQL can replay the call. -/
theorem Start.replay_call (h : Start rows s) {c : Call} (hwf : CallOk s c)
    (htexts : ∀ stmt ∈ c.stmts, ∀ text ∈ stmt.texts, hasNul text = false) :
    ∃ rows' counts, Plays s.now c.stmts rows rows' counts ∧
      ((opOf c).run s).1 = .ok (replyOf (c.reply counts)) ∧
      Same rows' ((opOf c).run s).2.rows := by
  cases c with
  | complete worker items =>
      obtain ⟨rows', counts, hplays, hsum, hsame⟩ := h.paired.same.plays_unless_empty items
        [Postgres.complete worker items] (fun hnil => by subst hnil; exact ⟨rfl, rfl⟩)
        (fun hne => plays_one (h.paired.replay_complete s.now h.attempts hwf (by
          refine htexts (Postgres.complete worker items) ?_ _ List.mem_cons_self
          simp [Call.stmts, hne])))
      refine ⟨rows', counts, hplays, ?_, ?_⟩
      · show (Memory.tryComplete worker items s).1.map Memory.Reply.affected = .ok (.affected counts.sum)
        rw [h.complete_eq, hsum]
        rfl
      · show Same rows' (Memory.tryComplete worker items s).2.rows
        rw [h.complete_eq]
        exact hsame
  | fail worker items =>
      obtain ⟨rows', counts, hplays, hsum, hsame⟩ := h.paired.same.plays_unless_empty items
        (Postgres.fail worker items) (fun hnil => by subst hnil; exact ⟨rfl, rfl⟩)
        (fun hne => h.paired.replay_fail
          { names := hwf.1
            built := fun item hitem => (hwf.2 item hitem).1
            ahead := fun item hitem => (hwf.2 item hitem).2
            texts := fun stmt hstmt => htexts stmt (by
              simp only [Call.stmts, hne, Bool.false_eq_true, if_false]
              exact hstmt)
            attempts := fun r hr _ _ _ => h.attempts r hr })
      refine ⟨rows', counts, hplays, ?_, ?_⟩
      · show (Memory.tryFail worker items s).1.map Memory.Reply.affected = .ok (.affected counts.sum)
        rw [Memory.tryFail, h.unarmed.guarded, hsum]
        rfl
      · show Same rows' (Memory.tryFail worker items s).2.rows
        rw [Memory.tryFail, h.unarmed.guarded]
        exact hsame
  | release worker refs =>
      obtain ⟨rows', counts, hplays, hsum, hsame⟩ := h.paired.same.plays_unless_empty refs
        [Postgres.release worker refs] (fun hnil => by subst hnil; exact ⟨rfl, rfl⟩)
        (fun hne => plays_one (h.paired.replay_release s.now hwf (by
          refine htexts (Postgres.release worker refs) ?_ _ List.mem_cons_self
          simp [Call.stmts, hne])))
      refine ⟨rows', counts, hplays, ?_, ?_⟩
      · show (Memory.tryRelease worker refs s).1.map Memory.Reply.affected = .ok (.affected counts.sum)
        rw [Memory.tryRelease, h.unarmed.guarded, hsum]
        rfl
      · show Same rows' (Memory.tryRelease worker refs s).2.rows
        rw [Memory.tryRelease, h.unarmed.guarded]
        exact hsame
  | extendLease worker refs lease =>
      obtain ⟨rows', counts, hplays, hsum, hsame⟩ := h.paired.same.plays_unless_empty refs
        [Postgres.extendLease worker refs lease]
        (fun hnil => by subst hnil; exact ⟨rfl, rfl⟩)
        (fun hne => plays_one (h.paired.replay_extendLease hwf.1 hwf.2 (by
          refine htexts (Postgres.extendLease worker refs lease) ?_ _ List.mem_cons_self
          simp [Call.stmts, hne])))
      refine ⟨rows', counts, hplays, ?_, ?_⟩
      · show (Memory.tryExtendLease worker refs lease s).1.map Memory.Reply.affected = .ok (.affected counts.sum)
        rw [Memory.tryExtendLease, h.unarmed.guarded, hsum]
        rfl
      · show Same rows' (Memory.tryExtendLease worker refs lease s).2.rows
        rw [Memory.tryExtendLease, h.unarmed.guarded]
        exact hsame
  | purge request =>
      obtain ⟨rows', counts, hplays, hreply, hsame⟩ := h.paired.replay_purge h.expires hwf.1 hwf.2
      refine ⟨rows', counts, hplays, ?_, ?_⟩
      · rw [hreply]
        show (Memory.tryPurge request s).1.map _ = _
        rw [Memory.tryPurge, h.unarmed.guarded]
        rfl
      · show Same rows' (Memory.tryPurge request s).2.rows
        rw [Memory.tryPurge, h.unarmed.guarded]
        exact hsame
  | retryDead refs =>
      obtain ⟨rows', counts, hplays, hsum, hsame⟩ := h.paired.same.plays_unless_empty refs
        [Postgres.retryDead refs] (fun hnil => by subst hnil; exact ⟨rfl, rfl⟩)
        (fun _ => plays_one (h.paired.replay_retryDead s.now hwf))
      refine ⟨rows', counts, hplays, ?_, hsame⟩
      show _ = Except.ok (Memory.Reply.affected counts.sum)
      rw [hsum]
      rfl
  | purgeDead refs =>
      obtain ⟨rows', counts, hplays, hsum, hsame⟩ := h.paired.same.plays_unless_empty refs
        [Postgres.purgeDead refs]
        (fun hnil => by
          subst hnil
          have hnone : ∀ r, Memory.isDeadAmong [] r = false := fun r => Bool.and_false _
          simp [hnone])
        (fun _ => plays_one (h.paired.replay_purgeDead s.now hwf))
      refine ⟨rows', counts, hplays, ?_, hsame⟩
      show _ = Except.ok (Memory.Reply.affected counts.sum)
      rw [hsum]
      rfl

end

end Reliar.Store
