/-
# `Reliar.Dispatcher.Causes` — no terminal state without a cause

An outcome travels far before it reaches the store: from a claim through a task,
the join set and a list of unwritten outcomes into a round, which may be dropped
and started over.  The log of a dispatcher only grows, so what an entry says of
its own task (`Delivered`, `Refused`) stays true however late it is written, and
by whoever shares the worker's name.

What ties the task to the row is the message: ids are unique, so the row a write
reaches has the envelope that was published (`Ledger.inserted`).
-/
import Reliar.Dispatcher.Fleet
import Reliar.Dispatcher.Leases
import Reliar.Store.MemoryRows

namespace Reliar.Dispatcher

open Reliar.Core Reliar.Outbox Reliar.Store Relation

/-! ## The in-memory store with unique ids -/

/-- The in-memory store, and beside it every row that was ever inserted. -/
structure Ledger where
  inner : Memory.Inner
  inserted : List (MessageRef × SerializedEnvelope)

def Ledger.empty : Ledger := ⟨Memory.Inner.default, []⟩

/-- Everyone but the dispatchers: any method but `complete` and `fail`, which are theirs, an insert
under a new id, and what changes no row. -/
inductive Ledger.Elsewhere (l : Ledger) : Ledger → Prop
  | call (op : Memory.Op) (hop : op.mayHang = false) :
      Ledger.Elsewhere l { l with inner := (op.run l.inner).2 }
  | insert (envelope : SerializedEnvelope) (availableAt : Option Timestamp)
      (orderingKey : Option String) (hfresh : envelope.id ∉ l.inserted.map (·.2.id)) :
      Ledger.Elsewhere l
        ⟨(Memory.insertRow envelope availableAt orderingKey l.inner).2,
          ((Memory.insertRow envelope availableAt orderingKey l.inner).1, envelope) :: l.inserted⟩
  | rest {inner : Memory.Inner} (hrows : inner.rows = l.inner.rows)
      (hnext : inner.nextSequence = l.inner.nextSequence) (hnow : l.inner.now ≤ inner.now) :
      Ledger.Elsewhere l { l with inner := inner }

def ledger : Backend Ledger where
  carriesOut l w call reply l' :=
    ∃ r, (call.op w).run l.inner = (.ok r, l'.inner) ∧ Answers r reply ∧
      l'.inserted = l.inserted
  elsewhere l l' := l.Elsewhere l'

/-! ## Causes -/

section
variable {ι E : Type}

/-- Some member's publish of this row's envelope returned `Ok`. -/
def PublishedBy (runs : ι → RunState E) (row : OutboxRecord) : Prop :=
  ∃ i t claimed, claimed ∈ (runs i).books.hist.acquired ∧
    (t, PendingRow.ofClaimed claimed) ∈ (runs i).books.hist.spawned ∧
    (t, .ok) ∈ (runs i).books.hist.resolved ∧
    claimed.record.messageRef = row.messageRef ∧ claimed.record.envelope = row.envelope

/-- Some member's publish of this row's envelope failed, and `reason` is what its policy returned
for that failure and the attempts its claim read. -/
def FailedBy (d : ι → OutboxDispatcher) (runs : ι → RunState E) (row : OutboxRecord)
    (reason : DeadReason) : Prop :=
  ∃ i t claimed result kind error unit, claimed ∈ (runs i).books.hist.acquired ∧
    (t, PendingRow.ofClaimed claimed) ∈ (runs i).books.hist.spawned ∧
    (t, result) ∈ (runs i).books.hist.resolved ∧
    publishOne (.ofClaimed claimed) (d i).settings.publishTimeout (some result) =
      .failed claimed.record.messageRef claimed.record.attempts kind error ∧
    claimed.record.messageRef = row.messageRef ∧ claimed.record.envelope = row.envelope ∧
    (d i).retry.next unit claimed.record.attempts kind = .dead reason

/-- What a row's terminal state has behind it. -/
structure Caused (d : ι → OutboxDispatcher) (runs : ι → RunState E) (row : OutboxRecord) : Prop where
  published : row.publishedAt.isSome = true → PublishedBy runs row
  failed : ∀ reason, row.deadReason = some reason →
    reason = .permanentError ∨ reason = .attemptsExhausted → FailedBy d runs row reason
  expired : row.deadReason = some .expired →
    ∃ expiry death, row.envelope.expiresAt = some expiry ∧ row.deadAt = some death ∧
      expiry ≤ death

/-! ## The log grows -/

structure Books.Grows (b b' : Books) : Prop where
  acquired : b.hist.acquired ⊆ b'.hist.acquired
  spawned : b.hist.spawned ⊆ b'.hist.spawned
  resolved : b.hist.resolved ⊆ b'.hist.resolved

theorem Books.Grows.refl (b : Books) : b.Grows b := ⟨fun _ h => h, fun _ h => h, fun _ h => h⟩

theorem Books.Grows.trans {b b' b'' : Books} (h : b.Grows b') (h' : b'.Grows b'') : b.Grows b'' :=
  ⟨List.Subset.trans h.acquired h'.acquired, List.Subset.trans h.spawned h'.spawned,
    List.Subset.trans h.resolved h'.resolved⟩

theorem grows_of_move {d : OutboxDispatcher} {now : Instant} {shut : Bool} {b b' : Books}
    (h : Move d now shut b b') : b.Grows b' := by
  cases h with
  | receive => exact ⟨List.subset_append_left _ _, fun _ h => h, fun _ h => h⟩
  | spawn => exact ⟨fun _ h => h, List.subset_append_left _ _, fun _ h => h⟩
  | resolve => exact ⟨fun _ h => h, fun _ h => h, List.subset_append_left _ _⟩
  | record =>
      simp only [Books.recordOne]
      split <;> exact ⟨fun _ h => h, fun _ h => h, fun _ h => h⟩
  | _ => exact ⟨fun _ h => h, fun _ h => h, fun _ h => h⟩

theorem grows_of_next [Classify E] {d : OutboxDispatcher} {s s' : RunState E} {e : Event E}
    (h : next d s e = some s') (hs : s.books.Settled d) : s.books.Grows s'.books :=
  Moves.inv (P := fun b => s.books.Grows b) (fun hm hb => hb.trans (grows_of_move hm))
    (moves_of_step (step_of_next h) hs.pending) (.refl _)

/-! ### What a member has received -/

/-- Every record a store has handed to it, and the batch it has not looked at yet. -/
def RunState.received (s : RunState E) : List Claimed :=
  s.books.hist.acquired ++
    match s.pc.call?.bind (·.applied) with
    | some (.batch records _) => records
    | _ => []

theorem received_of_step [Classify E] {d : OutboxDispatcher} {s s' : RunState E} {e : Event E}
    (h : Step d s e s') (he : ∀ reply, e ≠ .apply reply) : s'.received ⊆ s.received := by
  refine List.append_subset.mpr ⟨?_, ?_⟩
  · rcases acquired_of_step h with hsame | ⟨call, request, records, poisoned, hpc, -, happ, hb, -⟩
    · rw [hsame]
      exact List.subset_append_left _ _
    · rw [hb, claim_acquired]
      refine List.append_subset.mpr ⟨List.subset_append_left _ _, ?_⟩
      simp only [RunState.received, hpc, Pc.call?, Option.bind_some, happ]
      exact List.subset_append_right _ _
  · rcases call_of_step h he with hpc | hissue
    · rw [hpc]
      exact List.subset_append_right _ _
    · cases hcall : s'.pc.call? with
      | none => exact List.nil_subset _
      | some call =>
          rw [Option.bind_some, hissue call hcall]
          exact List.nil_subset _

theorem received_of_apply {s : RunState E} {call : Call} {reply : Reply}
    (hc : s.pc.call? = some call) {x : Claimed}
    (hx : x ∈ RunState.received
      { s with pc := s.pc.setCall { call with applied := some reply } }) :
    x ∈ s.received ∨ ∃ records poisoned, reply = .batch records poisoned ∧ x ∈ records := by
  rcases List.mem_append.mp hx with hx | hx
  · exact .inl (List.mem_append_left _ hx)
  · rw [setCall_call hc, Option.bind_some] at hx
    cases reply with
    | batch records poisoned => exact .inr ⟨records, poisoned, rfl, hx⟩
    | _ => cases hx

/-! ## A row's causes stay -/

variable {d : ι → OutboxDispatcher} {runs runs' : ι → RunState E} {row row' : OutboxRecord}

/-- The cause of a row is about its reference and its envelope. -/
theorem PublishedBy.mono (h : PublishedBy runs row) (hruns : ∀ i, (runs i).books.Grows (runs' i).books)
    (href : row'.messageRef = row.messageRef) (henv : row'.envelope = row.envelope) :
    PublishedBy runs' row' := by
  obtain ⟨i, t, claimed, hacq, hspawned, hresolved, hm, he⟩ := h
  exact ⟨i, t, claimed, (hruns i).acquired hacq, (hruns i).spawned hspawned,
    (hruns i).resolved hresolved, hm.trans href.symm, he.trans henv.symm⟩

theorem FailedBy.mono {reason : DeadReason} (h : FailedBy d runs row reason)
    (hruns : ∀ i, (runs i).books.Grows (runs' i).books)
    (href : row'.messageRef = row.messageRef) (henv : row'.envelope = row.envelope) :
    FailedBy d runs' row' reason := by
  obtain ⟨i, t, claimed, result, kind, error, unit, hacq, hspawned, hresolved, hout, hm, he, hnext⟩ := h
  exact ⟨i, t, claimed, result, kind, error, unit, (hruns i).acquired hacq,
    (hruns i).spawned hspawned, (hruns i).resolved hresolved, hout, hm.trans href.symm,
    he.trans henv.symm, hnext⟩

theorem Caused.mono (h : Caused d runs row) (hruns : ∀ i, (runs i).books.Grows (runs' i).books) :
    Caused d runs' row :=
  ⟨fun hp => (h.published hp).mono hruns rfl rfl,
    fun reason hr hd => (h.failed reason hr hd).mono hruns rfl rfl, h.expired⟩

/-- A change that leaves the terminal columns alone. -/
theorem Caused.congr (h : Caused d runs row) (href : row'.messageRef = row.messageRef)
    (henv : row'.envelope = row.envelope) (hpub : row'.publishedAt = row.publishedAt)
    (hdead : row'.deadAt = row.deadAt) (hreason : row'.deadReason = row.deadReason) :
    Caused d runs row' where
  published hp := (h.published (hpub ▸ hp)).mono (fun _ => .refl _) href henv
  failed reason hr hd := (h.failed reason (hreason ▸ hr) hd).mono (fun _ => .refl _) href henv
  expired hr := by
    rw [henv, hdead]
    exact h.expired (hreason ▸ hr)

theorem refMatches_iff {message : MessageRef} :
    Memory.refMatches row message = true ↔ row.messageRef = message := by
  obtain ⟨id, createdAt⟩ := message
  simp only [Memory.refMatches, OutboxRecord.messageRef, Bool.and_eq_true, decide_eq_true_eq,
    MessageRef.mk.injEq]

/-- The entries of a call, where they name this row. -/
structure EntriesCaused (d : ι → OutboxDispatcher) (runs : ι → RunState E) (op : Memory.Op)
    (row : OutboxRecord) : Prop where
  complete : ∀ worker items item, op = .complete worker items → item ∈ items →
    row.messageRef = item.message → PublishedBy runs row
  fail : ∀ worker items item reason, op = .fail worker items → item ∈ items →
    row.messageRef = item.message → item.outcome = .dead reason →
      (reason = .permanentError ∨ reason = .attemptsExhausted) ∧ FailedBy d runs row reason

theorem change_frame {now : Timestamp} {op : Memory.Op} (h : Memory.Change now row op row') :
    row'.messageRef = row.messageRef ∧ row'.envelope = row.envelope := by
  cases h with
  | @fail _ _ item => exact ⟨failRow_ref now item row, by unfold Memory.failRow; split <;> rfl⟩
  | _ => exact ⟨rfl, rfl⟩

theorem Caused.change {now : Timestamp} {op : Memory.Op} (h : Caused d runs row)
    (hc : Memory.Change now row op row') (hop : EntriesCaused d runs op row) :
    Caused d runs row' := by
  have hmatches : ∀ {worker : WorkerId} {message : MessageRef},
      Memory.owns worker message row = true → row.messageRef = message :=
    fun howns => refMatches_iff.mp (Bool.and_eq_true_iff.mp howns).1
  obtain ⟨href, henv⟩ := change_frame hc
  cases hc with
  | lock | release | extend => exact h.congr rfl rfl rfl rfl rfl
  | complete hitem howns =>
      refine ⟨fun _ => ?_, (h.congr rfl rfl rfl rfl rfl : Caused d runs (Memory.unlock row)).failed, h.expired⟩
      exact (hop.complete _ _ _ rfl hitem (hmatches howns)).mono (fun _ => .refl _) rfl rfl
  | @fail _ _ item hitem howns =>
      have hcause := fun reason => hop.fail _ _ item reason rfl hitem (hmatches howns)
      unfold Memory.failRow at href henv ⊢
      cases hout : item.outcome with
      | retry delay => exact h.congr rfl rfl rfl rfl rfl
      | dead reason =>
          obtain ⟨hpolicy, hfailed⟩ := hcause reason hout
          refine ⟨fun hp => (h.published hp).mono (fun _ => .refl _) rfl rfl, ?_, ?_⟩
          · rintro _ ⟨⟩ -
            exact hfailed.mono (fun _ => .refl _) rfl rfl
          · -- the policy never says `Expired`
            rintro ⟨⟩
            rcases hpolicy with hpolicy | hpolicy <;> cases hpolicy
  | sweep hs =>
      refine ⟨fun hp => (h.published hp).mono (fun _ => .refl _) rfl rfl, ?_, fun _ => ?_⟩
      · rintro _ ⟨⟩ (hreason | hreason) <;> cases hreason
      · have hexpired := (Bool.and_eq_true_iff.mp hs).2
        obtain ⟨expiry, hexpiry, hle⟩ := (Option.any_eq_true _ _).mp hexpired
        exact ⟨expiry, now, hexpiry, rfl, of_decide_eq_true hle⟩
  | retry =>
      refine ⟨fun hp => (h.published hp).mono (fun _ => .refl _) rfl rfl, ?_, ?_⟩
      · rintro reason ⟨⟩
      · rintro ⟨⟩

theorem Caused.changes {now : Timestamp} {op : Memory.Op} (hc : Memory.Changes now op row row')
    (h : Caused d runs row) (hop : EntriesCaused d runs op row) :
    row'.messageRef = row.messageRef ∧ row'.envelope = row.envelope ∧ Caused d runs row' := by
  induction hc with
  | refl => exact ⟨rfl, rfl, h⟩
  | @tail r r' _ hchange ih =>
      obtain ⟨href, henv, hcaused⟩ := ih
      obtain ⟨href', henv'⟩ := change_frame hchange
      refine ⟨href'.trans href, henv'.trans henv, hcaused.change hchange ⟨?_, ?_⟩⟩
      · intro worker items item heq hitem hm
        exact (hop.complete worker items item heq hitem (href ▸ hm)).mono (fun _ => .refl _) href henv
      · intro worker items item reason heq hitem hm hout
        exact (hop.fail worker items item reason heq hitem (href ▸ hm) hout).imp_right
          fun hfailed => hfailed.mono (fun _ => .refl _) href henv

/-! ## The fleet -/

/-- What holds of the store and its clients. -/
structure Accounted (d : ι → OutboxDispatcher) (runs : ι → RunState E) (l : Ledger) : Prop where
  ok : l.inner.Ok
  unique : (l.inserted.map (·.2.id)).Nodup
  rows : ∀ row ∈ l.inner.rows, (row.messageRef, row.envelope) ∈ l.inserted
  claims : ∀ i, ∀ x ∈ (runs i).received, (x.record.messageRef, x.record.envelope) ∈ l.inserted
  caused : ∀ row ∈ l.inner.rows, Caused d runs row

variable {l l' : Ledger}

/-- A message is inserted once, so a claim and a row of the same reference have one envelope. -/
theorem Accounted.envelope_eq (h : Accounted d runs l) {i : ι} {x : Claimed}
    (hx : x ∈ (runs i).books.hist.acquired) {row : OutboxRecord} (hrow : row ∈ l.inner.rows)
    (href : row.messageRef = x.record.messageRef) : x.record.envelope = row.envelope := by
  have hclaim := h.claims i x (List.mem_append_left _ hx)
  have hid : x.record.envelope.id = row.envelope.id := congrArg MessageRef.id href.symm
  have hsame := List.inj_on_of_nodup_map h.unique hclaim (h.rows row hrow) hid
  exact (Prod.mk.inj hsame).2

/-- The record a spawned row was claimed as. -/
theorem claimed_of_spawned {b : Books} {d : OutboxDispatcher} (h : b.Sound d) {t : TaskId}
    {row : PendingRow} (hrow : (t, row) ∈ b.hist.spawned) :
    ∃ x ∈ b.hist.acquired, row = .ofClaimed x := by
  have hmem : row ∈ b.hist.acquired.map PendingRow.ofClaimed := by
    rw [h.rows]
    exact List.mem_append_left _ (List.mem_map.mpr ⟨_, hrow, rfl⟩)
  obtain ⟨x, hx, rfl⟩ := List.mem_map.mp hmem
  exact ⟨x, hx, rfl⟩

variable [Classify E] {now : ι → Instant}

/-- What a member writes has a cause, for every row it can reach. -/
theorem Accounted.entries (h : Accounted d runs l) {backoff : ι → ExponentialBackoff}
    (hretry : ∀ i, (d i).retry = (backoff i).policy) {i : ι} {fs : List (Event E)}
    (hrun : Run (d i) (now i) fs (runs i)) {call : Call} {op : StoreCall}
    (hc : (runs i).pc.call? = some call) (hop : op = call.op ∨ op.PartOf call.op)
    {row : OutboxRecord} (hrow : row ∈ l.inner.rows) :
    EntriesCaused d runs (op.op (d i).worker) row := by
  have hsound := (Run.settled hrun).sound
  refine ⟨?_, ?_⟩
  · intro worker items item heq hitem href
    have hcomplete : op = .complete items := by cases op <;> cases heq; rfl
    obtain ⟨all, hall, hsub⟩ := complete_of_part hcomplete hop
    rw [complete_items hrun hc hall] at hsub
    obtain ⟨e, he, rfl⟩ := List.mem_map.mp (hsub hitem)
    obtain ⟨row', hspawned, hresolved, hmessage⟩ := hsound.complete e he
    obtain ⟨x, hx, rfl⟩ := claimed_of_spawned hsound hspawned
    rw [hmessage] at href
    exact ⟨i, e.task, x, hx, hspawned, hresolved, href.symm, h.envelope_eq hx hrow href⟩
  · intro worker items item reason heq hitem href hout
    have hfail : op = .fail items := by cases op <;> cases heq; rfl
    obtain ⟨all, hall, hsub⟩ := fail_of_part hfail hop
    rw [fail_items hrun hc hall] at hsub
    obtain ⟨e, he, rfl⟩ := List.mem_map.mp (hsub hitem)
    obtain ⟨row', result, unit, kind, error, hspawned, hresolved, hverdict, hentry⟩ :=
      hsound.fail e he
    obtain ⟨x, hx, rfl⟩ := claimed_of_spawned hsound hspawned
    rw [hentry] at href hout
    have hnext : (d i).retry.next unit x.record.attempts kind = .dead reason := hout
    have hbackoff : (backoff i).next unit x.record.attempts kind = .dead reason := by
      rw [hretry i] at hnext
      exact hnext
    exact ⟨ExponentialBackoff.next_dead hbackoff, i, e.task, x, result, kind, error, unit, hx,
      hspawned, hresolved, hverdict, href.symm, h.envelope_eq hx hrow href, hnext⟩

omit [Classify E] in
/-- A method on the rows there are. -/
theorem Accounted.call (h : Accounted d runs l) {op : Memory.Op}
    (hop : ∀ row ∈ l.inner.rows, EntriesCaused d runs op row) :
    Accounted d runs { l with inner := (op.run l.inner).2 } := by
  have hrows : ∀ y ∈ (op.run l.inner).2.rows,
      (y.messageRef, y.envelope) ∈ l.inserted ∧ Caused d runs y := by
    intro y hy
    obtain ⟨r, hr, hchanges⟩ := Memory.run_rows op h.ok y hy
    obtain ⟨href, henv, hcaused⟩ := (h.caused r hr).changes hchanges (hop r hr)
    rw [href, henv]
    exact ⟨h.rows r hr, hcaused⟩
  exact ⟨h.ok.shrink (Memory.run_shrinks op l.inner), h.unique, fun y hy => (hrows y hy).1,
    h.claims, fun y hy => (hrows y hy).2⟩

omit [Classify E] in
theorem Accounted.elsewhere (h : Accounted d runs l) (hl : l.Elsewhere l') :
    Accounted d runs l' := by
  cases hl with
  | call op hop =>
      refine h.call fun row _ => ⟨?_, ?_⟩
      · rintro worker items item rfl
        cases hop
      · rintro worker items item reason rfl
        cases hop
  | insert envelope availableAt orderingKey hfresh =>
      refine ⟨h.ok.insertRow .., List.nodup_cons.mpr ⟨hfresh, h.unique⟩, ?_,
        fun i x hx => List.mem_cons_of_mem _ (h.claims i x hx), ?_⟩
      · intro row hrow
        rcases List.mem_append.mp hrow with hrow | hrow
        · exact List.mem_cons_of_mem _ (h.rows row hrow)
        · rw [List.mem_singleton.mp hrow]
          exact List.mem_cons_self
      · intro row hrow
        rcases List.mem_append.mp hrow with hrow | hrow
        · exact h.caused row hrow
        · rw [List.mem_singleton.mp hrow]
          refine ⟨fun hp => ?_, ?_, ?_⟩
          · cases hp
          · rintro reason ⟨⟩
          · rintro ⟨⟩
  | rest hrows hnext =>
      refine ⟨⟨?_, ?_⟩, h.unique, ?_, h.claims, ?_⟩
      · rw [hrows]; exact h.ok.nodup
      · rw [hrows, hnext]; exact h.ok.below
      · rw [hrows]; exact h.rows
      · rw [hrows]; exact h.caused

omit [Classify E] in
/-- The members have moved on. -/
theorem Accounted.grow (h : Accounted d runs l) (hruns : ∀ i, (runs i).books.Grows (runs' i).books)
    (hclaims : ∀ i, ∀ x ∈ (runs' i).received,
      (x.record.messageRef, x.record.envelope) ∈ l.inserted) : Accounted d runs' l :=
  ⟨h.ok, h.unique, h.rows, hclaims, fun row hrow => (h.caused row hrow).mono hruns⟩

/-- A claim returns rows that were in the store. -/
theorem acquired_rows {request : AcquireRequest} {s s' : Memory.Inner} {batch : AcquiredBatch}
    (h : Memory.tryAcquire request s = (.ok batch, s')) {r : OutboxRecord}
    (hr : r ∈ batch.records) :
    ∃ row ∈ s.rows, r.messageRef = row.messageRef ∧ r.envelope = row.envelope := by
  unfold Memory.tryAcquire at h
  have hbody := guarded_eq_ok h
  obtain ⟨rfl, -⟩ := Prod.mk.inj hbody
  obtain ⟨row, hrow, rfl⟩ := List.mem_map.mp hr
  exact ⟨row, (Memory.mem_chosen hrow).1, rfl, rfl⟩

/-- The ledger after a method that was carried out. -/
theorem ledger_next {w : WorkerId} {op : StoreCall} {reply : Reply}
    (h : ledger.carriesOut l w op reply l') :
    l' = { l with inner := ((op.op w).run l.inner).2 } := by
  obtain ⟨r, hrun, -, hinserted⟩ := h
  obtain ⟨inner, inserted⟩ := l'
  rw [hrun]
  exact congrArg (Ledger.mk inner) hinserted

omit [Classify E] in
/-- What a claim hands out has been inserted. -/
theorem Accounted.batch (h : Accounted d runs l) {w : WorkerId} {op : StoreCall}
    {records : List Claimed} {poisoned : List PoisonedRow}
    (hst : ledger.carriesOut l w op (.batch records poisoned) l') {x : Claimed}
    (hx : x ∈ records) : (x.record.messageRef, x.record.envelope) ∈ l.inserted := by
  obtain ⟨r, hrun, hanswers, -⟩ := hst
  cases op with
  | acquire request =>
      obtain ⟨batch, hbatch, rfl⟩ := run_eq_ok hrun
      have hr : x.record ∈ batch.records := hanswers.1 ▸ List.mem_map_of_mem hx
      obtain ⟨row, hrow, href, henv⟩ := acquired_rows hbatch hr
      rw [href, henv]
      exact h.rows row hrow
  | stats =>
      obtain ⟨_, -, rfl⟩ := run_eq_ok hrun
      cases hanswers
  | _ =>
      obtain ⟨_, -, rfl⟩ := run_eq_ok hrun
      cases hanswers

variable [DecidableEq ι] {c c' : Fleet ι E Ledger} {es : List (FleetEvent ι E)}
  {e : FleetEvent ι E}

/-- A member's new records come with a reply of the store. -/
theorem FleetStep.received {σ : Type} {B : Backend σ} {c c' : Fleet ι E σ}
    (h : FleetStep B d c e c') {i : ι} {x : Claimed}
    (hx : x ∈ (c'.runs i).received) :
    x ∈ (c.runs i).received ∨
      ∃ records poisoned, e = .run i (.apply (.batch records poisoned)) ∧ x ∈ records := by
  rcases h.member i with hsame | ⟨f, he, hnext⟩
  · rw [hsame] at hx
    exact .inl hx
  · by_cases hf : ∃ reply, f = .apply reply
    · obtain ⟨reply, rfl⟩ := hf
      have hstep := step_of_next hnext
      generalize hs' : c'.runs i = s' at hstep hx
      cases hstep with
      | task hid => cases hid
      | apply hc =>
          refine (received_of_apply hc hx).imp_right ?_
          rintro ⟨records, poisoned, rfl, hrecords⟩
          exact ⟨records, poisoned, he, hrecords⟩
    · push Not at hf
      exact .inl (received_of_step (step_of_next hnext) hf hx)

/-- The logs of all members grow. -/
theorem FleetStep.grows {σ : Type} {B : Backend σ} {st₀ : σ} {c c' : Fleet ι E σ}
    (hpath : Machine.Path (FleetStep B d) (Fleet.start d now st₀) es c)
    (h : FleetStep B d c e c') (i : ι) : (c.runs i).books.Grows (c'.runs i).books := by
  obtain ⟨fs, hrun⟩ := member_run hpath i
  rcases h.member i with hsame | ⟨f, -, hnext⟩
  · rw [hsame]
    exact .refl _
  · exact grows_of_next hnext (Run.settled hrun)

theorem accounted_of_step {backoff : ι → ExponentialBackoff}
    (hretry : ∀ i, (d i).retry = (backoff i).policy)
    (hpath : Machine.Path (FleetStep ledger d) (Fleet.start d now Ledger.empty) es c)
    (hstep : FleetStep ledger d c e c') (h : Accounted d c.runs c.store) :
    Accounted d c'.runs c'.store := by
  have hgrows : ∀ i, (c.runs i).books.Grows (c'.runs i).books := by
    intro i
    obtain ⟨fs, hrun⟩ := member_run hpath i
    rcases hstep.member i with hsame | ⟨f, -, hnext⟩
    · rw [hsame]
      exact .refl _
    · exact grows_of_next hnext (Run.settled hrun)
  have hreceived : ∀ i, ∀ x ∈ (c'.runs i).received, _ := fun i x hx => hstep.received hx
  cases hstep with
  | @run i f s hnext hf =>
      refine h.grow hgrows fun j x hx => ?_
      rcases hreceived j x hx with hold | ⟨records, poisoned, he, -⟩
      · exact h.claims j x hold
      · cases he
        exact absurd rfl (hf _)
  | @apply i reply call s st hnext hc hst =>
      obtain ⟨fs, hrun⟩ := member_run hpath i
      have hcall := h.call fun row hrow => h.entries hretry hrun hc (.inl rfl) hrow
      rw [← ledger_next hst] at hcall
      have hsame : st.inserted = c.store.inserted := by rw [ledger_next hst]
      refine hcall.grow hgrows fun j x hx => ?_
      rw [hsame]
      rcases hreceived j x hx with hold | ⟨records, poisoned, he, hrecords⟩
      · exact h.claims j x hold
      · cases he
        exact h.batch hst hrecords
  | @part i call op reply st hc hn hop hst =>
      obtain ⟨fs, hrun⟩ := member_run hpath i
      have hcall := h.call fun row hrow => h.entries hretry hrun hc (.inr hop) hrow
      rwa [← ledger_next hst] at hcall
  | elsewhere hl => exact h.elsewhere hl

/-- From an empty store, whatever the members do and in whatever order: a published row was
delivered, a row a policy killed was refused with that verdict, an expired row was past its expiry. -/
theorem terminal_states_caused {backoff : ι → ExponentialBackoff}
    (hretry : ∀ i, (d i).retry = (backoff i).policy)
    (hpath : Machine.Path (FleetStep ledger d) (Fleet.start d now Ledger.empty) es c) :
    ∀ row ∈ c.store.inner.rows,
      (row.publishedAt.isSome = true → PublishedBy c.runs row) ∧
      (∀ reason, row.deadReason = some reason →
        reason = .permanentError ∨ reason = .attemptsExhausted → FailedBy d c.runs row reason) ∧
      (row.deadReason = some .expired → ∃ expiry death, row.envelope.expiresAt = some expiry ∧
        row.deadAt = some death ∧ expiry ≤ death) := by
  have haccounted : Accounted d c.runs c.store := by
    induction hpath with
    | nil =>
        exact ⟨⟨.nil, fun r hr => (List.not_mem_nil hr).elim⟩, .nil,
          fun row hrow => (List.not_mem_nil hrow).elim, fun i x hx => (List.not_mem_nil hx).elim,
          fun row hrow => (List.not_mem_nil hrow).elim⟩
    | snoc hpath hstep ih => exact accounted_of_step hretry hpath hstep ih
  intro row hrow
  have hcaused := haccounted.caused row hrow
  exact ⟨hcaused.published, hcaused.failed, hcaused.expired⟩

end

/-! ### Two members of one name: one dies, the other delivers -/

def storedLedger : Ledger :=
  ⟨(Memory.insertRow (sampleEnvelope 1) none none .default).2,
    [((Memory.insertRow (sampleEnvelope 1) none none .default).1, sampleEnvelope 1)]⟩

def claimedLedger : Ledger :=
  { storedLedger with
    inner := (Memory.tryAcquire (claimRequest (sample .default) ⟨0, []⟩) storedLedger.inner).2 }

def completedLedger : Ledger :=
  { claimedLedger with
    inner := (Memory.tryComplete sampleWorker [⟨⟨(sampleEnvelope 1).id, 0⟩⟩] claimedLedger.inner).2 }

def publishAndRetry : List (Event FailureKind) :=
  [.answer .ok, .permit 0, .publishReturns 0 .ok, .enter, .fireJoin [(0, 0)], .enter, .retryWakes]

theorem terminal_states_caused_delivered :
    ∃ (c : Fleet Bool FailureKind Ledger) (row : OutboxRecord),
      row ∈ c.store.inner.rows ∧ row.publishedAt.isSome = true ∧ PublishedBy c.runs row := by
  have hclaimed : ledger.carriesOut storedLedger sampleWorker
      (.acquire (claimRequest (sample .default) ⟨0, []⟩))
      (.batch (claimedLedger.inner.rows.map (⟨·, 1⟩)) []) claimedLedger :=
    ⟨_, rfl, ⟨rfl, rfl⟩, rfl⟩
  have hcompleted : ledger.carriesOut claimedLedger sampleWorker
      (.complete [⟨⟨(sampleEnvelope 1).id, 0⟩⟩]) (.affected 1) completedLedger := ⟨_, rfl, rfl, rfl⟩
  have hstored : Machine.Path (FleetStep (E := FailureKind) ledger fun _ : Bool => sample .default)
      (.start (fun _ => sample .default) (fun _ => 0) .empty) _ ⟨_, storedLedger⟩ :=
    .single (.elsewhere (.insert (sampleEnvelope 1) none none List.not_mem_nil))
  have hdead := hstored.append (path_of_solo false [.crash] rfl (by simp))
  have hasked := hdead.append (path_of_solo true [.enter, .fireClaim] rfl (by simp))
  have hclaim := hasked.snoc (.apply (i := true) rfl rfl hclaimed)
  have htold := hclaim.append
    (path_of_solo true publishAndRetry rfl (by simp [publishAndRetry]))
  have hwritten := htold.snoc (.apply (i := true) rfl rfl hcompleted)
  obtain ⟨row, hrow, hpublished⟩ : ∃ row ∈ completedLedger.inner.rows,
      row.publishedAt.isSome = true := ⟨_, List.mem_singleton.mpr rfl, rfl⟩
  have hretry : ∀ _ : Bool, (sample .default).retry = DispatcherSettings.default.retry.policy :=
    fun _ => rfl
  have hcaused := terminal_states_caused hretry hwritten row hrow
  exact ⟨_, row, hrow, hpublished, hcaused.1 hpublished⟩

end Reliar.Dispatcher
