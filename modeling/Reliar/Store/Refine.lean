/-
# `Reliar.Store.Refine` — the in-memory store against the SQL store

The dispatcher's tests drive `InMemoryOutboxStore`; what they show about the SQL
store rests on the two doing the same.  Both start from the same rows
(`Paired`), at the same instant.  `Method.Agrees` says that PostgreSQL can answer
as the in-memory store does and leave the same rows: under some choice of the
rows a `LIMIT` picks, with each statement atomic.

They do, for every operation, unless a text is bound that PostgreSQL refuses:
`text` holds no NUL character, a `String` does (`memory_refines_postgres_iff`).
-/
import Reliar.Store.ReplayReads

namespace Reliar.Store

open Reliar.Core Reliar.Outbox Postgres

/-! ## Methods -/

/-- The methods of `OutboxStore` and `OutboxDeadLetters`. -/
inductive Method
  | acquire (request : AcquireRequest)
  | call (c : Call)
  | stats
  | listDead (query : DeadQuery)

inductive Result
  | reply (reply : Memory.Reply)
  | page (page : DeadLetterPage)

namespace Method

/-- On the in-memory store. -/
def onMemory (s : Memory.Inner) : Method → Except Memory.InMemoryStoreError Result × Memory.Inner
  | .acquire request => ((Memory.Op.acquire request).run s).map (·.map .reply) id
  | .call c => ((opOf c).run s).map (·.map .reply) id
  | .stats => (Memory.Op.stats.run s).map (·.map .reply) id
  | .listDead query => (.ok (.page (Memory.listDead query s)), s)

/-- The statements that write. -/
def stmts : Method → List Stmt
  | .acquire request => [Postgres.acquire request]
  | .call c => c.stmts
  | .stats => []
  | .listDead _ => []

/-- The texts a method binds. -/
def texts : Method → List String
  | .listDead query => queryTexts query
  | method => method.stmts.flatMap Stmt.texts

/-- On the SQL store. -/
def onPostgres (rendering : Rendering) (mode : Mode) (env : Env) (rows : List Row) :
    Method → List Row × Except CallError Result
  | .acquire request =>
      (runAcquire rendering request env rows).map id (·.map fun batch => .reply (.batch batch))
  | .call c => (c.run mode env rows).map id (·.map fun reply => .reply (replyOf reply))
  | .stats => (rows, .ok (.reply (.stats (Postgres.stats env.now rows))))
  | .listDead query =>
      (rows, match Postgres.listDead rendering query rows with
        | .error err => .error (.sql err)
        | .ok page => .ok (.page page))

/-- The arguments; a page is no larger than the cap. -/
def WellFormed (s : Memory.Inner) : Method → Prop
  | .acquire request => Ahead s.now request.lease
  | .call c => CallOk s c
  | .stats => True
  | .listDead query => query.limit ≤ MAX_LIST_DEAD_LIMIT

end Method

/-- The same result; a batch has no order, a page does. -/
inductive SameResult : Result → Result → Prop
  | batch {batch batch' : AcquiredBatch} {records : List OutboxRecord}
      (hperm : batch.records.Perm records)
      (hsame : List.Forall₂ SameRecord records batch'.records)
      (hpoisoned : batch.poisoned = batch'.poisoned) :
      SameResult (.reply (.batch batch)) (.reply (.batch batch'))
  | affected (n : Nat) : SameResult (.reply (.affected n)) (.reply (.affected n))
  | report (report : PurgeReport) : SameResult (.reply (.report report)) (.reply (.report report))
  | stats (stats : OutboxStats) : SameResult (.reply (.stats stats)) (.reply (.stats stats))
  | page {page page' : DeadLetterPage}
      (hsame : List.Forall₂ SameRecord page.records page'.records)
      (hpoisoned : page.poisoned = page'.poisoned)
      (hnext : page.nextAfterSequence = page'.nextAfterSequence) :
      SameResult (.page page) (.page page')

/-- PostgreSQL can answer as the in-memory store does, and leave the same rows. -/
def Method.Agrees (rendering : Rendering) (mode : Mode) (rows : List Row) (s : Memory.Inner)
    (method : Method) : Prop :=
  ∃ env : Env, env.now = s.now ∧ (∀ k, env.fails k = false) ∧ env.Full 0 method.stmts rows ∧
    ∃ rows' result result', method.onPostgres rendering mode env rows = (rows', .ok result) ∧
      (method.onMemory s).1 = .ok result' ∧ SameResult result result' ∧
      Same rows' (method.onMemory s).2.rows

/-! ## What PostgreSQL refuses -/

theorem texts_of_exec {stmt : Stmt} {env : Env} {k : Nat} {rows rows' : List Row} {count : Nat}
    (h : env.exec k stmt rows = .ok (rows', count)) : ∀ text ∈ stmt.texts, hasNul text = false := by
  have hexec := (Env.exec_ok h).1
  unfold Stmt.exec at hexec
  split at hexec
  · cases hexec
  · rename_i hnone
    rw [Bool.not_eq_true, List.any_eq_false] at hnone
    exact fun text htext => Bool.not_eq_true _ ▸ hnone text htext

theorem texts_of_execAll {env : Env} {k : Nat} {stmts : List Stmt} {rows : List Row}
    {counts : List Nat} (h : (env.execAll k stmts rows).2 = .ok counts) :
    ∀ stmt ∈ stmts, ∀ text ∈ stmt.texts, hasNul text = false := by
  induction stmts generalizing k rows counts with
  | nil => exact fun stmt hstmt => absurd hstmt List.not_mem_nil
  | cons stmt stmts ih =>
      simp only [Env.execAll] at h
      split at h
      · cases h
      · rename_i rows₁ count hexec
        intro x hx
        rcases List.mem_cons.mp hx with rfl | hx
        · exact texts_of_exec hexec
        · cases hrest : (env.execAll (k + 1) stmts rows₁).2 with
          | error err =>
              rw [hrest] at h
              cases h
          | ok rest => exact ih hrest x hx

theorem texts_of_call {c : Call} {mode : Mode} {env : Env} {rows : List Row}
    {reply : Postgres.Reply} (h : (c.run mode env rows).2 = .ok reply) :
    ∀ stmt ∈ c.stmts, ∀ text ∈ stmt.texts, hasNul text = false := by
  cases hdone : (env.execAll 0 c.stmts rows).2 with
  | ok counts => exact texts_of_execAll hdone
  | error err =>
      have hfailed : (c.run mode env rows).2 = .error err := by
        cases mode with
        | pool => simp only [Call.run, hdone]
        | transaction fault => cases fault <;> simp only [Call.run, hdone]
      rw [h] at hfailed
      cases hfailed

/-- A call that agrees binds no text with a NUL character. -/
theorem Method.texts_of_agrees {rendering : Rendering} {mode : Mode} {rows : List Row}
    {s : Memory.Inner} {method : Method} (h : method.Agrees rendering mode rows s) :
    ∀ text ∈ method.texts, hasNul text = false := by
  obtain ⟨env, -, -, -, rows', result, -, hrun, -, -, -⟩ := h
  cases method with
  | acquire request =>
      intro text htext
      simp only [Method.onPostgres, runAcquire] at hrun
      split at hrun
      · cases hrun
      · rename_i hexec
        refine texts_of_exec hexec text ?_
        simpa [Method.texts, Method.stmts] using htext
  | call c =>
      intro text htext
      obtain ⟨stmt, hstmt, htext⟩ := List.mem_flatMap.mp htext
      cases hreply : (c.run mode env rows).2 with
      | ok reply => exact texts_of_call hreply stmt hstmt text htext
      | error err =>
          have hfailed := congrArg Prod.snd hrun
          simp only [Method.onPostgres, Prod.map_snd, hreply] at hfailed
          cases hfailed
  | stats => exact fun text htext => absurd htext List.not_mem_nil
  | listDead query =>
      intro text htext
      by_contra hnul
      have hany : (queryTexts query).any hasNul = true :=
        List.any_eq_true.mpr ⟨text, htext, Bool.not_eq_false _ ▸ hnul⟩
      simp only [Method.onPostgres, Postgres.listDead, listDeadRows, hany, if_true] at hrun
      cases hrun

/-! ## What PostgreSQL can do -/

theorem Start.agrees {rows : List Row} {s : Memory.Inner} (h : Start rows s) {mode : Mode}
    (hmode : mode ≠ .transaction true) {method : Method} (hwf : method.WellFormed s)
    (rendering : Rendering) (htexts : ∀ text ∈ method.texts, hasNul text = false) :
    method.Agrees rendering mode rows s := by
  cases method with
  | acquire request =>
      have htext : hasNul request.worker.asStr = false :=
        htexts _ (by simp [Method.texts, Method.stmts, Postgres.acquire, Stmt.texts])
      obtain ⟨choice, hfull, rows', batch, records, hrun, hperm, hsame, hnone, hleft⟩ :=
        h.replay_acquire rendering hwf htext
      have hmemory : Memory.tryAcquire request s = _ := h.unarmed.guarded _
      refine ⟨playEnv s.now choice, rfl, fun _ => rfl, hfull, rows', .reply (.batch batch),
        .reply (.batch ⟨(Memory.chosen request s).map
          (Memory.lockRow request.worker (s.now + request.lease)), []⟩), ?_, ?_, ?_, ?_⟩
      · simp only [Method.onPostgres, hrun]
        rfl
      · show ((Memory.tryAcquire request s).1.map Memory.Reply.batch).map Result.reply = _
        rw [hmemory]
        rfl
      · exact .batch hperm hsame hnone
      · show Same rows' (Memory.tryAcquire request s).2.rows
        rw [hmemory]
        exact hleft
  | call c =>
      have hissued : ∀ stmt ∈ c.stmts, ∀ text ∈ stmt.texts, hasNul text = false :=
        fun stmt hstmt text htext => htexts text (List.mem_flatMap.mpr ⟨stmt, hstmt, htext⟩)
      obtain ⟨rows', counts, hplays, hreply, hleft⟩ := h.replay_call hwf hissued
      obtain ⟨choice, hfull, hrun⟩ := hplays.exists_env 0
      have hpostgres : c.run mode (playEnv s.now choice) rows = (rows', .ok (c.reply counts)) := by
        cases mode with
        | pool => simp only [Call.run, hrun]
        | transaction fault =>
            cases fault with
            | true => exact absurd rfl hmode
            | false => simp only [Call.run, hrun]
      refine ⟨playEnv s.now choice, rfl, fun _ => rfl, hfull, rows',
        .reply (replyOf (c.reply counts)), .reply (replyOf (c.reply counts)), ?_, ?_, ?_, hleft⟩
      · simp only [Method.onPostgres, hpostgres]
        rfl
      · show ((opOf c).run s).1.map Result.reply = _
        rw [hreply]
        rfl
      · cases c.reply counts with
        | affected n => exact .affected n
        | report report => exact .report report
  | stats =>
      refine ⟨playEnv s.now fun _ => ⟨[], fun _ => 0⟩, rfl, fun _ => rfl, trivial, rows, _, _, rfl,
        ?_, .stats _, ?_⟩
      · show ((Memory.tryStats s).1.map Memory.Reply.stats).map Result.reply = _
        rw [h.stats_eq]
        rfl
      · show Same rows (Memory.tryStats s).2.rows
        rw [h.stats_eq]
        exact h.paired.same
  | listDead query =>
      obtain ⟨page, hpage, hrecords, hpoisoned, hnext⟩ := h.replay_listDead rendering hwf htexts
      refine ⟨playEnv s.now fun _ => ⟨[], fun _ => 0⟩, rfl, fun _ => rfl, trivial, rows, .page page,
        _, ?_, rfl, .page hrecords hpoisoned hnext, h.paired.same⟩
      simp only [Method.onPostgres, hpage]

/-- From every state of the in-memory store, at every instant that is no row's `expires_at`, every
operation is one that PostgreSQL can do to the same rows, with the same result — exactly if it
binds no text with a NUL character. -/
theorem memory_refines_postgres_iff {es : List Memory.Event} {st : Memory.InMemoryOutboxStore}
    (hrun : Memory.Run es st) (now : Timestamp) {rows : List Row} (hsame : Same rows st.inner.rows)
    (hids : (st.inner.rows.map (·.envelope.id)).Nodup)
    (hattempts : ∀ r ∈ st.inner.rows, (r.attempts : Int) < INT_MAX)
    (hexpires : ∀ r ∈ st.inner.rows, r.envelope.expiresAt ≠ some now)
    (hunarmed : Unarmed st.inner) {mode : Mode} (hmode : mode ≠ .transaction true)
    {method : Method} (hwf : method.WellFormed { st.inner with now := now })
    (rendering : Rendering) :
    method.Agrees rendering mode rows { st.inner with now := now } ↔
      ∀ text ∈ method.texts, hasNul text = false := by
  have hstart : Start rows { st.inner with now := now } :=
    { paired := ⟨hsame, hrun.records, hids, fun r hr => (hattempts r hr).le⟩
      attempts := hattempts
      expires := hexpires
      unarmed := ⟨hunarmed.failNext, hunarmed.failNextPermanent, hunarmed.failNextComplete⟩ }
  exact ⟨Method.texts_of_agrees, hstart.agrees hmode hwf rendering⟩

/-! ## A message held by worker `w` -/

def heldMessage : SerializedEnvelope :=
  ⟨⟨⟨1⟩⟩, MessageType.fromParts "order.placed" 1, [], Metadata.default, none⟩

def heldRecord : OutboxRecord :=
  { OutboxRecord.build heldMessage 1 0 with
    lockedBy := some workerW, lockedUntil := some 1000000000 }

def insertAndClaim : List Memory.Event :=
  [.insert heldMessage none none, .call (.acquire ⟨workerW, 1, Duration.ofSecs 1, .unordered⟩)]

def heldStore : Memory.InMemoryOutboxStore :=
  Machine.reach Memory.next .default insertAndClaim

theorem heldStore_rows : heldStore.inner.rows = [heldRecord] := by decide

theorem heldRow_mirrors : Mirrors (heldRow 1 1) heldRecord := by
  have hsent : decodeSentAt (heldMessage.metadata.delivery.sentAt.map encodeEpochMillis) =
      .ok none := rfl
  have hheaders : decodeHeaders (headersJson heldMessage.headers) = .ok none := rfl
  have hdecode : decodeEnvelope (stage heldMessage) = _ :=
    decodeEnvelope_insertRow heldMessage.body _ .default 1 0 hsent hheaders
  exact
    { envelope := ⟨_, hdecode, ⟨rfl, rfl, rfl, ⟨rfl, rfl, rfl, ⟨rfl, rfl, rfl, rfl⟩, rfl⟩, trivial⟩⟩
      sequence := rfl, createdAt := rfl, orderingKey := rfl, attempts := rfl, availableAt := rfl
      lockedBy := rfl, lockedUntil := rfl, publishedAt := rfl, deadAt := rfl, deadReason := rfl
      lastError := rfl }

theorem heldRow_same : Same [heldRow 1 1] heldStore.inner.rows := by
  rw [heldStore_rows]
  refine ⟨by decide, by decide, ?_, ?_⟩
  · intro row hrow
    rw [List.mem_singleton.mp hrow]
    exact ⟨heldRecord, List.mem_cons_self, heldRow_mirrors⟩
  · intro record hrecord
    rw [List.mem_singleton.mp hrecord]
    exact ⟨heldRow 1 1, List.mem_cons_self, heldRow_mirrors⟩

/-- Half a second into the lease. -/
def halfSecond : Timestamp := 500000000

theorem heldStore_start :
    Memory.Run insertAndClaim heldStore ∧ Same [heldRow 1 1] heldStore.inner.rows ∧
      (heldStore.inner.rows.map (·.envelope.id)).Nodup ∧
      (∀ r ∈ heldStore.inner.rows, (r.attempts : Int) < INT_MAX) ∧
      (∀ r ∈ heldStore.inner.rows, r.envelope.expiresAt ≠ some halfSecond) ∧
      Unarmed heldStore.inner := by
  refine ⟨Machine.path_reach (by decide), heldRow_same, ?_, ?_, ?_, ⟨rfl, rfl, rfl⟩⟩
  · rw [heldStore_rows]
    exact List.nodup_singleton _
  · rw [heldStore_rows]
    intro r hr
    rw [List.mem_singleton.mp hr]
    decide
  · rw [heldStore_rows]
    intro r hr
    rw [List.mem_singleton.mp hr]
    decide

theorem heldStore_names : Names heldStore.inner.rows [heldRecord.messageRef] := by
  refine ⟨List.nodup_singleton _, fun m hm => ?_⟩
  rw [heldStore_rows, List.mem_singleton.mp hm]
  exact ⟨heldRecord, List.mem_cons_self, rfl⟩

/-- The error text of a failed publish, as it came from the transport. -/
def nulFailure : FailedMessage :=
  FailedMessage.new heldRecord.messageRef "a\x00b" (.dead .permanentError)

/-- The in-memory store buries the message; PostgreSQL takes no such text. -/
theorem memory_takes_nul_text :
    Memory.Run insertAndClaim heldStore ∧ Same [heldRow 1 1] heldStore.inner.rows ∧
      (heldStore.inner.rows.map (·.envelope.id)).Nodup ∧
      (∀ r ∈ heldStore.inner.rows, (r.attempts : Int) < INT_MAX) ∧
      (∀ r ∈ heldStore.inner.rows, r.envelope.expiresAt ≠ some halfSecond) ∧
      Unarmed heldStore.inner ∧
      (Method.call (.fail workerW [nulFailure])).WellFormed
        { heldStore.inner with now := halfSecond } ∧
      ¬ (Method.call (.fail workerW [nulFailure])).Agrees sampleRendering .pool [heldRow 1 1]
        { heldStore.inner with now := halfSecond } := by
  obtain ⟨hrun, hsame, hids, hattempts, hexpires, hunarmed⟩ := heldStore_start
  refine ⟨hrun, hsame, hids, hattempts, hexpires, hunarmed, ⟨heldStore_names, ?_⟩, ?_⟩
  · intro item hitem
    rw [List.mem_singleton.mp hitem]
    refine ⟨⟨"a\x00b", rfl⟩, fun delay hdelay => ?_⟩
    cases hdelay
  · intro hagrees
    have hnul := Method.texts_of_agrees hagrees nulFailure.error (by decide)
    exact absurd hnul (by decide)

/-- A completion, half a second into the lease. -/
theorem memory_refines_postgres_complete :
    (Method.call (.complete workerW [⟨heldRecord.messageRef⟩])).Agrees sampleRendering .pool
      [heldRow 1 1] { heldStore.inner with now := halfSecond } := by
  obtain ⟨hrun, hsame, hids, hattempts, hexpires, hunarmed⟩ := heldStore_start
  have hwf : (Method.call (.complete workerW [⟨heldRecord.messageRef⟩])).WellFormed
      { heldStore.inner with now := halfSecond } := heldStore_names
  refine (memory_refines_postgres_iff hrun halfSecond hsame hids hattempts hexpires hunarmed
    (fun h => by cases h) hwf sampleRendering).mpr ?_
  decide

end Reliar.Store
