/-
# `Reliar.Store.Staging` — a batch in the caller's transaction
(`reliar-outbox`: `publisher.rs`; `reliar-store-postgres`: `store.rs`)

`ScopedOutboxPublisher::publish_batch` over PostgreSQL.  A batch goes on after an
error, and the transaction does not: the first message that cannot be staged takes
with it what was staged before and what is staged after.
-/
import Reliar.Outbox.Routing
import Reliar.Store.Enqueue
import Reliar.Store.RoundTrip

namespace Reliar.Store.Postgres.Enqueue

open Reliar.Core Reliar.Outbox

variable {H W PE : Type}

/-- `PostgresOutboxStore` as the staging of a publisher.  How its statements fail is up to the
world. -/
def scopedPublisher (settings : PostgresOutboxSettings) (server : Server) (policy : OutboxPolicy)
    (faults : W → Faults × W) (publish : SerializedEnvelope → W → Except PE Unit × W)
    (routed : RouteKind → MessageType → W → W) :
    OutboxPublisher (Transaction (Work H)) W (EnqueueError Empty) PE where
  stage envelope t world :=
    let (faults, world) := faults world
    let (reply, t) := Enqueue.stage settings server envelope faults t
    (reply, t, world)
  publish := publish
  policy := policy
  routed := routed

/-- What was staged, with the answers. -/
def replies {SE : Type} (calls : List (Outbox.Call SE PE)) :
    List (SerializedEnvelope × Except SE MessageId) :=
  calls.filterMap fun
    | .stage envelope reply => some (envelope, reply)
    | _ => none

section
variable {settings : PostgresOutboxSettings} {server : Server} {home : String} {w : Work H}
  {t : Transaction (Work H)}

/-- The transaction goes on with the row. -/
def Work.add (w : Work H) (home : String) (envelope : SerializedEnvelope) : Work H :=
  { w with wrote := w.wrote ++ [.outbox home (Store.stage envelope)] }

/-- A transaction that has failed refuses the message. -/
theorem stage_refused (settings : PostgresOutboxSettings) (server : Server)
    (envelope : SerializedEnvelope) (faults : Faults) (h : t.current = none) :
    stage settings server envelope faults t = (.error (.database refused), t) := by
  simp only [stage, insertStaged_eq, Transaction.perform_refused h]
  rfl

/-- One that has not writes it, or fails. -/
theorem stage_cases (envelope : SerializedEnvelope) (faults : Faults) (h : t.current = some w)
    (hhome : Homed settings server home w.searchPath) :
    stage settings server envelope faults t =
        (.ok envelope.id, { t with current := some (Work.add w home envelope) }) ∨
      ∃ err, stage settings server envelope faults t = (.error err, { t with current := none }) := by
  have hrun := staged_eq (Store.stage envelope) faults hhome
  simp only [stage, insertStaged_eq]
  cases hplain : (plain settings home (Store.stage envelope) faults).run w with
  | error err =>
      rw [Transaction.perform_error h (hrun.trans hplain)]
      exact .inr ⟨_, rfl⟩
  | ok p =>
      obtain ⟨u, w'⟩ := p
      rw [Transaction.perform_ok h (hrun.trans hplain), (plain_ok hplain).2]
      exact .inl rfl

end

section
variable {settings : PostgresOutboxSettings} {server : Server} {policy : OutboxPolicy}
  {faults : W → Faults × W} {publish : SerializedEnvelope → W → Except PE Unit × W}
  {routed : RouteKind → MessageType → W → W} {home : String} {w : Work H}
  {t t' : Transaction (Work H)} {world world' : W}
  {calls : List (Outbox.Call (EnqueueError Empty) PE)}

/-- After a failure, nothing is staged. -/
theorem made_refused
    (h : Made (scopedPublisher settings server policy faults publish routed) t world calls t' world')
    (hcurrent : t.current = none) :
    t' = t ∧ ∀ x ∈ replies calls, x.2 = .error (.database refused) := by
  induction h with
  | nil => exact ⟨rfl, fun x hx => (List.not_mem_nil hx).elim⟩
  | @stage t t₁ t₂ world world₁ world₂ envelope reply calls hcall _ ih =>
      have hstage := stage_refused settings server envelope (faults world).1 hcurrent
      simp only [scopedPublisher, hstage, Prod.mk.injEq] at hcall
      obtain ⟨rfl, rfl, -⟩ := hcall
      obtain ⟨hsame, hrest⟩ := ih hcurrent
      exact ⟨hsame, List.forall_mem_cons.mpr ⟨rfl, hrest⟩⟩
  | publish _ _ ih => exact ih hcurrent
  | routed _ ih => exact ih hcurrent

/-- What the calls make of a transaction in progress: everything is staged, or all up to the first
that fails, with which the transaction does. -/
theorem made_staged
    (h : Made (scopedPublisher settings server policy faults publish routed) t world calls t' world')
    (hcurrent : t.current = some w) (hhome : Homed settings server home w.searchPath) :
    ∃ done rest, replies calls = done ++ rest ∧ (∀ x ∈ done, x.2 = .ok x.1.id) ∧
      (rest = [] ∧ t' = { t with current := some { w with
          wrote := w.wrote ++ done.map fun x => .outbox home (Store.stage x.1) } } ∨
        ∃ e err more, rest = (e, .error err) :: more ∧
          (∀ x ∈ more, x.2 = .error (.database refused)) ∧ t' = { t with current := none }) := by
  induction h generalizing w with
  | @nil t world =>
      refine ⟨[], [], rfl, fun x hx => (List.not_mem_nil hx).elim, .inl ⟨rfl, ?_⟩⟩
      rw [List.map_nil, List.append_nil, ← hcurrent]
  | @stage t t₁ t₂ world world₁ world₂ envelope reply calls hcall hrest ih =>
      rcases stage_cases envelope (faults world).1 hcurrent hhome with
        hstage | ⟨err, hstage⟩
      · simp only [scopedPublisher, hstage, Prod.mk.injEq] at hcall
        obtain ⟨rfl, rfl, -⟩ := hcall
        obtain ⟨done, rest, hreplies, hdone, hend⟩ := ih rfl hhome
        refine ⟨(envelope, .ok envelope.id) :: done, rest, ?_,
          List.forall_mem_cons.mpr ⟨rfl, hdone⟩, ?_⟩
        · exact congrArg ((envelope, Except.ok envelope.id) :: ·) hreplies
        · refine hend.imp_left fun hall => ⟨hall.1, ?_⟩
          rw [hall.2, Work.add, List.map_cons, List.append_assoc]
          rfl
      · simp only [scopedPublisher, hstage, Prod.mk.injEq] at hcall
        obtain ⟨rfl, rfl, -⟩ := hcall
        obtain ⟨hsame, hmore⟩ := made_refused hrest rfl
        exact ⟨[], (envelope, .error err) :: replies calls, rfl,
          fun x hx => (List.not_mem_nil hx).elim, .inr ⟨envelope, err, _, rfl, hmore, hsame⟩⟩
  | publish _ _ ih => exact ih hcurrent hhome
  | routed _ ih => exact ih hcurrent hhome

end

/-! ## The results of the batch -/

section
variable {SE : Type} {policy : OutboxPolicy} {envelopes : List SerializedEnvelope}
  {results : List (Except (RouteError SE PE) Unit)} {calls : List (Outbox.Call SE PE)}

/-- The messages of a batch that route through the outbox, with their results. -/
def stagings (policy : OutboxPolicy) (envelopes : List SerializedEnvelope)
    (results : List (Except (RouteError SE PE) Unit)) :
    List (SerializedEnvelope × Except (RouteError SE PE) Unit) :=
  (envelopes.zip results).filter fun x => decide (policy.decide x.1.messageType = .outbox)

/-- What the caller is told of a message that was staged. -/
def told (x : SerializedEnvelope × Except SE MessageId) :
    SerializedEnvelope × Except (RouteError SE PE) Unit :=
  (x.1, (x.2.map fun _ => ()).mapError .stage)

theorem stagings_eq (h : RoutedOnce policy envelopes results calls) :
    stagings policy envelopes results = (replies calls).map told := by
  have hcalls : (replies calls).map told = (calls.filterMap Call.verdict).filterMap fun x =>
      if x.1 = .outbox then some (x.2.1, x.2.2) else none := by
    clear h
    induction calls with
    | nil => rfl
    | cons call calls ih =>
        cases call with
        | stage envelope reply => exact congrArg (told (envelope, reply) :: ·) ih
        | publish | routed => exact ih
  rw [hcalls, h.verdicts, stagings]
  have hlen := h.positional
  clear h hcalls
  induction envelopes generalizing results with
  | nil => cases results <;> rfl
  | cons envelope envelopes ih =>
      cases results with
      | nil => cases hlen
      | cons result results =>
          have hrest := ih (Nat.succ.inj hlen)
          simp only [List.zip_cons_cons, List.filter_cons, List.zipWith_cons_cons,
            List.filterMap_cons, decide_eq_true_eq, hrest]
          split <;> rfl

end

section
variable {settings : PostgresOutboxSettings} {server : Server} {policy : OutboxPolicy}
  {faults : W → Faults × W} {publish : SerializedEnvelope → W → Except PE Unit × W}
  {routed : RouteKind → MessageType → W → W} {home : String} {w : Work H}

/-- A batch in a transaction in progress.  If every message that routes through the outbox is
staged, a commit leaves them all, in their order, after what was there.  If one is not, it and all
after it are told so, and a commit leaves nothing: not the messages before it that were told `Ok`,
and nothing else the transaction did. -/
theorem batch_all_or_nothing
    (s : Scope (Transaction (Work H)) W (EnqueueError Empty) PE) (hlive : s.tx.current = some w)
    (hhome : Homed settings server home w.searchPath) (envelopes : List SerializedEnvelope) :
    let p := scopedPublisher settings server policy faults publish routed
    let batch := publishBatch p.publishScoped envelopes s
    batch.1.length = envelopes.length ∧
      ∃ done rest, stagings policy envelopes batch.1 = done ++ rest ∧ (∀ x ∈ done, x.2 = .ok ()) ∧
        (rest = [] ∧ batch.2.tx.commit = { w with
            wrote := w.wrote ++ done.map fun x => .outbox home (Store.stage x.1) } ∨
          ∃ e err more, rest = (e, .error (.stage err)) :: more ∧
            (∀ x ∈ more, x.2 = .error (.stage (.database refused))) ∧
              batch.2.tx.commit = s.tx.start) := by
  intro p batch
  obtain ⟨calls, -, hmade, honce⟩ := publishBatch_routes p envelopes s
  obtain ⟨done, rest, hreplies, hdone, hend⟩ := made_staged hmade hlive hhome
  refine ⟨honce.positional, done.map told, rest.map told, ?_, fun x hx => ?_, ?_⟩
  · exact (stagings_eq honce).trans (by rw [hreplies, List.map_append])
  · obtain ⟨y, hy, rfl⟩ := List.mem_map.mp hx
    rw [told, hdone y hy]
    rfl
  · rcases hend with ⟨rfl, htx⟩ | ⟨e, err, more, rfl, hmore, htx⟩
    · refine .inl ⟨rfl, ?_⟩
      rw [show batch.2.tx = _ from htx, List.map_map]
      rfl
    · refine .inr ⟨e, err, more.map told, rfl, fun x hx => ?_, ?_⟩
      · obtain ⟨y, hy, rfl⟩ := List.mem_map.mp hx
        rw [told, hmore y hy]
        rfl
      · rw [show batch.2.tx = _ from htx]
        rfl

end

/-! ### A message that is staged twice -/

def twiceStaged : List (Except (RouteError (EnqueueError Empty) Empty) Unit) ×
    Scope (Transaction (Work String)) Unit (EnqueueError Empty) Empty :=
  publishBatch (scopedPublisher setsPath sampleServer .default (fun _ => (noFaults, ()))
    (fun _ _ => (.ok (), ())) fun _ _ _ => ()).publishScoped [sentBeforeEpoch, sentBeforeEpoch]
    ⟨.begin ⟨"app", []⟩, (), []⟩

theorem batch_all_or_nothing_twice : twiceStaged.1.length = 2 ∧
    twiceStaged.1.map (fun result => result.toBool) = [true, false] ∧
      twiceStaged.2.tx.commit.wrote = [] := by
  have hhome : Homed setsPath sampleServer "reliar" "app" := sampleCalls_reach.start
  exact ⟨(batch_all_or_nothing (w := ⟨"app", []⟩) _ rfl hhome _).1, by decide, rfl⟩

end Reliar.Store.Postgres.Enqueue
