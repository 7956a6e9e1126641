/-
# `Reliar.Outbox.Routing` — one way for each message (`reliar-outbox`: `publisher.rs`,
`staging.rs`; `reliar-core`: `publisher.rs`)

The application's publisher stages a message in the caller's transaction or gives
it to the transport.  Staging, transport and metrics are parameters: each may
answer as it likes and change the world outside, and only staging is given the
transaction.

The calls are recorded as they are made; `Made` says that a record is one of
calls, each with what the parameter answered and left behind.  `RoutedOnce` is
about such a record.
-/
import Reliar.Core.Envelope
import Reliar.Outbox.Policy

namespace Reliar.Core

/-- The default `Publisher::publish_batch`: one `publish` after the other. -/
def publishBatch {σ E : Type} (publish : SerializedEnvelope → σ → Except E Unit × σ) :
    List SerializedEnvelope → σ → List (Except E Unit) × σ
  | [], s => ([], s)
  | envelope :: envelopes, s =>
      let (result, s) := publish envelope s
      let (results, s) := publishBatch publish envelopes s
      (result :: results, s)

end Reliar.Core

namespace Reliar.Outbox

open Reliar.Core

/-! ## `publisher.rs` -/

inductive RouteError (SE PE : Type)
  | stage (err : SE)
  | publish (err : PE)

inductive DirectPublishError (PE : Type)
  | transactionRequired (messageType : MessageType)
  | publish (err : PE)

/-- Staging, transport and metrics, over a transaction of type `Tx` and everything else, `W`. -/
structure OutboxPublisher (Tx W SE PE : Type) where
  stage : SerializedEnvelope → Tx → W → Except SE MessageId × Tx × W
  publish : SerializedEnvelope → W → Except PE Unit × W
  policy : OutboxPolicy
  routed : RouteKind → MessageType → W → W

/-- A call of the staging, the transport or the metrics, with its answer. -/
inductive Call (SE PE : Type)
  | stage (envelope : SerializedEnvelope) (reply : Except SE MessageId)
  | publish (envelope : SerializedEnvelope) (reply : Except PE Unit)
  | routed (route : RouteKind) (messageType : MessageType)

/-- Everything but the transaction, and the calls made so far. -/
structure Outside (W SE PE : Type) where
  world : W
  calls : List (Call SE PE)

/-- `ScopedOutboxPublisher`'s borrow of the transaction, and the rest. -/
structure Scope (Tx W SE PE : Type) where
  tx : Tx
  out : Outside W SE PE

namespace OutboxPublisher

variable {Tx W SE PE : Type} (p : OutboxPublisher Tx W SE PE)

def callStage (envelope : SerializedEnvelope) (s : Scope Tx W SE PE) :
    Except SE MessageId × Scope Tx W SE PE :=
  let (reply, tx, world) := p.stage envelope s.tx s.out.world
  (reply, ⟨tx, ⟨world, s.out.calls ++ [.stage envelope reply]⟩⟩)

def callPublish (envelope : SerializedEnvelope) (s : Outside W SE PE) :
    Except PE Unit × Outside W SE PE :=
  let (reply, world) := p.publish envelope s.world
  (reply, ⟨world, s.calls ++ [.publish envelope reply]⟩)

def callRouted (route : RouteKind) (messageType : MessageType) (s : Outside W SE PE) :
    Outside W SE PE :=
  ⟨p.routed route messageType s.world, s.calls ++ [.routed route messageType]⟩

/-- The `match` of `ScopedOutboxPublisher::publish`. -/
def send (route : RouteKind) (envelope : SerializedEnvelope) (s : Scope Tx W SE PE) :
    Except (RouteError SE PE) Unit × Scope Tx W SE PE :=
  match route with
  | .outbox =>
      let (reply, s) := p.callStage envelope s
      ((reply.map fun _ => ()).mapError .stage, s)
  | .direct =>
      let (reply, out) := p.callPublish envelope s.out
      (reply.mapError .publish, { s with out := out })

/-- `ScopedOutboxPublisher::publish`. -/
def publishScoped (envelope : SerializedEnvelope) (s : Scope Tx W SE PE) :
    Except (RouteError SE PE) Unit × Scope Tx W SE PE :=
  let route := p.policy.decide envelope.messageType
  let (sent, s) := p.send route envelope s
  match sent with
  | .error err => (.error err, s)
  | .ok _ => (.ok (), { s with out := p.callRouted route envelope.messageType s.out })

/-- `OutboxPublisher::publish_direct`. -/
def publishDirect (envelope : SerializedEnvelope) (s : Outside W SE PE) :
    Except (DirectPublishError PE) Unit × Outside W SE PE :=
  let route := p.policy.decide envelope.messageType
  if route.isOutbox then (.error (.transactionRequired envelope.messageType), s)
  else
    let (reply, s) := p.callPublish envelope s
    match reply with
    | .error err => (.error (.publish err), s)
    | .ok _ => (.ok (), p.callRouted route envelope.messageType s)

end OutboxPublisher

/-! ## Routed once -/

section
variable {Tx W SE PE : Type} {p : OutboxPublisher Tx W SE PE}

/-- The calls, made one after the other, take the transaction and the world from here to there.
A transport or metrics call leaves the transaction as it is. -/
inductive Made (p : OutboxPublisher Tx W SE PE) : Tx → W → List (Call SE PE) → Tx → W → Prop
  | nil {tx : Tx} {world : W} : Made p tx world [] tx world
  | stage {tx tx' tx'' : Tx} {world world' world'' : W} {envelope : SerializedEnvelope}
      {reply : Except SE MessageId} {calls : List (Call SE PE)}
      (call : p.stage envelope tx world = (reply, tx', world'))
      (rest : Made p tx' world' calls tx'' world'') :
      Made p tx world (.stage envelope reply :: calls) tx'' world''
  | publish {tx tx'' : Tx} {world world' world'' : W} {envelope : SerializedEnvelope}
      {reply : Except PE Unit} {calls : List (Call SE PE)}
      (call : p.publish envelope world = (reply, world'))
      (rest : Made p tx world' calls tx'' world'') :
      Made p tx world (.publish envelope reply :: calls) tx'' world''
  | routed {tx tx'' : Tx} {world world'' : W} {route : RouteKind} {messageType : MessageType}
      {calls : List (Call SE PE)}
      (rest : Made p tx (p.routed route messageType world) calls tx'' world'') :
      Made p tx world (.routed route messageType :: calls) tx'' world''

theorem Made.append {tx tx' tx'' : Tx} {world world' world'' : W} {calls calls' : List (Call SE PE)}
    (h : Made p tx world calls tx' world') (h' : Made p tx' world' calls' tx'' world'') :
    Made p tx world (calls ++ calls') tx'' world'' := by
  induction h with
  | nil => exact h'
  | stage call _ ih => exact .stage call (ih h')
  | publish call _ ih => exact .publish call (ih h')
  | routed _ ih => exact .routed (ih h')

namespace Call

/-- The message that is staged. -/
def staged : Call SE PE → Option SerializedEnvelope
  | .stage envelope _ => some envelope
  | _ => none

/-- The message the transport is given. -/
def transported : Call SE PE → Option SerializedEnvelope
  | .publish envelope _ => some envelope
  | _ => none

/-- The message sent either way, and what its publisher is to be told. -/
def verdict : Call SE PE → Option (RouteKind × SerializedEnvelope × Except (RouteError SE PE) Unit)
  | .stage envelope reply => some (.outbox, envelope, (reply.map fun _ => ()).mapError .stage)
  | .publish envelope reply => some (.direct, envelope, reply.mapError .publish)
  | .routed _ _ => none

def metric : Call SE PE → Option (RouteKind × MessageType)
  | .routed route messageType => some (route, messageType)
  | _ => none

end Call

/-- What `routed` is to be told of a message with this result. -/
def metricOf (policy : OutboxPolicy) {E : Type} (entry : SerializedEnvelope × Except E Unit) :
    Option (RouteKind × MessageType) :=
  match entry.2 with
  | .ok _ => some (policy.decide entry.1.messageType, entry.1.messageType)
  | .error _ => none

/-- Each message is sent once, the way it is decided, in the order of the list; each result is that
of its message; and the metrics are told of each that went well. -/
structure RoutedOnce (policy : OutboxPolicy) (envelopes : List SerializedEnvelope)
    (results : List (Except (RouteError SE PE) Unit)) (calls : List (Call SE PE)) : Prop where
  positional : results.length = envelopes.length
  staged : calls.filterMap Call.staged =
    envelopes.filter fun e => decide (policy.decide e.messageType = .outbox)
  transported : calls.filterMap Call.transported =
    envelopes.filter fun e => decide (policy.decide e.messageType = .direct)
  verdicts : calls.filterMap Call.verdict =
    envelopes.zipWith (fun e result => (policy.decide e.messageType, e, result)) results
  metrics : calls.filterMap Call.metric = (envelopes.zip results).filterMap (metricOf policy)

theorem RoutedOnce.append {policy : OutboxPolicy} {envelopes envelopes' : List SerializedEnvelope}
    {results results' : List (Except (RouteError SE PE) Unit)} {calls calls' : List (Call SE PE)}
    (h : RoutedOnce policy envelopes results calls)
    (h' : RoutedOnce policy envelopes' results' calls') :
    RoutedOnce policy (envelopes ++ envelopes') (results ++ results') (calls ++ calls') where
  positional := by rw [List.length_append, List.length_append, h.positional, h'.positional]
  staged := by rw [List.filterMap_append, List.filter_append, h.staged, h'.staged]
  transported := by rw [List.filterMap_append, List.filter_append, h.transported, h'.transported]
  verdicts := by
    rw [List.filterMap_append, List.zipWith_append h.positional.symm, h.verdicts, h'.verdicts]
  metrics := by
    rw [List.filterMap_append, List.zip_append h.positional.symm, List.filterMap_append, h.metrics,
      h'.metrics]

/-- A message that was sent one way is not sent the other. -/
theorem Call.way {policy : OutboxPolicy} {call : Call SE PE} {envelope : SerializedEnvelope}
    {result : Except (RouteError SE PE) Unit} (rest : List (Call SE PE))
    (h : call.verdict = some (policy.decide envelope.messageType, envelope, result)) :
    (call :: rest).filterMap Call.staged =
        ([envelope].filter fun e => decide (policy.decide e.messageType = .outbox)) ++
          rest.filterMap Call.staged ∧
      (call :: rest).filterMap Call.transported =
          ([envelope].filter fun e => decide (policy.decide e.messageType = .direct)) ++
            rest.filterMap Call.transported ∧
        call.metric = none := by
  cases call with
  | stage e reply =>
      simp only [Call.verdict, Option.some.injEq, Prod.mk.injEq] at h
      obtain ⟨hroute, rfl, -⟩ := h
      refine ⟨?_, ?_, rfl⟩ <;> rw [List.filter_singleton, ← hroute] <;> rfl
  | publish e reply =>
      simp only [Call.verdict, Option.some.injEq, Prod.mk.injEq] at h
      obtain ⟨hroute, rfl, -⟩ := h
      refine ⟨?_, ?_, rfl⟩ <;> rw [List.filter_singleton, ← hroute] <;> rfl
  | routed r messageType => cases h

theorem RoutedOnce.failed {policy : OutboxPolicy} {envelope : SerializedEnvelope}
    {err : RouteError SE PE} {call : Call SE PE}
    (h : call.verdict = some (policy.decide envelope.messageType, envelope, .error err)) :
    RoutedOnce policy [envelope] [.error err] [call] := by
  obtain ⟨hstaged, htransported, hmetric⟩ := Call.way [] h
  constructor
  · rfl
  · exact hstaged.trans (List.append_nil _)
  · exact htransported.trans (List.append_nil _)
  · rw [List.filterMap_cons, h]
    rfl
  · rw [List.filterMap_cons, hmetric]
    rfl

theorem RoutedOnce.sent {policy : OutboxPolicy} {envelope : SerializedEnvelope}
    {call : Call SE PE}
    (h : call.verdict = some (policy.decide envelope.messageType, envelope, .ok ())) :
    RoutedOnce policy [envelope] [.ok ()]
      [call, .routed (policy.decide envelope.messageType) envelope.messageType] := by
  obtain ⟨hstaged, htransported, hmetric⟩ := Call.way [.routed _ envelope.messageType] h
  constructor
  · rfl
  · exact hstaged.trans (List.append_nil _)
  · exact htransported.trans (List.append_nil _)
  · rw [List.filterMap_cons, h]
    rfl
  · rw [List.filterMap_cons, hmetric]
    rfl

/-- A message that `send` has sent with one call. -/
theorem send_call (route : RouteKind) (envelope : SerializedEnvelope) (s : Scope Tx W SE PE) :
    ∃ call : Call SE PE, (p.send route envelope s).2.out.calls = s.out.calls ++ [call] ∧
      call.verdict = some (route, envelope, (p.send route envelope s).1) ∧
      Made p s.tx s.out.world [call] (p.send route envelope s).2.tx
        (p.send route envelope s).2.out.world := by
  cases route with
  | outbox => exact ⟨_, rfl, rfl, .stage rfl .nil⟩
  | direct => exact ⟨_, rfl, rfl, .publish rfl .nil⟩

/-- One message: its way, and the metrics if it went well. -/
theorem publishScoped_routes (p : OutboxPublisher Tx W SE PE) (envelope : SerializedEnvelope)
    (s : Scope Tx W SE PE) :
    ∃ calls, (p.publishScoped envelope s).2.out.calls = s.out.calls ++ calls ∧
      Made p s.tx s.out.world calls (p.publishScoped envelope s).2.tx
        (p.publishScoped envelope s).2.out.world ∧
      RoutedOnce p.policy [envelope] [(p.publishScoped envelope s).1] calls := by
  obtain ⟨call, hcalls, hverdict, hmade⟩ := send_call (p := p)
    (p.policy.decide envelope.messageType) envelope s
  rcases hsend : p.send (p.policy.decide envelope.messageType) envelope s with ⟨result, after⟩
  rw [hsend] at hcalls hverdict hmade
  cases result with
  | error err =>
      have hpublish : p.publishScoped envelope s = (.error err, after) := by
        simp only [OutboxPublisher.publishScoped, hsend]
      rw [hpublish]
      exact ⟨[call], hcalls, hmade, .failed hverdict⟩
  | ok u =>
      have hpublish : p.publishScoped envelope s = (.ok (), { after with
          out := p.callRouted (p.policy.decide envelope.messageType) envelope.messageType
            after.out }) := by
        simp only [OutboxPublisher.publishScoped, hsend]
      rw [hpublish]
      refine ⟨[call, .routed (p.policy.decide envelope.messageType) envelope.messageType], ?_,
        hmade.append (.routed .nil), .sent hverdict⟩
      exact (congrArg (· ++ _) hcalls).trans (List.append_assoc _ _ _)

/-- The whole batch. -/
theorem publishBatch_routes (p : OutboxPublisher Tx W SE PE) (envelopes : List SerializedEnvelope)
    (s : Scope Tx W SE PE) :
    ∃ calls, (publishBatch p.publishScoped envelopes s).2.out.calls = s.out.calls ++ calls ∧
      Made p s.tx s.out.world calls (publishBatch p.publishScoped envelopes s).2.tx
        (publishBatch p.publishScoped envelopes s).2.out.world ∧
      RoutedOnce p.policy envelopes (publishBatch p.publishScoped envelopes s).1 calls := by
  induction envelopes generalizing s with
  | nil => exact ⟨[], (List.append_nil _).symm, .nil, ⟨rfl, rfl, rfl, rfl, rfl⟩⟩
  | cons envelope envelopes ih =>
      obtain ⟨calls, hcalls, hmade, honce⟩ := publishScoped_routes p envelope s
      obtain ⟨rest, hrest, hmade', honce'⟩ := ih (p.publishScoped envelope s).2
      refine ⟨calls ++ rest, ?_, hmade.append hmade', honce.append honce'⟩
      exact hrest.trans ((congrArg (· ++ rest) hcalls).trans (List.append_assoc _ _ _))

/-- For a type that routes through the outbox nothing is called.  For any other the transport is
called once, and the metrics if it went well. -/
theorem publishDirect_routes (p : OutboxPublisher Tx W SE PE) (envelope : SerializedEnvelope)
    (s : Outside W SE PE) (tx : Tx) :
    ∃ calls, (p.publishDirect envelope s).2.calls = s.calls ++ calls ∧
      Made p tx s.world calls tx (p.publishDirect envelope s).2.world ∧
      calls.filterMap Call.staged = [] ∧
      (p.policy.decide envelope.messageType = .outbox → calls = [] ∧
        (p.publishDirect envelope s).1 = .error (.transactionRequired envelope.messageType)) ∧
      (p.policy.decide envelope.messageType = .direct →
        calls.filterMap Call.transported = [envelope]) ∧
      calls.filterMap Call.metric =
        (metricOf p.policy (envelope, (p.publishDirect envelope s).1)).toList := by
  unfold OutboxPublisher.publishDirect
  cases hroute : p.policy.decide envelope.messageType with
  | outbox =>
      refine ⟨[], (List.append_nil _).symm, .nil, rfl, fun _ => ⟨rfl, rfl⟩, ?_, rfl⟩
      intro hdirect
      cases hdirect
  | direct =>
      rcases hcall : p.publish envelope s.world with ⟨reply, world⟩
      have hpublish : p.callPublish envelope s =
          (reply, ⟨world, s.calls ++ [.publish envelope reply]⟩) := by
        rw [OutboxPublisher.callPublish, hcall]
      simp only [RouteKind.isOutbox, Bool.false_eq_true, if_false, hpublish]
      cases reply with
      | error err =>
          refine ⟨_, rfl, .publish hcall .nil, rfl, ?_, fun _ => rfl, rfl⟩
          intro houtbox
          cases houtbox
      | ok u =>
          refine ⟨_, List.append_assoc _ _ _, .publish hcall (.routed .nil), rfl, ?_,
            fun _ => rfl, by rw [metricOf, hroute]; rfl⟩
          intro houtbox
          cases houtbox

/-- For every policy, staging, transport and metrics, every transaction, batch and message: a batch
is routed once, and a direct publish stages nothing and gives the transport nothing that routes
through the outbox. -/
theorem routing_exactly_one (p : OutboxPublisher Tx W SE PE) (s : Scope Tx W SE PE)
    (envelopes : List SerializedEnvelope) (envelope : SerializedEnvelope) :
    (∃ calls, (publishBatch p.publishScoped envelopes s).2.out.calls = s.out.calls ++ calls ∧
      Made p s.tx s.out.world calls (publishBatch p.publishScoped envelopes s).2.tx
        (publishBatch p.publishScoped envelopes s).2.out.world ∧
      RoutedOnce p.policy envelopes (publishBatch p.publishScoped envelopes s).1 calls) ∧
    ∃ calls, (p.publishDirect envelope s.out).2.calls = s.out.calls ++ calls ∧
      Made p s.tx s.out.world calls s.tx (p.publishDirect envelope s.out).2.world ∧
      calls.filterMap Call.staged = [] ∧
      (p.policy.decide envelope.messageType = .outbox →
        calls.filterMap Call.transported = [] ∧
          (p.publishDirect envelope s.out).1 =
            .error (.transactionRequired envelope.messageType)) := by
  refine ⟨publishBatch_routes p envelopes s, ?_⟩
  obtain ⟨calls, hcalls, hmade, hstaged, hrouted, -⟩ := publishDirect_routes p envelope s.out s.tx
  refine ⟨calls, hcalls, hmade, hstaged, fun houtbox => ?_⟩
  obtain ⟨rfl, herror⟩ := hrouted houtbox
  exact ⟨rfl, herror⟩

end

end Reliar.Outbox
