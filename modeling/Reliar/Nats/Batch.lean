/-
# `Reliar.Nats.Batch` — a batch and its verdicts (`reliar-transport-nats`: `publisher.rs`'s
`publish_batch`)

A batch is prepared envelope by envelope, then sent window by window: every send
of a window first, then their acks.  Failures are recorded out of order, each
with its index, and one sort at the end puts the verdicts in their places.

The broker and the clock are a parameter, `Network`: any answer to any call, and
any change of the world.  A run keeps the log of its calls, and what a batch
promises is said about that log (`Positional`).  Here are the windows: every
message sent has its result, and no window is wider than the depth.
-/
import Reliar.Core.Clock
import Reliar.Nats.Publisher

namespace Reliar.Nats

open Reliar.Core

/-! ## What the broker answers -/

/-- `async_nats::jetstream::context::PublishErrorKind`. -/
inductive PublishErrorKind
  | streamNotFound
  | wrongLastMessageId
  | wrongLastSequence
  | timedOut
  | brokenPipe
  | maxAckPending
  | maxPayloadExceeded
  | other
  deriving DecidableEq, Repr

/-- What `timeout_at` gives: the future's own result, or that the deadline came first. -/
inductive Awaited
  | ready (result : Except PublishErrorKind Unit)
  | elapsed

/-- The errors of `NatsPublishError` that a send or its ack gives. -/
inductive NatsIoError
  | maxPayloadExceeded (subject : String)
  | wrongLastMessage (subject : String)
  | timeout (subject : String) (afterMs : Nat)
  | connection (subject : String)
  | streamNotFound (subject : String)
  | maxAckPending (subject : String)
  | broker (subject : String)
  deriving DecidableEq, Repr

/-- `NatsPublishError`, by where it comes from. -/
inductive PublishError (E : Type)
  | prepare (err : NatsPublishError E)
  | io (err : NatsIoError)

abbrev Verdict (E : Type) := Except (PublishError E) Unit

/-- `elapsed_ms`, at the instant `now`. -/
def elapsedMs (start now : Instant) : Nat := min (Duration.asMillis (now - start)) (2 ^ 64 - 1)

/-- `classify_publish_error`. -/
def classifyPublishError (subject : String) (kind : PublishErrorKind) (start now : Instant) :
    NatsIoError :=
  match kind with
  | .streamNotFound => .streamNotFound subject
  | .wrongLastMessageId | .wrongLastSequence => .wrongLastMessage subject
  | .timedOut => .timeout subject (elapsedMs start now)
  | .brokenPipe => .connection subject
  | .maxAckPending => .maxAckPending subject
  | .maxPayloadExceeded => .maxPayloadExceeded subject
  | .other => .broker subject

/-- The match that `issue_window_sends` makes on a send and `await_window_acks` on an ack. -/
def settle (subject : String) (start now : Instant) : Awaited → Except NatsIoError Unit
  | .ready (.ok ()) => .ok ()
  | .ready (.error kind) => .error (classifyPublishError subject kind start now)
  | .elapsed => .error (.timeout subject (elapsedMs start now))

/-- The clock and the broker.  A `PublishAckFuture` is the number of the send that gave it. -/
structure Network (σ : Type) where
  now : σ → Instant
  publishWithHeaders : Instant → String → NatsWireMessage → σ → Awaited × σ
  ack : Instant → Nat → σ → Awaited × σ

/-! ## The log of a run -/

/-- A call of a batch that has ended, in a window that began at `start`. -/
inductive Event
  | send (subject : String) (wire : NatsWireMessage) (start now : Instant) (reply : Awaited)
  | ack (call : Nat) (start now : Instant) (reply : Awaited)

/-- A send and its result. -/
structure Sent where
  subject : String
  wire : NatsWireMessage
  result : Except NatsIoError Unit

/-- The sends of a log.  A send's number is its place here. -/
def sends (log : List Event) : List Sent :=
  log.filterMap fun event =>
    match event with
    | .send subject wire start now reply => some ⟨subject, wire, settle subject start now reply⟩
    | .ack _ _ _ _ => none

/-- The numbers of the sends whose ack has been awaited. -/
def acked (log : List Event) : List Nat :=
  log.filterMap fun event =>
    match event with
    | .send _ _ _ _ _ => none
    | .ack call _ _ _ => some call

/-- The numbers of the sends that were accepted and whose ack is still to come. -/
def awaiting (log : List Event) : List Nat :=
  ((sends log).zipIdx.filterMap fun x => x.1.result.toOption.map fun _ => x.2).filter
    fun call => call ∉ acked log

/-- What the first ack of send number `call` gave. -/
def ackResult (subject : String) (call : Nat) (log : List Event) :
    Option (Except NatsIoError Unit) :=
  log.findSome? fun event =>
    match event with
    | .send _ _ _ _ _ => none
    | .ack call' start now reply =>
        if call' = call then some (settle subject start now reply) else none

/-- The result of a send: its own error, or what its ack gave. -/
def resultOf (log : List Event) (call : Nat) : Option (Except NatsIoError Unit) :=
  (sends log)[call]?.bind fun sent =>
    match sent.result with
    | .error err => some (.error err)
    | .ok () => ackResult sent.subject call log

/-- The world, and the calls made so far. -/
structure Run (σ : Type) where
  world : σ
  log : List Event

/-! ## The batch -/

section
variable {R : Type} [SubjectResolver R] {σ : Type}

/-- A prepared envelope, under its index. -/
structure Prepared where
  index : Nat
  subject : String
  wire : NatsWireMessage

/-- A send that was made: the future to await, or the error. -/
structure Issued where
  index : Nat
  subject : String
  outcome : Except NatsIoError Nat

/-- The loop that prepares: the failures and the messages, or nothing if `prepare` panics. -/
def prepareAll (c : Codec) (publisher : NatsPublisher R) : List SerializedEnvelope → Nat →
    Option (List (Nat × Verdict (SubjectResolver.Error R)) × List Prepared)
  | [], _ => some ([], [])
  | envelope :: envelopes, i =>
      match prepare c publisher envelope with
      | .error .panic => none
      | .error (.error err) =>
          (prepareAll c publisher envelopes (i + 1)).map fun rest =>
            ((i, .error (.prepare err)) :: rest.1, rest.2)
      | .ok (subject, wire) =>
          (prepareAll c publisher envelopes (i + 1)).map fun rest =>
            (rest.1, ⟨i, subject, wire⟩ :: rest.2)

/-- `issue_window_sends`. -/
def issueWindowSends (network : Network σ) (deadline start : Instant) :
    List Prepared → Run σ → List Issued × Run σ
  | [], run => ([], run)
  | message :: window, run =>
      let answer := network.publishWithHeaders deadline message.subject message.wire run.world
      let now := network.now answer.2
      let outcome := (settle message.subject start now answer.1).map fun _ => (sends run.log).length
      let rest := issueWindowSends network deadline start window
        ⟨answer.2, run.log ++ [.send message.subject message.wire start now answer.1]⟩
      (⟨message.index, message.subject, outcome⟩ :: rest.1, rest.2)

/-- `await_window_acks`. -/
def awaitWindowAcks (network : Network σ) (deadline start : Instant) :
    List Issued → Run σ → List (Nat × Except NatsIoError Unit) × Run σ
  | [], run => ([], run)
  | issued :: sent, run =>
      match issued.outcome with
      | .error err =>
          let rest := awaitWindowAcks network deadline start sent run
          ((issued.index, .error err) :: rest.1, rest.2)
      | .ok call =>
          let answer := network.ack deadline call run.world
          let now := network.now answer.2
          let rest := awaitWindowAcks network deadline start sent
            ⟨answer.2, run.log ++ [.ack call start now answer.1]⟩
          ((issued.index, settle issued.subject start now answer.1) :: rest.1, rest.2)

/-- The result of a send, under its index, as a verdict. -/
def verdict {E : Type} (x : Nat × Except NatsIoError Unit) : Nat × Verdict E :=
  (x.1, x.2.mapError .io)

/-- How a batch ends. -/
inductive Ending (A : Type)
  | returned (result : A)
  | panicked

/-- The `while` loop over the windows; nothing if the fuel runs out. -/
def sendWindows {E : Type} (settings : NatsSettings) (network : Network σ) :
    Nat → List Prepared → List (Nat × Verdict E) → Run σ →
      Option (Ending (List (Nat × Verdict E)) × Run σ)
  | _, [], outcomes, run => some (.returned outcomes, run)
  | 0, _ :: _, _, _ => none
  | fuel + 1, message :: rest, outcomes, run =>
      let prepared := message :: rest
      let take := min prepared.length settings.batchPipelineDepth
      let start := network.now run.world
      match Instant.add start settings.publishTimeout with
      | none => some (.panicked, run)
      | some deadline =>
          let issued := issueWindowSends network deadline start (prepared.take take) run
          let settled := awaitWindowAcks network deadline start issued.1 issued.2
          sendWindows settings network fuel (prepared.drop take)
            (outcomes ++ settled.1.map verdict) settled.2

/-- `NatsPublisher::publish_batch`. -/
def publishBatch (c : Codec) (publisher : NatsPublisher R) (network : Network σ) (fuel : Nat)
    (envelopes : List SerializedEnvelope) (world : σ) :
    Option (Ending (List (Verdict (SubjectResolver.Error R))) × Run σ) :=
  match prepareAll c publisher envelopes 0 with
  | none => some (.panicked, ⟨world, []⟩)
  | some (failures, prepared) =>
      match sendWindows publisher.settings network fuel prepared failures ⟨world, []⟩ with
      | none => none
      | some (.panicked, run) => some (.panicked, run)
      | some (.returned outcomes, run) =>
          some (.returned ((outcomes.insertionSort fun a b => a.1 ≤ b.1).map Prod.snd), run)

end

/-! ## What a batch promises -/

/-- The message of an envelope that is prepared. -/
def ready {R : Type} [SubjectResolver R] (c : Codec) (publisher : NatsPublisher R)
    (envelope : SerializedEnvelope) : Option (String × NatsWireMessage) :=
  (prepare c publisher envelope).toOption

/-- The verdicts of a batch, against the log of its calls: each envelope has its own, every prepared
one was sent once, in the order of the list, and no more sends than the depth allows await their
ack at any time. -/
structure Positional {R : Type} [SubjectResolver R] (c : Codec) (publisher : NatsPublisher R)
    (envelopes : List SerializedEnvelope) (log : List Event)
    (verdicts : List (Verdict (SubjectResolver.Error R))) : Prop where
  length : verdicts.length = envelopes.length
  failed : ∀ (i : Nat) (e : SerializedEnvelope) (err : NatsPublishError (SubjectResolver.Error R)),
    envelopes[i]? = some e → prepare c publisher e = .error (.error err) →
      verdicts[i]? = some (.error (.prepare err))
  sent : ∀ (i : Nat) (e : SerializedEnvelope) (message : String × NatsWireMessage),
    envelopes[i]? = some e → prepare c publisher e = .ok message →
      ∃ result, resultOf log ((envelopes.take i).filterMap (ready c publisher)).length =
          some result ∧
        verdicts[i]? = some (result.mapError .io)
  once : (sends log).map (fun sent => (sent.subject, sent.wire)) =
    envelopes.filterMap (ready c publisher)
  window : ∀ before, before <+: log →
    (awaiting before).length ≤ publisher.settings.batchPipelineDepth

/-! ## The log, call by call -/

section
variable {log : List Event} {subject : String} {wire : NatsWireMessage} {start now : Instant}
  {reply : Awaited} {call : Nat}

theorem sends_append (log more : List Event) : sends (log ++ more) = sends log ++ sends more :=
  List.filterMap_append

@[simp] theorem sends_send :
    sends (log ++ [.send subject wire start now reply]) =
      sends log ++ [⟨subject, wire, settle subject start now reply⟩] := by
  simp [sends]

@[simp] theorem sends_ack : sends (log ++ [.ack call start now reply]) = sends log := by
  simp [sends]

@[simp] theorem acked_send : acked (log ++ [.send subject wire start now reply]) = acked log := by
  simp [acked]

@[simp] theorem acked_ack : acked (log ++ [.ack call start now reply]) = acked log ++ [call] := by
  simp [acked]

/-- An ack is always of a send that was made before it. -/
def Numbered (log : List Event) : Prop := ∀ call ∈ acked log, call < (sends log).length

/-- An accepted send awaits its ack from then on. -/
theorem awaiting_send (h : Numbered log) :
    awaiting (log ++ [.send subject wire start now reply]) =
      awaiting log ++ ((settle subject start now reply).toOption.map
        fun _ => (sends log).length).toList := by
  have hfresh : (sends log).length ∉ acked log := fun hmem => absurd (h _ hmem) (Nat.lt_irrefl _)
  simp only [awaiting, sends_send, acked_send, List.zipIdx_append, List.filterMap_append,
    List.filter_append]
  congr 1
  cases hreply : settle subject start now reply with
  | error err => simp [Except.toOption]
  | ok u => simp [Except.toOption, hfresh]

theorem awaiting_ack :
    awaiting (log ++ [.ack call start now reply]) = (awaiting log).filter (· ≠ call) := by
  simp only [awaiting, sends_ack, acked_ack, List.filter_filter]
  refine List.filter_congr fun k _ => ?_
  simp [not_or, and_comm]

theorem ackResult_none (h : call ∉ acked log) : ackResult subject call log = none := by
  simp only [ackResult, List.findSome?_eq_none_iff]
  intro event hevent
  cases event with
  | send => rfl
  | ack call' start now reply =>
    have hne : call' ≠ call := by
      rintro rfl
      exact h (List.mem_filterMap.mpr ⟨_, hevent, rfl⟩)
    simp [hne]

theorem Numbered.send (h : Numbered log) :
    Numbered (log ++ [.send subject wire start now reply]) := by
  intro k hk
  rw [acked_send] at hk
  rw [sends_send, List.length_append]
  exact Nat.lt_add_right _ (h k hk)

theorem Numbered.ack (h : Numbered log) (hcall : call < (sends log).length) :
    Numbered (log ++ [.ack call start now reply]) := by
  intro k hk
  rw [acked_ack] at hk
  rw [sends_ack]
  rcases List.mem_append.mp hk with hk | hk
  · exact h k hk
  · rw [List.mem_singleton.mp hk]
    exact hcall

end

/-- No more sends than `depth` await their ack, at any time. -/
def Bounded (depth : Nat) (log : List Event) : Prop :=
  ∀ before, before <+: log → (awaiting before).length ≤ depth

theorem Bounded.concat {depth : Nat} {log : List Event} {event : Event} (h : Bounded depth log)
    (hnext : (awaiting (log ++ [event])).length ≤ depth) : Bounded depth (log ++ [event]) := by
  intro before hbefore
  rcases List.prefix_concat_iff.mp hbefore with rfl | hbefore
  · exact hnext
  · exact h before hbefore

/-- The result of a send is settled once and for all. -/
theorem resultOf_mono {log log' : List Event} {call : Nat} {result : Except NatsIoError Unit}
    (hle : log <+: log') (h : resultOf log call = some result) :
    resultOf log' call = some result := by
  obtain ⟨more, rfl⟩ := hle
  obtain ⟨sent, hsent, hresult⟩ := Option.bind_eq_some_iff.mp h
  refine Option.bind_eq_some_iff.mpr ⟨sent, ?_, ?_⟩
  · rw [sends_append, List.getElem?_append_left (List.getElem?_eq_some_iff.mp hsent).1]
    exact hsent
  · cases hown : sent.result with
    | error err => simpa [hown] using hresult
    | ok u =>
      simp only [hown] at hresult ⊢
      rw [ackResult, List.findSome?_append, ← ackResult, hresult, Option.some_or]

/-! ## One window -/

/-- The futures a window's sends gave. -/
def futures (issued : List Issued) : List Nat := issued.filterMap fun x => x.outcome.toOption

/-- The sends of a window stand in the log from number `call` on. -/
inductive Opened (log : List Event) : Nat → List Prepared → List Issued → Prop
  | nil (call : Nat) : Opened log call [] []
  | cons {call : Nat} {message : Prepared} {window : List Prepared} {issued : List Issued}
      {result : Except NatsIoError Unit}
      (hsent : (sends log)[call]? = some ⟨message.subject, message.wire, result⟩)
      (rest : Opened log (call + 1) window issued) :
      Opened log call (message :: window)
        (⟨message.index, message.subject, result.map fun _ => call⟩ :: issued)

/-- Each message has the result of the send that stands for it in the log. -/
inductive Judged (log : List Event) :
    Nat → List Prepared → List (Nat × Except NatsIoError Unit) → Prop
  | nil (call : Nat) : Judged log call [] []
  | cons {call : Nat} {message : Prepared} {prepared : List Prepared}
      {results : List (Nat × Except NatsIoError Unit)} {result : Except NatsIoError Unit}
      (hresult : resultOf log call = some result) (rest : Judged log (call + 1) prepared results) :
      Judged log call (message :: prepared) ((message.index, result) :: results)

theorem Judged.append {log : List Event} {call : Nat} {prepared more : List Prepared}
    {results others : List (Nat × Except NatsIoError Unit)} (h : Judged log call prepared results)
    (hmore : Judged log (call + prepared.length) more others) :
    Judged log call (prepared ++ more) (results ++ others) := by
  induction h with
  | nil call => exact hmore
  | cons hresult _ ih =>
    refine .cons hresult (ih ?_)
    rw [List.length_cons, Nat.add_comm _ 1, ← Nat.add_assoc] at hmore
    exact hmore

theorem Judged.mono {log log' : List Event} {call : Nat} {prepared : List Prepared}
    {results : List (Nat × Except NatsIoError Unit)} (hle : log <+: log')
    (h : Judged log call prepared results) : Judged log' call prepared results := by
  induction h with
  | nil call => exact .nil call
  | cons hresult _ ih => exact .cons (resultOf_mono hle hresult) ih

theorem Opened.le_futures {log : List Event} {call : Nat} {window : List Prepared}
    {issued : List Issued} (h : Opened log call window issued) : ∀ k ∈ futures issued, call ≤ k := by
  induction h with
  | nil call => intro k hk; cases hk
  | @cons call message window issued result _ _ ih =>
    intro k hk
    cases result with
    | error err => exact Nat.le_of_succ_le (ih k hk)
    | ok u =>
      rcases List.mem_cons.mp hk with rfl | hk
      · exact Nat.le_refl _
      · exact Nat.le_of_succ_le (ih k hk)

/-- What the sends of a window leave behind. -/
structure Issues (depth : Nat) (before : List Event) (window : List Prepared)
    (issued : List Issued) (after : List Event) : Prop where
  grows : before <+: after
  numbered : Numbered after
  bounded : Bounded depth after
  acked : acked after = acked before
  messages : (sends after).map (fun sent => (sent.subject, sent.wire)) =
    (sends before).map (fun sent => (sent.subject, sent.wire)) ++
      window.map fun message => (message.subject, message.wire)
  awaiting : awaiting after = awaiting before ++ futures issued
  opened : Opened after (sends before).length window issued

section
variable {σ : Type} {network : Network σ} {deadline start : Instant} {depth : Nat}

theorem issueWindowSends_issues (window : List Prepared) (run : Run σ)
    (hnumbered : Numbered run.log) (hbounded : Bounded depth run.log)
    (hroom : (awaiting run.log).length + window.length ≤ depth) :
    Issues depth run.log window (issueWindowSends network deadline start window run).1
      (issueWindowSends network deadline start window run).2.log := by
  induction window generalizing run with
  | nil =>
    exact ⟨List.prefix_refl _, hnumbered, hbounded, rfl, by simp [issueWindowSends],
      by simp [issueWindowSends, futures], .nil _⟩
  | cons message window ih =>
    simp only [issueWindowSends]
    generalize network.publishWithHeaders deadline message.subject message.wire run.world = answer
    -- one send adds at most one future to those awaited
    have hone : awaiting (run.log ++ [.send message.subject message.wire start
          (network.now answer.2) answer.1]) = awaiting run.log ++
        ((settle message.subject start (network.now answer.2) answer.1).toOption.map
          fun _ => (sends run.log).length).toList :=
      awaiting_send hnumbered
    have hlength : ((settle message.subject start (network.now answer.2) answer.1).toOption.map
        fun _ => (sends run.log).length).toList.length ≤ 1 := by
      cases settle message.subject start (network.now answer.2) answer.1 <;> simp [Except.toOption]
    rw [List.length_cons] at hroom
    have rest := ih ⟨answer.2, run.log ++ [.send message.subject message.wire start
      (network.now answer.2) answer.1]⟩ hnumbered.send
      (hbounded.concat (by rw [hone, List.length_append]; lia))
      (by simp only [hone, List.length_append]; lia)
    refine ⟨(List.prefix_append _ _).trans rest.grows, rest.numbered, rest.bounded,
      rest.acked.trans acked_send, ?_, ?_, ?_⟩
    · rw [rest.messages, sends_send]
      simp
    · rw [rest.awaiting, hone, List.append_assoc]
      congr 1
      cases settle message.subject start (network.now answer.2) answer.1 <;>
        simp [futures, Except.toOption, Except.map]
    · have hopened := rest.opened
      simp only [sends_send, List.length_append, List.length_singleton] at hopened
      refine .cons ?_ hopened
      obtain ⟨more, hmore⟩ := rest.grows
      rw [← hmore, sends_append, sends_send]
      simp

variable (network deadline start) in
/-- After the acks of a window nothing is awaited, and every send of it has its result. -/
theorem awaitWindowAcks_judged {log : List Event} {call : Nat} {window : List Prepared}
    {issued : List Issued} (hopened : Opened log call window issued) (run : Run σ)
    (hsends : sends run.log = sends log) (hnumbered : Numbered run.log)
    (hbounded : Bounded depth run.log) (hfresh : ∀ k ∈ acked run.log, k < call)
    (hawaiting : awaiting run.log = futures issued) :
    let settled := awaitWindowAcks network deadline start issued run
    run.log <+: settled.2.log ∧ Numbered settled.2.log ∧ Bounded depth settled.2.log ∧
      sends settled.2.log = sends run.log ∧ awaiting settled.2.log = [] ∧
      Judged settled.2.log call window settled.1 := by
  induction hopened generalizing run with
  | nil call =>
    exact ⟨List.prefix_refl _, hnumbered, hbounded, rfl, hawaiting, .nil call⟩
  | @cons call message window issued result hsent hrest ih =>
    have hentry : (sends run.log)[call]? = some ⟨message.subject, message.wire, result⟩ :=
      hsends ▸ hsent
    cases result with
    | error err =>
      -- the send failed: nothing to await, and the verdict is known
      obtain ⟨hle, hnum, hbound, hsame, hidle, hjudged⟩ := ih run hsends hnumbered hbounded
        (fun k hk => Nat.lt_succ_of_lt (hfresh k hk)) hawaiting
      refine ⟨hle, hnum, hbound, hsame, hidle, .cons ?_ hjudged⟩
      refine resultOf_mono hle ?_
      simp only [resultOf, hentry, Option.bind_some]
    | ok u =>
      simp only [awaitWindowAcks, Except.map]
      generalize network.ack deadline call run.world = answer
      let run₁ : Run σ := ⟨answer.2, run.log ++ [.ack call start (network.now answer.2) answer.1]⟩
      have hlt : call < (sends run.log).length := (List.getElem?_eq_some_iff.mp hentry).1
      have hawaiting₁ : awaiting run₁.log = futures issued := by
        show awaiting (run.log ++ _) = _
        rw [awaiting_ack, hawaiting]
        show (call :: futures issued).filter _ = _
        rw [List.filter_cons_of_neg (by simp), List.filter_eq_self]
        intro k hk
        have := hrest.le_futures k hk
        simp only [decide_eq_true_eq]
        lia
      have hbounded₁ : Bounded depth run₁.log := by
        refine hbounded.concat ?_
        have hnow := hbounded run.log (List.prefix_refl _)
        rw [awaiting_ack]
        exact le_trans (List.length_filter_le _ _) hnow
      have hfresh₁ : ∀ k ∈ acked run₁.log, k < call + 1 := by
        intro k hk
        rcases List.mem_append.mp (acked_ack ▸ hk) with hk | hk
        · exact Nat.lt_succ_of_lt (hfresh k hk)
        · rw [List.mem_singleton.mp hk]
          exact Nat.lt_succ_self call
      have hresult : resultOf run₁.log call =
          some (settle message.subject start (network.now answer.2) answer.1) := by
        have hnone : ackResult message.subject call run.log = none :=
          ackResult_none fun hmem => absurd (hfresh call hmem) (Nat.lt_irrefl _)
        have hfirst : ackResult message.subject call run₁.log =
            some (settle message.subject start (network.now answer.2) answer.1) := by
          rw [ackResult, List.findSome?_append, ← ackResult, hnone]
          simp
        rw [resultOf, sends_ack, hentry]
        exact hfirst
      obtain ⟨hle, hnum, hbound, hsame, hidle, hjudged⟩ := ih run₁ (sends_ack.trans hsends)
        (hnumbered.ack hlt) hbounded₁ hfresh₁ hawaiting₁
      exact ⟨(List.prefix_append _ _).trans hle, hnum, hbound, hsame.trans sends_ack, hidle,
        .cons (resultOf_mono hle hresult) hjudged⟩

/-! ## All windows -/

/-- The loop over the windows ends, after no more windows than there are messages, and every
message has its result. -/
theorem sendWindows_judged {E : Type} {settings : NatsSettings} {horizon : Instant}
    (hdepth : settings.batchPipelineDepth ≠ 0) (hclock : ∀ s, network.now s ≤ horizon)
    (prepared : List Prepared)
    (hfits : prepared ≠ [] → horizon + settings.publishTimeout ≤ Instant.MAX) (run : Run σ)
    (hnumbered : Numbered run.log) (hbounded : Bounded settings.batchPipelineDepth run.log)
    (hidle : awaiting run.log = []) :
    ∃ results run', (∀ fuel, prepared.length ≤ fuel → ∀ outcomes : List (Nat × Verdict E),
        sendWindows settings network fuel prepared outcomes run =
          some (.returned (outcomes ++ results.map verdict), run')) ∧
      run.log <+: run'.log ∧ Bounded settings.batchPipelineDepth run'.log ∧
      (sends run'.log).map (fun sent => (sent.subject, sent.wire)) =
        (sends run.log).map (fun sent => (sent.subject, sent.wire)) ++
          prepared.map (fun message => (message.subject, message.wire)) ∧
      Judged run'.log (sends run.log).length prepared results := by
  -- on the number of messages left: a window takes at least one
  generalize hn : prepared.length = n
  induction n using Nat.strong_induction_on generalizing prepared run with
  | _ n ih =>
    cases prepared with
    | nil =>
      refine ⟨[], run, ?_, List.prefix_refl _, hbounded, by simp, .nil _⟩
      intro fuel _ outcomes
      cases fuel <;> simp [sendWindows]
    | cons message rest =>
      have hfits' := hfits (List.cons_ne_nil _ _)
      let take := min (message :: rest).length settings.batchPipelineDepth
      let start := network.now run.world
      let deadline := start + settings.publishTimeout
      have hdeadline : Instant.add (network.now run.world) settings.publishTimeout =
          some deadline := by
        refine Instant.add_some ?_
        have := hclock run.world
        lia
      have htake : 1 ≤ take := by
        simp only [take, List.length_cons]
        lia
      let issued := issueWindowSends network deadline start ((message :: rest).take take) run
      let settled := awaitWindowAcks network deadline start issued.1 issued.2
      have hissues : Issues settings.batchPipelineDepth run.log ((message :: rest).take take)
          issued.1 issued.2.log := by
        refine issueWindowSends_issues _ run hnumbered hbounded ?_
        rw [hidle, List.length_nil, List.length_take]
        simp only [take]
        lia
      obtain ⟨hgrows, hnum, hbound, hsame, hnone, hjudged⟩ :=
        awaitWindowAcks_judged network deadline start hissues.opened issued.2 rfl
          hissues.numbered hissues.bounded (fun k hk => hnumbered k (hissues.acked ▸ hk))
          (by rw [hissues.awaiting, hidle]; rfl)
      have hlength : ((message :: rest).drop take).length < n := by
        rw [List.length_drop, hn]
        have : 1 ≤ n := by rw [← hn]; simp
        lia
      obtain ⟨results, run', hrun, hgrows', hbound', hmessages, hjudged'⟩ :=
        ih _ hlength ((message :: rest).drop take) (fun _ => hfits') settled.2 hnum hbound hnone rfl
      have hmore : (sends settled.2.log).map (fun sent => (sent.subject, sent.wire)) =
          (sends run.log).map (fun sent => (sent.subject, sent.wire)) ++
            ((message :: rest).take take).map fun message => (message.subject, message.wire) := by
        rw [hsame]
        exact hissues.messages
      refine ⟨settled.1 ++ results, run', ?_, ?_, hbound', ?_, ?_⟩
      · intro fuel hfuel outcomes
        cases fuel with
        | zero => simp at hfuel; lia
        | succ fuel =>
          have hnext := hrun fuel (by lia) (outcomes ++ settled.1.map verdict)
          simp only [sendWindows, hdeadline]
          rw [List.map_append, ← List.append_assoc]
          exact hnext
      · exact hissues.grows.trans (hgrows.trans hgrows')
      · rw [hmessages, hmore, List.append_assoc, ← List.map_append, List.take_append_drop]
      · have hcount : (sends settled.2.log).length =
            (sends run.log).length + ((message :: rest).take take).length := by
          have := congrArg List.length hmore
          simpa only [List.length_append, List.length_map] using this
        have happend := (hjudged.mono hgrows').append (hcount ▸ hjudged')
        rwa [List.take_append_drop] at happend

end

end Reliar.Nats
