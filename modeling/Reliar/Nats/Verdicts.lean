/-
# `Reliar.Nats.Verdicts` — the verdicts of a batch, one for each envelope
(`reliar-transport-nats`: `publisher.rs`'s `publish_batch`)

What a batch records carries indices out of order: first the failures of
`prepare`, then the windows.  It is a rearrangement of one verdict for each
envelope (`prepareAll_tagged`), and the sort brings it back.  `publish_batch_iff`
says for which batches there is anything to sort: a panic of `encode`, or of the
deadline, leaves no verdict at all.
-/
import Reliar.Nats.Batch
import Reliar.Nats.Timestamps
import Reliar.Lib.SortBy

namespace Reliar.Nats

open Reliar.Core

/-! ## The envelopes and their verdicts -/

section
variable {R : Type} [SubjectResolver R] {c : Codec} {publisher : NatsPublisher R}

/-- The verdicts of a list of envelopes under their indices, from index `i` and send `call` on. -/
inductive Tagged (c : Codec) (publisher : NatsPublisher R) (log : List Event) :
    Nat → Nat → List SerializedEnvelope → List (Nat × Verdict (SubjectResolver.Error R)) → Prop
  | nil (i call : Nat) : Tagged c publisher log i call [] []
  | failed {i call : Nat} {e : SerializedEnvelope} {envelopes : List SerializedEnvelope}
      {verdicts : List (Nat × Verdict (SubjectResolver.Error R))}
      {err : NatsPublishError (SubjectResolver.Error R)}
      (hprepare : prepare c publisher e = .error (.error err))
      (rest : Tagged c publisher log (i + 1) call envelopes verdicts) :
      Tagged c publisher log i call (e :: envelopes) ((i, .error (.prepare err)) :: verdicts)
  | sent {i call : Nat} {e : SerializedEnvelope} {envelopes : List SerializedEnvelope}
      {verdicts : List (Nat × Verdict (SubjectResolver.Error R))}
      {message : String × NatsWireMessage} {result : Except NatsIoError Unit}
      (hprepare : prepare c publisher e = .ok message) (hresult : resultOf log call = some result)
      (rest : Tagged c publisher log (i + 1) (call + 1) envelopes verdicts) :
      Tagged c publisher log i call (e :: envelopes) (verdict (i, result) :: verdicts)

namespace Tagged

variable {log : List Event} {i call : Nat} {envelopes : List SerializedEnvelope}
  {verdicts : List (Nat × Verdict (SubjectResolver.Error R))}

theorem indices (h : Tagged c publisher log i call envelopes verdicts) :
    verdicts.map Prod.fst = List.range' i envelopes.length := by
  induction h with
  | nil => rfl
  | failed _ _ ih => rw [List.map_cons, ih]; rfl
  | sent _ _ _ ih => rw [List.map_cons, ih]; rfl

theorem failed_at (h : Tagged c publisher log i call envelopes verdicts) {j : Nat}
    {e : SerializedEnvelope} {err : NatsPublishError (SubjectResolver.Error R)}
    (he : envelopes[j]? = some e) (hprepare : prepare c publisher e = .error (.error err)) :
    (verdicts.map Prod.snd)[j]? = some (.error (.prepare err)) := by
  induction h generalizing j with
  | nil => cases he
  | failed hhead _ ih =>
    cases j with
    | zero =>
      cases he
      rw [hhead] at hprepare
      cases hprepare
      rfl
    | succ j => exact ih he
  | sent hhead _ _ ih =>
    cases j with
    | zero =>
      cases he
      rw [hhead] at hprepare
      cases hprepare
    | succ j => exact ih he

theorem sent_at (h : Tagged c publisher log i call envelopes verdicts) {j : Nat}
    {e : SerializedEnvelope} {message : String × NatsWireMessage} (he : envelopes[j]? = some e)
    (hprepare : prepare c publisher e = .ok message) :
    ∃ result, resultOf log (call + ((envelopes.take j).filterMap (ready c publisher)).length) =
        some result ∧
      (verdicts.map Prod.snd)[j]? = some (result.mapError .io) := by
  induction h generalizing j with
  | nil => cases he
  | @failed i call head envelopes verdicts err hhead _ ih =>
    cases j with
    | zero =>
      cases he
      rw [hhead] at hprepare
      cases hprepare
    | succ j =>
      have hnone : ready c publisher head = none := by rw [ready, hhead]; rfl
      rw [List.take_succ_cons, List.filterMap_cons_none hnone]
      exact ih he
  | @sent i call head envelopes verdicts own result hhead hresult _ ih =>
    cases j with
    | zero => exact ⟨result, hresult, rfl⟩
    | succ j =>
      have hsome : ready c publisher head = some own := by rw [ready, hhead]; rfl
      rw [List.take_succ_cons, List.filterMap_cons_some hsome, List.length_cons,
        Nat.add_comm _ 1, ← Nat.add_assoc]
      exact ih he

end Tagged

/-- What was recorded out of order is, up to order, one verdict for each index. -/
theorem prepareAll_tagged {log : List Event} {envelopes : List SerializedEnvelope} {i call : Nat}
    {failures : List (Nat × Verdict (SubjectResolver.Error R))} {prepared : List Prepared}
    {results : List (Nat × Except NatsIoError Unit)}
    (h : prepareAll c publisher envelopes i = some (failures, prepared))
    (hjudged : Judged log call prepared results) :
    ∃ tagged, Tagged c publisher log i call envelopes tagged ∧
      (failures ++ results.map verdict).Perm tagged := by
  induction envelopes generalizing i call failures prepared results with
  | nil =>
    cases h
    cases hjudged
    exact ⟨[], .nil i call, List.Perm.refl _⟩
  | cons e envelopes ih =>
    simp only [prepareAll] at h
    split at h
    case h_1 => cases h
    case h_2 err hprepare =>
      obtain ⟨⟨failures', prepared'⟩, hrest, heq⟩ := Option.map_eq_some_iff.mp h
      cases heq
      obtain ⟨tagged, htagged, hperm⟩ := ih hrest hjudged
      exact ⟨_, .failed hprepare htagged, hperm.cons _⟩
    case h_3 subject wire hprepare =>
      obtain ⟨⟨failures', prepared'⟩, hrest, heq⟩ := Option.map_eq_some_iff.mp h
      cases heq
      cases hjudged with
      | cons hresult hjudged =>
        obtain ⟨tagged, htagged, hperm⟩ := ih hrest hjudged
        exact ⟨_, .sent hprepare hresult htagged, List.perm_middle.trans (hperm.cons _)⟩

theorem prepareAll_messages {envelopes : List SerializedEnvelope} {i : Nat}
    {failures : List (Nat × Verdict (SubjectResolver.Error R))} {prepared : List Prepared}
    (h : prepareAll c publisher envelopes i = some (failures, prepared)) :
    prepared.map (fun message => (message.subject, message.wire)) =
      envelopes.filterMap (ready c publisher) := by
  induction envelopes generalizing i failures prepared with
  | nil =>
    cases h
    rfl
  | cons e envelopes ih =>
    simp only [prepareAll] at h
    split at h
    case h_1 => cases h
    case h_2 err hprepare =>
      obtain ⟨⟨failures', prepared'⟩, hrest, heq⟩ := Option.map_eq_some_iff.mp h
      cases heq
      have hnone : ready c publisher e = none := by rw [ready, hprepare]; rfl
      rw [List.filterMap_cons_none hnone]
      exact ih hrest
    case h_3 subject wire hprepare =>
      obtain ⟨⟨failures', prepared'⟩, hrest, heq⟩ := Option.map_eq_some_iff.mp h
      cases heq
      have hsome : ready c publisher e = some (subject, wire) := by rw [ready, hprepare]; rfl
      rw [List.filterMap_cons_some hsome, List.map_cons, ih hrest]

/-- The loop that prepares is left by a panic only. -/
theorem prepareAll_none {envelopes : List SerializedEnvelope} {i : Nat} :
    prepareAll c publisher envelopes i = none ↔
      ∃ e ∈ envelopes, prepare c publisher e = .error .panic := by
  induction envelopes generalizing i with
  | nil => simp [prepareAll]
  | cons e envelopes ih =>
    simp only [prepareAll, List.mem_cons, exists_eq_or_imp]
    split
    case h_1 hprepare => simp [hprepare]
    case h_2 hprepare => simp [hprepare, ih]
    case h_3 hprepare => simp [hprepare, ih]

/-! ## Which envelopes panic -/

/-- The subject resolves, the custom headers are written, and so is every framework header before a
timestamp that has no UTC date-time. -/
structure Panics (c : Codec) (publisher : NatsPublisher R) (e : SerializedEnvelope) : Prop where
  resolves : ∃ subject, SubjectResolver.subject publisher.resolver e = .ok subject
  custom : ∃ headers, encodeCustom e (customEntries e.headers) [] (fun _ => false) = .ok headers
  stamp :
    (∃ t, e.metadata.delivery.sentAt = some t ∧ ¬ t.InUtcRange ∧
      ∀ f ∈ Field.identity, Writable c e f) ∨
    ∃ t, e.metadata.delivery.expiresAt = some t ∧ ¬ t.InUtcRange ∧
      ∀ f ∈ Field.identity ++ [.sentAt], Writable c e f

theorem insertFields_panic_iff {e : SerializedEnvelope} {headers : HeaderMap} :
    insertFields c e Field.all headers = .error .panic ↔
      (∃ t, e.metadata.delivery.sentAt = some t ∧ ¬ t.InUtcRange ∧
        ∀ f ∈ Field.identity, Writable c e f) ∨
      ∃ t, e.metadata.delivery.expiresAt = some t ∧ ¬ t.InUtcRange ∧
        ∀ f ∈ Field.identity ++ [.sentAt], Writable c e f := by
  constructor
  · intro h
    obtain ⟨f, -, htext, hbefore⟩ := insertFields_panic h
    rcases fieldText_panic htext with ⟨rfl, t, ht, hrange⟩ | ⟨rfl, t, ht, hrange⟩
    · exact .inl ⟨t, ht, hrange, hbefore⟩
    · exact .inr ⟨t, ht, hrange, hbefore⟩
  · rintro (⟨t, ht, hrange, hbefore⟩ | ⟨t, ht, hrange, hbefore⟩)
    · refine @insertFields_stop c e Field.identity .sentAt .panic hbefore ?_ _ headers
      have hpanic := (rfc3339Utc_panic c t Field.sentAt.name).mpr hrange
      simp only [fieldText, ht, hpanic]
      rfl
    · refine @insertFields_stop c e (Field.identity ++ [.sentAt]) .expiresAt .panic hbefore ?_ _ headers
      have hpanic := (rfc3339Utc_panic c t Field.expiresAt.name).mpr hrange
      simp only [fieldText, ht, hpanic]
      rfl

theorem encode_panic_iff {e : SerializedEnvelope} :
    encode c e = .error .panic ↔
      ∃ headers, encodeCustom e (customEntries e.headers) [] (fun _ => false) = .ok headers ∧
        insertFields c e Field.all headers = .error .panic := by
  simp only [encode]
  split
  case h_1 stop hcustom =>
    have hne : stop ≠ .panic := by
      rintro rfl
      exact encodeCustom_ne_panic hcustom
    simp [hcustom, hne]
  case h_2 headers hcustom =>
    simp only [hcustom, Except.ok.injEq, exists_eq_left']
    split <;> simp_all

theorem prepare_panic_iff {e : SerializedEnvelope} :
    prepare c publisher e = .error .panic ↔ Panics c publisher e := by
  have hprepare : prepare c publisher e = .error .panic ↔
      (∃ subject, SubjectResolver.subject publisher.resolver e = .ok subject) ∧
        encode c e = .error .panic := by
    simp only [prepare]
    cases hsubject : SubjectResolver.subject publisher.resolver e with
    | error err => simp
    | ok subject =>
      cases hencode : encode c e with
      | error stop => cases stop <;> simp
      | ok wire =>
        cases publisher.settings.maxPayload with
        | none => simp
        | some limit =>
          show (if limit < wireLen wire then _ else _) = _ ↔ _
          split <;> simp
  rw [hprepare, encode_panic_iff]
  constructor
  · rintro ⟨hsubject, headers, hcustom, hfields⟩
    exact ⟨hsubject, ⟨headers, hcustom⟩, insertFields_panic_iff.mp hfields⟩
  · rintro ⟨hsubject, ⟨headers, hcustom⟩, hstamp⟩
    exact ⟨hsubject, headers, hcustom, insertFields_panic_iff.mpr hstamp⟩

/-! ## The whole batch -/

theorem publishBatch_panicked {σ : Type} {network : Network σ} {fuel : Nat} {world : σ}
    {envelopes : List SerializedEnvelope}
    (h : ∃ e ∈ envelopes, prepare c publisher e = .error .panic) :
    publishBatch c publisher network fuel envelopes world = some (.panicked, ⟨world, []⟩) := by
  rw [publishBatch, prepareAll_none.mpr h]

omit [SubjectResolver R] in
theorem NatsPublisher.depth_ne_zero (publisher : NatsPublisher R) :
    publisher.settings.batchPipelineDepth ≠ 0 := by
  intro hzero
  have hvalid := publisher.valid
  rw [NatsSettings.check, if_pos hzero] at hvalid
  cases hvalid

theorem bounded_nil (depth : Nat) : Bounded depth [] := by
  intro before hbefore
  rw [List.prefix_nil.mp hbefore]
  exact Nat.zero_le depth

/-- Prepared messages come from prepared envelopes. -/
theorem exists_ready {envelopes : List SerializedEnvelope} {i : Nat}
    {failures : List (Nat × Verdict (SubjectResolver.Error R))} {prepared : List Prepared}
    (h : prepareAll c publisher envelopes i = some (failures, prepared)) :
    prepared ≠ [] ↔ ∃ e ∈ envelopes, ∃ message, prepare c publisher e = .ok message := by
  have hmessages := congrArg (· ≠ []) (prepareAll_messages h)
  simp only [ne_eq, List.map_eq_nil_iff, List.filterMap_eq_nil_iff, not_forall] at hmessages
  rw [ne_eq, hmessages]
  refine exists_congr fun e => ?_
  rw [exists_prop]
  refine and_congr_right fun _ => ?_
  rw [ready]
  cases prepare c publisher e with
  | error halt => simp [Except.toOption]
  | ok message => simp [Except.toOption]

/-- The verdicts are sorted back into place. -/
theorem positional_of_tagged {envelopes : List SerializedEnvelope} {log : List Event}
    {outcomes tagged : List (Nat × Verdict (SubjectResolver.Error R))}
    (htagged : Tagged c publisher log 0 0 envelopes tagged) (hperm : outcomes.Perm tagged)
    (hbounded : Bounded publisher.settings.batchPipelineDepth log)
    (honce : (sends log).map (fun sent => (sent.subject, sent.wire)) =
      envelopes.filterMap (ready c publisher)) :
    Positional c publisher envelopes log
      ((outcomes.insertionSort fun a b => a.1 ≤ b.1).map Prod.snd) := by
  have hlt : tagged.Pairwise fun a b => a.1 < b.1 := by
    refine List.pairwise_map.mp ?_
    rw [htagged.indices]
    exact List.pairwise_lt_range'
  have hsorted : (outcomes.insertionSort fun a b => a.1 ≤ b.1) = tagged :=
    SortBy.insertionSort_eq (fun _ _ => Iff.rfl) hperm hlt
  rw [hsorted]
  refine ⟨?_, ?_, ?_, honce, hbounded⟩
  · have hlength := congrArg List.length htagged.indices
    rwa [List.length_map, List.length_range', ← List.length_map Prod.snd] at hlength
  · intro i e err he hprepare
    exact htagged.failed_at he hprepare
  · intro i e message he hprepare
    obtain ⟨result, hresult, hverdict⟩ := htagged.sent_at he hprepare
    rw [Nat.zero_add] at hresult
    exact ⟨result, hresult, hverdict⟩

theorem publishBatch_positional {σ : Type} {network : Network σ} {world : σ} {horizon : Instant}
    {envelopes : List SerializedEnvelope} (hclock : ∀ w, network.now w ≤ horizon)
    (hpanic : ∀ e ∈ envelopes, prepare c publisher e ≠ .error .panic)
    (hfits : (∃ e ∈ envelopes, ∃ message, prepare c publisher e = .ok message) →
      horizon + publisher.settings.publishTimeout ≤ Instant.MAX) :
    ∃ verdicts run, (∀ fuel, envelopes.length ≤ fuel →
        publishBatch c publisher network fuel envelopes world = some (.returned verdicts, run)) ∧
      Positional c publisher envelopes run.log verdicts := by
  cases hall : prepareAll c publisher envelopes 0 with
  | none =>
    obtain ⟨e, he, hprepare⟩ := prepareAll_none.mp hall
    exact absurd hprepare (hpanic e he)
  | some loaded =>
    obtain ⟨failures, prepared⟩ := loaded
    have hmessages := prepareAll_messages hall
    obtain ⟨results, run, hrun, -, hbounded, honce, hjudged⟩ :=
      sendWindows_judged (E := SubjectResolver.Error R) publisher.depth_ne_zero hclock prepared
        (fun hne => hfits ((exists_ready hall).mp hne)) ⟨world, []⟩ (fun k hk => by cases hk)
        (bounded_nil _) rfl
    obtain ⟨tagged, htagged, hperm⟩ := prepareAll_tagged hall hjudged
    refine ⟨_, run, ?_, positional_of_tagged htagged hperm hbounded (honce.trans hmessages)⟩
    intro fuel hfuel
    have hlength : prepared.length ≤ envelopes.length := by
      have hcount := congrArg List.length hmessages
      rw [List.length_map] at hcount
      rw [hcount]
      exact List.length_filterMap_le _ _
    simp only [publishBatch, hall, hrun fuel (hlength.trans hfuel)]

/-- A window whose deadline is not an instant panics. -/
theorem publishBatch_overflow {σ : Type} {network : Network σ} {fuel : Nat} {world : σ}
    {envelopes : List SerializedEnvelope}
    {failures : List (Nat × Verdict (SubjectResolver.Error R))} {message : Prepared}
    {prepared : List Prepared}
    (hall : prepareAll c publisher envelopes 0 = some (failures, message :: prepared))
    (hlate : Instant.MAX < network.now world + publisher.settings.publishTimeout) :
    publishBatch c publisher network (fuel + 1) envelopes world =
      some (.panicked, ⟨world, []⟩) := by
  have hadd : Instant.add (network.now world) publisher.settings.publishTimeout = none :=
    if_neg (Nat.not_le_of_lt hlate)
  simp only [publishBatch, hall, sendWindows, hadd]

/-- A clock that stands still, and a broker that accepts and stores everything. -/
def Network.still (now : Instant) : Network Unit where
  now := fun _ => now
  publishWithHeaders := fun _ _ _ _ => (.ready (.ok ()), ())
  ack := fun _ _ _ => (.ready (.ok ()), ())

/-- For every publisher, list of envelopes and latest instant of the clock: whatever the broker
answers, the batch ends with positional verdicts, exactly when no envelope of the list makes
`encode` panic and, if any envelope is prepared, a deadline can be put on a window that begins at
that instant. -/
theorem publish_batch_iff (c : Codec) (publisher : NatsPublisher R)
    (envelopes : List SerializedEnvelope) (horizon : Instant) :
    (∀ (σ : Type) (network : Network σ) (world : σ), (∀ w, network.now w ≤ horizon) →
      ∃ verdicts run, (∀ fuel, envelopes.length ≤ fuel →
          publishBatch c publisher network fuel envelopes world =
            some (.returned verdicts, run)) ∧
        Positional c publisher envelopes run.log verdicts) ↔
      (∀ e ∈ envelopes, ¬ Panics c publisher e) ∧
      ((∃ e ∈ envelopes, ∃ message, prepare c publisher e = .ok message) →
        horizon + publisher.settings.publishTimeout ≤ Instant.MAX) := by
  constructor
  · intro h
    obtain ⟨verdicts, run, hrun, -⟩ := h Unit (Network.still horizon) () fun _ => Nat.le_refl _
    -- the loop is in its first window after one step at most
    have hend := hrun (envelopes.length + 1) (Nat.le_succ _)
    have hpanic : ¬ ∃ e ∈ envelopes, prepare c publisher e = .error .panic := by
      intro hpanics
      rw [publishBatch_panicked hpanics] at hend
      cases hend
    refine ⟨fun e he hpanics => hpanic ⟨e, he, prepare_panic_iff.mpr hpanics⟩, ?_⟩
    intro hready
    by_contra hlate
    cases hall : prepareAll c publisher envelopes 0 with
    | none => exact hpanic (prepareAll_none.mp hall)
    | some loaded =>
      obtain ⟨failures, prepared⟩ := loaded
      cases prepared with
      | nil => exact (exists_ready hall).mpr hready rfl
      | cons message prepared =>
        rw [publishBatch_overflow hall (Nat.lt_of_not_le hlate)] at hend
        cases hend
  · rintro ⟨hpanics, hfits⟩ σ network world hclock
    refine publishBatch_positional hclock ?_ hfits
    intro e he hprepare
    exact hpanics e he (prepare_panic_iff.mp hprepare)

/-- The publisher of the default settings. -/
def defaultPublisher : NatsPublisher PrefixSubjects :=
  ⟨PrefixSubjects.default, NatsSettings.default, rfl⟩

theorem prepare_lastSecond :
    prepare nanosCodec defaultPublisher (stamped (some lastSecond) none) = .error .panic :=
  prepare_panic_iff.mpr
    { resolves := ⟨"reliar.tick.v1", rfl⟩
      custom := ⟨[], rfl⟩
      stamp := .inl ⟨lastSecond, rfl, fun h => absurd h.2 (by decide),
        stamped_identity nanosCodec_lawful _ _⟩ }

/-- An envelope of the last second takes its neighbour with it: the batch has no verdicts, and
nothing is sent. -/
theorem publish_batch_panics :
    (∃ message, prepare nanosCodec defaultPublisher (stamped none none) = .ok message) ∧
      ∀ fuel, publishBatch nanosCodec defaultPublisher (Network.still 0) fuel
        [stamped none none, stamped (some lastSecond) none] () = some (.panicked, ⟨(), []⟩) := by
  constructor
  · have hrun : (prepare nanosCodec defaultPublisher (stamped none none)).toOption.isSome = true := by
      decide
    cases hprepare : prepare nanosCodec defaultPublisher (stamped none none) with
    | error halt => rw [hprepare] at hrun; cases hrun
    | ok message => exact ⟨message, rfl⟩
  · intro fuel
    exact publishBatch_panicked ⟨_, List.mem_cons_of_mem _ List.mem_cons_self, prepare_lastSecond⟩

end

end Reliar.Nats
