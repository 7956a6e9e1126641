/-
# `Reliar.Nats.Timestamps` — the timestamps both codecs can carry

`OffsetDateTime` bounds the *local* date-time, so near the ends of the range a
legal value has no UTC date-time.  Both codecs go through UTC: the mapper by
`to_offset`, which panics there, and the store's decoder by
`from_unix_timestamp_nanos`, whose error makes the row a poisoned one.

`timestamps_handled` says for which pairs of timestamps neither can happen,
whatever else the envelope holds.  The order of the projection shows: `encode`
writes `sent_at` before `expires_at`, so a `sent_at` that RFC 3339 refuses is an
error that comes before the panic.
-/
import Reliar.Nats.Forward
import Reliar.Store.RoundTrip

namespace Reliar.Nats

open Reliar.Core Reliar.Store

/-! ## The panic -/

theorem rfc3339Utc_panic (c : Codec) (t : OffsetDateTime) (header : String) :
    rfc3339Utc c t header = .error .panic ↔ ¬ t.InUtcRange := by
  by_cases hrange : t.InUtcRange
  · obtain ⟨utc, hutc, -, -⟩ := OffsetDateTime.fromUnixTimestampNanos_some hrange
    simp only [rfc3339Utc, hutc, hrange, not_true_eq_false, iff_false]
    split <;> simp
  · have hutc : OffsetDateTime.fromUnixTimestampNanos t.unixNanos = none := dif_neg hrange
    simp [rfc3339Utc, hutc, hrange]

/-- The loop over the custom headers only ever fails with an error. -/
theorem encodeCustom_ne_panic {e : SerializedEnvelope} {entries : List (String × String)}
    {headers : HeaderMap} {written : Field → Bool} :
    encodeCustom e entries headers written ≠ .error .panic := by
  have hvalue : ∀ header s, headerValue header s ≠ .error .panic := by
    intro header s
    simp only [headerValue]
    split <;> simp
  induction entries generalizing headers written with
  | nil => simp [encodeCustom]
  | cons entry entries ih =>
    simp only [encodeCustom]
    split
    · simp
    · split
      · split
        · exact ih
        · split
          · simp
          · split
            · rename_i stop hstop
              intro h
              cases h
              exact hvalue _ _ hstop
            · exact ih
      · split
        · simp
        · split
          · rename_i stop hstop
            intro h
            cases h
            exact hvalue _ _ hstop
          · exact ih

/-- A panic of the projection is that of one field, and the fields before it were written. -/
theorem insertFields_panic {c : Codec} {e : SerializedEnvelope} {fs : List Field}
    {headers : HeaderMap} (h : insertFields c e fs headers = .error .panic) :
    ∃ f ∈ fs, fieldText c e f = .error .panic ∧
      ∀ g ∈ fs.takeWhile (fun g => g ≠ f), Writable c e g := by
  induction fs generalizing headers with
  | nil => cases h
  | cons f fs ih =>
    simp only [insertFields] at h
    split at h
    case h_1 stop hput =>
      cases h
      refine ⟨f, List.mem_cons_self, ?_, by simp⟩
      simp only [insertField] at hput
      split at hput
      case h_1 stop htext =>
        cases hput
        exact htext
      case h_2 => cases hput
      case h_3 s _ =>
        simp only [headerValue] at hput
        cases hv : headerValueOf s <;> simp [hv] at hput
    case h_2 headers' hput =>
      obtain ⟨g, hg, htext, hbefore⟩ := ih h
      refine ⟨g, List.mem_cons_of_mem _ hg, htext, ?_⟩
      intro k hk
      have hone : insertFields c e [f] headers = .ok headers' := by
        simp only [insertFields, hput]
      by_cases hfg : f = g
      · simp [hfg] at hk
      · simp only [List.takeWhile_cons, ne_eq, hfg, not_false_eq_true, decide_true, if_true] at hk
        rcases List.mem_cons.mp hk with rfl | hk
        · exact writable_of_insertFields hone k List.mem_cons_self
        · exact hbefore k hk

/-- The projection stops at the first field that cannot be made a text. -/
theorem insertFields_stop {c : Codec} {e : SerializedEnvelope} {before : List Field}
    {f : Field} {stop : Stop} (hbefore : ∀ g ∈ before, Writable c e g)
    (hf : fieldText c e f = .error stop) (after : List Field) (headers : HeaderMap) :
    insertFields c e (before ++ f :: after) headers = .error stop := by
  induction before generalizing headers with
  | nil => simp only [List.nil_append, insertFields, insertField, hf]
  | cons g before ih =>
    obtain ⟨o, htext, hlegal⟩ := hbefore g List.mem_cons_self
    have hrest := ih fun k hk => hbefore k (List.mem_cons_of_mem _ hk)
    cases o with
    | none => simp only [List.cons_append, insertFields, insertField, htext, hrest]
    | some s =>
      simp only [List.cons_append, insertFields, insertField, htext, headerValue, hlegal s rfl,
        hrest]

/-- Only the timestamps can panic. -/
theorem fieldText_panic {c : Codec} {e : SerializedEnvelope} {f : Field}
    (h : fieldText c e f = .error .panic) :
    (f = .sentAt ∧ ∃ t, e.metadata.delivery.sentAt = some t ∧ ¬ t.InUtcRange) ∨
      (f = .expiresAt ∧ ∃ t, e.metadata.delivery.expiresAt = some t ∧ ¬ t.InUtcRange) := by
  have hstamp : ∀ {t : OffsetDateTime} {header : String},
      (rfc3339Utc c t header).map some = .error .panic → ¬ t.InUtcRange := by
    intro t header ht
    refine (rfc3339Utc_panic c t header).mp ?_
    cases hutc : rfc3339Utc c t header with
    | error stop => simpa [hutc, Except.map] using ht
    | ok s => simp [hutc, Except.map] at ht
  cases f with
  | sentAt =>
    simp only [fieldText] at h
    split at h
    · cases h
    · rename_i t ht
      exact .inl ⟨rfl, t, ht, hstamp h⟩
  | expiresAt =>
    simp only [fieldText] at h
    split at h
    · cases h
    · rename_i t ht
      exact .inr ⟨rfl, t, ht, hstamp h⟩
  | conversationId =>
    simp only [fieldText] at h
    split at h <;> cases h
  | _ => cases h

theorem encode_panic {c : Codec} {e : SerializedEnvelope} (h : encode c e = .error .panic) :
    (∃ t, e.metadata.delivery.sentAt = some t ∧ ¬ t.InUtcRange) ∨
      (∃ t, e.metadata.delivery.expiresAt = some t ∧ ¬ t.InUtcRange) ∧ Writable c e .sentAt := by
  simp only [encode] at h
  split at h
  case h_1 stop hcustom =>
    cases h
    exact absurd hcustom encodeCustom_ne_panic
  case h_2 headers hcustom =>
    split at h
    case h_2 => cases h
    case h_1 stop hfields =>
      cases h
      obtain ⟨f, -, htext, hbefore⟩ := insertFields_panic hfields
      rcases fieldText_panic htext with ⟨-, hsent⟩ | ⟨rfl, hexpires⟩
      · exact .inl hsent
      · exact .inr ⟨hexpires, hbefore .sentAt (by decide)⟩

/-! ## Which timestamps are handled -/

/-- Neither codec fails on these timestamps other than by an error of `encode`, whatever else the
envelope holds. -/
structure Handled (c : Codec) (sentAt expiresAt : Option OffsetDateTime) : Prop where
  noPanic : ∀ e : SerializedEnvelope, e.metadata.delivery.sentAt = sentAt →
    e.metadata.delivery.expiresAt = expiresAt → encode c e ≠ .error .panic
  noPoison : ∀ (T : Type) (e : Envelope T) (payload : Bytes) (contentType : ContentType)
    (options : EnqueueOptions) (sequence : Int) (now : Timestamp),
    e.metadata.delivery.sentAt = sentAt → e.metadata.delivery.expiresAt = expiresAt →
      ∃ r, decodeRow (Row.inserted (insertRow e payload contentType options) sequence now) = .ok r

/-- An envelope with these timestamps and nothing else to it. -/
def stamped (sentAt expiresAt : Option OffsetDateTime) : SerializedEnvelope where
  id := ⟨⟨11⟩⟩
  messageType := MessageType.fromParts "tick" 1
  body := []
  metadata :=
    { Metadata.default with delivery := ⟨ContentType.JSON, sentAt, expiresAt, none⟩ }
  headers := none

/-- The fields written before the timestamps. -/
def Field.identity : List Field :=
  [.messageId, .messageType, .messageVersion, .contentType, .correlationId, .conversationId,
    .causationId, .requestId, .tenantId]

theorem stamped_identity {c : Codec} (hc : c.Lawful) (sentAt expiresAt : Option OffsetDateTime) :
    ∀ f ∈ Field.identity, Writable c (stamped sentAt expiresAt) f := by
  intro f hf
  cases f with
  | messageId => exact ⟨_, rfl, fun s hs => by cases hs; exact hc.uuid_value _⟩
  | messageType => exact ⟨some "tick", rfl, fun s hs => by cases hs; decide⟩
  | messageVersion => exact ⟨_, rfl, fun s hs => by cases hs; exact headerValueOf_digits _⟩
  | contentType => exact ⟨some ContentType.JSON.asStr, rfl, fun s hs => by cases hs; decide⟩
  | correlationId => exact ⟨_, rfl, fun s hs => by cases hs⟩
  | conversationId => exact ⟨_, rfl, fun s hs => by cases hs⟩
  | causationId => exact ⟨_, rfl, fun s hs => by cases hs⟩
  | requestId => exact ⟨_, rfl, fun s hs => by cases hs⟩
  | tenantId => exact ⟨_, rfl, fun s hs => by cases hs⟩
  | _ => exact absurd hf (by decide)

theorem stamped_encode {c : Codec} {sentAt expiresAt : Option OffsetDateTime}
    {before after : List Field} {f : Field} {stop : Stop} (hall : Field.all = before ++ f :: after)
    (hbefore : ∀ g ∈ before, Writable c (stamped sentAt expiresAt) g)
    (hf : fieldText c (stamped sentAt expiresAt) f = .error stop) :
    encode c (stamped sentAt expiresAt) = .error stop := by
  have hfields := insertFields_stop hbefore hf after []
  rw [← hall] at hfields
  have hcustom : encodeCustom (stamped sentAt expiresAt) [] [] (fun _ => false) = .ok [] := rfl
  simp only [encode, customEntries, stamped] at hfields hcustom ⊢
  simp only [hcustom, hfields]

/-- For every pair of timestamps an envelope can hold: both codecs handle them exactly when
`sent_at` has a UTC date-time and `expires_at` has one too, unless `sent_at` lies before the
year 0, where `encode` gives its error first. -/
theorem timestamps_handled (c : Codec) (hc : c.Lawful)
    (sentAt expiresAt : Option OffsetDateTime) :
    Handled c sentAt expiresAt ↔
      (∀ t, sentAt = some t → t.InUtcRange) ∧
      ∀ t, expiresAt = some t →
        t.InUtcRange ∨ ∃ t', sentAt = some t' ∧ t'.unixNanos < YEAR_ZERO := by
  have hsentWritable : Writable c (stamped sentAt expiresAt) .sentAt ↔ _ :=
    writable_timestamp hc (t := sentAt) rfl
  constructor
  · intro h
    have hsent : ∀ t, sentAt = some t → t.InUtcRange := by
      obtain ⟨r, hr⟩ := h.noPoison Bytes (stamped sentAt expiresAt) [] ContentType.JSON
        EnqueueOptions.default 0 0 rfl rfl
      exact decodeRow_ok_sentAt hr
    refine ⟨hsent, ?_⟩
    intro t ht
    by_contra hnot
    obtain ⟨hrange, hbefore⟩ := not_or.mp hnot
    have hall : Field.all = (Field.identity ++ [.sentAt]) ++ .expiresAt ::
        [.source, .destination, .replyTo, .traceparent, .tracestate, .natsMsgId] := rfl
    refine h.noPanic (stamped sentAt expiresAt) rfl rfl (stamped_encode hall ?_ ?_)
    · intro f hf
      rcases List.mem_append.mp hf with hf | hf
      · exact stamped_identity hc _ _ f hf
      · rw [List.mem_singleton.mp hf]
        -- `sent_at` is written: it has a UTC date-time, and not one before the year 0
        refine hsentWritable.mpr ?_
        intro t' ht'
        refine ⟨?_, (hsent t' ht').2⟩
        by_contra hyear
        exact hbefore ⟨t', ht', by lia⟩
    · have hpanic := (rfc3339Utc_panic c t Field.expiresAt.name).mpr hrange
      simp only [fieldText, stamped, ht, hpanic]
      rfl
  · rintro ⟨hsent, hexpires⟩
    constructor
    · intro e hs hx hpanic
      rcases encode_panic hpanic with ⟨t, ht, hrange⟩ | ⟨⟨t, ht, hrange⟩, hwritten⟩
      · exact hrange (hsent t (hs ▸ ht))
      · rcases hexpires t (hx ▸ ht) with hin | ⟨t', ht', hyear⟩
        · exact hrange hin
        · have hyears := (writable_timestamp hc (t := e.metadata.delivery.sentAt) rfl).mp hwritten
            t' (hs ▸ ht')
          have hzero := hyears.1
          lia
    · intro T e payload contentType options sequence now hs hx
      obtain ⟨r, hr, -⟩ := decode_insertRow e payload contentType options sequence now
        (by rw [hs]; exact hsent)
      exact ⟨r, hr⟩

/-- `9999-12-31T23:59:59-01:00`: a local date-time of the range whose UTC date-time would fall in
the year 10000. -/
def lastSecond : OffsetDateTime := ⟨253402304399000000000, -3600, by decide, by decide⟩

/-- Sent then, an envelope makes `encode` panic and its row is a poisoned one. -/
theorem timestamps_unhandled :
    encode nanosCodec (stamped (some lastSecond) none) = .error .panic ∧
      ¬ ∃ r, decodeRow (Row.inserted (stage (stamped (some lastSecond) none)) 1 0) = .ok r := by
  refine ⟨?_, ?_⟩
  · have hrun : (encode nanosCodec (stamped (some lastSecond) none)).map (fun _ => ()) =
        .error .panic := by decide
    cases h : encode nanosCodec (stamped (some lastSecond) none) with
    | error stop => simpa [h, Except.map] using hrun
    | ok w => simp [h, Except.map] at hrun
  · rintro ⟨r, hr⟩
    have := decodeRow_ok_sentAt hr lastSecond rfl
    exact absurd this.2 (by decide)

/-- The last second of the UTC range is handled, as is an expiry beyond it for a message sent
before the year 0. -/
theorem timestamps_handled_last :
    Handled nanosCodec (some ⟨253402300799000000000, 0, OffsetDateTime.zero_offset, by decide⟩)
        none ∧
      Handled nanosCodec (some ⟨YEAR_ZERO - 1, 0, OffsetDateTime.zero_offset, by decide⟩)
        (some lastSecond) := by
  constructor
  · refine (timestamps_handled nanosCodec nanosCodec_lawful _ _).mpr ⟨?_, ?_⟩
    · rintro t ⟨⟩
      exact ⟨by decide, by decide⟩
    · rintro t ⟨⟩
  · refine (timestamps_handled nanosCodec nanosCodec_lawful _ _).mpr ⟨?_, ?_⟩
    · rintro t ⟨⟩
      exact ⟨by decide, by decide⟩
    · intro t _
      exact .inr ⟨_, rfl, by decide⟩

end Reliar.Nats
