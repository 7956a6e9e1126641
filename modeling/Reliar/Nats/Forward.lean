/-
# `Reliar.Nats.Forward` — forwarding what was received

`decode` accepts more than `encode` writes: any casing of a framework name, any
spelling of a UUID, any UTC offset.  This module says which received messages a
relay can send on unchanged, that is, for which `decode`, `encode`, `decode`
comes back to the first envelope.

Two things stand in the way, and nothing else (`Forwardable`).  A timestamp may
name an instant outside the years RFC 3339 has in UTC.  And `decode` compares
the deduplication key with the *text* of the message id, while `encode` writes
the canonical text: a key that is the canonical text beside a message id spelled
otherwise is kept once and lost the second time.
-/
import Reliar.Nats.RoundTrip

namespace Reliar.Nats

open Reliar.Core

/-! ## The crates behind the mapper -/

/-- `0000-01-01T00:00:00Z`, as nanoseconds since the epoch. -/
def YEAR_ZERO : Int := -62167219200000000000

/-- An instant of the UTC years `0..=9999`. -/
def InRfcYears (n : Timestamp) : Prop := YEAR_ZERO ≤ n ∧ n ≤ OffsetDateTime.MAX_NANOS

instance (n : Timestamp) : Decidable (InRfcYears n) := inferInstanceAs (Decidable (_ ∧ _))

/-- What `uuid` and `time` promise about the texts they write. -/
structure Codec.Lawful (c : Codec) : Prop where
  uuid_value : ∀ u, headerValueOf (c.uuidText u) = some (c.uuidText u)
  format_value : ∀ t s, c.formatRfc3339 t = some s → headerValueOf s = some s
  format_some : ∀ t, t.offset = 0 → ((c.formatRfc3339 t).isSome ↔ InRfcYears t.unixNanos)

/-- What the types of `async_nats::HeaderMap` guarantee: a name has one entry, and names and
values are such as `from_str` accepts. -/
structure HeaderMap.WellFormed (headers : HeaderMap) : Prop where
  nodup : (names headers).Nodup
  legalName : ∀ x ∈ headers, headerName x.1 = some x.1
  legalValue : ∀ x ∈ headers, ∀ v ∈ x.2, headerValueOf v = some v

theorem headerValueOf_noControl {s : String} (h : containsControlChar s = false) :
    headerValueOf s = some s := by
  have hall : s.toList.all (fun c => c != '\r' && c != '\n') = true := by
    rw [List.all_eq_true]
    intro ch hch
    have hctl : ¬ isControl ch = true := by
      simp only [containsControlChar, List.any_eq_false] at h
      exact h ch hch
    have hr : ch ≠ '\r' := by rintro rfl; exact hctl (by decide)
    have hn : ch ≠ '\n' := by rintro rfl; exact hctl (by decide)
    simp [hr, hn]
  simp [headerValueOf, hall]

theorem headerValueOf_digits (n : Nat) : headerValueOf (toString n) = some (toString n) := by
  refine headerValueOf_noControl ?_
  rw [containsControlChar, List.any_eq_false]
  intro ch hch
  have hdigit : ch.isDigit = true := by
    rw [Nat.toString_eq_repr, Nat.toList_repr] at hch
    exact Nat.isDigit_of_mem_toDigits (by decide) (by decide) hch
  simp only [Char.isDigit, Bool.and_eq_true, decide_eq_true_eq] at hdigit
  have h₁ : 48 ≤ ch.toNat := hdigit.1
  have h₂ : ch.toNat ≤ 57 := hdigit.2
  simp only [isControl, Bool.or_eq_true, Bool.and_eq_true, decide_eq_true_eq]
  omega

/-- A timestamp is written exactly in the years RFC 3339 has. -/
theorem rfc3339Utc_ok {c : Codec} (hc : c.Lawful) (t : OffsetDateTime) (header : String) :
    (∃ s, rfc3339Utc c t header = .ok s ∧ headerValueOf s = some s) ↔ InRfcYears t.unixNanos := by
  by_cases hrange : t.InUtcRange
  · obtain ⟨utc, hutc, hnanos, hoffset⟩ := OffsetDateTime.fromUnixTimestampNanos_some hrange
    have hsome := hc.format_some utc hoffset
    rw [hnanos] at hsome
    simp only [rfc3339Utc, hutc]
    rw [← hsome]
    cases hformat : c.formatRfc3339 utc with
    | none => simp
    | some s => simpa using hc.format_value _ s hformat
  · have hutc : OffsetDateTime.fromUnixTimestampNanos t.unixNanos = none := dif_neg hrange
    have hyears : ¬ InRfcYears t.unixNanos := by
      intro hy
      refine hrange ⟨Int.le_trans ?_ hy.1, hy.2⟩
      decide
    simp [rfc3339Utc, hutc, hyears]

/-! ## When `encode` succeeds -/

/-- A custom entry `encode` writes as it stands. -/
structure Sendable (entry : String × String) : Prop where
  key : CustomKey entry.1
  legalName : headerName entry.1 = some entry.1
  legalValue : headerValueOf entry.2 = some entry.2

theorem encodeCustom_sendable {e : SerializedEnvelope} {entries : List (String × String)}
    (h : ∀ x ∈ entries, Sendable x) (headers : HeaderMap) (written : Field → Bool) :
    ∃ headers', encodeCustom e entries headers written = .ok headers' := by
  induction entries generalizing headers written with
  | nil => exact ⟨headers, rfl⟩
  | cons entry entries ih =>
    obtain ⟨key, value⟩ := entry
    obtain ⟨hkey, hname, hvalue⟩ := h _ List.mem_cons_self
    obtain ⟨headers', hrest⟩ := ih (fun x hx => h x (List.mem_cons_of_mem _ hx))
      (headers.insert key value) written
    refine ⟨headers', ?_⟩
    simp only [encodeCustom, hkey.noNats, hkey.noTrace, hname, headerValue, hvalue, hrest,
      Bool.false_eq_true, if_false]

/-- The texts of these fields can be written. -/
def Writable (c : Codec) (e : SerializedEnvelope) (f : Field) : Prop :=
  ∃ o, fieldText c e f = .ok o ∧ ∀ s, o = some s → headerValueOf s = some s

theorem insertFields_writable {c : Codec} {e : SerializedEnvelope} {fs : List Field}
    (h : ∀ f ∈ fs, Writable c e f) (headers : HeaderMap) :
    ∃ headers', insertFields c e fs headers = .ok headers' := by
  induction fs generalizing headers with
  | nil => exact ⟨headers, rfl⟩
  | cons f fs ih =>
    obtain ⟨o, htext, hlegal⟩ := h f List.mem_cons_self
    have hrest := ih fun g hg => h g (List.mem_cons_of_mem _ hg)
    cases o with
    | none =>
      obtain ⟨headers', hrun⟩ := hrest headers
      exact ⟨headers', by simp only [insertFields, insertField, htext, hrun]⟩
    | some s =>
      obtain ⟨headers', hrun⟩ := hrest (headers.insert f.name s)
      refine ⟨headers', ?_⟩
      simp only [insertFields, insertField, htext, headerValue, hlegal s rfl, hrun]

/-- What was written could be. -/
theorem writable_of_insertFields {c : Codec} {e : SerializedEnvelope} {fs : List Field}
    {headers headers' : HeaderMap} (h : insertFields c e fs headers = .ok headers') :
    ∀ f ∈ fs, Writable c e f := by
  induction fs generalizing headers with
  | nil => intro f hf; cases hf
  | cons g fs ih =>
    simp only [insertFields] at h
    split at h
    case h_1 => cases h
    case h_2 headers₁ hput =>
      intro f hf
      rcases List.mem_cons.mp hf with rfl | hf
      · simp only [insertField] at hput
        split at hput
        case h_1 => cases hput
        case h_2 htext => exact ⟨none, htext, by simp⟩
        case h_3 s htext =>
          refine ⟨some s, htext, ?_⟩
          rintro s' ⟨⟩
          simp only [headerValue] at hput
          cases hv : headerValueOf s with
          | none => simp [hv] at hput
          | some v =>
            have hvs : headerValue "" s = .ok v := by simp [headerValue, hv]
            rw [headerValue_ok hvs]
      · exact ih h f hf

theorem writable_of_encode {c : Codec} {e : SerializedEnvelope} {w : NatsWireMessage}
    (h : encode c e = .ok w) (f : Field) : Writable c e f := by
  simp only [encode] at h
  split at h
  case h_1 => cases h
  case h_2 =>
    split at h
    case h_1 => cases h
    case h_2 hfields => exact writable_of_insertFields hfields f f.mem_all

theorem encode_writable {c : Codec} {e : SerializedEnvelope}
    (hcustom : ∀ x ∈ customEntries e.headers, Sendable x) (hfields : ∀ f, Writable c e f) :
    ∃ w, encode c e = .ok w := by
  obtain ⟨headers, hheaders⟩ := encodeCustom_sendable (e := e) hcustom [] fun _ => false
  have hall : ∀ f ∈ Field.all, Writable c e f := fun f _ => hfields f
  obtain ⟨headers', hheaders'⟩ := insertFields_writable hall headers
  exact ⟨⟨headers', e.body⟩, by simp only [encode, hheaders, hheaders']⟩

/-! ## What `decode` accepted -/

/-- The text received for a framework header, whatever the casing of its name. -/
def rawOf (headers : HeaderMap) (f : Field) : Option String :=
  (headers.find? fun x => classifyHeader x.1 == .framework f).bind fun x => x.2.head?

theorem assignOnce_ok {scanned scanned' : ScannedHeaders} {f : Field} {values : List String}
    (h : assignOnce scanned f values = .ok scanned') :
    ∃ value, values = [value] ∧ scanned.slots f = none ∧
      scanned' = { scanned with slots := fun g => if g = f then some value else scanned.slots g } := by
  simp only [assignOnce] at h
  split at h
  · rename_i value hempty
    exact ⟨value, rfl, hempty, (Except.ok.inj h).symm⟩
  · cases h

/-- A scan fills each slot that was empty with the text received. -/
theorem scan_slots {headers : HeaderMap} {scanned r : ScannedHeaders}
    (h : scan headers scanned = .ok r) (f : Field) :
    r.slots f = (scanned.slots f).or (rawOf headers f) := by
  induction headers generalizing scanned with
  | nil =>
    cases h
    simp [rawOf]
  | cons x headers ih =>
    obtain ⟨name, values⟩ := x
    -- an entry that is not this field's leaves its slot, and the search, where they were
    have hskip : ∀ s : ScannedHeaders, s.slots f = scanned.slots f →
        classifyHeader name ≠ .framework f → scan headers s = .ok r →
        r.slots f = (scanned.slots f).or (rawOf ((name, values) :: headers) f) := by
      intro s hs hne hrun
      have hraw : rawOf ((name, values) :: headers) f = rawOf headers f := by
        simp [rawOf, hne]
      rw [ih hrun, hs, hraw]
    simp only [scan] at h
    split at h
    case h_1 g hkind =>
      split at h
      case h_1 => cases h
      case h_2 scanned' hassign =>
        obtain ⟨value, rfl, hempty, rfl⟩ := assignOnce_ok hassign
        by_cases hgf : f = g
        · subst hgf
          rw [ih h, hempty]
          simp [rawOf, hkind]
        · refine hskip _ ?_ ?_ h
          · simp [hgf]
          · rw [hkind]
            simpa using fun heq => hgf heq.symm
    case h_2 hkind => exact hskip _ rfl (by simp [hkind]) h
    case h_3 hkind => exact hskip _ rfl (by simp [hkind]) h
    case h_4 hkind =>
      split at h
      case h_1 => cases h
      case h_2 scanned' hassign =>
        refine hskip scanned' ?_ (by simp [hkind]) h
        simp only [assignCustom] at hassign
        split at hassign
        · cases hassign
        · cases hassign
          rfl

/-- Custom headers as a scan collects them: never an empty map, and every entry is the first value
of a custom header of the block. -/
structure Collected (headers : HeaderMap) (custom : Option Headers) : Prop where
  some_ne_nil : ∀ h, custom = some h → h.entries ≠ []
  entry : ∀ x ∈ customEntries custom, ∃ values, (x.1, values) ∈ headers ∧
    classifyHeader x.1 = .custom ∧ x.2 = values.headD ""

theorem scan_custom {headers rest : HeaderMap} {scanned r : ScannedHeaders}
    (h : scan rest scanned = .ok r) (hsub : ∀ x ∈ rest, x ∈ headers)
    (hcol : Collected headers scanned.custom) : Collected headers r.custom := by
  induction rest generalizing scanned with
  | nil =>
    cases h
    exact hcol
  | cons x rest ih =>
    obtain ⟨name, values⟩ := x
    have hsub' : ∀ x ∈ rest, x ∈ headers := fun x hx => hsub x (List.mem_cons_of_mem _ hx)
    simp only [scan] at h
    split at h
    case h_1 f _ =>
      split at h
      case h_1 => cases h
      case h_2 scanned' hassign =>
        obtain ⟨value, -, -, rfl⟩ := assignOnce_ok hassign
        exact ih h hsub' hcol
    case h_2 => exact ih h hsub' hcol
    case h_3 => exact ih h hsub' hcol
    case h_4 hkind =>
      split at h
      case h_1 => cases h
      case h_2 scanned' hassign =>
        simp only [assignCustom] at hassign
        split at hassign
        case h_1 => cases hassign
        case h_2 custom old hins =>
          cases hassign
          refine ih h hsub' ⟨?_, ?_⟩
          · rintro h' ⟨⟩
            exact Headers.insert_ne_nil hins
          · intro x hx
            rcases Headers.mem_insert hins x hx with hx | rfl
            · refine hcol.entry x ?_
              cases hc : scanned.custom with
              | none => simp [hc, Headers.empty] at hx
              | some h' => simpa [hc, customEntries] using hx
            · exact ⟨values, hsub _ List.mem_cons_self, hkind, rfl⟩

theorem wellFormed_ok {α : Type} {f : Field} {o : Option α} {a : α}
    (h : wellFormed f o = .ok a) : o = some a := by
  cases o with
  | none => cases h
  | some b => simpa [wellFormed] using h

theorem required_ok {scanned : ScannedHeaders} {f : Field} {raw : String}
    (h : required scanned f = .ok raw) : scanned.slots f = some raw := by
  simp only [required] at h
  split at h
  · cases h
  · rename_i raw' hslot
    rw [hslot, Except.ok.inj h]

theorem optional_ok {α : Type} {scanned : ScannedHeaders} {f : Field} {parse : String → Option α}
    {a : α} (h : optional scanned f parse = .ok (some a)) :
    ∃ raw, scanned.slots f = some raw ∧ parse raw = some a := by
  simp only [optional] at h
  split at h
  · cases h
  · rename_i raw hslot
    cases hparse : parse raw with
    | none => simp [hparse, wellFormed, Except.map] at h
    | some b => exact ⟨raw, hslot, by simpa [hparse, wellFormed, Except.map] using h⟩

/-- What an accepted envelope owes to the texts it was read from. -/
structure Parsed (c : Codec) (scanned : ScannedHeaders) (e : SerializedEnvelope) : Prop where
  id : ∃ raw, scanned.slots .messageId = some raw ∧ c.parseUuid raw = some e.id.uuid ∧
    e.metadata.delivery.deduplicationId = (scanned.slots .natsMsgId).filter fun v => v != raw
  name : scanned.slots .messageType = some e.messageType.name ∧ e.messageType.name ≠ ""
  tenant : e.metadata.tenantId = scanned.slots .tenantId
  trace : e.metadata.trace = ⟨scanned.slots .traceparent, scanned.slots .tracestate⟩
  sentAt : optional scanned .sentAt c.parseRfc3339 = .ok e.metadata.delivery.sentAt
  expiresAt : optional scanned .expiresAt c.parseRfc3339 = .ok e.metadata.delivery.expiresAt
  headers : e.headers = scanned.custom

theorem intoEnvelope_parsed {c : Codec} {scanned : ScannedHeaders} {payload : Bytes}
    {e : SerializedEnvelope} (h : intoEnvelope c scanned payload = .ok e) :
    Parsed c scanned e := by
  obtain ⟨identity, hidentity, h⟩ := bind_eq_ok h
  obtain ⟨metadata, hmetadata, h⟩ := bind_eq_ok h
  cases h
  obtain ⟨idRaw, hidRaw, hidentity⟩ := bind_eq_ok hidentity
  obtain ⟨typeRaw, htypeRaw, hidentity⟩ := bind_eq_ok hidentity
  obtain ⟨versionRaw, -, hidentity⟩ := bind_eq_ok hidentity
  obtain ⟨contentRaw, -, hidentity⟩ := bind_eq_ok hidentity
  obtain ⟨id, hid, hidentity⟩ := bind_eq_ok hidentity
  obtain ⟨version, -, hidentity⟩ := bind_eq_ok hidentity
  obtain ⟨name, hname, hidentity⟩ := bind_eq_ok hidentity
  obtain ⟨contentType, -, hidentity⟩ := bind_eq_ok hidentity
  cases hidentity
  obtain ⟨correlation, -, hmetadata⟩ := bind_eq_ok hmetadata
  obtain ⟨conversation, -, hmetadata⟩ := bind_eq_ok hmetadata
  obtain ⟨causation, -, hmetadata⟩ := bind_eq_ok hmetadata
  obtain ⟨request, -, hmetadata⟩ := bind_eq_ok hmetadata
  obtain ⟨sentAt, hsent, hmetadata⟩ := bind_eq_ok hmetadata
  obtain ⟨expiresAt, hexpires, hmetadata⟩ := bind_eq_ok hmetadata
  obtain ⟨source, -, hmetadata⟩ := bind_eq_ok hmetadata
  obtain ⟨destination, -, hmetadata⟩ := bind_eq_ok hmetadata
  obtain ⟨replyTo, -, hmetadata⟩ := bind_eq_ok hmetadata
  cases hmetadata
  have hnonempty : typeRaw ≠ "" ∧ typeRaw = name := by
    have := wellFormed_ok hname
    split at this
    · cases this
    · rename_i hne
      exact ⟨hne, Option.some.inj this⟩
  exact
    { id := ⟨idRaw, required_ok hidRaw, wellFormed_ok hid, rfl⟩
      name := ⟨hnonempty.2 ▸ required_ok htypeRaw, hnonempty.2 ▸ hnonempty.1⟩
      tenant := rfl
      trace := rfl
      sentAt := hsent
      expiresAt := hexpires
      headers := rfl }

/-! ## Forwarding -/

/-- The received texts come through a second time: the timestamps name instants that can be
written, and a deduplication key that is the canonical text of the message id stands beside that
same text. -/
structure Forwardable (c : Codec) (headers : HeaderMap) : Prop where
  sentAt : ∀ s t, rawOf headers .sentAt = some s → c.parseRfc3339 s = some t →
    InRfcYears t.unixNanos
  expiresAt : ∀ s t, rawOf headers .expiresAt = some s → c.parseRfc3339 s = some t →
    InRfcYears t.unixNanos
  dedup : ∀ raw id, rawOf headers .messageId = some raw → c.parseUuid raw = some id →
    rawOf headers .natsMsgId = some (c.uuidText id) → raw = c.uuidText id

/-- A key `decode` takes for custom is one for `encode` too. -/
theorem customKey_of_classify {key : String} (h : classifyHeader key = .custom) :
    CustomKey key := by
  simp only [classifyHeader] at h
  split at h
  case h_1 => cases h
  case h_2 hfind =>
    have hne : ∀ f : Field, eqIgnoreAsciiCase key f.name = false := by
      intro f
      have := List.find?_eq_none.mp hfind f f.mem_all
      simpa using this
    split at h
    case isTrue => cases h
    case isFalse hnats =>
      split at h
      case isTrue => cases h
      case isFalse hreliar =>
        refine ⟨?_, by simpa using hnats, by simpa using hreliar⟩
        simp [traceOverrideName, hne]

/-- A text that was received as the value of a header can be sent as one. -/
theorem legal_rawOf {headers : HeaderMap} (hw : headers.WellFormed) {f : Field} {s : String}
    (h : rawOf headers f = some s) : headerValueOf s = some s := by
  obtain ⟨x, hx, hs⟩ := Option.bind_eq_some_iff.mp h
  exact hw.legalValue x (List.mem_of_find?_eq_some hx) s (List.mem_of_mem_head? hs)

theorem sendable_of_collected {headers : HeaderMap} (hw : headers.WellFormed)
    {custom : Option Headers} (hcol : Collected headers custom) :
    ∀ x ∈ customEntries custom, Sendable x := by
  intro x hx
  obtain ⟨values, hmem, hkind, hvalue⟩ := hcol.entry x hx
  refine ⟨customKey_of_classify hkind, hw.legalName _ hmem, ?_⟩
  cases values with
  | nil =>
    rw [hvalue]
    decide
  | cons v values =>
    rw [hvalue]
    exact hw.legalValue _ hmem v List.mem_cons_self

/-- An accepted message: the texts received, the envelope made of them. -/
structure Received (c : Codec) (headers : HeaderMap) (e : SerializedEnvelope) : Prop where
  id : ∃ raw, rawOf headers .messageId = some raw ∧ c.parseUuid raw = some e.id.uuid ∧
    e.metadata.delivery.deduplicationId = (rawOf headers .natsMsgId).filter fun v => v != raw
  name : rawOf headers .messageType = some e.messageType.name ∧ e.messageType.name ≠ ""
  tenant : e.metadata.tenantId = rawOf headers .tenantId
  trace : e.metadata.trace = ⟨rawOf headers .traceparent, rawOf headers .tracestate⟩
  sentAt : e.metadata.delivery.sentAt = (rawOf headers .sentAt).bind c.parseRfc3339
  expiresAt : e.metadata.delivery.expiresAt = (rawOf headers .expiresAt).bind c.parseRfc3339
  custom : Collected headers e.headers

theorem optional_eq_bind {α : Type} {scanned : ScannedHeaders} {f : Field}
    {parse : String → Option α} {o : Option α} (h : optional scanned f parse = .ok o) :
    o = (scanned.slots f).bind parse := by
  cases o with
  | some a =>
    obtain ⟨raw, hslot, hparse⟩ := optional_ok h
    simp [hslot, hparse]
  | none =>
    simp only [optional] at h
    split at h
    · rename_i hslot
      simp [hslot]
    · rename_i raw hslot
      cases hparse : parse raw with
      | none => simp [hslot, hparse]
      | some b => simp [hparse, wellFormed, Except.map] at h

theorem decode_received {c : Codec} {w : NatsWireMessage} {e : SerializedEnvelope}
    (h : decode c w = .ok e) : Received c w.headers e := by
  simp only [decode] at h
  split at h
  case h_1 => cases h
  case h_2 scanned hscan =>
    have hslots : ∀ f, scanned.slots f = rawOf w.headers f := by
      intro f
      rw [scan_slots hscan f]
      rfl
    have hcustom : Collected w.headers scanned.custom := by
      refine scan_custom hscan (fun x hx => hx) ⟨?_, ?_⟩
      · intro h' h''
        cases h''
      · intro x hx
        cases hx
    have hp := intoEnvelope_parsed h
    exact
      { id := by simpa only [hslots] using hp.id
        name := by simpa only [hslots] using hp.name
        tenant := by simpa only [hslots] using hp.tenant
        trace := by simpa only [hslots] using hp.trace
        sentAt := by simpa only [hslots] using optional_eq_bind hp.sentAt
        expiresAt := by simpa only [hslots] using optional_eq_bind hp.expiresAt
        custom := hp.headers ▸ hcustom }

section Received

variable {c : Codec} {headers : HeaderMap} {e : SerializedEnvelope}

/-- A timestamp field is written exactly when its instant can be. -/
theorem writable_timestamp (hc : c.Lawful) {f : Field} {t : Option OffsetDateTime}
    (htext : fieldText c e f = match t with
      | none => .ok none
      | some t => (rfc3339Utc c t f.name).map some) :
    Writable c e f ↔ ∀ t', t = some t' → InRfcYears t'.unixNanos := by
  cases t with
  | none =>
    constructor
    · intro _ t' ht'
      cases ht'
    · intro _
      exact ⟨none, htext, by simp⟩
  | some t =>
    have hiff := rfc3339Utc_ok hc t f.name
    constructor
    · rintro ⟨o, ho, hlegal⟩ t' ⟨⟩
      rw [htext] at ho
      cases hutc : rfc3339Utc c t f.name with
      | error stop => simp [hutc, Except.map] at ho
      | ok s =>
        simp only [hutc, Except.map, Except.ok.injEq] at ho
        exact hiff.mp ⟨s, hutc, hlegal s ho.symm⟩
    · intro hyears
      obtain ⟨s, hs, hlegal⟩ := hiff.mpr (hyears t rfl)
      refine ⟨some s, by simp [htext, hs, Except.map], ?_⟩
      rintro s' ⟨⟩
      exact hlegal

/-- Every other field of an accepted envelope can be written. -/
theorem Received.writable (hr : Received c headers e) (hc : c.Lawful) (hw : headers.WellFormed)
    {f : Field} (hs : f ≠ .sentAt) (hx : f ≠ .expiresAt) : Writable c e f := by
  -- a text is received as it stands, or is a validated text, or is the text of a UUID
  have hraw : ∀ {o : Option String} (g : Field), o = rawOf headers g →
      ∀ s, o = some s → headerValueOf s = some s := by
    rintro o g rfl s hs
    exact legal_rawOf hw hs
  have haddress : ∀ {o : Option EndpointAddress},
      ∀ s, o.map EndpointAddress.asStr = some s → headerValueOf s = some s := by
    intro o s hs
    obtain ⟨t, -, rfl⟩ := Option.map_eq_some_iff.mp hs
    exact headerValueOf_noControl t.val.2.2.1
  have huuid : ∀ {α : Type} {o : Option α} {uuid : α → Uuid},
      ∀ s, o.map (fun a => c.uuidText (uuid a)) = some s → headerValueOf s = some s := by
    intro α o uuid s hs
    obtain ⟨a, -, rfl⟩ := Option.map_eq_some_iff.mp hs
    exact hc.uuid_value _
  obtain ⟨raw, hid, -, hdedup⟩ := hr.id
  cases f with
  | messageId => exact ⟨_, rfl, fun s hs => by cases hs; exact hc.uuid_value _⟩
  | messageType => exact ⟨_, rfl, hraw .messageType hr.name.1.symm⟩
  | messageVersion => exact ⟨_, rfl, fun s hs => by cases hs; exact headerValueOf_digits _⟩
  | contentType =>
    refine ⟨_, rfl, ?_⟩
    rintro s ⟨⟩
    have hmime := e.metadata.delivery.contentType.val.2.2.2
    simp only [isMime, Bool.and_eq_true, Bool.not_eq_true'] at hmime
    exact headerValueOf_noControl hmime.1
  | correlationId =>
    refine ⟨_, rfl, fun s hs => ?_⟩
    obtain ⟨t, -, rfl⟩ := Option.map_eq_some_iff.mp hs
    exact headerValueOf_noControl t.val.2.2.1
  | conversationId =>
    by_cases hunset : e.metadata.correlation.conversationId.isUnset = true
    · exact ⟨none, by simp [fieldText, hunset], fun s hs => by cases hs⟩
    · exact ⟨some _, by simp [fieldText, hunset]; rfl, fun s hs => by cases hs; exact hc.uuid_value _⟩
  | causationId => exact ⟨_, rfl, huuid⟩
  | requestId => exact ⟨_, rfl, huuid⟩
  | tenantId => exact ⟨_, rfl, hraw .tenantId hr.tenant⟩
  | sentAt => exact absurd rfl hs
  | expiresAt => exact absurd rfl hx
  | source => exact ⟨_, rfl, haddress⟩
  | destination => exact ⟨_, rfl, haddress⟩
  | replyTo => exact ⟨_, rfl, haddress⟩
  | traceparent => exact ⟨_, rfl, hraw .traceparent (by rw [hr.trace])⟩
  | tracestate => exact ⟨_, rfl, hraw .tracestate (by rw [hr.trace])⟩
  | natsMsgId =>
    refine ⟨_, rfl, ?_⟩
    rintro s ⟨⟩
    cases hd : e.metadata.delivery.deduplicationId with
    | none => exact hc.uuid_value _
    | some d =>
      rw [hdedup] at hd
      exact legal_rawOf hw (Option.eq_some_of_filter_eq_some hd)

theorem customEntries_noTrace (hr : Received c headers e) :
    ∀ x ∈ customEntries e.headers, traceOverrideName x.1 = none := by
  intro x hx
  obtain ⟨-, -, hkind, -⟩ := hr.custom.entry x hx
  exact (customKey_of_classify hkind).noTrace

/-- Of the three normalisations only the deduplication key is left to do. -/
theorem Received.normalise_eq (hr : Received c headers e)
    (hdedup : e.metadata.delivery.deduplicationId ≠ some (c.uuidText e.id.uuid)) :
    normalise c e = e := by
  have htrace := customEntries_noTrace hr
  have hoffered : ∀ f, offered f (customEntries e.headers) = none := by
    intro f
    cases ho : offered f (customEntries e.headers) with
    | none => rfl
    | some s =>
      obtain ⟨key, hmem, hkey⟩ := offered_mem ho
      rw [htrace _ hmem] at hkey
      cases hkey
  have hheaders : normaliseHeaders e.headers = e.headers := by
    cases hh : e.headers with
    | none => rfl
    | some h =>
      have hkeep : keepCustom h = h := by
        have hentries : (keepCustom h).entries = h.entries := by
          refine List.filter_eq_self.mpr ?_
          intro x hx
          rw [hh] at htrace
          simp [htrace x hx]
        cases h
        simpa [keepCustom] using hentries
      have hne : h.entries ≠ [] := hr.custom.some_ne_nil h hh
      simp [normaliseHeaders, hkeep, Headers.isEmpty, hne]
  have hkey : (e.metadata.delivery.deduplicationId.filter fun d =>
      d != c.uuidText e.id.uuid) = e.metadata.delivery.deduplicationId := by
    cases hd : e.metadata.delivery.deduplicationId with
    | none => rfl
    | some d =>
      have hne : d ≠ c.uuidText e.id.uuid := fun heq => hdedup (by rw [hd, heq])
      simp [hne]
  simp only [normalise, hoffered, Option.or_none, hheaders, hkey]

/-- The condition on the texts is the condition on the envelope that `encode` and the second
`decode` look at. -/
theorem Received.forwardable_iff (hr : Received c headers e) :
    Forwardable c headers ↔
      (∀ t, e.metadata.delivery.sentAt = some t → InRfcYears t.unixNanos) ∧
      (∀ t, e.metadata.delivery.expiresAt = some t → InRfcYears t.unixNanos) ∧
      e.metadata.delivery.deduplicationId ≠ some (c.uuidText e.id.uuid) := by
  obtain ⟨raw, hraw, hparse, hdedup⟩ := hr.id
  have hstamp : ∀ {f : Field} {o : Option OffsetDateTime},
      o = (rawOf headers f).bind c.parseRfc3339 →
      ((∀ s t, rawOf headers f = some s → c.parseRfc3339 s = some t → InRfcYears t.unixNanos) ↔
        ∀ t, o = some t → InRfcYears t.unixNanos) := by
    rintro f o rfl
    constructor
    · intro h t ht
      obtain ⟨s, hs, ht⟩ := Option.bind_eq_some_iff.mp ht
      exact h s t hs ht
    · intro h s t hs ht
      exact h t (Option.bind_eq_some_iff.mpr ⟨s, hs, ht⟩)
  have hkey : (∀ raw' id, rawOf headers .messageId = some raw' → c.parseUuid raw' = some id →
      rawOf headers .natsMsgId = some (c.uuidText id) → raw' = c.uuidText id) ↔
      e.metadata.delivery.deduplicationId ≠ some (c.uuidText e.id.uuid) := by
    rw [hdedup]
    constructor
    · intro h heq
      obtain ⟨hnats, hne⟩ := Option.filter_eq_some_iff.mp heq
      have hraw' := h raw e.id.uuid hraw hparse hnats
      simp [hraw'] at hne
    · intro h raw' id hraw' hparse' hnats
      rw [hraw] at hraw'
      cases hraw'
      rw [hparse] at hparse'
      cases hparse'
      by_contra hne
      refine h (Option.filter_eq_some_iff.mpr ⟨hnats, ?_⟩)
      simpa using fun heq => hne heq.symm
  constructor
  · intro h
    exact ⟨(hstamp hr.sentAt).mp h.sentAt, (hstamp hr.expiresAt).mp h.expiresAt, hkey.mp h.dedup⟩
  · rintro ⟨hsent, hexpires, hd⟩
    exact ⟨(hstamp hr.sentAt).mpr hsent, (hstamp hr.expiresAt).mpr hexpires, hkey.mpr hd⟩

/-- A relay's `encode` succeeds exactly when both instants can be written. -/
theorem Received.encode_iff (hr : Received c headers e) (hc : c.Lawful) (hw : headers.WellFormed) :
    (∃ w, encode c e = .ok w) ↔
      (∀ t, e.metadata.delivery.sentAt = some t → InRfcYears t.unixNanos) ∧
      (∀ t, e.metadata.delivery.expiresAt = some t → InRfcYears t.unixNanos) := by
  have hsent : Writable c e .sentAt ↔ _ :=
    writable_timestamp hc (t := e.metadata.delivery.sentAt) rfl
  have hexpires : Writable c e .expiresAt ↔ _ :=
    writable_timestamp hc (t := e.metadata.delivery.expiresAt) rfl
  rw [← hsent, ← hexpires]
  constructor
  · rintro ⟨w, hencode⟩
    exact ⟨writable_of_encode hencode .sentAt, writable_of_encode hencode .expiresAt⟩
  · rintro ⟨hs, hx⟩
    refine encode_writable (sendable_of_collected hw hr.custom) ?_
    intro f
    by_cases hfs : f = .sentAt
    · exact hfs ▸ hs
    · by_cases hfx : f = .expiresAt
      · exact hfx ▸ hx
      · exact hr.writable hc hw hfs hfx

end Received

/-- For every message `decode` accepts: the envelope can be encoded, and decodes to itself however
the new header map is enumerated, exactly when the received texts are `Forwardable`. -/
theorem decode_forward (c : Codec) (hc : c.Lawful) (w : NatsWireMessage)
    (hw : w.headers.WellFormed) (e : SerializedEnvelope) (h : decode c w = .ok e) :
    (∃ w₂, encode c e = .ok w₂ ∧ ∀ headers, headers.Perm w₂.headers →
      ∃ e', decode c ⟨headers, w₂.payload⟩ = .ok e' ∧ e'.Same e) ↔
      Forwardable c w.headers := by
  have hr := decode_received h
  -- whatever `encode` gives decodes to the normal form
  have hback : ∀ w₂, encode c e = .ok w₂ → ∀ headers, headers.Perm w₂.headers →
      ∃ e', decode c ⟨headers, w₂.payload⟩ = .ok e' ∧ e'.Same (normalise c e) := by
    intro w₂ hencode headers hperm
    have hpayload : w₂.payload = e.body := (encode_headers hencode).1
    rw [hpayload]
    exact ((encode_wire hencode).perm hperm).decode hr.name.2
  rw [hr.forwardable_iff]
  constructor
  · rintro ⟨w₂, hencode, hforward⟩
    obtain ⟨hsent, hexpires⟩ := (hr.encode_iff hc hw).mp ⟨w₂, hencode⟩
    refine ⟨hsent, hexpires, ?_⟩
    intro hd
    obtain ⟨e', hdecode, hsame⟩ := hforward w₂.headers (List.Perm.refl _)
    obtain ⟨e'', hdecode', hnormal⟩ := hback w₂ hencode w₂.headers (List.Perm.refl _)
    rw [hdecode] at hdecode'
    cases hdecode'
    -- the key would be kept by the one reading and dropped by the other
    have hkept := hsame.metadata.delivery.deduplicationId
    have hdropped := hnormal.metadata.delivery.deduplicationId
    rw [hkept, hd] at hdropped
    simp [normalise, hd, Option.filter] at hdropped
  · rintro ⟨hsent, hexpires, hd⟩
    obtain ⟨w₂, hencode⟩ := (hr.encode_iff hc hw).mpr ⟨hsent, hexpires⟩
    refine ⟨w₂, hencode, ?_⟩
    intro headers hperm
    have := hback w₂ hencode headers hperm
    rwa [hr.normalise_eq hd] at this

/-! ## A lawful codec -/

def epochText : String := "1970-01-01T00:00:00Z"

/-- An instant as a signed number of nanoseconds. -/
def nanosText (n : Int) : String :=
  String.ofList ((if n < 0 then '-' else '+') :: Nat.toDigits 10 n.natAbs)

def parseNanos (s : String) : Option Int :=
  match s.toList with
  | [] => none
  | sign :: digits =>
      let n : Int := Nat.ofDigitChars 10 digits 0
      some (if sign = '-' then -n else n)

theorem parseNanos_nanosText (n : Int) : parseNanos (nanosText n) = some n := by
  simp only [parseNanos, nanosText, String.toList_ofList, Nat.ofDigitChars_ten_toDigits]
  by_cases h : n < 0
  · simp only [h, if_true]
    congr 1
    omega
  · simp only [h, if_false]
    have : ('+' : Char) ≠ '-' := by decide
    simp only [this, if_false]
    congr 1
    omega

theorem nanosText_ne_epoch (n : Int) : nanosText n ≠ epochText := by
  intro h
  have hlist := congrArg String.toList h
  simp only [nanosText, String.toList_ofList] at hlist
  have hhead := congrArg List.head? hlist
  simp only [List.head?_cons] at hhead
  split at hhead
  · exact absurd hhead (by decide)
  · exact absurd hhead (by decide)

/-- UUIDs in their hyphenated form; the epoch under its RFC 3339 text, any other instant of the
years `0..=9999` under its number. -/
def nanosCodec : Codec where
  uuidText := plainCodec.uuidText
  parseUuid := plainCodec.parseUuid
  formatRfc3339 t :=
    if InRfcYears t.unixNanos then
      some (if t.unixNanos = 0 then epochText else nanosText t.unixNanos)
    else none
  parseRfc3339 s :=
    if s = epochText then OffsetDateTime.fromUnixTimestampNanos 0
    else (parseNanos s).bind OffsetDateTime.fromUnixTimestampNanos
  parse_uuidText := plainCodec.parse_uuidText
  parse_formatRfc3339 t s hoffset hs := by
    split at hs
    case isFalse => cases hs
    case isTrue hyears =>
      cases hs
      by_cases hzero : t.unixNanos = 0
      · simp only [hzero, if_true]
        exact ⟨_, rfl, rfl⟩
      · have hrange : OffsetDateTime.MIN_NANOS ≤ t.unixNanos ∧
            t.unixNanos ≤ OffsetDateTime.MAX_NANOS := by
          have := t.local_le
          rw [hoffset] at this
          simpa using this
        simp only [hzero, if_false, nanosText_ne_epoch, parseNanos_nanosText, Option.bind_some]
        simp [OffsetDateTime.fromUnixTimestampNanos, hrange]

theorem headerValueOf_ofList {chars : List Char} (h : ∀ ch ∈ chars, ch ≠ '\r' ∧ ch ≠ '\n') :
    headerValueOf (String.ofList chars) = some (String.ofList chars) := by
  have hall : chars.all (fun ch => ch != '\r' && ch != '\n') = true := by
    rw [List.all_eq_true]
    intro ch hch
    simp [h ch hch]
  simp only [headerValueOf, String.toList_ofList, hall, if_true]

theorem digitChar_ne_break {d : Nat} (h : d < 16) :
    Nat.digitChar d ≠ '\r' ∧ Nat.digitChar d ≠ '\n' := by
  revert d; decide

theorem hexDigits_ne_break (n k : Nat) : ∀ ch ∈ hexDigits n k, ch ≠ '\r' ∧ ch ≠ '\n' := by
  induction k with
  | zero => intro ch hch; cases hch
  | succ k ih =>
    intro ch hch
    rcases List.mem_cons.mp hch with rfl | hch
    · exact digitChar_ne_break (Nat.mod_lt _ (by decide))
    · exact ih ch hch

theorem mem_hyphenate {d : List Char} {ch : Char} (h : ch ∈ hyphenate d) : ch = '-' ∨ ch ∈ d := by
  by_cases hhyphen : ch = '-'
  · exact .inl hhyphen
  · simp only [hyphenate, List.mem_append, List.mem_cons, hhyphen, false_or] at h
    refine .inr ?_
    rcases h with h | h | h | h | h
    · exact List.mem_of_mem_take h
    · exact List.mem_of_mem_drop (List.mem_of_mem_take h)
    · exact List.mem_of_mem_drop (List.mem_of_mem_take h)
    · exact List.mem_of_mem_drop (List.mem_of_mem_take h)
    · exact List.mem_of_mem_drop h

theorem nanosCodec_lawful : nanosCodec.Lawful where
  uuid_value u := by
    refine headerValueOf_ofList ?_
    intro ch hch
    rcases mem_hyphenate hch with rfl | hch
    · decide
    · exact hexDigits_ne_break _ _ ch hch
  format_value t s hs := by
    simp only [nanosCodec] at hs
    split at hs
    case isFalse => cases hs
    case isTrue =>
      cases hs
      split
      · decide
      · refine headerValueOf_ofList ?_
        intro ch hch
        rcases List.mem_cons.mp hch with rfl | hch
        · split <;> decide
        · have hdigit := Nat.isDigit_of_mem_toDigits (by decide) (by decide) hch
          constructor
          · rintro rfl
            cases hdigit
          · rintro rfl
            cases hdigit
  format_some t _ := by
    by_cases hyears : InRfcYears t.unixNanos
    · simp [nanosCodec, hyears]
    · simp [nanosCodec, hyears]

/-- A message as another producer may write it: its own casing, a UUID without hyphens, an unknown
`reliar-` header and a custom header with two values. -/
def foreignMessage (dedup : String) : NatsWireMessage where
  headers :=
    [("Reliar-Message-Id", ["00000000000000000000000000000007"]),
      ("reliar-message-type", ["order.placed"]), ("RELIAR-MESSAGE-VERSION", ["+1"]),
      ("reliar-content-type", ["application/json"]), ("reliar-sent-at", [epochText]),
      ("reliar-shard", ["3"]), ("region", ["eu", "us"]), ("Nats-Msg-Id", [dedup])]
  payload := [1, 2, 3]

/-- With the canonical text of its own id as the deduplication key, the first reading keeps the key
and the second drops it. -/
theorem decode_forward_fails :
    ¬ ∀ w : NatsWireMessage, w.headers.WellFormed → ∀ e, decode nanosCodec w = .ok e →
      ∃ w₂ e', encode nanosCodec e = .ok w₂ ∧ decode nanosCodec w₂ = .ok e' ∧ e'.Same e := by
  intro hall
  have hwell : (foreignMessage "00000000-0000-0000-0000-000000000007").headers.WellFormed :=
    ⟨by decide, by decide, by decide⟩
  have hkey : (decode nanosCodec (foreignMessage "00000000-0000-0000-0000-000000000007")).map
      (fun e => e.metadata.delivery.deduplicationId) =
        .ok (some "00000000-0000-0000-0000-000000000007") := by decide
  have hback : (decode nanosCodec (foreignMessage "00000000-0000-0000-0000-000000000007")).map
      (fun e => (encode nanosCodec e).map fun w₂ => (decode nanosCodec w₂).map
        fun e' => e'.metadata.delivery.deduplicationId) = .ok (.ok (.ok none)) := by decide
  cases hdecode : decode nanosCodec (foreignMessage "00000000-0000-0000-0000-000000000007") with
  | error err => rw [hdecode] at hkey; cases hkey
  | ok e =>
    obtain ⟨w₂, e', hencode, hdecode', hsame⟩ := hall _ hwell e hdecode
    simp only [hdecode, hencode, hdecode', Except.map, Except.ok.injEq] at hkey hback
    rw [hsame.metadata.delivery.deduplicationId, hkey] at hback
    cases hback

/-- With a key of its own the same message goes through. -/
theorem decode_forward_foreign :
    ∃ e w₂, decode nanosCodec (foreignMessage "order-7") = .ok e ∧
      encode nanosCodec e = .ok w₂ ∧
      ∃ e', decode nanosCodec ⟨w₂.headers.reverse, w₂.payload⟩ = .ok e' ∧ e'.Same e := by
  have hwell : (foreignMessage "order-7").headers.WellFormed :=
    ⟨by decide, by decide, by decide⟩
  have hok : (decode nanosCodec (foreignMessage "order-7")).toOption.isSome = true := by decide
  have hforward : Forwardable nanosCodec (foreignMessage "order-7").headers := by
    refine ⟨?_, ?_, ?_⟩
    · intro s t hs ht
      have hraw : rawOf (foreignMessage "order-7").headers .sentAt = some epochText := by decide
      rw [hraw] at hs
      cases hs
      cases ht
      decide
    · intro s t hs
      have hraw : rawOf (foreignMessage "order-7").headers .expiresAt = none := by decide
      rw [hraw] at hs
      cases hs
    · intro raw id hraw hid hkey
      have hraw' : rawOf (foreignMessage "order-7").headers .messageId =
          some "00000000000000000000000000000007" := by decide
      rw [hraw'] at hraw
      cases hraw
      cases hid
      exact absurd hkey (by decide)
  cases hdecode : decode nanosCodec (foreignMessage "order-7") with
  | error err => rw [hdecode] at hok; cases hok
  | ok e =>
    obtain ⟨w₂, hencode, hback⟩ :=
      (decode_forward nanosCodec nanosCodec_lawful _ hwell e hdecode).mpr hforward
    exact ⟨e, w₂, rfl, hencode, hback _ (List.reverse_perm _)⟩

end Reliar.Nats
