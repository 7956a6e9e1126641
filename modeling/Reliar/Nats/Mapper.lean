/-
# `Reliar.Nats.Mapper` — envelopes as NATS messages (`reliar-transport-nats`: `mapper.rs`,
`headers.rs`)

`encode` projects an envelope onto a header block and a payload; `decode` scans a
header block and rebuilds the envelope.

The seventeen framework headers form one family: `Field` lists them in the order
of the projection table, `fieldText` says what `encode` writes under each, and a
decoder slot per field says what `decode` saw.  `ScannedHeaders`' seventeen
fields are therefore one function on `Field`.

`async_nats::HeaderMap` is a hash map keyed by the exact spelling of a name.
The model keeps one enumeration of it; `decode` must not care which.  UUID and
RFC 3339 texts come from other crates and are a parameter, `Codec`, with the one
law the mapper relies on for each.
-/
import Reliar.Core.Envelope

namespace Reliar.Nats

open Reliar.Core

/-! ## Header names -/

/-- The framework headers, in the order of the projection table. -/
inductive Field
  | messageId
  | messageType
  | messageVersion
  | contentType
  | correlationId
  | conversationId
  | causationId
  | requestId
  | tenantId
  | sentAt
  | expiresAt
  | source
  | destination
  | replyTo
  | traceparent
  | tracestate
  | natsMsgId
  deriving DecidableEq, Repr

namespace Field

def all : List Field :=
  [.messageId, .messageType, .messageVersion, .contentType, .correlationId, .conversationId,
    .causationId, .requestId, .tenantId, .sentAt, .expiresAt, .source, .destination, .replyTo,
    .traceparent, .tracestate, .natsMsgId]

/-- The constants of `headers.rs`. -/
def name : Field → String
  | .messageId => "reliar-message-id"
  | .messageType => "reliar-message-type"
  | .messageVersion => "reliar-message-version"
  | .contentType => "reliar-content-type"
  | .correlationId => "reliar-correlation-id"
  | .conversationId => "reliar-conversation-id"
  | .causationId => "reliar-causation-id"
  | .requestId => "reliar-request-id"
  | .tenantId => "reliar-tenant-id"
  | .sentAt => "reliar-sent-at"
  | .expiresAt => "reliar-expires-at"
  | .source => "reliar-source"
  | .destination => "reliar-destination"
  | .replyTo => "reliar-reply-to"
  | .traceparent => "traceparent"
  | .tracestate => "tracestate"
  | .natsMsgId => "Nats-Msg-Id"

theorem mem_all (f : Field) : f ∈ all := by cases f <;> decide

theorem name_injective {f g : Field} (h : f.name = g.name) : f = g := by
  revert h
  cases f <;> cases g <;> decide

end Field

def RELIAR_PREFIX : String := "reliar-"
def NATS_PREFIX : String := "Nats-"

inductive HeaderKind
  | framework (f : Field)
  | natsBookkeeping
  | unknownReliar
  | custom
  deriving DecidableEq, Repr

/-- `classify_header`: the first known name that matches, whatever its casing, then the two
prefixes. -/
def classifyHeader (name : String) : HeaderKind :=
  match Field.all.find? fun f => eqIgnoreAsciiCase name f.name with
  | some f => .framework f
  | none =>
      if startsWithCi name NATS_PREFIX then .natsBookkeeping
      else if startsWithCi name RELIAR_PREFIX then .unknownReliar
      else .custom

theorem classifyHeader_of_eq {key name : String} (h : eqIgnoreAsciiCase key name = true) :
    classifyHeader key = classifyHeader name := by
  simp only [eqIgnoreAsciiCase, beq_iff_eq] at h
  simp [classifyHeader, eqIgnoreAsciiCase, startsWithCi, List.map_take, h]

/-- `trace_override_name`: the two framework names that core does not reserve. -/
def traceOverrideName (key : String) : Option Field :=
  if eqIgnoreAsciiCase key Field.traceparent.name then some .traceparent
  else if eqIgnoreAsciiCase key Field.tracestate.name then some .tracestate
  else none

/-! ## `async-nats` -/

/-- `async_nats::HeaderMap`, as one enumeration of its entries. -/
abbrev HeaderMap := List (String × List String)

/-- `HeaderMap::insert`: one value, in place of any the name already had. -/
def HeaderMap.insert (headers : HeaderMap) (name value : String) : HeaderMap :=
  if name ∈ headers.map Prod.fst then
    headers.map fun e => if e.1 = name then (name, [value]) else e
  else headers ++ [(name, [value])]

/-- `HeaderName::from_str`: non-empty, ASCII-graphic, no colon. -/
def headerName (s : String) : Option String :=
  if s ≠ "" ∧ s.toList.all (fun c => 0x21 ≤ c.toNat && c.toNat ≤ 0x7E && c != ':') then some s
  else none

/-- `HeaderValue::from_str`: no line break. -/
def headerValueOf (s : String) : Option String :=
  if s.toList.all fun c => c != '\r' && c != '\n' then some s else none

/-- The header block and the payload. -/
structure NatsWireMessage where
  headers : HeaderMap
  payload : Bytes

/-! ## Errors -/

inductive NatsMapError
  | missingHeader (header : String)
  | malformedHeader (header : String)
  | duplicateHeader (header : String)
  | unsupportedHeaderName (key : String)
  | reservedHeaderName (key : String)
  | invalidHeaderValue (header : String)
  | rejectedHeader (key : String) (source : HeaderError)
  deriving DecidableEq, Repr

/-- Why `encode` gives no message: an error, or the panic of `OffsetDateTime::to_offset` on an
instant that has no UTC date-time. -/
inductive Stop
  | error (err : NatsMapError)
  | panic
  deriving DecidableEq, Repr

/-! ## Texts of other crates -/

/-- UUID and RFC 3339 texts.  Formatting may refuse a date-time (a year outside `0..=9999`);
parsing undoes formatting in UTC. -/
structure Codec where
  uuidText : Uuid → String
  parseUuid : String → Option Uuid
  formatRfc3339 : OffsetDateTime → Option String
  parseRfc3339 : String → Option OffsetDateTime
  parse_uuidText : ∀ u, parseUuid (uuidText u) = some u
  parse_formatRfc3339 : ∀ t s, t.offset = 0 → formatRfc3339 t = some s →
    ∃ t', parseRfc3339 s = some t' ∧ t'.unixNanos = t.unixNanos

/-- The optional sign of an unsigned integer. -/
def stripPlus : List Char → List Char
  | [] => []
  | ch :: chars => if ch = '+' then chars else ch :: chars

/-- `u16`'s `FromStr`: an optional plus sign, then decimal digits that fit. -/
def parseU16 (s : String) : Option UInt16 :=
  let digits := stripPlus s.toList
  if digits ≠ [] ∧ digits.all Char.isDigit ∧ Nat.ofDigitChars 10 digits 0 < 65536 then
    some (UInt16.ofNat (Nat.ofDigitChars 10 digits 0))
  else none

/-! ## Encoding -/

section Encoding

variable (c : Codec) (envelope : SerializedEnvelope)

/-- `header_value`. -/
def headerValue (header s : String) : Except Stop String :=
  match headerValueOf s with
  | none => .error (.error (.invalidHeaderValue header))
  | some value => .ok value

/-- `rfc3339_utc`. -/
def rfc3339Utc (at' : OffsetDateTime) (header : String) : Except Stop String :=
  match OffsetDateTime.fromUnixTimestampNanos at'.unixNanos with
  | none => .error .panic
  | some utc =>
      match c.formatRfc3339 utc with
      | none => .error (.error (.invalidHeaderValue header))
      | some s => .ok s

/-- What `insert_framework_headers` writes under one name, before `header_value` looks at it;
`none` where it writes nothing. -/
def fieldText : Field → Except Stop (Option String)
  | .messageId => .ok (some (c.uuidText envelope.id.uuid))
  | .messageType => .ok (some envelope.messageType.name)
  | .messageVersion => .ok (some (toString envelope.messageType.version.toNat))
  | .contentType => .ok (some envelope.metadata.delivery.contentType.asStr)
  | .correlationId =>
      .ok (envelope.metadata.correlation.correlationId.map CorrelationId.asStr)
  | .conversationId =>
      if envelope.metadata.correlation.conversationId.isUnset then .ok none
      else .ok (some (c.uuidText envelope.metadata.correlation.conversationId.uuid))
  | .causationId =>
      .ok (envelope.metadata.correlation.causationId.map fun id => c.uuidText id.uuid)
  | .requestId => .ok (envelope.metadata.correlation.requestId.map fun id => c.uuidText id.uuid)
  | .tenantId => .ok envelope.metadata.tenantId
  | .sentAt =>
      match envelope.metadata.delivery.sentAt with
      | none => .ok none
      | some t => (rfc3339Utc c t Field.sentAt.name).map some
  | .expiresAt =>
      match envelope.metadata.delivery.expiresAt with
      | none => .ok none
      | some t => (rfc3339Utc c t Field.expiresAt.name).map some
  | .source => .ok (envelope.metadata.routing.source.map EndpointAddress.asStr)
  | .destination => .ok (envelope.metadata.routing.destination.map EndpointAddress.asStr)
  | .replyTo => .ok (envelope.metadata.routing.replyTo.map EndpointAddress.asStr)
  | .traceparent => .ok envelope.metadata.trace.traceparent
  | .tracestate => .ok envelope.metadata.trace.tracestate
  | .natsMsgId =>
      .ok (some (envelope.metadata.delivery.deduplicationId.getD (c.uuidText envelope.id.uuid)))

/-- One `if let Some(..) { headers.insert(..) }` of the projection. -/
def insertField (headers : HeaderMap) (f : Field) : Except Stop HeaderMap :=
  match fieldText c envelope f with
  | .error stop => .error stop
  | .ok none => .ok headers
  | .ok (some s) =>
      match headerValue f.name s with
      | .error stop => .error stop
      | .ok value => .ok (headers.insert f.name value)

/-- `insert_framework_headers` with `insert_routing_trace_and_dedup_headers`, from one field on. -/
def insertFields : List Field → HeaderMap → Except Stop HeaderMap
  | [], headers => .ok headers
  | f :: fs, headers =>
      match insertField c envelope headers f with
      | .error stop => .error stop
      | .ok headers' => insertFields fs headers'

/-- `framework_value_set`. -/
def frameworkValueSet (canonical : Field) : Bool :=
  if canonical = .traceparent then envelope.metadata.trace.traceparent.isSome
  else envelope.metadata.trace.tracestate.isSome

/-- The loop over the custom headers.  `written` says which trace names a custom header has
already supplied. -/
def encodeCustom : List (String × String) → HeaderMap → (Field → Bool) → Except Stop HeaderMap
  | [], headers, _ => .ok headers
  | (key, value) :: entries, headers, written =>
      if startsWithCi key NATS_PREFIX then .error (.error (.reservedHeaderName key))
      else
        match traceOverrideName key with
        | some canonical =>
            if frameworkValueSet envelope canonical then encodeCustom entries headers written
            else if written canonical then .error (.error (.duplicateHeader canonical.name))
            else
              match headerValue canonical.name value with
              | .error stop => .error stop
              | .ok v =>
                  encodeCustom entries (headers.insert canonical.name v)
                    (fun f => f == canonical || written f)
        | none =>
            match headerName key with
            | none => .error (.error (.unsupportedHeaderName key))
            | some name =>
                match headerValue key value with
                | .error stop => .error stop
                | .ok v => encodeCustom entries (headers.insert name v) written

/-- The entries `encode` loops over. -/
def customEntries (headers : Option Headers) : List (String × String) :=
  match headers with
  | none => []
  | some h => h.entries

/-- `NatsEnvelopeMapper::encode`: custom headers first, framework headers over them. -/
def encode : Except Stop NatsWireMessage :=
  match encodeCustom envelope (customEntries envelope.headers) [] fun _ => false with
  | .error stop => .error stop
  | .ok headers =>
      match insertFields c envelope Field.all headers with
      | .error stop => .error stop
      | .ok headers' => .ok ⟨headers', envelope.body⟩

end Encoding

/-! ## Decoding -/

/-- The raw text of every header `decode` recognises, and the custom headers. -/
structure ScannedHeaders where
  slots : Field → Option String
  custom : Option Headers

def ScannedHeaders.default : ScannedHeaders := ⟨fun _ => none, none⟩

/-- `assign_once`: a second occurrence, or an entry without exactly one value, is a duplicate. -/
def assignOnce (scanned : ScannedHeaders) (f : Field) (values : List String) :
    Except NatsMapError ScannedHeaders :=
  match scanned.slots f, values with
  | none, [value] =>
      .ok { scanned with slots := fun g => if g = f then some value else scanned.slots g }
  | _, _ => .error (.duplicateHeader f.name)

/-- A custom header: the first of its values. -/
def assignCustom (scanned : ScannedHeaders) (name : String) (values : List String) :
    Except NatsMapError ScannedHeaders :=
  match (scanned.custom.getD Headers.empty).insert name (values.headD "") with
  | .error err => .error (.rejectedHeader name err)
  | .ok (headers, _) => .ok { scanned with custom := some headers }

/-- `ScannedHeaders::scan`, from one entry on. -/
def scan : HeaderMap → ScannedHeaders → Except NatsMapError ScannedHeaders
  | [], scanned => .ok scanned
  | (name, values) :: headers, scanned =>
      match classifyHeader name with
      | .framework f =>
          match assignOnce scanned f values with
          | .error err => .error err
          | .ok scanned' => scan headers scanned'
      | .natsBookkeeping => scan headers scanned
      | .unknownReliar => scan headers scanned
      | .custom =>
          match assignCustom scanned name values with
          | .error err => .error err
          | .ok scanned' => scan headers scanned'

/-- `self.x.ok_or(MissingHeader)`. -/
def required (scanned : ScannedHeaders) (f : Field) : Except NatsMapError String :=
  match scanned.slots f with
  | none => .error (.missingHeader f.name)
  | some raw => .ok raw

/-- `.map_err(|_| MalformedHeader)`. -/
def wellFormed {α : Type} (f : Field) : Option α → Except NatsMapError α
  | none => .error (.malformedHeader f.name)
  | some a => .ok a

/-- `self.x.map(parse).transpose().map_err(..)`. -/
def optional {α : Type} (scanned : ScannedHeaders) (f : Field) (parse : String → Option α) :
    Except NatsMapError (Option α) :=
  match scanned.slots f with
  | none => .ok none
  | some raw => (wellFormed f (parse raw)).map some

/-- What `parse_identity` returns. -/
structure Identity where
  id : MessageId
  messageIdRaw : String
  messageType : MessageType
  contentType : ContentType

section Decoding

variable (c : Codec)

/-- `parse_identity`. -/
def parseIdentity (scanned : ScannedHeaders) : Except NatsMapError Identity := do
  let messageIdRaw ← required scanned .messageId
  let messageTypeRaw ← required scanned .messageType
  let messageVersionRaw ← required scanned .messageVersion
  let contentTypeRaw ← required scanned .contentType
  let id ← wellFormed .messageId (c.parseUuid messageIdRaw)
  let version ← wellFormed .messageVersion (parseU16 messageVersionRaw)
  let name ← wellFormed .messageType (if messageTypeRaw = "" then none else some messageTypeRaw)
  let contentType ← wellFormed .contentType (ContentType.parse contentTypeRaw).toOption
  return ⟨⟨id⟩, messageIdRaw, MessageType.fromParts name version, contentType⟩

/-- `parse_metadata`; the content type is filled in by the caller. -/
def parseMetadata (scanned : ScannedHeaders) (messageIdRaw : String) (contentType : ContentType) :
    Except NatsMapError Metadata := do
  let correlationId ← optional scanned .correlationId fun s => (CorrelationId.parse s).toOption
  let conversationId ← optional scanned .conversationId c.parseUuid
  let causationId ← optional scanned .causationId c.parseUuid
  let requestId ← optional scanned .requestId c.parseUuid
  let sentAt ← optional scanned .sentAt c.parseRfc3339
  let expiresAt ← optional scanned .expiresAt c.parseRfc3339
  let source ← optional scanned .source fun s => (EndpointAddress.parse s).toOption
  let destination ← optional scanned .destination fun s => (EndpointAddress.parse s).toOption
  let replyTo ← optional scanned .replyTo fun s => (EndpointAddress.parse s).toOption
  return {
    correlation :=
      ⟨correlationId, (conversationId.map ConversationId.mk).getD ConversationId.UNSET,
        causationId.map MessageId.mk, requestId.map RequestId.mk⟩
    trace := ⟨scanned.slots .traceparent, scanned.slots .tracestate⟩
    routing := ⟨source, destination, replyTo⟩
    delivery :=
      ⟨contentType, sentAt, expiresAt,
        (scanned.slots .natsMsgId).filter fun v => v != messageIdRaw⟩
    tenantId := scanned.slots .tenantId }

/-- `into_envelope`. -/
def intoEnvelope (scanned : ScannedHeaders) (payload : Bytes) :
    Except NatsMapError SerializedEnvelope := do
  let identity ← parseIdentity c scanned
  let metadata ← parseMetadata c scanned identity.messageIdRaw identity.contentType
  return ⟨identity.id, identity.messageType, payload, metadata, scanned.custom⟩

/-- `NatsEnvelopeMapper::decode`. -/
def decode (message : NatsWireMessage) : Except NatsMapError SerializedEnvelope :=
  match scan message.headers ScannedHeaders.default with
  | .error err => .error err
  | .ok scanned => intoEnvelope c scanned message.payload

end Decoding

end Reliar.Nats
