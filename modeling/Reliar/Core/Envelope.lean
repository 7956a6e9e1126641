/-
# `Reliar.Core.Envelope` — metadata and envelopes (`reliar-core`: `metadata.rs`, `envelope.rs`)

`Envelope T` is a body of type `T` with the framework metadata and the custom
headers.  `SerializedEnvelope` is the persistence and transport form.

`time::OffsetDateTime` compares by instant, so `Envelope.Same` — Rust's
`PartialEq` — compares timestamps by instant and headers as maps.
-/
import Reliar.Core.Headers

namespace Reliar.Core

abbrev Bytes := List UInt8

/-! ## Time -/

/-- Nanoseconds since the Unix epoch: all that any comparison of two `OffsetDateTime`s sees. -/
abbrev Timestamp := Int

/-- A `core::time::Duration`, in nanoseconds. -/
abbrev Duration := Nat

namespace Duration

def ofMillis (ms : Nat) : Duration := ms * 1000000
def ofSecs (s : Nat) : Duration := s * 1000000000

/-- `Duration::as_millis`: truncating. -/
def asMillis (d : Duration) : Nat := d / 1000000

end Duration

namespace OffsetDateTime

/-- `-9999-01-01T00:00:00`, as nanoseconds since the epoch. -/
def MIN_NANOS : Int := -377705116800000000000

/-- `9999-12-31T23:59:59.999999999`. -/
def MAX_NANOS : Int := 253402300799999999999

/-- `25:59:59`, the largest `UtcOffset`. -/
def MAX_OFFSET : Int := 93599

end OffsetDateTime

/-- A date-time with a UTC offset.  What is bounded is the *local* date-time (years
`-9999..=9999`), so near the ends of the range an instant may exist only under some offsets. -/
structure OffsetDateTime where
  unixNanos : Timestamp
  offset : Int
  offset_le : -OffsetDateTime.MAX_OFFSET ≤ offset ∧ offset ≤ OffsetDateTime.MAX_OFFSET
  local_le : OffsetDateTime.MIN_NANOS ≤ unixNanos + offset * 1000000000 ∧
    unixNanos + offset * 1000000000 ≤ OffsetDateTime.MAX_NANOS
  deriving DecidableEq

/-- The instant lies in the range a UTC date-time can hold. -/
def OffsetDateTime.InUtcRange (t : OffsetDateTime) : Prop :=
  OffsetDateTime.MIN_NANOS ≤ t.unixNanos ∧ t.unixNanos ≤ OffsetDateTime.MAX_NANOS

theorem OffsetDateTime.zero_offset :
    -OffsetDateTime.MAX_OFFSET ≤ 0 ∧ 0 ≤ OffsetDateTime.MAX_OFFSET := by decide

/-- `OffsetDateTime::from_unix_timestamp_nanos`: an `Err` outside the UTC range. -/
def OffsetDateTime.fromUnixTimestampNanos (n : Int) : Option OffsetDateTime :=
  if h : OffsetDateTime.MIN_NANOS ≤ n ∧ n ≤ OffsetDateTime.MAX_NANOS then
    some ⟨n, 0, OffsetDateTime.zero_offset, by simpa using h⟩
  else none

theorem OffsetDateTime.fromUnixTimestampNanos_some {n : Int}
    (h : OffsetDateTime.MIN_NANOS ≤ n ∧ n ≤ OffsetDateTime.MAX_NANOS) :
    ∃ t, OffsetDateTime.fromUnixTimestampNanos n = some t ∧ t.unixNanos = n ∧ t.offset = 0 :=
  ⟨_, dif_pos h, rfl, rfl⟩

/-! ## Metadata -/

structure CorrelationMetadata where
  correlationId : Option CorrelationId
  conversationId : ConversationId
  causationId : Option MessageId
  requestId : Option RequestId
  deriving DecidableEq

/-- W3C Trace Context, carried verbatim. -/
structure TraceContext where
  traceparent : Option String
  tracestate : Option String
  deriving DecidableEq

structure RoutingMetadata where
  source : Option EndpointAddress
  destination : Option EndpointAddress
  replyTo : Option EndpointAddress
  deriving DecidableEq

structure DeliveryMetadata where
  contentType : ContentType
  sentAt : Option OffsetDateTime
  expiresAt : Option OffsetDateTime
  deduplicationId : Option String
  deriving DecidableEq

/-- Canonical framework metadata. -/
structure Metadata where
  correlation : CorrelationMetadata
  trace : TraceContext
  routing : RoutingMetadata
  delivery : DeliveryMetadata
  tenantId : Option String
  deriving DecidableEq

/-- `Metadata::default`: the conversation is the `UNSET` sentinel, not a fresh id. -/
def Metadata.default : Metadata where
  correlation := ⟨none, ConversationId.UNSET, none, none⟩
  trace := ⟨none, none⟩
  routing := ⟨none, none, none⟩
  delivery := ⟨ContentType.JSON, none, none, none⟩
  tenantId := none

/-! ## Envelopes -/

structure Envelope (T : Type) where
  id : MessageId
  messageType : MessageType
  body : T
  metadata : Metadata
  headers : Option Headers
  deriving DecidableEq

/-- The persistence and transport form. -/
abbrev SerializedEnvelope := Envelope Bytes

/-- The instant after which the message is not published. -/
def Envelope.expiresAt {T : Type} (e : Envelope T) : Option Timestamp :=
  e.metadata.delivery.expiresAt.map OffsetDateTime.unixNanos

/-! ## Equality of envelopes -/

/-- Two optional date-times name the same instant. -/
def SameInstant (t t' : Option OffsetDateTime) : Prop :=
  t.map OffsetDateTime.unixNanos = t'.map OffsetDateTime.unixNanos

/-- `DeliveryMetadata`'s `PartialEq`. -/
structure DeliveryMetadata.Same (d d' : DeliveryMetadata) : Prop where
  contentType : d.contentType = d'.contentType
  sentAt : SameInstant d.sentAt d'.sentAt
  expiresAt : SameInstant d.expiresAt d'.expiresAt
  deduplicationId : d.deduplicationId = d'.deduplicationId

/-- `Metadata`'s `PartialEq`. -/
structure Metadata.Same (m m' : Metadata) : Prop where
  correlation : m.correlation = m'.correlation
  trace : m.trace = m'.trace
  routing : m.routing = m'.routing
  delivery : m.delivery.Same m'.delivery
  tenantId : m.tenantId = m'.tenantId

/-- `Envelope`'s `PartialEq`. -/
structure Envelope.Same {T : Type} (e e' : Envelope T) : Prop where
  id : e.id = e'.id
  messageType : e.messageType = e'.messageType
  body : e.body = e'.body
  metadata : e.metadata.Same e'.metadata
  headers : SameHeaders e.headers e'.headers

end Reliar.Core
