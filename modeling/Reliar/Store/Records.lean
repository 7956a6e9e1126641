/-
# `Reliar.Store.Records` — table rows and their decoder (`reliar-store-postgres`: `records.rs`,
`store.rs`'s `insert_row`, `migrations/0001_outbox.sql`)

An envelope is written by `insertRow` and read by `decodeRow`, which live in
different files of the source and share nothing but the column list.  The
promoted metadata has columns of its own; the rest is one JSON object,
`MetadataRest`, left out when it would be empty.

`serde_json::Map` is a `BTreeMap` here (the `preserve_order` feature is off), so
an object is a list of fields sorted by key, built by repeated insertion.  The
text of a serde error belongs to another crate: a fault carries the value that
was refused, and `Rendering` stands for how it is shown.
-/
import Reliar.Outbox.Types

namespace Reliar.Store

open Reliar.Core Reliar.Outbox

/-! ## JSON values -/

/-- `serde_json::Value`.  Integers lie in `-2^63 .. 2^64 - 1`. -/
inductive Json
  | null
  | bool (b : Bool)
  | int (n : Int)
  | float (text : String)
  | str (s : String)
  | arr (elements : List Json)
  | obj (fields : List (String × Json))

namespace Json

/-- `BTreeMap::insert` on the sorted fields. -/
def insertField (key : String) (value : Json) : List (String × Json) → List (String × Json)
  | [] => [(key, value)]
  | (k, v) :: fields =>
      if key < k then (key, value) :: (k, v) :: fields
      else if key = k then (key, value) :: fields
      else (k, v) :: insertField key value fields

/-- `collect` into a map: entries are inserted one by one. -/
def collect (entries : List (String × Json)) : List (String × Json) :=
  entries.foldl (fun fields e => insertField e.1 e.2 fields) []

/-- A derived `Serialize` of a struct: every field is written, whatever its value. -/
def object (entries : List (String × Json)) : Json := .obj (collect entries)

def ofOptStr : Option String → Json
  | none => .null
  | some s => .str s

def ofOptInt : Option Int → Json
  | none => .null
  | some n => .int n

/-- `Option<String>`'s `Deserialize`. -/
def toOptStr : Json → Option (Option String)
  | .null => some none
  | .str s => some (some s)
  | _ => none

def I64_MIN : Int := -9223372036854775808
def I64_MAX : Int := 9223372036854775807

/-- `Option<i64>`'s `Deserialize`: a float is refused, and so is an integer above `i64::MAX`. -/
def toOptI64 : Json → Option (Option Int)
  | .null => some none
  | .int n => if I64_MIN ≤ n ∧ n ≤ I64_MAX then some (some n) else none
  | _ => none

/-- Field number `i` of a struct with `n` fields, as a derived `Deserialize` with
`#[serde(default)]` finds it: by name in an object, where unknown fields are ignored, or by place
in an array that is not too long; the inner `none` is a field to be defaulted. -/
def member (n i : Nat) (key : String) : Json → Option (Option Json)
  | .obj fields => some (fields.lookup key)
  | .arr elements => if elements.length ≤ n then some elements[i]? else none
  | _ => none

/-- Reads one field with `read`; a field that is not there has the value `dflt`. -/
def readMember {α : Type} (n i : Nat) (key : String) (dflt : α) (read : Json → Option α)
    (j : Json) : Option α :=
  match j.member n i key with
  | none => none
  | some none => some dflt
  | some (some value) => read value

theorem lookup_cons_if (x k : String) (v : Json) (fields : List (String × Json)) :
    ((k, v) :: fields).lookup x = if x = k then some v else fields.lookup x := by
  by_cases h : x = k
  · simp [h]
  · simp [List.lookup_cons, beq_eq_false_iff_ne.mpr h, h]

theorem lookup_insertField (x key : String) (value : Json) (fields : List (String × Json)) :
    (insertField key value fields).lookup x =
      if x = key then some value else fields.lookup x := by
  induction fields with
  | nil => simp [insertField, lookup_cons_if]
  | cons e fields ih =>
    obtain ⟨k, v⟩ := e
    simp only [insertField]
    split
    case isTrue => simp [lookup_cons_if]
    case isFalse =>
      split
      case isTrue hk =>
        subst hk
        by_cases h : x = key <;> simp [lookup_cons_if, h]
      case isFalse hk =>
        by_cases h : x = k
        · subst h
          simp [Ne.symm hk]
        · simp [lookup_cons_if, h, ih]

theorem perm_insertField {key : String} (value : Json) {fields : List (String × Json)}
    (h : key ∉ fields.map Prod.fst) :
    (insertField key value fields).Perm ((key, value) :: fields) := by
  induction fields with
  | nil => exact List.Perm.refl _
  | cons e fields ih =>
    obtain ⟨k, v⟩ := e
    simp only [List.map_cons, List.mem_cons, not_or] at h
    simp only [insertField, if_neg h.1]
    split
    · exact List.Perm.refl _
    · exact ((ih h.2).cons _).trans (List.Perm.swap _ _ _)

/-- Entries with distinct keys are all kept, in the order of their keys. -/
theorem perm_collect {entries : List (String × Json)} (h : (entries.map Prod.fst).Nodup) :
    (collect entries).Perm entries := by
  -- generalised over the accumulator, whose keys are apart from the entries' still to come
  suffices H : ∀ (es fields : List (String × Json)),
      ((fields ++ es).map Prod.fst).Nodup →
        (es.foldl (fun fields e => insertField e.1 e.2 fields) fields).Perm (fields ++ es) by
    exact H entries [] h
  intro es
  induction es with
  | nil => intro fields _; simp
  | cons e es ih =>
    intro fields hnd
    have hperm : (fields ++ e :: es).Perm (e :: (fields ++ es)) := List.perm_middle
    have hnd' : (e.1 :: (fields ++ es).map Prod.fst).Nodup := (hperm.map Prod.fst).nodup_iff.mp hnd
    have hfresh : e.1 ∉ fields.map Prod.fst := fun hm =>
      (List.nodup_cons.mp hnd').1 (by rw [List.map_append]; exact List.mem_append_left _ hm)
    have hins : (insertField e.1 e.2 fields ++ es).Perm (e :: (fields ++ es)) :=
      (perm_insertField e.2 hfresh).append_right es
    have hnd₂ : ((insertField e.1 e.2 fields ++ es).map Prod.fst).Nodup :=
      (hins.map Prod.fst).nodup_iff.mpr hnd'
    exact ((ih _ hnd₂).trans hins).trans hperm.symm

@[simp] theorem toOptStr_ofOptStr (s : Option String) : (ofOptStr s).toOptStr = some s := by
  cases s <;> rfl

theorem toOptI64_ofOptInt {n : Option Int} (h : ∀ m, n = some m → I64_MIN ≤ m ∧ m ≤ I64_MAX) :
    (ofOptInt n).toOptI64 = some n := by
  cases n with
  | none => rfl
  | some m => simp [ofOptInt, toOptI64, h m rfl]

end Json

/-! ## The JSON remainder -/

structure TraceRest where
  traceparent : Option String
  tracestate : Option String
  deriving DecidableEq

structure RoutingRest where
  source : Option String
  destination : Option String
  replyTo : Option String
  deriving DecidableEq

structure DeliveryRest where
  sentAtMs : Option Int
  deduplicationId : Option String
  deriving DecidableEq

/-- Every field of `Metadata` that is not a promoted column. -/
structure MetadataRest where
  trace : TraceRest
  routing : RoutingRest
  delivery : DeliveryRest
  deriving DecidableEq

namespace MetadataRest

def default : MetadataRest := ⟨⟨none, none⟩, ⟨none, none, none⟩, ⟨none, none⟩⟩

/-- `serde_json::to_value`. -/
def toValue (r : MetadataRest) : Json :=
  .object
    [("trace", .object
        [("traceparent", .ofOptStr r.trace.traceparent),
         ("tracestate", .ofOptStr r.trace.tracestate)]),
     ("routing", .object
        [("source", .ofOptStr r.routing.source),
         ("destination", .ofOptStr r.routing.destination),
         ("reply_to", .ofOptStr r.routing.replyTo)]),
     ("delivery", .object
        [("sent_at_ms", .ofOptInt r.delivery.sentAtMs),
         ("deduplication_id", .ofOptStr r.delivery.deduplicationId)])]

def traceFromValue (j : Json) : Option TraceRest := do
  let traceparent ← j.readMember 2 0 "traceparent" none Json.toOptStr
  let tracestate ← j.readMember 2 1 "tracestate" none Json.toOptStr
  return ⟨traceparent, tracestate⟩

def routingFromValue (j : Json) : Option RoutingRest := do
  let source ← j.readMember 3 0 "source" none Json.toOptStr
  let destination ← j.readMember 3 1 "destination" none Json.toOptStr
  let replyTo ← j.readMember 3 2 "reply_to" none Json.toOptStr
  return ⟨source, destination, replyTo⟩

def deliveryFromValue (j : Json) : Option DeliveryRest := do
  let sentAtMs ← j.readMember 2 0 "sent_at_ms" none Json.toOptI64
  let deduplicationId ← j.readMember 2 1 "deduplication_id" none Json.toOptStr
  return ⟨sentAtMs, deduplicationId⟩

/-- `serde_json::from_value::<MetadataRest>`. -/
def fromValue (j : Json) : Option MetadataRest := do
  let trace ← j.readMember 3 0 "trace" default.trace traceFromValue
  let routing ← j.readMember 3 1 "routing" default.routing routingFromValue
  let delivery ← j.readMember 3 2 "delivery" default.delivery deliveryFromValue
  return ⟨trace, routing, delivery⟩

/-- The emptiness test of `insert_row`, field by field. -/
def isEmpty (r : MetadataRest) : Bool :=
  r.trace.traceparent.isNone && r.trace.tracestate.isNone && r.routing.source.isNone &&
    r.routing.destination.isNone && r.routing.replyTo.isNone && r.delivery.sentAtMs.isNone &&
    r.delivery.deduplicationId.isNone

theorem eq_default_of_isEmpty {r : MetadataRest} (h : r.isEmpty = true) : r = default := by
  obtain ⟨⟨tp, ts⟩, ⟨src, dst, rt⟩, ⟨ms, dd⟩⟩ := r
  simp only [isEmpty, Bool.and_eq_true, Option.isNone_iff_eq_none] at h
  simp [default, h]

theorem fromValue_toValue {r : MetadataRest}
    (h : ∀ m, r.delivery.sentAtMs = some m → Json.I64_MIN ≤ m ∧ m ≤ Json.I64_MAX) :
    fromValue r.toValue = some r := by
  have hms : (Json.ofOptInt r.delivery.sentAtMs).toOptI64 = some r.delivery.sentAtMs :=
    Json.toOptI64_ofOptInt h
  simp [fromValue, toValue, Json.object, Json.collect, Json.readMember, Json.member,
    Json.lookup_insertField, traceFromValue, routingFromValue, deliveryFromValue, hms]

end MetadataRest

/-! ## Epoch milliseconds -/

/-- `encode_epoch_millis`: whole seconds and the millisecond of the second, saturating at the ends
of `i64`. -/
def encodeEpochMillis (dt : OffsetDateTime) : Int :=
  let secs := dt.unixNanos / 1000000000
  let millisOfSecond := dt.unixNanos % 1000000000 / 1000000
  if Json.I64_MIN ≤ secs * 1000 ∧ secs * 1000 ≤ Json.I64_MAX ∧
      Json.I64_MIN ≤ secs * 1000 + millisOfSecond ∧ secs * 1000 + millisOfSecond ≤ Json.I64_MAX then
    secs * 1000 + millisOfSecond
  else if secs < 0 then Json.I64_MIN
  else Json.I64_MAX

/-- `decode_epoch_millis`. -/
def decodeEpochMillis (ms : Int) : Option OffsetDateTime :=
  OffsetDateTime.fromUnixTimestampNanos (ms * 1000000)

/-- The last whole millisecond at or before an instant. -/
def floorMillis (t : Timestamp) : Timestamp := t / 1000000 * 1000000

theorem encodeEpochMillis_range (dt : OffsetDateTime) :
    Json.I64_MIN ≤ encodeEpochMillis dt ∧ encodeEpochMillis dt ≤ Json.I64_MAX := by
  simp only [encodeEpochMillis]
  split
  case isTrue h => exact h.2.2
  case isFalse => split <;> decide

/-- Nothing an `OffsetDateTime` can hold saturates, whatever its offset. -/
theorem encodeEpochMillis_eq (dt : OffsetDateTime) :
    encodeEpochMillis dt = dt.unixNanos / 1000000 := by
  obtain ⟨hoffset, hoffset'⟩ := dt.offset_le
  obtain ⟨hlo, hhi⟩ := dt.local_le
  simp only [OffsetDateTime.MIN_NANOS, OffsetDateTime.MAX_NANOS, OffsetDateTime.MAX_OFFSET] at *
  have hfits : Json.I64_MIN ≤ dt.unixNanos / 1000000000 * 1000 ∧
      dt.unixNanos / 1000000000 * 1000 ≤ Json.I64_MAX ∧
      Json.I64_MIN ≤ dt.unixNanos / 1000000000 * 1000 + dt.unixNanos % 1000000000 / 1000000 ∧
      dt.unixNanos / 1000000000 * 1000 + dt.unixNanos % 1000000000 / 1000000 ≤ Json.I64_MAX := by
    simp only [Json.I64_MIN, Json.I64_MAX]
    lia
  simp only [encodeEpochMillis]
  rw [if_pos hfits]
  lia

/-- The milliseconds lie in the UTC range exactly when the instant does. -/
theorem floorMillis_range (dt : OffsetDateTime) :
    (OffsetDateTime.MIN_NANOS ≤ dt.unixNanos / 1000000 * 1000000 ∧
      dt.unixNanos / 1000000 * 1000000 ≤ OffsetDateTime.MAX_NANOS) ↔ dt.InUtcRange := by
  simp only [OffsetDateTime.InUtcRange, OffsetDateTime.MIN_NANOS, OffsetDateTime.MAX_NANOS]
  constructor <;> intro h <;> lia

theorem decode_encodeEpochMillis {dt : OffsetDateTime} (h : dt.InUtcRange) :
    ∃ dt', decodeEpochMillis (encodeEpochMillis dt) = some dt' ∧
      dt'.unixNanos = floorMillis dt.unixNanos := by
  have hrange := (floorMillis_range dt).mpr h
  refine ⟨⟨dt.unixNanos / 1000000 * 1000000, 0, by decide, by simpa using hrange⟩, ?_, rfl⟩
  rw [decodeEpochMillis, encodeEpochMillis_eq, OffsetDateTime.fromUnixTimestampNanos,
    dif_pos hrange]

/-- An instant without a UTC date-time is written, and not read back. -/
theorem decode_encodeEpochMillis_none {dt : OffsetDateTime} (h : ¬ dt.InUtcRange) :
    decodeEpochMillis (encodeEpochMillis dt) = none := by
  rw [decodeEpochMillis, encodeEpochMillis_eq, OffsetDateTime.fromUnixTimestampNanos,
    dif_neg (mt (floorMillis_range dt).mp h)]

/-! ## Rows -/

/-- The columns of `outbox` that hold the envelope: `insert_row` writes them and no other
statement names them in a `SET`. -/
structure Columns where
  id : Uuid
  messageType : String
  messageVersion : Int
  correlationId : Option String
  conversationId : Uuid
  causationId : Option Uuid
  requestId : Option Uuid
  contentType : String
  payload : Bytes
  tenantId : Option String
  expiresAt : Option OffsetDateTime
  orderingKey : Option String
  metadata : Option Json
  headers : Option Json
  metadataVersion : Int

/-- A row of `outbox`: `RawRow`, with `updated_at`, which no decoder reads. -/
structure Row where
  columns : Columns
  sequence : Int
  createdAt : Timestamp
  availableAt : Timestamp
  updatedAt : Timestamp
  attempts : Int
  lockedBy : Option String
  lockedUntil : Option Timestamp
  publishedAt : Option Timestamp
  deadAt : Option Timestamp
  deadReason : Option String
  lastError : Option String

/-- The column defaults of the processing state, in a transaction whose `now()` is `now`. -/
def Row.inserted (columns : Columns) (sequence : Int) (now : Timestamp) : Row where
  columns := columns
  sequence := sequence
  createdAt := now
  availableAt := now
  updatedAt := now
  attempts := 0
  lockedBy := none
  lockedUntil := none
  publishedAt := none
  deadAt := none
  deadReason := none
  lastError := none

/-- The `metadata_version` this version reads; also the column's default. -/
def METADATA_VERSION : Int := 1

/-- The instant of `expires_at`. -/
def Columns.expires (c : Columns) : Option Timestamp := c.expiresAt.map OffsetDateTime.unixNanos

/-! ## Writing -/

structure EnqueueOptions where
  orderingKey : Option String
  deriving DecidableEq

def EnqueueOptions.default : EnqueueOptions := ⟨none⟩

/-- The remainder `insert_row` builds. -/
def metadataRest (m : Metadata) : MetadataRest where
  trace := ⟨m.trace.traceparent, m.trace.tracestate⟩
  routing := ⟨m.routing.source.map EndpointAddress.asStr,
    m.routing.destination.map EndpointAddress.asStr, m.routing.replyTo.map EndpointAddress.asStr⟩
  delivery := ⟨m.delivery.sentAt.map encodeEpochMillis, m.delivery.deduplicationId⟩

/-- An empty remainder is written as SQL `NULL`. -/
def metadataJson (rest : MetadataRest) : Option Json :=
  if rest.isEmpty then none else some rest.toValue

/-- Absent and empty headers are both written as SQL `NULL`. -/
def headersJson (headers : Option Headers) : Option Json :=
  (headers.filter fun h => !h.isEmpty).map fun h =>
    .object (h.entries.map fun e => (e.1, Json.str e.2))

/-- `insert_row`: the values of the `INSERT`. -/
def insertRow {T : Type} (envelope : Envelope T) (payload : Bytes) (contentType : ContentType)
    (options : EnqueueOptions) : Columns where
  id := envelope.id.uuid
  messageType := envelope.messageType.name
  messageVersion := envelope.messageType.version.toNat
  correlationId := envelope.metadata.correlation.correlationId.map CorrelationId.asStr
  conversationId := envelope.metadata.correlation.conversationId.uuid
  causationId := envelope.metadata.correlation.causationId.map MessageId.uuid
  requestId := envelope.metadata.correlation.requestId.map RequestId.uuid
  contentType := contentType.asStr
  payload := payload
  tenantId := envelope.metadata.tenantId
  expiresAt := envelope.metadata.delivery.expiresAt
  orderingKey := options.orderingKey
  metadata := metadataJson (metadataRest envelope.metadata)
  headers := headersJson envelope.headers
  metadataVersion := METADATA_VERSION

/-- A `Serializer`: bytes for a body, and the content type it writes. -/
structure Serializer (T E : Type) where
  serialize : T → Except E Bytes
  contentType : ContentType

/-- `enqueue_with`, up to the `INSERT`; `enqueue` passes the default options. -/
def enqueueWith {T E : Type} (serializer : Serializer T E) (envelope : Envelope T)
    (options : EnqueueOptions) : Except E Columns :=
  match serializer.serialize envelope.body with
  | .error source => .error source
  | .ok payload => .ok (insertRow envelope payload serializer.contentType options)

/-- `OutboxStaging::stage`: an envelope that is already serialized, under its own content type. -/
def stage (envelope : SerializedEnvelope) : Columns :=
  insertRow envelope envelope.body envelope.metadata.delivery.contentType EnqueueOptions.default

/-! ## Reading -/

/-- Why a row cannot be decoded. -/
inductive RowFault
  | unknownMetadataVersion (version : Int)
  | messageVersionOutOfRange (version : Int)
  | malformedMetadata (value : Json)
  | invalidCorrelationId (err : IdError)
  | invalidContentType (err : ContentTypeError)
  | invalidSource (err : IdError)
  | invalidDestination (err : IdError)
  | invalidReplyTo (err : IdError)
  | sentAtOutOfRange (ms : Int)
  | headerNotString (key : String)
  | invalidHeader (key : String) (err : HeaderError)
  | headersNotObject
  | unknownDeadReason (value : String)
  | invalidLockedBy (err : IdError)
  | attemptsOutOfRange (attempts : Int)

/-- How other code shows values inside an error text: `{:?}` of a string, and the message of
`serde_json::from_value::<MetadataRest>` on a value it refuses. -/
structure Rendering where
  debug : String → String
  serde : Json → String

/-- `IdError`'s `Display`. -/
def idErrorText : IdError → String
  | .empty => "value must not be empty"
  | .tooLong len max => s!"value length {len} exceeds the maximum of {max}"
  | .controlCharacter => "value must not contain a control character"

def MALFORMED_DISPLAY_LEN : Nat := 64

/-- `ContentTypeError`'s `Display`: at most a fixed prefix of a refused value is shown. -/
def contentTypeErrorText (r : Rendering) : ContentTypeError → String
  | .empty => "content type must not be empty"
  | .tooLong len max => s!"content type length {len} exceeds the maximum of {max}"
  | .malformed value =>
      let shown := String.ofList (value.toList.take MALFORMED_DISPLAY_LEN)
      let rest := if MALFORMED_DISPLAY_LEN < value.toList.length then "…" else ""
      "malformed content type: " ++ r.debug shown ++ rest

/-- `HeaderError`'s `Display`. -/
def headerErrorText (r : Rendering) : HeaderError → String
  | .reserved key => "header key " ++ r.debug key ++ " uses the reserved `reliar-` prefix"
  | .emptyKey => "header key must not be empty"
  | .controlCharacterInKey key => "header key " ++ r.debug key ++ " contains a control character"
  | .controlCharacterInValue key =>
      "header value for key " ++ r.debug key ++ " contains a control character"
  | .keyTooLong len => s!"header key length {len} exceeds the maximum of {Headers.MAX_KEY_LEN}"
  | .valueTooLong len =>
      s!"header value length {len} exceeds the maximum of {Headers.MAX_VALUE_LEN}"
  | .tooManyHeaders limit => s!"header count would exceed the maximum of {limit}"

/-- The `detail` of a `RowError`. -/
def RowFault.text (r : Rendering) : RowFault → String
  | .unknownMetadataVersion version => s!"unknown metadata_version {version}"
  | .messageVersionOutOfRange version => s!"message_version {version} out of range for u16"
  | .malformedMetadata value => "malformed metadata: " ++ r.serde value
  | .invalidCorrelationId err => "invalid correlation_id: " ++ idErrorText err
  | .invalidContentType err => "invalid content_type: " ++ contentTypeErrorText r err
  | .invalidSource err => "invalid routing.source: " ++ idErrorText err
  | .invalidDestination err => "invalid routing.destination: " ++ idErrorText err
  | .invalidReplyTo err => "invalid routing.reply_to: " ++ idErrorText err
  | .sentAtOutOfRange ms => s!"sent_at_ms {ms} out of range"
  | .headerNotString key => "header " ++ r.debug key ++ " is not a JSON string"
  | .invalidHeader key err => "invalid header " ++ r.debug key ++ ": " ++ headerErrorText r err
  | .headersNotObject => "headers column is not a JSON object"
  | .unknownDeadReason value => "unknown dead_reason " ++ r.debug value
  | .invalidLockedBy err => "invalid locked_by: " ++ idErrorText err
  | .attemptsOutOfRange attempts => s!"attempts {attempts} out of range for u32"

/-- `decode_dead_reason`. -/
def decodeDeadReason (value : String) : Option DeadReason :=
  if value = "permanent_error" then some .permanentError
  else if value = "attempts_exhausted" then some .attemptsExhausted
  else if value = "expired" then some .expired
  else if value = "undecodable" then some .undecodable
  else none

/-- `encode_dead_reason`. -/
def encodeDeadReason : DeadReason → String
  | .permanentError => "permanent_error"
  | .attemptsExhausted => "attempts_exhausted"
  | .expired => "expired"
  | .undecodable => "undecodable"

/-- `.map(parse).transpose().map_err(fault)`. -/
def parseOption {α ε : Type} (parse : String → Except ε α) (fault : ε → RowFault) :
    Option String → Except RowFault (Option α)
  | none => .ok none
  | some s => ((parse s).map some).mapError fault

def decodeRest : Option Json → Except RowFault MetadataRest
  | none => .ok MetadataRest.default
  | some value =>
      match MetadataRest.fromValue value with
      | none => .error (.malformedMetadata value)
      | some rest => .ok rest

def decodeSentAt : Option Int → Except RowFault (Option OffsetDateTime)
  | none => .ok none
  | some ms =>
      match decodeEpochMillis ms with
      | none => .error (.sentAtOutOfRange ms)
      | some t => .ok (some t)

/-- The loop over the object's fields, in key order. -/
def decodeFields : List (String × Json) → Headers → Except RowFault Headers
  | [], headers => .ok headers
  | (key, value) :: fields, headers =>
      match value with
      | .str text =>
          match headers.insert key text with
          | .error err => .error (.invalidHeader key err)
          | .ok (headers', _) => decodeFields fields headers'
      | _ => .error (.headerNotString key)

def decodeHeaders : Option Json → Except RowFault (Option Headers)
  | none => .ok none
  | some (.obj fields) => (decodeFields fields Headers.empty).map some
  | some _ => .error .headersNotObject

def decodeReason : Option String → Except RowFault (Option DeadReason)
  | none => .ok none
  | some value =>
      match decodeDeadReason value with
      | none => .error (.unknownDeadReason value)
      | some reason => .ok (some reason)

/-- `u16::try_from` of the version column. -/
def decodeVersion (version : Int) : Except RowFault UInt16 :=
  if 0 ≤ version ∧ version < 65536 then .ok (UInt16.ofNat version.toNat)
  else .error (.messageVersionOutOfRange version)

/-- `u32::try_from` of the attempts column. -/
def decodeAttempts (attempts : Int) : Except RowFault Nat :=
  if 0 ≤ attempts ∧ attempts < 4294967296 then .ok attempts.toNat
  else .error (.attemptsOutOfRange attempts)

def checkVersion (version : Int) : Except RowFault Unit :=
  if version ≠ METADATA_VERSION then .error (.unknownMetadataVersion version) else .ok ()

/-- The first half of `decode_row`: everything the envelope's columns say. -/
def decodeEnvelope (c : Columns) : Except RowFault SerializedEnvelope := do
  checkVersion c.metadataVersion
  let version ← decodeVersion c.messageVersion
  let rest ← decodeRest c.metadata
  let correlationId ← parseOption CorrelationId.parse .invalidCorrelationId c.correlationId
  let contentType ← (ContentType.parse c.contentType).mapError .invalidContentType
  let source ← parseOption EndpointAddress.parse .invalidSource rest.routing.source
  let destination ← parseOption EndpointAddress.parse .invalidDestination rest.routing.destination
  let replyTo ← parseOption EndpointAddress.parse .invalidReplyTo rest.routing.replyTo
  let sentAt ← decodeSentAt rest.delivery.sentAtMs
  let headers ← decodeHeaders c.headers
  let metadata : Metadata :=
    { correlation :=
        ⟨correlationId, ⟨c.conversationId⟩, c.causationId.map MessageId.mk,
          c.requestId.map RequestId.mk⟩
      trace := ⟨rest.trace.traceparent, rest.trace.tracestate⟩
      routing := ⟨source, destination, replyTo⟩
      delivery := ⟨contentType, sentAt, c.expiresAt, rest.delivery.deduplicationId⟩
      tenantId := c.tenantId }
  return {
    id := ⟨c.id⟩
    messageType := MessageType.fromParts c.messageType version
    body := c.payload
    metadata := metadata
    headers := headers }

/-- The body of `decode_row`, faults not yet tagged with the row. -/
def decodeRecord (row : Row) : Except RowFault OutboxRecord := do
  let envelope ← decodeEnvelope row.columns
  let deadReason ← decodeReason row.deadReason
  let lockedBy ← parseOption WorkerId.parse .invalidLockedBy row.lockedBy
  let attempts ← decodeAttempts row.attempts
  return {
    envelope := envelope
    sequence := row.sequence
    createdAt := row.createdAt
    orderingKey := row.columns.orderingKey
    attempts := attempts
    availableAt := row.availableAt
    lockedBy := lockedBy
    lockedUntil := row.lockedUntil
    publishedAt := row.publishedAt
    deadAt := row.deadAt
    deadReason := deadReason
    lastError := row.lastError.map truncateError }

/-- A row that could not be decoded, and why. -/
structure RowError where
  id : MessageId
  sequence : Int
  detail : RowFault

/-- `decode_row`. -/
def decodeRow (row : Row) : Except RowError OutboxRecord :=
  (decodeRecord row).mapError fun fault => ⟨⟨row.columns.id⟩, row.sequence, fault⟩

theorem decodeRow_error {r : Row} {err : RowError} (h : decodeRow r = .error err) :
    err.id.uuid = r.columns.id ∧ err.sequence = r.sequence := by
  unfold decodeRow at h
  cases hrecord : decodeRecord r with
  | ok record =>
      rw [hrecord] at h
      cases h
  | error fault =>
      rw [hrecord] at h
      cases h
      exact ⟨rfl, rfl⟩

end Reliar.Store
