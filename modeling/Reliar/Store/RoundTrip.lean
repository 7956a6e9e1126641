/-
# `Reliar.Store.RoundTrip` — what is enqueued is what is claimed

`decodeRow` after `insertRow` gives the envelope back, on both write paths.  The
columns come back as they were written: PostgreSQL returns text, uuid, bytea,
jsonb and timestamptz values unchanged, so the row that is decoded is
`Row.inserted` of the columns.

What changes on the way is what `Stored` says and no more: `sent_at` keeps whole
milliseconds, a present but empty header map comes back as an absent one, and
the content type is the writer's.
-/
import Reliar.Store.Records

namespace Reliar.Store

open Reliar.Core Reliar.Outbox

/-! ## One lemma per decoded column -/

theorem parseOption_map {α ε : Type} {parse : String → Except ε α} {fault : ε → RowFault}
    {text : α → String} (h : ∀ a, parse (text a) = .ok a) (o : Option α) :
    parseOption parse fault (o.map text) = .ok o := by
  cases o with
  | none => rfl
  | some a => simp [parseOption, h a, Except.map, Except.mapError]

theorem decodeVersion_ofNat (v : UInt16) : decodeVersion v.toNat = .ok v := by
  have hlt : (v.toNat : Int) < 65536 := by
    have := v.toNat_lt
    omega
  simp [decodeVersion, hlt]

theorem sentAtMs_range (m : Metadata) (ms : Int)
    (h : (metadataRest m).delivery.sentAtMs = some ms) :
    Json.I64_MIN ≤ ms ∧ ms ≤ Json.I64_MAX := by
  obtain ⟨t, -, rfl⟩ := Option.map_eq_some_iff.mp h
  exact encodeEpochMillis_range t

/-- Whether the remainder was written or left out, it is read back. -/
theorem decodeRest_metadataJson (m : Metadata) :
    decodeRest (metadataJson (metadataRest m)) = .ok (metadataRest m) := by
  by_cases h : (metadataRest m).isEmpty = true
  · have hd : metadataRest m = MetadataRest.default := MetadataRest.eq_default_of_isEmpty h
    rw [metadataJson, if_pos h, hd]
    rfl
  · simp only [metadataJson, if_neg h, decodeRest, MetadataRest.fromValue_toValue (sentAtMs_range m)]

theorem decodeSentAt_encode {sentAt : Option OffsetDateTime}
    (h : ∀ t, sentAt = some t → t.InUtcRange) :
    ∃ t', decodeSentAt (sentAt.map encodeEpochMillis) = .ok t' ∧
      t'.map OffsetDateTime.unixNanos = sentAt.map fun t => floorMillis t.unixNanos := by
  cases sentAt with
  | none => exact ⟨none, rfl, rfl⟩
  | some t =>
    obtain ⟨t', hdec, hfloor⟩ := decode_encodeEpochMillis (h t rfl)
    refine ⟨some t', ?_, by simp [hfloor]⟩
    simp [decodeSentAt, hdec]

/-- Re-inserting the entries of a valid map, in any order, succeeds and keeps them all. -/
theorem decodeFields_strings (es : List (String × String)) (acc : Headers)
    (hnd : ((acc.entries ++ es).map Prod.fst).Nodup)
    (hvalid : ∀ e ∈ es, Headers.check e.1 e.2 = .ok ())
    (hcount : (acc.entries ++ es).length ≤ Headers.MAX_COUNT) :
    ∃ h, decodeFields (es.map fun e => (e.1, Json.str e.2)) acc = .ok h ∧
      h.entries = acc.entries ++ es := by
  induction es generalizing acc with
  | nil => exact ⟨acc, rfl, by simp⟩
  | cons e es ih =>
    obtain ⟨key, value⟩ := e
    have hperm : (acc.entries ++ (key, value) :: es).Perm ((key, value) :: (acc.entries ++ es)) :=
      List.perm_middle
    have hfresh : key ∉ acc.keys := by
      have hcons : (key :: (acc.entries ++ es).map Prod.fst).Nodup :=
        (hperm.map Prod.fst).nodup_iff.mp hnd
      intro hk
      exact (List.nodup_cons.mp hcons).1 (by rw [List.map_append]; exact List.mem_append_left _ hk)
    have hroom : acc.entries.length < Headers.MAX_COUNT := by
      simp only [List.length_append, List.length_cons] at hcount
      omega
    have hins := Headers.insert_new hfresh (hvalid _ List.mem_cons_self) hroom
    have hassoc : acc.entries ++ [(key, value)] ++ es = acc.entries ++ (key, value) :: es := by simp
    obtain ⟨h, hdec, hentries⟩ := ih
      (acc.push key value hfresh (hvalid _ List.mem_cons_self) hroom)
      (by simpa only [Headers.push_entries, hassoc] using hnd)
      (fun e he => hvalid e (List.mem_cons_of_mem _ he))
      (by simpa only [Headers.push_entries, hassoc] using hcount)
    refine ⟨h, ?_, by rw [hentries, Headers.push_entries, hassoc]⟩
    simp only [List.map_cons, decodeFields, hins, hdec]

/-- The map as the table keeps it: an empty one is not told apart from none. -/
def storedHeaders (headers : Option Headers) : Option Headers := headers.filter fun h => !h.isEmpty

theorem decodeHeaders_headersJson (headers : Option Headers) :
    ∃ hs, decodeHeaders (headersJson headers) = .ok hs ∧
      SameHeaders hs (storedHeaders headers) := by
  rw [headersJson, storedHeaders]
  cases headers.filter fun h => !h.isEmpty with
  | none => exact ⟨none, rfl, trivial⟩
  | some h =>
    have hkeys : ((h.entries.map fun e => (e.1, Json.str e.2)).map Prod.fst).Nodup := by
      simpa [Function.comp_def] using h.nodup
    -- the object lists the entries by key; it is still the image of a reordering of them
    obtain ⟨es, hes, hperm⟩ : ∃ es : List (String × String),
        Json.collect (h.entries.map fun e => (e.1, Json.str e.2)) =
          es.map (fun e => (e.1, Json.str e.2)) ∧ es.Perm h.entries := by
      have hcollect := Json.perm_collect hkeys
      have hcomp := List.eq_map_comp_perm fun e : String × String => (e.1, Json.str e.2)
      exact (congrFun (congrFun hcomp _) _).mpr hcollect
    obtain ⟨h', hdec, hentries⟩ := decodeFields_strings es Headers.empty
      (by simpa [Headers.empty] using (hperm.map Prod.fst).nodup_iff.mpr h.nodup)
      (fun e he => h.valid e (hperm.mem_iff.mp he))
      (by simpa [Headers.empty, hperm.length_eq] using h.count)
    refine ⟨some h', ?_, ?_⟩
    · simp [decodeHeaders, Json.object, hes, hdec, Except.map]
    · change h'.entries.Perm h.entries
      simpa [hentries, Headers.empty] using hperm

/-! ## The round trip -/

/-- `stored` is the envelope `e` as written with body `payload` under `contentType`. -/
structure Stored {T : Type} (e : Envelope T) (payload : Bytes) (contentType : ContentType)
    (stored : SerializedEnvelope) : Prop where
  id : stored.id = e.id
  messageType : stored.messageType = e.messageType
  body : stored.body = payload
  correlation : stored.metadata.correlation = e.metadata.correlation
  trace : stored.metadata.trace = e.metadata.trace
  routing : stored.metadata.routing = e.metadata.routing
  contentType : stored.metadata.delivery.contentType = contentType
  sentAt : stored.metadata.delivery.sentAt.map OffsetDateTime.unixNanos =
    e.metadata.delivery.sentAt.map fun t => floorMillis t.unixNanos
  expiresAt : stored.metadata.delivery.expiresAt = e.metadata.delivery.expiresAt
  deduplicationId : stored.metadata.delivery.deduplicationId = e.metadata.delivery.deduplicationId
  tenantId : stored.metadata.tenantId = e.metadata.tenantId
  headers : SameHeaders stored.headers (storedHeaders e.headers)

/-- A record of a row on which nothing has happened since its insertion at `now`. -/
structure Untouched (r : OutboxRecord) (sequence : Int) (now : Timestamp) : Prop where
  sequence : r.sequence = sequence
  createdAt : r.createdAt = now
  availableAt : r.availableAt = now
  attempts : r.attempts = 0
  lockedBy : r.lockedBy = none
  lockedUntil : r.lockedUntil = none
  publishedAt : r.publishedAt = none
  deadAt : r.deadAt = none
  deadReason : r.deadReason = none
  lastError : r.lastError = none

/-- The record read back, given the two columns whose values change on the way. -/
def readBack {T : Type} (e : Envelope T) (payload : Bytes) (contentType : ContentType)
    (options : EnqueueOptions) (sequence : Int) (now : Timestamp) (sentAt : Option OffsetDateTime)
    (headers : Option Headers) : OutboxRecord :=
  let delivery := { e.metadata.delivery with contentType := contentType, sentAt := sentAt }
  let envelope : SerializedEnvelope :=
    { id := e.id
      messageType := e.messageType
      body := payload
      metadata := { e.metadata with delivery := delivery }
      headers := headers }
  { OutboxRecord.build envelope sequence now with orderingKey := options.orderingKey }

theorem decodeEnvelope_insertRow {T : Type} {e : Envelope T} (payload : Bytes)
    (contentType : ContentType) (options : EnqueueOptions) (sequence : Int) (now : Timestamp)
    {sentAt : Option OffsetDateTime} {headers : Option Headers}
    (hsent : decodeSentAt (e.metadata.delivery.sentAt.map encodeEpochMillis) = .ok sentAt)
    (hheaders : decodeHeaders (headersJson e.headers) = .ok headers) :
    decodeEnvelope (insertRow e payload contentType options) =
      .ok (readBack e payload contentType options sequence now sentAt headers).envelope := by
  have hcausation : (e.metadata.correlation.causationId.map MessageId.uuid).map MessageId.mk =
      e.metadata.correlation.causationId := by simp [Function.comp_def]
  have hrequest : (e.metadata.correlation.requestId.map RequestId.uuid).map RequestId.mk =
      e.metadata.correlation.requestId := by simp [Function.comp_def]
  have hversion : checkVersion METADATA_VERSION = .ok () := rfl
  have hcorrelation : parseOption CorrelationId.parse .invalidCorrelationId
      (e.metadata.correlation.correlationId.map CorrelationId.asStr) =
        .ok e.metadata.correlation.correlationId :=
    parseOption_map CorrelationId.parse_text _
  have hsource : parseOption EndpointAddress.parse .invalidSource
      (metadataRest e.metadata).routing.source = .ok e.metadata.routing.source :=
    parseOption_map EndpointAddress.parse_text _
  have hdestination : parseOption EndpointAddress.parse .invalidDestination
      (metadataRest e.metadata).routing.destination = .ok e.metadata.routing.destination :=
    parseOption_map EndpointAddress.parse_text _
  have hreply : parseOption EndpointAddress.parse .invalidReplyTo
      (metadataRest e.metadata).routing.replyTo = .ok e.metadata.routing.replyTo :=
    parseOption_map EndpointAddress.parse_text _
  have hsent' : decodeSentAt (metadataRest e.metadata).delivery.sentAtMs = .ok sentAt := hsent
  simp only [decodeEnvelope, insertRow, hversion, decodeVersion_ofNat, decodeRest_metadataJson,
    hcorrelation, ContentType.parse_text, Except.mapError, hsource, hdestination, hreply, hsent',
    hheaders, ok_bind, hcausation, hrequest]
  rfl

theorem decodeRow_insertRow {T : Type} {e : Envelope T} (payload : Bytes)
    (contentType : ContentType) (options : EnqueueOptions) (sequence : Int) (now : Timestamp)
    {sentAt : Option OffsetDateTime} {headers : Option Headers}
    (hsent : decodeSentAt (e.metadata.delivery.sentAt.map encodeEpochMillis) = .ok sentAt)
    (hheaders : decodeHeaders (headersJson e.headers) = .ok headers) :
    decodeRow (Row.inserted (insertRow e payload contentType options) sequence now) =
      .ok (readBack e payload contentType options sequence now sentAt headers) := by
  have henvelope :=
    decodeEnvelope_insertRow payload contentType options sequence now hsent hheaders
  simp only [decodeRow, decodeRecord, Row.inserted, henvelope, ok_bind]
  rfl

/-- A decoded envelope has read its `sent_at`. -/
theorem decodeEnvelope_sentAt {columns : Columns} {envelope : SerializedEnvelope}
    (h : decodeEnvelope columns = .ok envelope) :
    ∃ rest sentAt, decodeRest columns.metadata = .ok rest ∧
      decodeSentAt rest.delivery.sentAtMs = .ok sentAt := by
  obtain ⟨-, -, h⟩ := bind_eq_ok h
  obtain ⟨version, -, h⟩ := bind_eq_ok h
  obtain ⟨rest, hrest, h⟩ := bind_eq_ok h
  obtain ⟨correlation, -, h⟩ := bind_eq_ok h
  obtain ⟨content, -, h⟩ := bind_eq_ok h
  obtain ⟨source, -, h⟩ := bind_eq_ok h
  obtain ⟨destination, -, h⟩ := bind_eq_ok h
  obtain ⟨replyTo, -, h⟩ := bind_eq_ok h
  obtain ⟨sentAt, hsentAt, -⟩ := bind_eq_ok h
  exact ⟨rest, sentAt, hrest, hsentAt⟩

theorem decodeRow_envelope {row : Row} {r : OutboxRecord} (h : decodeRow row = .ok r) :
    ∃ envelope, decodeEnvelope row.columns = .ok envelope := by
  simp only [decodeRow] at h
  cases hrecord : decodeRecord row with
  | error fault => simp [hrecord, Except.mapError] at h
  | ok r' =>
    obtain ⟨envelope, henvelope, -⟩ := bind_eq_ok hrecord
    exact ⟨envelope, henvelope⟩

/-- What a row that decodes has read for its `sent_at`. -/
theorem decodeRow_ok_decodeSentAt {T : Type} {e : Envelope T} {payload : Bytes}
    {contentType : ContentType} {options : EnqueueOptions} {sequence : Int} {now : Timestamp}
    {r : OutboxRecord}
    (h : decodeRow (Row.inserted (insertRow e payload contentType options) sequence now) = .ok r) :
    ∃ sentAt, decodeSentAt (e.metadata.delivery.sentAt.map encodeEpochMillis) = .ok sentAt := by
  obtain ⟨envelope, henvelope⟩ := decodeRow_envelope h
  obtain ⟨rest, sentAt, hrest, hsentAt⟩ := decodeEnvelope_sentAt henvelope
  have hrest' : decodeRest (metadataJson (metadataRest e.metadata)) = .ok rest := hrest
  rw [decodeRest_metadataJson] at hrest'
  cases hrest'
  exact ⟨sentAt, hsentAt⟩

theorem decodeRow_ok_sentAt {T : Type} {e : Envelope T} {payload : Bytes}
    {contentType : ContentType} {options : EnqueueOptions} {sequence : Int} {now : Timestamp}
    {r : OutboxRecord}
    (h : decodeRow (Row.inserted (insertRow e payload contentType options) sequence now) = .ok r) :
    ∀ t, e.metadata.delivery.sentAt = some t → t.InUtcRange := by
  intro t ht
  obtain ⟨sentAt, hsentAt⟩ := decodeRow_ok_decodeSentAt h
  by_contra hrange
  rw [ht, Option.map_some, decodeSentAt, decode_encodeEpochMillis_none hrange] at hsentAt
  cases hsentAt

/-- The shared half of the two write paths. -/
theorem decode_insertRow {T : Type} (e : Envelope T) (payload : Bytes) (contentType : ContentType)
    (options : EnqueueOptions) (sequence : Int) (now : Timestamp)
    (hsent : ∀ t, e.metadata.delivery.sentAt = some t → t.InUtcRange) :
    ∃ r, decodeRow (Row.inserted (insertRow e payload contentType options) sequence now) = .ok r ∧
      Stored e payload contentType r.envelope ∧ Untouched r sequence now ∧
      r.orderingKey = options.orderingKey := by
  obtain ⟨sentAt, hsentAt, hfloor⟩ := decodeSentAt_encode hsent
  obtain ⟨headers, hheaders, hsame⟩ := decodeHeaders_headersJson e.headers
  refine ⟨readBack e payload contentType options sequence now sentAt headers, ?_, ?_, ?_, rfl⟩
  · exact decodeRow_insertRow payload contentType options sequence now hsentAt hheaders
  · exact
      { id := rfl, messageType := rfl, body := rfl, correlation := rfl, trace := rfl
        routing := rfl, contentType := rfl, sentAt := hfloor, expiresAt := rfl
        deduplicationId := rfl, tenantId := rfl, headers := hsame }
  · exact
      { sequence := rfl, createdAt := rfl, availableAt := rfl, attempts := rfl, lockedBy := rfl
        lockedUntil := rfl, publishedAt := rfl, deadAt := rfl, deadReason := rfl
        lastError := rfl }

/-- Both write paths, for every envelope, every serializer output and every insertion: decoding
the inserted columns succeeds, gives the envelope back, and shows a row that nothing has touched. -/
theorem enqueue_then_decode {T E : Type} (serializer : Serializer T E) (envelope : Envelope T)
    (options : EnqueueOptions) (staged : SerializedEnvelope) (sequence : Int) (now : Timestamp)
    (hsent : ∀ t, envelope.metadata.delivery.sentAt = some t → t.InUtcRange)
    (hstaged : ∀ t, staged.metadata.delivery.sentAt = some t → t.InUtcRange) :
    (∀ columns, enqueueWith serializer envelope options = .ok columns →
      ∃ payload r, serializer.serialize envelope.body = .ok payload ∧
        decodeRow (Row.inserted columns sequence now) = .ok r ∧
        Stored envelope payload serializer.contentType r.envelope ∧
        Untouched r sequence now ∧ r.orderingKey = options.orderingKey) ∧
    ∃ r, decodeRow (Row.inserted (stage staged) sequence now) = .ok r ∧
      Stored staged staged.body staged.metadata.delivery.contentType r.envelope ∧
      Untouched r sequence now ∧ r.orderingKey = none := by
  refine ⟨?_, decode_insertRow staged staged.body _ EnqueueOptions.default sequence now hstaged⟩
  intro columns hcolumns
  simp only [enqueueWith] at hcolumns
  split at hcolumns
  case h_1 => cases hcolumns
  case h_2 payload hpayload =>
    cases hcolumns
    obtain ⟨r, hr⟩ := decode_insertRow envelope payload serializer.contentType options sequence now
      hsent
    exact ⟨payload, r, hpayload, hr⟩

/-- Sent one nanosecond before the epoch, with one custom header. -/
def sentBeforeEpoch : SerializedEnvelope where
  id := ⟨⟨7⟩⟩
  messageType := MessageType.fromParts "order.placed" 1
  body := [1, 2, 3]
  metadata :=
    { Metadata.default with
      delivery :=
        { contentType := ContentType.JSON
          sentAt := some ⟨-1, 0, OffsetDateTime.zero_offset, by decide⟩
          expiresAt := none
          deduplicationId := some "order-7" } }
  headers := some ⟨[("region", "eu")], by decide, by decide, by decide⟩

/-- The two paths at one envelope; its `sent_at` comes back a millisecond before the epoch. -/
theorem enqueue_then_decode_before_epoch :
    (∃ columns payload r, enqueueWith (E := Empty) ⟨.ok, ContentType.JSON⟩ sentBeforeEpoch ⟨some "k"⟩ =
        .ok columns ∧ decodeRow (Row.inserted columns 1 0) = .ok r ∧
        Stored sentBeforeEpoch payload ContentType.JSON r.envelope ∧
        r.envelope.metadata.delivery.sentAt.map OffsetDateTime.unixNanos = some (-1000000)) ∧
      ∃ r, decodeRow (Row.inserted (stage sentBeforeEpoch) 1 0) = .ok r ∧
        Stored sentBeforeEpoch [1, 2, 3] ContentType.JSON r.envelope ∧ Untouched r 1 0 := by
  have hsent : ∀ t, sentBeforeEpoch.metadata.delivery.sentAt = some t → t.InUtcRange := by
    rintro t ht
    cases ht
    exact ⟨by decide, by decide⟩
  obtain ⟨henq, r, hr, hstored, huntouched, -⟩ :=
    enqueue_then_decode (E := Empty) ⟨.ok, ContentType.JSON⟩ sentBeforeEpoch ⟨some "k"⟩
      sentBeforeEpoch 1 0 hsent hsent
  obtain ⟨payload, r', -, hr', hstored', -, -⟩ := henq _ rfl
  exact ⟨⟨_, payload, r', rfl, hr', hstored', hstored'.sentAt⟩, r, hr, hstored, huntouched⟩

end Reliar.Store
