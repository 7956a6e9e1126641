/-
# `Reliar.Store.Upgrades` — metadata written by another version (`reliar-store-postgres`:
`records.rs`)

A version that knows fewer fields writes fewer keys, one that knows more adds
some.  `MetadataEdit` is any such difference, at both levels of the object.
Every field of the remainder is optional and has a default, so an edited object
reads as the remainder without the fields whose key is gone; and since the
remainder of an envelope is a function of its metadata, the row decodes as that
of the envelope without them.
-/
import Reliar.Store.RoundTrip

namespace Reliar.Store

open Reliar.Core Reliar.Outbox

/-! ## Edits of one object -/

/-- Keys taken out of an object that had the fields `known`, and keys put into it that are none of
them. -/
structure ObjectEdit (known : List String) where
  deleted : List String
  added : List (String × Json)
  unknown : ∀ e ∈ added, e.1 ∉ known

namespace ObjectEdit

variable {known : List String} (edit : ObjectEdit known)

def deletes (key : String) : Bool := edit.deleted.contains key

def fields (original : List (String × Json)) : List (String × Json) :=
  edit.added.foldl (fun fields e => Json.insertField e.1 e.2 fields)
    (original.filter fun e => !edit.deletes e.1)

def apply : Json → Json
  | .obj original => .obj (edit.fields original)
  | value => value

end ObjectEdit

namespace Json

theorem lookup_filter (p : String → Bool) (key : String) (fields : List (String × Json)) :
    (fields.filter fun e => p e.1).lookup key = if p key then fields.lookup key else none := by
  induction fields with
  | nil => simp
  | cons e fields ih =>
      obtain ⟨k, v⟩ := e
      rw [List.filter_cons, lookup_cons_if]
      by_cases hkey : key = k
      · subst hkey
        by_cases hp : p key = true
        · rw [if_pos hp, if_pos rfl, if_pos hp, lookup_cons_if, if_pos rfl]
        · rw [if_neg hp, ih, if_neg hp, if_neg hp]
      · rw [if_neg hkey, ← ih]
        split
        case isTrue => rw [lookup_cons_if, if_neg hkey]
        case isFalse => rfl

theorem lookup_inserted {key : String} {added fields : List (String × Json)}
    (h : ∀ e ∈ added, e.1 ≠ key) :
    (added.foldl (fun fields e => insertField e.1 e.2 fields) fields).lookup key =
      fields.lookup key := by
  induction added generalizing fields with
  | nil => rfl
  | cons e added ih =>
      rw [List.foldl_cons, ih fun e' he' => h e' (List.mem_cons_of_mem _ he'),
        lookup_insertField, if_neg (h e List.mem_cons_self).symm]

theorem lookup_mapValues (f : String → Json → Json) (key : String)
    (fields : List (String × Json)) :
    (fields.map fun e => (e.1, f e.1 e.2)).lookup key = (fields.lookup key).map (f key) := by
  induction fields with
  | nil => rfl
  | cons e fields ih =>
      obtain ⟨k, v⟩ := e
      rw [List.map_cons, lookup_cons_if, lookup_cons_if, ih]
      split
      case isTrue hkey => rw [hkey]; rfl
      case isFalse => rfl

/-- A member of an edited object is as it was, or has its default. -/
theorem readMember_edit {α : Type} {known : List String} (edit : ObjectEdit known) {n i : Nat}
    {key : String} {dflt : α} {read : Json → Option α} {fields : List (String × Json)}
    (hkey : key ∈ known) :
    readMember n i key dflt read (.obj (edit.fields fields)) =
      if edit.deletes key then some dflt else readMember n i key dflt read (.obj fields) := by
  have hlookup : (edit.fields fields).lookup key =
      if edit.deletes key then none else fields.lookup key := by
    rw [ObjectEdit.fields, lookup_inserted fun e he heq => edit.unknown e he (heq ▸ hkey),
      lookup_filter fun k => !edit.deletes k]
    cases edit.deletes key <;> rfl
  simp only [readMember, member, hlookup]
  cases edit.deletes key <;> rfl

end Json

/-! ## Edits of the metadata column -/

/-- One edit for each of the structs. -/
structure MetadataEdit where
  top : ObjectEdit ["trace", "routing", "delivery"]
  trace : ObjectEdit ["traceparent", "tracestate"]
  routing : ObjectEdit ["source", "destination", "reply_to"]
  delivery : ObjectEdit ["sent_at_ms", "deduplication_id"]

namespace MetadataEdit

variable (edit : MetadataEdit)

/-- What happens within the value of a known key. -/
def inner (key : String) (value : Json) : Json :=
  if key = "trace" then edit.trace.apply value
  else if key = "routing" then edit.routing.apply value
  else if key = "delivery" then edit.delivery.apply value
  else value

def apply : Json → Json
  | .obj original => edit.top.apply (.obj (original.map fun e => (e.1, edit.inner e.1 e.2)))
  | value => value

/-- A field whose key, or the key around it, is deleted. -/
def goneTrace (key : String) : Bool := edit.top.deletes "trace" || edit.trace.deletes key

def goneRouting (key : String) : Bool := edit.top.deletes "routing" || edit.routing.deletes key

def goneDelivery (key : String) : Bool := edit.top.deletes "delivery" || edit.delivery.deletes key

/-- The seven fields without those that are gone. -/
def rest (r : MetadataRest) : MetadataRest where
  trace := {
    traceparent := if edit.goneTrace "traceparent" then none else r.trace.traceparent
    tracestate := if edit.goneTrace "tracestate" then none else r.trace.tracestate }
  routing := {
    source := if edit.goneRouting "source" then none else r.routing.source
    destination := if edit.goneRouting "destination" then none else r.routing.destination
    replyTo := if edit.goneRouting "reply_to" then none else r.routing.replyTo }
  delivery := {
    sentAtMs := if edit.goneDelivery "sent_at_ms" then none else r.delivery.sentAtMs
    deduplicationId :=
      if edit.goneDelivery "deduplication_id" then none else r.delivery.deduplicationId }

/-- The same of an envelope's metadata. -/
def metadata (m : Metadata) : Metadata :=
  { m with
    trace := {
      traceparent := if edit.goneTrace "traceparent" then none else m.trace.traceparent
      tracestate := if edit.goneTrace "tracestate" then none else m.trace.tracestate }
    routing := {
      source := if edit.goneRouting "source" then none else m.routing.source
      destination := if edit.goneRouting "destination" then none else m.routing.destination
      replyTo := if edit.goneRouting "reply_to" then none else m.routing.replyTo }
    delivery := { m.delivery with
      sentAt := if edit.goneDelivery "sent_at_ms" then none else m.delivery.sentAt
      deduplicationId :=
        if edit.goneDelivery "deduplication_id" then none else m.delivery.deduplicationId } }

def envelope {T : Type} (e : Envelope T) : Envelope T := { e with metadata := edit.metadata e.metadata }

def record (r : OutboxRecord) : OutboxRecord := { r with envelope := edit.envelope r.envelope }

/-- The columns with the metadata column edited. -/
def columns (c : Columns) : Columns := { c with metadata := c.metadata.map edit.apply }

end MetadataEdit

section
variable (edit : MetadataEdit)

theorem metadataRest_edit (m : Metadata) :
    metadataRest (edit.metadata m) = edit.rest (metadataRest m) := by
  simp only [metadataRest, MetadataEdit.metadata, MetadataEdit.rest, apply_ite (Option.map _),
    Option.map_none]

theorem traceFromValue_edit (r : TraceRest) :
    MetadataRest.traceFromValue (edit.trace.apply (.object
        [("traceparent", .ofOptStr r.traceparent), ("tracestate", .ofOptStr r.tracestate)])) =
      some ⟨if edit.trace.deletes "traceparent" then none else r.traceparent,
        if edit.trace.deletes "tracestate" then none else r.tracestate⟩ := by
  rw [MetadataRest.traceFromValue, Json.object, ObjectEdit.apply,
    Json.readMember_edit _ (by decide), Json.readMember_edit _ (by decide)]
  cases edit.trace.deletes "traceparent" <;> cases edit.trace.deletes "tracestate" <;>
    simp [Json.readMember, Json.member, Json.collect, Json.lookup_insertField]

theorem routingFromValue_edit (r : RoutingRest) :
    MetadataRest.routingFromValue (edit.routing.apply (.object
        [("source", .ofOptStr r.source), ("destination", .ofOptStr r.destination),
          ("reply_to", .ofOptStr r.replyTo)])) =
      some ⟨if edit.routing.deletes "source" then none else r.source,
        if edit.routing.deletes "destination" then none else r.destination,
        if edit.routing.deletes "reply_to" then none else r.replyTo⟩ := by
  rw [MetadataRest.routingFromValue, Json.object, ObjectEdit.apply,
    Json.readMember_edit _ (by decide), Json.readMember_edit _ (by decide),
    Json.readMember_edit _ (by decide)]
  cases edit.routing.deletes "source" <;> cases edit.routing.deletes "destination" <;>
    cases edit.routing.deletes "reply_to" <;>
      simp [Json.readMember, Json.member, Json.collect, Json.lookup_insertField]

theorem deliveryFromValue_edit {r : DeliveryRest}
    (h : ∀ m, r.sentAtMs = some m → Json.I64_MIN ≤ m ∧ m ≤ Json.I64_MAX) :
    MetadataRest.deliveryFromValue (edit.delivery.apply (.object
        [("sent_at_ms", .ofOptInt r.sentAtMs), ("deduplication_id", .ofOptStr r.deduplicationId)])) =
      some ⟨if edit.delivery.deletes "sent_at_ms" then none else r.sentAtMs,
        if edit.delivery.deletes "deduplication_id" then none else r.deduplicationId⟩ := by
  have hms : (Json.ofOptInt r.sentAtMs).toOptI64 = some r.sentAtMs := Json.toOptI64_ofOptInt h
  rw [MetadataRest.deliveryFromValue, Json.object, ObjectEdit.apply,
    Json.readMember_edit _ (by decide), Json.readMember_edit _ (by decide)]
  cases edit.delivery.deletes "sent_at_ms" <;> cases edit.delivery.deletes "deduplication_id" <;>
    simp [Json.readMember, Json.member, Json.collect, Json.lookup_insertField, hms]

/-- A struct of the remainder, edited within and then taken out or not. -/
theorem readMember_top {α : Type} {i : Nat} {key : String} {dflt : α} {read : Json → Option α}
    {fields : List (String × Json)} {value : Json} (hkey : key ∈ ["trace", "routing", "delivery"])
    (hvalue : fields.lookup key = some value) :
    (edit.apply (.obj fields)).readMember 3 i key dflt read =
      if edit.top.deletes key then some dflt else read (edit.inner key value) := by
  rw [MetadataEdit.apply, ObjectEdit.apply, Json.readMember_edit _ hkey]
  simp only [Json.readMember, Json.member, Json.lookup_mapValues, hvalue, Option.map_some]

theorem lookup_top (trace routing delivery : Json) :
    let fields := Json.collect [("trace", trace), ("routing", routing), ("delivery", delivery)]
    fields.lookup "trace" = some trace ∧ fields.lookup "routing" = some routing ∧
      fields.lookup "delivery" = some delivery := by
  simp [Json.collect, Json.lookup_insertField]

/-- An edited remainder reads as the remainder without what is gone. -/
theorem fromValue_edit {r : MetadataRest}
    (h : ∀ m, r.delivery.sentAtMs = some m → Json.I64_MIN ≤ m ∧ m ≤ Json.I64_MAX) :
    MetadataRest.fromValue (edit.apply r.toValue) = some (edit.rest r) := by
  obtain ⟨htrace, hrouting, hdelivery⟩ := lookup_top
    (.object [("traceparent", .ofOptStr r.trace.traceparent),
      ("tracestate", .ofOptStr r.trace.tracestate)])
    (.object [("source", .ofOptStr r.routing.source),
      ("destination", .ofOptStr r.routing.destination), ("reply_to", .ofOptStr r.routing.replyTo)])
    (.object [("sent_at_ms", .ofOptInt r.delivery.sentAtMs),
      ("deduplication_id", .ofOptStr r.delivery.deduplicationId)])
  rw [MetadataRest.fromValue, MetadataRest.toValue, Json.object,
    readMember_top edit (by decide) htrace, readMember_top edit (by decide) hrouting,
    readMember_top edit (by decide) hdelivery]
  simp only [MetadataEdit.inner, if_true, String.reduceEq, if_false, traceFromValue_edit,
    routingFromValue_edit, deliveryFromValue_edit edit h]
  cases htop : edit.top.deletes "trace" <;> cases hrtop : edit.top.deletes "routing" <;>
    cases hdtop : edit.top.deletes "delivery" <;>
      simp [MetadataEdit.rest, MetadataEdit.goneTrace, MetadataEdit.goneRouting,
        MetadataEdit.goneDelivery, htop, hrtop, hdtop, MetadataRest.default]

/-- The edited column decodes to the remainder of the envelope without what is gone. -/
theorem decodeRest_edit {m : Metadata} {value : Json}
    (h : metadataJson (metadataRest m) = some value) :
    decodeRest (some (edit.apply value)) = .ok (metadataRest (edit.metadata m)) := by
  have hvalue : (metadataRest m).toValue = value := by
    unfold metadataJson at h
    split at h
    case isTrue => cases h
    case isFalse => exact Option.some.inj h
  have hread : MetadataRest.fromValue (edit.apply value) = some (edit.rest (metadataRest m)) := by
    rw [← hvalue]
    exact fromValue_edit edit (sentAtMs_range m)
  rw [decodeRest, hread, metadataRest_edit]

theorem decodeEnvelope_congr {c c' : Columns} (hc : c = { c' with metadata := c.metadata })
    (hrest : decodeRest c.metadata = decodeRest c'.metadata) :
    decodeEnvelope c = decodeEnvelope c' := by
  rw [hc]
  simp only [decodeEnvelope, hrest]

/-- The edited row decodes as the row of the envelope without what is gone. -/
theorem decodeRow_edit {T : Type} (e : Envelope T) (payload : Bytes) (contentType : ContentType)
    (options : EnqueueOptions) (sequence : Int) (now : Timestamp) {value : Json}
    (h : (insertRow e payload contentType options).metadata = some value) :
    decodeRow (Row.inserted (edit.columns (insertRow e payload contentType options)) sequence now) =
      decodeRow (Row.inserted (insertRow (edit.envelope e) payload contentType options)
        sequence now) := by
  have hedited : decodeRest (edit.columns (insertRow e payload contentType options)).metadata =
      decodeRest (insertRow (edit.envelope e) payload contentType options).metadata := by
    rw [MetadataEdit.columns, h, Option.map_some, decodeRest_edit edit h]
    exact (decodeRest_metadataJson _).symm
  have henvelope := decodeEnvelope_congr rfl hedited
  simp only [decodeRow, decodeRecord, Row.inserted, henvelope]
  rfl

/-- Where both rows decode, the records differ by what is gone. -/
theorem decodeRow_record {T : Type} {e : Envelope T} {payload : Bytes} {contentType : ContentType}
    {options : EnqueueOptions} {sequence : Int} {now : Timestamp} {r r' : OutboxRecord}
    (hr : decodeRow (Row.inserted (insertRow e payload contentType options) sequence now) = .ok r)
    (hr' : decodeRow (Row.inserted (insertRow (edit.envelope e) payload contentType options)
      sequence now) = .ok r') : r' = edit.record r := by
  obtain ⟨sentAt, hsent⟩ := decodeRow_ok_decodeSentAt hr
  obtain ⟨headers, hheaders, -⟩ := decodeHeaders_headersJson e.headers
  rw [decodeRow_insertRow payload contentType options sequence now hsent hheaders] at hr
  cases hr
  by_cases hgone : edit.goneDelivery "sent_at_ms" = true
  · have hsent' : decodeSentAt ((edit.envelope e).metadata.delivery.sentAt.map encodeEpochMillis) =
        .ok none := by
      rw [MetadataEdit.envelope, MetadataEdit.metadata, if_pos hgone]
      rfl
    rw [decodeRow_insertRow payload contentType options sequence now hsent' hheaders] at hr'
    cases hr'
    simp [readBack, OutboxRecord.build, MetadataEdit.record, MetadataEdit.envelope,
      MetadataEdit.metadata, hgone]
  · have hsent' : decodeSentAt ((edit.envelope e).metadata.delivery.sentAt.map encodeEpochMillis) =
        .ok sentAt := by
      rw [MetadataEdit.envelope, MetadataEdit.metadata, if_neg hgone]
      exact hsent
    rw [decodeRow_insertRow payload contentType options sequence now hsent' hheaders] at hr'
    cases hr'
    simp [readBack, OutboxRecord.build, MetadataEdit.record, MetadataEdit.envelope,
      MetadataEdit.metadata, hgone]

/-- The edited row of an envelope decodes to what was written without what is gone; and where the
row itself decodes, to its record without what is gone. -/
def Survives {T : Type} (e : Envelope T) (payload : Bytes) (contentType : ContentType)
    (options : EnqueueOptions) (sequence : Int) (now : Timestamp) : Prop :=
  ∃ r, decodeRow (Row.inserted (edit.columns (insertRow e payload contentType options))
      sequence now) = .ok r ∧
    Stored (edit.envelope e) payload contentType r.envelope ∧ Untouched r sequence now ∧
    r.orderingKey = options.orderingKey ∧
    ∀ original, decodeRow (Row.inserted (insertRow e payload contentType options) sequence now) =
      .ok original → r = edit.record original

/-- For every row `insert_row` writes with a metadata column, and every edit of that column: the row
survives exactly when its `sent_at` has a UTC date-time, is absent or is gone. -/
theorem metadata_survives_iff {T : Type} (e : Envelope T) (payload : Bytes)
    (contentType : ContentType) (options : EnqueueOptions) (sequence : Int) (now : Timestamp)
    (h : (insertRow e payload contentType options).metadata.isSome = true) :
    Survives edit e payload contentType options sequence now ↔
      ∀ t, e.metadata.delivery.sentAt = some t →
        t.InUtcRange ∨ edit.goneDelivery "sent_at_ms" = true := by
  obtain ⟨value, hvalue⟩ := Option.isSome_iff_exists.mp h
  have hedit := decodeRow_edit edit e payload contentType options sequence now hvalue
  constructor
  · rintro ⟨r, hr, -⟩ t ht
    rw [hedit] at hr
    by_cases hgone : edit.goneDelivery "sent_at_ms" = true
    · exact .inr hgone
    · refine .inl (decodeRow_ok_sentAt hr t ?_)
      rw [MetadataEdit.envelope, MetadataEdit.metadata, if_neg hgone]
      exact ht
  · intro hsent
    have hsent' : ∀ t, (edit.envelope e).metadata.delivery.sentAt = some t → t.InUtcRange := by
      intro t ht
      rw [MetadataEdit.envelope, MetadataEdit.metadata] at ht
      dsimp only at ht
      split at ht
      case isTrue => cases ht
      case isFalse hgone => exact (hsent t ht).resolve_right hgone
    obtain ⟨r, hr, hstored, huntouched, hkey⟩ :=
      decode_insertRow (edit.envelope e) payload contentType options sequence now hsent'
    exact ⟨r, hedit.trans hr, hstored, huntouched, hkey,
      fun original horiginal => decodeRow_record edit horiginal hr⟩

end

def ObjectEdit.none (known : List String) : ObjectEdit known := ⟨[], [], by simp⟩

/-- A version that does not know `deduplication_id` but has a field of its own. -/
def otherVersion : MetadataEdit where
  top := ⟨[], [("priority", .obj [("level", .int 3)])], by decide⟩
  trace := .none _
  routing := .none _
  delivery := ⟨["deduplication_id"], [], by simp⟩

theorem metadata_survives_other_version :
    otherVersion.goneDelivery "deduplication_id" = true ∧
      Survives otherVersion sentBeforeEpoch [1, 2, 3] ContentType.JSON EnqueueOptions.default 1 0 := by
  refine ⟨rfl, (metadata_survives_iff otherVersion sentBeforeEpoch [1, 2, 3] ContentType.JSON
    EnqueueOptions.default 1 0 rfl).mpr ?_⟩
  rintro t ht
  cases ht
  exact .inl ⟨by decide, by decide⟩

theorem west_offset :
    -OffsetDateTime.MAX_OFFSET ≤ -3600 ∧ -3600 ≤ OffsetDateTime.MAX_OFFSET := by decide

theorem west_local :
    OffsetDateTime.MIN_NANOS ≤ 253402304399000000000 + -3600 * 1000000000 ∧
      253402304399000000000 + -3600 * 1000000000 ≤ OffsetDateTime.MAX_NANOS := by decide

/-- Sent in the last second of the year 9999, an hour west of UTC. -/
def sentWest : SerializedEnvelope :=
  { sentBeforeEpoch with
    metadata := { Metadata.default with
      delivery := { Metadata.default.delivery with
        sentAt := some ⟨253402304399000000000, -3600, west_offset, west_local⟩ } } }

/-- Its row does not decode, whichever version wrote it. -/
theorem west_lost :
    ¬ Survives otherVersion sentWest [1, 2, 3] ContentType.JSON EnqueueOptions.default 1 0 := by
  rintro ⟨r, hr, -⟩
  rw [decodeRow_edit otherVersion sentWest [1, 2, 3] ContentType.JSON EnqueueOptions.default 1 0
    rfl] at hr
  exact absurd (decodeRow_ok_sentAt hr _ rfl) fun hrange => absurd hrange.2 (by decide)

end Reliar.Store
