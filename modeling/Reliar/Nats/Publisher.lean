/-
# `Reliar.Nats.Publisher` — what the publisher hands to the broker (`reliar-transport-nats`:
`subject.rs`, `settings.rs`, `publisher.rs`'s `prepare`)

`prepare` resolves a subject, encodes the envelope and applies the local payload
limit: every step of a publish that can fail without the network.  The question
asked here is whether this crate's own `decode` takes what `prepare` lets out.

It does for every envelope with a message type name.  `MessageType::from_parts`
also makes types with an empty name, and `encode` writes them; `PrefixSubjects`
happens to stop them, since the name is a token of the subject, while
`DestinationSubjects` does not look at the name when a destination is set.
-/
import Reliar.Nats.Forward

namespace Reliar.Nats

open Reliar.Core

/-! ## Subjects -/

inductive SubjectError
  | empty
  | emptyToken (subject : String)
  | wildcard (subject : String)
  | illegalCharacter (subject : String)
  | tooLong (len limit : Nat)
  deriving DecidableEq, Repr

def SubjectError.MAX_LEN : Nat := 255

/-- The loop over the tokens of a subject. -/
def validateTokens (subject : String) : List (List Char) → Except SubjectError Unit
  | [] => .ok ()
  | token :: tokens =>
      if token.isEmpty then .error (.emptyToken subject)
      else if token.contains '*' || token.contains '>' then .error (.wildcard subject)
      else validateTokens subject tokens

/-- `validate_subject`.  A character outside ASCII has bytes outside ASCII only. -/
def validateSubject (subject : String) : Except SubjectError Unit :=
  if subject = "" then .error .empty
  else if SubjectError.MAX_LEN < subject.utf8ByteSize then
    .error (.tooLong subject.utf8ByteSize SubjectError.MAX_LEN)
  else if subject.toList.any (fun c => !(0x21 ≤ c.toNat && c.toNat ≤ 0x7E)) then
    .error (.illegalCharacter subject)
  else validateTokens subject (subject.toList.splitOn '.')

/-- `Display for MessageType`. -/
def displayType (t : MessageType) : String := t.name ++ ".v" ++ toString t.version.toNat

/-- Chooses the subject of an envelope. -/
class SubjectResolver (R : Type) where
  Error : Type
  subject : R → SerializedEnvelope → Except Error String

/-- `<prefix>.<message_type>`, under a prefix that `new` accepted. -/
structure PrefixSubjects where
  subjectPrefix : String
  valid : validateSubject subjectPrefix = .ok ()

def PrefixSubjects.new (subjectPrefix : String) : Except SubjectError PrefixSubjects :=
  match h : validateSubject subjectPrefix with
  | .error err => .error err
  | .ok () => .ok ⟨subjectPrefix, h⟩

def PrefixSubjects.default : PrefixSubjects := ⟨"reliar", by decide⟩

instance : SubjectResolver PrefixSubjects where
  Error := SubjectError
  subject r envelope :=
    let resolved := r.subjectPrefix ++ "." ++ displayType envelope.messageType
    match validateSubject resolved with
    | .error err => .error err
    | .ok () => .ok resolved

/-- The envelope's destination when it has one. -/
structure DestinationSubjects where
  fallback : PrefixSubjects

instance : SubjectResolver DestinationSubjects where
  Error := SubjectError
  subject r envelope :=
    match envelope.metadata.routing.destination with
    | some destination =>
        match validateSubject destination.asStr with
        | .error err => .error err
        | .ok () => .ok destination.asStr
    | none => SubjectResolver.subject r.fallback envelope

/-! ## The publisher -/

structure NatsSettings where
  subjectPrefix : String
  publishTimeout : Duration
  batchPipelineDepth : Nat
  maxPayload : Option Nat

inductive NatsConfigError
  | zeroBatchPipelineDepth
  | zeroPublishTimeout
  | zeroMaxPayload
  | subject (err : SubjectError)
  deriving DecidableEq, Repr

/-- The checks of `build`. -/
def NatsSettings.check (settings : NatsSettings) : Except NatsConfigError Unit :=
  if settings.batchPipelineDepth = 0 then .error .zeroBatchPipelineDepth
  else if settings.publishTimeout = 0 then .error .zeroPublishTimeout
  else if settings.maxPayload = some 0 then .error .zeroMaxPayload
  else .ok ()

/-- A publisher that `build` made. -/
structure NatsPublisher (R : Type) where
  resolver : R
  settings : NatsSettings
  valid : settings.check = .ok ()

/-- `NatsPublisher::with_resolver`. -/
def NatsPublisher.withResolver {R : Type} (settings : NatsSettings) (resolver : R) :
    Except NatsConfigError (NatsPublisher R) :=
  match h : settings.check with
  | .error err => .error err
  | .ok () => .ok ⟨resolver, settings, h⟩

/-- `NatsPublisher::new`. -/
def NatsPublisher.new (settings : NatsSettings) :
    Except NatsConfigError (NatsPublisher PrefixSubjects) :=
  match PrefixSubjects.new settings.subjectPrefix with
  | .error err => .error (.subject err)
  | .ok resolver => NatsPublisher.withResolver settings resolver

/-- The errors of `NatsPublishError` that arise before any I/O. -/
inductive NatsPublishError (E : Type)
  | map (source : NatsMapError)
  | subject (source : E)
  | payloadTooLarge (len limit : Nat)

/-- Why `prepare` gives nothing: an error, or the panic of `encode`. -/
inductive Halt (E : Type)
  | error (err : NatsPublishError E)
  | panic

/-- `NatsWireMessage::wire_len`. -/
def wireLen (message : NatsWireMessage) : Nat :=
  if message.headers.isEmpty then message.payload.length
  else
    "NATS/1.0\r\n".utf8ByteSize + "\r\n".utf8ByteSize +
      (message.headers.map fun x => (x.2.map fun v =>
        x.1.utf8ByteSize + ": ".utf8ByteSize + v.utf8ByteSize + "\r\n".utf8ByteSize).sum).sum +
      message.payload.length

/-- `NatsPublisher::prepare`. -/
def prepare {R : Type} [SubjectResolver R] (c : Codec) (publisher : NatsPublisher R)
    (envelope : SerializedEnvelope) :
    Except (Halt (SubjectResolver.Error R)) (String × NatsWireMessage) :=
  match SubjectResolver.subject publisher.resolver envelope with
  | .error err => .error (.error (.subject err))
  | .ok subject =>
      match encode c envelope with
      | .error .panic => .error .panic
      | .error (.error err) => .error (.error (.map err))
      | .ok wire =>
          match publisher.settings.maxPayload with
          | none => .ok (subject, wire)
          | some limit =>
              if limit < wireLen wire then
                .error (.error (.payloadTooLarge (wireLen wire) limit))
              else .ok (subject, wire)

/-! ## What an accepted subject says about the name -/

theorem validateTokens_ok {subject : String} {tokens : List (List Char)}
    (h : validateTokens subject tokens = .ok ()) : [] ∉ tokens := by
  induction tokens with
  | nil => exact List.not_mem_nil
  | cons token tokens ih =>
    simp only [validateTokens] at h
    split at h
    case isTrue => cases h
    case isFalse hne =>
      split at h
      case isTrue => cases h
      case isFalse =>
        intro hmem
        rcases List.mem_cons.mp hmem with rfl | hmem
        · exact hne rfl
        · exact ih h hmem

theorem validateSubject_ok {subject : String} (h : validateSubject subject = .ok ()) :
    [] ∉ subject.toList.splitOn '.' := by
  simp only [validateSubject] at h
  split at h
  case isTrue => cases h
  case isFalse =>
    split at h
    case isTrue => cases h
    case isFalse =>
      split at h
      case isTrue => cases h
      case isFalse => exact validateTokens_ok h

/-- Two dots in a row make an empty token, wherever they stand. -/
theorem nil_mem_splitOn (before after : List Char) :
    [] ∈ (before ++ '.' :: '.' :: after).splitOn '.' := by
  rw [List.splitOn_append_cons_self, List.splitOn_cons_eq_if_modifyHead]
  simp

/-- The default resolver stops an empty name: it is a token of the subject. -/
theorem PrefixSubjects.name_ne_empty {r : PrefixSubjects} {e : SerializedEnvelope}
    {subject : String} (h : SubjectResolver.subject r e = .ok subject) :
    e.messageType.name ≠ "" := by
  intro hname
  have hvalid : validateSubject (r.subjectPrefix ++ "." ++ displayType e.messageType) = .ok () := by
    simp only [SubjectResolver.subject] at h
    split at h
    · cases h
    · assumption
  refine validateSubject_ok hvalid ?_
  have hdots : (r.subjectPrefix ++ "." ++ displayType e.messageType).toList =
      r.subjectPrefix.toList ++ '.' :: '.' :: ('v' :: (toString e.messageType.version.toNat).toList) := by
    simp [displayType, hname]
  rw [hdots]
  exact nil_mem_splitOn _ _

/-! ## Decoding what was prepared -/

theorem prepare_ok {R : Type} [SubjectResolver R] {c : Codec} {p : NatsPublisher R}
    {e : SerializedEnvelope} {subject : String} {wire : NatsWireMessage}
    (h : prepare c p e = .ok (subject, wire)) :
    SubjectResolver.subject p.resolver e = .ok subject ∧ encode c e = .ok wire := by
  simp only [prepare] at h
  split at h
  case h_1 => cases h
  case h_2 subject' hsubject =>
    split at h
    case h_1 => cases h
    case h_2 => cases h
    case h_3 wire' hencode =>
      split at h
      case h_1 =>
        cases h
        exact ⟨hsubject, hencode⟩
      case h_2 =>
        split at h
        · cases h
        · cases h
          exact ⟨hsubject, hencode⟩

/-- The message is accepted by `decode`, however its header map is enumerated. -/
def Decodable (c : Codec) (w : NatsWireMessage) : Prop :=
  ∀ headers, headers.Perm w.headers → ∃ e, decode c ⟨headers, w.payload⟩ = .ok e

/-- An encoded message is accepted exactly when its type has a name. -/
theorem decodable_iff {c : Codec} {e : SerializedEnvelope} {w : NatsWireMessage}
    (h : encode c e = .ok w) : Decodable c w ↔ e.messageType.name ≠ "" := by
  have hwire := encode_wire h
  have hpayload : w.payload = e.body := (encode_headers h).1
  constructor
  · intro hdec hname
    obtain ⟨e', he'⟩ := hdec w.headers (List.Perm.refl _)
    obtain ⟨hraw, hne⟩ := (decode_received he').name
    obtain ⟨r, hscan, hcarries, -⟩ := hwire.scan
    have hslot : r.slots .messageType = some e.messageType.name :=
      hcarries.slot rfl (by simp) (by simp)
    have hslot' : r.slots .messageType = rawOf w.headers .messageType := scan_slots hscan _
    rw [hslot', hraw, hname] at hslot
    exact hne (Option.some.inj hslot)
  · intro hname headers hperm
    obtain ⟨e', he', -⟩ := (hwire.perm hperm).decode hname
    exact ⟨e', hpayload ▸ he'⟩

/-- For every publisher, envelope and message it prepares: under the default resolver the message
is accepted by `decode`; under the destination resolver it is exactly when the message type has a
name. -/
theorem prepare_decodable (c : Codec) :
    (∀ (p : NatsPublisher PrefixSubjects) (e : SerializedEnvelope) (subject : String)
      (wire : NatsWireMessage), prepare c p e = .ok (subject, wire) → Decodable c wire) ∧
    ∀ (p : NatsPublisher DestinationSubjects) (e : SerializedEnvelope) (subject : String)
      (wire : NatsWireMessage), prepare c p e = .ok (subject, wire) →
        (Decodable c wire ↔ e.messageType.name ≠ "") := by
  constructor
  · intro p e subject wire h
    obtain ⟨hsubject, hencode⟩ := prepare_ok h
    exact (decodable_iff hencode).mpr (PrefixSubjects.name_ne_empty hsubject)
  · intro p e subject wire h
    exact decodable_iff (prepare_ok h).2

/-- The default settings. -/
def NatsSettings.default : NatsSettings := ⟨"reliar", Duration.ofSecs 10, 64, none⟩

/-- A publisher that goes by the destination. -/
def destinationPublisher : NatsPublisher DestinationSubjects :=
  ⟨⟨PrefixSubjects.default⟩, NatsSettings.default, by decide⟩

/-- An envelope for the address `orders.created`, of a type with the given name. -/
def routedEnvelope (name : String) : SerializedEnvelope where
  id := ⟨⟨9⟩⟩
  messageType := MessageType.fromParts name 1
  body := [1]
  metadata :=
    { Metadata.default with
      routing := ⟨none, some ⟨"orders.created", by decide, by decide, by decide⟩, none⟩ }
  headers := none

/-- A type without a name is published by its destination and refused by `decode`. -/
theorem prepare_undecodable :
    ∃ subject wire, prepare plainCodec destinationPublisher (routedEnvelope "") =
        .ok (subject, wire) ∧
      decode plainCodec wire = .error (.malformedHeader Field.messageType.name) := by
  have hrun : (prepare plainCodec destinationPublisher (routedEnvelope "")).toOption.any (fun x =>
      decide ((decode plainCodec x.2).map (fun e => e.id) =
        .error (.malformedHeader Field.messageType.name))) = true := by decide
  cases hp : prepare plainCodec destinationPublisher (routedEnvelope "") with
  | error halt => rw [hp] at hrun; cases hrun
  | ok x =>
    rw [hp] at hrun
    have hmap := of_decide_eq_true hrun
    refine ⟨x.1, x.2, rfl, ?_⟩
    cases hd : decode plainCodec x.2 with
    | error err => simpa [hd, Except.map] using hmap
    | ok e => simp [hd, Except.map] at hmap

/-- With a name, the same envelope is accepted. -/
theorem prepare_decodable_routed :
    ∃ subject wire, prepare plainCodec destinationPublisher (routedEnvelope "order.placed") =
        .ok (subject, wire) ∧ Decodable plainCodec wire := by
  have hrun : (prepare plainCodec destinationPublisher
      (routedEnvelope "order.placed")).toOption.isSome = true := by decide
  cases hp : prepare plainCodec destinationPublisher (routedEnvelope "order.placed") with
  | error halt => rw [hp] at hrun; cases hrun
  | ok x =>
    obtain ⟨subject, wire⟩ := x
    exact ⟨subject, wire, rfl,
      ((prepare_decodable plainCodec).2 _ _ subject wire hp).mpr (by decide)⟩

end Reliar.Nats
