/-
# `Reliar.Core.Ids` — identities and capped text (`reliar-core`: `ids.rs`, `content_type.rs`,
`message.rs`, `metadata.rs`'s `EndpointAddress`, `reliar-outbox`: `worker.rs`)

A Rust `String` is a Lean `String`: both are sequences of Unicode scalar values,
and `len()` is `String.utf8ByteSize`.  Each validated newtype is a subtype of
`String`, so a value that its `parse` would reject cannot be built; every
`parse` then accepts the text of an existing value and gives that value back
(`parse_text`), which is what the two codecs rely on when they re-validate.
-/
import Mathlib

namespace Reliar.Core

/-- A fallible step that succeeded. -/
@[simp] theorem ok_bind {α β ε : Type} (a : α) (f : α → Except ε β) :
    (Except.ok a >>= f) = f a := rfl

/-- Peeling the first step off a computation that succeeded. -/
theorem bind_eq_ok {α β ε : Type} {x : Except ε α} {f : α → Except ε β} {b : β}
    (h : (x >>= f) = .ok b) : ∃ a, x = .ok a ∧ f a = .ok b := by
  cases x with
  | error e => cases h
  | ok a => exact ⟨a, rfl, h⟩

theorem bind_eq_error {α β ε : Type} {x : Except ε α} {f : α → Except ε β} {err : ε}
    (h : (x >>= f) = .error err) : x = .error err ∨ ∃ a, x = .ok a ∧ f a = .error err := by
  cases x with
  | error e =>
    cases h
    exact .inl rfl
  | ok a => exact .inr ⟨a, rfl, h⟩

/-! ## Identities -/

/-- A UUID of any version; nothing in Reliar inspects it. -/
structure Uuid where
  bits : BitVec 128
  deriving DecidableEq, Repr

def Uuid.nil : Uuid := ⟨0⟩

structure MessageId where
  uuid : Uuid
  deriving DecidableEq, Repr

structure ConversationId where
  uuid : Uuid
  deriving DecidableEq, Repr

structure RequestId where
  uuid : Uuid
  deriving DecidableEq, Repr

/-- The "not yet rooted" sentinel. -/
def ConversationId.UNSET : ConversationId := ⟨Uuid.nil⟩

def ConversationId.isUnset (c : ConversationId) : Bool := decide (c.uuid = Uuid.nil)

/-! ## Capped text -/

inductive IdError
  | empty
  | tooLong (len max : Nat)
  | controlCharacter
  deriving DecidableEq, Repr

/-- `char::is_control`: Unicode category `Cc`. -/
def isControl (c : Char) : Bool := c.toNat ≤ 0x1F || (0x7F ≤ c.toNat && c.toNat ≤ 0x9F)

def containsControlChar (s : String) : Bool := s.toList.any isControl

/-- The shape shared by `CorrelationId` and `EndpointAddress`. -/
def CappedText (max : Nat) (s : String) : Prop :=
  s ≠ "" ∧ containsControlChar s = false ∧ s.utf8ByteSize ≤ max

/-- The body shared by `CorrelationId::parse` and `EndpointAddress::parse`. -/
def parseCapped (max : Nat) (s : String) : Except IdError {t : String // CappedText max t} :=
  if h₁ : s = "" then .error .empty
  else if h₂ : containsControlChar s = true then .error .controlCharacter
  else if h₃ : max < s.utf8ByteSize then .error (.tooLong s.utf8ByteSize max)
  else .ok ⟨s, h₁, by simpa using h₂, by omega⟩

theorem parseCapped_val {max : Nat} (t : {t : String // CappedText max t}) :
    parseCapped max t.1 = .ok t := by
  obtain ⟨s, h₁, h₂, h₃⟩ := t
  have hlen : ¬ max < s.utf8ByteSize := by omega
  simp [parseCapped, h₁, h₂, hlen]

def CorrelationId.MAX_LEN : Nat := 256

/-- Application workflow correlation. -/
structure CorrelationId where
  val : {t : String // CappedText CorrelationId.MAX_LEN t}
  deriving DecidableEq

def CorrelationId.parse (s : String) : Except IdError CorrelationId :=
  (parseCapped CorrelationId.MAX_LEN s).map CorrelationId.mk

def CorrelationId.asStr (c : CorrelationId) : String := c.val.1

@[simp] theorem CorrelationId.parse_text (c : CorrelationId) :
    CorrelationId.parse c.asStr = .ok c := by
  simp [CorrelationId.parse, CorrelationId.asStr, parseCapped_val, Except.map]

def EndpointAddress.MAX_LEN : Nat := 256

/-- An opaque, transport-interpreted address. -/
structure EndpointAddress where
  val : {t : String // CappedText EndpointAddress.MAX_LEN t}
  deriving DecidableEq

def EndpointAddress.parse (s : String) : Except IdError EndpointAddress :=
  (parseCapped EndpointAddress.MAX_LEN s).map EndpointAddress.mk

def EndpointAddress.asStr (a : EndpointAddress) : String := a.val.1

@[simp] theorem EndpointAddress.parse_text (a : EndpointAddress) :
    EndpointAddress.parse a.asStr = .ok a := by
  simp [EndpointAddress.parse, EndpointAddress.asStr, parseCapped_val, Except.map]

def WorkerId.MAX_LEN : Nat := 128

/-- The lease-ownership guard key.  Unlike the other capped texts it may hold control
characters: `WorkerId::parse` does not look for them. -/
structure WorkerId where
  val : {t : String // t ≠ "" ∧ t.utf8ByteSize ≤ WorkerId.MAX_LEN}
  deriving DecidableEq

def WorkerId.parse (s : String) : Except IdError WorkerId :=
  if h₁ : s = "" then .error .empty
  else if h₂ : WorkerId.MAX_LEN < s.utf8ByteSize then
    .error (.tooLong s.utf8ByteSize WorkerId.MAX_LEN)
  else .ok ⟨s, h₁, by omega⟩

def WorkerId.asStr (w : WorkerId) : String := w.val.1

@[simp] theorem WorkerId.parse_text (w : WorkerId) : WorkerId.parse w.asStr = .ok w := by
  obtain ⟨s, h₁, h₂⟩ := w
  have hlen : ¬ WorkerId.MAX_LEN < s.utf8ByteSize := by omega
  simp [WorkerId.parse, WorkerId.asStr, h₁, hlen]

theorem WorkerId.asStr_inj {v w : WorkerId} : v.asStr = w.asStr ↔ v = w := by
  constructor
  · intro h
    cases v; cases w
    simp only [WorkerId.asStr] at h
    simpa [Subtype.ext_iff] using h
  · rintro rfl; rfl

/-! ## Content types -/

/-- `str::split_once` on a character: the text before and after its first occurrence. -/
def splitOnce (c : Char) (s : String) : Option (List Char × List Char) :=
  match s.toList.dropWhile (· ≠ c) with
  | [] => none
  | _ :: rest => some (s.toList.takeWhile (· ≠ c), rest)

/-- `type/subtype` with both halves non-empty and no control character. -/
def isMime (s : String) : Bool :=
  !containsControlChar s &&
    match splitOnce '/' s with
    | some (ty, subtype) => !ty.isEmpty && !subtype.isEmpty
    | none => false

inductive ContentTypeError
  | empty
  | tooLong (len max : Nat)
  | malformed (value : String)
  deriving DecidableEq, Repr

def ContentType.MAX_LEN : Nat := 256

/-- A validated MIME type. -/
structure ContentType where
  val : {s : String // s ≠ "" ∧ s.utf8ByteSize ≤ ContentType.MAX_LEN ∧ isMime s = true}
  deriving DecidableEq

/-- Length is checked before the shape, the other way round from `parseCapped`. -/
def ContentType.parse (s : String) : Except ContentTypeError ContentType :=
  if h₁ : s = "" then .error .empty
  else if h₂ : ContentType.MAX_LEN < s.utf8ByteSize then
    .error (.tooLong s.utf8ByteSize ContentType.MAX_LEN)
  else if h₃ : isMime s = true then .ok ⟨s, h₁, by omega, h₃⟩
  else .error (.malformed s)

def ContentType.asStr (c : ContentType) : String := c.val.1

def ContentType.JSON : ContentType := ⟨"application/json", by decide, by decide, by decide⟩

@[simp] theorem ContentType.parse_text (c : ContentType) :
    ContentType.parse c.asStr = .ok c := by
  obtain ⟨s, h₁, h₂, h₃⟩ := c
  have hlen : ¬ ContentType.MAX_LEN < s.utf8ByteSize := by omega
  simp [ContentType.parse, ContentType.asStr, h₁, hlen, h₃]

/-! ## Message types -/

/-- A message's contract name and version. -/
structure MessageType where
  name : String
  version : UInt16
  deriving DecidableEq, Repr

/-- The rehydration path: deliberately unvalidated. -/
def MessageType.fromParts (name : String) (version : UInt16) : MessageType := ⟨name, version⟩

/-! ## Failure classification -/

/-- Whether a failure is worth retrying. -/
inductive FailureKind
  | transient
  | permanent
  deriving DecidableEq, Repr

/-- Implemented by every publisher and store error. -/
class Classify (E : Type) where
  kind : E → FailureKind

end Reliar.Core
