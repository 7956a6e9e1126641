/-
# `Reliar.Outbox.Policy` — outbox or direct (`reliar-outbox`: `policy.rs`, the routing fields of
`settings.rs`)

A policy reads a message type's name and nothing else of the message.
-/
import Reliar.Outbox.TypeNames

namespace Reliar.Outbox

open Reliar.Core

inductive RouteKind
  | outbox
  | direct
  deriving DecidableEq, Repr

namespace RouteKind

def asStr : RouteKind → String
  | .outbox => "outbox"
  | .direct => "direct"

def isOutbox : RouteKind → Bool
  | .outbox => true
  | .direct => false

end RouteKind

/-- `check_disjoint`. -/
def checkDisjoint (key : String) (allowed disallowed : MessageTypeNames) :
    Except SettingsError Unit :=
  if allowed.names.any disallowed.contains then
    .error (.outOfRange key
      "a message type may not appear in both allowed_types and disallowed_types")
  else .ok ()

/-- The routing fields of `OutboxSettings`. -/
structure OutboxSettings where
  enabled : Bool
  allowedTypes : MessageTypeNames
  disallowedTypes : MessageTypeNames

namespace OutboxSettings

def default : OutboxSettings := ⟨true, .empty, .empty⟩

def setAllowedTypes (s : OutboxSettings) (allowed : MessageTypeNames) :
    Except SettingsError OutboxSettings :=
  (checkDisjoint "allowed_types" allowed s.disallowedTypes).map fun _ =>
    { s with allowedTypes := allowed }

def setDisallowedTypes (s : OutboxSettings) (disallowed : MessageTypeNames) :
    Except SettingsError OutboxSettings :=
  (checkDisjoint "disallowed_types" s.allowedTypes disallowed).map fun _ =>
    { s with disallowedTypes := disallowed }

end OutboxSettings

structure OutboxPolicy where
  enabled : Bool
  allowed : MessageTypeNames
  disallowed : MessageTypeNames
  deriving DecidableEq

namespace OutboxPolicy

def default : OutboxPolicy := ⟨true, .empty, .empty⟩

def fromSettings (settings : OutboxSettings) : Except SettingsError OutboxPolicy :=
  (checkDisjoint "disallowed_types" settings.allowedTypes settings.disallowedTypes).map fun _ =>
    ⟨settings.enabled, settings.allowedTypes, settings.disallowedTypes⟩

/-- `OutboxPolicy::decide`. -/
def decide (policy : OutboxPolicy) (messageType : MessageType) : RouteKind :=
  let name := messageType.name
  if !policy.enabled then .direct
  else if policy.disallowed.contains name then .direct
  else if policy.allowed.isEmpty then .outbox
  else if policy.allowed.contains name then .outbox
  else .direct

end OutboxPolicy

/-! ## What is decided -/

/-- No name is in both lists. -/
def Disjoint (allowed disallowed : MessageTypeNames) : Prop :=
  ∀ name ∈ allowed.names, name ∉ disallowed.names

theorem checkDisjoint_ok_iff {key : String} {allowed disallowed : MessageTypeNames} {u : Unit} :
    checkDisjoint key allowed disallowed = .ok u ↔ Disjoint allowed disallowed := by
  unfold checkDisjoint Disjoint
  split
  case isTrue h =>
    obtain ⟨name, hname, hin⟩ := List.any_eq_true.mp h
    constructor
    · intro hok
      cases hok
    · intro hdisjoint
      exact absurd (MessageTypeNames.contains_iff.mp hin) (hdisjoint name hname)
  case isFalse h =>
    refine ⟨fun _ name hname hin => h ?_, fun _ => rfl⟩
    exact List.any_eq_true.mpr ⟨name, hname, MessageTypeNames.contains_iff.mpr hin⟩

theorem OutboxPolicy.fromSettings_ok_iff {settings : OutboxSettings} {policy : OutboxPolicy} :
    fromSettings settings = .ok policy ↔
      Disjoint settings.allowedTypes settings.disallowedTypes ∧
        policy = ⟨settings.enabled, settings.allowedTypes, settings.disallowedTypes⟩ := by
  unfold fromSettings
  cases h : checkDisjoint "disallowed_types" settings.allowedTypes settings.disallowedTypes with
  | error err =>
      constructor
      · intro hok
        cases hok
      · rintro ⟨hdisjoint, -⟩
        have hok : checkDisjoint "disallowed_types" settings.allowedTypes
            settings.disallowedTypes = .ok () := checkDisjoint_ok_iff.mpr hdisjoint
        rw [h] at hok
        cases hok
  | ok u =>
      constructor
      · intro hok
        cases hok
        exact ⟨checkDisjoint_ok_iff.mp h, rfl⟩
      · rintro ⟨-, rfl⟩
        rfl

/-- Settings made from the defaults with the setters are accepted. -/
theorem OutboxSettings.setters_disjoint {s s' : OutboxSettings} {names : MessageTypeNames}
    (h : s.setAllowedTypes names = .ok s' ∨ s.setDisallowedTypes names = .ok s') :
    Disjoint s'.allowedTypes s'.disallowedTypes := by
  rcases h with h | h
  · unfold setAllowedTypes at h
    cases hcheck : checkDisjoint "allowed_types" names s.disallowedTypes with
    | error err => rw [hcheck] at h; cases h
    | ok u => rw [hcheck] at h; cases h; exact checkDisjoint_ok_iff.mp hcheck
  · unfold setDisallowedTypes at h
    cases hcheck : checkDisjoint "disallowed_types" s.allowedTypes names with
    | error err => rw [hcheck] at h; cases h
    | ok u => rw [hcheck] at h; cases h; exact checkDisjoint_ok_iff.mp hcheck

/-- A type routes through the outbox if routing is on, it is not excluded, and all types route or
it is listed. -/
theorem OutboxPolicy.decide_outbox_iff {policy : OutboxPolicy} {messageType : MessageType} :
    policy.decide messageType = .outbox ↔
      policy.enabled = true ∧ messageType.name ∉ policy.disallowed.names ∧
        (policy.allowed.isEmpty = true ∨ messageType.name ∈ policy.allowed.names) := by
  rw [← MessageTypeNames.contains_iff, ← MessageTypeNames.contains_iff]
  simp only [decide]
  cases policy.enabled <;> cases policy.disallowed.contains messageType.name <;>
    cases policy.allowed.isEmpty <;> cases policy.allowed.contains messageType.name <;> simp

end Reliar.Outbox
