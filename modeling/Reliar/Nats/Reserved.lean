/-
# `Reliar.Nats.Reserved` — custom headers cannot speak for the framework

Three layers keep an application's headers apart from the framework's: core
refuses `reliar-` keys, the mapper refuses `Nats-` keys, and the two unprefixed
trace names are arbitrated one by one.  `Guarded` says what they amount to on the
wire, for every envelope.  The description of the header block from
`Reliar.Nats.RoundTrip` does most of the work; what is added here is that every
entry went through `from_str`.
-/
import Reliar.Nats.Forward

namespace Reliar.Nats

open Reliar.Core

/-! ## Every entry went through `from_str` -/

/-- Names and values as `from_str` accepts them. -/
def Checked (headers : HeaderMap) : Prop :=
  ∀ x ∈ headers, headerName x.1 = some x.1 ∧ ∀ v ∈ x.2, headerValueOf v = some v

theorem Checked.insert {headers : HeaderMap} {name value : String} (h : Checked headers)
    (hname : headerName name = some name) (hvalue : headerValueOf value = some value) :
    Checked (headers.insert name value) := by
  have hnew : ∀ v ∈ [value], headerValueOf v = some v := by
    intro v hv
    rw [List.mem_singleton.mp hv]
    exact hvalue
  intro x hx
  simp only [HeaderMap.insert] at hx
  split at hx
  · obtain ⟨y, hy, rfl⟩ := List.mem_map.mp hx
    by_cases hyn : y.1 = name
    · simp only [hyn, if_true]
      exact ⟨hname, hnew⟩
    · simp only [hyn, if_false]
      exact h y hy
  · rcases List.mem_append.mp hx with hx | hx
    · exact h x hx
    · rw [List.mem_singleton.mp hx]
      exact ⟨hname, hnew⟩

theorem headerValue_legal {header s v : String} (h : headerValue header s = .ok v) :
    headerValueOf v = some v := by
  have hvs := headerValue_ok h
  subst hvs
  simp only [headerValue] at h
  split at h
  · cases h
  · rename_i value hvalue
    rw [hvalue, Except.ok.inj h]

theorem headerName_field (f : Field) : headerName f.name = some f.name := by
  cases f <;> decide

theorem encodeCustom_checked {e : SerializedEnvelope} {entries : List (String × String)}
    {headers headers' : HeaderMap} {written : Field → Bool}
    (h : encodeCustom e entries headers written = .ok headers') (hc : Checked headers) :
    Checked headers' := by
  induction entries generalizing headers written with
  | nil =>
    cases h
    exact hc
  | cons entry entries ih =>
    simp only [encodeCustom] at h
    split at h
    case isTrue => cases h
    case isFalse =>
      split at h
      case h_1 canonical htrace =>
        split at h
        case isTrue => exact ih h hc
        case isFalse =>
          split at h
          case isTrue => cases h
          case isFalse =>
            split at h
            case h_1 => cases h
            case h_2 v hv => exact ih h (hc.insert (headerName_field canonical) (headerValue_legal hv))
      case h_2 =>
        split at h
        case h_1 => cases h
        case h_2 name hname =>
          split at h
          case h_1 => cases h
          case h_2 v hv =>
            have hname' : headerName name = some name := by
              have := headerName_ok hname
              subst this
              exact hname
            exact ih h (hc.insert hname' (headerValue_legal hv))

theorem insertFields_checked {c : Codec} {e : SerializedEnvelope} {fs : List Field}
    {headers headers' : HeaderMap} (h : insertFields c e fs headers = .ok headers')
    (hc : Checked headers) : Checked headers' := by
  induction fs generalizing headers with
  | nil =>
    cases h
    exact hc
  | cons f fs ih =>
    simp only [insertFields] at h
    split at h
    case h_1 => cases h
    case h_2 headers₁ hput =>
      refine ih h ?_
      simp only [insertField] at hput
      split at hput
      case h_1 => cases hput
      case h_2 =>
        cases hput
        exact hc
      case h_3 =>
        split at hput
        case h_1 => cases hput
        case h_2 v hv =>
          cases hput
          exact hc.insert (headerName_field f) (headerValue_legal hv)

theorem encode_checked {c : Codec} {e : SerializedEnvelope} {w : NatsWireMessage}
    (h : encode c e = .ok w) : Checked w.headers := by
  simp only [encode] at h
  split at h
  case h_1 => cases h
  case h_2 headers hcustom =>
    split at h
    case h_1 => cases h
    case h_2 headers' hfields =>
      cases h
      refine insertFields_checked hfields (encodeCustom_checked hcustom ?_)
      intro x hx
      cases hx

/-- No line break. -/
def Unbroken (s : String) : Prop := '\r' ∉ s.toList ∧ '\n' ∉ s.toList

theorem unbroken_of_headerName {s name : String} (h : headerName s = some name) : Unbroken s := by
  simp only [headerName] at h
  split at h
  case isFalse => cases h
  case isTrue hall =>
    have hgraphic := List.all_eq_true.mp hall.2
    constructor
    · intro hmem
      exact absurd (hgraphic _ hmem) (by decide)
    · intro hmem
      exact absurd (hgraphic _ hmem) (by decide)

theorem unbroken_of_headerValue {s value : String} (h : headerValueOf s = some value) :
    Unbroken s := by
  simp only [headerValueOf] at h
  split at h
  case isFalse => cases h
  case isTrue hall =>
    have hclean := List.all_eq_true.mp hall
    constructor
    · intro hmem
      exact absurd (hclean _ hmem) (by decide)
    · intro hmem
      exact absurd (hclean _ hmem) (by decide)

/-! ## The guarantee -/

/-- The two unprefixed framework names. -/
def Field.isTrace (f : Field) : Bool := f = .traceparent || f = .tracestate

/-- What the framework itself writes under a name, from the envelope without its custom headers. -/
def projection (c : Codec) (e : SerializedEnvelope) (f : Field) : Option String :=
  match fieldText c { e with headers := none } f with
  | .ok (some s) => some s
  | _ => none

/-- What custom headers cannot change about the header block of an envelope. -/
structure Guarded (c : Codec) (e : SerializedEnvelope) (headers : HeaderMap) : Prop where
  /-- A name is one entry of the map. -/
  nodup : (names headers).Nodup
  /-- A name under a reserved prefix is a framework name in its own spelling, and its one value is
  the framework's. -/
  reserved : ∀ x ∈ headers,
    startsWithCi x.1 RELIAR_PREFIX = true ∨ startsWithCi x.1 NATS_PREFIX = true →
      ∃ f s, Field.isTrace f = false ∧ x = (f.name, [s]) ∧ projection c e f = some s
  /-- A trace name has one spelling and one value, the framework's where there is one. -/
  trace : ∀ f, Field.isTrace f = true → ∀ x ∈ headers, eqIgnoreAsciiCase x.1 f.name = true →
    ∃ s, x = (f.name, [s]) ∧ ∀ t, projection c e f = some t → s = t
  unbroken : ∀ x ∈ headers, Unbroken x.1 ∧ ∀ v ∈ x.2, Unbroken v

theorem fieldText_headers (c : Codec) (e : SerializedEnvelope) (f : Field) :
    fieldText c { e with headers := none } f = fieldText c e f := by
  cases f <;> rfl

/-- No two framework names differ in casing only. -/
theorem Field.eq_of_eqIgnoreAsciiCase {f g : Field}
    (h : eqIgnoreAsciiCase g.name f.name = true) : g = f := by
  have hkind := classifyHeader_of_eq h
  rw [classifyHeader_name, classifyHeader_name] at hkind
  exact HeaderKind.framework.inj hkind

theorem isTrace_eq_false {f : Field} (h : f.isTrace = false) :
    f ≠ .traceparent ∧ f ≠ .tracestate := by
  simpa [Field.isTrace] using h

/-- A trace name lies under neither prefix. -/
theorem isTrace_of_reserved {f : Field}
    (h : startsWithCi f.name RELIAR_PREFIX = true ∨ startsWithCi f.name NATS_PREFIX = true) :
    f.isTrace = false := by
  revert h
  cases f <;> decide

/-- For every envelope and every message `encode` gives for it. -/
theorem encode_guarded (c : Codec) (e : SerializedEnvelope) (w : NatsWireMessage)
    (h : encode c e = .ok w) : Guarded c e w.headers := by
  have hwire := encode_wire h
  have hchecked := encode_checked h
  refine ⟨hwire.nodup, ?_, ?_, ?_⟩
  · intro x hx hreserved
    rcases hwire.entry x hx with ⟨f, s, rfl⟩ | ⟨key, value, rfl, hkey, -⟩
    · have hf := isTrace_of_reserved hreserved
      obtain ⟨hp, hs⟩ := isTrace_eq_false hf
      refine ⟨f, s, hf, rfl, ?_⟩
      -- no custom header is offered for the name, so the value is the framework's own
      have hcarried := (hwire.values f s).mp hx
      obtain ⟨o, ho⟩ := hwire.texts f
      simp only [carried, ho, offered_eq_none hp hs] at hcarried
      cases o with
      | none => cases hcarried
      | some t => simpa [projection, fieldText_headers, ho] using hcarried
    · rcases hreserved with hr | hn
      · rw [hkey.noReliar] at hr; cases hr
      · rw [hkey.noNats] at hn; cases hn
  · intro f hf x hx heq
    rcases hwire.entry x hx with ⟨g, s, rfl⟩ | ⟨key, value, rfl, hkey, -⟩
    · obtain rfl := Field.eq_of_eqIgnoreAsciiCase heq
      refine ⟨s, rfl, ?_⟩
      intro t ht
      have hcarried := (hwire.values g s).mp hx
      simp only [projection, fieldText_headers] at ht
      split at ht
      case h_2 => cases ht
      case h_1 t' htext =>
        cases ht
        simp only [carried, htext, Option.some.injEq] at hcarried
        exact hcarried.symm
    · rw [hkey.not_eq f] at heq
      cases heq
  · intro x hx
    obtain ⟨hname, hvalues⟩ := hchecked x hx
    exact ⟨unbroken_of_headerName hname, fun v hv => unbroken_of_headerValue (hvalues v hv)⟩

/-- A custom trace header in its own casing: on the wire it has the canonical name, and the message
id is the framework's. -/
theorem encode_guarded_traced :
    ∃ w, encode plainCodec tracedEnvelope = .ok w ∧ Guarded plainCodec tracedEnvelope w.headers ∧
      ("traceparent", ["00-ab"]) ∈ w.headers ∧
      ("reliar-message-id", ["00000000-0000-0000-0000-000000000007"]) ∈ w.headers := by
  have hmem : (encode plainCodec tracedEnvelope).toOption.any (fun w =>
      decide (("traceparent", ["00-ab"]) ∈ w.headers ∧
        ("reliar-message-id", ["00000000-0000-0000-0000-000000000007"]) ∈ w.headers)) = true := by
    decide
  cases hw : encode plainCodec tracedEnvelope with
  | error stop => rw [hw] at hmem; cases hmem
  | ok w =>
    rw [hw] at hmem
    have := of_decide_eq_true hmem
    exact ⟨w, rfl, encode_guarded plainCodec tracedEnvelope w hw, this⟩

end Reliar.Nats
