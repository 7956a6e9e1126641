/-
# `Reliar.Nats.RoundTrip` — `decode` undoes `encode`

For every envelope with a non-empty message type, if `encode` gives a message
then `decode` of it — its header map enumerated in any order — gives
`normalise` of the envelope, timestamps compared as instants.

The argument goes through an explicit description of the header block.  No insert
of `encode` ever replaces an entry, so the block is the custom entries followed
by the framework entries, in order (`encode_headers`).  From that, `Wire` says
what a decoder may rely on, and `Wire` does not depend on the enumeration.
-/
import Reliar.Nats.Mapper

namespace Reliar.Nats

open Reliar.Core

/-! ## What comes back -/

/-- The entries whose key is not a trace header. -/
def keepCustom (h : Headers) : Headers where
  entries := h.entries.filter fun e => (traceOverrideName e.1).isNone
  nodup := h.nodup.sublist (List.filter_sublist.map Prod.fst)
  valid := fun e he => h.valid e (List.mem_of_mem_filter he)
  count := Nat.le_trans (List.length_filter_le _ _) h.count

/-- The custom headers that stay custom headers; an empty map is none. -/
def normaliseHeaders (headers : Option Headers) : Option Headers :=
  (headers.map keepCustom).filter fun h => !h.isEmpty

/-- The value a custom header offers for a trace field. -/
def offered (f : Field) (entries : List (String × String)) : Option String :=
  (entries.find? fun e => traceOverrideName e.1 == some f).map Prod.snd

/-- The three normalisations of the mapping. -/
def normalise (c : Codec) (e : SerializedEnvelope) : SerializedEnvelope :=
  let custom := customEntries e.headers
  let deduplicationId := e.metadata.delivery.deduplicationId.filter fun d =>
    d != c.uuidText e.id.uuid
  { e with
    metadata :=
      { e.metadata with
        trace := ⟨e.metadata.trace.traceparent.or (offered .traceparent custom),
          e.metadata.trace.tracestate.or (offered .tracestate custom)⟩
        delivery := { e.metadata.delivery with deduplicationId := deduplicationId } }
    headers := normaliseHeaders e.headers }

/-! ## Names -/

theorem startsWithCi_of_eq {key name pre : String} (h : eqIgnoreAsciiCase key name = true)
    (hp : startsWithCi name pre = true) : startsWithCi key pre = true := by
  simp only [eqIgnoreAsciiCase, startsWithCi, beq_iff_eq, List.map_take] at h hp ⊢
  rw [h, hp]

theorem traceOverrideName_some {key : String} {f : Field} (h : traceOverrideName key = some f) :
    f = .traceparent ∨ f = .tracestate := by
  simp only [traceOverrideName] at h
  split at h
  · exact .inl (Option.some.inj h).symm
  · split at h
    · exact .inr (Option.some.inj h).symm
    · cases h

/-- Every framework name is a trace name or lies under one of the two reserved prefixes. -/
theorem Field.name_reserved (f : Field) :
    traceOverrideName f.name = some f ∨
      (traceOverrideName f.name = none ∧
        (startsWithCi f.name RELIAR_PREFIX = true ∨ startsWithCi f.name NATS_PREFIX = true)) := by
  cases f <;> decide

theorem classifyHeader_name (f : Field) : classifyHeader f.name = .framework f := by
  cases f <;> decide

theorem traceOverrideName_of_eq {key name : String} (h : eqIgnoreAsciiCase key name = true) :
    traceOverrideName key = traceOverrideName name := by
  simp only [eqIgnoreAsciiCase, beq_iff_eq] at h
  simp [traceOverrideName, eqIgnoreAsciiCase, h]

/-- A key that `encode` lets through as a custom header. -/
structure CustomKey (key : String) : Prop where
  noTrace : traceOverrideName key = none
  noNats : startsWithCi key NATS_PREFIX = false
  noReliar : startsWithCi key RELIAR_PREFIX = false

theorem CustomKey.not_eq {key : String} (h : CustomKey key) (f : Field) :
    eqIgnoreAsciiCase key f.name = false := by
  rw [Bool.eq_false_iff]
  intro heq
  rcases f.name_reserved with htrace | ⟨-, hreliar | hnats⟩
  · have := h.noTrace
    rw [traceOverrideName_of_eq heq, htrace] at this
    cases this
  · exact absurd (startsWithCi_of_eq heq hreliar) (by simp [h.noReliar])
  · exact absurd (startsWithCi_of_eq heq hnats) (by simp [h.noNats])

theorem CustomKey.ne_name {key : String} (h : CustomKey key) (f : Field) : key ≠ f.name := by
  intro heq
  have := h.not_eq f
  rw [heq, eqIgnoreAsciiCase_refl] at this
  cases this

/-- It is a custom header for `decode` too. -/
theorem CustomKey.classify {key : String} (h : CustomKey key) :
    classifyHeader key = .custom := by
  have hnone : Field.all.find? (fun f => eqIgnoreAsciiCase key f.name) = none := by
    rw [List.find?_eq_none]
    intro f _
    simp [h.not_eq f]
  simp [classifyHeader, hnone, h.noNats, h.noReliar]

/-- Core refuses the `reliar-` prefix. -/
theorem noReliar_of_check {key value : String} (h : Headers.check key value = .ok ()) :
    startsWithCi key RELIAR_PREFIX = false := by
  rw [Bool.eq_false_iff]
  intro hp
  have hres : Headers.hasReservedPrefix key = true := hp
  simp [Headers.check, hres] at h

/-! ## The header block `encode` writes -/

def names (headers : HeaderMap) : List String := headers.map Prod.fst

theorem insert_fresh {headers : HeaderMap} {name : String} (value : String)
    (h : name ∉ names headers) : headers.insert name value = headers ++ [(name, [value])] := by
  simp [HeaderMap.insert, names] at h ⊢
  intro values hv
  exact absurd hv (h values)

theorem nodup_append_fresh {headers : HeaderMap} {name : String} (values : List String)
    (hnd : (names headers).Nodup) (h : name ∉ names headers) :
    (names (headers ++ [(name, values)])).Nodup := by
  simp only [names, List.map_append, List.map_cons, List.map_nil]
  exact List.nodup_append.mpr ⟨hnd, List.nodup_singleton name, by
    rintro a ha b hb rfl
    exact h (List.mem_singleton.mp hb ▸ ha)⟩

theorem mem_names_append {headers : HeaderMap} {k name : String} {values : List String} :
    k ∈ names (headers ++ [(name, values)]) ↔ k ∈ names headers ∨ k = name := by
  simp [names]

theorem headerValue_ok {header s v : String} (h : headerValue header s = .ok v) : v = s := by
  simp only [headerValue, headerValueOf] at h
  split at h
  · cases h
  · rename_i value hval
    split at hval
    · cases hval; cases h; rfl
    · cases hval

theorem headerName_ok {s name : String} (h : headerName s = some name) : name = s := by
  simp only [headerName] at h
  split at h
  · exact (Option.some.inj h).symm
  · cases h

/-- What one custom entry puts on the wire. -/
def customWire (e : SerializedEnvelope) (entry : String × String) :
    Option (String × List String) :=
  match traceOverrideName entry.1 with
  | some f => if frameworkValueSet e f then none else some (f.name, [entry.2])
  | none => some (entry.1, [entry.2])

/-- The loop over the custom headers only ever appends: a trace name is written once, and the
other keys are distinct. -/
theorem encodeCustom_ok {e : SerializedEnvelope} {entries : List (String × String)}
    {headers headers' : HeaderMap} {written : Field → Bool}
    (h : encodeCustom e entries headers written = .ok headers')
    (hkeys : (entries.map Prod.fst).Nodup) (hnd : (names headers).Nodup)
    (hfresh : ∀ k ∈ entries.map Prod.fst, traceOverrideName k = none → k ∉ names headers)
    (hwritten : ∀ f, traceOverrideName f.name = some f → f.name ∈ names headers →
      written f = true) :
    headers' = headers ++ entries.filterMap (customWire e) ∧ (names headers').Nodup ∧
      ∀ k ∈ entries.map Prod.fst, startsWithCi k NATS_PREFIX = false := by
  induction entries generalizing headers written with
  | nil =>
    simp only [encodeCustom, Except.ok.injEq] at h
    subst h
    simp [hnd]
  | cons entry entries ih =>
    obtain ⟨key, value⟩ := entry
    simp only [List.map_cons, List.nodup_cons] at hkeys
    simp only [encodeCustom] at h
    split at h
    case isTrue => cases h
    case isFalse hnats =>
      -- whatever the entry appends, the rest of the loop runs from there
      have hstep : ∀ {hs : HeaderMap} {w : Field → Bool},
          encodeCustom e entries hs w = .ok headers' → (names hs).Nodup →
          (∀ k ∈ entries.map Prod.fst, traceOverrideName k = none → k ∉ names hs) →
          (∀ f, traceOverrideName f.name = some f → f.name ∈ names hs → w f = true) →
          headers' = hs ++ entries.filterMap (customWire e) ∧ (names headers').Nodup ∧
            ∀ k ∈ key :: entries.map Prod.fst, startsWithCi k NATS_PREFIX = false := by
        intro hs w hrun hnd' hfresh' hwritten'
        obtain ⟨heq, hnd'', hrest⟩ := ih hrun hkeys.2 hnd' hfresh' hwritten'
        refine ⟨heq, hnd'', ?_⟩
        intro k hk
        rcases List.mem_cons.mp hk with rfl | hk
        · simpa using hnats
        · exact hrest k hk
      have htail : ∀ k ∈ entries.map Prod.fst, traceOverrideName k = none → k ∉ names headers :=
        fun k hk => hfresh k (List.mem_cons_of_mem _ hk)
      cases htrace : traceOverrideName key with
      | some canonical =>
        have hcanon : traceOverrideName canonical.name = some canonical := by
          rcases traceOverrideName_some htrace with rfl | rfl <;> decide
        simp only [htrace] at h
        split at h
        case isTrue hset =>
          have hskip : customWire e (key, value) = none := by simp [customWire, htrace, hset]
          simpa [hskip] using hstep h hnd htail hwritten
        case isFalse hset =>
          split at h
          case isTrue => cases h
          case isFalse hunwritten =>
            split at h
            case h_1 => cases h
            case h_2 v hv =>
              have hnew : canonical.name ∉ names headers := fun hm =>
                hunwritten (hwritten canonical hcanon hm)
              have hput : customWire e (key, value) = some (canonical.name, [v]) := by
                simp [customWire, htrace, hset, headerValue_ok hv]
              rw [insert_fresh v hnew] at h
              have := hstep h (nodup_append_fresh _ hnd hnew)
                (fun k hk hk' hm => by
                  rcases mem_names_append.mp hm with hm | rfl
                  · exact htail k hk hk' hm
                  · rw [hcanon] at hk'; cases hk')
                (fun f hf hm => by
                  rcases mem_names_append.mp hm with hm | hm
                  · simp [hwritten f hf hm]
                  · simp [Field.name_injective hm])
              simpa [hput] using this
      | none =>
        simp only [htrace] at h
        split at h
        case h_1 => cases h
        case h_2 name hname =>
          split at h
          case h_1 => cases h
          case h_2 v hv =>
            obtain rfl := headerName_ok hname
            have hnew : name ∉ names headers := hfresh name List.mem_cons_self htrace
            have hput : customWire e (name, value) = some (name, [v]) := by
              simp [customWire, htrace, headerValue_ok hv]
            rw [insert_fresh v hnew] at h
            have := hstep h (nodup_append_fresh _ hnd hnew)
              (fun k hk hk' hm => by
                rcases mem_names_append.mp hm with hm | rfl
                · exact htail k hk hk' hm
                · exact hkeys.1 hk)
              (fun f hf hm => by
                rcases mem_names_append.mp hm with hm | hm
                · exact hwritten f hf hm
                · rw [← hm, hf] at htrace; cases htrace)
            simpa [hput] using this

/-- What `encode` puts under a framework name. -/
def fieldWire (c : Codec) (e : SerializedEnvelope) (f : Field) : Option (String × List String) :=
  match fieldText c e f with
  | .ok (some s) => some (f.name, [s])
  | _ => none

theorem insertFields_ok {c : Codec} {e : SerializedEnvelope} {fs : List Field}
    {headers headers' : HeaderMap} (h : insertFields c e fs headers = .ok headers')
    (hfs : fs.Nodup) (hnd : (names headers).Nodup)
    (hfresh : ∀ f ∈ fs, (fieldWire c e f).isSome → f.name ∉ names headers) :
    headers' = headers ++ fs.filterMap (fieldWire c e) ∧ (names headers').Nodup ∧
      ∀ f ∈ fs, ∃ o, fieldText c e f = .ok o := by
  induction fs generalizing headers with
  | nil =>
    simp only [insertFields, Except.ok.injEq] at h
    subst h
    simp [hnd]
  | cons f fs ih =>
    simp only [List.nodup_cons] at hfs
    simp only [insertFields, insertField] at h
    cases htext : fieldText c e f with
    | error stop => simp [htext] at h
    | ok o =>
      have htail : ∀ g ∈ fs, (fieldWire c e g).isSome → g.name ∉ names headers :=
        fun g hg => hfresh g (List.mem_cons_of_mem _ hg)
      have hall : (∀ g ∈ fs, ∃ o, fieldText c e g = .ok o) →
          ∀ g ∈ f :: fs, ∃ o, fieldText c e g = .ok o := by
        intro hrest g hg
        rcases List.mem_cons.mp hg with rfl | hg
        · exact ⟨o, htext⟩
        · exact hrest g hg
      cases o with
      | none =>
        simp only [htext] at h
        obtain ⟨heq, hnd', hrest⟩ := ih h hfs.2 hnd htail
        have hskip : fieldWire c e f = none := by simp [fieldWire, htext]
        exact ⟨by simpa [hskip] using heq, hnd', hall hrest⟩
      | some s =>
        simp only [htext] at h
        cases hv : headerValue f.name s with
        | error stop => simp [hv] at h
        | ok v =>
          simp only [hv] at h
          obtain rfl := headerValue_ok hv
          have hput : fieldWire c e f = some (f.name, [v]) := by simp [fieldWire, htext]
          have hnew : f.name ∉ names headers := hfresh f List.mem_cons_self (by simp [hput])
          rw [insert_fresh v hnew] at h
          obtain ⟨heq, hnd', hrest⟩ := ih h hfs.2 (nodup_append_fresh _ hnd hnew)
            (fun g hg hs hm => by
              rcases mem_names_append.mp hm with hm | hm
              · exact htail g hg hs hm
              · exact hfs.1 (Field.name_injective hm ▸ hg))
          exact ⟨by simpa [hput] using heq, hnd', hall hrest⟩

/-! ## What a decoder may rely on -/

/-- The custom headers of a block, in its order. -/
def customsOf (headers : HeaderMap) : List (String × String) :=
  headers.filterMap fun x =>
    if classifyHeader x.1 = .custom then some (x.1, x.2.headD "") else none

/-- The value on the wire under a framework name: the envelope's own, else a custom trace header's. -/
def carried (c : Codec) (e : SerializedEnvelope) (f : Field) : Option String :=
  match fieldText c e f with
  | .ok (some s) => some s
  | _ => offered f (customEntries e.headers)

/-- The block carries the envelope `e`, whatever its enumeration. -/
structure Wire (c : Codec) (e : SerializedEnvelope) (headers : HeaderMap) : Prop where
  nodup : (names headers).Nodup
  values : ∀ f s, (f.name, [s]) ∈ headers ↔ carried c e f = some s
  entry : ∀ x ∈ headers, (∃ f s, x = (Field.name f, [s])) ∨
    ∃ key value, x = (key, [value]) ∧ CustomKey key ∧ (key, value) ∈ customEntries e.headers
  customs : (customsOf headers).Perm
    ((customEntries e.headers).filter fun x => (traceOverrideName x.1).isNone)
  texts : ∀ f, ∃ o, fieldText c e f = .ok o

theorem Wire.perm {c : Codec} {e : SerializedEnvelope} {headers headers' : HeaderMap}
    (h : Wire c e headers) (hp : headers'.Perm headers) : Wire c e headers' where
  nodup := (hp.map Prod.fst).nodup_iff.mpr h.nodup
  values := fun f s => hp.mem_iff.trans (h.values f s)
  entry := fun x hx => h.entry x (hp.mem_iff.mp hx)
  customs := (hp.filterMap _).trans h.customs
  texts := h.texts

/-- Entries with one name are one entry. -/
theorem eq_of_names_nodup {headers : HeaderMap} (h : (names headers).Nodup) {n : String}
    {v v' : List String} (hv : (n, v) ∈ headers) (hv' : (n, v') ∈ headers) : v = v' := by
  have := List.inj_on_of_nodup_map h hv hv' rfl
  exact congrArg Prod.snd this

theorem customEntries_nodup (headers : Option Headers) :
    ((customEntries headers).map Prod.fst).Nodup := by
  cases headers with
  | none => exact List.nodup_nil
  | some h => exact h.nodup

theorem customEntries_valid (headers : Option Headers) :
    ∀ x ∈ customEntries headers, Headers.check x.1 x.2 = .ok () := by
  cases headers with
  | none => intro x hx; cases hx
  | some h => exact h.valid

/-- For the two trace fields, the text `encode` writes is what the custom loop asked about. -/
theorem fieldText_trace {c : Codec} {e : SerializedEnvelope} {f : Field} {key : String}
    (h : traceOverrideName key = some f) :
    ∃ o, fieldText c e f = .ok o ∧ frameworkValueSet e f = o.isSome := by
  rcases traceOverrideName_some h with rfl | rfl
  · exact ⟨_, rfl, rfl⟩
  · exact ⟨_, rfl, rfl⟩

theorem offered_mem {f : Field} {entries : List (String × String)} {s : String}
    (h : offered f entries = some s) :
    ∃ key, (key, s) ∈ entries ∧ traceOverrideName key = some f := by
  obtain ⟨x, hx, rfl⟩ := Option.map_eq_some_iff.mp h
  exact ⟨x.1, List.mem_of_find?_eq_some hx, by simpa using List.find?_some hx⟩

theorem offered_of_mem {f : Field} {entries : List (String × String)} {key s : String}
    (h : (key, s) ∈ entries) (hk : traceOverrideName key = some f) :
    ∃ s', offered f entries = some s' := by
  cases hfind : entries.find? fun x => traceOverrideName x.1 == some f with
  | none => exact absurd (List.find?_eq_none.mp hfind _ h) (by simp [hk])
  | some x => exact ⟨x.2, by simp [offered, hfind]⟩

/-- What an entry of the custom part of the block is. -/
theorem mem_customWire {e : SerializedEnvelope} {x : String × List String}
    (hnats : ∀ k ∈ (customEntries e.headers).map Prod.fst, startsWithCi k NATS_PREFIX = false)
    (hx : x ∈ (customEntries e.headers).filterMap (customWire e)) :
    (∃ f key s, x = (Field.name f, [s]) ∧ (key, s) ∈ customEntries e.headers ∧
        traceOverrideName key = some f ∧ frameworkValueSet e f = false) ∨
      ∃ key value, x = (key, [value]) ∧ CustomKey key ∧
        (key, value) ∈ customEntries e.headers := by
  obtain ⟨⟨key, value⟩, hmem, hwire⟩ := List.mem_filterMap.mp hx
  simp only [customWire] at hwire
  cases htrace : traceOverrideName key with
  | some f =>
    simp only [htrace] at hwire
    split at hwire
    · cases hwire
    · rename_i hset
      exact .inl ⟨f, key, value, (Option.some.inj hwire).symm, hmem, htrace, by simpa using hset⟩
  | none =>
    simp only [htrace] at hwire
    refine .inr ⟨key, value, (Option.some.inj hwire).symm, ⟨htrace, ?_, ?_⟩, hmem⟩
    · exact hnats key (List.mem_map_of_mem hmem)
    · exact noReliar_of_check (customEntries_valid e.headers _ hmem)

theorem mem_fieldWire {c : Codec} {e : SerializedEnvelope} {x : String × List String} :
    x ∈ Field.all.filterMap (fieldWire c e) ↔
      ∃ f s, x = (Field.name f, [s]) ∧ fieldText c e f = .ok (some s) := by
  simp only [List.mem_filterMap, Field.mem_all, true_and]
  constructor
  · rintro ⟨f, hf⟩
    simp only [fieldWire] at hf
    split at hf
    · rename_i s hs
      exact ⟨f, s, (Option.some.inj hf).symm, hs⟩
    · cases hf
  · rintro ⟨f, s, rfl, hs⟩
    exact ⟨f, by simp [fieldWire, hs]⟩

/-- No insert of `encode` replaces an entry: the block is what was put, in the order it was put. -/
theorem encode_headers {c : Codec} {e : SerializedEnvelope} {w : NatsWireMessage}
    (h : encode c e = .ok w) :
    w.payload = e.body ∧
      w.headers = (customEntries e.headers).filterMap (customWire e) ++
        Field.all.filterMap (fieldWire c e) ∧
      (names w.headers).Nodup ∧ (∀ f, ∃ o, fieldText c e f = .ok o) ∧
      ∀ k ∈ (customEntries e.headers).map Prod.fst, startsWithCi k NATS_PREFIX = false := by
  simp only [encode] at h
  split at h
  case h_1 => cases h
  case h_2 headers hcustom =>
    split at h
    case h_1 => cases h
    case h_2 headers' hfields =>
      cases h
      obtain ⟨hlist, hnd, hnats⟩ := encodeCustom_ok hcustom (customEntries_nodup e.headers)
        List.nodup_nil (fun _ _ _ => List.not_mem_nil) (fun f _ hm => absurd hm List.not_mem_nil)
      simp only [List.nil_append] at hlist
      have hfresh : ∀ f ∈ Field.all, (fieldWire c e f).isSome → f.name ∉ names headers := by
        intro f _ hsome hm
        rw [hlist] at hm
        obtain ⟨x, hx, hname⟩ := List.mem_map.mp hm
        rcases mem_customWire hnats hx with ⟨g, key, s, rfl, -, htrace, hset⟩ | ⟨key, _, rfl, hk, -⟩
        · -- a custom trace header was written only because the framework value is not set
          obtain rfl := Field.name_injective hname
          obtain ⟨o, ho, hset'⟩ := fieldText_trace (c := c) (e := e) htrace
          cases o with
          | none => simp [fieldWire, ho] at hsome
          | some _ => rw [hset] at hset'; cases hset'
        · exact hk.ne_name f hname
      obtain ⟨hlist', hnd', htexts⟩ := insertFields_ok hfields (by decide) hnd hfresh
      exact ⟨rfl, by rw [hlist', hlist], hnd', fun f => htexts f f.mem_all, hnats⟩

theorem customsOf_append (hs hs' : HeaderMap) :
    customsOf (hs ++ hs') = customsOf hs ++ customsOf hs' := List.filterMap_append

theorem encode_wire {c : Codec} {e : SerializedEnvelope} {w : NatsWireMessage}
    (h : encode c e = .ok w) : Wire c e w.headers := by
  obtain ⟨-, hlist, hnd, htexts, hnats⟩ := encode_headers h
  have hmem : ∀ x, x ∈ w.headers ↔ x ∈ (customEntries e.headers).filterMap (customWire e) ∨
      x ∈ Field.all.filterMap (fieldWire c e) := by
    intro x
    rw [hlist, List.mem_append]
  refine ⟨hnd, ?_, ?_, ?_, htexts⟩
  · intro f s
    obtain ⟨o, ho⟩ := htexts f
    cases o with
    | some s' =>
      -- the framework's own value; by distinct names nothing else is under the name
      have hput : (f.name, [s']) ∈ w.headers := (hmem _).mpr (.inr (mem_fieldWire.mpr ⟨f, s', rfl, ho⟩))
      simp only [carried, ho, Option.some.injEq]
      constructor
      · intro hs
        simpa using eq_of_names_nodup hnd hput hs
      · rintro rfl
        exact hput
    | none =>
      have hoffer : ∀ key t, (key, t) ∈ customEntries e.headers → traceOverrideName key = some f →
          (f.name, [t]) ∈ w.headers := by
        intro key t hkey htrace
        obtain ⟨o', ho', hset⟩ := fieldText_trace (c := c) (e := e) htrace
        rw [ho] at ho'
        cases ho'
        exact (hmem _).mpr (.inl (List.mem_filterMap.mpr
          ⟨(key, t), hkey, by simp [customWire, htrace, hset]⟩))
      simp only [carried, ho]
      constructor
      · intro hs
        rcases (hmem _).mp hs with hx | hx
        · rcases mem_customWire hnats hx with ⟨g, key, t, heq, hkey, htrace, -⟩ | ⟨key, v, heq, hk, -⟩
          · have hname : f.name = g.name := congrArg Prod.fst heq
            obtain rfl := Field.name_injective hname
            obtain ⟨t', ht'⟩ := offered_of_mem hkey htrace
            obtain ⟨key', hkey', htrace'⟩ := offered_mem ht'
            have := eq_of_names_nodup hnd (hoffer key' t' hkey' htrace') hs
            rw [ht']
            simpa using this
          · exact absurd (congrArg Prod.fst heq).symm (hk.ne_name f)
        · obtain ⟨g, t, heq, hg⟩ := mem_fieldWire.mp hx
          obtain rfl := Field.name_injective (congrArg Prod.fst heq : f.name = g.name)
          rw [ho] at hg
          cases hg
      · intro hs
        obtain ⟨key, hkey, htrace⟩ := offered_mem hs
        exact hoffer key s hkey htrace
  · intro x hx
    rcases (hmem x).mp hx with hx | hx
    · rcases mem_customWire hnats hx with ⟨f, -, s, rfl, -⟩ | hcustom
      · exact .inl ⟨f, s, rfl⟩
      · exact .inr hcustom
    · obtain ⟨f, s, rfl, -⟩ := mem_fieldWire.mp hx
      exact .inl ⟨f, s, rfl⟩
  · have hframework : customsOf (Field.all.filterMap (fieldWire c e)) = [] := by
      rw [customsOf, List.filterMap_eq_nil_iff]
      intro x hx
      obtain ⟨f, s, rfl, -⟩ := mem_fieldWire.mp hx
      simp [classifyHeader_name]
    rw [hlist, customsOf_append, hframework, List.append_nil, customsOf, List.filterMap_filterMap,
      ← List.filterMap_eq_filter]
    refine List.Perm.of_eq (List.filterMap_congr ?_)
    rintro ⟨key, value⟩ hx
    cases htrace : traceOverrideName key with
    | some f =>
      by_cases hset : frameworkValueSet e f = true
      · simp [customWire, htrace, hset, Option.guard]
      · simp [customWire, htrace, hset, classifyHeader_name, Option.guard]
    | none =>
      have hkey : CustomKey key := ⟨htrace, hnats key (List.mem_map_of_mem hx),
        noReliar_of_check (customEntries_valid e.headers _ hx)⟩
      simp [customWire, htrace, hkey.classify, Option.guard]

/-! ## Scanning -/

/-- One framework entry is assigned: its slot was empty and it has one value. -/
theorem assignOnce_new {scanned : ScannedHeaders} {f : Field} (value : String)
    (h : scanned.slots f = none) :
    assignOnce scanned f [value] =
      .ok { scanned with slots := fun g => if g = f then some value else scanned.slots g } := by
  simp [assignOnce, h]

/-- One custom entry is appended to the custom headers. -/
theorem assignCustom_new {scanned : ScannedHeaders} {key value : String}
    (hcheck : Headers.check key value = .ok ())
    (hfresh : key ∉ (customEntries scanned.custom).map Prod.fst)
    (hroom : (customEntries scanned.custom).length < Headers.MAX_COUNT) :
    ∃ h : Headers, assignCustom scanned key [value] = .ok { scanned with custom := some h } ∧
      h.entries = customEntries scanned.custom ++ [(key, value)] := by
  have hget : (scanned.custom.getD Headers.empty).entries = customEntries scanned.custom := by
    cases scanned.custom <;> rfl
  have hfresh' : key ∉ (scanned.custom.getD Headers.empty).keys := by
    rw [Headers.keys, hget]; exact hfresh
  have hroom' : (scanned.custom.getD Headers.empty).entries.length < Headers.MAX_COUNT := by
    rw [hget]; exact hroom
  refine ⟨(scanned.custom.getD Headers.empty).push key value hfresh' hcheck hroom', ?_, ?_⟩
  · simp only [assignCustom, List.headD_cons, Headers.insert_new hfresh' hcheck hroom']
  · rw [Headers.push_entries, hget]

/-- The scan of a block of framework entries and valid custom entries with distinct names fills
each slot with the value under its name and collects the custom headers, in order. -/
theorem scan_ok (headers : HeaderMap) (scanned : ScannedHeaders)
    (hnd : (names headers).Nodup)
    (hentry : ∀ x ∈ headers, (∃ f s, x = (Field.name f, [s])) ∨
      ∃ key value, x = (key, [value]) ∧ CustomKey key ∧ Headers.check key value = .ok ())
    (hslots : ∀ f, (scanned.slots f).isSome → f.name ∉ names headers)
    (hfresh : ∀ k ∈ (customEntries scanned.custom).map Prod.fst, k ∉ names headers)
    (hcount : (customEntries scanned.custom ++ customsOf headers).length ≤ Headers.MAX_COUNT) :
    ∃ r, scan headers scanned = .ok r ∧
      (∀ f s, r.slots f = some s ↔ scanned.slots f = some s ∨ (f.name, [s]) ∈ headers) ∧
      customEntries r.custom = customEntries scanned.custom ++ customsOf headers ∧
      (r.custom.isSome = true ↔ scanned.custom.isSome = true ∨ customsOf headers ≠ []) := by
  induction headers generalizing scanned with
  | nil => exact ⟨scanned, rfl, by simp, by simp [customsOf], by simp [customsOf]⟩
  | cons x headers ih =>
    simp only [names, List.map_cons, List.nodup_cons] at hnd
    have hnd' : (names headers).Nodup := hnd.2
    have hentry' := fun y hy => hentry y (List.mem_cons_of_mem _ hy)
    rcases hentry x List.mem_cons_self with ⟨f, s, rfl⟩ | ⟨key, value, rfl, hkey, hcheck⟩
    · have hempty : scanned.slots f = none := by
        cases hf : scanned.slots f with
        | none => rfl
        | some t => exact absurd (hslots f (by simp [hf])) (by simp [names])
      have hcustoms : customsOf ((f.name, [s]) :: headers) = customsOf headers := by
        simp [customsOf, classifyHeader_name]
      obtain ⟨r, hr, hrslots, hrcustom, hrsome⟩ := ih
        { scanned with slots := fun g => if g = f then some s else scanned.slots g } hnd' hentry'
        (by
          intro g hg hm
          by_cases hgf : g = f
          · subst hgf; exact hnd.1 hm
          · simp only [if_neg hgf] at hg
            exact hslots g hg (List.mem_cons_of_mem _ hm))
        (fun k hk hm => hfresh k hk (List.mem_cons_of_mem _ hm))
        (by rw [hcustoms] at hcount; exact hcount)
      refine ⟨r, ?_, ?_, by rw [hcustoms]; exact hrcustom, by rw [hcustoms]; exact hrsome⟩
      · simp only [scan, classifyHeader_name, assignOnce_new s hempty, hr]
      · intro g t
        rw [hrslots g t]
        by_cases hgf : g = f
        · subst hgf
          have hout : (g.name, [t]) ∉ headers := fun hm =>
            hnd.1 (List.mem_map.mpr ⟨_, hm, rfl⟩)
          simp [hempty, hout, eq_comm]
        · have hne : g.name ≠ f.name := fun h => hgf (Field.name_injective h)
          simp [hgf, hne]
    · have hcustoms : customsOf ((key, [value]) :: headers) = (key, value) :: customsOf headers := by
        simp [customsOf, hkey.classify]
      have hknew : key ∉ (customEntries scanned.custom).map Prod.fst := fun hm =>
        hfresh key hm (by simp [names])
      have hroom : (customEntries scanned.custom).length < Headers.MAX_COUNT := by
        rw [hcustoms] at hcount
        simp only [List.length_append, List.length_cons] at hcount
        omega
      obtain ⟨h, hassign, hentries⟩ := assignCustom_new hcheck hknew hroom
      obtain ⟨r, hr, hrslots, hrcustom, hrsome⟩ := ih { scanned with custom := some h } hnd' hentry'
        (fun f hf hm => hslots f hf (List.mem_cons_of_mem _ hm))
        (by
          intro k hk hm
          simp only [customEntries, hentries, List.map_append, List.mem_append, List.map_cons,
            List.map_nil, List.mem_singleton] at hk
          rcases hk with hk | rfl
          · exact hfresh k hk (List.mem_cons_of_mem _ hm)
          · exact hnd.1 hm)
        (by
          rw [hcustoms] at hcount
          simpa [customEntries, hentries] using hcount)
      refine ⟨r, ?_, ?_, ?_, ?_⟩
      · simp only [scan, hkey.classify, hassign, hr]
      · intro f t
        have hne : f.name ≠ key := fun h => hkey.ne_name f h.symm
        rw [hrslots f t]
        simp [hne]
      · rw [hrcustom, hcustoms]
        simp [customEntries, hentries]
      · rw [hrsome, hcustoms]
        simp

/-! ## Parsing what was scanned -/

theorem parseU16_toString (v : UInt16) : parseU16 (toString v.toNat) = some v := by
  have hlist : (toString v.toNat).toList = Nat.toDigits 10 v.toNat := by
    rw [Nat.toString_eq_repr, Nat.toList_repr]
  have hdigits : ∀ ch ∈ Nat.toDigits 10 v.toNat, ch.isDigit = true := fun ch hch =>
    Nat.isDigit_of_mem_toDigits (by decide) (by decide) hch
  -- a digit is not a plus sign, so nothing is stripped
  have hstrip : stripPlus (Nat.toDigits 10 v.toNat) = Nat.toDigits 10 v.toNat := by
    cases hd : Nat.toDigits 10 v.toNat with
    | nil => rfl
    | cons ch chars =>
      have hch : ch.isDigit = true := hdigits ch (by rw [hd]; exact List.mem_cons_self)
      have hne : ch ≠ '+' := by rintro rfl; revert hch; decide
      simp [stripPlus, hne]
  have hlt : v.toNat < 65536 := v.toNat_lt
  simp only [parseU16, hlist, hstrip, Nat.ofDigitChars_ten_toDigits]
  rw [if_pos ⟨Nat.toDigits_ne_nil, List.all_eq_true.mpr hdigits, hlt⟩]
  simp

theorem optional_map {α : Type} {scanned : ScannedHeaders} {f : Field} {parse : String → Option α}
    (text : α → String) {o : Option α} (hparse : ∀ a, parse (text a) = some a)
    (hslot : scanned.slots f = o.map text) : optional scanned f parse = .ok o := by
  cases o with
  | none => simp [optional, hslot]
  | some a => simp [optional, hslot, hparse a, wellFormed, Except.map]

/-- A timestamp that was written is read back as the same instant. -/
theorem optional_timestamp {c : Codec} {scanned : ScannedHeaders} {f : Field} {header : String}
    {t : Option OffsetDateTime} {o : Option String}
    (htext : (match t with
      | none => Except.ok none
      | some t => (rfc3339Utc c t header).map some) = .ok o)
    (hslot : scanned.slots f = o) :
    ∃ t', optional scanned f c.parseRfc3339 = .ok t' ∧ SameInstant t' t := by
  cases t with
  | none =>
    cases htext
    exact ⟨none, by simp [optional, hslot], rfl⟩
  | some t =>
    simp only [rfc3339Utc] at htext
    split at htext
    case h_1 => cases htext
    case h_2 utc hutc =>
      split at htext
      case h_1 => cases htext
      case h_2 s hs =>
        cases htext
        simp only [OffsetDateTime.fromUnixTimestampNanos] at hutc
        split at hutc
        case isFalse => cases hutc
        case isTrue =>
          cases hutc
          obtain ⟨t', hparse, hnanos⟩ := c.parse_formatRfc3339 _ s rfl hs
          refine ⟨some t', ?_, ?_⟩
          · simp [optional, hslot, hparse, wellFormed, Except.map]
          · simp [SameInstant, hnanos]

theorem offered_eq_none {f : Field} (hp : f ≠ .traceparent) (hs : f ≠ .tracestate)
    (entries : List (String × String)) : offered f entries = none := by
  cases h : offered f entries with
  | none => rfl
  | some s =>
    obtain ⟨key, -, htrace⟩ := offered_mem h
    rcases traceOverrideName_some htrace with rfl | rfl
    · exact absurd rfl hp
    · exact absurd rfl hs

/-- The slots hold what the wire carries. -/
def Carries (c : Codec) (e : SerializedEnvelope) (scanned : ScannedHeaders) : Prop :=
  ∀ f o, fieldText c e f = .ok o → scanned.slots f = o.or (offered f (customEntries e.headers))

theorem Carries.slot {c : Codec} {e : SerializedEnvelope} {scanned : ScannedHeaders}
    (h : Carries c e scanned) {f : Field} {o : Option String} (hf : fieldText c e f = .ok o)
    (hp : f ≠ .traceparent) (hs : f ≠ .tracestate) : scanned.slots f = o := by
  rw [h f o hf, offered_eq_none hp hs, Option.or_none]

theorem sameHeaders_normalise {custom headers : Option Headers}
    (hperm : (customEntries custom).Perm
      ((customEntries headers).filter fun x => (traceOverrideName x.1).isNone))
    (hsome : custom.isSome = true ↔ customEntries custom ≠ []) :
    SameHeaders custom (normaliseHeaders headers) := by
  cases custom with
  | none =>
    have hnil : (customEntries headers).filter (fun x => (traceOverrideName x.1).isNone) = [] :=
      hperm.symm.eq_nil
    cases headers with
    | none => trivial
    | some h =>
      have hempty : (keepCustom h).isEmpty = true := List.isEmpty_iff.mpr hnil
      simp [normaliseHeaders, Option.filter, hempty, SameHeaders]
  | some h' =>
    have hne : h'.entries ≠ [] := hsome.mp rfl
    cases headers with
    | none => exact absurd hperm.eq_nil hne
    | some h =>
      have hempty : (keepCustom h).isEmpty = false := by
        rw [Bool.eq_false_iff]
        intro hk
        have hnil : (keepCustom h).entries = [] := List.isEmpty_iff.mp hk
        exact hne (List.Perm.eq_nil (hnil ▸ hperm))
      simp only [normaliseHeaders, Option.map_some, Option.filter, hempty, Bool.not_false, if_true]
      exact hperm

/-- Any enumeration of the block is scanned. -/
theorem Wire.scan {c : Codec} {e : SerializedEnvelope} {headers : HeaderMap}
    (h : Wire c e headers) :
    ∃ r, scan headers ScannedHeaders.default = .ok r ∧ Carries c e r ∧
      SameHeaders r.custom (normaliseHeaders e.headers) := by
  have hkept : (customsOf headers).length ≤ Headers.MAX_COUNT := by
    rw [h.customs.length_eq]
    refine Nat.le_trans (List.length_filter_le _ _) ?_
    cases e.headers with
    | none => exact Nat.zero_le _
    | some hs => exact hs.count
  obtain ⟨r, hr, hslots, hcustom, hsome⟩ := scan_ok headers ScannedHeaders.default h.nodup
    (by
      intro x hx
      rcases h.entry x hx with hf | ⟨key, value, rfl, hkey, hmem⟩
      · exact .inl hf
      · exact .inr ⟨key, value, rfl, hkey, customEntries_valid _ _ hmem⟩)
    (by intro f hf; cases hf) (by intro k hk; cases hk) hkept
  have hcustom' : customEntries r.custom = customsOf headers := hcustom
  refine ⟨r, hr, ?_, ?_⟩
  · intro f o ho
    refine Option.ext fun s => ?_
    rw [hslots f s, h.values f s, carried, ho]
    cases o <;> simp [ScannedHeaders.default]
  · refine sameHeaders_normalise (hcustom' ▸ h.customs) ?_
    rw [hcustom']
    simpa [ScannedHeaders.default] using hsome

/-! ## The round trip -/

theorem parseIdentity_carries {c : Codec} {e : SerializedEnvelope} {scanned : ScannedHeaders}
    (h : Carries c e scanned) (hname : e.messageType.name ≠ "") :
    parseIdentity c scanned = .ok ⟨e.id, c.uuidText e.id.uuid, e.messageType,
      e.metadata.delivery.contentType⟩ := by
  have hid : required scanned .messageId = .ok (c.uuidText e.id.uuid) := by
    simp [required, h.slot (f := .messageId) rfl]
  have htype : required scanned .messageType = .ok e.messageType.name := by
    simp [required, h.slot (f := .messageType) rfl]
  have hversion : required scanned .messageVersion = .ok (toString e.messageType.version.toNat) := by
    simp [required, h.slot (f := .messageVersion) rfl]
  have hcontent : required scanned .contentType =
      .ok e.metadata.delivery.contentType.asStr := by
    simp [required, h.slot (f := .contentType) rfl]
  simp only [parseIdentity, hid, htype, hversion, hcontent, ok_bind, parseU16_toString,
    c.parse_uuidText, if_neg hname, ContentType.parse_text, wellFormed, Except.toOption]
  rfl

/-- What `normalise` does with the deduplication key. -/
theorem filter_dedup (o : Option String) (id : String) :
    (some (o.getD id)).filter (fun v => v != id) = o.filter fun v => v != id := by
  cases o with
  | none => simp
  | some d => rfl

/-- The metadata that comes back, given the two timestamps read. -/
theorem parseMetadata_carries {c : Codec} {e : SerializedEnvelope} {scanned : ScannedHeaders}
    (h : Carries c e scanned) (htexts : ∀ f, ∃ o, fieldText c e f = .ok o) :
    ∃ m, parseMetadata c scanned (c.uuidText e.id.uuid) e.metadata.delivery.contentType = .ok m ∧
      m.Same (normalise c e).metadata := by
  obtain ⟨osent, hsent⟩ := htexts .sentAt
  obtain ⟨oexpires, hexpires⟩ := htexts .expiresAt
  obtain ⟨sentAt, hsentAt, hsameSent⟩ :=
    optional_timestamp hsent (h.slot hsent (by decide) (by decide))
  obtain ⟨expiresAt, hexpiresAt, hsameExpires⟩ :=
    optional_timestamp hexpires (h.slot hexpires (by decide) (by decide))
  have hcorrelation : optional scanned .correlationId
      (fun s => (CorrelationId.parse s).toOption) = .ok e.metadata.correlation.correlationId :=
    optional_map CorrelationId.asStr (by intro a; simp [Except.toOption])
      (h.slot rfl (by decide) (by decide))
  have haddress : ∀ {f : Field} {o : Option EndpointAddress},
      fieldText c e f = .ok (o.map EndpointAddress.asStr) → f ≠ .traceparent → f ≠ .tracestate →
        optional scanned f (fun s => (EndpointAddress.parse s).toOption) = .ok o :=
    fun hf hp hs => optional_map EndpointAddress.asStr (by intro a; simp [Except.toOption])
      (h.slot hf hp hs)
  have huuid : ∀ {f : Field} {o : Option Uuid},
      fieldText c e f = .ok (o.map c.uuidText) → f ≠ .traceparent → f ≠ .tracestate →
        optional scanned f c.parseUuid = .ok o :=
    fun hf hp hs => optional_map c.uuidText c.parse_uuidText (h.slot hf hp hs)
  have hsource := haddress (f := .source) (o := e.metadata.routing.source) rfl
    (by decide) (by decide)
  have hdestination := haddress (f := .destination) (o := e.metadata.routing.destination) rfl
    (by decide) (by decide)
  have hreply := haddress (f := .replyTo) (o := e.metadata.routing.replyTo) rfl
    (by decide) (by decide)
  have hcausation := huuid (f := .causationId)
    (o := e.metadata.correlation.causationId.map MessageId.uuid)
    (by simp [fieldText, Function.comp_def]) (by decide) (by decide)
  have hrequest := huuid (f := .requestId)
    (o := e.metadata.correlation.requestId.map RequestId.uuid)
    (by simp [fieldText, Function.comp_def]) (by decide) (by decide)
  obtain ⟨conversation, hconversation, hconv⟩ : ∃ o, optional scanned .conversationId c.parseUuid =
      .ok o ∧ (o.map ConversationId.mk).getD ConversationId.UNSET =
        e.metadata.correlation.conversationId := by
    by_cases hunset : e.metadata.correlation.conversationId.isUnset = true
    · refine ⟨none, huuid (by simp [fieldText, hunset]) (by decide) (by decide), ?_⟩
      simp only [ConversationId.isUnset, decide_eq_true_eq] at hunset
      simp [ConversationId.UNSET, ← hunset]
    · exact ⟨some e.metadata.correlation.conversationId.uuid,
        huuid (by simp [fieldText, hunset]) (by decide) (by decide), rfl⟩
  have htenant : scanned.slots .tenantId = e.metadata.tenantId :=
    h.slot rfl (by decide) (by decide)
  have hdedup : scanned.slots .natsMsgId =
      some (e.metadata.delivery.deduplicationId.getD (c.uuidText e.id.uuid)) :=
    h.slot rfl (by decide) (by decide)
  have hparent := h .traceparent _ rfl
  have hstate := h .tracestate _ rfl
  simp only [parseMetadata, hcorrelation, hconversation, hcausation, hrequest, hsentAt, hexpiresAt,
    hsource, hdestination, hreply, ok_bind, hconv, htenant, hdedup, filter_dedup, hparent, hstate]
  refine ⟨_, rfl, ?_, rfl, rfl, ⟨rfl, hsameSent, hsameExpires, rfl⟩, rfl⟩
  simp [normalise, Function.comp_def]

/-- A block that carries an envelope with a non-empty message type decodes to its normal form. -/
theorem Wire.decode {c : Codec} {e : SerializedEnvelope} {headers : HeaderMap}
    (h : Wire c e headers) (hname : e.messageType.name ≠ "") :
    ∃ e', decode c ⟨headers, e.body⟩ = .ok e' ∧ e'.Same (normalise c e) := by
  obtain ⟨r, hscan, hcarries, hheaders⟩ := h.scan
  obtain ⟨m, hmetadata, hsame⟩ := parseMetadata_carries hcarries h.texts
  refine ⟨⟨e.id, e.messageType, e.body, m, r.custom⟩, ?_, ⟨rfl, rfl, rfl, hsame, hheaders⟩⟩
  simp only [Nats.decode, hscan, intoEnvelope, parseIdentity_carries hcarries hname, ok_bind,
    hmetadata]
  rfl

/-- For every envelope with a non-empty message type: if `encode` gives a message, then `decode`
of it, however its header map is enumerated, gives the normalised envelope. -/
theorem decode_encode (c : Codec) (e : SerializedEnvelope) (w : NatsWireMessage)
    (hname : e.messageType.name ≠ "") (hencode : encode c e = .ok w) :
    ∀ headers, headers.Perm w.headers →
      ∃ e', decode c ⟨headers, w.payload⟩ = .ok e' ∧ e'.Same (normalise c e) := by
  intro headers hperm
  have hpayload : w.payload = e.body := (encode_headers hencode).1
  rw [hpayload]
  exact ((encode_wire hencode).perm hperm).decode hname

/-! ## A codec -/

/-- The last `k` hexadecimal digits of a number, the most significant first. -/
def hexDigits (n : Nat) : Nat → List Char
  | 0 => []
  | k + 1 => Nat.digitChar (n / 16 ^ k % 16) :: hexDigits n k

def hexValue (ch : Char) : Nat :=
  if ch.isDigit then ch.toNat - '0'.toNat else ch.toNat - 'a'.toNat + 10

theorem hexValue_digitChar {d : Nat} (h : d < 16) : hexValue (Nat.digitChar d) = d := by
  revert d; decide

theorem digitChar_ne_hyphen {d : Nat} (h : d < 16) : Nat.digitChar d ≠ '-' := by
  revert d; decide

theorem hyphen_notMem_hexDigits (n k : Nat) : ∀ ch ∈ hexDigits n k, ch ≠ '-' := by
  induction k with
  | zero => intro ch hch; cases hch
  | succ k ih =>
    intro ch hch
    rcases List.mem_cons.mp hch with rfl | hch
    · exact digitChar_ne_hyphen (Nat.mod_lt _ (by decide))
    · exact ih ch hch

theorem length_hexDigits (n k : Nat) : (hexDigits n k).length = k := by
  induction k with
  | zero => rfl
  | succ k ih => simp [hexDigits, ih]

theorem foldl_hexDigits (n k acc : Nat) :
    (hexDigits n k).foldl (fun a ch => a * 16 + hexValue ch) acc = acc * 16 ^ k + n % 16 ^ k := by
  induction k generalizing acc with
  | zero => simp [hexDigits, Nat.mod_one]
  | succ k ih =>
    have hdigit : hexValue (Nat.digitChar (n / 16 ^ k % 16)) = n / 16 ^ k % 16 :=
      hexValue_digitChar (Nat.mod_lt _ (by decide))
    have hsplit : n % 16 ^ (k + 1) = n % 16 ^ k + 16 ^ k * (n / 16 ^ k % 16) := by
      rw [Nat.pow_succ, Nat.mod_mul]
    rw [hexDigits, List.foldl_cons, hdigit, ih, hsplit, Nat.pow_succ, Nat.add_mul,
      Nat.mul_comm (16 ^ k) (n / 16 ^ k % 16), Nat.mul_assoc, Nat.mul_comm 16 (16 ^ k)]
    omega

/-- The hyphenated form: groups of 8, 4, 4, 4 and 12 digits. -/
def hyphenate (d : List Char) : List Char :=
  d.take 8 ++ '-' :: ((d.drop 8).take 4 ++ '-' :: ((d.drop 12).take 4 ++
    '-' :: ((d.drop 16).take 4 ++ '-' :: d.drop 20)))

theorem filter_hyphenate {d : List Char} (h : ∀ ch ∈ d, ch ≠ '-') :
    (hyphenate d).filter (· ≠ '-') = d := by
  have hall : ∀ l : List Char, l.Sublist d → l.filter (· ≠ '-') = l := by
    intro l hl
    rw [List.filter_eq_self]
    intro ch hch
    simpa using h ch (hl.subset hch)
  have ht : ∀ n m, ((d.drop n).take m).filter (· ≠ '-') = (d.drop n).take m := fun n m =>
    hall _ ((List.take_sublist _ _).trans (List.drop_sublist _ _))
  have hrejoin : ∀ n m, (d.drop n).take m ++ d.drop (n + m) = d.drop n := by
    intro n m
    rw [← List.drop_drop, List.take_append_drop]
  simp only [hyphenate, List.filter_append, List.filter_cons, ht, hall _ (List.take_sublist _ _),
    hall _ (List.drop_sublist _ _)]
  simp only [ne_eq, not_true_eq_false, decide_false, Bool.false_eq_true, if_false]
  rw [hrejoin 16 4, hrejoin 12 4, hrejoin 8 4, List.take_append_drop]

/-- UUIDs in their hyphenated form, and the RFC 3339 text of the epoch. -/
def plainCodec : Codec where
  uuidText u := String.ofList (hyphenate (hexDigits u.bits.toNat 32))
  parseUuid s :=
    let d := s.toList.filter (· ≠ '-')
    if d.length = 32 then some ⟨BitVec.ofNat 128 (d.foldl (fun a ch => a * 16 + hexValue ch) 0)⟩
    else none
  formatRfc3339 t := if t.unixNanos = 0 then some "1970-01-01T00:00:00Z" else none
  parseRfc3339 s :=
    if s = "1970-01-01T00:00:00Z" then some ⟨0, 0, OffsetDateTime.zero_offset, by decide⟩ else none
  parse_uuidText u := by
    have hd : ((String.ofList (hyphenate (hexDigits u.bits.toNat 32))).toList.filter (· ≠ '-')) =
        hexDigits u.bits.toNat 32 := by
      rw [String.toList_ofList, filter_hyphenate (hyphen_notMem_hexDigits _ _)]
    have hlt : u.bits.toNat < 16 ^ 32 := u.bits.isLt
    simp only [hd, length_hexDigits, foldl_hexDigits, if_true, Nat.zero_mul, Nat.zero_add,
      Nat.mod_eq_of_lt hlt, BitVec.ofNat_toNat, BitVec.setWidth_eq]
  parse_formatRfc3339 t s _ hs := by
    split at hs
    case isTrue hzero =>
      cases hs
      exact ⟨⟨0, 0, OffsetDateTime.zero_offset, by decide⟩, by simp, hzero.symm⟩
    case isFalse => cases hs

/-- Sent at the epoch under its own id, with a trace header spelled its own way. -/
def tracedEnvelope : SerializedEnvelope where
  id := ⟨⟨7⟩⟩
  messageType := MessageType.fromParts "order.placed" 1
  body := [1, 2, 3]
  metadata :=
    { Metadata.default with
      delivery :=
        { contentType := ContentType.JSON
          sentAt := some ⟨0, 3600, by decide, by decide⟩
          expiresAt := none
          deduplicationId := some "00000000-0000-0000-0000-000000000007" } }
  headers := some ⟨[("TraceParent", "00-ab"), ("region", "eu")], by decide, by decide, by decide⟩

/-- All three normalisations at one envelope: the deduplication key is dropped, the custom trace
header becomes the trace field, and only the other custom header is left. -/
theorem decode_encode_traced :
    ∃ w, encode plainCodec tracedEnvelope = .ok w ∧
      ∃ e', decode plainCodec ⟨w.headers.reverse, w.payload⟩ = .ok e' ∧
        e'.Same (normalise plainCodec tracedEnvelope) ∧
        (normalise plainCodec tracedEnvelope).metadata.delivery.deduplicationId = none ∧
        (normalise plainCodec tracedEnvelope).metadata.trace = ⟨some "00-ab", none⟩ ∧
        (normalise plainCodec tracedEnvelope).headers.map Headers.entries =
          some [("region", "eu")] := by
  have hok : (encode plainCodec tracedEnvelope).toOption.isSome = true := by decide
  cases hw : encode plainCodec tracedEnvelope with
  | error stop => rw [hw] at hok; cases hok
  | ok w =>
    obtain ⟨e', hdecode, hsame⟩ := decode_encode plainCodec tracedEnvelope w (by decide) hw
      w.headers.reverse (List.reverse_perm _)
    exact ⟨w, rfl, e', hdecode, hsame, by decide, by decide, by decide⟩

end Reliar.Nats
