/-
# `Reliar.Nats.Order` — neither the wire nor the envelope depends on hash order

Custom headers and header blocks are hash maps; `encode` and `decode` loop over
them with early returns, once-only slots and limits.  Each loop succeeds exactly
when every entry does and no name comes twice (`encodeCustom_iff`, `scan_iff`),
conditions that no order enters; what it returns is the same map in every order.

For `decode` the casing of the names it recognises does not matter either.
-/
import Reliar.Nats.Forward

namespace Reliar.Nats

open Reliar.Core

/-! ## The custom loop of `encode` -/

/-- What `encode` asks of one custom entry. -/
structure EntryOk (e : SerializedEnvelope) (entry : String × String) : Prop where
  noNats : startsWithCi entry.1 NATS_PREFIX = false
  trace : ∀ f, traceOverrideName entry.1 = some f → frameworkValueSet e f = false →
    headerValueOf entry.2 = some entry.2
  custom : traceOverrideName entry.1 = none →
    headerName entry.1 = some entry.1 ∧ headerValueOf entry.2 = some entry.2

theorem headerValue_eq {header s v : String} (h : headerValue header s = .ok v) :
    headerValueOf s = some s := by
  have hv := headerValue_ok h
  subst hv
  unfold headerValue at h
  split at h
  · cases h
  · rename_i value hvalue
    cases h
    exact hvalue

/-- What the loop took was such. -/
theorem entryOk_of_encodeCustom {e : SerializedEnvelope} {entries : List (String × String)}
    {headers headers' : HeaderMap} {written : Field → Bool}
    (h : encodeCustom e entries headers written = .ok headers') : ∀ x ∈ entries, EntryOk e x := by
  induction entries generalizing headers written with
  | nil => exact fun x hx => absurd hx List.not_mem_nil
  | cons entry entries ih =>
      obtain ⟨key, value⟩ := entry
      rw [List.forall_mem_cons]
      simp only [encodeCustom] at h
      split at h
      · cases h
      · rename_i hnats
        have hnats : startsWithCi key NATS_PREFIX = false := Bool.not_eq_true _ ▸ hnats
        split at h
        · rename_i canonical htrace
          have hnone : traceOverrideName key ≠ none := by simp [htrace]
          split at h
          · rename_i hset
            refine ⟨⟨hnats, ?_, fun hc => absurd hc hnone⟩, ih h⟩
            intro f hf hunset
            rw [htrace] at hf
            cases hf
            rw [hset] at hunset
            cases hunset
          · split at h
            · cases h
            · split at h
              · cases h
              · rename_i v hv
                exact ⟨⟨hnats, fun _ _ _ => headerValue_eq hv, fun hc => absurd hc hnone⟩, ih h⟩
        · rename_i htrace
          split at h
          · cases h
          · rename_i name hname
            split at h
            · cases h
            · rename_i v hv
              have heq := headerName_ok hname
              subst heq
              refine ⟨⟨hnats, ?_, fun _ => ⟨hname, headerValue_eq hv⟩⟩, ih h⟩
              intro f hf
              rw [htrace] at hf
              cases hf

theorem fresh_of_nodup {headers rest : HeaderMap} {x : String × List String}
    (h : (names (headers ++ [x] ++ rest)).Nodup) : x.1 ∉ names headers := by
  intro hmem
  rw [names, List.map_append] at h
  have hfirst := (List.nodup_append.mp h).1
  rw [List.map_append, List.nodup_append] at hfirst
  exact hfirst.2.2 _ hmem _ (List.mem_singleton_self _) rfl

/-- The loop goes through if every entry is such and none is written over another. -/
theorem encodeCustom_of_entryOk {e : SerializedEnvelope} {entries : List (String × String)}
    {headers : HeaderMap} {written : Field → Bool} (h : ∀ x ∈ entries, EntryOk e x)
    (hnd : (names (headers ++ entries.filterMap (customWire e))).Nodup)
    (hwritten : ∀ f, written f = true → f.name ∈ names headers) :
    ∃ headers', encodeCustom e entries headers written = .ok headers' := by
  induction entries generalizing headers written with
  | nil => exact ⟨headers, rfl⟩
  | cons entry entries ih =>
      obtain ⟨key, value⟩ := entry
      obtain ⟨hentry, hrest⟩ := List.forall_mem_cons.mp h
      have hvalue : headerValueOf value = some value → ∀ header, headerValue header value = .ok value := by
        intro hv header
        simp only [headerValue, hv]
      simp only [encodeCustom, hentry.noNats, Bool.false_eq_true, if_false]
      cases htrace : traceOverrideName key with
      | some canonical =>
          by_cases hset : frameworkValueSet e canonical = true
          · have hskip : customWire e (key, value) = none := by simp [customWire, htrace, hset]
            rw [List.filterMap_cons_none hskip] at hnd
            simpa only [hset, if_true] using ih hrest hnd hwritten
          · have hput : customWire e (key, value) = some (canonical.name, [value]) := by
              simp [customWire, htrace, hset]
            rw [List.filterMap_cons_some hput, List.append_cons] at hnd
            -- the name is new: it stands once in what is to be written
            have hnew : canonical.name ∉ names headers := fresh_of_nodup hnd
            have hunwritten : written canonical = false :=
              Bool.eq_false_iff.mpr fun hw => hnew (hwritten canonical hw)
            have hlegal := hvalue (hentry.trace canonical htrace (Bool.eq_false_iff.mpr hset))
              canonical.name
            simp only [hset, hunwritten, hlegal, Bool.false_eq_true, if_false, insert_fresh value hnew]
            refine ih hrest hnd fun f hf => ?_
            rw [mem_names_append]
            rcases Bool.or_eq_true_iff.mp hf with hf | hf
            · exact .inr (congrArg Field.name (eq_of_beq hf))
            · exact .inl (hwritten f hf)
      | none =>
          obtain ⟨hname, hlegal⟩ := hentry.custom htrace
          have hput : customWire e (key, value) = some (key, [value]) := by
            simp [customWire, htrace]
          rw [List.filterMap_cons_some hput, List.append_cons] at hnd
          have hnew : key ∉ names headers := fresh_of_nodup hnd
          simp only [hname, hvalue hlegal key, insert_fresh value hnew]
          refine ih hrest hnd fun f hf => ?_
          rw [mem_names_append]
          exact .inl (hwritten f hf)

theorem encodeCustom_iff (e : SerializedEnvelope) :
    (∃ headers, encodeCustom e (customEntries e.headers) [] (fun _ => false) = .ok headers) ↔
      (∀ x ∈ customEntries e.headers, EntryOk e x) ∧
        (names ((customEntries e.headers).filterMap (customWire e))).Nodup := by
  constructor
  · rintro ⟨headers, h⟩
    refine ⟨entryOk_of_encodeCustom h, ?_⟩
    obtain ⟨heq, hnd, -⟩ := encodeCustom_ok h (customEntries_nodup e.headers) List.nodup_nil
      (fun _ _ _ => List.not_mem_nil) (fun f _ hm => absurd hm List.not_mem_nil)
    rw [List.nil_append] at heq
    rwa [← heq]
  · rintro ⟨hentries, hnd⟩
    exact encodeCustom_of_entryOk hentries hnd fun f hf => absurd hf Bool.false_ne_true

/-- `encode` succeeds on conditions that no order enters. -/
theorem encode_iff (c : Codec) (e : SerializedEnvelope) :
    (∃ w, encode c e = .ok w) ↔
      (∀ x ∈ customEntries e.headers, EntryOk e x) ∧
        (names ((customEntries e.headers).filterMap (customWire e))).Nodup ∧
        ∀ f, Writable c e f := by
  rw [← and_assoc, ← encodeCustom_iff]
  constructor
  · rintro ⟨w, h⟩
    refine ⟨?_, writable_of_encode h⟩
    simp only [encode] at h
    split at h
    · cases h
    · exact ⟨_, ‹_›⟩
  · rintro ⟨⟨headers, hcustom⟩, hfields⟩
    have hall : ∀ f ∈ Field.all, Writable c e f := fun f _ => hfields f
    obtain ⟨headers', hheaders'⟩ := insertFields_writable hall headers
    exact ⟨⟨headers', e.body⟩, by simp only [encode, hcustom, hheaders']⟩

/-- Entries that give the same thing are one entry, where nothing is given twice. -/
theorem eq_of_nodup_filterMap {α β : Type} {g : α → Option β} {l : List α}
    (h : (l.filterMap g).Nodup) {x y : α} (hx : x ∈ l) (hy : y ∈ l) {b : β} (hgx : g x = some b)
    (hgy : g y = some b) : x = y := by
  have hpairs := List.pairwise_filterMap.mp h
  have hsymm : Std.Symm fun a a' => ∀ b, g a = some b → ∀ b', g a' = some b' → b ≠ b' :=
    ⟨fun a a' haa b hb b' hb' => (haa b' hb' b hb).symm⟩
  by_contra hne
  exact hpairs.forall hx hy hne b hgx b hgy rfl

theorem customEntries_perm {headers headers' : Option Headers} (h : SameHeaders headers headers') :
    (customEntries headers).Perm (customEntries headers') := by
  cases headers with
  | none =>
      cases headers' with
      | none => exact .nil
      | some h' => exact h.elim
  | some h₀ =>
      cases headers' with
      | none => exact h.elim
      | some h' => exact h

/-- The wire does not depend on the order in which the custom headers are enumerated: whether there
is a message, and which; and two spellings of a trace name that the framework does not set are
refused in every order. -/
theorem encode_order (c : Codec) (e : SerializedEnvelope) (headers : Option Headers)
    (hsame : SameHeaders e.headers headers) :
    ((∃ w, encode c e = .ok w) ↔ ∃ w, encode c { e with headers := headers } = .ok w) ∧
      (∀ w w', encode c e = .ok w → encode c { e with headers := headers } = .ok w' →
        (names w.headers).Nodup ∧ (names w'.headers).Nodup ∧ w.headers.Perm w'.headers ∧
          w.payload = w'.payload) ∧
      ∀ f, frameworkValueSet e f = false →
        (∃ x ∈ customEntries headers, ∃ y ∈ customEntries headers, x.1 ≠ y.1 ∧
          traceOverrideName x.1 = some f ∧ traceOverrideName y.1 = some f) →
        ∃ stop, encode c { e with headers := headers } = .error stop := by
  have hperm := customEntries_perm hsame
  have hentry : ∀ x, EntryOk { e with headers := headers } x ↔ EntryOk e x :=
    fun x => ⟨fun h => ⟨h.noNats, h.trace, h.custom⟩, fun h => ⟨h.noNats, h.trace, h.custom⟩⟩
  have hwire : ∀ entries : List (String × String),
      entries.filterMap (customWire { e with headers := headers }) =
        entries.filterMap (customWire e) := fun entries => rfl
  refine ⟨?_, ?_, ?_⟩
  · rw [encode_iff, encode_iff]
    refine and_congr ?_ (and_congr ?_ Iff.rfl)
    · exact ⟨fun h x hx => (hentry x).mpr (h x (hperm.mem_iff.mpr hx)),
        fun h x hx => (hentry x).mp (h x (hperm.mem_iff.mp hx))⟩
    · rw [hwire]
      exact ((hperm.filterMap (customWire e)).map Prod.fst).nodup_iff
  · intro w w' h h'
    obtain ⟨hbody, hlist, hnd, -, -⟩ := encode_headers h
    obtain ⟨hbody', hlist', hnd', -, -⟩ := encode_headers h'
    refine ⟨hnd, hnd', ?_, hbody.trans hbody'.symm⟩
    rw [hlist, hlist', hwire]
    exact (hperm.filterMap _).append (List.Perm.refl _)
  · rintro f hunset ⟨x, hx, y, hy, hne, htx, hty⟩
    cases hrun : encode c { e with headers := headers } with
    | error stop => exact ⟨stop, rfl⟩
    | ok w =>
        obtain ⟨-, hnd, -⟩ := (encode_iff c _).mp ⟨w, hrun⟩
        -- both are written under the canonical name
        have hput : ∀ z : String × String, traceOverrideName z.1 = some f →
            (customWire { e with headers := headers } z).map Prod.fst = some f.name := by
          intro z hz
          have hunset' : frameworkValueSet { e with headers := headers } f = false := hunset
          simp only [customWire, hz, hunset', Bool.false_eq_true, if_false, Option.map_some]
        rw [names, List.map_filterMap] at hnd
        exact absurd (congrArg Prod.fst (eq_of_nodup_filterMap hnd hx hy (hput x htx)
          (hput y hty))) hne

/-- The custom headers of `tracedEnvelope`, enumerated the other way round. -/
def turnedHeaders : Headers :=
  ⟨[("region", "eu"), ("TraceParent", "00-ab")], by decide, by decide, by decide⟩

theorem encode_order_traced :
    ∃ w w', encode plainCodec tracedEnvelope = .ok w ∧
      encode plainCodec { tracedEnvelope with headers := some turnedHeaders } = .ok w' ∧
      w.headers.Perm w'.headers ∧ w.payload = w'.payload := by
  have hsame : SameHeaders tracedEnvelope.headers (some turnedHeaders) := by
    show [("TraceParent", "00-ab"), ("region", "eu")].Perm
      [("region", "eu"), ("TraceParent", "00-ab")]
    exact .swap _ _ _
  obtain ⟨hiff, hwire, -⟩ := encode_order plainCodec tracedEnvelope (some turnedHeaders) hsame
  have hok : (encode plainCodec tracedEnvelope).toOption.isSome = true := by decide
  cases hw : encode plainCodec tracedEnvelope with
  | error stop =>
      rw [hw] at hok
      cases hok
  | ok w =>
      obtain ⟨w', hw'⟩ := hiff.mp ⟨w, hw⟩
      obtain ⟨-, -, hperm, hpayload⟩ := hwire w w' hw hw'
      exact ⟨w, w', rfl, hw', hperm, hpayload⟩

/-! ## The scan of `decode` -/

def fieldOf (name : String) : Option Field :=
  match classifyHeader name with
  | .framework f => some f
  | .natsBookkeeping | .unknownReliar | .custom => none

theorem fieldOf_iff {name : String} {f : Field} :
    fieldOf name = some f ↔ classifyHeader name = .framework f := by
  cases hkind : classifyHeader name with
  | framework g => simp [fieldOf, hkind]
  | natsBookkeeping => simp [fieldOf, hkind]
  | unknownReliar => simp [fieldOf, hkind]
  | custom => simp [fieldOf, hkind]

/-- The framework headers a block names, with every repetition. -/
def fieldsOf (headers : HeaderMap) : List Field := headers.filterMap fun x => fieldOf x.1

theorem fieldsOf_framework {name : String} {f : Field} (h : classifyHeader name = .framework f)
    (values : List String) (headers : HeaderMap) :
    fieldsOf ((name, values) :: headers) = f :: fieldsOf headers := by
  have hsome : fieldOf name = some f := fieldOf_iff.mpr h
  simp [fieldsOf, hsome]

theorem fieldsOf_other {name : String} (h : ∀ f, classifyHeader name ≠ .framework f)
    (values : List String) (headers : HeaderMap) :
    fieldsOf ((name, values) :: headers) = fieldsOf headers := by
  have hnone : fieldOf name = none :=
    Option.eq_none_iff_forall_ne_some.mpr fun f hf => h f (fieldOf_iff.mp hf)
  simp [fieldsOf, hnone]

theorem customsOf_custom {name : String} (h : classifyHeader name = .custom)
    (values : List String) (headers : HeaderMap) :
    customsOf ((name, values) :: headers) = (name, values.headD "") :: customsOf headers := by
  simp [customsOf, h]

theorem customsOf_other {name : String} (h : classifyHeader name ≠ .custom)
    (values : List String) (headers : HeaderMap) :
    customsOf ((name, values) :: headers) = customsOf headers := by
  simp [customsOf, h]

/-- A block the scan goes through: no order enters. -/
structure Scannable (headers : HeaderMap) (scanned : ScannedHeaders) : Prop where
  single : ∀ x ∈ headers, ∀ f, classifyHeader x.1 = .framework f → ∃ value, x.2 = [value]
  once : (fieldsOf headers).Nodup
  free : ∀ f ∈ fieldsOf headers, scanned.slots f = none
  valid : ∀ x ∈ customsOf headers, Headers.check x.1 x.2 = .ok ()
  count : (customEntries scanned.custom).length + (customsOf headers).length ≤ Headers.MAX_COUNT

theorem scannable_framework {name : String} {f : Field}
    (hkind : classifyHeader name = .framework f) (values : List String) (headers : HeaderMap)
    (scanned : ScannedHeaders) :
    Scannable ((name, values) :: headers) scanned ↔
      ∃ value, values = [value] ∧ scanned.slots f = none ∧ Scannable headers
        { scanned with slots := fun g => if g = f then some value else scanned.slots g } := by
  have hfields := fieldsOf_framework hkind values headers
  have hcustoms : customsOf ((name, values) :: headers) = customsOf headers :=
    customsOf_other (by simp [hkind]) values headers
  constructor
  · intro h
    obtain ⟨value, hvalue⟩ := h.single _ List.mem_cons_self f hkind
    have honce := h.once
    have hfree := h.free
    rw [hfields] at honce hfree
    obtain ⟨hnew, honce⟩ := List.nodup_cons.mp honce
    obtain ⟨hf, hfree⟩ := List.forall_mem_cons.mp hfree
    refine ⟨value, hvalue, hf, fun x hx => h.single x (List.mem_cons_of_mem _ hx), honce, ?_,
      hcustoms ▸ h.valid, hcustoms ▸ h.count⟩
    intro g hg
    have hne : g ≠ f := by
      rintro rfl
      exact hnew hg
    simpa only [if_neg hne] using hfree g hg
  · rintro ⟨value, rfl, hf, h⟩
    have hnew : f ∉ fieldsOf headers := by
      intro hmem
      have hnone := h.free f hmem
      simp only [if_true] at hnone
      cases hnone
    refine ⟨?_, hfields ▸ List.nodup_cons.mpr ⟨hnew, h.once⟩, ?_, hcustoms.symm ▸ h.valid,
      hcustoms.symm ▸ h.count⟩
    · rw [List.forall_mem_cons]
      exact ⟨fun _ _ => ⟨value, rfl⟩, h.single⟩
    · rw [hfields, List.forall_mem_cons]
      refine ⟨hf, fun g hg => ?_⟩
      have hne : g ≠ f := by
        rintro rfl
        exact hnew hg
      simpa only [if_neg hne] using h.free g hg

theorem scannable_skip {name : String} (hfield : ∀ f, classifyHeader name ≠ .framework f)
    (hcustom : classifyHeader name ≠ .custom) (values : List String) (headers : HeaderMap)
    (scanned : ScannedHeaders) :
    Scannable ((name, values) :: headers) scanned ↔ Scannable headers scanned := by
  have hfields := fieldsOf_other hfield values headers
  have hcustoms := customsOf_other hcustom values headers
  constructor
  · intro h
    exact ⟨fun x hx => h.single x (List.mem_cons_of_mem _ hx), hfields ▸ h.once,
      hfields ▸ h.free, hcustoms ▸ h.valid, hcustoms ▸ h.count⟩
  · intro h
    refine ⟨?_, hfields.symm ▸ h.once, hfields.symm ▸ h.free, hcustoms.symm ▸ h.valid,
      hcustoms.symm ▸ h.count⟩
    rw [List.forall_mem_cons]
    exact ⟨fun f hf => absurd hf (hfield f), h.single⟩

theorem scannable_custom {name : String} (hkind : classifyHeader name = .custom)
    (values : List String) (headers : HeaderMap) (scanned scanned' : ScannedHeaders)
    (hslots : scanned'.slots = scanned.slots)
    (hentries : customEntries scanned'.custom =
      customEntries scanned.custom ++ [(name, values.headD "")]) :
    Scannable ((name, values) :: headers) scanned ↔
      Headers.check name (values.headD "") = .ok () ∧ Scannable headers scanned' := by
  have hother : ∀ f, classifyHeader name ≠ .framework f := by simp [hkind]
  have hfields := fieldsOf_other hother values headers
  have hcustoms := customsOf_custom hkind values headers
  have hlength : (customEntries scanned'.custom).length + (customsOf headers).length =
      (customEntries scanned.custom).length +
        (customsOf ((name, values) :: headers)).length := by
    rw [hentries, hcustoms, List.length_append, List.length_cons, List.length_cons, List.length_nil]
    omega
  constructor
  · intro h
    have hvalid := h.valid
    rw [hcustoms, List.forall_mem_cons] at hvalid
    exact ⟨hvalid.1, fun x hx => h.single x (List.mem_cons_of_mem _ hx), hfields ▸ h.once,
      hslots ▸ hfields ▸ h.free, hvalid.2, hlength ▸ h.count⟩
  · rintro ⟨hcheck, h⟩
    refine ⟨?_, hfields.symm ▸ h.once, hfields.symm ▸ hslots ▸ h.free, ?_, hlength ▸ h.count⟩
    · rw [List.forall_mem_cons]
      exact ⟨fun f hf => absurd hf (hother f), h.single⟩
    · rw [hcustoms, List.forall_mem_cons]
      exact ⟨hcheck, h.valid⟩

/-- A new custom entry is taken exactly if it is valid and there is room. -/
theorem assignCustom_fresh {scanned : ScannedHeaders} {key : String} (values : List String)
    (hfresh : key ∉ (customEntries scanned.custom).map Prod.fst) :
    (∃ custom, assignCustom scanned key values = .ok { scanned with custom := some custom } ∧
      custom.entries = customEntries scanned.custom ++ [(key, values.headD "")] ∧
      Headers.check key (values.headD "") = .ok () ∧
      (customEntries scanned.custom).length < Headers.MAX_COUNT) ∨
    ((∃ err, assignCustom scanned key values = .error err) ∧
      ¬ (Headers.check key (values.headD "") = .ok () ∧
        (customEntries scanned.custom).length < Headers.MAX_COUNT)) := by
  have hget : (scanned.custom.getD Headers.empty).entries = customEntries scanned.custom := by
    cases scanned.custom with
    | none => rfl
    | some h => rfl
  have hfresh' : key ∉ (scanned.custom.getD Headers.empty).keys := by
    rw [Headers.keys, hget]
    exact hfresh
  by_cases hok : Headers.check key (values.headD "") = .ok () ∧
      (customEntries scanned.custom).length < Headers.MAX_COUNT
  · have hroom : (scanned.custom.getD Headers.empty).entries.length < Headers.MAX_COUNT := by
      rw [hget]
      exact hok.2
    refine .inl ⟨(scanned.custom.getD Headers.empty).push key (values.headD "") hfresh' hok.1 hroom,
      ?_, ?_, hok⟩
    · simp only [assignCustom, Headers.insert_new hfresh' hok.1 hroom]
    · rw [Headers.push_entries, hget]
  · refine .inr ⟨?_, hok⟩
    cases hassign : assignCustom scanned key values with
    | error err => exact ⟨err, rfl⟩
    | ok scanned' =>
        exfalso
        simp only [assignCustom, Headers.insert] at hassign
        split at hassign
        · cases hassign
        · rename_i hins
          split at hins
          · cases hins
          · rename_i hcheck
            rw [dif_neg hfresh'] at hins
            split at hins
            · cases hins
            · rename_i hroom
              rw [hget] at hroom
              exact hok ⟨hcheck, Nat.lt_of_not_le hroom⟩

theorem length_customEntries (headers : Option Headers) :
    (customEntries headers).length ≤ Headers.MAX_COUNT := by
  cases headers with
  | none => exact Nat.zero_le _
  | some h => exact h.count

theorem scan_cons_framework {name : String} {f : Field}
    (hkind : classifyHeader name = .framework f) (values : List String) (headers : HeaderMap)
    (scanned : ScannedHeaders) :
    scan ((name, values) :: headers) scanned =
      (assignOnce scanned f values).bind (scan headers) := by
  simp only [scan, hkind]
  cases assignOnce scanned f values with
  | error err => rfl
  | ok scanned' => rfl

theorem scan_cons_custom {name : String} (hkind : classifyHeader name = .custom)
    (values : List String) (headers : HeaderMap) (scanned : ScannedHeaders) :
    scan ((name, values) :: headers) scanned =
      (assignCustom scanned name values).bind (scan headers) := by
  simp only [scan, hkind]
  cases assignCustom scanned name values with
  | error err => rfl
  | ok scanned' => rfl

theorem scan_cons_skip {name : String} (hfield : ∀ f, classifyHeader name ≠ .framework f)
    (hcustom : classifyHeader name ≠ .custom) (values : List String) (headers : HeaderMap)
    (scanned : ScannedHeaders) :
    scan ((name, values) :: headers) scanned = scan headers scanned := by
  cases hkind : classifyHeader name with
  | framework f => exact absurd hkind (hfield f)
  | natsBookkeeping => simp only [scan, hkind]
  | unknownReliar => simp only [scan, hkind]
  | custom => exact absurd hkind hcustom

/-- The scan goes through exactly the scannable blocks, and collects the custom headers in the
order it meets them. -/
theorem scan_iff {headers : HeaderMap} (scanned : ScannedHeaders) (hnd : (names headers).Nodup)
    (hfresh : ∀ k ∈ (customEntries scanned.custom).map Prod.fst, k ∉ names headers) :
    ((∃ r, scan headers scanned = .ok r) ↔ Scannable headers scanned) ∧
      ∀ r, scan headers scanned = .ok r →
        customEntries r.custom = customEntries scanned.custom ++ customsOf headers ∧
        (r.custom.isSome = true ↔ scanned.custom.isSome = true ∨ customsOf headers ≠ []) := by
  induction headers generalizing scanned with
  | nil =>
      refine ⟨⟨fun _ => ?_, fun _ => ⟨scanned, rfl⟩⟩, ?_⟩
      · exact ⟨fun x hx => absurd hx List.not_mem_nil, List.nodup_nil,
          fun f hf => absurd hf List.not_mem_nil, fun x hx => absurd hx List.not_mem_nil,
          length_customEntries scanned.custom⟩
      · rintro r ⟨⟩
        simp [customsOf]
  | cons x headers ih =>
      obtain ⟨name, values⟩ := x
      obtain ⟨hname, hrest⟩ := List.nodup_cons.mp hnd
      have hold : ∀ k ∈ (customEntries scanned.custom).map Prod.fst, k ∉ names headers :=
        fun k hk hm => hfresh k hk (List.mem_cons_of_mem _ hm)
      by_cases hcustom : classifyHeader name = .custom
      · rw [scan_cons_custom hcustom, customsOf_custom hcustom]
        have hkey : name ∉ (customEntries scanned.custom).map Prod.fst :=
          fun hm => hfresh name hm List.mem_cons_self
        rcases assignCustom_fresh values hkey with
          ⟨custom, hassign, hentries, hcheck, hroom⟩ | ⟨⟨err, hassign⟩, hnot⟩
        · have hfresh' : ∀ k ∈ (customEntries (some custom)).map Prod.fst, k ∉ names headers := by
            intro k hk
            simp only [customEntries, hentries, List.map_append, List.mem_append, List.map_cons,
              List.map_nil, List.mem_singleton] at hk
            rcases hk with hk | rfl
            · exact hold k hk
            · exact hname
          obtain ⟨hiff, hcollect⟩ := ih { scanned with custom := some custom } hrest hfresh'
          rw [hassign, scannable_custom hcustom values headers scanned
            { scanned with custom := some custom } rfl hentries]
          refine ⟨hiff.trans ⟨fun h => ⟨hcheck, h⟩, fun h => h.2⟩, ?_⟩
          intro r hr
          obtain ⟨hr₁, hr₂⟩ := hcollect r hr
          have hentries' : customEntries (some custom) =
            customEntries scanned.custom ++ [(name, values.headD "")] := hentries
          refine ⟨?_, ?_⟩
          · rw [hr₁, hentries', List.append_assoc]
            rfl
          · rw [hr₂]
            simp
        · rw [hassign]
          refine ⟨⟨?_, ?_⟩, ?_⟩
          · rintro ⟨r, hr⟩
            cases hr
          · intro h
            have hvalid := h.valid
            have hcount := h.count
            rw [customsOf_custom hcustom] at hvalid hcount
            rw [List.length_cons] at hcount
            exact absurd ⟨hvalid _ List.mem_cons_self, by omega⟩ hnot
          · intro r hr
            cases hr
      · rw [customsOf_other hcustom]
        by_cases hfield : ∃ f, classifyHeader name = .framework f
        · obtain ⟨f, hkind⟩ := hfield
          rw [scan_cons_framework hkind, scannable_framework hkind]
          cases hassign : assignOnce scanned f values with
          | error err =>
              refine ⟨⟨?_, ?_⟩, ?_⟩
              · rintro ⟨r, hr⟩
                cases hr
              · rintro ⟨value, rfl, hempty, -⟩
                rw [assignOnce_new value hempty] at hassign
                cases hassign
              · intro r hr
                cases hr
          | ok scanned' =>
              obtain ⟨value, rfl, hempty, rfl⟩ := assignOnce_ok hassign
              obtain ⟨hiff, hcollect⟩ := ih { scanned with
                slots := fun g => if g = f then some value else scanned.slots g } hrest hold
              refine ⟨hiff.trans ⟨fun h => ⟨value, rfl, hempty, h⟩, ?_⟩, hcollect⟩
              rintro ⟨value', heq, -, h⟩
              cases heq
              exact h
        · have hnone : ∀ f, classifyHeader name ≠ .framework f := not_exists.mp hfield
          rw [scan_cons_skip hnone hcustom, scannable_skip hnone hcustom]
          exact ih scanned hrest hold

/-- What a slot holds after a scan. -/
theorem rawOf_iff {headers : HeaderMap} {scanned : ScannedHeaders} (h : Scannable headers scanned)
    (f : Field) (value : String) :
    rawOf headers f = some value ↔
      ∃ x ∈ headers, classifyHeader x.1 = .framework f ∧ x.2 = [value] := by
  have hfound : ∀ {x : String × List String},
      headers.find? (fun x => classifyHeader x.1 == .framework f) = some x →
        x ∈ headers ∧ classifyHeader x.1 = .framework f := by
    intro x hfind
    have hkind := List.find?_some hfind
    exact ⟨List.mem_of_find?_eq_some hfind, eq_of_beq hkind⟩
  constructor
  · intro hraw
    obtain ⟨x, hfind, hhead⟩ := Option.bind_eq_some_iff.mp hraw
    obtain ⟨hx, hkind⟩ := hfound hfind
    obtain ⟨value', hvalue⟩ := h.single x hx f hkind
    rw [hvalue] at hhead
    cases hhead
    exact ⟨x, hx, hkind, hvalue⟩
  · rintro ⟨x, hx, hkind, hvalue⟩
    cases hfind : headers.find? (fun y => classifyHeader y.1 == .framework f) with
    | none =>
        have hno := List.find?_eq_none.mp hfind x hx
        rw [hkind] at hno
        exact absurd (beq_self_eq_true _) hno
    | some y =>
        obtain ⟨hy, hkind'⟩ := hfound hfind
        have heq : y = x :=
          eq_of_nodup_filterMap h.once hy hx (fieldOf_iff.mpr hkind') (fieldOf_iff.mpr hkind)
        simp only [rawOf, hfind, heq, hvalue, Option.bind_some, List.head?_cons]

/-! ## Casing -/

theorem classifyHeader_of_field {name : String} {f : Field}
    (h : eqIgnoreAsciiCase name f.name = true) : classifyHeader name = .framework f := by
  rw [classifyHeader_of_eq h, classifyHeader_name]

/-- The same entry, its name perhaps spelled in another ASCII case if it is not a custom one's. -/
structure Recased (x x' : String × List String) : Prop where
  values : x'.2 = x.2
  name : x'.1 = x.1 ∨ classifyHeader x.1 ≠ .custom ∧ eqIgnoreAsciiCase x'.1 x.1 = true

theorem Recased.classify {x x' : String × List String} (h : Recased x x') :
    classifyHeader x'.1 = classifyHeader x.1 := by
  rcases h.name with heq | ⟨-, heq⟩
  · rw [heq]
  · exact classifyHeader_of_eq heq

theorem Recased.customName {x x' : String × List String} (h : Recased x x')
    (hcustom : classifyHeader x.1 = .custom) : x'.1 = x.1 := by
  rcases h.name with heq | ⟨hne, -⟩
  · exact heq
  · exact absurd hcustom hne

theorem fieldsOf_recased {headers headers' : HeaderMap} (h : List.Forall₂ Recased headers headers') :
    fieldsOf headers' = fieldsOf headers := by
  induction h with
  | nil => rfl
  | @cons x x' headers headers' hx _ ih =>
      have hfield : fieldOf x'.1 = fieldOf x.1 := by simp only [fieldOf, hx.classify]
      simp only [fieldsOf] at ih
      simp only [fieldsOf, List.filterMap_cons, hfield, ih]

theorem customsOf_recased {headers headers' : HeaderMap}
    (h : List.Forall₂ Recased headers headers') : customsOf headers' = customsOf headers := by
  induction h with
  | nil => rfl
  | @cons x x' _ _ hx _ ih =>
      obtain ⟨name, values⟩ := x
      obtain ⟨name', values'⟩ := x'
      have hvalues : values' = values := hx.values
      subst hvalues
      by_cases hcustom : classifyHeader name = .custom
      · have hname : name' = name := hx.customName hcustom
        rw [hname, customsOf_custom hcustom, customsOf_custom hcustom, ih]
      · have hcustom' : classifyHeader name' ≠ .custom := fun h' =>
          hcustom (hx.classify ▸ h')
        rw [customsOf_other hcustom, customsOf_other hcustom', ih]

/-- A block in other casings, enumerated in another order. -/
def Respelled (headers headers' : HeaderMap) : Prop :=
  ∃ mid, List.Forall₂ Recased headers mid ∧ mid.Perm headers'

theorem exists_of_forall₂ {α β : Type} {R : α → β → Prop} {l : List α} {l' : List β}
    (h : List.Forall₂ R l l') : ∀ b ∈ l', ∃ a ∈ l, R a b := by
  induction h with
  | nil => exact fun b hb => absurd hb List.not_mem_nil
  | cons hab _ ih =>
      rw [List.forall_mem_cons]
      refine ⟨⟨_, List.mem_cons_self, hab⟩, fun b hb => ?_⟩
      obtain ⟨a, ha, hR⟩ := ih b hb
      exact ⟨a, List.mem_cons_of_mem _ ha, hR⟩

section Respelled

variable {headers headers' : HeaderMap}

theorem Respelled.field (h : Respelled headers headers') (f : Field) (values : List String) :
    (∃ x ∈ headers', classifyHeader x.1 = .framework f ∧ x.2 = values) ↔
      ∃ x ∈ headers, classifyHeader x.1 = .framework f ∧ x.2 = values := by
  obtain ⟨mid, hcase, hperm⟩ := h
  constructor
  · rintro ⟨x', hx', hkind, rfl⟩
    obtain ⟨x, hx, hrecased⟩ := exists_of_forall₂ hcase x' (hperm.mem_iff.mpr hx')
    exact ⟨x, hx, hrecased.classify ▸ hkind, hrecased.values.symm⟩
  · rintro ⟨x, hx, hkind, rfl⟩
    obtain ⟨x', hx', hrecased⟩ := exists_of_forall₂ hcase.flip x hx
    exact ⟨x', hperm.mem_iff.mp hx', hrecased.classify.trans hkind, hrecased.values⟩

theorem Respelled.fields (h : Respelled headers headers') :
    (fieldsOf headers).Perm (fieldsOf headers') := by
  obtain ⟨mid, hcase, hperm⟩ := h
  rw [← fieldsOf_recased hcase]
  exact hperm.filterMap _

theorem Respelled.customs (h : Respelled headers headers') :
    (customsOf headers).Perm (customsOf headers') := by
  obtain ⟨mid, hcase, hperm⟩ := h
  rw [← customsOf_recased hcase]
  exact hperm.filterMap _

theorem Respelled.scannable (h : Respelled headers headers') (scanned : ScannedHeaders) :
    Scannable headers scanned ↔ Scannable headers' scanned := by
  have hsingle : ∀ {hs : HeaderMap}, (∀ x ∈ hs, ∀ f, classifyHeader x.1 = .framework f →
      ∃ value, x.2 = [value]) ↔ ∀ f values, (∃ x ∈ hs, classifyHeader x.1 = .framework f ∧
        x.2 = values) → ∃ value, values = [value] := by
    intro hs
    constructor
    · rintro hall f values ⟨x, hx, hkind, rfl⟩
      exact hall x hx f hkind
    · intro hall x hx f hkind
      exact hall f x.2 ⟨x, hx, hkind, rfl⟩
  have hfields := h.fields
  have hcustoms := h.customs
  constructor
  · intro hs
    refine ⟨hsingle.mpr fun f values hx => hsingle.mp hs.single f values ((h.field f values).mp hx),
      hfields.nodup_iff.mp hs.once, fun f hf => hs.free f (hfields.mem_iff.mpr hf),
      fun x hx => hs.valid x (hcustoms.mem_iff.mpr hx), ?_⟩
    rw [← hcustoms.length_eq]
    exact hs.count
  · intro hs
    refine ⟨hsingle.mpr fun f values hx => hsingle.mp hs.single f values ((h.field f values).mpr hx),
      hfields.nodup_iff.mpr hs.once, fun f hf => hs.free f (hfields.mem_iff.mp hf),
      fun x hx => hs.valid x (hcustoms.mem_iff.mp hx), ?_⟩
    rw [hcustoms.length_eq]
    exact hs.count

theorem Respelled.rawOf (h : Respelled headers headers') {scanned : ScannedHeaders}
    (hs : Scannable headers scanned) : rawOf headers' = rawOf headers := by
  funext f
  have hs' := (h.scannable scanned).mp hs
  refine Option.ext fun value => ?_
  rw [rawOf_iff hs', rawOf_iff hs]
  exact h.field f [value]

end Respelled

/-- Custom headers go into the envelope as they are. -/
theorem intoEnvelope_custom (c : Codec) (slots : Field → Option String)
    (custom custom' : Option Headers) (payload : Bytes) :
    intoEnvelope c ⟨slots, custom'⟩ payload =
      (intoEnvelope c ⟨slots, custom⟩ payload).map fun e => { e with headers := custom' } := by
  have hidentity : parseIdentity c ⟨slots, custom'⟩ = parseIdentity c ⟨slots, custom⟩ := rfl
  have hmetadata : ∀ raw contentType, parseMetadata c ⟨slots, custom'⟩ raw contentType =
      parseMetadata c ⟨slots, custom⟩ raw contentType := fun _ _ => rfl
  simp only [intoEnvelope, hidentity, hmetadata]
  cases parseIdentity c ⟨slots, custom⟩ with
  | error err => rfl
  | ok identity =>
      show (parseMetadata c _ _ _).bind _ = Except.map _ ((parseMetadata c _ _ _).bind _)
      cases parseMetadata c ⟨slots, custom⟩ identity.messageIdRaw identity.contentType with
      | error err => rfl
      | ok metadata => rfl

/-- Some framework name comes twice: under two names that differ in case only, or with several
values. -/
def RepeatsField (headers : HeaderMap) : Prop :=
  ∃ f : Field, (∃ x ∈ headers, ∃ y ∈ headers, x.1 ≠ y.1 ∧ eqIgnoreAsciiCase x.1 f.name = true ∧
      eqIgnoreAsciiCase y.1 f.name = true) ∨
    ∃ x ∈ headers, eqIgnoreAsciiCase x.1 f.name = true ∧ 2 ≤ x.2.length

theorem not_repeatsField {headers : HeaderMap} {scanned : ScannedHeaders}
    (h : Scannable headers scanned) : ¬ RepeatsField headers := by
  rintro ⟨f, ⟨x, hx, y, hy, hne, hxf, hyf⟩ | ⟨x, hx, hxf, hlength⟩⟩
  · have heq := eq_of_nodup_filterMap h.once hx hy
      (fieldOf_iff.mpr (classifyHeader_of_field hxf)) (fieldOf_iff.mpr (classifyHeader_of_field hyf))
    exact hne (congrArg Prod.fst heq)
  · obtain ⟨value, hvalue⟩ := h.single x hx f (classifyHeader_of_field hxf)
    rw [hvalue, List.length_singleton] at hlength
    omega

theorem scan_default_iff {headers : HeaderMap} (hnd : (names headers).Nodup) :
    ((∃ r, scan headers ScannedHeaders.default = .ok r) ↔
        Scannable headers ScannedHeaders.default) ∧
      ∀ r, scan headers ScannedHeaders.default = .ok r → r.slots = rawOf headers ∧
        customEntries r.custom = customsOf headers ∧
        (r.custom.isSome = true ↔ customsOf headers ≠ []) := by
  obtain ⟨hiff, hcollect⟩ := scan_iff ScannedHeaders.default hnd
    fun k hk => absurd hk List.not_mem_nil
  refine ⟨hiff, fun r hr => ?_⟩
  obtain ⟨hentries, hsome⟩ := hcollect r hr
  refine ⟨funext fun f => ?_, hentries, ?_⟩
  · exact scan_slots hr f
  · rw [hsome]
    exact or_iff_right Bool.false_ne_true

theorem sameHeaders_of_perm {custom custom' : Option Headers}
    (hperm : (customEntries custom).Perm (customEntries custom'))
    (hsome : custom.isSome = custom'.isSome) : SameHeaders custom custom' := by
  cases custom with
  | none =>
      cases custom' with
      | none => trivial
      | some h' => cases hsome
  | some h =>
      cases custom' with
      | none => cases hsome
      | some h' => exact hperm

/-- `decode` sees neither the casing of the names it recognises nor the order of the block, and
takes none of them twice. -/
theorem decode_respelled (c : Codec) (w w₂ : NatsWireMessage) (hnd : (names w.headers).Nodup)
    (hnd₂ : (names w₂.headers).Nodup) (hspell : Respelled w.headers w₂.headers)
    (hpayload : w₂.payload = w.payload) :
    ((∃ e, decode c w = .ok e) ↔ ∃ e, decode c w₂ = .ok e) ∧
      (∀ e e₂, decode c w = .ok e → decode c w₂ = .ok e₂ →
        e₂ = { e with headers := e₂.headers } ∧ SameHeaders e.headers e₂.headers) ∧
      (RepeatsField w.headers → ∃ err, decode c w = .error err) := by
  obtain ⟨hiff, hresult⟩ := scan_default_iff hnd
  obtain ⟨hiff₂, hresult₂⟩ := scan_default_iff hnd₂
  have hscannable := hspell.scannable ScannedHeaders.default
  by_cases hs : Scannable w.headers ScannedHeaders.default
  · obtain ⟨⟨slots, custom⟩, hr⟩ := hiff.mpr hs
    obtain ⟨⟨slots₂, custom₂⟩, hr₂⟩ := hiff₂.mpr (hscannable.mp hs)
    obtain ⟨hslots, hentries, hsome⟩ := hresult _ hr
    obtain ⟨hslots₂, hentries₂, hsome₂⟩ := hresult₂ _ hr₂
    have hsame : slots₂ = slots := by
      have hraw := hspell.rawOf hs
      rw [← hslots₂, ← hslots] at hraw
      exact hraw
    subst hsame
    have hcustoms := hspell.customs
    have hheaders : SameHeaders custom custom₂ := by
      refine sameHeaders_of_perm ?_ ?_
      · rw [show customEntries custom = _ from hentries,
          show customEntries custom₂ = _ from hentries₂]
        exact hcustoms
      · rw [Bool.eq_iff_iff]
        refine hsome.trans (Iff.trans ?_ hsome₂.symm)
        rw [ne_eq, ne_eq, ← List.length_eq_zero_iff, ← List.length_eq_zero_iff,
          hcustoms.length_eq]
    have hrun : decode c w₂ = (decode c w).map fun e => { e with headers := custom₂ } := by
      simp only [decode, hr, hr₂, hpayload]
      exact intoEnvelope_custom c slots₂ custom custom₂ w.payload
    have hown : ∀ e, decode c w = .ok e → e.headers = custom := by
      intro e he
      simp only [decode, hr] at he
      exact (intoEnvelope_parsed he).headers
    refine ⟨?_, ?_, fun hrep => absurd hrep (not_repeatsField hs)⟩
    · rw [hrun]
      cases decode c w with
      | error err =>
          constructor
          · rintro ⟨e, he⟩
            cases he
          · rintro ⟨e, he⟩
            cases he
      | ok e => exact ⟨fun _ => ⟨_, rfl⟩, fun _ => ⟨e, rfl⟩⟩
    · intro e e₂ he he₂
      rw [hrun, he] at he₂
      cases he₂
      exact ⟨rfl, hown e he ▸ hheaders⟩
  · have hfail : ∀ {m : NatsWireMessage}, ¬ (∃ r, scan m.headers ScannedHeaders.default = .ok r) →
        ∃ err, decode c m = .error err := by
      intro m hno
      cases hm : scan m.headers ScannedHeaders.default with
      | error err => exact ⟨err, by simp only [decode, hm]⟩
      | ok r => exact absurd ⟨r, hm⟩ hno
    obtain ⟨err, herr⟩ := hfail fun hok => hs (hiff.mp hok)
    obtain ⟨err₂, herr₂⟩ := hfail fun hok => hs (hscannable.mpr (hiff₂.mp hok))
    refine ⟨?_, ?_, fun _ => ⟨err, herr⟩⟩
    · rw [herr, herr₂]
      constructor
      · rintro ⟨e, he⟩
        cases he
      · rintro ⟨e, he⟩
        cases he
    · intro e e₂ he
      rw [herr] at he
      cases he

/-- `foreignMessage "order-7"` in the canonical casing, its block enumerated backwards. -/
def respelledMessage : NatsWireMessage where
  headers :=
    [("nats-msg-id", ["order-7"]), ("region", ["eu", "us"]), ("RELIAR-SHARD", ["3"]),
      ("reliar-sent-at", [epochText]), ("reliar-content-type", ["application/json"]),
      ("reliar-message-version", ["+1"]), ("reliar-message-type", ["order.placed"]),
      ("reliar-message-id", ["00000000000000000000000000000007"])]
  payload := [1, 2, 3]

theorem decode_respelled_foreign :
    ∃ e e₂, decode nanosCodec (foreignMessage "order-7") = .ok e ∧
      decode nanosCodec respelledMessage = .ok e₂ ∧ e₂ = { e with headers := e₂.headers } ∧
      SameHeaders e.headers e₂.headers := by
  have hkept : ∀ x, Recased x x := fun x => ⟨rfl, .inl rfl⟩
  have hspell : Respelled (foreignMessage "order-7").headers respelledMessage.headers := by
    refine ⟨respelledMessage.headers.reverse, ?_, List.reverse_perm _⟩
    exact .cons ⟨rfl, .inr ⟨by decide, by decide⟩⟩ (.cons (hkept _)
      (.cons ⟨rfl, .inr ⟨by decide, by decide⟩⟩ (.cons (hkept _) (.cons (hkept _)
        (.cons ⟨rfl, .inr ⟨by decide, by decide⟩⟩ (.cons (hkept _)
          (.cons ⟨rfl, .inr ⟨by decide, by decide⟩⟩ .nil)))))))
  obtain ⟨hiff, hsame, -⟩ := decode_respelled nanosCodec (foreignMessage "order-7")
    respelledMessage (by decide) (by decide) hspell rfl
  have hok : (decode nanosCodec (foreignMessage "order-7")).toOption.isSome = true := by decide
  cases he : decode nanosCodec (foreignMessage "order-7") with
  | error err =>
      rw [he] at hok
      cases hok
  | ok e =>
      obtain ⟨e₂, he₂⟩ := hiff.mp ⟨e, he⟩
      obtain ⟨hrest, hheaders⟩ := hsame e e₂ he he₂
      exact ⟨e, e₂, rfl, he₂, hrest, hheaders⟩

end Reliar.Nats
