/-
# `Reliar.Nats.Subjects` — legal subjects, and subjects that tell types apart
(`reliar-transport-nats`: `subject.rs`; `reliar-core`: `message.rs`)

`validate_subject` looks at the bytes, then at the tokens; together they say that
a subject is a sequence of legal tokens (`Legal`).  A resolver looks at what it
resolved, so a legal prefix and any type name do no harm.

A name may hold `.v` and digits, but a version holds digits only: the `Display`
form of a type is split at its last `.v`.  So two types have two subjects, and no
list of names takes a `Display` form for a name.
-/
import Reliar.Nats.Publisher
import Reliar.Outbox.TypeNames

namespace Reliar.Nats

open Reliar.Core Reliar.Outbox

/-! ## Legal subjects -/

/-- A printable ASCII character other than the separator and the wildcards. -/
def TokenChar (c : Char) : Prop :=
  0x21 ≤ c.toNat ∧ c.toNat ≤ 0x7E ∧ c ≠ '.' ∧ c ≠ '*' ∧ c ≠ '>'

/-- Between 1 and 255 bytes, and a `.`-separated sequence of non-empty tokens. -/
structure Legal (subject : String) : Prop where
  length : 1 ≤ subject.utf8ByteSize ∧ subject.utf8ByteSize ≤ 255
  grammar : ∃ tokens : List (List Char), subject.toList = ['.'].intercalate tokens ∧
    ∀ token ∈ tokens, token ≠ [] ∧ ∀ c ∈ token, TokenChar c

theorem validateTokens_iff {subject : String} {tokens : List (List Char)} :
    validateTokens subject tokens = .ok () ↔
      ∀ token ∈ tokens, token ≠ [] ∧ '*' ∉ token ∧ '>' ∉ token := by
  induction tokens with
  | nil => simp [validateTokens]
  | cons token tokens ih =>
    rw [validateTokens, List.forall_mem_cons]
    split
    case isTrue hempty =>
      constructor
      · intro h
        cases h
      · rintro ⟨⟨hne, -⟩, -⟩
        exact absurd (List.isEmpty_iff.mp hempty) hne
    case isFalse hempty =>
      have hne : token ≠ [] := fun hnil => hempty (List.isEmpty_iff.mpr hnil)
      split
      case isTrue hwild =>
        constructor
        · intro h
          cases h
        · rintro ⟨⟨-, hstar, hgt⟩, -⟩
          simp only [Bool.or_eq_true, List.contains_iff_mem] at hwild
          exact absurd hwild (not_or.mpr ⟨hstar, hgt⟩)
      case isFalse hwild =>
        simp only [Bool.or_eq_true, List.contains_iff_mem, not_or] at hwild
        rw [ih]
        exact ⟨fun h => ⟨⟨hne, hwild⟩, h⟩, fun h => h.2⟩

/-- What `validate_subject` accepts, check by check. -/
theorem validateSubject_iff {subject : String} :
    validateSubject subject = .ok () ↔
      subject ≠ "" ∧ subject.utf8ByteSize ≤ 255 ∧
        (∀ c ∈ subject.toList, 0x21 ≤ c.toNat ∧ c.toNat ≤ 0x7E) ∧
        ∀ token ∈ subject.toList.splitOn '.', token ≠ [] ∧ '*' ∉ token ∧ '>' ∉ token := by
  have htokens : validateTokens subject (subject.toList.splitOn '.') = .ok () ↔ _ :=
    validateTokens_iff
  rw [validateSubject]
  split
  case isTrue hempty =>
    constructor
    · intro h
      cases h
    · rintro ⟨hne, -⟩
      exact absurd hempty hne
  case isFalse hne =>
    split
    case isTrue hlong =>
      constructor
      · intro h
        cases h
      · rintro ⟨-, hle, -⟩
        exact absurd hle (Nat.not_le_of_lt hlong)
    case isFalse hle =>
      split
      case isTrue hillegal =>
        constructor
        · intro h
          cases h
        · rintro ⟨-, -, hall, -⟩
          obtain ⟨c, hc, hout⟩ := List.any_eq_true.mp hillegal
          have hin := hall c hc
          simp [hin.1, hin.2] at hout
      case isFalse hlegal =>
        have hall : ∀ c ∈ subject.toList, 0x21 ≤ c.toNat ∧ c.toNat ≤ 0x7E := by
          intro c hc
          by_contra hout
          refine hlegal (List.any_eq_true.mpr ⟨c, hc, ?_⟩)
          simpa [not_and_or, imp_iff_not_or] using hout
        rw [htokens]
        exact ⟨fun h => ⟨hne, Nat.le_of_not_lt hle, hall, h⟩, fun h => h.2.2.2⟩

theorem validateSubject_legal {subject : String} :
    validateSubject subject = .ok () ↔ Legal subject := by
  rw [validateSubject_iff]
  constructor
  · rintro ⟨hne, hle, hall, htokens⟩
    refine ⟨⟨?_, hle⟩, subject.toList.splitOn '.', (List.intercalate_splitOn '.').symm, ?_⟩
    · refine Nat.one_le_iff_ne_zero.mpr fun hzero => hne ?_
      exact String.utf8ByteSize_eq_zero_iff.mp hzero
    · intro token htoken
      obtain ⟨hnil, hstar, hgt⟩ := htokens token htoken
      refine ⟨hnil, fun c hc => ?_⟩
      have hmem : c ∈ subject.toList := by
        have hjoin : ['.'].intercalate (subject.toList.splitOn '.') = subject.toList :=
          List.intercalate_splitOn '.'
        rw [← hjoin]
        exact Split.mem_intercalate_of_mem htoken hc
      refine ⟨(hall c hmem).1, (hall c hmem).2, ?_, ?_, ?_⟩
      · rintro rfl
        exact Split.notMem_of_mem_splitOn htoken hc
      · rintro rfl
        exact hstar hc
      · rintro rfl
        exact hgt hc
  · rintro ⟨⟨hpos, hle⟩, tokens, hgrammar, htokens⟩
    have hne : subject ≠ "" := by
      rintro rfl
      exact absurd hpos (by decide)
    have hnonempty : tokens ≠ [] := by
      rintro rfl
      exact hne (String.toList_eq_nil_iff.mp hgrammar)
    have hsplit : subject.toList.splitOn '.' = tokens := by
      rw [hgrammar]
      refine List.splitOn_intercalate '.' (fun token htoken hdot => ?_) hnonempty
      exact ((htokens token htoken).2 '.' hdot).2.2.1 rfl
    refine ⟨hne, hle, ?_, ?_⟩
    · intro c hc
      rw [hgrammar] at hc
      rcases Split.mem_intercalate hc with rfl | ⟨token, htoken, hc⟩
      · exact ⟨by decide, by decide⟩
      · have hchar := (htokens token htoken).2 c hc
        exact ⟨hchar.1, hchar.2.1⟩
    · rw [hsplit]
      intro token htoken
      obtain ⟨hnil, hchars⟩ := htokens token htoken
      exact ⟨hnil, fun hmem => (hchars _ hmem).2.2.2.1 rfl, fun hmem => (hchars _ hmem).2.2.2.2 rfl⟩

/-! ## What the resolvers return -/

theorem PrefixSubjects.subject_iff {r : PrefixSubjects} {e : SerializedEnvelope}
    {subject : String} :
    SubjectResolver.subject r e = .ok subject ↔
      subject = r.subjectPrefix ++ "." ++ displayType e.messageType ∧ Legal subject := by
  simp only [SubjectResolver.subject]
  split
  case h_1 err herr =>
    constructor
    · intro h
      cases h
    · rintro ⟨rfl, hlegal⟩
      rw [validateSubject_legal.mpr hlegal] at herr
      cases herr
  case h_2 hok =>
    constructor
    · intro h
      cases h
      exact ⟨rfl, validateSubject_legal.mp hok⟩
    · rintro ⟨rfl, -⟩
      rfl

theorem DestinationSubjects.subject_legal {r : DestinationSubjects} {e : SerializedEnvelope}
    {subject : String} (h : SubjectResolver.subject r e = .ok subject) : Legal subject := by
  simp only [SubjectResolver.subject] at h
  split at h
  case h_1 destination _ =>
    split at h
    case h_1 => cases h
    case h_2 hok =>
      cases h
      exact validateSubject_legal.mp hok
  case h_2 => exact (PrefixSubjects.subject_iff.mp h).2

theorem PrefixSubjects.new_prefix {text : String} {r : PrefixSubjects}
    (h : PrefixSubjects.new text = .ok r) : r.subjectPrefix = text := by
  unfold PrefixSubjects.new at h
  split at h
  case h_1 => cases h
  case h_2 =>
    cases h
    rfl

/-- For every text: it is accepted exactly when it is a legal subject.  For every envelope: what a
resolver returns is legal, and what `PrefixSubjects` returns lies under its prefix. -/
theorem subjects_legal :
    (∀ subject, validateSubject subject = .ok () ↔ Legal subject) ∧
    (∀ (text : String) (r : PrefixSubjects), PrefixSubjects.new text = .ok r →
      r.subjectPrefix = text) ∧
    (∀ (r : PrefixSubjects) (e : SerializedEnvelope) (subject : String),
      SubjectResolver.subject r e = .ok subject →
        Legal subject ∧ ∃ rest, subject = r.subjectPrefix ++ "." ++ rest) ∧
    ∀ (r : DestinationSubjects) (e : SerializedEnvelope) (subject : String),
      SubjectResolver.subject r e = .ok subject → Legal subject := by
  refine ⟨fun _ => validateSubject_legal, fun _ _ => PrefixSubjects.new_prefix, ?_,
    fun _ _ _ => DestinationSubjects.subject_legal⟩
  intro r e subject h
  obtain ⟨hsubject, hlegal⟩ := PrefixSubjects.subject_iff.mp h
  exact ⟨hlegal, _, hsubject⟩

/-! ## The `Display` form of a type -/

theorem displayType_toList (t : MessageType) :
    (displayType t).toList = t.name.toList ++ ['.', 'v'] ++ (toString t.version.toNat).toList := by
  simp [displayType]

theorem version_digits (version : UInt16) :
    ∀ c ∈ (toString version.toNat).toList, c.isDigit = true := by
  intro c hc
  rw [Nat.toString_eq_repr, Nat.toList_repr] at hc
  exact Nat.isDigit_of_mem_toDigits (by decide) (by decide) hc

theorem displayType_versioned (t : MessageType) : Versioned (displayType t) :=
  ⟨_, _, displayType_toList t, by simp, version_digits _⟩

/-- The last `.v` is the one in front of the version. -/
theorem displayType_split (t : MessageType) :
    Split.rsplitOnce ['.', 'v'] (displayType t).toList =
      some (t.name.toList, (toString t.version.toNat).toList) := by
  rw [displayType_toList]
  exact Split.rsplitOnce_append _ (notMem_version (version_digits _))

theorem displayType_inj {t t' : MessageType} : displayType t = displayType t' ↔ t = t' := by
  constructor
  · intro h
    have hsplit := displayType_split t
    rw [h, displayType_split t', Option.some.injEq, Prod.mk.injEq] at hsplit
    have hname : t'.name = t.name := String.toList_injective hsplit.1
    have hversion : t'.version = t.version := by
      have hparse := parseU16_toString t'.version
      rw [String.toList_injective hsplit.2, parseU16_toString t.version] at hparse
      exact (Option.some.inj hparse).symm
    cases t
    cases t'
    simp only at hname hversion
    rw [hname, hversion]
  · rintro rfl
    rfl

/-- Under one prefix, types and subjects go together. -/
theorem PrefixSubjects.subject_inj {r : PrefixSubjects} {e e' : SerializedEnvelope}
    {subject subject' : String} (h : SubjectResolver.subject r e = .ok subject)
    (h' : SubjectResolver.subject r e' = .ok subject') :
    subject = subject' ↔ e.messageType = e'.messageType := by
  rw [(PrefixSubjects.subject_iff.mp h).1, (PrefixSubjects.subject_iff.mp h').1,
    String.append_right_inj, displayType_inj]

/-- A `Display` form, alone or as the last entry of a list, makes the list an error. -/
theorem parse_displayType (field list : String) (t : MessageType) :
    ∃ err, MessageTypeNames.parse field (list ++ displayType t) = .error err := by
  cases hparse : MessageTypeNames.parse field (list ++ displayType t) with
  | error err => exact ⟨err, rfl⟩
  | ok names =>
    exfalso
    obtain ⟨-, hall⟩ := MessageTypeNames.parse_iff.mp hparse
    -- the last piece between commas still ends in the version
    have hcomma : ',' ∉ ['.', 'v'] ++ (toString t.version.toNat).toList := by
      intro hmem
      rcases List.mem_append.mp hmem with hmem | hmem
      · exact absurd hmem (by decide)
      · exact absurd (version_digits _ _ hmem) (by decide)
    obtain ⟨token, htoken, before, hbefore⟩ :=
      Split.exists_splitOn_suffix (list.toList ++ t.name.toList) hcomma
    have hentry : String.ofList token ∈ MessageTypeNames.entries (list ++ displayType t) := by
      refine List.mem_map_of_mem ?_
      rw [String.toList_append, displayType_toList, List.append_assoc t.name.toList,
        ← List.append_assoc list.toList]
      exact htoken
    refine hall _ hentry (Versioned.trim ⟨before, _, ?_, by simp, version_digits t.version⟩)
    rw [String.toList_ofList, ← hbefore, List.append_assoc]

theorem tryFromIter_displayType {field : String} {names : List String} {t : MessageType}
    (h : displayType t ∈ names) :
    ∃ err, MessageTypeNames.tryFromIter field names = .error err := by
  cases hiter : MessageTypeNames.tryFromIter field names with
  | error err => exact ⟨err, rfl⟩
  | ok list =>
    obtain ⟨-, hall⟩ := MessageTypeNames.tryFromIter_iff.mp hiter
    exact absurd (displayType_versioned t).trim (hall _ h).2

/-- The `Display` form determines the type, the subjects under one prefix tell types apart, and the
lists of names take no `Display` form, refuse exactly the versioned entries (and, from an iterator,
the empty ones), and hold the trimmed entries; `parse` leaves out the empty ones. -/
theorem types_apart :
    (∀ t t' : MessageType, displayType t = displayType t' ↔ t = t') ∧
    (∀ (r : PrefixSubjects) (e e' : SerializedEnvelope) (subject subject' : String),
      SubjectResolver.subject r e = .ok subject → SubjectResolver.subject r e' = .ok subject' →
        (subject = subject' ↔ e.messageType = e'.messageType)) ∧
    (∀ (field : String) (t : MessageType),
      (∃ err, MessageTypeNames.parse field (displayType t) = .error err) ∧
        ∀ names, displayType t ∈ names →
          ∃ err, MessageTypeNames.tryFromIter field names = .error err) ∧
    (∀ field list : String,
      ((∃ names, MessageTypeNames.parse field list = .ok names) ↔
        ∀ entry ∈ MessageTypeNames.entries list, ¬ Versioned (trim entry)) ∧
      ∀ names, MessageTypeNames.parse field list = .ok names → ∀ name,
        (names.contains name = true ↔
          name ≠ "" ∧ ∃ entry ∈ MessageTypeNames.entries list, trim entry = name)) ∧
    ∀ (field : String) (raws : List String),
      ((∃ names, MessageTypeNames.tryFromIter field raws = .ok names) ↔
        ∀ raw ∈ raws, trim raw ≠ "" ∧ ¬ Versioned (trim raw)) ∧
      ∀ names, MessageTypeNames.tryFromIter field raws = .ok names → ∀ name,
        (names.contains name = true ↔ ∃ raw ∈ raws, trim raw = name) := by
  refine ⟨fun _ _ => displayType_inj, fun _ _ _ _ _ => PrefixSubjects.subject_inj, ?_, ?_, ?_⟩
  · intro field t
    refine ⟨?_, fun names => tryFromIter_displayType⟩
    have halone := parse_displayType field "" t
    rwa [String.empty_append] at halone
  · intro field list
    constructor
    · constructor
      · rintro ⟨names, hparse⟩
        exact (MessageTypeNames.parse_iff.mp hparse).2
      · intro hall
        have hnames : ∀ name ∈ ((MessageTypeNames.entries list).map trim).filter
            (fun name => name ≠ ""), ¬ Versioned name := by
          intro name hname
          obtain ⟨entry, hentry, rfl⟩ := List.mem_map.mp (List.mem_of_mem_filter hname)
          exact hall entry hentry
        obtain ⟨names, heq⟩ := MessageTypeNames.exists_list hnames
        exact ⟨names, MessageTypeNames.parse_iff.mpr ⟨heq, hall⟩⟩
    · intro names hparse name
      rw [MessageTypeNames.contains_iff, (MessageTypeNames.parse_iff.mp hparse).1, List.mem_filter,
        List.mem_map, and_comm]
      simp
  · intro field raws
    constructor
    · constructor
      · rintro ⟨names, hiter⟩
        exact (MessageTypeNames.tryFromIter_iff.mp hiter).2
      · intro hall
        have hnames : ∀ name ∈ raws.map trim, ¬ Versioned name := by
          intro name hname
          obtain ⟨raw, hraw, rfl⟩ := List.mem_map.mp hname
          exact (hall raw hraw).2
        obtain ⟨names, heq⟩ := MessageTypeNames.exists_list hnames
        exact ⟨names, MessageTypeNames.tryFromIter_iff.mpr ⟨heq, hall⟩⟩
    · intro names hiter name
      rw [MessageTypeNames.contains_iff, (MessageTypeNames.tryFromIter_iff.mp hiter).1,
        List.mem_map]

/-- An entry that is empty after trimming is dropped, not held. -/
theorem parse_drops_empty :
    ∃ names, MessageTypeNames.parse "allowed_types" "a,,b" = .ok names ∧
      (∃ entry ∈ MessageTypeNames.entries "a,,b", trim entry = "") ∧
      names.contains "" = false := by
  have hrun : (MessageTypeNames.parse "allowed_types" "a,,b").map
      (fun names => names.contains "") = .ok false := by decide
  cases hparse : MessageTypeNames.parse "allowed_types" "a,,b" with
  | error err =>
    rw [hparse] at hrun
    cases hrun
  | ok names =>
    rw [hparse] at hrun
    exact ⟨names, rfl, ⟨"", by decide, by decide⟩, Except.ok.inj hrun⟩

end Reliar.Nats
