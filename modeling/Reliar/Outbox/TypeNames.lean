/-
# `Reliar.Outbox.TypeNames` — lists of message-type names (`reliar-outbox`: `settings.rs`'s
`MessageTypeNames`; `reliar-core`: `settings.rs`)

The lists an operator configures hold names, never the `Display` form of a
message type: an entry that ends in a version is refused.  The check looks at
what follows the last `.v`, and a version is digits, so it sees every version
(`isVersionedMessageTypeName_iff`).
-/
import Mathlib.Data.List.DropRight
import Reliar.Core.Ids
import Reliar.Lib.Split

namespace Reliar.Outbox

open Reliar.Core

/-- `reliar-core`'s error for a setting. -/
inductive SettingsError
  | parse (key valueKind : String)
  | outOfRange (key message : String)
  deriving DecidableEq, Repr

/-! ## Text -/

/-- `char::is_whitespace`: Unicode's `White_Space`. -/
def isWhitespace (c : Char) : Bool :=
  (0x9 ≤ c.toNat && c.toNat ≤ 0xD) || c.toNat == 0x20 || c.toNat == 0x85 || c.toNat == 0xA0 ||
    c.toNat == 0x1680 || (0x2000 ≤ c.toNat && c.toNat ≤ 0x200A) || c.toNat == 0x2028 ||
    c.toNat == 0x2029 || c.toNat == 0x202F || c.toNat == 0x205F || c.toNat == 0x3000

/-- `str::trim`. -/
def trim (s : String) : String :=
  String.ofList ((s.toList.dropWhile isWhitespace).rdropWhile isWhitespace)

/-- `is_versioned_message_type_name`. -/
def isVersionedMessageTypeName (name : String) : Bool :=
  match Split.rsplitOnce ['.', 'v'] name.toList with
  | some (_, version) => !version.isEmpty && version.all Char.isDigit
  | none => false

/-! ## The lists -/

/-- `MessageTypeNames`: no name of the list is versioned. -/
structure MessageTypeNames where
  names : List String
  valid : ∀ name ∈ names, isVersionedMessageTypeName name = false
  deriving DecidableEq

namespace MessageTypeNames

def empty : MessageTypeNames := ⟨[], fun _ h => absurd h List.not_mem_nil⟩

def validated (field : String) (names : List String) : Except SettingsError MessageTypeNames :=
  if h : ∀ name ∈ names, isVersionedMessageTypeName name = false then .ok ⟨names, h⟩
  else .error (.parse field "message type names without a version suffix")

/-- The entries of a comma-separated list. -/
def entries (list : String) : List String := (list.toList.splitOn ',').map String.ofList

def parse (field list : String) : Except SettingsError MessageTypeNames :=
  validated field (((entries list).map trim).filter fun name => name ≠ "")

/-- The loop of `try_from_iter`. -/
def collect (field : String) : List String → Except SettingsError (List String)
  | [] => .ok []
  | raw :: names =>
      if trim raw = "" then .error (.parse field "non-empty message type names")
      else (collect field names).map fun out => trim raw :: out

def tryFromIter (field : String) (names : List String) : Except SettingsError MessageTypeNames :=
  match collect field names with
  | .error err => .error err
  | .ok out => validated field out

def isEmpty (list : MessageTypeNames) : Bool := list.names.isEmpty

def contains (list : MessageTypeNames) (name : String) : Bool := list.names.any (· == name)

theorem contains_iff {list : MessageTypeNames} {name : String} :
    list.contains name = true ↔ name ∈ list.names := by
  simp [contains]

end MessageTypeNames

/-! ## Versions -/

/-- The name ends in `.v` and one or more ASCII digits. -/
def Versioned (name : String) : Prop :=
  ∃ before version, name.toList = before ++ ['.', 'v'] ++ version ∧ version ≠ [] ∧
    ∀ c ∈ version, c.isDigit = true

theorem notMem_version {version : List Char} (h : ∀ c ∈ version, c.isDigit = true) :
    '.' ∉ ['v'] ++ version := by
  intro hmem
  rcases List.mem_cons.mp hmem with heq | hmem
  · exact absurd heq (by decide)
  · exact absurd (h '.' hmem) (by decide)

theorem isVersionedMessageTypeName_iff {name : String} :
    isVersionedMessageTypeName name = true ↔ Versioned name := by
  constructor
  · intro h
    unfold isVersionedMessageTypeName at h
    split at h
    case h_1 before version hsplit =>
      simp only [Bool.and_eq_true, Bool.not_eq_true', List.isEmpty_eq_false_iff,
        List.all_eq_true] at h
      exact ⟨before, version, Split.rsplitOnce_some hsplit, h.1, h.2⟩
    case h_2 => cases h
  · rintro ⟨before, version, hname, hne, hdigits⟩
    rw [isVersionedMessageTypeName, hname, Split.rsplitOnce_append before (notMem_version hdigits)]
    simp only [Bool.and_eq_true, Bool.not_eq_true', List.isEmpty_eq_false_iff, List.all_eq_true]
    exact ⟨hne, hdigits⟩

/-- What comes before a character that is not whitespace is all that `trim` looks at from the left. -/
theorem dropWhile_append_cons {p : Char → Bool} {c : Char} (hc : p c = false)
    (before after : List Char) :
    (before ++ c :: after).dropWhile p = before.dropWhile p ++ c :: after := by
  induction before with
  | nil => simp [hc]
  | cons b before ih =>
      rw [List.cons_append, List.dropWhile_cons, List.dropWhile_cons]
      split
      · exact ih
      · rfl

theorem isWhitespace_digit {c : Char} (h : c.isDigit = true) : isWhitespace c = false := by
  simp only [Char.isDigit, Bool.and_eq_true, decide_eq_true_eq, ge_iff_le, UInt32.le_iff_toNat_le]
    at h
  have hlow : 48 ≤ c.toNat := h.1
  have hhigh : c.toNat ≤ 57 := h.2
  simp only [isWhitespace, Bool.or_eq_false_iff, Bool.and_eq_false_iff, beq_eq_false_iff_ne,
    decide_eq_false_iff_not]
  omega

/-- Trimming keeps a version at the end. -/
theorem Versioned.trim {name : String} (h : Versioned name) : Versioned (trim name) := by
  obtain ⟨before, version, hname, hne, hdigits⟩ := h
  refine ⟨before.dropWhile isWhitespace, version, ?_, hne, hdigits⟩
  have hleft : name.toList.dropWhile isWhitespace =
      before.dropWhile isWhitespace ++ ['.', 'v'] ++ version := by
    rw [hname, List.append_assoc, List.cons_append, dropWhile_append_cons (by decide),
      List.append_assoc]
    rfl
  have hright : (before.dropWhile isWhitespace ++ ['.', 'v'] ++ version).rdropWhile isWhitespace =
      before.dropWhile isWhitespace ++ ['.', 'v'] ++ version := by
    refine List.rdropWhile_eq_self_iff.mpr fun hl => ?_
    have hlast : (before.dropWhile isWhitespace ++ ['.', 'v'] ++ version).getLast hl =
        version.getLast hne := List.getLast_append_of_ne_nil hl hne
    rw [hlast, isWhitespace_digit (hdigits _ (List.getLast_mem hne))]
    exact Bool.false_ne_true
  rw [Outbox.trim, hleft, hright, String.toList_ofList]

/-! ## Which lists are accepted -/

namespace MessageTypeNames

theorem validated_iff {field : String} {names : List String} {list : MessageTypeNames} :
    validated field names = .ok list ↔
      list.names = names ∧ ∀ name ∈ names, ¬ Versioned name := by
  have hversioned : (∀ name ∈ names, ¬ Versioned name) ↔
      ∀ name ∈ names, isVersionedMessageTypeName name = false := by
    simp only [← isVersionedMessageTypeName_iff, Bool.not_eq_true]
  rw [hversioned]
  unfold validated
  split
  case isTrue h =>
    constructor
    · intro heq
      cases heq
      exact ⟨rfl, h⟩
    · rintro ⟨rfl, -⟩
      rfl
  case isFalse h =>
    constructor
    · intro heq
      cases heq
    · rintro ⟨-, hall⟩
      exact absurd hall h

/-- Names without a version make a list. -/
theorem exists_list {names : List String} (h : ∀ name ∈ names, ¬ Versioned name) :
    ∃ list : MessageTypeNames, list.names = names := by
  refine ⟨⟨names, fun name hname => ?_⟩, rfl⟩
  rw [← Bool.not_eq_true, isVersionedMessageTypeName_iff]
  exact h name hname

/-- Exactly the entries of a comma-separated list that are not empty after trimming. -/
theorem parse_iff {field list : String} {names : MessageTypeNames} :
    parse field list = .ok names ↔
      names.names = ((entries list).map trim).filter (fun name => name ≠ "") ∧
        ∀ entry ∈ entries list, ¬ Versioned (trim entry) := by
  rw [parse, validated_iff]
  refine and_congr_right fun _ => ?_
  constructor
  · intro h entry hentry hver
    have hne : trim entry ≠ "" := by
      intro hempty
      obtain ⟨before, version, hname, -⟩ := hver
      rw [hempty] at hname
      simp at hname
    exact h _ (List.mem_filter.mpr ⟨List.mem_map_of_mem hentry, by simpa using hne⟩) hver
  · intro h name hname
    obtain ⟨entry, hentry, rfl⟩ := List.mem_map.mp (List.mem_of_mem_filter hname)
    exact h entry hentry

theorem collect_iff {field : String} {names out : List String} :
    collect field names = .ok out ↔ out = names.map trim ∧ ∀ raw ∈ names, trim raw ≠ "" := by
  induction names generalizing out with
  | nil =>
      constructor
      · intro h
        cases h
        exact ⟨rfl, fun _ h => absurd h List.not_mem_nil⟩
      · rintro ⟨rfl, -⟩
        rfl
  | cons raw names ih =>
      rw [collect]
      split
      case isTrue hempty =>
        constructor
        · intro h
          cases h
        · rintro ⟨-, hall⟩
          exact absurd hempty (hall raw List.mem_cons_self)
      case isFalse hne =>
        rw [List.forall_mem_cons, List.map_cons]
        constructor
        · intro h
          cases hrest : collect field names with
          | error err =>
              rw [hrest] at h
              cases h
          | ok rest =>
              rw [hrest] at h
              cases h
              obtain ⟨rfl, hall⟩ := ih.mp hrest
              exact ⟨rfl, hne, hall⟩
        · rintro ⟨rfl, -, hall⟩
          rw [ih.mpr ⟨rfl, hall⟩]
          rfl

/-- Exactly the names, trimmed. -/
theorem tryFromIter_iff {field : String} {names : List String} {list : MessageTypeNames} :
    tryFromIter field names = .ok list ↔
      list.names = names.map trim ∧ ∀ raw ∈ names, trim raw ≠ "" ∧ ¬ Versioned (trim raw) := by
  rw [tryFromIter]
  split
  case h_1 err herr =>
    constructor
    · intro h
      cases h
    · rintro ⟨-, hall⟩
      rw [collect_iff.mpr ⟨rfl, fun raw hraw => (hall raw hraw).1⟩] at herr
      cases herr
  case h_2 out hout =>
    obtain ⟨rfl, hne⟩ := collect_iff.mp hout
    rw [validated_iff, List.forall_mem_map]
    refine and_congr_right fun _ => ?_
    exact ⟨fun h raw hraw => ⟨hne raw hraw, h raw hraw⟩, fun h raw hraw => (h raw hraw).2⟩

end MessageTypeNames

end Reliar.Outbox
