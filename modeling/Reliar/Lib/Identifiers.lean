/-
# `Reliar.Lib.Identifiers` — lists of SQL identifiers, as text

PostgreSQL reads a search path and a qualified name the same way: identifiers
with a separator between them, white space around each.  A quoted identifier is
kept as it is, its doubled quotes made single; an unquoted one is folded to lower
case.

`split` reads one character at a time.  What it makes of a whole identifier, bare
or quoted, is one lemma each; a list is read by using them in turn.
-/
import Mathlib

namespace Identifiers

/-- An identifier as it was written. -/
inductive Ident
  | bare (text : List Char)
  | quoted (text : List Char)
  deriving DecidableEq, Repr

/-- ASCII case folding. -/
def fold (text : List Char) : List Char := text.map Char.toLower

/-- What an identifier names. -/
def Ident.name : Ident → List Char
  | .bare text => fold text
  | .quoted text => text

/-- `scanner_isspace`. -/
def isSpace (c : Char) : Bool := [' ', '\t', '\n', '\r', '\x0b', '\x0c'].contains c

/-- Where the reader is. -/
inductive Reading
  | start
  | bare (text : List Char)
  | quoted (text : List Char)
  /-- A quote within a quoted identifier: its end, or the first of two. -/
  | quote (text : List Char)
  | done
  deriving DecidableEq, Repr

/-- The identifiers read so far, and where the reader is. -/
abbrev State := List Ident × Reading

/-- An identifier is over at `c`: white space or the separator follows, or nothing may. -/
def close (sep : Char) (idents : List Ident) (c : Char) : Option State :=
  if c = sep then some (idents, .start)
  else if isSpace c then some (idents, .done)
  else none

def read (sep : Char) : State → Char → Option State
  | (idents, .start), c =>
      if isSpace c then some (idents, .start)
      else if c = '"' then some (idents, .quoted [])
      else if c = sep then none
      else some (idents, .bare [c])
  | (idents, .bare text), c =>
      if c = sep ∨ isSpace c then close sep (idents ++ [.bare text]) c
      else some (idents, .bare (text ++ [c]))
  | (idents, .quoted text), c =>
      if c = '"' then some (idents, .quote text) else some (idents, .quoted (text ++ [c]))
  | (idents, .quote text), c =>
      if c = '"' then some (idents, .quoted (text ++ ['"']))
      else close sep (idents ++ [.quoted text]) c
  | (idents, .done), c => close sep idents c

/-- At the end of the text.  A separator needs an identifier after it; a text without any is the
empty list. -/
def finish : State → Option (List Ident)
  | ([], .start) => some []
  | (_ :: _, .start) => none
  | (idents, .bare text) => some (idents ++ [.bare text])
  | (_, .quoted _) => none
  | (idents, .quote text) => some (idents ++ [.quoted text])
  | (idents, .done) => some idents

/-- `SplitIdentifierString`. -/
def split (sep : Char) (text : List Char) : Option (List Ident) :=
  (text.foldlM (read sep) ([], .start)).bind finish

/-- A quoted identifier's text between its quotes. -/
def escape (text : List Char) : List Char :=
  text.flatMap fun c => if c = '"' then ['"', '"'] else [c]

/-- The characters a bare identifier is made of. -/
def Plain (sep : Char) (text : List Char) : Prop :=
  ∀ c ∈ text, c ≠ '"' ∧ c ≠ sep ∧ isSpace c = false

section
variable {sep : Char} {idents : List Ident}

/-! ## One identifier -/

theorem read_plain {text word : List Char} (h : Plain sep word) :
    word.foldlM (read sep) (idents, .bare text) = some (idents, .bare (text ++ word)) := by
  induction word generalizing text with
  | nil => rw [List.append_nil]; rfl
  | cons c word ih =>
      obtain ⟨-, hsep, hspace⟩ := h c List.mem_cons_self
      have hread : read sep (idents, .bare text) c = some (idents, .bare (text ++ [c])) := by
        simp [read, hsep, hspace]
      have hrest := @ih (text ++ [c]) fun c' hc' => h c' (List.mem_cons_of_mem _ hc')
      rw [List.append_assoc] at hrest
      rw [List.foldlM_cons, hread]
      exact hrest

theorem read_escaped {text word : List Char} :
    (escape word).foldlM (read sep) (idents, .quoted text) =
      some (idents, .quoted (text ++ word)) := by
  induction word generalizing text with
  | nil => rw [List.append_nil]; rfl
  | cons c word ih =>
      have hrest := @ih (text ++ [c])
      rw [List.append_assoc] at hrest
      by_cases hquote : c = '"'
      · subst hquote
        exact hrest
      · have hread : read sep (idents, .quoted text) c = some (idents, .quoted (text ++ [c])) :=
          if_neg hquote
        rw [escape, List.flatMap_cons, if_neg hquote, List.singleton_append, List.foldlM_cons, hread]
        exact hrest

/-- A bare identifier from its first character on. -/
theorem read_bare {word : List Char} (hne : word ≠ []) (h : Plain sep word) :
    word.foldlM (read sep) (idents, .start) = some (idents, .bare word) := by
  cases word with
  | nil => exact absurd rfl hne
  | cons c word =>
      obtain ⟨hquote, hsep, hspace⟩ := h c List.mem_cons_self
      have hread : read sep (idents, .start) c = some (idents, .bare [c]) := by
        simp [read, hquote, hsep, hspace]
      rw [List.foldlM_cons, hread]
      exact read_plain fun c' hc' => h c' (List.mem_cons_of_mem _ hc')

/-- A quoted identifier with both its quotes. -/
theorem read_quoted {word : List Char} :
    ('"' :: (escape word ++ ['"'])).foldlM (read sep) (idents, .start) =
      some (idents, .quote word) := by
  have hopen : read sep (idents, .start) '"' = some (idents, .quoted []) := rfl
  rw [List.foldlM_cons, hopen, Option.bind_eq_bind, Option.bind_some, List.foldlM_append,
    read_escaped]
  rfl

/-! ## Two identifiers -/

/-- At the end of a bare identifier. -/
theorem finish_bare {word : List Char} (hne : word ≠ []) (h : Plain sep word) :
    (word.foldlM (read sep) (idents, .start)).bind finish = some (idents ++ [.bare word]) := by
  rw [read_bare hne h]
  cases idents <;> rfl

/-- A name qualified by, or a path beginning with, a bare identifier. -/
theorem split_bare {word rest : List Char} (hne : word ≠ []) (hword : Plain sep word)
    (hne' : rest ≠ []) (hrest : Plain sep rest) :
    split sep (word ++ sep :: rest) = some [.bare word, .bare rest] := by
  have hclose : read sep ([], .bare word) sep = some ([.bare word], .start) := by
    simp [read, close]
  rw [split, List.foldlM_append, read_bare hne hword, Option.bind_eq_bind, Option.bind_some,
    List.foldlM_cons, hclose, Option.bind_eq_bind, Option.bind_some, finish_bare hne' hrest]
  rfl

/-- A path beginning with a quoted identifier, with a space after the separator. -/
theorem split_quoted {word rest : List Char} (hsep : sep ≠ '"') (hne : rest ≠ [])
    (hrest : Plain sep rest) :
    split sep ('"' :: (escape word ++ ['"']) ++ sep :: ' ' :: rest) =
      some [.quoted word, .bare rest] := by
  have hclose : read sep ([], .quote word) sep = some ([.quoted word], .start) := by
    simp [read, close, hsep]
  have hspace : read sep ([.quoted word], .start) ' ' = some ([.quoted word], .start) := rfl
  rw [split, List.foldlM_append, read_quoted, Option.bind_eq_bind, Option.bind_some,
    List.foldlM_cons, hclose, Option.bind_eq_bind, Option.bind_some, List.foldlM_cons, hspace,
    Option.bind_eq_bind, Option.bind_some, finish_bare hne hrest]
  rfl

end

/-! ## Folding -/

theorem toLower_eq_self {c : Char} : c.toLower = c ↔ c.isUpper = false := by
  constructor
  · intro h
    rw [← h]
    exact Char.isUpper_toLower_eq_false c
  · intro h
    exact Char.toLower_eq_of_not_isUpper (Bool.eq_false_iff.mp h)

/-- Folding keeps a name exactly when it has no upper-case letter. -/
theorem fold_eq_self {text : List Char} : fold text = text ↔ ∀ c ∈ text, c.isUpper = false := by
  induction text with
  | nil => simp [fold]
  | cons c text ih =>
      rw [fold, List.map_cons, List.cons.injEq, toLower_eq_self, List.forall_mem_cons]
      exact and_congr_right fun _ => ih

example : split ',' "\"Re\"\"liar\" , Public".toList =
    some [.quoted "Re\"liar".toList, .bare "Public".toList] := by decide

end Identifiers
