/-
# `Reliar.Outbox.ErrorText` — stored error texts (`reliar-outbox`: `record.rs`)

`truncate_error` leaves at most `MAX_ERROR_LEN` bytes, so truncating twice is
truncating once.  The store relies on it: `FailedMessage::new` truncates, and so
does everything that reads or writes the text later.

What is left of a text that does not fit is its longest prefix within the budget
(`cut_longest`).  The loop stops on a boundary, so the slice it takes does not
panic, and a boundary is the length of a prefix (`isCharBoundary_iff`).
-/
import Mathlib.Data.List.Infix
import Reliar.Outbox.Types

namespace Reliar.Outbox

theorem utf8ByteSize_ofList_cons (c : Char) (cs : List Char) :
    (String.ofList (c :: cs)).utf8ByteSize = c.utf8Size + (String.ofList cs).utf8ByteSize := by
  rw [← List.singleton_append, String.ofList_append, String.utf8ByteSize_append]
  simp

/-- A prefix of `n` bytes has at most `n` bytes. -/
theorem takeBytes_size (cs : List Char) (n : Nat) :
    (String.ofList (takeBytes cs n)).utf8ByteSize ≤ n := by
  induction cs generalizing n with
  | nil => exact Nat.zero_le n
  | cons c cs ih =>
      unfold takeBytes
      split
      · have hrest := ih (n - c.utf8Size)
        rw [utf8ByteSize_ofList_cons]
        omega
      · exact Nat.zero_le n

/-! ## Character boundaries -/

theorem isCharBoundary_cons {c : Char} {cs : List Char} {n : Nat} (h : c.utf8Size ≤ n) :
    isCharBoundary (c :: cs) n = isCharBoundary cs (n - c.utf8Size) := by
  cases n with
  | zero =>
      have hpos := c.utf8Size_pos
      omega
  | succ n => rw [isCharBoundary, decide_eq_true h, Bool.true_and]

/-- The boundaries of a text are the lengths of its prefixes. -/
theorem isCharBoundary_iff {cs : List Char} {n : Nat} :
    isCharBoundary cs n = true ↔ ∃ kept, kept <+: cs ∧ (String.ofList kept).utf8ByteSize = n := by
  induction cs generalizing n with
  | nil =>
      constructor
      · intro h
        cases n with
        | zero => exact ⟨[], List.prefix_refl _, rfl⟩
        | succ n => cases h
      · rintro ⟨kept, hkept, rfl⟩
        rw [List.prefix_nil.mp hkept]
        rfl
  | cons c cs ih =>
      constructor
      · intro h
        by_cases hfits : c.utf8Size ≤ n
        · rw [isCharBoundary_cons hfits] at h
          obtain ⟨kept, hkept, hsize⟩ := ih.mp h
          refine ⟨c :: kept, List.cons_prefix_cons.mpr ⟨rfl, hkept⟩, ?_⟩
          rw [utf8ByteSize_ofList_cons, hsize]
          omega
        · cases n with
          | zero => exact ⟨[], List.nil_prefix, rfl⟩
          | succ n => simp [isCharBoundary, hfits] at h
      · rintro ⟨kept, hkept, rfl⟩
        cases kept with
        | nil => rfl
        | cons c' kept =>
            obtain ⟨hhead, hrest⟩ := List.cons_prefix_cons.mp hkept
            rw [hhead, utf8ByteSize_ofList_cons, isCharBoundary_cons (Nat.le_add_right _ _),
              Nat.add_sub_cancel_left]
            exact ih.mpr ⟨kept, hrest, rfl⟩

/-- The loop stops on a boundary: slicing there does not panic. -/
theorem walkBack_boundary (cs : List Char) (n : Nat) : isCharBoundary cs (walkBack cs n) = true := by
  induction n with
  | zero => cases cs <;> rfl
  | succ n ih =>
      unfold walkBack
      split
      · assumption
      · exact ih

/-- It passes no boundary on its way. -/
theorem le_walkBack {cs : List Char} {m n : Nat} (hle : m ≤ n) (h : isCharBoundary cs m = true) :
    m ≤ walkBack cs n := by
  induction n with
  | zero => exact hle
  | succ n ih =>
      unfold walkBack
      split
      · exact hle
      · rename_i hnot
        have hne : m ≠ n + 1 := by
          rintro rfl
          exact hnot h
        exact ih (by omega)

theorem takeBytes_isPrefix (cs : List Char) (n : Nat) : takeBytes cs n <+: cs := by
  induction cs generalizing n with
  | nil => exact List.prefix_refl _
  | cons c cs ih =>
      unfold takeBytes
      split
      · exact List.cons_prefix_cons.mpr ⟨rfl, ih _⟩
      · exact List.nil_prefix

/-- The slice up to a boundary has that many bytes. -/
theorem takeBytes_boundary {cs : List Char} {n : Nat} (h : isCharBoundary cs n = true) :
    (String.ofList (takeBytes cs n)).utf8ByteSize = n := by
  induction cs generalizing n with
  | nil =>
      cases n with
      | zero => rfl
      | succ n => cases h
  | cons c cs ih =>
      unfold takeBytes
      split
      · rename_i hfits
        rw [isCharBoundary_cons hfits] at h
        rw [utf8ByteSize_ofList_cons, ih h]
        omega
      · rename_i hnot
        cases n with
        | zero => rfl
        | succ n => simp [isCharBoundary, hnot] at h

/-- What the loop keeps: the longest prefix of at most `budget` bytes. -/
theorem cut_longest {cs kept : List Char} {budget : Nat} (hstart : kept <+: cs)
    (hfits : (String.ofList kept).utf8ByteSize ≤ budget) :
    kept <+: takeBytes cs (walkBack cs budget) := by
  have hle : (String.ofList kept).utf8ByteSize ≤ walkBack cs budget :=
    le_walkBack hfits (isCharBoundary_iff.mpr ⟨kept, hstart, rfl⟩)
  rcases List.prefix_or_prefix_of_prefix hstart (takeBytes_isPrefix cs (walkBack cs budget)) with
    h | ⟨more, rfl⟩
  · exact h
  · -- of two prefixes the one with no more bytes has no more characters
    cases more with
    | nil => rw [List.append_nil]
    | cons c more =>
        rw [String.ofList_append, String.utf8ByteSize_append, utf8ByteSize_ofList_cons,
          takeBytes_boundary (walkBack_boundary cs budget)] at hle
        have hpos := c.utf8Size_pos
        omega

/-! ## The length of a stored text -/

theorem walkBack_le (cs : List Char) (n : Nat) : walkBack cs n ≤ n := by
  induction n with
  | zero => exact Nat.le_refl 0
  | succ n ih =>
      unfold walkBack
      split
      · exact Nat.le_refl _
      · exact Nat.le_succ_of_le ih

theorem truncateError_size (error : String) : (truncateError error).utf8ByteSize ≤ MAX_ERROR_LEN := by
  unfold truncateError
  split
  · assumption
  · have hwalk := walkBack_le error.toList
      (min (MAX_ERROR_LEN - TRUNCATION_MARKER.utf8ByteSize) error.utf8ByteSize)
    have htake := takeBytes_size error.toList
      (walkBack error.toList
        (min (MAX_ERROR_LEN - TRUNCATION_MARKER.utf8ByteSize) error.utf8ByteSize))
    have hmarker : TRUNCATION_MARKER.utf8ByteSize ≤ MAX_ERROR_LEN := by decide
    simp only [String.utf8ByteSize_append]
    omega

/-- A text that fits is kept. -/
theorem truncateError_of_fits {error : String} (h : error.utf8ByteSize ≤ MAX_ERROR_LEN) :
    truncateError error = error := if_pos h

/-- Truncating twice is truncating once. -/
theorem truncateError_truncateError (error : String) :
    truncateError (truncateError error) = truncateError error :=
  truncateError_of_fits (truncateError_size error)

end Reliar.Outbox
