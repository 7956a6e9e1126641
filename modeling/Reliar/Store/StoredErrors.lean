/-
# `Reliar.Store.StoredErrors` — the error text of a row, whoever cuts it (`reliar-outbox`:
`record.rs`, `store.rs`; `reliar-store-postgres`: `records.rs`)

A text is cut up to four times on its way: when the failure or the poisoned row
is made, by the store that writes it, and by the record builder that reads it
back.  `Cut` says what the cut of a text is; it is one function of the text and
changes nothing that was cut before, so the layers agree.
-/
import Reliar.Outbox.ErrorText
import Reliar.Store.Memory
import Reliar.Store.Postgres

namespace Reliar.Store

open Reliar.Core Reliar.Outbox

/-- `stored` is `error` if it fits, and else its longest prefix that leaves room for the marker,
followed by the marker. -/
structure Cut (error stored : String) : Prop where
  bound : stored.utf8ByteSize ≤ MAX_ERROR_LEN
  fits : error.utf8ByteSize ≤ MAX_ERROR_LEN → stored = error
  longest : MAX_ERROR_LEN < error.utf8ByteSize →
    ∃ kept, stored = String.ofList kept ++ TRUNCATION_MARKER ∧ kept <+: error.toList ∧
      (String.ofList kept).utf8ByteSize ≤ MAX_ERROR_LEN - TRUNCATION_MARKER.utf8ByteSize ∧
      ∀ other, other <+: error.toList →
        (String.ofList other).utf8ByteSize ≤ MAX_ERROR_LEN - TRUNCATION_MARKER.utf8ByteSize →
          other <+: kept

theorem truncateError_cut (error : String) : Cut error (truncateError error) where
  bound := truncateError_size error
  fits := truncateError_of_fits
  longest := by
    intro hlong
    let budget := MAX_ERROR_LEN - TRUNCATION_MARKER.utf8ByteSize
    have hbudget : min budget error.utf8ByteSize = budget := by
      have hle : budget ≤ MAX_ERROR_LEN := Nat.sub_le _ _
      exact Nat.min_eq_left (hle.trans hlong.le)
    refine ⟨takeBytes error.toList (walkBack error.toList budget), ?_, takeBytes_isPrefix _ _, ?_, ?_⟩
    · rw [truncateError, if_neg (Nat.not_le_of_lt hlong)]
      show String.ofList (takeBytes _ (walkBack _ (min budget _))) ++ _ = _
      rw [hbudget]
    · rw [takeBytes_boundary (walkBack_boundary _ _)]
      exact walkBack_le _ _
    · intro other hother hfits
      exact cut_longest hother hfits

/-- There is one cut of a text. -/
theorem Cut.unique {error stored stored' : String} (h : Cut error stored)
    (h' : Cut error stored') : stored = stored' := by
  rcases Nat.lt_or_ge MAX_ERROR_LEN error.utf8ByteSize with hlong | hfits
  · obtain ⟨kept, rfl, hstart, hsize, hlongest⟩ := h.longest hlong
    obtain ⟨kept', rfl, hstart', hsize', hlongest'⟩ := h'.longest hlong
    have hle := hlongest' kept hstart hsize
    have hge := hlongest kept' hstart' hsize'
    rw [hle.eq_of_length_le hge.length_le]
  · rw [h.fits hfits, h'.fits hfits]

/-- A decoded record has the text of its row, cut. -/
theorem decodeRow_lastError {row : Row} {record : OutboxRecord} (h : decodeRow row = .ok record) :
    record.lastError = row.lastError.map truncateError := by
  rw [decodeRow] at h
  cases hrecord : decodeRecord row with
  | error fault =>
      rw [hrecord] at h
      cases h
  | ok record' =>
      rw [hrecord] at h
      cases h
      obtain ⟨envelope, -, hrest⟩ := bind_eq_ok hrecord
      obtain ⟨reason, -, hrest⟩ := bind_eq_ok hrest
      obtain ⟨lockedBy, -, hrest⟩ := bind_eq_ok hrest
      obtain ⟨attempts, -, hrest⟩ := bind_eq_ok hrest
      cases hrest
      rfl

/-- For every text: both functions give its cut, on a character boundary, and cutting again changes
nothing; so the failure, the poisoned row, the write of either store and the record read back hold
the same text. -/
theorem error_truncation (error : String) :
    truncateError error = Postgres.truncateLastError error ∧
    (∀ stored, Cut error stored ↔ stored = truncateError error) ∧
    (∀ offset, isCharBoundary error.toList (walkBack error.toList offset) = true) ∧
    truncateError (truncateError error) = truncateError error ∧
    (∀ message outcome, (FailedMessage.new message error outcome).error = truncateError error) ∧
    (∀ id sequence, (PoisonedRow.new id sequence error).error = Postgres.truncateLastError error) ∧
    (∀ now message outcome row,
      (Memory.failRow now (FailedMessage.new message error outcome) row).lastError =
        some (truncateError error)) ∧
    ∀ row record, row.lastError = some (truncateError error) → decodeRow row = .ok record →
      record.lastError = some (truncateError error) := by
  have htwice := truncateError_truncateError error
  refine ⟨rfl, ?_, walkBack_boundary _, htwice, fun _ _ => rfl, fun _ _ => rfl, ?_, ?_⟩
  · intro stored
    constructor
    · intro h
      exact h.unique (truncateError_cut error)
    · rintro rfl
      exact truncateError_cut error
  · intro now message outcome row
    have htext : (Memory.failRow now (FailedMessage.new message error outcome) row).lastError =
        some (truncateError (truncateError error)) := by
      cases outcome <;> rfl
    rw [htext, htwice]
  · intro row record htext hdecode
    rw [decodeRow_lastError hdecode, htext, Option.map_some, htwice]

end Reliar.Store
