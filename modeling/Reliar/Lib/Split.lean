/-
# `Reliar.Lib.Split` — separators: all of them, and the last

`List.splitOn` takes a list apart at every separator and `List.intercalate` puts
it together again; what is in a piece, and what is not, is said here.
`rsplitOnce` splits at the last occurrence of a separator of several elements,
as `str::rsplit_once` does.
-/
import Mathlib.Data.List.Infix

namespace Split

variable {α : Type} [DecidableEq α]

/-! ## At every separator -/

/-- No piece holds the separator. -/
theorem notMem_of_mem_splitOn {x : α} {xs token : List α} (h : token ∈ xs.splitOn x) :
    x ∉ token := by
  induction xs generalizing token with
  | nil =>
      rw [List.splitOn_nil, List.mem_singleton] at h
      rw [h]
      exact List.not_mem_nil
  | cons c xs ih =>
      rw [List.splitOn_cons_eq_if_modifyHead] at h
      split at h
      case isTrue =>
        rcases List.mem_cons.mp h with rfl | h
        · exact List.not_mem_nil
        · exact ih h
      case isFalse hne =>
        cases hrest : xs.splitOn x with
        | nil => exact absurd hrest (List.splitOn_ne_nil x xs)
        | cons head rest =>
            rw [hrest, List.modifyHead_cons] at h
            rcases List.mem_cons.mp h with rfl | h
            · intro hmem
              rcases List.mem_cons.mp hmem with rfl | hmem
              · exact hne (beq_self_eq_true x)
              · exact ih (hrest ▸ List.mem_cons_self) hmem
            · exact ih (hrest ▸ List.mem_cons_of_mem _ h)

omit [DecidableEq α] in
/-- The pieces put together: their elements, and the separator. -/
theorem mem_intercalate {x c : α} {tokens : List (List α)} (h : c ∈ [x].intercalate tokens) :
    c = x ∨ ∃ token ∈ tokens, c ∈ token := by
  induction tokens with
  | nil => cases h
  | cons token tokens ih =>
      cases tokens with
      | nil =>
          rw [List.intercalate_singleton] at h
          exact .inr ⟨token, List.mem_cons_self, h⟩
      | cons next tokens =>
          rw [List.intercalate_cons_cons] at h
          rcases List.mem_append.mp h with h | h
          · rcases List.mem_append.mp h with h | h
            · exact .inr ⟨token, List.mem_cons_self, h⟩
            · exact .inl (List.mem_singleton.mp h)
          · rcases ih h with h | ⟨token', htoken', h⟩
            · exact .inl h
            · exact .inr ⟨token', List.mem_cons_of_mem _ htoken', h⟩

omit [DecidableEq α] in
theorem mem_intercalate_of_mem {x c : α} {token : List α} {tokens : List (List α)}
    (htoken : token ∈ tokens) (hc : c ∈ token) : c ∈ [x].intercalate tokens := by
  induction tokens with
  | nil => cases htoken
  | cons head tokens ih =>
      cases tokens with
      | nil =>
          rw [List.mem_singleton.mp htoken] at hc
          rwa [List.intercalate_singleton]
      | cons next tokens =>
          rw [List.intercalate_cons_cons, List.append_assoc]
          rcases List.mem_cons.mp htoken with rfl | htoken
          · exact List.mem_append_left _ hc
          · exact List.mem_append_right _ (List.mem_append_right _ (ih htoken))

/-- A tail without a separator ends the last piece. -/
theorem exists_splitOn_suffix {x : α} (xs : List α) {tail : List α} (h : x ∉ tail) :
    ∃ token ∈ (xs ++ tail).splitOn x, tail <:+ token := by
  induction xs with
  | nil =>
      rw [List.nil_append, List.splitOn_eq_singleton h]
      exact ⟨tail, List.mem_singleton_self _, List.suffix_refl _⟩
  | cons c xs ih =>
      obtain ⟨token, htoken, hsuffix⟩ := ih
      rw [List.cons_append, List.splitOn_cons_eq_if_modifyHead]
      split
      case isTrue => exact ⟨token, List.mem_cons_of_mem _ htoken, hsuffix⟩
      case isFalse =>
        cases hrest : (xs ++ tail).splitOn x with
        | nil => exact absurd hrest (List.splitOn_ne_nil x _)
        | cons head rest =>
            rw [hrest] at htoken
            rw [List.modifyHead_cons]
            rcases List.mem_cons.mp htoken with rfl | htoken
            · exact ⟨_, List.mem_cons_self, hsuffix.trans (List.suffix_cons c _)⟩
            · exact ⟨token, List.mem_cons_of_mem _ htoken, hsuffix⟩

/-! ## At the last separator -/

/-- What stands before and after the last occurrence of `sep`. -/
def rsplitOnce (sep : List α) : List α → Option (List α × List α)
  | [] => none
  | c :: cs =>
      match rsplitOnce sep cs with
      | some (before, after) => some (c :: before, after)
      | none => if sep <+: c :: cs then some ([], (c :: cs).drop sep.length) else none

theorem rsplitOnce_some {sep cs before after : List α}
    (h : rsplitOnce sep cs = some (before, after)) : cs = before ++ sep ++ after := by
  induction cs generalizing before with
  | nil => cases h
  | cons c cs ih =>
      rw [rsplitOnce] at h
      split at h
      case h_1 before' after' hrest =>
        cases h
        rw [ih hrest]
        rfl
      case h_2 =>
        split at h
        case isTrue hstart =>
          cases h
          obtain ⟨rest, hrest⟩ := hstart
          rw [← hrest, List.drop_left, List.nil_append]
        case isFalse => cases h

theorem rsplitOnce_none {x : α} {sep cs : List α} (h : x ∉ cs) :
    rsplitOnce (x :: sep) cs = none := by
  induction cs with
  | nil => rfl
  | cons c cs ih =>
      have hne : x ≠ c := fun heq => h (heq ▸ List.mem_cons_self)
      rw [rsplitOnce, ih fun hmem => h (List.mem_cons_of_mem _ hmem)]
      exact if_neg fun hstart => hne (List.cons_prefix_cons.mp hstart).1

/-- The occurrence after which the separator's first element does not return is the last. -/
theorem rsplitOnce_append {x : α} {sep : List α} (before : List α) {after : List α}
    (h : x ∉ sep ++ after) :
    rsplitOnce (x :: sep) (before ++ (x :: sep) ++ after) = some (before, after) := by
  induction before with
  | nil =>
      rw [List.nil_append, List.cons_append, rsplitOnce, rsplitOnce_none h]
      show (if _ then _ else _) = _
      rw [if_pos (List.cons_prefix_cons.mpr ⟨rfl, List.prefix_append _ _⟩)]
      simp
  | cons c before ih =>
      rw [List.cons_append, List.cons_append, rsplitOnce, ih]

end Split
