/-
# `Reliar.Lib.Keyset` — paging by a growing key

A list with distinct keys is read page by page: the `limit` smallest elements
above the last key of the page before, until a page is not full.  One full page
takes exactly the first elements of what is left (`rest_of_full`), so the pages
end, and one after the other they are the sorted list (`exists_paged`).
-/
import Reliar.Lib.SortBy

namespace Keyset

variable {α γ : Type} [LinearOrder γ] (key : α → γ)

/-- Above the key of the page before; the first page has none before it. -/
def above (after : Option γ) (a : α) : Bool := after.all fun k => decide (k < key a)

/-- The elements above `after`, in order. -/
def sorted (l : List α) (after : Option γ) : List α :=
  (l.filter (above key after)).insertionSort fun a b => key a ≤ key b

def page (l : List α) (limit : Nat) (after : Option γ) : List α := (sorted key l after).take limit

/-- The key of the last element of a full page. -/
def cursor (limit : Nat) (p : List α) : Option γ :=
  if p.length = limit then p.getLast?.map key else none

/-- The pages from `after` on. -/
inductive Paged (l : List α) (limit : Nat) : Option γ → List (List α) → Prop
  | last {after : Option γ} : cursor key limit (page key l limit after) = none →
      Paged l limit after [page key l limit after]
  | next {after : Option γ} {k : γ} {pages : List (List α)} :
      cursor key limit (page key l limit after) = some k → Paged l limit (some k) pages →
      Paged l limit after (page key l limit after :: pages)

variable {key}

theorem mem_sorted {l : List α} {after : Option γ} {a : α} :
    a ∈ sorted key l after ↔ a ∈ l ∧ above key after a = true := by
  rw [sorted, List.mem_insertionSort, List.mem_filter]

theorem sorted_perm (l : List α) (after : Option γ) :
    (sorted key l after).Perm (l.filter (above key after)) := List.perm_insertionSort _ _

theorem length_sorted (l : List α) (after : Option γ) :
    (sorted key l after).length = (l.filter (above key after)).length :=
  (sorted_perm l after).length_eq

/-- Distinct keys are sorted strictly. -/
theorem sorted_strict {l : List α} (hnd : (l.map key).Nodup) (after : Option γ) :
    (sorted key l after).Pairwise fun a b => key a < key b := by
  have hle := SortBy.pairwise (r := fun a b => key a ≤ key b) (f := key) (fun _ _ => Iff.rfl)
    (l.filter (above key after))
  have hne : (sorted key l after).Pairwise fun a b => key a ≠ key b := by
    refine List.pairwise_map.mp ?_
    refine ((sorted_perm l after).map key).nodup_iff.mpr ?_
    exact hnd.sublist (List.filter_sublist.map key)
  exact hle.imp₂ (fun _ _ hab hne => lt_of_le_of_ne hab hne) hne

theorem eq_of_strict {l l' : List α} (hp : l.Perm l') (h : l.Pairwise fun a b => key a < key b)
    (h' : l'.Pairwise fun a b => key a < key b) : l = l' :=
  hp.eq_of_pairwise (fun _ _ _ _ hab hba => absurd hba (lt_asymm hab)) h h'

/-- After a full page there is left what it did not take. -/
theorem rest_of_full {l : List α} (hnd : (l.map key).Nodup) {limit : Nat} {after : Option γ} {k : γ}
    (hk : cursor key limit (page key l limit after) = some k) :
    sorted key l (some k) = (sorted key l after).drop limit := by
  have hstrict := sorted_strict hnd after
  have hsplit : page key l limit after ++ (sorted key l after).drop limit = sorted key l after :=
    List.take_append_drop limit _
  obtain ⟨x, hx, rfl⟩ : ∃ x, (page key l limit after).getLast? = some x ∧ key x = k := by
    simp only [cursor] at hk
    split at hk
    · exact Option.map_eq_some_iff.mp hk
    · cases hk
  have hpage : (page key l limit after).Pairwise fun a b => key a < key b :=
    hstrict.sublist (List.take_sublist _ _)
  have hdrop : ((sorted key l after).drop limit).Pairwise fun a b => key a < key b :=
    hstrict.sublist (List.drop_sublist _ _)
  have hbetween : ∀ a ∈ page key l limit after, ∀ b ∈ (sorted key l after).drop limit,
      key a < key b := by
    rw [← hsplit] at hstrict
    exact (List.pairwise_append.mp hstrict).2.2
  -- the last of a page is its largest
  have hlargest : ∀ a ∈ page key l limit after, key a ≤ key x := by
    obtain ⟨init, hinit⟩ := List.getLast?_eq_some_iff.mp hx
    rw [hinit] at hpage ⊢
    intro a ha
    rcases List.mem_append.mp ha with ha | ha
    · exact ((List.pairwise_append.mp hpage).2.2 a ha x (List.mem_singleton_self x)).le
    · rw [List.mem_singleton.mp ha]
  have hxmem : x ∈ page key l limit after := List.mem_of_getLast? hx
  refine eq_of_strict ?_ (sorted_strict hnd _) hdrop
  have hnodup : ∀ {l' : List α}, (l'.Pairwise fun a b => key a < key b) → l'.Nodup := fun h =>
    h.imp fun hab heq => absurd (congrArg key heq) hab.ne
  refine (List.perm_ext_iff_of_nodup (hnodup (sorted_strict hnd _)) (hnodup hdrop)).mpr fun a => ?_
  rw [mem_sorted]
  constructor
  · rintro ⟨ha, habove⟩
    have hlt : key x < key a := of_decide_eq_true habove
    have hafter : above key after a = true := by
      have hxafter : above key after x = true :=
        (mem_sorted.mp (List.mem_of_mem_take hxmem)).2
      cases after with
      | none => rfl
      | some k => exact decide_eq_true (lt_trans (of_decide_eq_true hxafter) hlt)
    have hmem : a ∈ sorted key l after := mem_sorted.mpr ⟨ha, hafter⟩
    rw [← hsplit] at hmem
    rcases List.mem_append.mp hmem with hmem | hmem
    · exact absurd (hlargest a hmem) (not_le_of_gt hlt)
    · exact hmem
  · intro ha
    have hmem := List.mem_of_mem_drop ha
    exact ⟨(mem_sorted.mp hmem).1, decide_eq_true (hbetween x hxmem a ha)⟩

/-- A page without a cursor is the last: it takes everything. -/
theorem page_of_not_full {l : List α} {limit : Nat} {after : Option γ} (hlimit : 1 ≤ limit)
    (h : cursor key limit (page key l limit after) = none) :
    page key l limit after = sorted key l after := by
  refine List.take_of_length_le ?_
  by_contra hlong
  have hlength : (page key l limit after).length = limit := by
    rw [page, List.length_take]
    omega
  simp only [cursor, hlength, if_true, Option.map_eq_none_iff, List.getLast?_eq_none_iff] at h
  rw [h, List.length_nil] at hlength
  omega

/-- The pages end, and together they are the list in order. -/
theorem exists_paged {l : List α} (hnd : (l.map key).Nodup) {limit : Nat} (hlimit : 1 ≤ limit)
    (after : Option γ) :
    ∃ pages, Paged key l limit after pages ∧ pages.flatten = sorted key l after := by
  -- each full page leaves less
  induction hn : (sorted key l after).length using Nat.strong_induction_on generalizing after with
  | _ n ih =>
      cases hcursor : cursor key limit (page key l limit after) with
      | none =>
          refine ⟨_, .last hcursor, ?_⟩
          rw [List.flatten_singleton]
          exact page_of_not_full hlimit hcursor
      | some k =>
          have hrest := rest_of_full hnd hcursor
          have hfull : limit ≤ (sorted key l after).length := by
            by_contra hshort
            have hlength : (page key l limit after).length ≠ limit := by
              rw [page, List.length_take]
              omega
            rw [cursor, if_neg hlength] at hcursor
            cases hcursor
          have hless : (sorted key l (some k)).length < n := by
            rw [hrest, List.length_drop]
            omega
          obtain ⟨pages, hpaged, hflatten⟩ := ih _ hless (some k) rfl
          refine ⟨_, .next hcursor hpaged, ?_⟩
          rw [List.flatten_cons, hflatten, hrest]
          exact List.take_append_drop limit _

end Keyset
