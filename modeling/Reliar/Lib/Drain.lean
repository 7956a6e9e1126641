/-
# `Reliar.Lib.Drain` — bounded passes, repeated until none is cut short

A pass settles at most `n` of the elements its rule finds due, and all of them if
it settles fewer (`Pass`).  Which ones it takes is free.  As long as what is
settled is not due again, the order of the rules and the choices do not matter:
every element ends as `final` says, and each pass leaves less to do by as many as
it counted.

`Ends` is the loop around such a call, whatever the call chooses: it is defined
by induction, so a loop that ends has a last call on every path.
-/
import Mathlib.Algebra.BigOperators.Group.List.Basic
import Mathlib.Algebra.GroupWithZero.Nat
import Mathlib.Data.List.Basic
import Mathlib.Data.List.Count
import Mathlib.Data.List.Nodup

namespace Drain

/-! ## Passes -/

/-- What is due, and what becomes of it; `none` is deletion. -/
structure Rule (α : Type) where
  due : α → Bool
  settle : α → Option α

section
variable {α : Type}

inductive Pass (rule : Rule α) (n : Nat) (rows : List α) : Nat → List α → Prop
  | take (taken : α → Bool) : (∀ r ∈ rows, taken r = true → rule.due r = true) →
      rows.countP taken ≤ n →
      (rows.countP taken < n → ∀ r ∈ rows, rule.due r = true → taken r = true) →
      Pass rule n rows (rows.countP taken)
        (rows.filterMap fun r => if taken r then rule.settle r else some r)

/-- One pass for each rule. -/
inductive Passes (n : Nat) : List (Rule α) → List α → List Nat → List α → Prop
  | nil (rows : List α) : Passes n [] rows [] rows
  | cons {rule : Rule α} {rules : List (Rule α)} {rows rows₁ rows' : List α} {count : Nat}
      {counts : List Nat} : Pass rule n rows count rows₁ → Passes n rules rows₁ counts rows' →
      Passes n (rule :: rules) rows (count :: counts) rows'

def anyDue (rules : List (Rule α)) (r : α) : Bool := rules.any fun rule => rule.due r

/-- What the rules make of an element in the end. -/
def final (rules : List (Rule α)) (r : α) : Option α :=
  match rules.find? fun rule => rule.due r with
  | none => some r
  | some rule => rule.settle r

/-- Rules that agree where they overlap, and that leave nothing due behind. -/
structure Consistent (rules : List (Rule α)) : Prop where
  agree : ∀ rule ∈ rules, ∀ rule' ∈ rules, ∀ r, rule.due r = true → rule'.due r = true →
    rule.settle r = rule'.settle r
  settled : ∀ rule ∈ rules, ∀ r r', rule.due r = true → rule.settle r = some r' →
    anyDue rules r' = false

variable {rules : List (Rule α)} {rule : Rule α} {n k : Nat} {rows rows' : List α}

theorem final_of_not_due {r : α} (h : anyDue rules r = false) : final rules r = some r := by
  have hnone : rules.find? (fun rule => rule.due r) = none := by
    rw [List.find?_eq_none]
    exact fun rule hrule => List.any_eq_false.mp h rule hrule
  rw [final, hnone]

theorem final_of_due (h : Consistent rules) (hrule : rule ∈ rules) {r : α}
    (hdue : rule.due r = true) : final rules r = rule.settle r := by
  cases hfind : rules.find? (fun rule => rule.due r) with
  | none => exact absurd hdue (List.find?_eq_none.mp hfind rule hrule)
  | some rule' =>
      have hdue' := List.find?_some hfind
      rw [final, hfind]
      exact h.agree rule' (List.mem_of_find?_eq_some hfind) rule hrule r hdue' hdue

theorem anyDue_of_mem (hrule : rule ∈ rules) {r : α} (hdue : rule.due r = true) :
    anyDue rules r = true := List.any_eq_true.mpr ⟨rule, hrule, hdue⟩

/-- A pass brings no element off its way. -/
theorem Pass.final (hp : Pass rule n rows k rows') (h : Consistent rules)
    (hrule : rule ∈ rules) : rows'.filterMap (final rules) = rows.filterMap (final rules) := by
  obtain ⟨taken, hdue, -, -⟩ := hp
  rw [List.filterMap_filterMap]
  refine List.filterMap_congr fun r hr => ?_
  by_cases ht : taken r = true
  · rw [if_pos ht, final_of_due h hrule (hdue r hr ht)]
    cases hsettle : rule.settle r with
    | none => rfl
    | some r' => exact final_of_not_due (h.settled rule hrule r r' (hdue r hr ht) hsettle)
  · rw [if_neg ht, Option.bind_some]

theorem countP_filterMap_add {p taken : α → Bool} {f : α → Option α} {rows : List α}
    (htaken : ∀ r ∈ rows, taken r = true → p r = true ∧ ∀ r', f r = some r' → p r' = false)
    (hkept : ∀ r ∈ rows, taken r = false → f r = some r) :
    (rows.filterMap f).countP p + rows.countP taken = rows.countP p := by
  induction rows with
  | nil => rfl
  | cons r rows ih =>
      rw [List.forall_mem_cons] at htaken hkept
      have hrest := ih htaken.2 hkept.2
      cases ht : taken r with
      | false =>
          rw [List.filterMap_cons_some (hkept.1 ht), List.countP_cons, List.countP_cons,
            List.countP_cons, ht]
          simp only [Bool.false_eq_true, if_false]
          omega
      | true =>
          obtain ⟨hp, hout⟩ := htaken.1 ht
          rw [List.countP_cons, List.countP_cons, ht, hp]
          cases hf : f r with
          | none =>
              rw [List.filterMap_cons_none hf]
              simp only [if_true]
              omega
          | some r' =>
              rw [List.filterMap_cons_some hf, List.countP_cons, hout r' hf]
              simp only [if_true, Bool.false_eq_true, if_false]
              omega

/-- What a pass counts is no longer due. -/
theorem Pass.add_anyDue (hp : Pass rule n rows k rows') (h : Consistent rules)
    (hrule : rule ∈ rules) :
    rows'.countP (anyDue rules) + k = rows.countP (anyDue rules) := by
  obtain ⟨taken, hdue, -, -⟩ := hp
  refine countP_filterMap_add ?_ ?_
  · intro r hr ht
    refine ⟨anyDue_of_mem hrule (hdue r hr ht), fun r' hr' => ?_⟩
    rw [if_pos ht] at hr'
    exact h.settled rule hrule r r' (hdue r hr ht) hr'
  · intro r hr ht
    rw [ht]
    rfl

theorem Pass.le (hp : Pass rule n rows k rows') : k ≤ n := by
  obtain ⟨taken, -, hle, -⟩ := hp
  exact hle

/-- What is left was there, or has been settled. -/
theorem Pass.mem (hp : Pass rule n rows k rows') (h : Consistent rules) (hrule : rule ∈ rules)
    {r' : α} (hr' : r' ∈ rows') : r' ∈ rows ∨ anyDue rules r' = false := by
  obtain ⟨taken, hdue, -, -⟩ := hp
  obtain ⟨r, hr, heq⟩ := List.mem_filterMap.mp hr'
  by_cases ht : taken r = true
  · rw [if_pos ht] at heq
    exact .inr (h.settled rule hrule r r' (hdue r hr ht) heq)
  · rw [if_neg ht] at heq
    cases heq
    exact .inl hr

/-- A pass that is not cut short leaves nothing to its rule. -/
theorem Pass.exhausted (hp : Pass rule n rows k rows') (h : Consistent rules)
    (hrule : rule ∈ rules) (hlt : k < n) : ∀ r' ∈ rows', rule.due r' = false := by
  obtain ⟨taken, hdue, -, hall⟩ := hp
  intro r' hr'
  obtain ⟨r, hr, heq⟩ := List.mem_filterMap.mp hr'
  by_cases ht : taken r = true
  · rw [if_pos ht] at heq
    have hnot := h.settled rule hrule r r' (hdue r hr ht) heq
    exact Bool.eq_false_iff.mpr (List.any_eq_false.mp hnot rule hrule)
  · rw [if_neg ht] at heq
    cases heq
    exact Bool.eq_false_iff.mpr fun hd => ht (hall hlt _ hr hd)

/-- Passes may be made one by one. -/
theorem Passes.append {rules' : List (Rule α)} {rows₁ : List α} {counts counts' : List Nat}
    (hp : Passes n rules rows counts rows₁) (hp' : Passes n rules' rows₁ counts' rows') :
    Passes n (rules ++ rules') rows (counts ++ counts') rows' := by
  induction hp with
  | nil rows => exact hp'
  | cons hpass _ ih => exact .cons hpass (ih hp')

variable {some' : List (Rule α)} {counts : List Nat}

theorem Passes.final (hp : Passes n some' rows counts rows') (h : Consistent rules)
    (hsub : some' ⊆ rules) : rows'.filterMap (final rules) = rows.filterMap (final rules) := by
  induction hp with
  | nil rows => rfl
  | cons hpass _ ih =>
      obtain ⟨hrule, hsub⟩ := List.cons_subset.mp hsub
      rw [ih hsub, hpass.final h hrule]

theorem Passes.add_anyDue (hp : Passes n some' rows counts rows') (h : Consistent rules)
    (hsub : some' ⊆ rules) :
    rows'.countP (anyDue rules) + counts.sum = rows.countP (anyDue rules) := by
  induction hp with
  | nil rows => rfl
  | cons hpass _ ih =>
      obtain ⟨hrule, hsub⟩ := List.cons_subset.mp hsub
      have hfirst := hpass.add_anyDue h hrule
      have hrest := ih hsub
      rw [List.sum_cons]
      omega

theorem Passes.le (hp : Passes n some' rows counts rows') : ∀ c ∈ counts, c ≤ n := by
  induction hp with
  | nil rows => exact fun c hc => absurd hc List.not_mem_nil
  | cons hpass _ ih => exact List.forall_mem_cons.mpr ⟨hpass.le, ih⟩

theorem Passes.mem (hp : Passes n some' rows counts rows') (h : Consistent rules)
    (hsub : some' ⊆ rules) {r' : α} (hr' : r' ∈ rows') : r' ∈ rows ∨ anyDue rules r' = false := by
  induction hp with
  | nil rows => exact .inl hr'
  | cons hpass _ ih =>
      obtain ⟨hrule, hsub⟩ := List.cons_subset.mp hsub
      rcases ih hsub hr' with hr' | hr'
      · exact hpass.mem h hrule hr'
      · exact .inr hr'

/-- If none is cut short, nothing is left. -/
theorem Passes.exhausted (hp : Passes n some' rows counts rows') (h : Consistent rules)
    (hsub : some' ⊆ rules) (hlt : ∀ c ∈ counts, c < n) :
    ∀ rule ∈ some', ∀ r' ∈ rows', rule.due r' = false := by
  induction hp with
  | nil rows => exact fun rule hrule => absurd hrule List.not_mem_nil
  | cons hpass hrest ih =>
      obtain ⟨hrule, hsub⟩ := List.cons_subset.mp hsub
      obtain ⟨hfirst, hlt⟩ := List.forall_mem_cons.mp hlt
      refine List.forall_mem_cons.mpr ⟨fun r' hr' => ?_, ih hsub hlt⟩
      rcases hrest.mem h hsub hr' with hr' | hnot
      · exact hpass.exhausted h hrule hfirst r' hr'
      · exact Bool.eq_false_iff.mpr (List.any_eq_false.mp hnot _ hrule)

/-- What the rules leave is not due. -/
theorem final_settled (h : Consistent rules) {r r' : α} (hfinal : Drain.final rules r = some r') :
    anyDue rules r' = false := by
  cases hdue : anyDue rules r with
  | false =>
      rw [final_of_not_due hdue] at hfinal
      cases hfinal
      exact hdue
  | true =>
      obtain ⟨rule, hrule, hdue⟩ := List.any_eq_true.mp hdue
      rw [final_of_due h hrule hdue] at hfinal
      exact h.settled rule hrule r r' hdue hfinal

/-- A rule that finds nothing makes a pass of nothing. -/
theorem pass_idle (n : Nat) (rows : List α) (hidle : ∀ r, rule.due r = false) :
    Pass rule n rows 0 rows := by
  have hzero : rows.countP (fun _ => false) = 0 := List.countP_eq_zero.mpr fun _ _ => by simp
  have hpass : Pass rule n rows (rows.countP fun _ => false)
      (rows.filterMap fun r => if false = true then rule.settle r else some r) := by
    refine .take (fun _ => false) (fun _ _ ht => absurd ht Bool.false_ne_true) ?_ ?_
    · rw [hzero]
      exact Nat.zero_le n
    · intro _ r _ hdue
      rw [hidle r] at hdue
      exact hdue
  rw [hzero] at hpass
  simpa using hpass

/-- What every settling keeps, the passes keep. -/
theorem Passes.all {P : α → Prop} (hp : Passes n some' rows counts rows')
    (hsettle : ∀ rule ∈ some', ∀ r r', rule.due r = true → rule.settle r = some r' → P r → P r')
    (hrows : ∀ r ∈ rows, P r) : ∀ r' ∈ rows', P r' := by
  induction hp with
  | nil rows => exact hrows
  | cons hpass _ ih =>
      obtain ⟨hfirst, hsettle⟩ := List.forall_mem_cons.mp hsettle
      obtain ⟨taken, hdue, -, -⟩ := hpass
      refine ih hsettle fun r' hr' => ?_
      obtain ⟨r, hr, heq⟩ := List.mem_filterMap.mp hr'
      by_cases ht : taken r = true
      · rw [if_pos ht] at heq
        exact hfirst r r' (hdue r hr ht) heq (hrows r hr)
      · rw [if_neg ht] at heq
        cases heq
        exact hrows _ hr

theorem map_filterMap_sublist {β : Type} {key : α → β} {f : α → Option α}
    (hf : ∀ r r', f r = some r' → key r' = key r) (rows : List α) :
    ((rows.filterMap f).map key).Sublist (rows.map key) := by
  induction rows with
  | nil => exact .slnil
  | cons r rows ih =>
      cases hr : f r with
      | none =>
          rw [List.filterMap_cons_none hr]
          exact ih.cons _
      | some r' =>
          rw [List.filterMap_cons_some hr, List.map_cons, List.map_cons, hf r r' hr]
          exact ih.cons_cons _

theorem Passes.keys {β : Type} {key : α → β} (hp : Passes n some' rows counts rows')
    (hsettle : ∀ rule ∈ some', ∀ r r', rule.settle r = some r' → key r' = key r) :
    (rows'.map key).Sublist (rows.map key) := by
  induction hp with
  | nil rows => exact List.Sublist.refl _
  | cons hpass _ ih =>
      obtain ⟨hfirst, hsettle⟩ := List.forall_mem_cons.mp hsettle
      obtain ⟨taken, -, -, -⟩ := hpass
      refine (ih hsettle).trans (map_filterMap_sublist (fun r r' heq => ?_) _)
      by_cases ht : taken r = true
      · rw [if_pos ht] at heq
        exact hfirst r r' heq
      · rw [if_neg ht] at heq
        cases heq
        rfl

/-- Where no key is used twice, equal results come from equal elements. -/
theorem eq_of_filterMap_eq {β : Type} (key : α → β) {f g : α → Option α} {rows : List α}
    (hnd : (rows.map key).Nodup) (hf : ∀ r r', f r = some r' → key r' = key r)
    (hg : ∀ r r', g r = some r' → key r' = key r) (h : rows.filterMap f = rows.filterMap g) :
    ∀ r ∈ rows, f r = g r := by
  have honly : ∀ {f : α → Option α}, (∀ r r', f r = some r' → key r' = key r) → ∀ r ∈ rows,
      ∀ r' ∈ rows.filterMap f, key r' = key r → f r = some r' := by
    intro f hf r hr r' hr' hkey
    obtain ⟨x, hx, hfx⟩ := List.mem_filterMap.mp hr'
    have hsame : x = r := List.inj_on_of_nodup_map hnd hx hr ((hf x r' hfx).symm.trans hkey)
    rwa [hsame] at hfx
  intro r hr
  cases hfr : f r with
  | some r' =>
      have hr' : r' ∈ rows.filterMap g := h ▸ List.mem_filterMap.mpr ⟨r, hr, hfr⟩
      exact (honly hg r hr r' hr' (hf r r' hfr)).symm
  | none =>
      cases hgr : g r with
      | none => rfl
      | some r' =>
          have hr' : r' ∈ rows.filterMap f := h ▸ List.mem_filterMap.mpr ⟨r, hr, hgr⟩
          rw [honly hf r hr r' hr' (hg r r' hgr)] at hfr
          cases hfr

/-- Passes keep what none of their rules finds due. -/
theorem Passes.keeps (hp : Passes n some' rows counts rows') {r : α} (hr : r ∈ rows)
    (hnone : ∀ rule ∈ some', rule.due r = false) : r ∈ rows' := by
  induction hp with
  | nil rows => exact hr
  | cons hpass _ ih =>
      obtain ⟨hfirst, hnone⟩ := List.forall_mem_cons.mp hnone
      obtain ⟨taken, hdue, -, -⟩ := hpass
      refine ih (List.mem_filterMap.mpr ⟨r, hr, if_neg fun ht => ?_⟩) hnone
      rw [hdue r hr ht] at hfirst
      cases hfirst

/-- Of a kind that one rule alone takes, at most `n` elements are touched. -/
theorem Passes.touched {kind : α → Bool} {before after : List (Rule α)}
    (hp : Passes n (before ++ rule :: after) rows counts rows')
    (hothers : ∀ rule' ∈ before ++ after, ∀ r, rule'.due r = true → kind r = false) :
    ∃ taken : α → Bool, rows.countP (fun r => kind r && taken r) ≤ n ∧
      ∀ r ∈ rows, kind r = true → taken r = false → r ∈ rows' := by
  have hfree : ∀ rule' ∈ before ++ after, ∀ r, kind r = true → rule'.due r = false := by
    intro rule' hrule' r hkind
    rw [Bool.eq_false_iff]
    intro hdue
    rw [hothers rule' hrule' r hdue] at hkind
    cases hkind
  induction before generalizing rows counts with
  | nil =>
      cases hp with
      | cons hpass hrest =>
          obtain ⟨taken, -, hle, -⟩ := hpass
          refine ⟨taken, Nat.le_trans (List.countP_mono_left fun r _ h => ?_) hle, ?_⟩
          · rw [Bool.and_eq_true] at h
            exact h.2
          · intro r hr hkind ht
            refine hrest.keeps (List.mem_filterMap.mpr ⟨r, hr, ?_⟩) fun rule' h => hfree rule' h r hkind
            rw [ht]
            rfl
  | cons rule₀ before ih =>
      rw [List.cons_append] at hp hothers hfree
      rw [List.forall_mem_cons] at hothers hfree
      cases hp with
      | cons hpass hrest =>
          obtain ⟨taken₀, hdue, -, -⟩ := hpass
          obtain ⟨taken, hle, hkept⟩ := ih hrest hothers.2 hfree.2
          have hstays : ∀ r ∈ rows, kind r = true → taken₀ r = false := by
            intro r hr hkind
            rw [Bool.eq_false_iff]
            intro ht
            have hnot := hfree.1 r hkind
            rw [hdue r hr ht] at hnot
            cases hnot
          refine ⟨taken, Nat.le_trans ?_ hle, ?_⟩
          · -- the elements of this kind go through the first pass as they are
            rw [List.countP_filterMap]
            refine List.countP_mono_left fun r hr h => ?_
            rw [Bool.and_eq_true] at h
            rw [hstays r hr h.1]
            simp only [Bool.false_eq_true, if_false, Option.map_some, Option.getD_some, h.1, h.2,
              Bool.and_self]
          · intro r hr hkind ht
            refine hkept r (List.mem_filterMap.mpr ⟨r, hr, ?_⟩) hkind ht
            rw [hstays r hr hkind]
            rfl

theorem filterMap_final_of_none (hnone : ∀ rule ∈ rules, ∀ r ∈ rows, rule.due r = false) :
    rows.filterMap (Drain.final rules) = rows := by
  have hid : ∀ r ∈ rows, Drain.final rules r = some r := fun r hr =>
    final_of_not_due (List.any_eq_false.mpr fun rule hrule =>
      Bool.eq_false_iff.mp (hnone rule hrule r hr))
  rw [List.filterMap_congr hid, List.filterMap_some]

/-- A pass may take the first that are due. -/
theorem pass_first {β : Type} [DecidableEq β] (key : α → β) (rule : Rule α) (n : Nat)
    {rows : List α} (hnd : (rows.map key).Nodup) :
    Pass rule n rows ((rows.filter rule.due).take n).length
      (rows.filterMap fun r =>
        if decide (key r ∈ ((rows.filter rule.due).take n).map key) then rule.settle r
        else some r) := by
  have hfirst : ∀ r ∈ (rows.filter rule.due).take n, r ∈ rows ∧ rule.due r = true := fun r hr =>
    List.mem_filter.mp (List.mem_of_mem_take hr)
  have hmem : ∀ r ∈ rows, decide (key r ∈ ((rows.filter rule.due).take n).map key) = true ↔
      r ∈ (rows.filter rule.due).take n := by
    intro r hr
    rw [decide_eq_true_eq]
    refine ⟨fun h => ?_, fun h => List.mem_map_of_mem h⟩
    obtain ⟨x, hx, heq⟩ := List.mem_map.mp h
    rw [← List.inj_on_of_nodup_map hnd (hfirst x hx).1 hr heq]
    exact hx
  have hnodup : rows.Nodup := List.Nodup.of_map _ hnd
  have hperm : (rows.filter fun r => decide (key r ∈ ((rows.filter rule.due).take n).map key)).Perm
      ((rows.filter rule.due).take n) := by
    refine (List.perm_ext_iff_of_nodup (hnodup.filter _)
      ((hnodup.filter _).sublist (List.take_sublist _ _))).mpr fun r => ?_
    rw [List.mem_filter]
    exact ⟨fun h => (hmem r h.1).mp h.2, fun h => ⟨(hfirst r h).1, (hmem r (hfirst r h).1).mpr h⟩⟩
  have hcount : rows.countP (fun r => decide (key r ∈ ((rows.filter rule.due).take n).map key)) =
      ((rows.filter rule.due).take n).length := by
    rw [List.countP_eq_length_filter, hperm.length_eq]
  rw [← hcount]
  refine .take _ (fun r hr ht => (hfirst r ((hmem r hr).mp ht)).2) ?_ ?_
  · rw [hcount, List.length_take]
    exact Nat.min_le_left _ _
  · intro hlt r hr hdue
    rw [hcount, List.length_take] at hlt
    rw [hmem r hr, List.take_of_length_le (by omega)]
    exact List.mem_filter.mpr ⟨hr, hdue⟩

end

/-! ## The loop -/

/-- A loop around `call` while the report is not complete, whatever `call` chooses: no call fails,
each keeps its bounds, and the last leaves what it should. -/
inductive Ends {S R : Type} (call : S → R → S → Prop) (fails : S → Prop) (complete : R → Bool)
    (bounded : S → S → Prop) (target : S → Prop) : S → Prop
  | call {s : S} : ¬ fails s → (∃ report s', call s report s') →
      (∀ report s', call s report s' → bounded s s') →
      (∀ report s', call s report s' → complete report = true → target s') →
      (∀ report s', call s report s' → complete report = false →
        Ends call fails complete bounded target s') →
      Ends call fails complete bounded target s

section
variable {S R : Type} {call : S → R → S → Prop} {fails : S → Prop} {complete : R → Bool}
  {bounded : S → S → Prop} {target target' : S → Prop}

/-- Some state is the last. -/
theorem Ends.common {s : S} (h : Ends call fails complete bounded target s)
    (h' : Ends call fails complete bounded target' s) : ∃ s', target s' ∧ target' s' := by
  induction h with
  | @call s _ hcall _ hlast _ ih =>
      cases h' with
      | call _ _ _ hlast' hnext' =>
          obtain ⟨report, s', hstep⟩ := hcall
          cases hdone : complete report with
          | true => exact ⟨s', hlast report s' hstep hdone, hlast' report s' hstep hdone⟩
          | false => exact ih report s' hstep hdone (hnext' report s' hstep hdone)

theorem Ends.mono {s : S} (h : Ends call fails complete bounded target s)
    (htarget : ∀ s', target s' → target' s') : Ends call fails complete bounded target' s := by
  induction h with
  | call hfails hcall hbounded hlast _ ih =>
      exact .call hfails hcall hbounded
        (fun report s' hstep hdone => htarget s' (hlast report s' hstep hdone)) ih

/-- A loop whose report is never complete does not end. -/
theorem not_ends_of_incomplete {s : S} (hnever : ∀ s report s', call s report s' →
    complete report = false) : ¬ Ends call fails complete bounded target s := by
  intro h
  induction h with
  | @call s _ hcall _ _ _ ih =>
      obtain ⟨report, s', hstep⟩ := hcall
      exact ih report s' hstep (hnever s report s' hstep)

/-- A loop ends if every call that is not the last leaves less to do. -/
theorem ends_of_measure {I : S → Prop} (μ : S → Nat) (hfails : ∀ s, I s → ¬ fails s)
    (hcall : ∀ s, I s → ∃ report s', call s report s')
    (hstep : ∀ s report s', I s → call s report s' → bounded s s' ∧ I s' ∧
      (complete report = true → target s') ∧ (complete report = false → μ s' < μ s)) {s : S}
    (h : I s) : Ends call fails complete bounded target s := by
  induction hn : μ s using Nat.strongRecOn generalizing s with
  | _ n ih =>
      refine .call (hfails s h) (hcall s h) ?_ ?_ ?_
      · exact fun report s' hs' => (hstep s report s' h hs').1
      · exact fun report s' hs' => (hstep s report s' h hs').2.2.1
      · intro report s' hs' hnot
        obtain ⟨-, hI, -, hless⟩ := hstep s report s' h hs'
        exact ih _ (hn ▸ hless hnot) hI rfl

end

end Drain
