/-
# `Reliar.Store.Claim` — the rows a claim takes (`reliar-store-postgres`: `store.rs`,
`claim_rows`)

`SKIP LOCKED` aside, the subselect of the claim has an order: of the rows that
qualify it takes the first by `(available_at, sequence)` (`claimRows`).  On a
table nobody else writes, every choice PostgreSQL can make is that one
(`claim_targets_perm`), and what the statement returns is what it left of those rows
(`returnedRows_eq`).
-/
import Reliar.Lib.SortBy
import Reliar.Store.Healthy
import Reliar.Store.Fetch
import Mathlib.Data.Prod.Lex

namespace Reliar.Store.Postgres

open Reliar.Core Reliar.Outbox

section
variable {rows rows' : List Row} {stmt : Stmt} {now : Timestamp} {choice : Choice}

theorem inner_of_target (hnd : (rows.map Row.sequence).Nodup) (h : choice.Valid now rows stmt)
    {r : Row} (hr : r ∈ rows) (htarget : r.sequence ∈ choice.targets) :
    stmt.inner now r = true := by
  have hpick := h.pick
  simp only [Stmt.pick, Bool.and_eq_true, List.all_eq_true, List.any_eq_true, beq_iff_eq] at hpick
  obtain ⟨x, hx, hseq, hinner⟩ := hpick.1.2 r.sequence htarget
  rw [← List.inj_on_of_nodup_map hnd hx hr hseq]
  exact hinner

/-- Under a `LIMIT` any rows that qualify may be the targets, as many as there are or as it
allows. -/
theorem full_of_targets {targets : List Int} {n : Int} (hnd : targets.Nodup)
    (hinner : ∀ q ∈ targets, ∃ r ∈ rows, r.sequence = q ∧ stmt.inner now r = true)
    (hpicks : ∀ i r, stmt.picks i r = true) (hlimit : stmt.limit = some n)
    (hlength : (targets.length : Int) ≤ n)
    (hfull : ∀ r ∈ rows, stmt.inner now r = true → r.sequence ∉ targets →
      n ≤ targets.length ∧
        ∀ r' ∈ rows, r'.sequence ∈ targets → stmt.ordered r' r = true) :
    (⟨targets, fun _ => 0⟩ : Choice).Full now rows stmt := by
  refine ⟨⟨?_, fun r _ _ => hpicks 0 r⟩, ?_⟩
  · simp only [Stmt.pick, hlimit, Bool.and_eq_true, decide_eq_true_eq, List.all_eq_true,
      List.any_eq_true, beq_iff_eq]
    refine ⟨⟨hnd, fun q hq => ?_⟩, hlength⟩
    obtain ⟨r, hr, hseq, hinner⟩ := hinner q hq
    exact ⟨r, hr, hseq, hinner⟩
  · intro r hr hinner hnot
    obtain ⟨hle, hordered⟩ := hfull r hr hinner hnot
    exact ⟨⟨n, hlimit, hle⟩, hordered⟩

end

theorem Stmt.onRow_keeps {stmt : Stmt} {now : Timestamp} {choice : Choice} {r : Row}
    (h : stmt.deletes = false) : stmt.onRow now choice r ≠ .ok none := by
  intro hrow
  simp only [Stmt.onRow] at hrow
  split at hrow
  · split at hrow
    · cases hrow
    · cases hrow
    · cases hrow
    · rename_i htouch
      cases touch_delete htouch <;> cases h
  · cases hrow

/-! ## The order -/

/-- `(available_at, sequence)`. -/
def claimKey (r : Row) : Int ×ₗ Int := toLex (r.availableAt, r.sequence)

/-- `ORDER BY available_at, sequence`. -/
def claimOrder (r r' : Row) : Prop :=
  r.availableAt < r'.availableAt ∨ r.availableAt = r'.availableAt ∧ r.sequence ≤ r'.sequence

instance : DecidableRel claimOrder := fun r r' => by unfold claimOrder; infer_instance

theorem claimOrder_iff (r r' : Row) : claimOrder r r' ↔ claimKey r ≤ claimKey r' := by
  rw [claimKey, claimKey, Prod.Lex.toLex_le_toLex]
  rfl

/-- The rows a claim takes, in its order. -/
def claimRows (now : Timestamp) (batchSize : Nat) (rows : List Row) : List Row :=
  ((rows.filter (claimable now)).insertionSort claimOrder).take batchSize

def claimChoice (now : Timestamp) (batchSize : Nat) (rows : List Row) : Choice :=
  ⟨(claimRows now batchSize rows).map Row.sequence, fun _ => 0⟩

section
variable {rows rows' : List Row} {now : Timestamp} {choice : Choice} {n : Nat} {worker : String}
  {leaseMs : Int}

theorem mem_claimRows {r : Row} (h : r ∈ claimRows now n rows) :
    r ∈ rows ∧ claimable now r = true :=
  List.mem_filter.mp (SortBy.mem_take h)

theorem claimRows_nodup (hnd : (rows.map Row.sequence).Nodup) :
    ((claimRows now n rows).map Row.sequence).Nodup := by
  have hsorted : (((rows.filter (claimable now)).insertionSort claimOrder).map Row.sequence).Nodup :=
    (((List.perm_insertionSort claimOrder _).map Row.sequence).nodup_iff).mpr
      (hnd.sublist (List.filter_sublist.map _))
  exact hsorted.sublist ((List.take_sublist _ _).map _)

/-- The first rows are a choice PostgreSQL can make. -/
theorem claim_full (now : Timestamp) (n : Nat) (worker : String) (leaseMs : Int)
    (hnd : (rows.map Row.sequence).Nodup) :
    (claimChoice now n rows).Full now rows (.claim n worker leaseMs) := by
  refine full_of_targets (claimRows_nodup hnd) ?_ (fun _ _ => rfl) rfl ?_ ?_
  · intro q hq
    obtain ⟨r, hr, rfl⟩ := List.mem_map.mp hq
    exact ⟨r, (mem_claimRows hr).1, rfl, (mem_claimRows hr).2⟩
  · rw [List.length_map, claimRows, SortBy.length_take]
    exact Int.ofNat_le.mpr (Nat.min_le_left _ _)
  · intro r hr hinner hout
    have hnot : r ∉ claimRows now n rows := fun hmem => hout (List.mem_map_of_mem hmem)
    obtain ⟨hlength, hafter⟩ := SortBy.rest claimOrder_iff (List.mem_filter.mpr ⟨hr, hinner⟩) hnot
    refine ⟨?_, ?_⟩
    · rw [List.length_map]
      exact Int.ofNat_le.mpr hlength.ge
    · intro r' hr' htarget
      obtain ⟨x, hx, hseq⟩ := List.mem_map.mp htarget
      have hsame : x = r' := List.inj_on_of_nodup_map hnd (mem_claimRows hx).1 hr' hseq
      subst hsame
      exact decide_eq_true ((claimOrder_iff x r).mpr (hafter x hx))

/-- A row cannot be taken before one that comes first. -/
theorem claim_crossing (hnd : (rows.map Row.sequence).Nodup)
    (h : choice.Full now rows (.claim n worker leaseMs)) {r t : Row} (hr : r ∈ claimRows now n rows)
    (hout : r.sequence ∉ choice.targets) (ht : t ∈ rows) (htarget : t.sequence ∈ choice.targets)
    (hlate : t ∉ claimRows now n rows) : False := by
  have hclaimable : claimable now t = true := inner_of_target hnd h.toValid ht htarget
  obtain ⟨-, hbefore⟩ := SortBy.rest claimOrder_iff (List.mem_filter.mpr ⟨ht, hclaimable⟩) hlate
  obtain ⟨-, hordered⟩ := h.full r (mem_claimRows hr).1 (mem_claimRows hr).2 hout
  have hafter : claimOrder t r := of_decide_eq_true (hordered t ht htarget)
  have hkey : claimKey r = claimKey t := le_antisymm (hbefore r hr) ((claimOrder_iff t r).mp hafter)
  have hseq : r.sequence = t.sequence := congrArg (fun k => (ofLex k).2) hkey
  rw [hseq] at hout
  exact hout htarget

/-- Every choice takes the first rows. -/
theorem claim_targets_perm (hnd : (rows.map Row.sequence).Nodup)
    (h : choice.Full now rows (.claim n worker leaseMs)) :
    choice.targets.Perm ((claimRows now n rows).map Row.sequence) := by
  have hpick := h.pick
  simp only [Stmt.pick, Stmt.limit, Bool.and_eq_true, decide_eq_true_eq, List.all_eq_true,
    List.any_eq_true, beq_iff_eq] at hpick
  obtain ⟨⟨hdistinct, hexist⟩, hle⟩ := hpick
  have hle : choice.targets.length ≤ n := Int.ofNat_le.mp hle
  have hfirst : ((claimRows now n rows).map Row.sequence).Nodup := claimRows_nodup hnd
  have hlate : ∀ t ∈ rows, t.sequence ∉ (claimRows now n rows).map Row.sequence →
      t ∉ claimRows now n rows := fun t _ hnot hmem => hnot (List.mem_map_of_mem hmem)
  -- what one side has and the other has not would have to be matched, and the two would cross
  have hback : (claimRows now n rows).map Row.sequence ⊆ choice.targets := by
    intro q hq
    obtain ⟨r, hr, rfl⟩ := List.mem_map.mp hq
    by_contra hout
    obtain ⟨⟨m, hm, hfull⟩, -⟩ := h.full r (mem_claimRows hr).1 (mem_claimRows hr).2 hout
    cases hm
    have hlength : ((claimRows now n rows).map Row.sequence).length ≤ choice.targets.length := by
      rw [List.length_map, claimRows, SortBy.length_take]
      exact (Nat.min_le_left _ _).trans (Int.ofNat_le.mp hfull)
    have hsub : choice.targets ⊆ (claimRows now n rows).map Row.sequence := by
      intro q' hq'
      by_contra hq''
      obtain ⟨t, ht, rfl, -⟩ := hexist q' hq'
      exact claim_crossing hnd h hr hout ht hq' (hlate t ht hq'')
    have hperm := (List.subperm_of_subset hdistinct hsub).perm_of_length_le hlength
    exact hout (hperm.mem_iff.mpr hq)
  have hforth : choice.targets ⊆ (claimRows now n rows).map Row.sequence := by
    intro q hq
    obtain ⟨t, ht, rfl, hinner⟩ := hexist q hq
    by_contra hout
    obtain ⟨hlength, -⟩ := SortBy.rest claimOrder_iff
      (List.mem_filter.mpr ⟨ht, hinner⟩) (hlate t ht hout)
    have hperm := (List.subperm_of_subset hfirst hback).perm_of_length_le (by
      rw [List.length_map, claimRows, hlength]
      exact hle)
    exact hout (hperm.mem_iff.mpr hq)
  exact (List.subperm_of_subset hdistinct hforth).antisymm (List.subperm_of_subset hfirst hback)

/-- `RETURNING` gives the rows as the claim left them. -/
theorem returnedRows_eq (hnd : (rows.map Row.sequence).Nodup)
    (h : choice.Valid now rows (.claim n worker leaseMs))
    (hrows : (Stmt.claim n worker leaseMs).onRows now choice rows = .ok rows') :
    returnedRows now choice (.claim n worker leaseMs) rows =
      rows'.filter fun r => decide (r.sequence ∈ choice.targets) := by
  obtain ⟨hall, rfl⟩ := Stmt.onRows_ok.mp hrows
  rw [returnedRows, List.filterMap_filter, List.filter_filterMap]
  refine List.filterMap_congr fun r hr => ?_
  obtain ⟨o, ho⟩ := hall r hr
  cases o with
  | none => exact absurd ho (Stmt.onRow_keeps rfl)
  | some r' =>
      have hseq : r'.sequence = r.sequence := by
        rcases Stmt.onRow_some ho with rfl | hu
        · rfl
        · exact hu.immutable.2.2
      rw [Stmt.after_eq ho, Option.filter_some, hseq]
      by_cases htarget : r.sequence ∈ choice.targets
      · have houter : (Stmt.claim n worker leaseMs).outer now r = true :=
          inner_of_target hnd h hr htarget
        simp only [htarget, houter, decide_true, Bool.and_self, if_true]
      · simp only [htarget, decide_false, Bool.false_and, Bool.false_eq_true, if_false]

end

end Reliar.Store.Postgres
