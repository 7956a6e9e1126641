/-
# `Reliar.Store.PurgePasses` — the job of a `purge` (`reliar-outbox`: `store.rs`,
`PurgeReport::is_complete`)

A call of `purge` is three bounded passes over the rows: two retentions and the
expiry sweep, in one order in the SQL store and in another in the in-memory
store.  `Called` is either.  Nothing here depends on the order, or on which rows
a pass takes: the loop that calls again while `!report.is_complete(batch_size)`
ends and finishes the job as soon as `batch_size` is not zero
(`ends_of_called`).

A store may read a request differently from what its documentation says
(`Reading`); the job it finishes is then the one it reads.
-/
import Reliar.Lib.Drain
import Reliar.Outbox.Types
import Reliar.Store.Records

namespace Reliar.Outbox

def PurgeReport.isComplete (report : PurgeReport) (batchSize : Nat) : Bool :=
  decide (report.publishedDeleted < batchSize) && decide (report.deadDeleted < batchSize) &&
    decide (report.expiredToDead < batchSize)

end Reliar.Outbox

namespace Reliar.Store

open Reliar.Core Reliar.Outbox Drain

/-! ## The job -/

/-- What `purge` looks at in a row, and how it sweeps one. -/
structure Purgeable (α : Type) where
  sequence : α → Int
  publishedAt : α → Option Timestamp
  deadAt : α → Option Timestamp
  expires : α → Option Timestamp
  leaseFree : Timestamp → α → Bool
  swept : Timestamp → α → α
  swept_sequence : ∀ now r, sequence (swept now r) = sequence r
  swept_publishedAt : ∀ now r, publishedAt (swept now r) = publishedAt r
  swept_deadAt : ∀ now r, deadAt (swept now r) = some now

/-- How long a retention counts, and whether a row that expires at an instant is taken at
another. -/
structure Reading where
  age : Duration → Int
  takes : (expires now : Timestamp) → Bool
  age_nonneg : ∀ d, 0 ≤ age d

/-- A retention is what it is, and a row goes at its `expires_at`. -/
def Reading.documented : Reading :=
  ⟨fun d => d, fun expires now => decide (expires ≤ now), fun d => Int.natCast_nonneg d⟩

namespace Purgeable

section
variable {α : Type} (v : Purgeable α) (reading : Reading) (request : PurgeRequest) (now : Timestamp)

/-- Neither published nor dead, and not leased. -/
def waiting (r : α) : Bool :=
  (v.publishedAt r).isNone && (v.deadAt r).isNone && v.leaseFree now r

/-- Published past `published_retention`. -/
def published (r : α) : Bool :=
  request.publishedRetention.any fun d =>
    (v.publishedAt r).any fun t => decide (t + reading.age d < now)

/-- Dead past `dead_retention`. -/
def dead (r : α) : Bool :=
  request.deadRetention.any fun d => (v.deadAt r).any fun t => decide (t + reading.age d < now)

/-- Expired, pending and unleased. -/
def expired (r : α) : Bool :=
  v.waiting now r && (v.expires r).any fun t => reading.takes t now

/-- What the job makes of a row. -/
def purged (r : α) : Option α :=
  if v.published reading request now r || v.dead reading request now r then none
  else if v.expired reading now r then some (v.swept now r)
  else some r

/-- Nothing left to do, and nothing else done. -/
structure Finished (rows rows' : List α) : Prop where
  left : ∀ r ∈ rows', v.published reading request now r = false ∧
    v.dead reading request now r = false ∧ v.expired reading now r = false
  others : rows' = rows.filterMap (v.purged reading request now)

def deletedFrom (rows' : List α) (r : α) : Bool :=
  !rows'.any fun r' => v.sequence r' == v.sequence r

def sweptIn (rows' : List α) (r : α) : Bool :=
  rows'.any fun r' => v.sequence r' == v.sequence r && (v.deadAt r').isSome

/-- At most `n` of each kind. -/
structure Within (n : Nat) (rows rows' : List α) : Prop where
  published : rows.countP (fun r => (v.publishedAt r).isSome && v.deletedFrom rows' r) ≤ n
  dead : rows.countP (fun r => (v.deadAt r).isSome && v.deletedFrom rows' r) ≤ n
  swept : rows.countP (fun r => (v.publishedAt r).isNone && (v.deadAt r).isNone &&
    v.sweptIn rows' r) ≤ n

/-! ## Its three rules -/

def publishedRule : Rule α := ⟨v.published reading request now, fun _ => none⟩

def deadRule : Rule α := ⟨v.dead reading request now, fun _ => none⟩

def expiredRule : Rule α := ⟨v.expired reading now, fun r => some (v.swept now r)⟩

def rules : List (Rule α) :=
  [v.publishedRule reading request now, v.deadRule reading request now, v.expiredRule reading now]

end

section
variable {α : Type} {v : Purgeable α} {reading : Reading} {request : PurgeRequest}
  {now : Timestamp} {r : α}

theorem published_isSome (h : v.published reading request now r = true) :
    (v.publishedAt r).isSome = true := by
  obtain ⟨d, -, h⟩ := Option.any_eq_true _ _ |>.mp h
  obtain ⟨t, ht, -⟩ := Option.any_eq_true _ _ |>.mp h
  rw [ht]
  rfl

theorem dead_isSome (h : v.dead reading request now r = true) : (v.deadAt r).isSome = true := by
  obtain ⟨d, -, h⟩ := Option.any_eq_true _ _ |>.mp h
  obtain ⟨t, ht, -⟩ := Option.any_eq_true _ _ |>.mp h
  rw [ht]
  rfl

theorem expired_live (h : v.expired reading now r = true) :
    v.publishedAt r = none ∧ v.deadAt r = none := by
  simp only [expired, waiting, Bool.and_eq_true, Option.isNone_iff_eq_none] at h
  exact h.1.1

/-- A swept row died just now: no retention has passed, and nothing is left to sweep. -/
theorem swept_settled (request : PurgeRequest) (h : v.expired reading now r = true) :
    v.published reading request now (v.swept now r) = false ∧
      v.dead reading request now (v.swept now r) = false ∧
      v.expired reading now (v.swept now r) = false := by
  obtain ⟨hpublished, -⟩ := expired_live h
  refine ⟨?_, ?_, ?_⟩
  · rw [Bool.eq_false_iff]
    intro hp
    have hsome := published_isSome hp
    rw [v.swept_publishedAt, hpublished] at hsome
    cases hsome
  · rw [Bool.eq_false_iff]
    intro hd
    obtain ⟨d, -, hd⟩ := Option.any_eq_true _ _ |>.mp hd
    rw [v.swept_deadAt] at hd
    have hlt : now + reading.age d < now := of_decide_eq_true hd
    have hnonneg := reading.age_nonneg d
    lia
  · rw [Bool.eq_false_iff]
    intro he
    have hnone := (expired_live he).2
    rw [v.swept_deadAt] at hnone
    cases hnone

theorem consistent (v : Purgeable α) (reading : Reading) (request : PurgeRequest)
    (now : Timestamp) : Consistent (v.rules reading request now) := by
  have hsweep : ∀ r, v.expired reading now r = true →
      v.published reading request now r = false ∧ v.dead reading request now r = false := by
    intro r h
    obtain ⟨hpublished, hdead⟩ := expired_live h
    refine ⟨?_, ?_⟩
    · rw [Bool.eq_false_iff]
      intro hp
      have hsome := published_isSome hp
      rw [hpublished] at hsome
      cases hsome
    · rw [Bool.eq_false_iff]
      intro hd
      have hsome := dead_isSome hd
      rw [hdead] at hsome
      cases hsome
  constructor
  · intro rule hrule rule' hrule' r hdue hdue'
    simp only [rules, List.mem_cons, List.not_mem_nil, or_false] at hrule hrule'
    rcases hrule with rfl | rfl | rfl <;> rcases hrule' with rfl | rfl | rfl
    · rfl
    · rfl
    · exact absurd hdue (Bool.eq_false_iff.mp (hsweep r hdue').1)
    · rfl
    · rfl
    · exact absurd hdue (Bool.eq_false_iff.mp (hsweep r hdue').2)
    · exact absurd hdue' (Bool.eq_false_iff.mp (hsweep r hdue).1)
    · exact absurd hdue' (Bool.eq_false_iff.mp (hsweep r hdue).2)
    · rfl
  · intro rule hrule r r' hdue hsettle
    simp only [rules, List.mem_cons, List.not_mem_nil, or_false] at hrule
    rcases hrule with rfl | rfl | rfl
    · cases hsettle
    · cases hsettle
    · cases hsettle
      obtain ⟨hp, hd, he⟩ := swept_settled request hdue
      simp only [anyDue, rules, List.any_cons, List.any_nil, publishedRule, deadRule, expiredRule,
        hp, hd, he, Bool.or_false]

theorem anyDue_rules : anyDue (v.rules reading request now) r = false ↔
    v.published reading request now r = false ∧ v.dead reading request now r = false ∧
      v.expired reading now r = false := by
  simp only [anyDue, rules, List.any_cons, List.any_nil, publishedRule, deadRule, expiredRule,
    Bool.or_eq_false_iff, and_true]

theorem final_rules : final (v.rules reading request now) r = v.purged reading request now r := by
  unfold final purged
  cases hp : v.published reading request now r with
  | true => simp [rules, publishedRule, hp]
  | false =>
      cases hd : v.dead reading request now r with
      | true => simp [rules, publishedRule, deadRule, hp, hd]
      | false =>
          cases he : v.expired reading now r with
          | true => simp [rules, publishedRule, deadRule, expiredRule, hp, hd, he]
          | false => simp [rules, publishedRule, deadRule, expiredRule, hp, hd, he]

end

/-! ## A call -/

/-- Rows with a number each, none both published and dead. -/
structure Sound {α : Type} (v : Purgeable α) (rows : List α) : Prop where
  sequences : (rows.map v.sequence).Nodup
  terminal : ∀ r ∈ rows, v.publishedAt r = none ∨ v.deadAt r = none

/-- The three passes, the sweep last or first, and the report on them. -/
inductive Called {α : Type} (v : Purgeable α) (reading : Reading) (request : PurgeRequest)
    (now : Timestamp) (rows : List α) : PurgeReport → List α → Prop
  | sweepLast {p d e : Nat} {rows' : List α} : Passes request.batchSize
      [v.publishedRule reading request now, v.deadRule reading request now,
        v.expiredRule reading now] rows [p, d, e] rows' → Called v reading request now rows ⟨p, d, e⟩ rows'
  | sweepFirst {p d e : Nat} {rows' : List α} : Passes request.batchSize
      [v.expiredRule reading now, v.publishedRule reading request now,
        v.deadRule reading request now] rows [e, p, d] rows' → Called v reading request now rows ⟨p, d, e⟩ rows'

section
variable {α : Type} {v : Purgeable α} {reading : Reading} {request : PurgeRequest}
  {now : Timestamp} {rows rows' : List α} {report : PurgeReport}

/-- What both orders have in common. -/
theorem Called.passes (h : Called v reading request now rows report rows') :
    ∃ order counts, order ⊆ v.rules reading request now ∧
      v.rules reading request now ⊆ order ∧
      Passes request.batchSize order rows counts rows' ∧
      ∀ c, c ∈ counts ↔ c = report.publishedDeleted ∨ c = report.deadDeleted ∨
        c = report.expiredToDead := by
  cases h with
  | sweepLast hp =>
      refine ⟨_, _, List.Subset.refl _, List.Subset.refl _, hp, fun c => ?_⟩
      simp only [List.mem_cons, List.not_mem_nil, or_false]
  | sweepFirst hp =>
      refine ⟨_, _, ?_, ?_, hp, fun c => ?_⟩
      · intro rule hrule
        simp only [rules, List.mem_cons, List.not_mem_nil, or_false] at hrule ⊢
        tauto
      · intro rule hrule
        simp only [rules, List.mem_cons, List.not_mem_nil, or_false] at hrule ⊢
        tauto
      · simp only [List.mem_cons, List.not_mem_nil, or_false]
        tauto

theorem isComplete_iff {n : Nat} {counts : List Nat}
    (h : ∀ c, c ∈ counts ↔ c = report.publishedDeleted ∨ c = report.deadDeleted ∨
      c = report.expiredToDead) : report.isComplete n = true ↔ ∀ c ∈ counts, c < n := by
  simp only [PurgeReport.isComplete, Bool.and_eq_true, decide_eq_true_eq, h]
  constructor
  · rintro ⟨⟨hp, hd⟩, he⟩ c (rfl | rfl | rfl)
    · exact hp
    · exact hd
    · exact he
  · intro hall
    exact ⟨⟨hall _ (.inl rfl), hall _ (.inr (.inl rfl))⟩, hall _ (.inr (.inr rfl))⟩

theorem rule_keeps {rule : Rule α} (hrule : rule ∈ v.rules reading request now) {r r' : α}
    (hsettle : rule.settle r = some r') :
    v.sequence r' = v.sequence r ∧ v.publishedAt r' = v.publishedAt r := by
  simp only [rules, List.mem_cons, List.not_mem_nil, or_false] at hrule
  rcases hrule with rfl | rfl | rfl
  · cases hsettle
  · cases hsettle
  · cases hsettle
    exact ⟨v.swept_sequence now r, v.swept_publishedAt now r⟩

/-- A call leaves every row on its way. -/
theorem Called.final (h : Called v reading request now rows report rows') :
    rows'.filterMap (v.purged reading request now) =
      rows.filterMap (v.purged reading request now) := by
  obtain ⟨order, counts, hsub, -, hp, -⟩ := h.passes
  have hfinal := hp.final (consistent v reading request now) hsub
  simpa only [final_rules] using hfinal

/-- A report that is complete is the last. -/
theorem Called.finished (h : Called v reading request now rows report rows')
    (hdone : report.isComplete request.batchSize = true) :
    rows' = rows.filterMap (v.purged reading request now) := by
  obtain ⟨order, counts, hsub, hall, hp, hcounts⟩ := h.passes
  have hnone := hp.exhausted (consistent v reading request now) hsub
    ((isComplete_iff hcounts).mp hdone)
  have hleft := filterMap_final_of_none fun rule hrule => hnone rule (hall hrule)
  simp only [final_rules] at hleft
  rw [← hleft, h.final]

/-- A report that is not leaves less to do. -/
theorem Called.less (h : Called v reading request now rows report rows')
    (hbatch : 1 ≤ request.batchSize) (hmore : report.isComplete request.batchSize = false) :
    rows'.countP (anyDue (v.rules reading request now)) <
      rows.countP (anyDue (v.rules reading request now)) := by
  obtain ⟨order, counts, hsub, -, hp, hcounts⟩ := h.passes
  obtain ⟨c, hc, hfull⟩ : ∃ c ∈ counts, request.batchSize ≤ c := by
    by_contra hnone
    refine Bool.eq_false_iff.mp hmore ((isComplete_iff hcounts).mpr fun c hc => ?_)
    exact Nat.lt_of_not_le fun hle => hnone ⟨c, hc, hle⟩
  have hadd := hp.add_anyDue (consistent v reading request now) hsub
  have hsum := List.le_sum_of_mem hc
  omega

theorem Called.sound (h : Called v reading request now rows report rows') (hrows : Sound v rows) :
    Sound v rows' := by
  obtain ⟨order, counts, hsub, -, hp, -⟩ := h.passes
  constructor
  · exact hrows.sequences.sublist
      (hp.keys fun rule hrule r r' hsettle => (rule_keeps (hsub hrule) hsettle).1)
  · refine hp.all (fun rule hrule r r' hdue hsettle _ => ?_) hrows.terminal
    have hmem := hsub hrule
    simp only [rules, List.mem_cons, List.not_mem_nil, or_false] at hmem
    rcases hmem with rfl | rfl | rfl
    · cases hsettle
    · cases hsettle
    · cases hsettle
      exact .inl ((v.swept_publishedAt now r).trans (expired_live hdue).1)

/-! ## The bounds -/

theorem deletedFrom_of_mem {r : α} (h : r ∈ rows') : v.deletedFrom rows' r = false := by
  rw [deletedFrom, Bool.not_eq_false', List.any_eq_true]
  exact ⟨r, h, beq_self_eq_true _⟩

theorem sweptIn_of_mem (hnd : (rows'.map v.sequence).Nodup) {r : α} (h : r ∈ rows')
    (hlive : v.deadAt r = none) : v.sweptIn rows' r = false := by
  rw [sweptIn, List.any_eq_false]
  intro r' hr' hboth
  rw [Bool.and_eq_true, beq_iff_eq] at hboth
  rw [List.inj_on_of_nodup_map hnd hr' h hboth.1, hlive] at hboth
  cases hboth.2

/-- What a pass alone takes, and what follows if it is kept. -/
theorem countP_touched {rule : Rule α} (before : List (Rule α)) {after : List (Rule α)} {n : Nat}
    {counts : List Nat} {kind gone : α → Bool}
    (hp : Passes n (before ++ rule :: after) rows counts rows')
    (hothers : ∀ rule' ∈ before ++ after, ∀ r, rule'.due r = true → kind r = false)
    (hgone : ∀ r ∈ rows, gone r = true → kind r = true ∧ r ∉ rows') : rows.countP gone ≤ n := by
  obtain ⟨taken, hle, hkept⟩ := hp.touched hothers
  refine (List.countP_mono_left fun r hr h => ?_).trans hle
  obtain ⟨hkind, hnot⟩ := hgone r hr h
  rw [hkind, Bool.true_and]
  by_contra htaken
  exact hnot (hkept r hr hkind (Bool.not_eq_true _ ▸ htaken))

/-- The retentions and the sweep take rows of different kinds. -/
theorem others_published (reading : Reading) (request : PurgeRequest) (now : Timestamp) {rule : Rule α}
    (h : rule = v.deadRule reading request now ∨ rule = v.expiredRule reading now) {r : α}
    (hdue : rule.due r = true) : ((v.publishedAt r).isSome && (v.deadAt r).isNone) = false := by
  rcases h with rfl | rfl
  · rw [← Option.not_isSome, dead_isSome hdue, Bool.not_true, Bool.and_false]
  · rw [(expired_live hdue).1]
    rfl

theorem others_dead (reading : Reading) (request : PurgeRequest) (now : Timestamp) {rule : Rule α}
    (h : rule = v.publishedRule reading request now ∨ rule = v.expiredRule reading now) {r : α}
    (hdue : rule.due r = true) : ((v.deadAt r).isSome && (v.publishedAt r).isNone) = false := by
  rcases h with rfl | rfl
  · rw [← Option.not_isSome, published_isSome hdue, Bool.not_true, Bool.and_false]
  · rw [(expired_live hdue).2]
    rfl

theorem others_live (reading : Reading) (request : PurgeRequest) (now : Timestamp) {rule : Rule α}
    (h : rule = v.publishedRule reading request now ∨ rule = v.deadRule reading request now) {r : α}
    (hdue : rule.due r = true) : ((v.publishedAt r).isNone && (v.deadAt r).isNone) = false := by
  rcases h with rfl | rfl
  · rw [← Option.not_isSome, published_isSome hdue]
    rfl
  · rw [← Option.not_isSome (v.deadAt r), dead_isSome hdue, Bool.not_true, Bool.and_false]

theorem Called.within (h : Called v reading request now rows report rows') (hrows : Sound v rows) :
    v.Within request.batchSize rows rows' := by
  have hrows' := h.sound hrows
  have hpublished : ∀ r ∈ rows, ((v.publishedAt r).isSome && v.deletedFrom rows' r) = true →
      ((v.publishedAt r).isSome && (v.deadAt r).isNone) = true ∧ r ∉ rows' := by
    intro r hr hgone
    rw [Bool.and_eq_true] at hgone
    refine ⟨?_, fun hmem => ?_⟩
    · rcases hrows.terminal r hr with hnone | hnone
      · rw [hnone] at hgone
        cases hgone.1
      · rw [hgone.1, hnone]
        rfl
    · rw [deletedFrom_of_mem hmem] at hgone
      cases hgone.2
  have hdead : ∀ r ∈ rows, ((v.deadAt r).isSome && v.deletedFrom rows' r) = true →
      ((v.deadAt r).isSome && (v.publishedAt r).isNone) = true ∧ r ∉ rows' := by
    intro r hr hgone
    rw [Bool.and_eq_true] at hgone
    refine ⟨?_, fun hmem => ?_⟩
    · rcases hrows.terminal r hr with hnone | hnone
      · rw [hgone.1, hnone]
        rfl
      · rw [hnone] at hgone
        cases hgone.1
    · rw [deletedFrom_of_mem hmem] at hgone
      cases hgone.2
  have hlive : ∀ r ∈ rows, ((v.publishedAt r).isNone && (v.deadAt r).isNone &&
      v.sweptIn rows' r) = true →
      ((v.publishedAt r).isNone && (v.deadAt r).isNone) = true ∧ r ∉ rows' := by
    intro r _ hgone
    rw [Bool.and_eq_true] at hgone
    refine ⟨hgone.1, fun hmem => ?_⟩
    have hnone := hgone.1
    rw [Bool.and_eq_true, Option.isNone_iff_eq_none, Option.isNone_iff_eq_none] at hnone
    rw [sweptIn_of_mem hrows'.sequences hmem hnone.2] at hgone
    cases hgone.2
  cases h with
  | sweepLast hp =>
      constructor
      · refine countP_touched [] hp (fun rule' h r hdue =>
          others_published reading request now ?_ hdue) hpublished
        simpa only [List.nil_append, List.cons_append, List.mem_cons, List.not_mem_nil, or_false] using h
      · refine countP_touched [_] hp (fun rule' h r hdue =>
          others_dead reading request now ?_ hdue) hdead
        simpa only [List.nil_append, List.cons_append, List.mem_cons, List.not_mem_nil, or_false] using h
      · refine countP_touched [_, _] hp (fun rule' h r hdue =>
          others_live reading request now ?_ hdue) hlive
        simpa only [List.nil_append, List.cons_append, List.mem_cons, List.not_mem_nil, or_false] using h
  | sweepFirst hp =>
      constructor
      · refine countP_touched [_] hp (fun rule' h r hdue =>
          others_published reading request now ?_ hdue) hpublished
        simpa [or_comm] using h
      · refine countP_touched [_, _] hp (fun rule' h r hdue =>
          others_dead reading request now ?_ hdue) hdead
        simpa [or_comm] using h
      · refine countP_touched [] hp (fun rule' h r hdue =>
          others_live reading request now ?_ hdue) hlive
        simpa only [List.nil_append, List.cons_append, List.mem_cons, List.not_mem_nil, or_false] using h

end

/-! ## The loop -/

section
variable {α : Type} {v : Purgeable α} {reading : Reading} {request : PurgeRequest}
  {now : Timestamp} {rows rows' : List α}

/-- What is done to every row leaves nothing to do. -/
theorem finished_iff : v.Finished reading request now rows rows' ↔
    rows' = rows.filterMap (v.purged reading request now) := by
  refine ⟨fun h => h.others, fun h => ⟨fun r' hr' => ?_, h⟩⟩
  rw [h] at hr'
  obtain ⟨r, -, hpurged⟩ := List.mem_filterMap.mp hr'
  rw [← final_rules] at hpurged
  exact anyDue_rules.mp (final_settled (consistent v reading request now) hpurged)

theorem purged_sequence {r r' : α} (h : v.purged reading request now r = some r') :
    v.sequence r' = v.sequence r := by
  unfold purged at h
  split at h
  · cases h
  · split at h
    · cases h
      exact v.swept_sequence now r
    · cases h
      rfl

/-- The loop over calls that are three passes. -/
theorem ends_of_called {S : Type} (rowsOf : S → List α) {I : S → Prop}
    {call : S → PurgeReport → S → Prop} {fails : S → Prop} (hbatch : 1 ≤ request.batchSize)
    (hsound : ∀ s, I s → Sound v (rowsOf s)) (hfails : ∀ s, I s → ¬ fails s)
    (hcall : ∀ s, I s → ∃ report s', call s report s')
    (hstep : ∀ s report s', I s → call s report s' →
      I s' ∧ Called v reading request now (rowsOf s) report (rowsOf s')) {s : S} (h : I s) :
    Ends call fails (fun report => report.isComplete request.batchSize)
      (fun s s' => v.Within request.batchSize (rowsOf s) (rowsOf s'))
      (fun s' => v.Finished reading request now (rowsOf s) (rowsOf s')) s := by
  refine ends_of_measure (I := fun s₁ => I s₁ ∧
      (rowsOf s₁).filterMap (v.purged reading request now) =
        (rowsOf s).filterMap (v.purged reading request now))
    (fun s₁ => (rowsOf s₁).countP (anyDue (v.rules reading request now)))
    (fun s₁ h₁ => hfails s₁ h₁.1) (fun s₁ h₁ => hcall s₁ h₁.1) ?_ ⟨h, rfl⟩
  rintro s₁ report s' ⟨h₁, hsame⟩ hs'
  obtain ⟨h', hcalled⟩ := hstep s₁ report s' h₁ hs'
  refine ⟨hcalled.within (hsound s₁ h₁), ⟨h', hcalled.final.trans hsame⟩, ?_, ?_⟩
  · intro hdone
    exact finished_iff.mpr ((hcalled.finished hdone).trans hsame)
  · exact hcalled.less hbatch

end

end Purgeable

end Reliar.Store
