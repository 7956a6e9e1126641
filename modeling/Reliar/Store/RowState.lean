/-
# `Reliar.Store.RowState` — the state of a row over every interleaving

The three state constraints of the table (`ck_outbox_lease`, `ck_outbox_terminal`,
`ck_outbox_dead_reason`) are never raised.  No statement checks why: five of them
write `published_at` or `dead_at` under a clause that looks at `locked_by` alone.
What makes that safe is that a leased row is neither published nor dead
(`RowOk.idle`), which every statement keeps.

`Update.ok` is the step; `rows_ok` is every run.
-/
import Reliar.Store.Postgres

namespace Reliar.Store.Postgres

open Reliar.Core Reliar.Outbox

/-! ## One row -/

/-- What holds of every row version in the table. -/
structure RowOk (r : Row) : Prop where
  attempts : 0 ≤ r.attempts
  attempts_le : r.attempts ≤ INT_MAX
  messageVersion : 0 ≤ r.columns.messageVersion
  metadataVersion : 1 ≤ r.columns.metadataVersion
  lease : r.lockedBy.isSome = r.lockedUntil.isSome
  terminal : r.publishedAt = none ∨ r.deadAt = none
  reason : r.deadAt.isSome = r.deadReason.isSome
  /-- A leased row is neither published nor dead. -/
  idle : r.lockedBy ≠ none → r.publishedAt = none ∧ r.deadAt = none

theorem RowOk.checked {r : Row} (h : RowOk r) : violated r = none := by
  obtain ⟨ha, -, hm, hv, hl, ht, hr, -⟩ := h
  have h₁ : ¬ r.attempts < 0 := by omega
  have h₂ : ¬ r.columns.messageVersion < 0 := by omega
  have h₃ : ¬ r.columns.metadataVersion < 1 := by omega
  have h₄ : r.lockedBy.isNone = r.lockedUntil.isNone := by
    rw [← Option.not_isSome, ← Option.not_isSome, hl]
  have h₅ : ¬ (r.publishedAt.isSome = true ∧ r.deadAt.isSome = true) := by
    rcases ht with ht | ht <;> simp [ht]
  have h₆ : r.deadAt.isNone = r.deadReason.isNone := by
    rw [← Option.not_isSome, ← Option.not_isSome, hr]
  simp [violated, h₁, h₂, h₃, h₄, h₅, h₆]

theorem RowOk.inserted {columns : Columns} {sequence : Int} {now : Timestamp}
    (h : violated (Row.inserted columns sequence now) = none) :
    RowOk (Row.inserted columns sequence now) := by
  have hm : ¬ columns.messageVersion < 0 := by
    intro hm
    simp [violated, Row.inserted, hm] at h
  have hv : ¬ columns.metadataVersion < 1 := by
    intro hv
    simp [violated, Row.inserted, hm, hv] at h
  exact
    { attempts := Int.le_refl 0
      attempts_le := (by decide : (0 : Int) ≤ INT_MAX)
      messageVersion := Int.not_lt.mp hm
      metadataVersion := Int.not_lt.mp hv
      lease := rfl
      terminal := .inl rfl
      reason := rfl
      idle := fun hl => absurd rfl hl }

theorem owned_locked {ids : List Uuid} {worker : String} {r : Row}
    (h : owned ids worker r = true) : r.lockedBy = some worker := by
  simp only [owned, Bool.and_eq_true, decide_eq_true_eq] at h
  exact h.2

theorem sweepable_idle {now : Timestamp} {r : Row} (h : sweepable now r = true) :
    r.publishedAt = none ∧ r.deadAt = none := by
  simp only [sweepable, Bool.and_eq_true, Option.isNone_iff_eq_none] at h
  exact h.1

theorem claimable_idle {now : Timestamp} {r : Row} (h : claimable now r = true) :
    r.publishedAt = none ∧ r.deadAt = none := by
  simp only [claimable, Bool.and_eq_true, Option.isNone_iff_eq_none] at h
  exact h.1.1.1

theorem RowOk.owned_idle {r : Row} (h : RowOk r) {ids : List Uuid} {worker : String}
    (ho : owned ids worker r = true) : r.publishedAt = none ∧ r.deadAt = none :=
  h.idle (by simp [owned_locked ho])

/-- Only a row that is not published is ever updated. -/
theorem Update.unpublished {now : Timestamp} {r r' : Row} {stmt : Stmt} (h : RowOk r)
    (hu : Update now r stmt r') : r.publishedAt = none := by
  cases hu with
  | claim hc => exact (claimable_idle hc).1
  | poisonSweep ho => exact (h.owned_idle ho).1
  | complete ho => exact (h.owned_idle ho).1
  | failRetry ho => exact (h.owned_idle ho).1
  | failDead ho => exact (h.owned_idle ho).1
  | release ho => exact (h.owned_idle ho).1
  | extendLease ho => exact (h.owned_idle ho).1
  | sweep hs => exact (sweepable_idle hs).1
  | retryDead _ hd =>
    rcases h.terminal with hp | hn
    · exact hp
    · rw [hn] at hd; cases hd

/-- Every update keeps the row invariant. -/
theorem Update.ok {now : Timestamp} {r r' : Row} {stmt : Stmt} (h : RowOk r)
    (hu : Update now r stmt r') : RowOk r' := by
  have hpub := hu.unpublished h
  have hatt := h.attempts
  have hbump : r.attempts < INT_MAX → r.attempts + 1 ≤ INT_MAX := fun hlt => by omega
  cases hu with
  | claim hc =>
    have hidle : r.publishedAt = none ∧ r.deadAt = none := claimable_idle hc
    exact { h with lease := rfl, idle := fun _ => hidle }
  | poisonSweep ho =>
    exact { h with
      lease := rfl, terminal := .inl hpub, reason := rfl, idle := fun hl => absurd rfl hl }
  | complete ho hlt =>
    have hdead : r.deadAt = none := (h.owned_idle ho).2
    exact { h with
      attempts := by simp only; omega
      attempts_le := hbump hlt
      lease := rfl, terminal := .inr hdead, idle := fun hl => absurd rfl hl }
  | failRetry ho hlt =>
    exact { h with
      attempts := by simp only; omega
      attempts_le := hbump hlt
      lease := rfl, idle := fun hl => absurd rfl hl }
  | failDead ho hlt =>
    exact { h with
      attempts := by simp only; omega
      attempts_le := hbump hlt
      lease := rfl, terminal := .inl hpub, reason := rfl, idle := fun hl => absurd rfl hl }
  | release ho => exact { h with lease := rfl, idle := fun hl => absurd rfl hl }
  | extendLease ho =>
    have hlocked : r.lockedBy.isSome = true := by rw [owned_locked ho]; rfl
    exact { h with lease := hlocked }
  | sweep hs =>
    exact { h with
      lease := rfl, terminal := .inl hpub, reason := rfl, idle := fun hl => absurd rfl hl }
  | retryDead =>
    exact { h with
      attempts := Int.le_refl 0
      attempts_le := (by decide : (0 : Int) ≤ INT_MAX)
      lease := rfl, terminal := .inl hpub, reason := rfl, idle := fun hl => absurd rfl hl }

/-- The envelope, the creation time and the sequence number are never written. -/
theorem Update.immutable {now : Timestamp} {r r' : Row} {stmt : Stmt}
    (hu : Update now r stmt r') :
    r'.columns = r.columns ∧ r'.createdAt = r.createdAt ∧ r'.sequence = r.sequence := by
  cases hu <;> exact ⟨rfl, rfl, rfl⟩

theorem Update.attempts_le {now : Timestamp} {r r' : Row} {stmt : Stmt}
    (hu : Update now r stmt r') : r.attempts ≤ r'.attempts ∨ ∃ ids, stmt = .retryDead ids := by
  cases hu with
  | retryDead => exact .inr ⟨_, rfl⟩
  | complete => exact .inl (Int.le_add_one (Int.le_refl _))
  | failRetry => exact .inl (Int.le_add_one (Int.le_refl _))
  | failDead => exact .inl (Int.le_add_one (Int.le_refl _))
  | claim => exact .inl (Int.le_refl _)
  | poisonSweep => exact .inl (Int.le_refl _)
  | release => exact .inl (Int.le_refl _)
  | extendLease => exact .inl (Int.le_refl _)
  | sweep => exact .inl (Int.le_refl _)

/-- Arithmetic may abort a statement, but not with a constraint. -/
theorem set_ne_check (stmt : Stmt) (now : Timestamp) (i : Nat) (r : Row) (c : Constraint) :
    stmt.set now i r ≠ .error (.check c) := by
  have hadd : ∀ (t : Timestamp) (ms : Int), addMillis t ms ≠ .error (.check c) := by
    intro t ms h
    simp only [addMillis] at h
    split at h <;> cases h
  have hinc : ∀ n : Int, incAttempts n ≠ .error (.check c) := by
    intro n h
    simp only [incAttempts] at h
    split at h <;> cases h
  intro h
  cases stmt with
  | claim =>
    rcases bind_eq_error h with h | ⟨_, -, h⟩
    · exact hadd _ _ h
    · cases h
  | complete =>
    rcases bind_eq_error h with h | ⟨_, -, h⟩
    · exact hinc _ h
    · cases h
  | failRetry =>
    rcases bind_eq_error h with h | ⟨_, -, h⟩
    · exact hinc _ h
    · rcases bind_eq_error h with h | ⟨_, -, h⟩
      · exact hadd _ _ h
      · cases h
  | failDead =>
    rcases bind_eq_error h with h | ⟨_, -, h⟩
    · exact hinc _ h
    · cases h
  | extendLease =>
    rcases bind_eq_error h with h | ⟨_, -, h⟩
    · exact hadd _ _ h
    · cases h
  | poisonSweep => cases h
  | release => cases h
  | purgePublished => cases h
  | purgeDeadRetention => cases h
  | purgeExpiredSweep => cases h
  | retryDead => cases h
  | purgeDead => cases h

/-- No `CHECK` of the table is ever raised, whatever the statement and its binds. -/
theorem touch_ne_check {r : Row} (h : RowOk r) (stmt : Stmt) (now : Timestamp) (i : Nat)
    (c : Constraint) : stmt.touch now i r ≠ .error (.check c) := by
  intro htouch
  simp only [Stmt.touch] at htouch
  split at htouch
  case isFalse => cases htouch
  case isTrue houter =>
    split at htouch
    case h_1 err hset =>
      cases htouch
      exact set_ne_check stmt now i r c hset
    case h_2 => cases htouch
    case h_3 r' hset =>
      rcases set_cases houter hset with ⟨_, heq, hu⟩ | ⟨hnone, -⟩
      · cases heq
        rw [(hu.ok h).checked] at htouch
        cases htouch
      · cases hnone

/-! ## The table -/

/-- What holds of every reachable database. -/
structure Db.Ok (db : Db) : Prop where
  rows : ∀ r ∈ db.rows, RowOk r
  sequences : (db.rows.map Row.sequence).Nodup
  known : ∀ r ∈ db.rows, r.sequence ∈ db.inserted
  lagging : ∀ run ∈ db.running, run.now ≤ db.clock

theorem Db.Ok.unique {db : Db} (h : db.Ok) {r x : Row} (hr : r ∈ db.rows) (hx : x ∈ db.rows)
    (heq : x.sequence = r.sequence) : x = r :=
  List.inj_on_of_nodup_map h.sequences hx hr heq

theorem lagging_set {db : Db} (h : db.Ok) {k : Nat} {run run' : Running}
    (hrun : db.running[k]? = some run) (hnow : run'.now = run.now) :
    ∀ x ∈ db.running.set k run', x.now ≤ db.clock := by
  intro x hx
  rcases List.mem_or_eq_of_mem_set hx with hx | rfl
  · exact h.lagging x hx
  · rw [hnow]
    exact h.lagging run (List.mem_of_getElem? hrun)

/-- A rewritten row of the table is the new version or an untouched row. -/
theorem mem_write {rows : List Row} {sequence : Int} {r' x : Row}
    (hx : x ∈ rows.map fun y => if y.sequence = sequence then r' else y) :
    x = r' ∨ (x ∈ rows ∧ x.sequence ≠ sequence) := by
  obtain ⟨y, hy, rfl⟩ := List.mem_map.mp hx
  by_cases h : y.sequence = sequence
  · exact .inl (by simp [h])
  · exact .inr (by simp [h, hy])

theorem write_sequences {rows : List Row} {r' : Row} :
    (rows.map fun y => if y.sequence = r'.sequence then r' else y).map Row.sequence =
      rows.map Row.sequence := by
  rw [List.map_map]
  refine List.map_congr_left fun y _ => ?_
  by_cases h : y.sequence = r'.sequence <;> simp [h]

theorem Step.ok {rendering : Rendering} {db db' : Db} {e : Event} (h : db.Ok)
    (hs : Step rendering db e db') : db'.Ok := by
  cases hs with
  | advance by' =>
    refine ⟨h.rows, h.sequences, h.known, fun run hrun => ?_⟩
    have := h.lagging run hrun
    simp only
    lia
  | @insert columns sequence now hnow hfresh _ hchecked =>
    refine ⟨?_, ?_, ?_, h.lagging⟩
    · intro r hr
      rcases List.mem_append.mp hr with hr | hr
      · exact h.rows r hr
      · rw [List.mem_singleton.mp hr]
        exact RowOk.inserted hchecked
    · simp only [List.map_append, List.map_cons, List.map_nil]
      refine List.nodup_append.mpr ⟨h.sequences, List.nodup_singleton _, ?_⟩
      rintro a ha b hb rfl
      obtain ⟨r, hr, rfl⟩ := List.mem_map.mp ha
      exact hfresh ((List.mem_singleton.mp hb : r.sequence = sequence) ▸ h.known r hr)
    · intro r hr
      rcases List.mem_append.mp hr with hr | hr
      · exact List.mem_cons_of_mem _ (h.known r hr)
      · rw [List.mem_singleton.mp hr]
        exact List.mem_cons_self
  | start hnow _ =>
    refine ⟨h.rows, h.sequences, h.known, fun run hrun => ?_⟩
    rcases List.mem_append.mp hrun with hrun | hrun
    · exact h.lagging run hrun
    · rw [List.mem_singleton.mp hrun]
      exact hnow
  | sweep hnow _ _ _ =>
    refine ⟨h.rows, h.sequences, h.known, fun run hrun => ?_⟩
    rcases List.mem_append.mp hrun with hrun | hrun
    · exact h.lagging run hrun
    · rw [List.mem_singleton.mp hrun]
      exact hnow
  | pass hrun _ => exact ⟨h.rows, h.sequences, h.known, lagging_set h hrun rfl⟩
  | @write k item run r r' hrun _ hr _ htouch =>
    have hu := touch_update htouch
    have hseq : r'.sequence = r.sequence := hu.immutable.2.2
    refine ⟨?_, ?_, ?_, lagging_set h hrun rfl⟩
    · intro x hx
      rcases mem_write hx with rfl | ⟨hx, -⟩
      · exact hu.ok (h.rows r hr)
      · exact h.rows x hx
    · simp only [Db.write, ← hseq, write_sequences]
      exact h.sequences
    · intro x hx
      rcases mem_write hx with rfl | ⟨hx, -⟩
      · rw [hseq]
        exact h.known r hr
      · exact h.known x hx
  | remove hrun _ _ _ =>
    refine ⟨?_, ?_, ?_, lagging_set h hrun rfl⟩
    · exact fun x hx => h.rows x (List.mem_of_mem_filter hx)
    · exact h.sequences.sublist (List.filter_sublist.map _)
    · exact fun x hx => h.known x (List.mem_of_mem_filter hx)

theorem ok_empty (clock : Timestamp) : (Db.empty clock).Ok :=
  ⟨fun _ hr => absurd hr List.not_mem_nil, List.nodup_nil, fun _ hr => absurd hr List.not_mem_nil,
    fun _ hr => absurd hr List.not_mem_nil⟩

theorem Run.ok {rendering : Rendering} {clock : Timestamp} {es : List Event} {db : Db}
    (h : Run rendering clock es db) : db.Ok :=
  h.inv (fun hok hs => (step_of_next hs).ok hok) (ok_empty clock)

/-- One step as one row sees it: the row is as before, or a statement that came to it wrote it. -/
theorem Step.row {rendering : Rendering} {db db' : Db} {e : Event} (h : db.Ok)
    (hs : Step rendering db e db') {r r' : Row} (hr : r ∈ db.rows) (hr' : r' ∈ db'.rows)
    (hseq : r'.sequence = r.sequence) :
    r' = r ∨ ∃ k item run, e = .touch k r.sequence item ∧ db.running[k]? = some run ∧
      Update run.now r run.stmt r' := by
  cases hs with
  | advance => exact .inl (h.unique hr hr' hseq)
  | @insert columns sequence now _ hfresh =>
    rcases List.mem_append.mp hr' with hr' | hr'
    · exact .inl (h.unique hr hr' hseq)
    · rw [List.mem_singleton.mp hr'] at hseq
      exact absurd (h.known r hr) (hseq ▸ hfresh)
  | start => exact .inl (h.unique hr hr' hseq)
  | sweep => exact .inl (h.unique hr hr' hseq)
  | pass => exact .inl (h.unique hr hr' hseq)
  | @write k item run x x' hrun _ hx _ htouch =>
    have hu := touch_update htouch
    rcases mem_write hr' with rfl | ⟨hr', -⟩
    · have hxr : x = r := h.unique hr hx (hu.immutable.2.2.symm.trans hseq)
      subst hxr
      exact .inr ⟨k, item, run, rfl, hrun, hu⟩
    · exact .inl (h.unique hr hr' hseq)
  | remove => exact .inl (h.unique hr (List.mem_of_mem_filter hr') hseq)

/-- A sequence number once given is never given to another row. -/
theorem Step.present {rendering : Rendering} {db db' : Db} {e : Event}
    (hs : Step rendering db e db') :
    (∀ q ∈ db.inserted, q ∈ db'.inserted) ∧
      ∀ r' ∈ db'.rows, r'.sequence ∈ db.inserted → ∃ r ∈ db.rows, r.sequence = r'.sequence := by
  cases hs with
  | advance => exact ⟨fun _ hq => hq, fun r' hr' _ => ⟨r', hr', rfl⟩⟩
  | @insert columns sequence now _ hfresh =>
    refine ⟨fun _ hq => List.mem_cons_of_mem _ hq, fun r' hr' hq => ?_⟩
    rcases List.mem_append.mp hr' with hr' | hr'
    · exact ⟨r', hr', rfl⟩
    · rw [List.mem_singleton.mp hr'] at hq
      exact absurd hq hfresh
  | start => exact ⟨fun _ hq => hq, fun r' hr' _ => ⟨r', hr', rfl⟩⟩
  | sweep => exact ⟨fun _ hq => hq, fun r' hr' _ => ⟨r', hr', rfl⟩⟩
  | pass => exact ⟨fun _ hq => hq, fun r' hr' _ => ⟨r', hr', rfl⟩⟩
  | @write k item run x x' _ _ hx _ htouch =>
    refine ⟨fun _ hq => hq, fun r' hr' _ => ?_⟩
    rcases mem_write hr' with rfl | ⟨hr', -⟩
    · exact ⟨x, hx, (touch_update htouch).immutable.2.2.symm⟩
    · exact ⟨r', hr', rfl⟩
  | remove => exact ⟨fun _ hq => hq, fun r' hr' _ => ⟨r', List.mem_of_mem_filter hr', rfl⟩⟩

/-- What a whole run keeps of a row that is still there. -/
structure SameRow (r r' : Row) : Prop where
  columns : r'.columns = r.columns
  createdAt : r'.createdAt = r.createdAt
  /-- Published is absorbing. -/
  published : r.publishedAt.isSome = true → r' = r

theorem SameRow.update {now : Timestamp} {r x x' : Row} {stmt : Stmt} (h : SameRow r x)
    (hok : RowOk x) (hu : Update now x stmt x') : SameRow r x' := by
  obtain ⟨hcol, hcre, -⟩ := hu.immutable
  refine ⟨hcol.trans h.columns, hcre.trans h.createdAt, fun hp => ?_⟩
  have hx := h.published hp
  have hnone := hu.unpublished hok
  rw [hx] at hnone
  rw [hnone] at hp
  cases hp

theorem sameRow_of_path {rendering : Rendering} {db db' : Db} {es : List Event} (h : db.Ok)
    (hp : Machine.Path (Machine.Next (next rendering)) db es db') {r r' : Row} (hr : r ∈ db.rows)
    (hr' : r' ∈ db'.rows) (hseq : r'.sequence = r.sequence) : SameRow r r' := by
  -- along the path: the table stays ok, and old sequence numbers stay known
  suffices H : db'.Ok ∧ (∀ q ∈ db.inserted, q ∈ db'.inserted) ∧
      ∀ r' ∈ db'.rows, r'.sequence = r.sequence → SameRow r r' from H.2.2 r' hr' hseq
  clear hr' hseq r'
  induction hp with
  | nil =>
    refine ⟨h, fun _ hq => hq, fun r' hr' hseq => ?_⟩
    rw [h.unique hr hr' hseq]
    exact ⟨rfl, rfl, fun _ => rfl⟩
  | snoc _ he ih =>
    obtain ⟨hok, hknown, hsame⟩ := ih
    have hs := step_of_next he
    obtain ⟨hgrow, hpresent⟩ := hs.present
    refine ⟨hs.ok hok, fun q hq => hgrow q (hknown q hq), fun r' hr' hseq => ?_⟩
    obtain ⟨x, hx, hxseq⟩ := hpresent r' hr' (hseq ▸ hknown _ (h.known r hr))
    have hrx : SameRow r x := hsame x hx (hxseq.trans hseq)
    rcases hs.row hok hx hr' hxseq.symm with rfl | ⟨_, _, _, -, -, hu⟩
    · exact hrx
    · exact hrx.update (hok.rows x hx) hu

/-- The constraints on the processing state. -/
def Constraint.onState : Constraint → Bool
  | .lease => true
  | .terminal => true
  | .deadReason => true
  | _ => false

theorem inserted_ne_onState (columns : Columns) (sequence : Int) (now : Timestamp)
    {c : Constraint} (hc : c.onState = true) :
    violated (Row.inserted columns sequence now) ≠ some c := by
  by_cases hm : columns.messageVersion < 0
  · intro h
    have hcm : Constraint.messageVersion = c := by simpa [violated, Row.inserted, hm] using h
    rw [← hcm] at hc
    cases hc
  · by_cases hv : columns.metadataVersion < 1
    · intro h
      have hcm : Constraint.metadataVersion = c := by simpa [violated, Row.inserted, hm, hv] using h
      rw [← hcm] at hc
      cases hc
    · simp [violated, Row.inserted, hm, hv]

/-- The state of every row in every run, from an empty table, under any statements with any binds:
the row-state invariant, what later runs keep of a row, how a step may change its `attempts`, and
that no statement and no insertion can raise one of the state constraints. -/
theorem row_state (rendering : Rendering) (clock : Timestamp) (es : List Event) (db : Db)
    (hrun : Run rendering clock es db) :
    (∀ r ∈ db.rows,
      (r.lockedBy.isSome = r.lockedUntil.isSome) ∧
      (r.publishedAt = none ∨ r.deadAt = none) ∧
      (r.deadAt.isSome = r.deadReason.isSome) ∧
      (r.publishedAt.isSome = true ∨ r.deadAt.isSome = true →
        r.lockedBy = none ∧ r.lockedUntil = none)) ∧
    (∀ es' db', Machine.Path (Machine.Next (next rendering)) db es' db' →
      ∀ r ∈ db.rows, ∀ r' ∈ db'.rows, r'.sequence = r.sequence →
        r'.columns = r.columns ∧ r'.createdAt = r.createdAt ∧
        (r.publishedAt.isSome = true → r' = r)) ∧
    (∀ e db', next rendering db e = some db' →
      ∀ r ∈ db.rows, ∀ r' ∈ db'.rows, r'.sequence = r.sequence → r'.attempts < r.attempts →
        ∃ k item run ids, e = .touch k r.sequence item ∧ db.running[k]? = some run ∧
          run.stmt = .retryDead ids) ∧
    (∀ (stmt : Stmt) (now : Timestamp) (item : Nat), ∀ r ∈ db.rows, ∀ c : Constraint,
      c.onState = true → stmt.touch now item r ≠ .error (.check c)) ∧
    (∀ (columns : Columns) (sequence : Int) (now : Timestamp) (c : Constraint),
      c.onState = true → violated (Row.inserted columns sequence now) ≠ some c) := by
  have hok := hrun.ok
  refine ⟨?_, ?_, ?_, ?_, fun columns sequence now c hc => inserted_ne_onState _ _ _ hc⟩
  · intro r hr
    have h := hok.rows r hr
    refine ⟨h.lease, h.terminal, h.reason, fun hterminal => ?_⟩
    have hunlocked : r.lockedBy = none := by
      by_contra hl
      obtain ⟨hp, hd⟩ := h.idle hl
      rcases hterminal with ht | ht
      · rw [hp] at ht; cases ht
      · rw [hd] at ht; cases ht
    refine ⟨hunlocked, ?_⟩
    have := h.lease
    rw [hunlocked] at this
    simpa using this.symm
  · intro es' db' hp r hr r' hr' hseq
    have h := sameRow_of_path hok hp hr hr' hseq
    exact ⟨h.columns, h.createdAt, h.published⟩
  · intro e db' he r hr r' hr' hseq hlt
    rcases (step_of_next he).row hok hr hr' hseq with rfl | ⟨k, item, run, rfl, hk, hu⟩
    · exact absurd hlt (Int.lt_irrefl _)
    · rcases hu.attempts_le with hle | ⟨ids, hids⟩
      · exact absurd hlt (Int.not_lt.mpr hle)
      · exact ⟨k, item, run, ids, rfl, hk, hids⟩
  · intro stmt now item r hr c _
    exact touch_ne_check (hok.rows r hr) stmt now item c

/-- The columns of a row whose message id is `n`. -/
def sampleColumns (n : Nat) (expiresAt : Option OffsetDateTime) : Columns where
  id := ⟨BitVec.ofNat 128 n⟩
  messageType := "order.placed"
  messageVersion := 1
  correlationId := none
  conversationId := Uuid.nil
  causationId := none
  requestId := none
  contentType := "application/json"
  payload := []
  tenantId := none
  expiresAt := expiresAt
  orderingKey := none
  metadata := none
  headers := none
  metadataVersion := METADATA_VERSION

def sampleRendering : Rendering := ⟨id, fun _ => ""⟩

/-- Inserted, claimed by `w`, completed. -/
def publishedRun : List Event :=
  [.insert (sampleColumns 1 none) 1 0, .start (.claim 10 "w" 1000) 0 [1], .touch 0 1 0,
    .start (.complete [⟨1⟩] "w") 0 [1], .touch 1 1 0]

/-- A published row holds no lease and is not dead. -/
theorem row_state_published : ∃ db, Run sampleRendering 0 publishedRun db ∧
    (db.rows.map fun r => (r.publishedAt, r.attempts)) = [(some 0, 1)] ∧
    ∀ r ∈ db.rows, r.publishedAt.isSome = true ∨ r.deadAt.isSome = true →
      r.lockedBy = none ∧ r.lockedUntil = none := by
  have hrun : Run sampleRendering 0 publishedRun _ := Machine.path_reach (by decide)
  exact ⟨_, hrun, by decide, fun r hr => ((row_state _ _ _ _ hrun).1 r hr).2.2.2⟩

end Reliar.Store.Postgres
