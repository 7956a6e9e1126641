/-
# `Reliar.Store.Purge` — purge loses no live message

Each of the three purge statements picks its rows from a snapshot that may be
stale by the time a row is locked.  What it deletes or sweeps is right at that
later moment because the outer `WHERE` repeats the mutable half of the inner
predicate; the half it does not repeat, `expires_at < now()`, cannot go stale
(`PurgeOk.expired`).

Retentions reach SQL as whole milliseconds, rounded down.  So a row may be
deleted up to a millisecond before its retention has passed
(`purge_deletes_early`), and never earlier.
-/
import Reliar.Store.RowState

namespace Reliar.Store.Postgres

open Reliar.Core Reliar.Outbox

/-! ## What is logged -/

/-- A retention as SQL sees it, in nanoseconds. -/
def sqlRetention (d : Duration) : Int := millis d * 1000000

/-- Set for longer than `age`, at `clock`. -/
def LongerThan (at' : Option Timestamp) (age : Int) (clock : Timestamp) : Prop :=
  ∃ t, at' = some t ∧ t + age < clock

theorem longerThan_of_olderThan {at' : Option Timestamp} {now clock : Timestamp} {ms : Int}
    (h : olderThan at' now ms = true) (hnow : now ≤ clock) :
    LongerThan at' (ms * 1000000) clock := by
  cases at' with
  | none => cases h
  | some t =>
    simp only [olderThan, decide_eq_true_eq] at h
    exact ⟨t, rfl, by lia⟩

/-- The row was terminal for long enough, or dead and purged by its id. -/
inductive Deletion.Terminal (d : Deletion) : Prop
  | published {ms batchSize} : d.stmt = .purgePublished ms batchSize →
      LongerThan d.row.publishedAt (ms * 1000000) d.clock → Terminal d
  | dead {ms batchSize} : d.stmt = .purgeDeadRetention ms batchSize →
      LongerThan d.row.deadAt (ms * 1000000) d.clock → Terminal d
  | purgeDead {ids} : d.stmt = .purgeDead ids → d.row.columns.id ∈ ids →
      d.row.deadAt.isSome = true → Terminal d

theorem Delete.terminal {now clock : Timestamp} {r : Row} {stmt : Stmt} (h : Delete now r stmt)
    (hnow : now ≤ clock) : (⟨r, stmt, clock⟩ : Deletion).Terminal := by
  cases h with
  | published ho => exact .published rfl (longerThan_of_olderThan ho hnow)
  | dead ho => exact .dead rfl (longerThan_of_olderThan ho hnow)
  | purgeDead hid hd => exact .purgeDead rfl hid hd

/-- Neither published nor dead, not leased or strictly past its lease, and past `expires_at`. -/
structure Sweepable (r : Row) (clock : Timestamp) : Prop where
  published : r.publishedAt = none
  dead : r.deadAt = none
  lease : r.lockedUntil = none ∨ ∃ t, r.lockedUntil = some t ∧ t < clock
  expires : ∃ t, r.columns.expires = some t ∧ t < clock

theorem sweepable_of_outer {now clock : Timestamp} {r : Row} (hs : sweepable now r = true)
    (he : expired now r = true) (hnow : now ≤ clock) : Sweepable r clock := by
  obtain ⟨hp, hd⟩ := sweepable_idle hs
  refine ⟨hp, hd, ?_, ?_⟩
  · simp only [sweepable, Bool.and_eq_true, leaseFree] at hs
    cases hl : r.lockedUntil with
    | none => exact .inl rfl
    | some t =>
      simp only [hl, decide_eq_true_eq] at hs
      exact .inr ⟨t, rfl, by lia⟩
  · simp only [expired] at he
    cases hx : r.columns.expires with
    | none => simp [hx] at he
    | some t =>
      simp only [hx, decide_eq_true_eq] at he
      exact ⟨t, rfl, by lia⟩

def Stmt.isSweep : Stmt → Bool
  | .purgeExpiredSweep .. => true
  | _ => false

/-- What a sweep logs: its outer clause was evaluated on this very version. -/
theorem Update.sweepable {now clock : Timestamp} {r r' : Row} {stmt : Stmt}
    (hu : Update now r stmt r') (hnow : now ≤ clock)
    (he : stmt.isSweep = true → expired now r = true) :
    ∀ p ∈ sweepEntry stmt r clock, Sweepable p.1 p.2 := by
  intro p hp
  cases hu with
  | sweep hs =>
    rw [List.mem_singleton.mp hp]
    exact sweepable_of_outer hs (he rfl) hnow
  | claim => cases hp
  | poisonSweep => cases hp
  | complete => cases hp
  | failRetry => cases hp
  | failDead => cases hp
  | release => cases hp
  | extendLease => cases hp
  | retryDead => cases hp

/-! ## The invariant -/

structure PurgeOk (db : Db) : Prop where
  deleted : ∀ d ∈ db.deleted, d.Terminal
  swept : ∀ p ∈ db.swept, Sweepable p.1 p.2
  /-- No row is lost. -/
  conserved : ∀ q ∈ db.inserted,
    (∃ r ∈ db.rows, r.sequence = q) ∨ ∃ d ∈ db.deleted, d.row.sequence = q
  /-- Only rows are targets. -/
  targets : ∀ run ∈ db.running, ∀ q ∈ run.targets, q ∈ db.inserted
  /-- What a sweep has picked was expired at its `now()`, and still is. -/
  expired : ∀ run ∈ db.running, run.stmt.isSweep = true → ∀ r ∈ db.rows,
    r.sequence ∈ run.targets → expired run.now r = true

theorem mem_pick {stmt : Stmt} {now : Timestamp} {rows : List Row} {targets : List Int} {q : Int}
    (h : stmt.pick now rows targets = true) (hq : q ∈ targets) :
    ∃ r ∈ rows, r.sequence = q ∧ stmt.inner now r = true := by
  simp only [Stmt.pick, Bool.and_eq_true] at h
  have := List.all_eq_true.mp h.1.2 q hq
  obtain ⟨r, hr, hrq⟩ := List.any_eq_true.mp this
  simp only [Bool.and_eq_true, beq_iff_eq] at hrq
  exact ⟨r, hr, hrq.1, hrq.2⟩

/-- Beginning a statement. -/
theorem PurgeOk.begin {db : Db} {stmt : Stmt} {now : Timestamp} {targets : List Int} (hok : db.Ok)
    (h : PurgeOk db) (hpick : stmt.pick now db.rows targets = true) :
    PurgeOk { db with running := db.running ++ [⟨stmt, now, targets, 0, []⟩] } where
  deleted := h.deleted
  swept := h.swept
  conserved := h.conserved
  targets := by
    intro run hrun q hq
    rcases List.mem_append.mp hrun with hrun | hrun
    · exact h.targets run hrun q hq
    · rw [List.mem_singleton.mp hrun] at hq
      obtain ⟨r, hr, rfl, -⟩ := mem_pick hpick hq
      exact hok.known r hr
  expired := by
    intro run hrun hsweep r hr hq
    rcases List.mem_append.mp hrun with hrun | hrun
    · exact h.expired run hrun hsweep r hr hq
    · rw [List.mem_singleton.mp hrun] at hq hsweep ⊢
      obtain ⟨x, hx, hxq, hinner⟩ := mem_pick hpick hq
      obtain rfl := hok.unique hr hx hxq
      cases stmt <;> try cases hsweep
      simp only [Stmt.inner, Bool.and_eq_true] at hinner
      exact hinner.1

/-- Coming to a target leaves every running statement what it was, with no new target. -/
theorem set_past {running : List Running} {k : Nat} {run : Running} (run' : Running)
    (sequence : Int) (hrun : running[k]? = some run) (hstmt : run'.stmt = run.stmt) (hnow : run'.now = run.now)
    (htargets : run'.targets = run.targets.erase sequence) :
    ∀ x ∈ running.set k run', ∃ y ∈ running, x.stmt = y.stmt ∧ x.now = y.now ∧
      ∀ q ∈ x.targets, q ∈ y.targets := by
  intro x hx
  rcases List.mem_or_eq_of_mem_set hx with hx | rfl
  · exact ⟨x, hx, rfl, rfl, fun _ hq => hq⟩
  · refine ⟨run, List.mem_of_getElem? hrun, hstmt, hnow, fun q hq => ?_⟩
    rw [htargets] at hq
    exact List.mem_of_mem_erase hq

/-- Rows keep their `expires_at`, so picked rows stay expired. -/
theorem PurgeOk.carry {db : Db} (h : PurgeOk db) (rows : List Row) (running : List Running)
    (hrows : ∀ r' ∈ rows, ∃ r ∈ db.rows, r.sequence = r'.sequence ∧ r.columns = r'.columns)
    (hrunning : ∀ x ∈ running, ∃ y ∈ db.running, x.stmt = y.stmt ∧ x.now = y.now ∧
      ∀ q ∈ x.targets, q ∈ y.targets) :
    (∀ run ∈ running, ∀ q ∈ run.targets, q ∈ db.inserted) ∧
      ∀ run ∈ running, run.stmt.isSweep = true → ∀ r ∈ rows, r.sequence ∈ run.targets →
        Postgres.expired run.now r = true := by
  refine ⟨fun run hrun q hq => ?_, fun run hrun hsweep r' hr' hq => ?_⟩
  · obtain ⟨y, hy, -, -, hsub⟩ := hrunning run hrun
    exact h.targets y hy q (hsub q hq)
  · obtain ⟨y, hy, hstmt, hnow, hsub⟩ := hrunning run hrun
    obtain ⟨r, hr, hseq, hcol⟩ := hrows r' hr'
    have := h.expired y hy (hstmt ▸ hsweep) r hr (hseq ▸ hsub _ hq)
    simpa only [Postgres.expired, hcol, hnow] using this

theorem Step.purgeOk {rendering : Rendering} {db db' : Db} {e : Event} (hok : db.Ok)
    (h : PurgeOk db) (hs : Step rendering db e db') : PurgeOk db' := by
  cases hs with
  | advance by' =>
    exact ⟨h.deleted, h.swept, h.conserved, h.targets, h.expired⟩
  | @insert columns sequence now _ hfresh =>
    refine ⟨h.deleted, h.swept, ?_, ?_, ?_⟩
    · intro q hq
      rcases List.mem_cons.mp hq with rfl | hq
      · exact .inl ⟨_, List.mem_append_right _ (List.mem_singleton.mpr rfl), rfl⟩
      · rcases h.conserved q hq with ⟨r, hr, hrq⟩ | hd
        · exact .inl ⟨r, List.mem_append_left _ hr, hrq⟩
        · exact .inr hd
    · exact fun run hrun q hq => List.mem_cons_of_mem _ (h.targets run hrun q hq)
    · intro run hrun hsweep r hr hq
      rcases List.mem_append.mp hr with hr | hr
      · exact h.expired run hrun hsweep r hr hq
      · rw [List.mem_singleton.mp hr] at hq
        exact absurd (h.targets run hrun _ hq) hfresh
  | start _ hpick => exact h.begin hok hpick
  | sweep _ _ _ hpick => exact h.begin hok hpick
  | @pass k sequence item run hrun _ =>
    obtain ⟨ht, hx⟩ := h.carry db.rows (db.pass k (run.past sequence)).running
      (fun r hr => ⟨r, hr, rfl, rfl⟩) (set_past _ sequence hrun rfl rfl rfl)
    exact ⟨h.deleted, h.swept, h.conserved, ht, hx⟩
  | @write k item run r r' hrun htarget hr _ htouch =>
    have hu := touch_update htouch
    obtain ⟨hcol, -, hseq⟩ := hu.immutable
    have hmem := List.mem_of_getElem? hrun
    have hrows : ∀ x' ∈ (db.write k (run.past r.sequence) r r').rows,
        ∃ x ∈ db.rows, x.sequence = x'.sequence ∧ x.columns = x'.columns := by
      intro x' hx'
      rcases mem_write hx' with rfl | ⟨hx', -⟩
      · exact ⟨r, hr, hseq.symm, hcol.symm⟩
      · exact ⟨x', hx', rfl, rfl⟩
    obtain ⟨ht, hx⟩ := h.carry _ (db.write k (run.past r.sequence) r r').running hrows
      (set_past _ r.sequence hrun rfl rfl rfl)
    refine ⟨h.deleted, ?_, ?_, ht, hx⟩
    · intro p hp
      rcases List.mem_append.mp hp with hp | hp
      · exact hu.sweepable (hok.lagging run hmem)
          (fun hsweep => h.expired run hmem hsweep r hr htarget) p hp
      · exact h.swept p hp
    · intro q hq
      rcases h.conserved q hq with ⟨x, hx, hxq⟩ | hd
      · refine .inl ⟨if x.sequence = r.sequence then r' else x, List.mem_map.mpr ⟨x, hx, rfl⟩, ?_⟩
        by_cases hxr : x.sequence = r.sequence
        · rw [if_pos hxr, hseq, ← hxr, hxq]
        · rw [if_neg hxr, hxq]
      · exact .inr hd
  | @remove k item run r hrun _ hr hdel =>
    have hmem := List.mem_of_getElem? hrun
    obtain ⟨ht, hx⟩ := h.carry (db.remove k (run.past r.sequence) r).rows
      (db.remove k (run.past r.sequence) r).running
      (fun x hx => ⟨x, List.mem_of_mem_filter hx, rfl, rfl⟩)
      (set_past _ r.sequence hrun rfl rfl rfl)
    refine ⟨?_, h.swept, ?_, ht, hx⟩
    · intro d hd
      rcases List.mem_cons.mp hd with rfl | hd
      · exact hdel.terminal (hok.lagging run hmem)
      · exact h.deleted d hd
    · intro q hq
      rcases h.conserved q hq with ⟨x, hx, hxq⟩ | ⟨d, hd, hdq⟩
      · by_cases hxr : x.sequence = r.sequence
        · exact .inr ⟨_, List.mem_cons_self, hxr.symm.trans hxq⟩
        · exact .inl ⟨x, List.mem_filter.mpr ⟨hx, by simpa using hxr⟩, hxq⟩
      · exact .inr ⟨d, List.mem_cons_of_mem _ hd, hdq⟩

theorem Run.purgeOk {rendering : Rendering} {clock : Timestamp} {es : List Event} {db : Db}
    (h : Run rendering clock es db) : db.Ok ∧ PurgeOk db := by
  refine h.inv (P := fun db => db.Ok ∧ PurgeOk db) ?_ ?_
  · rintro db₁ e db₂ ⟨hok, hp⟩ hs
    exact ⟨(step_of_next hs).ok hok, (step_of_next hs).purgeOk hok hp⟩
  · refine ⟨ok_empty clock, ?_, ?_, ?_, ?_, ?_⟩
    · exact fun _ hd => absurd hd List.not_mem_nil
    · exact fun _ hd => absurd hd List.not_mem_nil
    · exact fun _ hq => absurd hq List.not_mem_nil
    · exact fun _ hr => absurd hr List.not_mem_nil
    · exact fun _ hr => absurd hr List.not_mem_nil

/-! ## Purge -/

/-- A row that a purge request deleted had been published, or dead, for longer than the retention
it names, `retention` saying how long that is. -/
def Kept (retention : Duration → Int) (request : PurgeRequest) (d : Deletion) : Prop :=
  (∃ p, request.publishedRetention = some p ∧ LongerThan d.row.publishedAt (retention p) d.clock) ∨
    ∃ p, request.deadRetention = some p ∧ LongerThan d.row.deadAt (retention p) d.clock

theorem kept_of_terminal {request : PurgeRequest} {d : Deletion} (h : d.Terminal)
    (hd : d.stmt ∈ purge request) : Kept sqlRetention request d := by
  simp only [purge, List.mem_append, Option.mem_toList, Option.map_eq_some_iff,
    List.mem_singleton] at hd
  rcases hd with (⟨p, hp, hstmt⟩ | ⟨p, hp, hstmt⟩) | hstmt
  · refine .inl ⟨p, hp, ?_⟩
    cases h with
    | published hs ho =>
      rw [← hstmt] at hs
      cases hs
      exact ho
    | dead hs => rw [← hstmt] at hs; cases hs
    | purgeDead hs => rw [← hstmt] at hs; cases hs
  · refine .inr ⟨p, hp, ?_⟩
    cases h with
    | published hs => rw [← hstmt] at hs; cases hs
    | dead hs ho =>
      rw [← hstmt] at hs
      cases hs
      exact ho
    | purgeDead hs => rw [← hstmt] at hs; cases hs
  · cases h with
    | published hs => rw [hstmt] at hs; cases hs
    | dead hs => rw [hstmt] at hs; cases hs
    | purgeDead hs => rw [hstmt] at hs; cases hs

/-- For every interleaving of every statement: what a purge request deletes was terminal for longer
than its retention in whole milliseconds, what it sweeps was live, unleased and expired at that
moment, and every row ever inserted is in the table unless it was deleted in such a state or by
`purge_dead` while dead. -/
theorem purge_keeps_live (rendering : Rendering) (clock : Timestamp) (es : List Event) (db : Db)
    (hrun : Run rendering clock es db) :
    (∀ request, ∀ d ∈ db.deleted, d.stmt ∈ purge request → Kept sqlRetention request d) ∧
    (∀ p ∈ db.swept, Sweepable p.1 p.2) ∧
    (∀ q ∈ db.inserted, (∃ r ∈ db.rows, r.sequence = q) ∨
      ∃ d ∈ db.deleted, d.row.sequence = q ∧ d.Terminal) := by
  obtain ⟨-, h⟩ := hrun.purgeOk
  refine ⟨fun request d hd hstmt => kept_of_terminal (h.deleted d hd) hstmt, h.swept, ?_⟩
  intro q hq
  rcases h.conserved q hq with hr | ⟨d, hd, hdq⟩
  · exact .inl hr
  · exact .inr ⟨d, hd, hdq, h.deleted d hd⟩

/-- Keep published rows for 1.9 ms. -/
def keepNearlyTwo : PurgeRequest := ⟨some 1900000, none, 10⟩

/-- Published at 0; purged at 1.5 ms. -/
def purgeAtHalfPast : List Event :=
  publishedRun ++ [.advance 1500000, .start (.purgePublished 1 10) 1500000 [1], .touch 2 1 0]

/-- What that run logs. -/
theorem purgeAtHalfPast_deletes :
    ∃ d ∈ (Machine.reach (next sampleRendering) (Db.empty 0) purgeAtHalfPast).deleted,
      d.row.publishedAt = some 0 ∧ d.stmt = .purgePublished 1 10 ∧ d.clock = 1500000 := by
  have hlog : ((Machine.reach (next sampleRendering) (Db.empty 0) purgeAtHalfPast).deleted.map
      fun d => (d.row.publishedAt, d.stmt, d.clock)) =
        [(some 0, .purgePublished 1 10, 1500000)] := by decide
  obtain ⟨d, hd, hdeq⟩ := List.mem_map.mp (hlog ▸ List.mem_singleton_self _)
  exact ⟨d, hd, congrArg (fun p => p.1) hdeq, congrArg (fun p => p.2.1) hdeq,
    congrArg (fun p => p.2.2) hdeq⟩

/-- The row was kept for a whole millisecond. -/
theorem purge_keeps_live_half_past : ∃ db, Run sampleRendering 0 purgeAtHalfPast db ∧
    ∃ d ∈ db.deleted, d.stmt ∈ purge keepNearlyTwo ∧ Kept sqlRetention keepNearlyTwo d := by
  have hrun : Run sampleRendering 0 purgeAtHalfPast _ := Machine.path_reach (by decide)
  obtain ⟨d, hd, -, hstmt, -⟩ := purgeAtHalfPast_deletes
  have hmem : d.stmt ∈ purge keepNearlyTwo := by rw [hstmt]; decide
  exact ⟨_, hrun, d, hd, hmem, (purge_keeps_live _ _ _ _ hrun).1 keepNearlyTwo d hd hmem⟩

/-- But not for the retention asked for: published 1.5 ms ago, it is deleted under 1.9 ms. -/
theorem purge_deletes_early : ∃ db, Run sampleRendering 0 purgeAtHalfPast db ∧
    ∃ d ∈ db.deleted, d.stmt ∈ purge keepNearlyTwo ∧ ¬ Kept (fun p => p) keepNearlyTwo d := by
  have hrun : Run sampleRendering 0 purgeAtHalfPast _ := Machine.path_reach (by decide)
  obtain ⟨d, hd, hat, hstmt, hclock⟩ := purgeAtHalfPast_deletes
  refine ⟨_, hrun, d, hd, by rw [hstmt]; decide, ?_⟩
  rintro (⟨p, hp, t, ht, hlt⟩ | ⟨p, hp, -⟩)
  · cases hp
    rw [hat] at ht
    cases ht
    rw [hclock] at hlt
    exact absurd hlt (by decide)
  · cases hp

end Reliar.Store.Postgres
