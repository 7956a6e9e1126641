/-
# `Reliar.Store.PurgeLoop` — `purge` until the report is complete

Both stores make the three passes of `PurgePasses`: a statement under a `LIMIT` is
a pass, whatever rows PostgreSQL picks (`Settles.exec`), and so is a loop of the
in-memory store, which takes the first.

The SQL store reads a retention in whole milliseconds and takes a row strictly
after its `expires_at`.  So the loop does the documented job exactly when no row
lies between the two readings, the cutoffs can be computed, and `batch_size` is
not zero (`purge_loop_iff`): no report is complete at zero, though both stores and
the settings accept it.
-/
import Reliar.Store.PurgePasses
import Reliar.Store.Purge
import Reliar.Store.Poison
import Reliar.Store.Backlog
import Reliar.Store.ReplayCalls

namespace Reliar.Store.Postgres

open Reliar.Core Reliar.Outbox Drain

/-! ## A statement as a pass -/

/-- A statement under a `LIMIT` of `n` does what a rule says. -/
structure Settles (stmt : Stmt) (rule : Rule Row) (n : Nat) (now : Timestamp) : Prop where
  limit : stmt.limit = some (n : Int)
  inner : ∀ r, stmt.inner now r = rule.due r
  set : ∀ i r, stmt.set now i r = .ok (rule.settle r)
  texts : ∀ text ∈ stmt.texts, hasNul text = false
  picks : ∀ i r, stmt.picks i r = true
  ordered : ∀ r r', stmt.ordered r r' = true

section
variable {stmt : Stmt} {rule : Rule Row} {n : Nat} {now : Timestamp} {choice : Choice}
  {rows : List Row}

theorem Settles.onRow (h : Settles stmt rule n now) (hrows : Healthy rows)
    (hvalid : choice.Valid now rows stmt) {r : Row} (hr : r ∈ rows) :
    stmt.onRow now choice r =
      .ok (if decide (r.sequence ∈ choice.targets) then rule.settle r else some r) := by
  by_cases htarget : r.sequence ∈ choice.targets
  · have hinner := inner_of_target hrows.sequences hvalid hr htarget
    rw [decide_eq_true htarget, if_pos rfl]
    cases hrow : stmt.onRow now choice r with
    | ok o =>
        have hset := Stmt.onRow_inside hrow htarget (Stmt.outer_of_inner hinner)
        rw [h.set] at hset
        rw [Except.ok.inj hset]
    | error err =>
        obtain ⟨-, htouch⟩ := Stmt.onRow_error.mp hrow
        obtain ⟨-, err', hset⟩ := (touch_error (hrows.ok r hr)).mp ⟨err, htouch⟩
        rw [h.set] at hset
        cases hset
  · rw [Stmt.onRow_outside htarget, decide_eq_false htarget, if_neg Bool.false_ne_true]

/-- The targets are the numbers of the rows a choice takes. -/
theorem targets_perm (hnd : (rows.map Row.sequence).Nodup) (hvalid : choice.Valid now rows stmt) :
    choice.targets.Perm
      ((rows.filter fun r => decide (r.sequence ∈ choice.targets)).map Row.sequence) := by
  have hpick := hvalid.pick
  simp only [Stmt.pick, Bool.and_eq_true, decide_eq_true_eq, List.all_eq_true, List.any_eq_true,
    beq_iff_eq] at hpick
  obtain ⟨⟨hdistinct, hexist⟩, -⟩ := hpick
  refine (List.perm_ext_iff_of_nodup hdistinct
    (hnd.sublist (List.filter_sublist.map _))).mpr fun q => ?_
  rw [List.mem_map]
  constructor
  · intro hq
    obtain ⟨r, hr, rfl, -⟩ := hexist q hq
    exact ⟨r, List.mem_filter.mpr ⟨hr, decide_eq_true hq⟩, rfl⟩
  · rintro ⟨r, hr, rfl⟩
    exact of_decide_eq_true (List.mem_filter.mp hr).2

/-- A statement that settles its rows runs, and is a pass. -/
theorem Settles.exec (h : Settles stmt rule n now) (hrows : Healthy rows)
    (hready : stmt.ready now = true) (hfull : choice.Full now rows stmt) :
    ∃ rows', stmt.exec now choice rows = .ok rows' ∧
      Pass rule n rows (stmt.affected now choice rows) rows' ∧ Healthy rows' := by
  have hrow := fun {r : Row} hr => h.onRow hrows hfull.toValid (r := r) hr
  have hdone : stmt.onRows now choice rows = .ok (rows.filterMap fun r =>
      if decide (r.sequence ∈ choice.targets) then rule.settle r else some r) := by
    refine Stmt.onRows_ok.mpr ⟨fun r hr => ⟨_, hrow hr⟩, ?_⟩
    exact (List.filterMap_congr fun r hr => Stmt.after_eq (hrow hr)).symm
  have hdue : ∀ r ∈ rows, r.sequence ∈ choice.targets → stmt.inner now r = true := fun r hr =>
    inner_of_target hrows.sequences hfull.toValid hr
  have haffected : stmt.affected now choice rows =
      rows.countP fun r => decide (r.sequence ∈ choice.targets) := by
    rw [List.countP_eq_length_filter]
    refine congrArg List.length (List.filter_congr fun r hr => ?_)
    by_cases htarget : r.sequence ∈ choice.targets
    · rw [Stmt.outer_of_inner (hdue r hr htarget), Bool.and_true]
    · rw [decide_eq_false htarget, Bool.false_and]
  have hcount : (rows.countP fun r => decide (r.sequence ∈ choice.targets)) =
      choice.targets.length := by
    rw [(targets_perm hrows.sequences hfull.toValid).length_eq, List.length_map,
      List.countP_eq_length_filter]
  refine ⟨_, (exec_of_texts now choice h.texts hready rows).trans hdone, ?_, hrows.onRows hdone⟩
  rw [haffected]
  refine .take _ ?_ ?_ ?_
  · intro r hr htarget
    rw [← h.inner]
    exact hdue r hr (of_decide_eq_true htarget)
  · have hpick := hfull.pick
    simp only [Stmt.pick, h.limit, Bool.and_eq_true, decide_eq_true_eq] at hpick
    rw [hcount]
    exact Int.ofNat_le.mp hpick.2
  · intro hlt r hr hd
    by_contra hout
    obtain ⟨⟨m, hm, hle⟩, -⟩ := hfull.full r hr ((h.inner r).trans hd) fun hmem =>
      hout (decide_eq_true hmem)
    rw [h.limit] at hm
    cases hm
    rw [hcount] at hlt
    exact absurd (Int.ofNat_le.mp hle) (Nat.not_le.mpr hlt)

/-- PostgreSQL has a choice. -/
theorem Settles.exists_full (h : Settles stmt rule n now) (hrows : Healthy rows) :
    ∃ choice : Choice, choice.Full now rows stmt := by
  have hfirst : ∀ r ∈ (rows.filter rule.due).take n, r ∈ rows ∧ rule.due r = true := fun r hr =>
    List.mem_filter.mp (List.mem_of_mem_take hr)
  have hdistinct : (((rows.filter rule.due).take n).map Row.sequence).Nodup :=
    hrows.sequences.sublist (((List.take_sublist _ _).trans List.filter_sublist).map _)
  refine ⟨_, full_of_targets hdistinct ?_ h.picks h.limit ?_ ?_⟩
  · intro q hq
    obtain ⟨r, hr, rfl⟩ := List.mem_map.mp hq
    exact ⟨r, (hfirst r hr).1, rfl, (h.inner r).trans (hfirst r hr).2⟩
  · rw [List.length_map, List.length_take]
    exact Int.ofNat_le.mpr (Nat.min_le_left _ _)
  · intro r hr hinner hout
    refine ⟨?_, fun r' _ _ => h.ordered r' r⟩
    have hdue : r ∈ rows.filter rule.due := List.mem_filter.mpr ⟨hr, (h.inner r).symm.trans hinner⟩
    rw [List.length_map, List.length_take]
    by_contra hlt
    rw [List.take_of_length_le (by omega)] at hout
    exact hout (List.mem_map_of_mem hdue)

end

/-! ## Statements as passes -/

section
variable {stmts : List Stmt} {rules : List (Rule Row)} {n : Nat} {now : Timestamp}
  {rows rows' : List Row} {counts : List Nat}

/-- Statements that settle their rows run, each is a pass, and the last leaves a table in order. -/
theorem execAll_passes {env : Env} (hfails : ∀ k, env.fails k = false)
    (h : List.Forall₂ (fun stmt rule => Settles stmt rule n env.now) stmts rules)
    (hready : ∀ stmt ∈ stmts, stmt.ready env.now = true) (k : Nat) (hrows : Healthy rows)
    (hfull : env.Full k stmts rows) :
    ∃ rows' counts, env.execAll k stmts rows = (rows', .ok counts) ∧
      Passes n rules rows counts rows' ∧ Healthy rows' := by
  induction h generalizing k rows with
  | nil => exact ⟨rows, [], rfl, .nil rows, hrows⟩
  | @cons stmt rule stmts rules hsettles _ ih =>
      obtain ⟨hfirst, hready⟩ := List.forall_mem_cons.mp hready
      obtain ⟨rows₁, hexec, hpass, hrows₁⟩ := hsettles.exec hrows hfirst hfull.1
      have hstep : env.exec k stmt rows =
          .ok (rows₁, stmt.affected env.now (env.choice k) rows) := by
        simp only [Env.exec, hfails k, hexec, Bool.false_eq_true, if_false]
      obtain ⟨rows', counts, hrest, hpasses, hrows'⟩ := ih hready (k + 1) hrows₁ (hfull.2 _ _ hstep)
      refine ⟨rows', _, ?_, .cons hpass hpasses, hrows'⟩
      simp only [Env.execAll, hstep, hrest]
      rfl

theorem exists_plays (h : List.Forall₂ (fun stmt rule => Settles stmt rule n now) stmts rules)
    (hready : ∀ stmt ∈ stmts, stmt.ready now = true) (hrows : Healthy rows) :
    ∃ rows' counts, Plays now stmts rows rows' counts := by
  induction h generalizing rows with
  | nil => exact ⟨rows, [], .nil rows⟩
  | cons hsettles _ ih =>
      obtain ⟨hfirst, hready⟩ := List.forall_mem_cons.mp hready
      obtain ⟨choice, hfull⟩ := hsettles.exists_full hrows
      obtain ⟨rows₁, hexec, -, hrows₁⟩ := hsettles.exec hrows hfirst hfull
      obtain ⟨rows', counts, hplays⟩ := ih hready hrows₁
      exact ⟨rows', _, .cons hfull hexec hplays⟩

/-- What has run was ready. -/
theorem ready_of_execAll {env : Env} {k : Nat}
    (h : (env.execAll k stmts rows).2 = .ok counts) : ∀ stmt ∈ stmts, stmt.ready env.now = true := by
  induction stmts generalizing k rows counts with
  | nil => exact fun stmt hstmt => absurd hstmt List.not_mem_nil
  | cons stmt stmts ih =>
      simp only [Env.execAll] at h
      split at h
      · cases h
      · rename_i rows₁ count hexec
        obtain ⟨hexec, -⟩ := Env.exec_ok hexec
        refine List.forall_mem_cons.mpr ⟨?_, ?_⟩
        · by_contra hready
          simp only [Stmt.exec, hready, if_false] at hexec
          split at hexec
          · cases hexec
          · cases hexec
        · cases hrest : (env.execAll (k + 1) stmts rows₁).2 with
          | error err =>
              rw [hrest] at h
              cases h
          | ok rest => exact ih hrest

/-- A statement that is not issued is a pass of nothing. -/
theorem Passes.take_option {rule : Rule Row} {retention : Option Duration}
    (hp : Passes n ((retention.map fun _ => rule).toList ++ rules) rows counts rows')
    (hidle : retention = none → ∀ r, rule.due r = false) :
    ∃ rows₁, Pass rule n rows (takeCount retention counts).1 rows₁ ∧
      Passes n rules rows₁ (takeCount retention counts).2 rows' := by
  cases retention with
  | none => exact ⟨rows, pass_idle n rows (hidle rfl), hp⟩
  | some d =>
      cases hp with
      | cons hpass hrest => exact ⟨_, hpass, hrest⟩

end

/-! ## The SQL store -/

/-- Whole milliseconds, and strictly after. -/
def sqlReading : Reading where
  age := sqlRetention
  takes expires now := decide (expires < now)
  age_nonneg d := Int.mul_nonneg (Int.natCast_nonneg _) (by decide)

def rowView : Purgeable Row where
  sequence := Row.sequence
  publishedAt := Row.publishedAt
  deadAt := Row.deadAt
  expires r := r.columns.expires
  leaseFree now r := leaseFree now r
  swept now r := { r with
    deadAt := some now, deadReason := some (encodeDeadReason .expired)
    lastError := some "reliar: expired before publication"
    lockedBy := none, lockedUntil := none, updatedAt := now }
  swept_sequence _ _ := rfl
  swept_publishedAt _ _ := rfl
  swept_deadAt _ _ := rfl

/-- A call of `purge` at `now` that returns, while nobody else writes the table. -/
def PurgeCall (request : PurgeRequest) (now : Timestamp) (rows : List Row) (report : PurgeReport)
    (rows' : List Row) : Prop :=
  ∃ mode env, mode ≠ .transaction true ∧ env.now = now ∧ (∀ k, env.fails k = false) ∧
    env.Full 0 (purge request) rows ∧
    (Call.purge request).run mode env rows = (rows', .ok (.report report))

/-- One that fails, though the connection does not. -/
def PurgeFails (request : PurgeRequest) (now : Timestamp) (rows : List Row) : Prop :=
  ∃ mode env rows' err, mode ≠ .transaction true ∧ env.now = now ∧ (∀ k, env.fails k = false) ∧
    env.Full 0 (purge request) rows ∧
    (Call.purge request).run mode env rows = (rows', .error err)

/-- The documented loop at `now`: it ends, every call keeps the bounds, and the last leaves the job
done. -/
def PurgeLoop (request : PurgeRequest) (now : Timestamp) (rows : List Row) : Prop :=
  Ends (PurgeCall request now) (PurgeFails request now)
    (fun report => report.isComplete request.batchSize) (rowView.Within request.batchSize)
    (rowView.Finished .documented request now rows) rows

section
variable {request : PurgeRequest} {now : Timestamp} {rows rows' : List Row}
  {report : PurgeReport}

theorem olderThan_eq (at' : Option Timestamp) (now : Timestamp) (d : Duration) :
    olderThan at' now (millis d) = at'.any fun t => decide (t + sqlRetention d < now) := by
  cases at' with
  | none => rfl
  | some t =>
      simp only [olderThan, sqlRetention, Option.any_some]
      lia

/-- The statements of a purge, each with its rule. -/
theorem purge_settles (request : PurgeRequest) (now : Timestamp) :
    List.Forall₂ (fun stmt rule => Settles stmt rule request.batchSize now) (purge request)
      ((request.publishedRetention.map fun _ =>
          rowView.publishedRule sqlReading request now).toList ++
        ((request.deadRetention.map fun _ => rowView.deadRule sqlReading request now).toList ++
          [rowView.expiredRule sqlReading now])) := by
  have hpublished : ∀ d, request.publishedRetention = some d →
      Settles (.purgePublished (millis d) request.batchSize)
        (rowView.publishedRule sqlReading request now) request.batchSize now := by
    intro d hd
    refine ⟨rfl, fun r => ?_, fun _ _ => rfl, fun _ h => absurd h List.not_mem_nil,
      fun _ _ => rfl, fun _ _ => rfl⟩
    simp only [Purgeable.publishedRule, Purgeable.published, hd, Option.any_some]
    exact olderThan_eq r.publishedAt now d
  have hdead : ∀ d, request.deadRetention = some d →
      Settles (.purgeDeadRetention (millis d) request.batchSize)
        (rowView.deadRule sqlReading request now) request.batchSize now := by
    intro d hd
    refine ⟨rfl, fun r => ?_, fun _ _ => rfl, fun _ h => absurd h List.not_mem_nil,
      fun _ _ => rfl, fun _ _ => rfl⟩
    simp only [Purgeable.deadRule, Purgeable.dead, hd, Option.any_some]
    exact olderThan_eq r.deadAt now d
  have hexpired : Settles (.purgeExpiredSweep request.batchSize (encodeDeadReason .expired))
      (rowView.expiredRule sqlReading now) request.batchSize now := by
    refine ⟨rfl, fun r => ?_, fun _ _ => rfl, fun text htext => ?_, fun _ _ => rfl, fun _ _ => rfl⟩
    · have hexpires : expired now r = r.columns.expires.any fun t => decide (t < now) := by
        unfold expired
        cases r.columns.expires with
        | none => rfl
        | some t => rfl
      exact (Bool.and_comm _ _).trans (congrArg (sweepable now r && ·) hexpires)
    · rw [List.mem_singleton.mp htext]
      decide
  rw [purge, List.append_assoc]
  cases hp : request.publishedRetention with
  | none =>
      cases hd : request.deadRetention with
      | none => exact .cons hexpired .nil
      | some d' => exact .cons (hdead d' hd) (.cons hexpired .nil)
  | some d =>
      cases hd : request.deadRetention with
      | none => exact .cons (hpublished d hp) (.cons hexpired .nil)
      | some d' => exact .cons (hpublished d hp) (.cons (hdead d' hd) (.cons hexpired .nil))

/-- What the statements affected is what the call reports. -/
theorem called_of_passes {counts : List Nat} (hp : Passes request.batchSize
      ((request.publishedRetention.map fun _ =>
          rowView.publishedRule sqlReading request now).toList ++
        ((request.deadRetention.map fun _ => rowView.deadRule sqlReading request now).toList ++
          [rowView.expiredRule sqlReading now])) rows counts rows') :
    ∃ report, Call.reply counts (.purge request) = .report report ∧
      rowView.Called sqlReading request now rows report rows' := by
  obtain ⟨rows₁, hpublished, hp⟩ := Passes.take_option hp fun hnone r => by
    simp only [Purgeable.publishedRule, Purgeable.published, hnone, Option.any_none]
  obtain ⟨rows₂, hdead, hp⟩ := Passes.take_option hp fun hnone r => by
    simp only [Purgeable.deadRule, Purgeable.dead, hnone, Option.any_none]
  refine ⟨_, rfl, .sweepLast (.cons hpublished (.cons hdead ?_))⟩
  generalize (takeCount request.deadRetention (takeCount request.publishedRetention counts).2).2 =
    rest at hp
  cases hp with
  | cons hpass hrest =>
      cases hrest with
      | nil => exact .cons hpass (.nil _)

/-- What a call answers, when the `COMMIT` does not fail. -/
theorem run_of_execAll {mode : Mode} (hmode : mode ≠ .transaction true) {env : Env}
    {counts : List Nat} (h : env.execAll 0 (purge request) rows = (rows', .ok counts)) :
    (Call.purge request).run mode env rows = (rows', .ok (Call.reply counts (.purge request))) := by
  have hall : env.execAll 0 (Call.purge request).stmts rows = (rows', .ok counts) := h
  cases mode with
  | pool => simp only [Call.run, hall]
  | transaction fault =>
      cases fault with
      | true => exact absurd rfl hmode
      | false => simp only [Call.run, hall]

theorem PurgeCall.ready (h : PurgeCall request now rows report rows') :
    ∀ stmt ∈ purge request, stmt.ready now = true := by
  obtain ⟨mode, env, -, rfl, -, -, hrun⟩ := h
  obtain ⟨counts, hall⟩ := purge_run hrun
  exact ready_of_execAll (congrArg Prod.snd hall)

/-- A call that returns is three passes. -/
theorem PurgeCall.called (h : PurgeCall request now rows report rows') (hrows : Healthy rows) :
    Healthy rows' ∧ rowView.Called sqlReading request now rows report rows' := by
  have hready := h.ready
  obtain ⟨mode, env, hmode, rfl, hfails, hfull, hrun⟩ := h
  obtain ⟨rows₁, counts, hall, hpasses, hrows₁⟩ :=
    execAll_passes hfails (purge_settles request env.now) hready 0 hrows hfull
  obtain ⟨report₁, hreply, hcalled⟩ := called_of_passes hpasses
  rw [run_of_execAll hmode hall, hreply] at hrun
  cases hrun
  exact ⟨hrows₁, hcalled⟩

theorem not_purgeFails (hready : ∀ stmt ∈ purge request, stmt.ready now = true)
    (hrows : Healthy rows) : ¬ PurgeFails request now rows := by
  rintro ⟨mode, env, rows', err, hmode, rfl, hfails, hfull, hrun⟩
  obtain ⟨rows₁, counts, hall, -, -⟩ :=
    execAll_passes hfails (purge_settles request env.now) hready 0 hrows hfull
  rw [run_of_execAll hmode hall] at hrun
  cases hrun

theorem exists_purgeCall (hready : ∀ stmt ∈ purge request, stmt.ready now = true)
    (hrows : Healthy rows) : ∃ report rows', PurgeCall request now rows report rows' := by
  obtain ⟨rows', counts, hplays⟩ := exists_plays (purge_settles request now) hready hrows
  obtain ⟨choice, hfull, hall⟩ := hplays.exists_env 0
  have hpool : Mode.pool ≠ .transaction true := fun h => by cases h
  exact ⟨_, rows', .pool, playEnv now choice, hpool, rfl, fun _ => rfl, hfull,
    run_of_execAll hpool hall⟩

theorem Healthy.sound (h : Healthy rows) : rowView.Sound rows :=
  ⟨h.sequences, fun r hr => (h.ok r hr).terminal⟩

/-- The loop ends with the job it reads off the request done. -/
theorem ends_sql (hbatch : 1 ≤ request.batchSize)
    (hready : ∀ stmt ∈ purge request, stmt.ready now = true) (hrows : Healthy rows) :
    Ends (PurgeCall request now) (PurgeFails request now)
      (fun report => report.isComplete request.batchSize) (rowView.Within request.batchSize)
      (rowView.Finished sqlReading request now rows) rows :=
  Purgeable.ends_of_called (fun rows => rows) (I := Healthy) hbatch
    (fun _ h => h.sound) (fun _ h => not_purgeFails hready h) (fun _ h => exists_purgeCall hready h)
    (fun _ _ _ h hcall => hcall.called h) hrows

end

/-! ## The two readings -/

/-- A row that neither reading tells from the other: no retention has passed in whole milliseconds
only, and it does not expire at this very instant. -/
structure Clear (request : PurgeRequest) (now : Timestamp) (r : Row) : Prop where
  published : ∀ d, request.publishedRetention = some d → ∀ t, r.publishedAt = some t →
    t + sqlRetention d < now → t + d < now
  dead : ∀ d, request.deadRetention = some d → ∀ t, r.deadAt = some t →
    t + sqlRetention d < now → t + d < now
  expires : rowView.waiting now r = true → r.columns.expires ≠ some now

section
variable {request : PurgeRequest} {now : Timestamp} {r : Row}

theorem sqlRetention_le (d : Duration) : sqlRetention d ≤ d := by
  have hnat : min d.asMillis I64_MAX * 1000000 ≤ d := by
    refine le_trans (Nat.mul_le_mul_right _ (Nat.min_le_left _ _)) ?_
    exact Nat.div_mul_le_self d 1000000
  rw [sqlRetention, millis]
  exact_mod_cast hnat

/-- SQL drops what it should, and no sooner if the row is clear. -/
theorem drops_eq {retention : Option Duration} {at' : Option Timestamp}
    (h : ∀ d, retention = some d → ∀ t, at' = some t → t + sqlRetention d < now → t + d < now) :
    (retention.any fun d => at'.any fun t => decide (t + sqlRetention d < now)) =
      retention.any fun d : Duration => at'.any fun t => decide (t + (d : Int) < now) := by
  cases retention with
  | none => rw [Option.any_none, Option.any_none]
  | some d =>
      cases at' with
      | none => simp only [Option.any_some, Option.any_none]
      | some t =>
          have hle := sqlRetention_le d
          simp only [Option.any_some, decide_eq_decide]
          exact ⟨h d rfl t rfl, fun hlt => lt_of_le_of_lt (Int.add_le_add_left hle t) hlt⟩

theorem purged_of_clear (h : Clear request now r) :
    rowView.purged sqlReading request now r = rowView.purged .documented request now r := by
  have hpublished : rowView.published sqlReading request now r =
      rowView.published .documented request now r := drops_eq h.published
  have hdead : rowView.dead sqlReading request now r =
      rowView.dead .documented request now r := drops_eq h.dead
  have hexpired : rowView.expired sqlReading now r = rowView.expired .documented now r := by
    cases hw : rowView.waiting now r with
    | false => simp only [Purgeable.expired, hw, Bool.false_and]
    | true =>
        simp only [Purgeable.expired, hw, Bool.true_and]
        have hne := h.expires hw
        cases hx : rowView.expires r with
        | none => rfl
        | some t =>
            have hne : t ≠ now := fun heq => hne (heq ▸ hx)
            rw [Option.any_some, Option.any_some]
            refine decide_eq_decide.mpr ?_
            exact ⟨Int.le_of_lt, fun hle => lt_of_le_of_ne hle hne⟩
  simp only [Purgeable.purged, hpublished, hdead, hexpired]

/-- What is read as due is gone, and only what is past its retention should be. -/
theorem clear_of_purged (hterminal : r.publishedAt = none ∨ r.deadAt = none)
    (h : rowView.purged sqlReading request now r = rowView.purged .documented request now r) :
    Clear request now r := by
  have hgone : ∀ reading : Reading, rowView.purged reading request now r = none ↔
      rowView.published reading request now r = true ∨ rowView.dead reading request now r = true := by
    intro reading
    unfold Purgeable.purged
    rw [← Bool.or_eq_true]
    split
    · rename_i hdue
      exact ⟨fun _ => hdue, fun _ => rfl⟩
    · rename_i hnot
      refine ⟨fun hnone => ?_, fun hdue => absurd hdue hnot⟩
      split at hnone
      · cases hnone
      · cases hnone
  have hboth : r.publishedAt.isSome = true → r.deadAt.isSome = true → False := by
    intro hp hd
    rcases hterminal with hnone | hnone
    · rw [hnone] at hp
      cases hp
    · rw [hnone] at hd
      cases hd
  refine ⟨?_, ?_, ?_⟩
  · intro d hd t ht hlt
    have hdue : rowView.published sqlReading request now r = true := by
      have hpast : decide (t + sqlRetention d < now) = true := decide_eq_true hlt
      have hat : rowView.publishedAt r = some t := ht
      simp only [Purgeable.published, hd, hat, Option.any_some]
      exact hpast
    rcases (hgone .documented).mp (h ▸ (hgone sqlReading).mpr (.inl hdue)) with hp | hdead
    · have hat : rowView.publishedAt r = some t := ht
      simp only [Purgeable.published, hd, hat, Option.any_some] at hp
      exact of_decide_eq_true hp
    · exact (hboth (Purgeable.published_isSome hdue) (Purgeable.dead_isSome hdead)).elim
  · intro d hd t ht hlt
    have hdue : rowView.dead sqlReading request now r = true := by
      have hpast : decide (t + sqlRetention d < now) = true := decide_eq_true hlt
      have hat : rowView.deadAt r = some t := ht
      simp only [Purgeable.dead, hd, hat, Option.any_some]
      exact hpast
    rcases (hgone .documented).mp (h ▸ (hgone sqlReading).mpr (.inr hdue)) with hp | hdead
    · exact (hboth (Purgeable.published_isSome hp) (Purgeable.dead_isSome hdue)).elim
    · have hat : rowView.deadAt r = some t := ht
      simp only [Purgeable.dead, hd, hat, Option.any_some] at hdead
      exact of_decide_eq_true hdead
  · intro hwaiting hexpires
    have hx : rowView.expires r = some now := hexpires
    -- SQL leaves the row, the documentation sweeps it
    have hleft : rowView.expired sqlReading now r = false := by
      have hnot : decide (now < now) = false := decide_eq_false (lt_irrefl now)
      simp only [Purgeable.expired, hwaiting, hx, Option.any_some, Bool.true_and]
      exact hnot
    have htaken : rowView.expired .documented now r = true := by
      have hle : decide (now ≤ now) = true := decide_eq_true (le_refl now)
      simp only [Purgeable.expired, hwaiting, hx, Option.any_some, Bool.true_and]
      exact hle
    obtain ⟨hpublished, hdead⟩ := Purgeable.expired_live htaken
    have hnone : ∀ reading : Reading, (rowView.published reading request now r ||
        rowView.dead reading request now r) = false := by
      intro reading
      rw [Bool.or_eq_false_iff, Bool.eq_false_iff, Bool.eq_false_iff]
      refine ⟨fun hp => ?_, fun hd => ?_⟩
      · have hsome := Purgeable.published_isSome hp
        rw [hpublished] at hsome
        cases hsome
      · have hsome := Purgeable.dead_isSome hd
        rw [hdead] at hsome
        cases hsome
    simp only [Purgeable.purged, hnone, hleft, htaken, Bool.false_eq_true, if_false, if_true,
      Option.some.injEq] at h
    have hat : rowView.deadAt r = some now := by
      rw [h]
      exact rowView.swept_deadAt now r
    rw [hdead] at hat
    cases hat

end

/-- The loop of the SQL store. -/
theorem purgeLoop_iff {request : PurgeRequest} {now : Timestamp} {rows : List Row}
    (hrows : Healthy rows) : PurgeLoop request now rows ↔
      1 ≤ request.batchSize ∧ (∀ stmt ∈ purge request, stmt.ready now = true) ∧
        ∀ r ∈ rows, Clear request now r := by
  constructor
  · intro hloop
    have hbatch : 1 ≤ request.batchSize := by
      by_contra hzero
      refine not_ends_of_incomplete (fun _ report _ _ => ?_) hloop
      have hzero : request.batchSize = 0 := by omega
      rw [hzero]
      rfl
    have hready : ∀ stmt ∈ purge request, stmt.ready now = true := by
      cases hloop with
      | call _ hcall _ _ _ =>
          obtain ⟨report, rows', hcall⟩ := hcall
          exact hcall.ready
    obtain ⟨rows', hsql, hdocumented⟩ := (ends_sql hbatch hready hrows).common hloop
    refine ⟨hbatch, hready, fun r hr => clear_of_purged (hrows.ok r hr).terminal ?_⟩
    exact eq_of_filterMap_eq rowView.sequence hrows.sequences
      (fun _ _ => Purgeable.purged_sequence) (fun _ _ => Purgeable.purged_sequence)
      (hsql.others.symm.trans hdocumented.others) r hr
  · rintro ⟨hbatch, hready, hclear⟩
    refine (ends_sql hbatch hready hrows).mono fun rows' hfinished => ?_
    rw [Purgeable.finished_iff] at hfinished ⊢
    rw [hfinished]
    exact List.filterMap_congr fun r hr => purged_of_clear (hclear r hr)

end Reliar.Store.Postgres

namespace Reliar.Store.Memory

open Reliar.Core Reliar.Outbox Drain

/-! ## The in-memory store -/

def recordView : Purgeable OutboxRecord where
  sequence r := r.sequence
  publishedAt r := r.publishedAt
  deadAt r := r.deadAt
  expires r := r.envelope.expiresAt
  leaseFree now r := leaseIsFree r now
  swept := sweepRow
  swept_sequence _ _ := rfl
  swept_publishedAt _ _ := rfl
  swept_deadAt _ _ := rfl

/-- `now - retention` panics outside the range of `OffsetDateTime`. -/
def Cutoffs (request : PurgeRequest) (now : Timestamp) : Prop :=
  ∀ d, request.publishedRetention = some d ∨ request.deadRetention = some d →
    OffsetDateTime.MIN_NANOS ≤ now - d

/-- A call of `purge` that returns. -/
def PurgeCall (request : PurgeRequest) (s : Inner) (report : PurgeReport) (s' : Inner) : Prop :=
  Cutoffs request s.now ∧ tryPurge request s = (.ok report, s')

def PurgeFails (request : PurgeRequest) (s : Inner) : Prop :=
  ¬ Cutoffs request s.now ∨ ∃ err, (tryPurge request s).1 = .error err

/-- The documented loop. -/
def PurgeLoop (request : PurgeRequest) (s : Inner) : Prop :=
  Ends (PurgeCall request) (PurgeFails request)
    (fun report => report.isComplete request.batchSize)
    (fun s s' => recordView.Within request.batchSize s.rows s'.rows)
    (fun s' => recordView.Finished .documented request s.now s.rows s'.rows) s

section
variable {request : PurgeRequest} {now : Timestamp} {rows : List OutboxRecord} {n : Nat}

/-- The sweep's loop is a pass. -/
theorem sweepRows_pass (now : Timestamp) (n : Nat)
    (hnd : (sequences rows).Nodup) :
    Pass (recordView.expiredRule .documented now) n rows (sweepRows now n rows).2
      (sweepRows now n rows).1 := by
  have hdue : (recordView.expiredRule .documented now).due = sweepable now := by
    funext r
    rfl
  have hpass := pass_first (fun r : OutboxRecord => r.sequence)
    (recordView.expiredRule .documented now) n hnd
  rw [hdue] at hpass
  have hrows : (rows.filterMap fun r =>
      if decide (r.sequence ∈ firstOf (sweepable now) n rows) then some (sweepRow now r)
      else some r) = rows.map fun r =>
        if r.sequence ∈ firstOf (sweepable now) n rows then sweepRow now r else r := by
    rw [← List.filterMap_eq_map]
    refine List.filterMap_congr fun r _ => ?_
    by_cases hmem : r.sequence ∈ firstOf (sweepable now) n rows
    · rw [decide_eq_true hmem, if_pos rfl, Function.comp_apply, if_pos hmem]
    · rw [decide_eq_false hmem, if_neg Bool.false_ne_true, Function.comp_apply, if_neg hmem]
  rw [sweepRows_eq now n rows hnd]
  have hlength : (firstOf (sweepable now) n rows).length =
      ((rows.filter (sweepable now)).take n).length := List.length_map ..
  rw [hlength, ← hrows]
  exact hpass

/-- A bounded `retain` is a pass. -/
theorem dropRows_pass {rule : Rule OutboxRecord} {p : OutboxRecord → Bool}
    (hdue : ∀ r, rule.due r = p r) (hsettle : ∀ r, rule.settle r = none) (n : Nat)
    (hnd : (sequences rows).Nodup) :
    Pass rule n rows (dropRows p n rows).2 (dropRows p n rows).1 := by
  have hpass := pass_first (fun r : OutboxRecord => r.sequence) rule n hnd
  have hp : rule.due = p := funext hdue
  rw [hp] at hpass
  have hrows : (rows.filterMap fun r =>
      if decide (r.sequence ∈ firstOf p n rows) then rule.settle r else some r) =
        rows.filter fun r => !decide (r.sequence ∈ firstOf p n rows) := by
    rw [← List.filterMap_eq_filter]
    refine List.filterMap_congr fun r _ => ?_
    cases hmem : decide (r.sequence ∈ firstOf p n rows) with
    | true => simp [hmem, hsettle, Option.guard]
    | false => simp [hmem, Option.guard]
  rw [dropRows_eq p n rows hnd]
  have hlength : (firstOf p n rows).length = ((rows.filter p).take n).length := List.length_map ..
  rw [hlength, ← hrows]
  exact hpass

theorem dropOld_pass (rule : Rule OutboxRecord) (now : Timestamp) (retention : Option Duration)
    (at' : OutboxRecord → Option Timestamp)
    (hdue : ∀ r, rule.due r = retention.any fun d : Duration =>
      (at' r).any fun t => decide (t + (d : Int) < now))
    (hsettle : ∀ r, rule.settle r = none) (n : Nat) (hnd : (sequences rows).Nodup) :
    Pass rule n rows (dropOld now retention at' n rows).2 (dropOld now retention at' n rows).1 := by
  cases retention with
  | none => exact pass_idle n rows hdue
  | some d =>
      refine dropRows_pass (fun r => ?_) hsettle n hnd
      rw [hdue, Option.any_some]
      cases at' r with
      | none => rfl
      | some t =>
          have hlt : t + (d : Int) < now ↔ t < now - d := by lia
          exact decide_eq_decide.mpr hlt

/-- A call that returns is three passes, the sweep first. -/
theorem PurgeCall.called {s s' : Inner} {report : PurgeReport}
    (h : PurgeCall request s report s') (hunarmed : Unarmed s)
    (hnd : (sequences s.rows).Nodup) :
    s'.now = s.now ∧ Unarmed s' ∧
      recordView.Called .documented request s.now s.rows report s'.rows := by
  obtain ⟨-, hrun⟩ := h
  rw [tryPurge, hunarmed.guarded] at hrun
  obtain ⟨hreport, hs'⟩ := Prod.mk.inj hrun
  cases hreport
  cases hs'
  have hswept : (sequences (sweepRows s.now request.batchSize s.rows).1).Nodup := by
    rw [sweepRows_sequences]
    exact hnd
  have hsweep := sweepRows_pass s.now request.batchSize hnd
  have hpublished := dropOld_pass (recordView.publishedRule .documented request s.now) s.now
    request.publishedRetention (·.publishedAt) (fun _ => rfl) (fun _ => rfl)
    request.batchSize hswept
  have hleft : (sequences (dropOld s.now request.publishedRetention (·.publishedAt)
      request.batchSize (sweepRows s.now request.batchSize s.rows).1).1).Nodup :=
    hswept.sublist ((dropOld_sublist ..).map _)
  have hdead := dropOld_pass (recordView.deadRule .documented request s.now) s.now
    request.deadRetention (·.deadAt) (fun _ => rfl) (fun _ => rfl) request.batchSize hleft
  exact ⟨rfl, ⟨hunarmed.failNext, hunarmed.failNextPermanent, hunarmed.failNextComplete⟩,
    .sweepFirst (.cons hsweep (.cons hpublished (.cons hdead (.nil _))))⟩

end

/-- The loop of the in-memory store, while no failure is armed. -/
theorem purgeLoop_iff {request : PurgeRequest} {s : Inner} (hunarmed : Unarmed s)
    (hrows : recordView.Sound s.rows) :
    PurgeLoop request s ↔ 1 ≤ request.batchSize ∧ Cutoffs request s.now := by
  constructor
  · intro hloop
    refine ⟨?_, ?_⟩
    · by_contra hzero
      refine not_ends_of_incomplete (fun _ report _ _ => ?_) hloop
      have hzero : request.batchSize = 0 := by omega
      rw [hzero]
      rfl
    · cases hloop with
      | call _ hcall _ _ _ =>
          obtain ⟨report, s', hcall⟩ := hcall
          exact hcall.1
  · rintro ⟨hbatch, hcutoffs⟩
    refine Purgeable.ends_of_called (fun s : Inner => s.rows)
      (I := fun s₁ => s₁.now = s.now ∧ Unarmed s₁ ∧ recordView.Sound s₁.rows) hbatch
      (fun _ h => h.2.2) ?_ ?_ ?_ ⟨rfl, hunarmed, hrows⟩
    · rintro s₁ ⟨hnow, hunarmed, -⟩ (hcut | ⟨err, herr⟩)
      · exact hcut (hnow ▸ hcutoffs)
      · rw [tryPurge, hunarmed.guarded] at herr
        cases herr
    · rintro s₁ ⟨hnow, hunarmed, -⟩
      exact ⟨_, _, hnow ▸ hcutoffs, hunarmed.guarded _⟩
    · rintro s₁ report s' ⟨hnow, hunarmed, hsound⟩ hcall
      obtain ⟨hnow', hunarmed', hcalled⟩ := hcall.called hunarmed hsound.sequences
      rw [hnow] at hcalled
      exact ⟨⟨hnow'.trans hnow, hunarmed', hcalled.sound hsound⟩, hcalled⟩

end Reliar.Store.Memory

namespace Reliar.Store

open Reliar.Core Reliar.Outbox Postgres

/-! ## Both stores -/

/-- For every request and every table in order: the documented loop ends, keeps the bounds and does
the job exactly when `batch_size` is not zero, the cutoffs can be computed and, in SQL, no row lies
where the request is read otherwise. -/
theorem purge_loop_iff (request : PurgeRequest) :
    (∀ now rows, Healthy rows → (Postgres.PurgeLoop request now rows ↔
      1 ≤ request.batchSize ∧ (∀ stmt ∈ purge request, stmt.ready now = true) ∧
        ∀ r ∈ rows, Clear request now r)) ∧
    ∀ s, Unarmed s → Memory.recordView.Sound s.rows → (Memory.PurgeLoop request s ↔
      1 ≤ request.batchSize ∧ Memory.Cutoffs request s.now) :=
  ⟨fun _ _ hrows => Postgres.purgeLoop_iff hrows,
    fun _ hunarmed hrows => Memory.purgeLoop_iff hunarmed hrows⟩

theorem Unarmed.default : Unarmed Memory.Inner.default := ⟨rfl, rfl, rfl⟩

theorem Sound.nil : Memory.recordView.Sound [] :=
  ⟨List.nodup_nil, fun _ hr => absurd hr List.not_mem_nil⟩

/-- Two waiting rows, one of them expired, and one row a call. -/
theorem purge_loop_apart :
    Postgres.PurgeLoop ⟨none, none, 1⟩ 50
        [expiringRow 1 49 (by decide), expiringRow 2 51 (by decide)] ∧
      Memory.PurgeLoop ⟨none, none, 1⟩ Memory.Inner.default := by
  have hrows : Healthy [expiringRow 1 49 (by decide), expiringRow 2 51 (by decide)] := by
    refine ⟨?_, by decide⟩
    intro r hr
    rcases List.mem_pair.mp hr with rfl | rfl
    · exact ⟨by decide, by decide, by decide, by decide, rfl, .inl rfl, rfl, fun h => absurd rfl h⟩
    · exact ⟨by decide, by decide, by decide, by decide, rfl, .inl rfl, rfl, fun h => absurd rfl h⟩
  refine ⟨((purge_loop_iff ⟨none, none, 1⟩).1 50 _ hrows).mpr ⟨le_refl 1, ?_, ?_⟩, ?_⟩
  · intro stmt hstmt
    rw [List.mem_singleton.mp hstmt]
    rfl
  · intro r hr
    refine ⟨fun d hd => ?_, fun d hd => ?_, fun _ => ?_⟩
    · cases hd
    · cases hd
    · rcases List.mem_pair.mp hr with rfl | rfl
      · decide
      · decide
  · refine ((purge_loop_iff ⟨none, none, 1⟩).2 _ .default Sound.nil).mpr ⟨le_refl 1, ?_⟩
    rintro d (hd | hd)
    · cases hd
    · cases hd

/-- At a `batch_size` of zero the loop does not end, even with nothing to do; `Duration::MAX` makes
every call fail; and a row is still there at its `expires_at`. -/
theorem purge_loop_zero :
    ¬ Postgres.PurgeLoop ⟨none, none, 0⟩ 50 [] ∧
      ¬ Memory.PurgeLoop ⟨none, none, 0⟩ Memory.Inner.default ∧
      ¬ Postgres.PurgeLoop ⟨some DURATION_MAX, none, 10⟩ 50 [] ∧
      ¬ Memory.PurgeLoop ⟨some DURATION_MAX, none, 10⟩ Memory.Inner.default ∧
      ¬ Postgres.PurgeLoop ⟨none, none, 10⟩ 50 [expiringRow 1 50 (by decide)] := by
  have hnil : Healthy [] := ⟨fun _ hr => absurd hr List.not_mem_nil, List.nodup_nil⟩
  have hrow : Healthy [expiringRow 1 50 (by decide)] := by
    refine ⟨?_, by decide⟩
    intro r hr
    rw [List.mem_singleton.mp hr]
    exact ⟨by decide, by decide, by decide, by decide, rfl, .inl rfl, rfl, fun h => absurd rfl h⟩
  refine ⟨fun h => ?_, fun h => ?_, fun h => ?_, fun h => ?_, fun h => ?_⟩
  · exact absurd ((Postgres.purgeLoop_iff hnil).mp h).1 (by decide)
  · exact absurd ((Memory.purgeLoop_iff .default Sound.nil).mp h).1 (by decide)
  · have hready := ((Postgres.purgeLoop_iff hnil).mp h).2.1
      (.purgePublished (millis DURATION_MAX) 10) List.mem_cons_self
    exact absurd hready (by decide)
  · have hcut := ((Memory.purgeLoop_iff .default Sound.nil).mp h).2 DURATION_MAX (.inl rfl)
    exact absurd hcut (by decide)
  · have hclear := ((Postgres.purgeLoop_iff hrow).mp h).2.2 _ List.mem_cons_self
    exact hclear.expires (by decide) (by decide)

end Reliar.Store
