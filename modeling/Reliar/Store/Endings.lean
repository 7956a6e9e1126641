/-
# `Reliar.Store.Endings` — how a message ends (`reliar-store-postgres`: `store.rs`)

A message leaves the outbox published or dead, and the row says why.  Whether the
row is right is a question about the callers: `Evidence` is what is known of a
message outside the store, and `Backs` asks it of every outcome a statement carries.
Then every statement keeps the table explained, and what it deletes had an ending.
-/
import Reliar.Store.Writes

namespace Reliar.Store.Postgres

open Reliar.Core Reliar.Outbox

/-- What is known of a message outside the store. -/
structure Evidence where
  /-- it has been delivered -/
  delivered : MessageRef → Columns → Prop
  /-- a delivery has failed, and that was the verdict on it -/
  refused : MessageRef → Columns → DeadReason → Prop
  /-- the clock has shown this -/
  shown : Timestamp → Prop

namespace Evidence

variable (C : Evidence)

/-- Why a message is dead since `death`, by the reason on its row. -/
inductive Death (m : MessageRef) (columns : Columns) (death : Timestamp) : String → Prop
  | refused {reason : DeadReason}
      (hreason : reason = .permanentError ∨ reason = .attemptsExhausted)
      (h : C.refused m columns reason) : Death m columns death (encodeDeadReason reason)
  | expired {expiry : Timestamp} (hexpiry : columns.expires = some expiry) (h : expiry < death)
      (hshown : C.shown death) : Death m columns death (encodeDeadReason .expired)
  | undecodable {fault : RowFault} (h : decodeEnvelope columns = .error fault) :
      Death m columns death (encodeDeadReason .undecodable)

/-- The row's ending, if it has one, has evidence. -/
structure Explains (r : Row) : Prop where
  published : r.publishedAt.isSome = true → C.delivered r.messageRef r.columns
  dead : ∀ death, r.deadAt = some death →
    ∃ text, r.deadReason = some text ∧ C.Death r.messageRef r.columns death text

/-- The message has ended. -/
def Ended (m : MessageRef) (columns : Columns) : Prop :=
  C.delivered m columns ∨ ∃ death text, C.Death m columns death text

/-- The outcomes a statement carries have evidence, for every message there has been. -/
structure Backs (inserted : List (MessageRef × Columns)) (now : Timestamp) (stmt : Stmt) : Prop where
  complete : ∀ ids worker, stmt = .complete ids worker → ∀ p ∈ inserted, p.1.id.uuid ∈ ids →
    C.delivered p.1 p.2
  failDead : ∀ items worker, stmt = .failDead items worker → ∀ p ∈ inserted, ∀ err text,
    (p.1.id.uuid, err, text) ∈ items → ∃ reason, text = encodeDeadReason reason ∧
      (reason = .permanentError ∨ reason = .attemptsExhausted) ∧ C.refused p.1 p.2 reason
  poison : ∀ items worker reason, stmt = .poisonSweep items worker reason →
    reason = encodeDeadReason .undecodable ∧ ∀ p ∈ inserted, p.1.id.uuid ∈ items.map Prod.fst →
      ∃ fault, decodeEnvelope p.2 = .error fault
  sweep : ∀ n reason, stmt = .purgeExpiredSweep n reason →
    reason = encodeDeadReason .expired ∧ C.shown now

/-- What a method records has evidence. -/
structure Vouches (inserted : List (MessageRef × Columns)) (now : Timestamp) (c : Call) : Prop where
  complete : ∀ worker items, c = .complete worker items → ∀ item ∈ items, ∀ p ∈ inserted,
    p.1.id = item.message.id → C.delivered p.1 p.2
  fail : ∀ worker items, c = .fail worker items → ∀ item ∈ items, ∀ reason,
    item.outcome = .dead reason → ∀ p ∈ inserted, p.1.id = item.message.id →
      (reason = .permanentError ∨ reason = .attemptsExhausted) ∧ C.refused p.1 p.2 reason
  purge : ∀ request, c = .purge request → C.shown now

/-- A table whose rows are explained, and from which only messages that have ended are missing. -/
structure Covers (inserted : List (MessageRef × Columns)) (rows : List Row) : Prop where
  healthy : Healthy rows
  ids : (rows.map fun r => r.columns.id).Nodup
  known : ∀ r ∈ rows, (r.messageRef, r.columns) ∈ inserted
  explained : ∀ r ∈ rows, C.Explains r
  kept : ∀ p ∈ inserted, (∃ r ∈ rows, (r.messageRef, r.columns) = p) ∨ C.Ended p.1 p.2

variable {C} {C' : Evidence}

/-- Evidence is never withdrawn. -/
structure Grows (C C' : Evidence) : Prop where
  delivered : ∀ m columns, C.delivered m columns → C'.delivered m columns
  refused : ∀ m columns reason, C.refused m columns reason → C'.refused m columns reason
  shown : ∀ now, C.shown now → C'.shown now

theorem Death.grow (hgrows : C.Grows C') {m : MessageRef} {columns : Columns} {death : Timestamp}
    {text : String} (h : C.Death m columns death text) : C'.Death m columns death text := by
  cases h with
  | refused hreason h => exact .refused hreason (hgrows.refused _ _ _ h)
  | expired hexpiry h hshown => exact .expired hexpiry h (hgrows.shown _ hshown)
  | undecodable h => exact .undecodable h

theorem Covers.grow (hgrows : C.Grows C') {inserted : List (MessageRef × Columns)} {rows : List Row}
    (h : C.Covers inserted rows) : C'.Covers inserted rows where
  healthy := h.healthy
  ids := h.ids
  known := h.known
  explained r hr :=
    { published := fun hp => hgrows.delivered _ _ ((h.explained r hr).published hp)
      dead := fun death hd =>
        let ⟨text, htext, hcause⟩ := (h.explained r hr).dead death hd
        ⟨text, htext, hcause.grow hgrows⟩ }
  kept p hp := by
    refine (h.kept p hp).imp_right fun hended => ?_
    rcases hended with hdelivered | ⟨death, text, hcause⟩
    · exact .inl (hgrows.delivered _ _ hdelivered)
    · exact .inr ⟨death, text, hcause.grow hgrows⟩

theorem Explains.congr {r r' : Row} (h : C.Explains r) (href : r'.messageRef = r.messageRef)
    (hcolumns : r'.columns = r.columns) (hpublished : r'.publishedAt = r.publishedAt)
    (hdead : r'.deadAt = r.deadAt) (hreason : r'.deadReason = r.deadReason) : C.Explains r' where
  published hp := by
    rw [href, hcolumns]
    exact h.published (hpublished ▸ hp)
  dead death hd := by
    rw [href, hcolumns, hreason]
    exact h.dead death (hdead ▸ hd)

/-- An ending stays one. -/
theorem Explains.ended {r : Row} (h : C.Explains r)
    (hr : r.publishedAt.isSome = true ∨ r.deadAt.isSome = true) :
    C.Ended r.messageRef r.columns := by
  rcases hr with hpublished | hdead
  · exact .inl (h.published hpublished)
  · obtain ⟨death, hdeath⟩ := Option.isSome_iff_exists.mp hdead
    obtain ⟨text, -, hcause⟩ := h.dead death hdeath
    exact .inr ⟨death, text, hcause⟩

end Evidence

/-! ## One statement -/

/-- A row version that a statement writes: it qualified when the statement began, and the item used
is one for this row. -/
structure Wrote (now : Timestamp) (stmt : Stmt) (r r' : Row) : Prop where
  update : Update now r stmt r'
  inner : stmt.inner now r = true
  item : ∃ i, stmt.picks i r = true ∧ stmt.set now i r = .ok (some r')

section
variable {rows rows' : List Row} {stmt : Stmt} {env : Env} {k count : Nat}

/-- What a statement makes of a row: nothing, a new version, or it is gone. -/
theorem onRow_cases {now : Timestamp} {choice : Choice} (hnd : (rows.map Row.sequence).Nodup)
    (hvalid : choice.Valid now rows stmt) {r : Row} {o : Option Row} (hr : r ∈ rows)
    (h : stmt.onRow now choice r = .ok o) :
    o = some r ∨ (∃ r', o = some r' ∧ Wrote now stmt r r') ∨ o = none ∧ Delete now r stmt := by
  by_cases htarget : r.sequence ∈ choice.targets
  · have hinner : stmt.inner now r = true := inner_of_target hnd hvalid hr htarget
    have houter : stmt.outer now r = true := Stmt.outer_of_inner hinner
    have hset := Stmt.onRow_inside h htarget houter
    rcases Stmt.onRow_target h htarget houter with ⟨r', rfl, hu⟩ | hgone
    · exact .inr (.inl ⟨r', rfl, hu, hinner, _, hvalid.item r hr htarget, hset⟩)
    · exact .inr (.inr hgone)
  · rw [Stmt.onRow_outside htarget] at h
    exact .inl (Except.ok.inj h).symm

/-- Where a row of the table after a statement comes from. -/
theorem exec_back (hnd : (rows.map Row.sequence).Nodup)
    (hvalid : (env.choice k).Valid env.now rows stmt)
    (h : env.exec k stmt rows = .ok (rows', count)) {r' : Row} (hr' : r' ∈ rows') :
    ∃ r ∈ rows, r' = r ∨ Wrote env.now stmt r r' := by
  obtain ⟨r, hr, hrow⟩ := (Stmt.onRows_mem (Stmt.exec_onRows (Env.exec_ok h).1)).mp hr'
  refine ⟨r, hr, ?_⟩
  rcases onRow_cases hnd hvalid hr hrow with hsame | ⟨x, hx, hwrote⟩ | ⟨hnone, -⟩
  · exact .inl (Option.some.inj hsame)
  · rw [Option.some.inj hx]
    exact .inr hwrote
  · cases hnone

/-- What becomes of a row of the table before it. -/
theorem exec_forth (hnd : (rows.map Row.sequence).Nodup)
    (hvalid : (env.choice k).Valid env.now rows stmt)
    (h : env.exec k stmt rows = .ok (rows', count)) {r : Row} (hr : r ∈ rows) :
    (∃ r' ∈ rows', r' = r ∨ Wrote env.now stmt r r') ∨ Delete env.now r stmt := by
  have hrows := Stmt.exec_onRows (Env.exec_ok h).1
  obtain ⟨o, ho⟩ := (Stmt.onRows_ok.mp hrows).1 r hr
  rcases onRow_cases hnd hvalid hr ho with rfl | ⟨r', rfl, hwrote⟩ | ⟨-, hgone⟩
  · exact .inl ⟨r, (Stmt.onRows_mem hrows).mpr ⟨r, hr, ho⟩, .inl rfl⟩
  · exact .inl ⟨r', (Stmt.onRows_mem hrows).mpr ⟨r, hr, ho⟩, .inr hwrote⟩
  · exact .inr hgone

end

theorem Wrote.same {now : Timestamp} {stmt : Stmt} {r r' : Row} (h : Wrote now stmt r r') :
    r'.messageRef = r.messageRef ∧ r'.columns = r.columns := by
  obtain ⟨hcolumns, hcreated, -⟩ := h.update.immutable
  exact ⟨by rw [Row.messageRef, Row.messageRef, hcolumns, hcreated], hcolumns⟩

/-- A returned row is a new version of a row of the table. -/
theorem returned_update {now : Timestamp} {choice : Choice} {request : AcquireRequest}
    {rows : List Row} {x : Row} (h : x ∈ returnedRows now choice (acquire request) rows) :
    ∃ r ∈ rows, Update now r (acquire request) x := by
  obtain ⟨r, hr, hafter⟩ := List.mem_filterMap.mp h
  obtain ⟨hmem, hpicked⟩ := List.mem_filter.mp hr
  simp only [Bool.and_eq_true, decide_eq_true_eq] at hpicked
  unfold Stmt.after at hafter
  split at hafter
  · rename_i o ho
    subst hafter
    rcases Stmt.onRow_target ho hpicked.1 hpicked.2 with ⟨r', heq, hu⟩ | ⟨hnone, -⟩
    · cases heq
      exact ⟨r, hmem, hu⟩
    · cases hnone
  · cases hafter

/-- A record of the batch is a row that was returned, decoded. -/
theorem acquire_decoded {rendering : Rendering} {request : AcquireRequest} {env env' : Env}
    {rows : List Row} {batch : AcquiredBatch} {record : OutboxRecord}
    (h : (runAcquireThen rendering request env env' rows).2 = .ok batch)
    (hrecord : record ∈ batch.records) :
    record ∈ decoded (returnedRows env.now (env.choice 0) (acquire request) rows) := by
  simp only [runAcquireThen] at h
  split at h
  · cases h
  · split at h
    · cases h
      exact hrecord
    · split at h
      · cases h
      · cases h
        exact hrecord

/-- What is deleted has ended. -/
theorem Delete.ended {now : Timestamp} {stmt : Stmt} {r : Row} (h : Delete now r stmt) :
    r.publishedAt.isSome = true ∨ r.deadAt.isSome = true := by
  have hold : ∀ {at' : Option Timestamp} {ms : Int}, olderThan at' now ms = true →
      at'.isSome = true := by
    intro at' ms hold
    cases at' with
    | none => cases hold
    | some t => rfl
  cases h with
  | published h => exact .inl (hold h)
  | dead h => exact .inr (hold h)
  | purgeDead _ h => exact .inr h

/-! ## What a method's statements carry -/

/-- The statements that end a message. -/
def Stmt.ends : Stmt → Bool
  | .complete .. | .failDead .. | .poisonSweep .. | .purgeExpiredSweep .. => true
  | _ => false

namespace Evidence

section
variable {C : Evidence} {inserted : List (MessageRef × Columns)} {now : Timestamp} {stmt : Stmt}
  {c : Call}

theorem Backs.of_quiet (h : stmt.ends = false) : C.Backs inserted now stmt where
  complete ids worker heq := by rw [heq] at h; cases h
  failDead items worker heq := by rw [heq] at h; cases h
  poison items worker reason heq := by rw [heq] at h; cases h
  sweep n reason heq := by rw [heq] at h; cases h

theorem backs_of_sweep (h : C.shown now) {n : Int} :
    C.Backs inserted now (.purgeExpiredSweep n (encodeDeadReason .expired)) where
  complete _ _ heq := by cases heq
  failDead _ _ heq := by cases heq
  poison _ _ _ heq := by cases heq
  sweep _ _ heq := by cases heq; exact ⟨rfl, h⟩

/-- A method hands its evidence on to its statements. -/
theorem Vouches.backs (h : C.Vouches inserted now c) : ∀ stmt ∈ c.stmts, C.Backs inserted now stmt := by
  intro stmt hstmt
  cases c with
  | complete worker items =>
      simp only [Call.stmts] at hstmt
      split at hstmt
      · cases hstmt
      · rw [List.mem_singleton.mp hstmt]
        refine ⟨?_, (fun _ _ heq => by cases heq), (fun _ _ _ heq => by cases heq),
          (fun _ _ heq => by cases heq)⟩
        rintro _ _ ⟨⟩ p hp hid
        obtain ⟨item, hitem, hsame⟩ := List.mem_map.mp hid
        exact h.complete worker items rfl item hitem p hp (congrArg MessageId.mk hsame.symm)
  | fail worker items =>
      simp only [Call.stmts, Postgres.fail] at hstmt
      split at hstmt
      · cases hstmt
      · rcases List.mem_append.mp hstmt with hstmt | hstmt
        · split at hstmt
          · cases hstmt
          · rw [List.mem_singleton.mp hstmt]
            exact .of_quiet rfl
        · split at hstmt
          · cases hstmt
          · rw [List.mem_singleton.mp hstmt]
            refine ⟨(fun _ _ heq => by cases heq), ?_, (fun _ _ _ heq => by cases heq),
              (fun _ _ heq => by cases heq)⟩
            rintro _ _ ⟨⟩ p hp err text hdeath
            obtain ⟨item, hitem, reason, hout, heq⟩ := mem_deaths.mp hdeath
            obtain ⟨hid, -, rfl⟩ : p.1.id.uuid = item.message.id.uuid ∧ err = item.error ∧
                text = encodeDeadReason reason := by simpa only [Prod.mk.injEq] using heq
            exact ⟨reason, rfl, h.fail worker items rfl item hitem reason hout p hp
              (congrArg MessageId.mk hid)⟩
  | release | extendLease | retryDead | purgeDead =>
      simp only [Call.stmts] at hstmt
      split at hstmt
      · cases hstmt
      · rw [List.mem_singleton.mp hstmt]
        exact .of_quiet rfl
  | purge request =>
      simp only [Call.stmts, Postgres.purge, List.mem_append, Option.mem_toList,
        Option.map_eq_some_iff, List.mem_singleton] at hstmt
      obtain (⟨_, -, rfl⟩ | ⟨_, -, rfl⟩) | rfl := hstmt
      · exact .of_quiet rfl
      · exact .of_quiet rfl
      · exact backs_of_sweep (h.purge request rfl)

/-- Who records no outcome has nothing to vouch for. -/
theorem Vouches.of_none (h : c.outcomes = none) (hshown : C.shown now) :
    C.Vouches inserted now c where
  complete worker items heq := by rw [heq] at h; cases h
  fail worker items heq := by rw [heq] at h; cases h
  purge _ _ := hshown

end

/-! ## The table -/

section
variable {C : Evidence} {inserted : List (MessageRef × Columns)} {now : Timestamp} {stmt : Stmt}
  {r r' : Row}

/-- A new version is explained. -/
theorem Explains.wrote (h : C.Explains r) (hp : (r.messageRef, r.columns) ∈ inserted)
    (hb : C.Backs inserted now stmt) (hw : Wrote now stmt r r') : C.Explains r' := by
  obtain ⟨href, hcolumns⟩ := hw.same
  obtain ⟨hu, hinner, i, hpicks, hset⟩ := hw
  have hcongr := fun hpublished hdead hreason => h.congr href hcolumns hpublished hdead hreason
  cases hu with
  | claim | release | extendLease | failRetry => exact hcongr rfl rfl rfl
  | @complete ids worker howned =>
      simp only [owned, Bool.and_eq_true, decide_eq_true_eq] at howned
      refine ⟨fun _ => hb.complete ids worker rfl _ hp howned.1, h.dead⟩
  | @failDead items worker err reason howned =>
      obtain ⟨attempts, -, hset⟩ := bind_eq_ok hset
      simp only [Stmt.picks, beq_iff_eq, Option.map_eq_some_iff] at hpicks
      obtain ⟨⟨id, error, text⟩, hget, rfl⟩ := hpicks
      cases hset
      refine ⟨h.published, fun death hdeath => ⟨_, rfl, ?_⟩⟩
      obtain ⟨reason, htext, hpolicy, hrefused⟩ :=
        hb.failDead items worker rfl _ hp error text (List.mem_of_getElem? hget)
      rw [hget, Option.map_some, Option.getD_some, htext]
      exact .refused hpolicy hrefused
  | @poisonSweep items worker reason err howned =>
      simp only [owned, Bool.and_eq_true, decide_eq_true_eq] at howned
      obtain ⟨rfl, hfault⟩ := hb.poison items worker reason rfl
      obtain ⟨fault, hfault⟩ := hfault _ hp howned.1
      exact ⟨h.published, fun death hdeath => ⟨_, rfl, .undecodable hfault⟩⟩
  | @sweep n reason err hsweepable =>
      obtain ⟨rfl, hshown⟩ := hb.sweep n reason rfl
      simp only [Stmt.inner, Bool.and_eq_true, expired] at hinner
      refine ⟨h.published, fun death hdeath => ⟨_, rfl, ?_⟩⟩
      cases hdeath
      cases hexpiry : r.columns.expires with
      | none =>
          rw [hexpiry] at hinner
          cases hinner.1
      | some expiry =>
          rw [hexpiry] at hinner
          exact .expired hexpiry (of_decide_eq_true hinner.1) hshown
  | retryDead =>
      refine ⟨h.published, fun death hdeath => ?_⟩
      cases hdeath

variable {rows rows' : List Row} {env env' : Env} {k count : Nat}

theorem Covers.keyed (h : C.Covers inserted rows) : Keyed rows := ⟨h.ids, h.healthy.sequences⟩

theorem Covers.exec (h : C.Covers inserted rows) (hb : C.Backs inserted env.now stmt)
    (hvalid : (env.choice k).Valid env.now rows stmt)
    (hexec : env.exec k stmt rows = .ok (rows', count)) : C.Covers inserted rows' := by
  have hnd := h.healthy.sequences
  refine ⟨h.healthy.onRows (Stmt.exec_onRows (Env.exec_ok hexec).1), (h.keyed.exec hexec).ids,
    fun r' hr' => ?_, fun r' hr' => ?_, fun p hp => ?_⟩
  · obtain ⟨r, hr, rfl | hwrote⟩ := exec_back hnd hvalid hexec hr'
    · exact h.known r' hr
    · rw [hwrote.same.1, hwrote.same.2]
      exact h.known r hr
  · obtain ⟨r, hr, rfl | hwrote⟩ := exec_back hnd hvalid hexec hr'
    · exact h.explained r' hr
    · exact (h.explained r hr).wrote (h.known r hr) hb hwrote
  · rcases h.kept p hp with ⟨r, hr, rfl⟩ | hended
    · rcases exec_forth hnd hvalid hexec hr with ⟨r', hr', rfl | hwrote⟩ | hdelete
      · exact .inl ⟨r', hr', rfl⟩
      · refine .inl ⟨r', hr', ?_⟩
        rw [hwrote.same.1, hwrote.same.2]
      · exact .inr ((h.explained r hr).ended hdelete.ended)
    · exact .inr hended

theorem Covers.execAll {stmts : List Stmt} (h : C.Covers inserted rows)
    (hb : ∀ stmt ∈ stmts, C.Backs inserted env.now stmt) (hvalid : env.Valid k stmts rows) :
    C.Covers inserted (env.execAll k stmts rows).1 := by
  induction stmts generalizing k rows with
  | nil => exact h
  | cons stmt stmts ih =>
      simp only [Env.execAll]
      split
      · exact h
      · rename_i hexec
        have hfails := (Env.exec_ok hexec).2.1
        exact ih (h.exec (hb stmt List.mem_cons_self) (hvalid.1 hfails) hexec)
          (fun stmt' hstmt' => hb stmt' (List.mem_cons_of_mem _ hstmt')) (hvalid.2 _ _ hexec)

theorem Covers.run (h : C.Covers inserted rows) (c : Call) (mode : Mode)
    (hc : C.Vouches inserted env.now c) (hvalid : env.Valid 0 c.stmts rows) :
    C.Covers inserted (c.run mode env rows).1 := by
  have hb := hc.backs
  simp only [Call.run]
  split
  · exact h.execAll hb hvalid
  · exact h.execAll hb hvalid
  · exact h
  · split <;> exact h
  · exact h.execAll hb hvalid

variable {rendering : Rendering} {request : AcquireRequest}

/-- A row the claim returned is an explained one under a new lease. -/
theorem Covers.returned (h : C.Covers inserted rows) {choice : Choice} {x : Row}
    (hx : x ∈ returnedRows now choice (acquire request) rows) :
    (x.messageRef, x.columns) ∈ inserted ∧ RowOk x ∧ x.lockedBy = some request.worker.asStr := by
  obtain ⟨r, hr, hupdate⟩ := returned_update hx
  obtain ⟨hcolumns, hcreated, -⟩ := hupdate.immutable
  have href : x.messageRef = r.messageRef := by
    rw [Row.messageRef, Row.messageRef, hcolumns, hcreated]
  rw [href, hcolumns]
  refine ⟨h.known r hr, hupdate.ok (h.healthy.ok r hr), ?_⟩
  cases hupdate with
  | claim => rfl

/-- What the sweep kills does not decode. -/
theorem Covers.backs_sweep (h : C.Covers inserted rows)
    (hunique : (inserted.map (·.1.id)).Nodup) (choice : Choice) {now' : Timestamp} :
    C.Backs inserted now' (sweepPoisoned rendering
      (returnedRows now choice (acquire request) rows) request.worker.asStr) := by
  refine ⟨(fun _ _ heq => by cases heq), (fun _ _ heq => by cases heq), ?_, (fun _ _ heq => by cases heq)⟩
  rintro _ _ _ ⟨⟩
  refine ⟨rfl, fun p hp hid => ?_⟩
  obtain ⟨item, hitem, hsame⟩ := List.mem_map.mp hid
  obtain ⟨x, hx, err, hdecode, rfl⟩ := mem_poisoned.mp hitem
  obtain ⟨hknown, hok, hlocked⟩ := h.returned hx
  -- the row of this id is the one that was inserted
  have hpx : p = (x.messageRef, x.columns) :=
    List.inj_on_of_nodup_map hunique hp hknown (congrArg MessageId.mk hsame.symm)
  rw [hpx]
  exact decodeEnvelope_of_error hok hlocked hdecode

theorem Covers.acquire (h : C.Covers inserted rows) (hunique : (inserted.map (·.1.id)).Nodup)
    (hvalid : AcquireValid rendering request env env' rows) :
    C.Covers inserted (runAcquireThen rendering request env env' rows).1 := by
  have hclaim : C.Backs inserted env.now (Postgres.acquire request) := .of_quiet rfl
  simp only [runAcquireThen]
  split
  · exact h
  · rename_i hexec
    have hclaimed := h.exec hclaim hvalid.claim hexec
    split
    · exact hclaimed
    · rename_i hpoisoned
      split
      · exact hclaimed
      · rename_i hsweep
        exact hclaimed.exec (h.backs_sweep hunique _)
          (hvalid.sweep _ _ hexec (Bool.eq_false_iff.mpr hpoisoned)) hsweep

/-- A record of the batch is a message that was inserted, decoded. -/
theorem Covers.record (h : C.Covers inserted rows) {choice : Choice} {record : OutboxRecord}
    (hrecord : record ∈ decoded (returnedRows now choice (Postgres.acquire request) rows)) :
    ∃ columns, (record.messageRef, columns) ∈ inserted ∧
      decodeEnvelope columns = .ok record.envelope := by
  obtain ⟨x, hx, hdecode⟩ := List.mem_filterMap.mp hrecord
  cases hrow : decodeRow x with
  | error err =>
      rw [hrow] at hdecode
      cases hdecode
  | ok record' =>
      rw [hrow] at hdecode
      cases hdecode
      rw [decodeRow_messageRef hrow]
      exact ⟨x.columns, (h.returned hx).1, decodeEnvelope_of_ok hrow⟩

theorem Covers.insert (h : C.Covers inserted rows) {columns : Columns} {sequence : Int}
    (hid : columns.id ∉ inserted.map (·.1.id.uuid)) (hseq : sequence ∉ rows.map Row.sequence)
    (hok : violated (Row.inserted columns sequence now) = none) :
    C.Covers (((Row.inserted columns sequence now).messageRef, columns) :: inserted)
      (rows ++ [Row.inserted columns sequence now]) := by
  have hrows : columns.id ∉ rows.map fun r => r.columns.id := by
    intro hmem
    obtain ⟨r, hr, hsame⟩ := List.mem_map.mp hmem
    exact hid (hsame ▸ List.mem_map_of_mem (h.known r hr))
  have hkeyed : Keyed (rows ++ [Row.inserted columns sequence now]) := h.keyed.insert hrows hseq
  refine ⟨⟨fun r hr => ?_, hkeyed.sequences⟩, hkeyed.ids, fun r hr => ?_, fun r hr => ?_,
    fun p hp => ?_⟩
  · rcases List.mem_append.mp hr with hr | hr
    · exact h.healthy.ok r hr
    · rw [List.mem_singleton.mp hr]
      exact .inserted hok
  · rcases List.mem_append.mp hr with hr | hr
    · exact List.mem_cons_of_mem _ (h.known r hr)
    · rw [List.mem_singleton.mp hr]
      exact List.mem_cons_self
  · rcases List.mem_append.mp hr with hr | hr
    · exact h.explained r hr
    · rw [List.mem_singleton.mp hr]
      refine ⟨fun hp => ?_, fun death hdeath => ?_⟩
      · cases hp
      · cases hdeath
  · rcases List.mem_cons.mp hp with rfl | hp
    · exact .inl ⟨_, List.mem_append_right _ (List.mem_singleton.mpr rfl), rfl⟩
    · rcases h.kept p hp with ⟨r, hr, heq⟩ | hended
      · exact .inl ⟨r, List.mem_append_left _ hr, heq⟩
      · exact .inr hended

end

end Evidence

end Reliar.Store.Postgres
