/-
# `Reliar.Store.Lease` — lease exclusivity of the SQL store

From the moment a claim by worker `w` writes row `q`, and as long as the clock
has not strictly passed the last `locked_until` that `w` wrote there, nobody but
`w` can change the row.  `Window` is the step relation of that time: any step of
any worker, as long as it is not `w`'s own complete, fail or release coming to
the row, and the lease still runs.

The one statement of `w` that is neither a renewal nor one of those three is the
poison sweep inside `acquire`.  It is harmless because it names only rows that
could not be decoded, and a row that decoded once decodes always (`Poisoned`).
-/
import Reliar.Store.RowState

namespace Reliar.Store.Postgres

open Reliar.Core Reliar.Outbox

/-! ## Decoding depends on the columns alone -/

theorem decodeAttempts_ok {n : Int} (h₀ : 0 ≤ n) (h₁ : n ≤ INT_MAX) :
    ∃ m, decodeAttempts n = .ok m := by
  have hlt : n < 4294967296 := by
    simp only [INT_MAX] at h₁
    omega
  exact ⟨n.toNat, by simp [decodeAttempts, h₀, hlt]⟩

/-- For a live row leased by a worker, `decode_row` fails only if the columns are at fault. -/
theorem decodeEnvelope_of_error {r : Row} {w : WorkerId} {err : RowError} (h : RowOk r)
    (hlocked : r.lockedBy = some w.asStr) (herr : decodeRow r = .error err) :
    ∃ fault, decodeEnvelope r.columns = .error fault := by
  cases henv : decodeEnvelope r.columns with
  | error fault => exact ⟨fault, rfl⟩
  | ok envelope =>
    obtain ⟨-, hdead⟩ := h.idle (by simp [hlocked])
    have hreason : r.deadReason = none := by
      have := h.reason
      rw [hdead] at this
      simpa using this.symm
    obtain ⟨m, hm⟩ := decodeAttempts_ok h.attempts h.attempts_le
    have hworker : parseOption WorkerId.parse .invalidLockedBy (some w.asStr) = .ok (some w) := by
      simp [parseOption, Except.map, Except.mapError]
    simp only [decodeRow, decodeRecord, henv, hreason, hlocked, decodeReason, hworker, hm, ok_bind]
      at herr
    cases herr

theorem decodeEnvelope_of_ok {r : Row} {record : OutboxRecord} (h : decodeRow r = .ok record) :
    decodeEnvelope r.columns = .ok record.envelope := by
  cases hrec : decodeRecord r with
  | error fault => simp [decodeRow, hrec, Except.mapError] at h
  | ok record' =>
    have heq : record' = record := by simpa [decodeRow, hrec, Except.mapError] using h
    subst heq
    obtain ⟨envelope, henv, hrest⟩ := bind_eq_ok hrec
    obtain ⟨_, -, hrest⟩ := bind_eq_ok hrest
    obtain ⟨_, -, hrest⟩ := bind_eq_ok hrest
    obtain ⟨_, -, hrest⟩ := bind_eq_ok hrest
    cases hrest
    exact henv

/-! ## What claims have returned -/

/-- A call of the store: every statement but a poison sweep on its own. -/
def Event.isCall : Event → Bool
  | .start (.poisonSweep ..) _ _ => false
  | _ => true

/-- The row versions a claim returned: rows of the table, leased by the claimer. -/
structure Returned (db : Db) : Prop where
  known : ∀ run ∈ db.running, ∀ x ∈ run.returned, x.sequence ∈ db.inserted ∧ RowOk x
  locked : ∀ run ∈ db.running, ∀ b worker ms, run.stmt = .claim b worker ms →
    ∀ x ∈ run.returned, x.lockedBy = some worker
  /-- Their columns are still the columns of the row. -/
  columns : ∀ run ∈ db.running, ∀ x ∈ run.returned, ∀ r ∈ db.rows, r.sequence = x.sequence →
    r.columns = x.columns

/-- What a poison sweep names: rows a claim of the same worker returned and could not decode. -/
def Poisoned (db : Db) : Prop :=
  ∀ run ∈ db.running, ∀ items worker reason, run.stmt = .poisonSweep items worker reason →
    ∀ item ∈ items, ∃ claim ∈ db.running, ∃ b ms, claim.stmt = .claim b worker ms ∧
      ∃ x ∈ claim.returned, x.columns.id = item.1 ∧ ∃ err, decodeRow x = .error err

/-- A running statement after a step is one that ran before, with more returned. -/
def Grown (running running' : List Running) : Prop :=
  ∀ run ∈ running, ∃ run' ∈ running', run'.stmt = run.stmt ∧
    ∀ x ∈ run.returned, x ∈ run'.returned

theorem grown_append (running : List Running) (run : Running) :
    Grown running (running ++ [run]) :=
  fun x hx => ⟨x, List.mem_append_left _ hx, rfl, fun _ hy => hy⟩

theorem grown_set {running : List Running} {k : Nat} {run : Running} (run' : Running)
    (hrun : running[k]? = some run) (hstmt : run'.stmt = run.stmt)
    (hret : ∀ x ∈ run.returned, x ∈ run'.returned) : Grown running (running.set k run') := by
  intro x hx
  by_cases hxrun : x = run
  · subst hxrun
    have hlt : k < running.length := (List.getElem?_eq_some_iff.mp hrun).1
    exact ⟨run', List.mem_set hlt _, hstmt, hret⟩
  · obtain ⟨j, hj, rfl⟩ := List.getElem_of_mem hx
    have hjk : k ≠ j := by
      rintro rfl
      exact hxrun (by simpa [List.getElem?_eq_getElem hj] using hrun)
    refine ⟨running[j], ?_, rfl, fun _ hy => hy⟩
    rw [List.mem_iff_getElem]
    exact ⟨j, by simpa using hj, by simp [List.getElem_set_ne hjk]⟩

/-- `Poisoned` survives whatever keeps the statements and what they returned. -/
theorem Poisoned.mono {db db' : Db} (h : Poisoned db) (hgrown : Grown db.running db'.running)
    (hold : ∀ run' ∈ db'.running, ∀ items worker reason,
      run'.stmt = .poisonSweep items worker reason →
        ∃ run ∈ db.running, run.stmt = .poisonSweep items worker reason) : Poisoned db' := by
  intro run' hrun' items worker reason hstmt item hitem
  obtain ⟨run, hrun, hstmt'⟩ := hold run' hrun' items worker reason hstmt
  obtain ⟨claim, hclaim, b, ms, hcs, x, hx, hid, herr⟩ :=
    h run hrun items worker reason hstmt' item hitem
  obtain ⟨claim', hclaim', hcs', hret⟩ := hgrown claim hclaim
  exact ⟨claim', hclaim', b, ms, hcs'.trans hcs, x, hret x hx, hid, herr⟩

theorem poison_set {running : List Running} {k : Nat} {run : Running} (run' : Running)
    (hrun : running[k]? = some run) (hstmt : run'.stmt = run.stmt) :
    ∀ x ∈ running.set k run', ∀ items worker reason, x.stmt = .poisonSweep items worker reason →
      ∃ y ∈ running, y.stmt = .poisonSweep items worker reason := by
  intro x hx items worker reason hx'
  rcases List.mem_or_eq_of_mem_set hx with hx | rfl
  · exact ⟨x, hx, hx'⟩
  · exact ⟨run, List.mem_of_getElem? hrun, hstmt ▸ hx'⟩

theorem Step.poisoned {rendering : Rendering} {db db' : Db} {e : Event} (h : Poisoned db)
    (hs : Step rendering db e db') (hcall : e.isCall = true) : Poisoned db' := by
  cases hs with
  | advance => exact h
  | insert => exact h
  | @start stmt now targets =>
    refine h.mono (grown_append _ _) ?_
    intro run hrun items worker reason hstmt
    rcases List.mem_append.mp hrun with hrun | hrun
    · exact ⟨run, hrun, hstmt⟩
    · rw [List.mem_singleton.mp hrun] at hstmt
      cases hstmt
      cases hcall
  | @sweep k now targets claim b worker ms _ hclaim hcs _ =>
    intro run hrun items worker' reason hstmt item hitem
    rcases List.mem_append.mp hrun with hrun | hrun
    · obtain ⟨c, hc, hrest⟩ := h run hrun items worker' reason hstmt item hitem
      exact ⟨c, List.mem_append_left _ hc, hrest⟩
    · rw [List.mem_singleton.mp hrun] at hstmt
      cases hstmt
      obtain ⟨x, hx, err, herr, rfl⟩ := mem_poisoned.mp hitem
      exact ⟨claim, List.mem_append_left _ (List.mem_of_getElem? hclaim), b, ms, hcs, x, hx, rfl,
        err, herr⟩
  | pass hrun => exact h.mono (grown_set _ hrun rfl fun _ hx => hx) (poison_set _ hrun rfl)
  | write hrun =>
    exact h.mono (grown_set _ hrun rfl fun _ hx => List.mem_append_left _ hx)
      (poison_set _ hrun rfl)
  | remove hrun => exact h.mono (grown_set _ hrun rfl fun _ hx => hx) (poison_set _ hrun rfl)

/-- What a claim appends to what it returned is the row version it wrote. -/
theorem mem_returning {stmt : Stmt} {r x : Row} (h : x ∈ returning stmt r) : x = r := by
  cases stmt with
  | claim => exact List.mem_singleton.mp h
  | _ => cases h

/-- A running statement with nothing more returned than before. -/
theorem Returned.same {db : Db} (h : Returned db) {rows : List Row} {running : List Running}
    {inserted : List Int} {db' : Db} (hr : db'.rows = rows) (hg : db'.running = running)
    (hi : db'.inserted = inserted)
    (hrunning : ∀ x ∈ running, x.returned = [] ∨
      ∃ y ∈ db.running, x.stmt = y.stmt ∧ x.returned = y.returned)
    (hinserted : ∀ q ∈ db.inserted, q ∈ inserted)
    (hrows : ∀ r' ∈ rows, r'.sequence ∈ db.inserted →
      ∃ r ∈ db.rows, r.sequence = r'.sequence ∧ r.columns = r'.columns) : Returned db' := by
  subst hr hg hi
  refine ⟨?_, ?_, ?_⟩
  · intro run hrun x hx
    rcases hrunning run hrun with hnil | ⟨y, hy, -, hret⟩
    · rw [hnil] at hx; cases hx
    · obtain ⟨hk, hok⟩ := h.known y hy x (hret ▸ hx)
      exact ⟨hinserted _ hk, hok⟩
  · intro run hrun b worker ms hstmt x hx
    rcases hrunning run hrun with hnil | ⟨y, hy, hs, hret⟩
    · rw [hnil] at hx; cases hx
    · exact h.locked y hy b worker ms (hs ▸ hstmt) x (hret ▸ hx)
  · intro run hrun x hx r' hr' hseq
    rcases hrunning run hrun with hnil | ⟨y, hy, -, hret⟩
    · rw [hnil] at hx; cases hx
    · have hx' : x ∈ y.returned := hret ▸ hx
      obtain ⟨r, hr, hrs, hrc⟩ := hrows r' hr' (hseq ▸ (h.known y hy x hx').1)
      exact hrc.symm.trans (h.columns y hy x hx' r hr (hrs.trans hseq))

theorem Step.returned {rendering : Rendering} {db db' : Db} {e : Event} (hok : db.Ok)
    (h : Returned db) (hs : Step rendering db e db') : Returned db' := by
  have hself : ∀ x ∈ db.running, x.returned = [] ∨
      ∃ y ∈ db.running, x.stmt = y.stmt ∧ x.returned = y.returned :=
    fun x hx => .inr ⟨x, hx, rfl, rfl⟩
  have hset : ∀ {k : Nat} {run : Running} (run' : Running), db.running[k]? = some run →
      run'.stmt = run.stmt → run'.returned = run.returned →
      ∀ x ∈ db.running.set k run', x.returned = [] ∨
        ∃ y ∈ db.running, x.stmt = y.stmt ∧ x.returned = y.returned := by
    intro k run run' hrun hstmt hret x hx
    rcases List.mem_or_eq_of_mem_set hx with hx | rfl
    · exact hself x hx
    · exact .inr ⟨run, List.mem_of_getElem? hrun, hstmt, hret⟩
  have happ : ∀ run : Running, run.returned = [] → ∀ x ∈ db.running ++ [run], x.returned = [] ∨
      ∃ y ∈ db.running, x.stmt = y.stmt ∧ x.returned = y.returned := by
    intro run hnil x hx
    rcases List.mem_append.mp hx with hx | hx
    · exact hself x hx
    · rw [List.mem_singleton.mp hx]
      exact .inl hnil
  cases hs with
  | advance => exact h.same rfl rfl rfl hself (fun _ hq => hq) fun r hr _ => ⟨r, hr, rfl, rfl⟩
  | @insert columns sequence now _ hfresh =>
    refine h.same rfl rfl rfl hself (fun _ hq => List.mem_cons_of_mem _ hq) fun r hr hq => ?_
    rcases List.mem_append.mp hr with hr | hr
    · exact ⟨r, hr, rfl, rfl⟩
    · rw [List.mem_singleton.mp hr] at hq
      exact absurd hq hfresh
  | start =>
    exact h.same rfl rfl rfl (happ _ rfl) (fun _ hq => hq) fun r hr _ => ⟨r, hr, rfl, rfl⟩
  | sweep =>
    exact h.same rfl rfl rfl (happ _ rfl) (fun _ hq => hq) fun r hr _ => ⟨r, hr, rfl, rfl⟩
  | pass hrun =>
    exact h.same rfl rfl rfl (hset _ hrun rfl rfl) (fun _ hq => hq) fun r hr _ => ⟨r, hr, rfl, rfl⟩
  | remove hrun =>
    exact h.same rfl rfl rfl (hset _ hrun rfl rfl) (fun _ hq => hq) fun r hr _ =>
      ⟨r, List.mem_of_mem_filter hr, rfl, rfl⟩
  | @write k item run r r' hrun _ hr _ htouch =>
    have hu := touch_update htouch
    obtain ⟨hcol, -, hseq⟩ := hu.immutable
    have hmem := List.mem_of_getElem? hrun
    have hlocked : ∀ b worker ms, run.stmt = .claim b worker ms → r'.lockedBy = some worker := by
      intro b worker ms hstmt
      rw [hstmt] at hu
      cases hu
      rfl
    have hsplit : ∀ y ∈ (db.write k (run.past r.sequence) r r').running, ∀ x ∈ y.returned,
        (∃ z ∈ db.running, y.stmt = z.stmt ∧ x ∈ z.returned) ∨ (y.stmt = run.stmt ∧ x = r') := by
      intro y hy x hx
      rcases List.mem_or_eq_of_mem_set hy with hy | rfl
      · exact .inl ⟨y, hy, rfl, hx⟩
      · rcases List.mem_append.mp hx with hx | hx
        · exact .inl ⟨run, hmem, rfl, hx⟩
        · exact .inr ⟨rfl, mem_returning hx⟩
    refine ⟨?_, ?_, ?_⟩
    · intro y hy x hx
      rcases hsplit y hy x hx with ⟨z, hz, -, hx⟩ | ⟨-, rfl⟩
      · exact h.known z hz x hx
      · exact ⟨hseq ▸ hok.known r hr, hu.ok (hok.rows r hr)⟩
    · intro y hy b worker ms hstmt x hx
      rcases hsplit y hy x hx with ⟨z, hz, hyz, hx⟩ | ⟨hyr, rfl⟩
      · exact h.locked z hz b worker ms (hyz ▸ hstmt) x hx
      · exact hlocked b worker ms (hyr ▸ hstmt)
    · intro y hy x hx t ht htx
      rcases hsplit y hy x hx with ⟨z, hz, -, hx⟩ | ⟨-, rfl⟩
      · rcases mem_write ht with rfl | ⟨ht, -⟩
        · exact hcol.trans (h.columns z hz x hx r hr (hseq.symm.trans htx))
        · exact h.columns z hz x hx t ht htx
      · rcases mem_write ht with rfl | ⟨ht, hne⟩
        · rfl
        · exact absurd (htx.trans hseq) hne

/-! ## What was inserted -/

/-- No message id is inserted twice. -/
def UniqueIds (es : List Event) : Prop :=
  ∀ c s n c' s' n', Event.insert c s n ∈ es → Event.insert c' s' n' ∈ es → c.id = c'.id → s = s'

/-- Every row, and every row version a claim returned, was inserted by some event. -/
def Recorded (es : List Event) (db : Db) : Prop :=
  (∀ r ∈ db.rows, ∃ n, Event.insert r.columns r.sequence n ∈ es) ∧
    ∀ run ∈ db.running, ∀ x ∈ run.returned, ∃ n, Event.insert x.columns x.sequence n ∈ es

/-- `w`'s own complete, fail or release. -/
def Stmt.closes (w : String) : Stmt → Bool
  | .complete _ worker => decide (worker = w)
  | .failRetry _ worker => decide (worker = w)
  | .failDead _ worker => decide (worker = w)
  | .release _ worker => decide (worker = w)
  | _ => false

/-- The last `locked_until` that `w`'s claims and renewals wrote to row `q`. -/
def lastLease (db : Db) (q : Int) (w : String) : Option Timestamp :=
  (db.leases.find? fun l => l.sequence = q ∧ l.worker = w).map LeaseWrite.lockedUntil

/-- The lease runs: the clock has not strictly passed it. -/
def LeaseRuns (db : Db) (q : Int) (w : String) : Prop :=
  ∃ t, lastLease db q w = some t ∧ db.clock ≤ t

/-- One step while `w` holds row `q`. -/
structure Window (rendering : Rendering) (q : Int) (w : String) (db : Db) (e : Event) (db' : Db) :
    Prop where
  next : next rendering db e = some db'
  call : e.isCall = true
  kept : ∀ k item run, e = .touch k q item → db.running[k]? = some run → run.stmt.closes w = false
  runs : LeaseRuns db' q w

/-- The row is leased by `w` until the last instant `w` wrote, and can be decoded. -/
def Held (db : Db) (q : Int) (w : WorkerId) : Prop :=
  ∃ r ∈ db.rows, r.sequence = q ∧ r.lockedBy = some w.asStr ∧
    r.lockedUntil = lastLease db q w.asStr ∧ ∃ envelope, decodeEnvelope r.columns = .ok envelope

theorem leaseFree_false {now t : Timestamp} {r : Row} (h : r.lockedUntil = some t)
    (hnow : now ≤ t) : leaseFree now r = false := by
  simp only [leaseFree, h, decide_eq_false_iff_not]
  lia

/-- What may be written to a leased row whose lease still runs. -/
theorem Update.held {now t : Timestamp} {r r' : Row} {stmt : Stmt} {w : String} (hok : RowOk r)
    (hlocked : r.lockedBy = some w) (huntil : r.lockedUntil = some t) (hnow : now ≤ t)
    (hu : Update now r stmt r') :
    stmt.closes w = true ∨ (∃ ids ms, stmt = .extendLease ids ms w) ∨
      ∃ items reason, stmt = .poisonSweep items w reason ∧ r.columns.id ∈ items.map Prod.fst := by
  have hsame : ∀ {ids : List Uuid} {worker : String}, owned ids worker r = true → worker = w := by
    intro ids worker ho
    rw [owned_locked ho] at hlocked
    exact Option.some.inj hlocked
  have hlease := leaseFree_false huntil hnow
  cases hu with
  | claim hc => simp [claimable, hlease] at hc
  | poisonSweep ho =>
    obtain rfl := hsame ho
    simp only [owned, Bool.and_eq_true, decide_eq_true_eq] at ho
    exact .inr (.inr ⟨_, _, rfl, ho.1⟩)
  | complete ho => exact .inl (by simp [Stmt.closes, hsame ho])
  | failRetry ho => exact .inl (by simp [Stmt.closes, hsame ho])
  | failDead ho => exact .inl (by simp [Stmt.closes, hsame ho])
  | release ho => exact .inl (by simp [Stmt.closes, hsame ho])
  | extendLease ho =>
    obtain rfl := hsame ho
    exact .inr (.inl ⟨_, _, rfl⟩)
  | sweep hs => simp [sweepable, hlease] at hs
  | retryDead _ hd =>
    obtain ⟨-, hdead⟩ := hok.idle (by simp [hlocked])
    rw [hdead] at hd
    cases hd

/-- A leased row is never deleted. -/
theorem Delete.not_held {now : Timestamp} {r : Row} {stmt : Stmt} {w : String} (hok : RowOk r)
    (hlocked : r.lockedBy = some w) : ¬ Delete now r stmt := by
  obtain ⟨hpub, hdead⟩ := hok.idle (by simp [hlocked])
  rintro (ho | ho | ⟨-, hd⟩)
  · simp [olderThan, hpub] at ho
  · simp [olderThan, hdead] at ho
  · rw [hdead] at hd; cases hd

/-- `w`'s own poison sweeps do not name a row that can be decoded. -/
theorem not_poisoned {es : List Event} {db : Db} {r : Row} {w : WorkerId} {run : Running}
    {items : List (Uuid × String)} {reason : String} {envelope : SerializedEnvelope}
    (hids : UniqueIds es) (hrec : Recorded es db) (hret : Returned db) (hpoison : Poisoned db)
    (hr : r ∈ db.rows) (henv : decodeEnvelope r.columns = .ok envelope) (hrun : run ∈ db.running)
    (hstmt : run.stmt = .poisonSweep items w.asStr reason) : r.columns.id ∉ items.map Prod.fst := by
  intro hid
  obtain ⟨item, hitem, hitemid⟩ := List.mem_map.mp hid
  obtain ⟨claim, hclaim, b, ms, hcs, x, hx, hxid, err, herr⟩ :=
    hpoison run hrun items w.asStr reason hstmt item hitem
  -- the row version that could not be decoded is a version of this very row
  obtain ⟨n, hn⟩ := hrec.1 r hr
  obtain ⟨m, hm⟩ := hrec.2 claim hclaim x hx
  have hseq : r.sequence = x.sequence :=
    hids _ _ _ _ _ _ hn hm (hitemid.symm.trans hxid.symm)
  have hcol := hret.columns claim hclaim x hx r hr hseq
  obtain ⟨fault, hfault⟩ := decodeEnvelope_of_error (hret.known claim hclaim x hx).2
    (hret.locked claim hclaim b w.asStr ms hcs x hx) herr
  rw [← hcol, henv] at hfault
  cases hfault

/-- What is known of a database reached by calls. -/
structure Reached (es : List Event) (db : Db) : Prop where
  ok : db.Ok
  returned : Returned db
  poisoned : Poisoned db
  recorded : Recorded es db

/-- A statement that is not `w`'s own does nothing to a row that `w` holds. -/
theorem Step.skips {rendering : Rendering} {db db' : Db} {es : List Event} {k item : Nat} {q : Int}
    {w : WorkerId} {run : Running} (hreach : Reached es db) (hids : UniqueIds es)
    (hheld : Held db q w) (hruns : LeaseRuns db q w.asStr) (hrun : db.running[k]? = some run)
    (hs : Step rendering db (.touch k q item) db')
    (hown : run.stmt.closes w.asStr = false) :
    db'.rows = db.rows ∧ db'.leases = db.leases ∧
        db'.running[k]? = some (run.past q) ∨
      ∃ ids ms r r', run.stmt = .extendLease ids ms w.asStr ∧ r ∈ db.rows ∧ r.sequence = q ∧
        Update run.now r run.stmt r' ∧ db' = db.write k (run.past q) r r' := by
  obtain ⟨r, hr, rfl, hlocked, huntil, envelope, henv⟩ := hheld
  obtain ⟨t, ht, hclock⟩ := hruns
  have hmem := List.mem_of_getElem? hrun
  have hnow : run.now ≤ t := by
    have := hreach.ok.lagging run hmem
    lia
  have hk : k < db.running.length := (List.getElem?_eq_some_iff.mp hrun).1
  have hok := hreach.ok.rows r hr
  generalize hq : r.sequence = q at hs
  cases hs with
  | pass hrun' =>
    rw [hrun] at hrun'
    cases hrun'
    exact .inl ⟨rfl, rfl, by simp [Db.pass, List.getElem?_set_self hk]⟩
  | @write _ _ run' x x' hrun' _ hx _ htouch =>
    rw [hrun] at hrun'
    cases hrun'
    obtain rfl := hreach.ok.unique hr hx hq.symm
    have hu := touch_update htouch
    rcases hu.held hok hlocked (huntil.trans ht) hnow with hc | ⟨ids, ms, hext⟩ | ⟨items, reason, hp, hid⟩
    · rw [hown] at hc; cases hc
    · exact .inr ⟨ids, ms, x, x', hext, hr, rfl, hu, rfl⟩
    · exact absurd hid
        (not_poisoned hids hreach.recorded hreach.returned hreach.poisoned hr henv hmem hp)
  | @remove _ _ run' x hrun' _ hx hdel =>
    rw [hrun] at hrun'
    cases hrun'
    obtain rfl := hreach.ok.unique hr hx hq.symm
    exact absurd hdel (Delete.not_held hok hlocked)

theorem Held.same {db db' : Db} {q : Int} {w : WorkerId} (h : Held db q w)
    (hrows : ∀ r ∈ db.rows, r.sequence = q → r ∈ db'.rows)
    (hleases : lastLease db' q w.asStr = lastLease db q w.asStr) : Held db' q w := by
  obtain ⟨r, hr, hq, hlocked, huntil, henv⟩ := h
  exact ⟨r, hrows r hr hq, hq, hlocked, hleases ▸ huntil, henv⟩

/-- A lease written to another row is not this row's. -/
theorem lastLease_write {db : Db} {k : Nat} {run : Running} {r r' : Row} {q : Int} {w : String}
    (hne : r'.sequence ≠ q) : lastLease (db.write k run r r') q w = lastLease db q w := by
  have hnone : (leaseWrite run.stmt r').find? (fun l => l.sequence = q ∧ l.worker = w) = none := by
    rw [List.find?_eq_none]
    intro l hl
    cases hstmt : run.stmt <;> rw [hstmt] at hl <;>
      simp only [leaseWrite, Option.mem_toList, Option.map_eq_some_iff, List.not_mem_nil] at hl
    case claim =>
      obtain ⟨t, -, rfl⟩ := hl
      simp [hne]
    case extendLease =>
      obtain ⟨t, -, rfl⟩ := hl
      simp [hne]
  simp only [lastLease, Db.write, List.find?_append, hnone, Option.none_or]

theorem Window.held {rendering : Rendering} {db db' : Db} {es : List Event} {e : Event} {q : Int}
    {w : WorkerId} (hreach : Reached es db) (hids : UniqueIds es) (hheld : Held db q w)
    (hruns : LeaseRuns db q w.asStr) (hw : Window rendering q w.asStr db e db') :
    Held db' q w := by
  have hs := step_of_next hw.next
  have hskips : ∀ {k item : Nat} {run : Running}, e = .touch k q item →
      db.running[k]? = some run → Held db' q w := by
    rintro k item run rfl hrun
    rcases hs.skips hreach hids hheld hruns hrun (hw.kept k item run rfl hrun) with
      ⟨hrows, hleases, -⟩ | ⟨ids, ms, r, r', hext, hr, hq, hu, rfl⟩
    · exact hheld.same (fun r hr _ => hrows ▸ hr) (by rw [lastLease, hleases, lastLease])
    · -- the renewal: the row and the log take the new instant together
      obtain ⟨x, hx, hxq, hlocked, -, envelope, henv⟩ := hheld
      obtain rfl := hreach.ok.unique hr hx (hxq.trans hq.symm)
      rw [hext] at hu
      cases hu with
      | @extendLease _ _ _ t _ =>
        refine ⟨_, List.mem_map.mpr ⟨x, hr, if_pos rfl⟩, hq, hlocked, ?_, envelope, henv⟩
        simp [lastLease, Db.write, leaseWrite, Running.past, hext, hq]
  cases hs with
  | advance => exact hheld.same (fun r hr _ => hr) rfl
  | insert => exact hheld.same (fun r hr _ => List.mem_append_left _ hr) rfl
  | start => exact hheld.same (fun r hr _ => hr) rfl
  | sweep => exact hheld.same (fun r hr _ => hr) rfl
  | pass => exact hheld.same (fun r hr _ => hr) rfl
  | @write k item run r r' hrun _ hr _ htouch =>
    by_cases hq : r.sequence = q
    · exact hskips (by rw [hq]) hrun
    · have hseq : r'.sequence = r.sequence := (touch_update htouch).immutable.2.2
      refine hheld.same (fun x hx hxq => ?_) (lastLease_write (hseq ▸ hq))
      exact List.mem_map.mpr ⟨x, hx, if_neg (by rw [hxq]; exact Ne.symm hq)⟩
  | @remove k item run r hrun _ hr hdel =>
    by_cases hq : r.sequence = q
    · exact hskips (by rw [hq]) hrun
    · refine hheld.same (fun x hx hxq => ?_) rfl
      exact List.mem_filter.mpr ⟨hx, by simpa [hxq] using Ne.symm hq⟩

/-- Claim number `k` of worker `w` comes to row `q` and returns it, as a row that can be decoded. -/
def Claimed (rendering : Rendering) (db db' : Db) (k item : Nat) (q : Int) (w : WorkerId) : Prop :=
  next rendering db (.touch k q item) = some db' ∧
    ∃ run run' b ms x record, db.running[k]? = some run ∧ run.stmt = .claim b w.asStr ms ∧
      db'.running[k]? = some run' ∧ run'.returned = run.returned ++ [x] ∧ x.sequence = q ∧
      decodeRow x = .ok record

theorem Claimed.held {rendering : Rendering} {db db' : Db} {k item : Nat} {q : Int} {w : WorkerId}
    (h : Claimed rendering db db' k item q w) : Held db' q w := by
  obtain ⟨hnext, run, run', b, ms, x, record, hrun, hstmt, hrun', hret, hxq, hdec⟩ := h
  have hk : k < db.running.length := (List.getElem?_eq_some_iff.mp hrun).1
  cases step_of_next hnext with
  | @pass _ _ _ run₀ hrun₀ =>
    rw [hrun] at hrun₀
    cases hrun₀
    have hback : run' = run.past q := by
      simpa [Db.pass, List.getElem?_set_self hk] using hrun'.symm
    rw [hback] at hret
    exact absurd hret (by simp [Running.past])
  | @write _ _ run₀ r r' hrun₀ _ hr _ htouch =>
    rw [hrun] at hrun₀
    cases hrun₀
    have hu := touch_update htouch
    rw [hstmt] at hu
    cases hu with
    | @claim _ _ _ t _ =>
      have hxr : x = { r with
          lockedBy := some w.asStr, lockedUntil := some t, updatedAt := run.now } := by
        have hback := (Option.some.inj (by
          simpa [Db.write, List.getElem?_set_self hk] using hrun'.symm :
            some run' = some _) : run' = _)
        rw [hback] at hret
        simpa [Running.past, returning, hstmt, eq_comm] using hret
      subst hxr
      refine ⟨_, List.mem_map.mpr ⟨r, hr, if_pos rfl⟩, rfl, rfl, ?_, _, decodeEnvelope_of_ok hdec⟩
      simp [lastLease, Db.write, leaseWrite, Running.past, hstmt]
  | @remove _ _ run₀ r hrun₀ _ hr hdel =>
    rw [hrun] at hrun₀
    cases hrun₀
    rw [hstmt] at hdel
    cases hdel

end Reliar.Store.Postgres
