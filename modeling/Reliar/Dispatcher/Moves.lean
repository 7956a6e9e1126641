/-
# `Reliar.Dispatcher.Moves` — what a step does to the collections

`Move` lists the atomic changes the code makes to `Books`: a record is
received, a row is spawned, a task changes phase or resolves, one result is
recorded, a list is cleared or expired, the shutdown path drops its rows.
Every step of `run` is a chain of moves (`moves_of_step`), so an invariant of
the collections needs one lemma per move and none per step.

`Books.Sound` is the first such invariant.  It ties the collections to the ghost
log: a task carries the row it was spawned with, has resolved at most once, and
an unwritten outcome says what the publish of its own task returned.  The second,
`RunState.Carries`, ties a suspended round to the lists it is writing.
-/
import Reliar.Dispatcher.Run

namespace Reliar.Dispatcher

open Reliar.Core Reliar.Outbox Relation

/-! ## Moves -/

namespace Books

/-- The claim arm's `for record in batch.records`. -/
def receive (b : Books) (records : List Claimed) : Books :=
  { b with
    pending := b.pending ++ records.map PendingRow.ofClaimed
    hist := { b.hist with acquired := b.hist.acquired ++ records } }

/-- Out of the join set. -/
def takeTask (b : Books) (id : TaskId) : Books :=
  { b with inFlight := b.inFlight.filter fun t => t.id ≠ id }

end Books

/-- The phases a task passes through without an outcome. -/
def TaskPhase.silent : TaskPhase → Bool
  | .publishing _ | .panicked | .cancelled => true
  | _ => false

/-- One atomic change of the collections by dispatcher `d` at `now`.  Claims are taken only before
it shuts down, and dropped only after. -/
inductive Move (d : OutboxDispatcher) (now : Instant) (shut : Bool) (b : Books) : Books → Prop
  | receive (hs : shut = false) (records : List Claimed) : Move d now shut b (b.receive records)
  | spawn {row : PendingRow} {rest : List PendingRow} (hs : shut = false)
      (hp : b.pending = row :: rest) :
      Move d now shut b (Books.spawn { b with pending := rest } row)
  | phase {t : PublishTask} {p : TaskPhase} (ht : t ∈ b.inFlight) (he : t.phase.ended = false)
      (hp : p.silent = true) (hc : p = .cancelled → t.abortRequested = true) :
      Move d now shut b (b.setPhase t.id p)
  | resolve {t : PublishTask} {since : Instant} (r : PublishResult) (ht : t ∈ b.inFlight)
      (hp : t.phase = .publishing since) : Move d now shut b (b.resolve d.settings.publishTimeout t r)
  | record {t : PublishTask} (unit : ℚ) (ht : t ∈ b.inFlight) (he : t.phase.ended = true) :
      Move d now shut b (Books.recordOne d.retry now unit (b.takeTask t.id) t)
  | clearComplete : Move d now shut b b.clearComplete
  | clearFail : Move d now shut b b.clearFail
  | expireComplete : Move d now shut b (b.expireComplete d.settings.lease now)
  | expireFail : Move d now shut b (b.expireFail d.settings.lease now)
  | dropNotStarted (lagging : List TaskId) (hs : shut = true) (hp : b.pending = []) :
      Move d now shut b (b.dropNotStarted lagging)
  | drainFail (hs : shut = true) : Move d now shut b b.drainFail

section
variable {d : OutboxDispatcher} {now : Instant} {shut : Bool} {b b' : Books}

/-- An invariant of every move is an invariant of a chain of them. -/
theorem Moves.inv {P : Books → Prop} (hm : ∀ {b b'}, Move d now shut b b' → P b → P b')
    (h : ReflTransGen (Move d now shut) b b') (h₀ : P b) : P b' := by
  induction h with
  | refl => exact h₀
  | tail _ hmove ih => exact hm hmove ih

theorem moves_spawnReady (b : Books) : ReflTransGen (Move d now false) b b.spawnReady := by
  obtain ⟨pending, inFlight, outstanding, uc, uf, nextTask, hist⟩ := b
  -- spawning does not touch `pending`, so the fold peels its rows off one by one
  suffices h : ∀ (rows : List PendingRow) (b : Books), b.pending = [] →
      ReflTransGen (Move d now false) { b with pending := rows } (rows.foldl Books.spawn b) from
    h pending ⟨[], inFlight, outstanding, uc, uf, nextTask, hist⟩ rfl
  intro rows
  induction rows with
  | nil =>
      intro b hb
      obtain ⟨_, _, _, _, _, _, _⟩ := b
      subst hb
      exact .refl
  | cons row rest ih =>
      intro b hb
      exact .head (.spawn rfl rfl) (ih (b.spawn row) hb)

theorem moves_claim (records : List Claimed) :
    ReflTransGen (Move d now false) b (b.claim records) :=
  .head (.receive rfl records) (moves_spawnReady _)

theorem moves_join : ∀ (joined : List (TaskId × ℚ)) (b : Books),
    ReflTransGen (Move d now shut) b (b.join d.retry now joined)
  | [], _ => .refl
  | j :: rest, b => by
      have hrest : ReflTransGen (Move d now shut) (b.joinOne d.retry now j)
          (b.join d.retry now (j :: rest)) := moves_join rest _
      unfold Books.joinOne at hrest
      split at hrest
      · rename_i t ht
        have hmem := List.mem_of_find?_eq_some ht
        have hfound := List.find?_some ht
        simp only [Bool.and_eq_true, decide_eq_true_eq] at hfound
        obtain ⟨hid, he⟩ := hfound
        rw [← hid] at hrest
        exact .head (.record j.2 hmem he) hrest
      · exact hrest

end

/-- In the loop, or just out of it: nothing has been shut down yet. -/
def Pc.inLoop {E : Type} : Pc E → Bool
  | .head | .select _ _ | .body _ | .stopping => true
  | _ => false

section
variable {E : Type} {d : OutboxDispatcher} {shut : Bool} {s s' : RunState E} {e : Event E}

@[simp] theorem afterDrainRound_books (deadline : Instant) (p : Books × Progress E) :
    (afterDrainRound s deadline p).books = p.1 := by
  simp only [afterDrainRound]; split <;> rfl

@[simp] theorem finalize_books (permanent : Option E) :
    (finalize s permanent).books = s.books.drainFail := by
  simp only [finalize]; split <;> rfl

theorem moves_taskStep {t : PublishTask} {b : Books} (ht : t ∈ s.books.inFlight)
    (h : taskStep d s t e = some b) : ReflTransGen (Move d s.now shut) s.books b := by
  cases e <;> simp only [taskStep, reduceCtorEq, Option.ite_none_right_eq_some,
    Option.ite_none_left_eq_some, Option.some.injEq, Bool.and_eq_true, Bool.not_eq_true',
    Bool.not_eq_true] at h
  case permit =>
    obtain ⟨⟨hw, -⟩, rfl⟩ := h
    exact .single (.phase ht (by rw [hw]; rfl) rfl (fun hc => nomatch hc))
  case publishReturns id r =>
    split at h
    · rename_i since hp
      simp only [Option.ite_none_right_eq_some, Option.some.injEq] at h
      obtain ⟨-, rfl⟩ := h
      exact .single (.resolve r ht hp)
    · cases h
  case panic =>
    obtain ⟨he, rfl⟩ := h
    exact .single (.phase ht he rfl (fun hc => nomatch hc))
  case abortLands =>
    obtain ⟨⟨ha, he⟩, rfl⟩ := h
    exact .single (.phase ht he rfl (fun _ => ha))

theorem moves_failHalf (now : Instant) (anyFailed : Bool) (b : Books) :
    ReflTransGen (Move d now shut) b (failHalf (E := E) d.settings.lease now anyFailed b).1 := by
  simp only [failHalf]
  split
  · exact .head .expireComplete (.single .expireFail)
  · exact .single .expireComplete

theorem moves_startRound (now : Instant) (b : Books) :
    ReflTransGen (Move d now shut) b (startRound (E := E) d.settings.lease now b).1 := by
  unfold startRound
  split
  · exact moves_failHalf now false b
  · exact .refl

theorem moves_resumeRound [Classify E] (now : Instant) (b : Books) (round : Round) (a : Answer E) :
    ReflTransGen (Move d now shut) b (resumeRound d.settings.lease now b round a).1 := by
  unfold resumeRound
  split
  · exact .head .clearComplete (moves_failHalf now false _)
  · split
    · exact .refl
    · exact moves_failHalf now true b
  · exact moves_failHalf now true b
  · exact .head .clearFail (.single .expireFail)
  · split
    · exact .refl
    · exact .single .expireFail
  · exact .single .expireFail

@[simp] theorem finishRetry_books (anyFailed : Bool) (permanent : Option E) :
    (finishRetry d s anyFailed permanent).books = s.books := by
  simp only [finishRetry]; split <;> rfl

@[simp] theorem afterRetry_books (at_ : LoopHead) (p : Books × Progress E) :
    (afterRetry d s at_ p).books = p.1 := by
  simp only [afterRetry]; split <;> simp

theorem moves_afterFinal {p : Books × Progress E}
    (h : ReflTransGen (Move d s.now true) s.books p.1) :
    ReflTransGen (Move d s.now true) s.books (afterFinal s p).books := by
  unfold afterFinal
  split
  · exact h
  · rw [finalize_books]; exact h.tail (.drainFail rfl)

theorem moves_leaveDrain (permanent : Option E) :
    ReflTransGen (Move d s.now true) s.books (leaveDrain d s permanent).books := by
  cases permanent with
  | none => exact moves_afterFinal (moves_startRound s.now s.books)
  | some e => exact .single (by rw [leaveDrain, finalize_books]; exact .drainFail rfl)

theorem moves_afterBody [Classify E] (call : Call) (a : Answer E) :
    ReflTransGen (Move d s.now false) s.books (afterBody d s call a).books := by
  unfold afterBody
  split
  · split
    · exact .refl
    · exact moves_claim _
  · split <;> exact .refl
  · exact .refl
  · exact .refl

theorem afterBody_inLoop [Classify E] (call : Call) (a : Answer E) :
    (afterBody d s call a).pc.inLoop = true := by
  unfold afterBody
  split <;> try split
  all_goals rfl

theorem shutdown_inLoop (lagging : List TaskId) : (shutdown d s lagging).pc.inLoop = false := by
  simp only [shutdown]; split <;> rfl

theorem finalize_inLoop (permanent : Option E) : (finalize s permanent).pc.inLoop = false := by
  simp only [finalize]; split <;> rfl

theorem afterFinal_inLoop (p : Books × Progress E) : (afterFinal s p).pc.inLoop = false := by
  simp only [afterFinal]
  split
  · rfl
  · exact finalize_inLoop _

theorem leaveDrain_inLoop (permanent : Option E) :
    (leaveDrain d s permanent).pc.inLoop = false := by
  cases permanent with
  | none => exact afterFinal_inLoop _
  | some e => exact finalize_inLoop _

theorem afterDrainRound_inLoop (deadline : Instant) (p : Books × Progress E) :
    (afterDrainRound s deadline p).pc.inLoop = false := by
  simp only [afterDrainRound]; split <;> rfl

/-- Every step changes the collections by moves only. -/
theorem moves_of_step [Classify E] (h : Step d s e s') (hp : s.books.pending = []) :
    ReflTransGen (Move d s.now (!s'.pc.inLoop)) s.books s'.books := by
  cases h with
  | tick | cancel | crash | apply | enter | fireCancel | fireLease | fireStats | fireClaim
  | answerReleasing | answerRelease | drainStay => exact .refl
  | task _ ht hb => exact moves_taskStep ht hb
  | fireJoin => exact (moves_join _ _).trans (moves_spawnReady _)
  | retryWakes => rw [afterRetry_books]; exact moves_startRound _ _
  | answerRetry => rw [afterRetry_books]; exact moves_resumeRound _ _ _ _
  | answerBody => rw [afterBody_inLoop]; exact moves_afterBody _ _
  | answerDrain => rw [afterDrainRound_books]; exact moves_resumeRound _ _ _ _
  | answerFinal => rw [afterFinal_inLoop]; exact moves_afterFinal (moves_resumeRound _ _ _ _)
  | @stop lagging =>
      rw [shutdown_inLoop]
      have hd : ReflTransGen (Move d s.now true) s.books (s.books.dropNotStarted lagging) :=
        .single (.dropNotStarted lagging rfl hp)
      simp only [shutdown]
      split <;> exact hd
  | drainLeave => rw [leaveDrain_inLoop]; exact moves_leaveDrain _
  | drainJoin => rw [afterDrainRound_books]; exact (moves_join _ _).trans (moves_startRound _ _)
  | drainDeadline => rw [leaveDrain_inLoop]; exact moves_leaveDrain none

/-- The loop is left once and for all. -/
theorem inLoop_of_step [Classify E] (h : Step d s e s') (hl : s'.pc.inLoop = true) :
    s.pc.inLoop = true := by
  cases h with
  | tick | cancel | task => exact hl
  | crash => cases hl
  | apply hc => cases hpc : s.pc <;> simp only [hpc, Pc.setCall, Pc.inLoop, reduceCtorEq] at hl ⊢
  | enter hpc | fireCancel hpc | fireJoin hpc | fireLease hpc | fireStats hpc | retryWakes hpc
  | fireClaim hpc | answerRetry hpc | answerBody hpc => rw [hpc]; rfl
  | answerReleasing | answerRelease | drainStay => cases hl
  | answerDrain | drainJoin => rw [afterDrainRound_inLoop] at hl; cases hl
  | answerFinal => rw [afterFinal_inLoop] at hl; cases hl
  | stop => rw [shutdown_inLoop] at hl; cases hl
  | drainLeave | drainDeadline => rw [leaveDrain_inLoop] at hl; cases hl

/-- Out of the loop, or past it. -/
def Pc.pastLoop {E : Type} : Pc E → Bool
  | .head | .select _ _ | .body _ => false
  | _ => true

theorem pastLoop_of_step [Classify E] (h : Step d s e s') (hp : s.pc.pastLoop = true) :
    s'.pc.pastLoop = true := by
  cases h with
  | tick | cancel | task => exact hp
  | crash | fireCancel | answerReleasing | answerRelease | drainStay => rfl
  | apply hc => cases hpc : s.pc <;> simp only [hpc, Pc.setCall, Pc.pastLoop] at hp ⊢ <;> cases hp
  | enter hpc | fireJoin hpc | fireLease hpc | fireStats hpc | retryWakes hpc | fireClaim hpc
  | answerRetry hpc | answerBody hpc => rw [hpc] at hp; cases hp
  | answerDrain | drainJoin =>
      simp only [afterDrainRound]
      split <;> rfl
  | answerFinal =>
      simp only [afterFinal, finalize, returnWith]
      split <;> try split
      all_goals rfl
  | stop =>
      simp only [shutdown, beginDrain]
      split <;> rfl
  | drainLeave | drainDeadline =>
      simp only [leaveDrain, afterFinal, finalize, returnWith]
      split <;> try split
      all_goals try split
      all_goals rfl

end

/-! ## `pending` is empty between steps -/

namespace Books

@[simp] theorem spawnReady_pending (b : Books) : b.spawnReady.pending = [] := by
  suffices h : ∀ (rows : List PendingRow) (b : Books),
      (rows.foldl spawn b).pending = b.pending from h _ _
  intro rows
  induction rows with
  | nil => intro b; rfl
  | cons row rest ih => intro b; exact ih (b.spawn row)

@[simp] theorem recordOne_pending (retry : RetryPolicy) (now : Instant) (unit : ℚ) (b : Books)
    (t : PublishTask) : (recordOne retry now unit b t).pending = b.pending := by
  simp only [recordOne]; split <;> rfl

@[simp] theorem join_pending (retry : RetryPolicy) (now : Instant) :
    ∀ (joined : List (TaskId × ℚ)) (b : Books), (b.join retry now joined).pending = b.pending
  | [], _ => rfl
  | j :: rest, b => by
      have hrest : (b.join retry now (j :: rest)).pending = (b.joinOne retry now j).pending :=
        join_pending retry now rest _
      rw [hrest, joinOne]
      split <;> simp

end Books

section
variable {E : Type} {d : OutboxDispatcher} {s s' : RunState E} {e : Event E}

@[simp] theorem failHalf_pending (lease : Duration) (now : Instant) (anyFailed : Bool)
    (b : Books) : (failHalf (E := E) lease now anyFailed b).1.pending = b.pending := by
  simp only [failHalf]; split <;> rfl

@[simp] theorem startRound_pending (lease : Duration) (now : Instant) (b : Books) :
    (startRound (E := E) lease now b).1.pending = b.pending := by
  unfold startRound; split <;> simp

@[simp] theorem resumeRound_pending [Classify E] (lease : Duration) (now : Instant) (b : Books)
    (round : Round) (a : Answer E) :
    (resumeRound lease now b round a).1.pending = b.pending := by
  unfold resumeRound; split <;> try split
  all_goals simp [Books.clearComplete, Books.clearFail, Books.expireFail]

theorem afterFinal_pending (p : Books × Progress E) :
    (afterFinal s p).books.pending = p.1.pending := by
  simp only [afterFinal]; split
  · rfl
  · rw [finalize_books]; rfl

theorem leaveDrain_pending (permanent : Option E) :
    (leaveDrain d s permanent).books.pending = s.books.pending := by
  cases permanent with
  | none => rw [leaveDrain, afterFinal_pending, startRound_pending]
  | some e => rw [leaveDrain, finalize_books]; rfl

theorem pending_of_step [Classify E] (h : Step d s e s') (hp : s.books.pending = []) :
    s'.books.pending = [] := by
  cases h with
  | tick | cancel | crash | apply | enter | fireCancel | fireLease | fireStats | fireClaim
  | answerReleasing | answerRelease | drainStay => exact hp
  | task _ _ hb =>
      cases e <;> simp only [taskStep, reduceCtorEq, Option.ite_none_right_eq_some,
        Option.ite_none_left_eq_some, Option.some.injEq] at hb
      case publishReturns =>
        split at hb
        · simp only [Option.ite_none_right_eq_some, Option.some.injEq] at hb
          obtain ⟨-, rfl⟩ := hb
          exact hp
        · cases hb
      all_goals obtain ⟨-, rfl⟩ := hb; exact hp
  | fireJoin => simp
  | retryWakes => simpa using hp
  | answerRetry => simpa using hp
  | answerBody =>
      unfold afterBody
      split
      · split
        · exact hp
        · simp [Books.claim]
      · split <;> exact hp
      · exact hp
      · exact hp
  | answerDrain => simpa using hp
  | answerFinal => simpa [afterFinal_pending] using hp
  | stop => simp only [shutdown]; split <;> rfl
  | drainLeave => simpa [leaveDrain_pending] using hp
  | drainJoin => simpa using hp
  | drainDeadline => simpa [leaveDrain_pending] using hp

end

/-! ## The collections and the log -/

/-- The entry says what its own task's publish returned: `Ok`. -/
def Delivered (b : Books) (e : Unwritten CompletedMessage) : Prop :=
  ∃ row, (e.task, row) ∈ b.hist.spawned ∧ (e.task, .ok) ∈ b.hist.resolved ∧
    e.item = ⟨row.message⟩

/-- The entry carries the verdict on a publish of its own task that failed or timed out. -/
def Refused (d : OutboxDispatcher) (b : Books) (e : Unwritten FailedMessage) : Prop :=
  ∃ row r unit kind error, (e.task, row) ∈ b.hist.spawned ∧ (e.task, r) ∈ b.hist.resolved ∧
    publishOne row d.settings.publishTimeout (some r) =
      .failed row.message row.attemptsBefore kind error ∧
    e.item = FailedMessage.new row.message error (d.retry.next unit row.attemptsBefore kind)

/-- A task's phase agrees with the log of returned publishes. -/
def PhaseLogged (d : OutboxDispatcher) (b : Books) (t : PublishTask) : Prop :=
  match t.phase with
  | .finished outcome =>
      ∃ r, (t.id, r) ∈ b.hist.resolved ∧
        outcome = publishOne t.row d.settings.publishTimeout (some r)
  | _ => t.id ∉ b.hist.resolved.map Prod.fst

structure Books.Sound (d : OutboxDispatcher) (b : Books) : Prop where
  ids : b.hist.spawned.map Prod.fst = List.range b.nextTask
  rows : b.hist.acquired.map PendingRow.ofClaimed = b.hist.spawned.map Prod.snd ++ b.pending
  inFlight_nodup : (b.inFlight.map (·.id)).Nodup
  inFlight_row : ∀ t ∈ b.inFlight, (t.id, t.row) ∈ b.hist.spawned
  outstanding_nodup : (b.outstanding.map (·.id)).Nodup
  outstanding_task : ∀ o ∈ b.outstanding,
    ∃ t ∈ b.inFlight, t.id = o.id ∧ t.row.message = o.message
  resolved_nodup : (b.hist.resolved.map Prod.fst).Nodup
  resolved_spawned : ∀ p ∈ b.hist.resolved, p.1 < b.nextTask
  phases : ∀ t ∈ b.inFlight, PhaseLogged d b t
  complete : ∀ e ∈ b.unwrittenComplete, Delivered b e
  fail : ∀ e ∈ b.unwrittenFail, Refused d b e

section
variable {d : OutboxDispatcher} {now : Instant} {shut : Bool} {b b' : Books}

theorem Delivered.mono {e : Unwritten CompletedMessage} (h : Delivered b e)
    (hs : b.hist.spawned ⊆ b'.hist.spawned) (hr : b.hist.resolved ⊆ b'.hist.resolved) :
    Delivered b' e := by
  obtain ⟨row, h₁, h₂, h₃⟩ := h
  exact ⟨row, hs h₁, hr h₂, h₃⟩

theorem Refused.mono {e : Unwritten FailedMessage} (h : Refused d b e)
    (hs : b.hist.spawned ⊆ b'.hist.spawned) (hr : b.hist.resolved ⊆ b'.hist.resolved) :
    Refused d b' e := by
  obtain ⟨row, r, unit, kind, error, h₁, h₂, h₃⟩ := h
  exact ⟨row, r, unit, kind, error, hs h₁, hr h₂, h₃⟩

theorem PhaseLogged.congr {t : PublishTask} (h : PhaseLogged d b t)
    (hr : b'.hist.resolved = b.hist.resolved) : PhaseLogged d b' t := by
  unfold PhaseLogged at h ⊢
  rw [hr]
  exact h

namespace Books.Sound

theorem id_lt (h : b.Sound d) {id : TaskId} {row : PendingRow}
    (hm : (id, row) ∈ b.hist.spawned) : id < b.nextTask := by
  have : id ∈ b.hist.spawned.map Prod.fst := List.mem_map.mpr ⟨_, hm, rfl⟩
  rw [h.ids] at this
  exact List.mem_range.mp this

theorem row_unique (h : b.Sound d) {id : TaskId} {row row' : PendingRow}
    (hm : (id, row) ∈ b.hist.spawned) (hm' : (id, row') ∈ b.hist.spawned) : row = row' := by
  have hnd : (b.hist.spawned.map Prod.fst).Nodup := by rw [h.ids]; exact List.nodup_range
  exact (Prod.mk.inj (List.inj_on_of_nodup_map hnd hm hm' rfl)).2

theorem result_unique (h : b.Sound d) {id : TaskId} {r r' : PublishResult}
    (hm : (id, r) ∈ b.hist.resolved) (hm' : (id, r') ∈ b.hist.resolved) : r = r' :=
  (Prod.mk.inj (List.inj_on_of_nodup_map h.resolved_nodup hm hm' rfl)).2

theorem task_unique (h : b.Sound d) {t t' : PublishTask} (ht : t ∈ b.inFlight)
    (ht' : t' ∈ b.inFlight) (hid : t.id = t'.id) : t = t' :=
  List.inj_on_of_nodup_map h.inFlight_nodup ht ht' hid

/-- A task that has not finished is not in the log. -/
theorem not_logged (h : b.Sound d) {t : PublishTask} (ht : t ∈ b.inFlight)
    (hnf : ∀ outcome, t.phase ≠ .finished outcome) : t.id ∉ b.hist.resolved.map Prod.fst := by
  have hlog := h.phases t ht
  unfold PhaseLogged at hlog
  split at hlog
  · rename_i outcome hf; exact absurd hf (hnf outcome)
  · exact hlog

theorem empty (d : OutboxDispatcher) : Books.empty.Sound d := by
  refine ⟨rfl, rfl, ?_, ?_, ?_, ?_, ?_, ?_, ?_, ?_, ?_⟩ <;> simp [Books.empty, History.empty]

theorem receive (h : b.Sound d) (records : List Claimed) : (b.receive records).Sound d where
  ids := h.ids
  rows := by
    simp only [Books.receive, List.map_append, h.rows, List.append_assoc]
  inFlight_nodup := h.inFlight_nodup
  inFlight_row := h.inFlight_row
  outstanding_nodup := h.outstanding_nodup
  outstanding_task := h.outstanding_task
  resolved_nodup := h.resolved_nodup
  resolved_spawned := h.resolved_spawned
  phases t ht := (h.phases t ht).congr rfl
  complete e he := (h.complete e he).mono (fun _ hx => hx) (fun _ hx => hx)
  fail e he := (h.fail e he).mono (fun _ hx => hx) (fun _ hx => hx)

theorem spawn (h : b.Sound d) {row : PendingRow} {rest : List PendingRow}
    (hp : b.pending = row :: rest) : (Books.spawn { b with pending := rest } row).Sound d := by
  have hfresh : ∀ t ∈ b.inFlight, t.id ≠ b.nextTask := fun t ht =>
    Nat.ne_of_lt (h.id_lt (h.inFlight_row t ht))
  have hout : ∀ o ∈ b.outstanding, o.id ≠ b.nextTask := by
    intro o ho
    obtain ⟨t, ht, hid, -⟩ := h.outstanding_task o ho
    exact hid ▸ hfresh t ht
  refine ⟨?_, ?_, ?_, ?_, ?_, ?_, h.resolved_nodup, ?_, ?_, ?_, ?_⟩
  · simp [Books.spawn, h.ids, List.range_succ]
  · simp [Books.spawn, h.rows, hp]
  · simp only [Books.spawn, List.map_append, List.map_cons, List.map_nil]
    refine List.Nodup.append h.inFlight_nodup (List.nodup_singleton _) ?_
    rintro id hid hid'
    obtain ⟨t, ht, rfl⟩ := List.mem_map.mp hid
    exact hfresh t ht (List.mem_singleton.mp hid')
  · intro t ht
    rcases List.mem_append.mp ht with ht | ht
    · exact List.mem_append_left _ (h.inFlight_row t ht)
    · rw [List.mem_singleton.mp ht]
      exact List.mem_append_right _ (List.mem_singleton.mpr rfl)
  · simp only [Books.spawn, List.map_append, List.map_cons, List.map_nil]
    refine List.Nodup.append h.outstanding_nodup (List.nodup_singleton _) ?_
    rintro id hid hid'
    obtain ⟨o, ho, rfl⟩ := List.mem_map.mp hid
    exact hout o ho (List.mem_singleton.mp hid')
  · intro o ho
    rcases List.mem_append.mp ho with ho | ho
    · obtain ⟨t, ht, hto⟩ := h.outstanding_task o ho
      exact ⟨t, List.mem_append_left _ ht, hto⟩
    · rw [List.mem_singleton.mp ho]
      exact ⟨_, List.mem_append_right _ (List.mem_singleton.mpr rfl), rfl, rfl⟩
  · intro p hp'
    exact Nat.lt_succ_of_lt (h.resolved_spawned p hp')
  · intro t ht
    rcases List.mem_append.mp ht with ht | ht
    · exact (h.phases t ht).congr rfl
    · rw [List.mem_singleton.mp ht]
      -- a fresh id has no entry in the log
      intro hm
      obtain ⟨p, hp', hid⟩ := List.mem_map.mp hm
      exact Nat.ne_of_lt (h.resolved_spawned p hp') hid
  · intro e he
    exact (h.complete e he).mono (fun _ hx => List.mem_append_left _ hx) (fun _ hx => hx)
  · intro e he
    exact (h.fail e he).mono (fun _ hx => List.mem_append_left _ hx) (fun _ hx => hx)

/-- Tasks keep their id and row when a phase or a flag of theirs changes. -/
theorem map_tasks (h : b.Sound d) {f : PublishTask → PublishTask} (hist : History)
    (hid : ∀ t, (f t).id = t.id) (hrow : ∀ t, (f t).row = t.row)
    (hs : hist.spawned = b.hist.spawned) (ha : hist.acquired = b.hist.acquired)
    (hr : b.hist.resolved ⊆ hist.resolved) (hnd : (hist.resolved.map Prod.fst).Nodup)
    (hlt : ∀ p ∈ hist.resolved, p.1 < b.nextTask)
    (hph : ∀ t ∈ b.inFlight, PhaseLogged d { b with hist := hist } (f t)) :
    ({ b with inFlight := b.inFlight.map f, hist := hist } : Books).Sound d := by
  have hids : (b.inFlight.map f).map (·.id) = b.inFlight.map (·.id) := by
    rw [List.map_map]; exact List.map_congr_left fun t _ => hid t
  refine ⟨by rw [hs]; exact h.ids, by rw [ha, hs]; exact h.rows, by rw [hids]; exact h.inFlight_nodup,
    ?_, h.outstanding_nodup, ?_, hnd, hlt, ?_, ?_, ?_⟩
  · intro t ht
    obtain ⟨t₀, ht₀, rfl⟩ := List.mem_map.mp ht
    rw [hid, hrow, hs]
    exact h.inFlight_row t₀ ht₀
  · intro o ho
    obtain ⟨t, ht, hto⟩ := h.outstanding_task o ho
    exact ⟨f t, List.mem_map.mpr ⟨t, ht, rfl⟩, by rw [hid, hrow]; exact hto⟩
  · intro t ht
    obtain ⟨t₀, ht₀, rfl⟩ := List.mem_map.mp ht
    exact (hph t₀ ht₀).congr rfl
  · intro e he
    exact (h.complete e he).mono (by rw [hs]; exact fun _ hx => hx) hr
  · intro e he
    exact (h.fail e he).mono (by rw [hs]; exact fun _ hx => hx) hr

theorem phase (h : b.Sound d) {t : PublishTask} {p : TaskPhase} (ht : t ∈ b.inFlight)
    (he : t.phase.ended = false) (hp : p.silent = true) : (b.setPhase t.id p).Sound d := by
  refine h.map_tasks _ (fun t' => by split <;> rfl) (fun t' => by split <;> rfl) rfl rfl
    (fun _ hx => hx) h.resolved_nodup h.resolved_spawned ?_
  intro t' ht'
  split
  · rename_i hid
    have hno := h.not_logged ht fun o ho => by rw [ho] at he; cases he
    cases p <;> simp only [TaskPhase.silent, Bool.false_eq_true] at hp <;>
      simpa only [PhaseLogged, hid] using hno
  · exact (h.phases t' ht').congr rfl

theorem resolve (h : b.Sound d) {t : PublishTask} {since : Instant} (r : PublishResult)
    (ht : t ∈ b.inFlight) (hp : t.phase = .publishing since) :
    (b.resolve d.settings.publishTimeout t r).Sound d := by
  have hno := h.not_logged ht fun o ho => by rw [ho] at hp; cases hp
  refine h.map_tasks _ (fun t' => by split <;> rfl) (fun t' => by split <;> rfl) rfl rfl
    (List.subset_append_left _ _) ?_ ?_ ?_
  · simp only [List.map_append, List.map_cons, List.map_nil]
    refine List.Nodup.append h.resolved_nodup (List.nodup_singleton _) ?_
    intro id hid hid'
    rw [List.mem_singleton.mp hid'] at hid
    exact hno hid
  · intro p hp'
    rcases List.mem_append.mp hp' with hp' | hp'
    · exact h.resolved_spawned p hp'
    · rw [List.mem_singleton.mp hp']
      exact h.id_lt (h.inFlight_row t ht)
  · intro t' ht'
    split
    · rename_i hid
      have : t' = t := h.task_unique ht' ht hid
      subst this
      exact ⟨r, List.mem_append_right _ (List.mem_singleton.mpr rfl), rfl⟩
    · rename_i hid
      have hlog := h.phases t' ht'
      unfold PhaseLogged at hlog ⊢
      split
      · rename_i outcome hf
        simp only [hf] at hlog
        obtain ⟨r', hr', ho⟩ := hlog
        exact ⟨r', List.mem_append_left _ hr', ho⟩
      · rename_i hnf
        have hno' := h.not_logged ht' hnf
        simp only [List.map_append, List.map_cons, List.map_nil, List.mem_append,
          List.mem_singleton, not_or]
        exact ⟨hno', hid⟩

/-- Fewer tasks, fewer outcomes: what is left is still sound. -/
theorem shrink (h : b.Sound d) {inFlight : List PublishTask} {outstanding : List OutstandingTask}
    {uc : List (Unwritten CompletedMessage)} {uf : List (Unwritten FailedMessage)} (hist : History)
    (hin : inFlight.Sublist b.inFlight) (hout : outstanding.Sublist b.outstanding)
    (hkeep : ∀ o ∈ outstanding, ∀ t ∈ b.inFlight, t.id = o.id → t ∈ inFlight)
    (hs : hist.spawned = b.hist.spawned) (ha : hist.acquired = b.hist.acquired)
    (hr : hist.resolved = b.hist.resolved)
    (hc : ∀ e ∈ uc, Delivered b e) (hf : ∀ e ∈ uf, Refused d b e) :
    ({ b with inFlight := inFlight, outstanding := outstanding, unwrittenComplete := uc,
              unwrittenFail := uf, hist := hist } : Books).Sound d := by
  have hsub : b.hist.spawned ⊆ hist.spawned := by rw [hs]; exact fun _ hx => hx
  have hres : b.hist.resolved ⊆ hist.resolved := by rw [hr]; exact fun _ hx => hx
  refine ⟨by rw [hs]; exact h.ids, by rw [ha, hs]; exact h.rows,
    h.inFlight_nodup.sublist (hin.map _), ?_, h.outstanding_nodup.sublist (hout.map _), ?_,
    by rw [hr]; exact h.resolved_nodup, by rw [hr]; exact h.resolved_spawned, ?_, ?_, ?_⟩
  · intro t ht
    exact hsub (h.inFlight_row t (hin.subset ht))
  · intro o ho
    obtain ⟨t, ht, hid, hm⟩ := h.outstanding_task o (hout.subset ho)
    exact ⟨t, hkeep o ho t ht hid, hid, hm⟩
  · intro t ht
    exact (h.phases t (hin.subset ht)).congr hr
  · intro e he
    exact (hc e he).mono hsub hres
  · intro e he
    exact (hf e he).mono hsub hres

theorem record (h : b.Sound d) {t : PublishTask} (unit : ℚ) (ht : t ∈ b.inFlight) :
    (Books.recordOne d.retry now unit (b.takeTask t.id) t).Sound d := by
  have hin : (b.inFlight.filter fun t' => t'.id ≠ t.id).Sublist b.inFlight := List.filter_sublist
  have hout : (b.outstanding.filter fun o => o.id ≠ t.id).Sublist b.outstanding :=
    List.filter_sublist
  have hkeep : ∀ o ∈ b.outstanding.filter fun o => o.id ≠ t.id,
      ∀ t' ∈ b.inFlight, t'.id = o.id → t' ∈ b.inFlight.filter fun t' => t'.id ≠ t.id := by
    intro o ho t' ht' hid
    have hne := (List.mem_filter.mp ho).2
    exact List.mem_filter.mpr ⟨ht', by rw [hid]; exact hne⟩
  have hlog := h.phases t ht
  have hrow := h.inFlight_row t ht
  simp only [Books.recordOne]
  split
  · rename_i message messageType hph
    refine h.shrink _ hin hout hkeep rfl rfl rfl ?_ h.fail
    intro e he
    rcases List.mem_append.mp he with he | he
    · exact h.complete e he
    · rw [List.mem_singleton.mp he]
      simp only [PhaseLogged, hph] at hlog
      obtain ⟨r, hr, ho⟩ := hlog
      cases r <;> simp only [publishOne, reduceCtorEq, PublishTaskOutcome.published.injEq] at ho
      exact ⟨t.row, hrow, hr, by rw [ho.1]⟩
  · rename_i message attemptsBefore kind error hph
    refine h.shrink _ hin hout hkeep rfl rfl rfl h.complete ?_
    intro e he
    rcases List.mem_append.mp he with he | he
    · exact h.fail e he
    · rw [List.mem_singleton.mp he]
      simp only [PhaseLogged, hph] at hlog
      obtain ⟨r, hr, ho⟩ := hlog
      have hma : message = t.row.message ∧ attemptsBefore = t.row.attemptsBefore := by
        cases r <;> simp only [publishOne, reduceCtorEq, PublishTaskOutcome.failed.injEq] at ho <;>
          exact ⟨ho.1, ho.2.1⟩
      obtain ⟨rfl, rfl⟩ := hma
      exact ⟨t.row, r, unit, kind, error, hrow, hr, ho.symm, rfl⟩
  · exact h.shrink _ hin hout hkeep rfl rfl rfl h.complete h.fail

/-- The moves that only take outcomes off the two lists. -/
theorem sublists (h : b.Sound d) {uc : List (Unwritten CompletedMessage)}
    {uf : List (Unwritten FailedMessage)} {hist : History} (hc : uc ⊆ b.unwrittenComplete)
    (hf : uf ⊆ b.unwrittenFail) (hs : hist.spawned = b.hist.spawned)
    (ha : hist.acquired = b.hist.acquired) (hr : hist.resolved = b.hist.resolved) :
    ({ b with unwrittenComplete := uc, unwrittenFail := uf, hist := hist } : Books).Sound d :=
  h.shrink _ (.refl _) (.refl _) (fun _ _ _ ht _ => ht) hs ha hr (fun e he => h.complete e (hc he))
    (fun e he => h.fail e (hf he))

theorem dropNotStarted (h : b.Sound d) (lagging : List TaskId) (hp : b.pending = []) :
    (b.dropNotStarted lagging).Sound d := by
  -- first the flags, which no field of the invariant reads, then the map
  have hflag := h.map_tasks b.hist
    (f := fun t => if t.id ∈ (b.notYetPermitted lagging).map (·.id) then
      { t with abortRequested := true } else t)
    (fun t => by split <;> rfl) (fun t => by split <;> rfl) rfl rfl (fun _ hx => hx)
    h.resolved_nodup h.resolved_spawned (fun t ht => by
      have hlog := h.phases t ht
      split <;> exact hlog)
  have hdrop := hflag.shrink (b.dropNotStarted lagging).hist (.refl _)
    (List.filter_sublist (p := fun o => o.id ∉ (b.notYetPermitted lagging).map (·.id)))
    (fun _ _ _ ht _ => ht) rfl rfl rfl hflag.complete hflag.fail
  have hshape : b.dropNotStarted lagging =
      { b.dropNotStarted lagging with pending := b.pending } := by
    rw [hp]; rfl
  rw [hshape]
  exact hdrop

/-- Every move keeps the collections and the log in agreement. -/
theorem move (hm : Move d now shut b b') (h : b.Sound d) : b'.Sound d := by
  cases hm with
  | receive _ records => exact h.receive records
  | spawn _ hp => exact h.spawn hp
  | phase ht he hp => exact h.phase ht he hp
  | resolve r ht hp => exact h.resolve r ht hp
  | record unit ht => exact h.record unit ht
  | clearComplete => exact h.sublists (List.nil_subset _) (fun _ hx => hx) rfl rfl rfl
  | clearFail => exact h.sublists (fun _ hx => hx) (List.nil_subset _) rfl rfl rfl
  | expireComplete =>
      exact h.sublists (List.filter_subset_self _) (fun _ hx => hx) rfl rfl rfl
  | expireFail => exact h.sublists (fun _ hx => hx) (List.filter_subset_self _) rfl rfl rfl
  | dropNotStarted lagging _ hp => exact h.dropNotStarted lagging hp
  | drainFail => exact h.sublists (fun _ hx => hx) (List.nil_subset _) rfl rfl rfl

end Books.Sound

end

/-- What holds of the collections between any two steps. -/
structure Books.Settled (d : OutboxDispatcher) (b : Books) : Prop where
  sound : b.Sound d
  pending : b.pending = []

theorem Books.Settled.empty (d : OutboxDispatcher) : Books.empty.Settled d :=
  ⟨Books.Sound.empty d, rfl⟩

section
variable {E : Type} [Classify E] {d : OutboxDispatcher} {s s' : RunState E} {e : Event E}

theorem settled_of_next (h : next d s e = some s') (hs : s.books.Settled d) :
    s'.books.Settled d :=
  ⟨Moves.inv Books.Sound.move (moves_of_step (step_of_next h) hs.pending) hs.sound,
    pending_of_step (step_of_next h) hs.pending⟩

theorem Run.settled {now : Instant} {es : List (Event E)} (h : Run d now es s) :
    s.books.Settled d :=
  h.inv (P := fun s => s.books.Settled d) (fun hs he => settled_of_next he hs) (.empty d)

end

/-! ## The permanent error of a stretch -/

/-- The permanent error a stretch of a round ends in. -/
def Progress.permanent {E : Type} : Progress E → Option E
  | .awaiting _ => none
  | .done _ permanent => permanent

section
variable {E : Type} [Classify E]

/-- An answer's error, if it is permanent. -/
def Answer.permanent : Answer E → Option E
  | .err e => if Classify.kind e = .permanent then some e else none
  | _ => none

theorem Answer.permanent_err (e : E) :
    (Answer.err e).permanent = none ↔ Classify.kind e ≠ .permanent := by
  simp only [Answer.permanent, ite_eq_right_iff, reduceCtorEq, imp_false]

omit [Classify E] in
theorem failHalf_permanent (lease : Duration) (now : Instant) (anyFailed : Bool) (b : Books) :
    (failHalf (E := E) lease now anyFailed b).2.permanent = none := by
  unfold failHalf
  dsimp only
  split <;> rfl

omit [Classify E] in
theorem startRound_permanent (lease : Duration) (now : Instant) (b : Books) :
    (startRound (E := E) lease now b).2.permanent = none := by
  unfold startRound
  split
  · exact failHalf_permanent lease now false b
  · rfl

theorem resumeRound_permanent (lease : Duration) (now : Instant) (b : Books) (round : Round)
    (a : Answer E) : (resumeRound lease now b round a).2.permanent = a.permanent := by
  cases round with
  | completing call =>
      cases a with
      | ok | elapsed => exact failHalf_permanent lease now _ _
      | err err =>
          unfold resumeRound Answer.permanent
          dsimp only
          split
          · rfl
          · exact failHalf_permanent lease now _ _
  | failing anyFailed call =>
      cases a with
      | ok | elapsed => rfl
      | err err =>
          unfold resumeRound Answer.permanent
          dsimp only
          split <;> rfl

end

/-! ## A round writes the lists as they stand -/

/-- The round's call carries exactly the entries it is about. -/
def Round.Carries (b : Books) : Round → Prop
  | .completing call => call.op = .complete (b.unwrittenComplete.map (·.item))
  | .failing _ call => call.op = .fail (b.unwrittenFail.map (·.item))

/-- The round `run` is suspended in. -/
def Pc.round? {E : Type} : Pc E → Option Round
  | .select _ (.running round) => some round
  | .drainRound _ round => some round
  | .finalRound round => some round
  | _ => none

def Progress.Carries {E : Type} (b : Books) : Progress E → Prop
  | .awaiting round => round.Carries b
  | .done _ _ => True

def RunState.Carries {E : Type} (s : RunState E) : Prop :=
  ∀ round, s.pc.round? = some round → round.Carries s.books

section
variable {E : Type} {d : OutboxDispatcher} {s s' : RunState E} {e : Event E}

theorem failHalf_carries (lease : Duration) (now : Instant) (anyFailed : Bool) (b : Books) :
    (failHalf (E := E) lease now anyFailed b).2.Carries (failHalf (E := E) lease now anyFailed b).1 := by
  simp only [failHalf]
  split
  · trivial
  · exact rfl

theorem startRound_carries (lease : Duration) (now : Instant) (b : Books) :
    (startRound (E := E) lease now b).2.Carries (startRound (E := E) lease now b).1 := by
  unfold startRound
  split
  · exact failHalf_carries lease now false b
  · exact rfl

theorem resumeRound_carries [Classify E] (lease : Duration) (now : Instant) (b : Books)
    (round : Round) (a : Answer E) :
    (resumeRound lease now b round a).2.Carries (resumeRound lease now b round a).1 := by
  unfold resumeRound
  split <;> try split
  all_goals first | trivial | exact failHalf_carries lease now _ _

theorem RunState.carries_of_none (h : s.pc.round? = none) : s.Carries := by
  intro round hround
  rw [h] at hround
  cases hround

theorem afterRetry_carries {at_ : LoopHead} {p : Books × Progress E} (hp : p.2.Carries p.1) :
    (afterRetry d s at_ p).Carries := by
  simp only [afterRetry]
  split
  · rename_i round hround
    rw [hround] at hp
    intro round' h
    cases h
    exact hp
  · refine RunState.carries_of_none ?_
    simp only [finishRetry]
    split <;> rfl

theorem afterDrainRound_carries {deadline : Instant} {p : Books × Progress E}
    (hp : p.2.Carries p.1) : (afterDrainRound s deadline p).Carries := by
  simp only [afterDrainRound]
  split
  · rename_i round hround
    rw [hround] at hp
    intro round' h
    cases h
    exact hp
  · exact RunState.carries_of_none rfl

theorem finalize_round (permanent : Option E) : (finalize s permanent).pc.round? = none := by
  simp only [finalize]; split <;> rfl

theorem afterFinal_carries {p : Books × Progress E} (hp : p.2.Carries p.1) :
    (afterFinal s p).Carries := by
  simp only [afterFinal]
  split
  · rename_i round hround
    rw [hround] at hp
    intro round' h
    cases h
    exact hp
  · exact RunState.carries_of_none (finalize_round _)

theorem leaveDrain_carries (permanent : Option E) : (leaveDrain d s permanent).Carries := by
  cases permanent with
  | none => exact afterFinal_carries (startRound_carries _ _ _)
  | some e => exact RunState.carries_of_none (finalize_round _)

theorem afterBody_round [Classify E] (call : Call) (a : Answer E) :
    (afterBody d s call a).pc.round? = none := by
  unfold afterBody
  split <;> try split
  all_goals rfl

theorem Round.Carries.congr {b b' : Books} {round : Round} (h : round.Carries b)
    (hc : b'.unwrittenComplete = b.unwrittenComplete) (hf : b'.unwrittenFail = b.unwrittenFail) :
    round.Carries b' := by
  cases round with
  | completing call => simpa only [Round.Carries, hc] using h
  | failing anyFailed call => simpa only [Round.Carries, hf] using h

theorem taskStep_unwritten {t : PublishTask} {b : Books} (h : taskStep d s t e = some b) :
    b.unwrittenComplete = s.books.unwrittenComplete ∧ b.unwrittenFail = s.books.unwrittenFail := by
  cases e <;> simp only [taskStep, reduceCtorEq, Option.ite_none_right_eq_some,
    Option.ite_none_left_eq_some, Option.some.injEq] at h
  case publishReturns =>
    split at h
    · simp only [Option.ite_none_right_eq_some, Option.some.injEq] at h
      obtain ⟨-, rfl⟩ := h
      exact ⟨rfl, rfl⟩
    · cases h
  all_goals obtain ⟨-, rfl⟩ := h; exact ⟨rfl, rfl⟩

/-- Carrying out a call changes neither its arguments nor what awaits it. -/
theorem setCall_round {pc : Pc E} {call : Call} {reply : Option Reply} {round : Round}
    (hc : pc.call? = some call)
    (hr : (pc.setCall { call with applied := reply }).round? = some round) :
    ∃ round₀, pc.round? = some round₀ ∧ ∀ b, round₀.Carries b → round.Carries b := by
  cases pc <;> simp only [Pc.setCall, Pc.round?, Pc.call?, reduceCtorEq, Option.some.injEq] at hr hc
  case select at_ fut =>
    cases fut <;> simp only [reduceCtorEq, Option.some.injEq] at hr hc
    rename_i round₀
    subst hc hr
    exact ⟨round₀, rfl, fun b hb => by cases round₀ <;> exact hb⟩
  case drainRound deadline round₀ =>
    subst hc hr
    exact ⟨round₀, rfl, fun b hb => by cases round₀ <;> exact hb⟩
  case finalRound round₀ =>
    subst hc hr
    exact ⟨round₀, rfl, fun b hb => by cases round₀ <;> exact hb⟩

theorem setCall_body {pc : Pc E} {call call' : Call} {reply : Option Reply}
    (hc : pc.call? = some call) (h : pc.setCall { call with applied := reply } = .body call') :
    pc = .body call ∧ call' = { call with applied := reply } := by
  cases pc <;> simp only [Pc.setCall, Pc.call?, reduceCtorEq, Option.some.injEq] at h hc
  case select at_ fut => cases fut <;> simp at h
  case body call₀ =>
    subst hc
    cases h
    exact ⟨rfl, rfl⟩

theorem carries_of_step [Classify E] (h : Step d s e s') (hs : s.Carries) : s'.Carries := by
  cases h with
  | tick | cancel => exact hs
  | task _ _ hb =>
      obtain ⟨hc, hf⟩ := taskStep_unwritten hb
      intro round hround
      exact (hs round hround).congr hc hf
  | apply hc =>
      intro round hround
      obtain ⟨round₀, h₀, hcar⟩ := setCall_round hc hround
      exact hcar _ (hs round₀ h₀)
  | crash | fireCancel | fireJoin | fireLease | fireStats | fireClaim | answerReleasing
  | answerRelease | drainStay => exact RunState.carries_of_none rfl
  | enter =>
      refine RunState.carries_of_none ?_
      simp only [enterSelect]
      split <;> rfl
  | retryWakes => exact afterRetry_carries (startRound_carries _ _ _)
  | answerRetry => exact afterRetry_carries (resumeRound_carries _ _ _ _ _)
  | answerBody => exact RunState.carries_of_none (afterBody_round _ _)
  | answerDrain => exact afterDrainRound_carries (resumeRound_carries _ _ _ _ _)
  | answerFinal => exact afterFinal_carries (resumeRound_carries _ _ _ _ _)
  | stop =>
      refine RunState.carries_of_none ?_
      simp only [shutdown]
      split <;> rfl
  | drainLeave => exact leaveDrain_carries _
  | drainJoin => exact afterDrainRound_carries (startRound_carries _ _ _)
  | drainDeadline => exact leaveDrain_carries none

theorem Run.carries [Classify E] {now : Instant} {es : List (Event E)} (h : Run d now es s) :
    s.Carries :=
  h.inv (P := RunState.Carries) (fun hs he => carries_of_step (step_of_next he) hs)
    (RunState.carries_of_none rfl)

end

end Reliar.Dispatcher
