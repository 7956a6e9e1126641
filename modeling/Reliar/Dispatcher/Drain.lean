/-
# `Reliar.Dispatcher.Drain` — what the drain hands back
(`reliar-outbox`: `dispatcher.rs`, `drain`)

At its end `drain` releases every row still in `outstanding`, and every failed
row it could not write.  A row whose publish succeeded is meant to be left to
its lease instead.

`outstanding` is the wrong test for that: a task that ended with `Published`
stays in it until its result is joined, and the drain loop can be left with
results unjoined — past the deadline, or on a permanent error — and results can
come in while the last write is awaited.  `drain_hands_back_delivered` is such a
run.  `drain_keeps_delivered` says that this is the only way: where no result is
left unjoined, and no row was held under two claims when the loop ended, nothing
delivered is released.
-/
import Reliar.Dispatcher.Conservation

namespace Reliar.Dispatcher

open Reliar.Core Reliar.Outbox Relation

namespace Books

/-- The claims the worker holds: in flight, or with an outcome not written yet. -/
def held (b : Books) : List TaskId :=
  b.claimsAt .outstanding ++ b.claimsAt .unwrittenComplete ++ b.claimsAt .unwrittenFail

/-- No row is held under two claims. -/
def OneClaimPerRow (b : Books) : Prop :=
  ∀ p ∈ b.hist.spawned, ∀ q ∈ b.hist.spawned, p.1 ∈ b.held → q.1 ∈ b.held →
    p.2.message.id = q.2.message.id → p.1 = q.1

instance (b : Books) : Decidable b.OneClaimPerRow :=
  inferInstanceAs (Decidable (∀ p ∈ b.hist.spawned, ∀ q ∈ b.hist.spawned, p.1 ∈ b.held →
    q.1 ∈ b.held → p.2.message.id = q.2.message.id → p.1 = q.1))

/-- Some outstanding task has ended with `Published` and is not joined yet. -/
def publishedUnjoined (b : Books) : Bool :=
  b.outstanding.any fun o => b.inFlight.any fun t =>
    decide (t.id = o.id) && match t.phase with
      | .finished (.published _ _) => true
      | _ => false

/-- The publish of an outstanding task has returned `Ok`. -/
def OutstandingDelivered (b : Books) : Prop := ∃ o ∈ b.outstanding, (o.id, .ok) ∈ b.hist.resolved

/-- Same tasks, same map of them, same log of publishes. -/
structure SameTasks (b b' : Books) : Prop where
  inFlight : b'.inFlight = b.inFlight
  outstanding : b'.outstanding = b.outstanding
  spawned : b'.hist.spawned = b.hist.spawned
  resolved : b'.hist.resolved = b.hist.resolved

end Books

section
variable {E : Type} {d : OutboxDispatcher} {s s' : RunState E} {e : Event E}

theorem failHalf_sameTasks (lease : Duration) (now : Instant) (anyFailed : Bool) (b : Books) :
    b.SameTasks (failHalf (E := E) lease now anyFailed b).1 := by
  simp only [failHalf]
  split <;> exact ⟨rfl, rfl, rfl, rfl⟩

theorem startRound_sameTasks (lease : Duration) (now : Instant) (b : Books) :
    b.SameTasks (startRound (E := E) lease now b).1 := by
  unfold startRound
  split
  · exact failHalf_sameTasks lease now false b
  · exact ⟨rfl, rfl, rfl, rfl⟩

theorem resumeRound_sameTasks [Classify E] (lease : Duration) (now : Instant) (b : Books)
    (round : Round) (a : Answer E) : b.SameTasks (resumeRound lease now b round a).1 := by
  unfold resumeRound
  split
  · have h := failHalf_sameTasks (E := E) lease now false b.clearComplete
    exact ⟨h.inFlight, h.outstanding, h.spawned, h.resolved⟩
  · split
    · exact ⟨rfl, rfl, rfl, rfl⟩
    · exact failHalf_sameTasks lease now true b
  · exact failHalf_sameTasks lease now true b
  · exact ⟨rfl, rfl, rfl, rfl⟩
  · split <;> exact ⟨rfl, rfl, rfl, rfl⟩
  · exact ⟨rfl, rfl, rfl, rfl⟩

theorem Books.SameTasks.outstandingDelivered {b b' : Books} (h : b.SameTasks b') :
    b'.OutstandingDelivered ↔ b.OutstandingDelivered := by
  simp only [Books.OutstandingDelivered, h.outstanding, h.resolved]

end

/-! ## The final release -/

section
variable {E : Type} [Classify E]

def Pc.inFinalRelease : Pc E → Bool
  | .finalRelease _ _ => true
  | _ => false

/-- Runs that leave the loop in `exit` and then, by steps of `step`, issue drain's final release of
`refs`; `issued` is the state right after. -/
def FinalRelease (step : RunState E → Event E → RunState E → Prop) (d : OutboxDispatcher)
    (exit issued : RunState E) (refs : List MessageRef) : Prop :=
  ∃ now es₁ es₂ s e permanent call,
    Run d now es₁ exit ∧ exit.pc = .stopping ∧ Machine.Path step exit es₂ s ∧ step s e issued ∧
      s.pc.inFinalRelease = false ∧
      issued.pc = .finalRelease permanent call ∧ call.op = .release refs

/-- A claim held when the loop was left has been published, and its row is in `refs`. -/
def HandsBackDelivered (exit issued : RunState E) (refs : List MessageRef) : Prop :=
  ∃ id row m, id ∈ exit.books.held ∧ (id, row) ∈ issued.books.hist.spawned ∧
    (id, .ok) ∈ issued.books.hist.resolved ∧ m ∈ refs ∧ m.id = row.message.id

/-- Two rows in flight when the token is cancelled; the second one's publish returns while the
`complete` of the first is awaited, and that write then fails for good. -/
def lateResult : List (Event FailureKind) × List (Event FailureKind) :=
  ([.enter, .fireClaim, .apply (.batch [sampleClaim 1, sampleClaim 2] []), .answer .ok,
    .permit 0, .permit 1, .enter, .cancel, .fireCancel],
   [.stop [], .drainCheck, .publishReturns 0 .ok, .drainJoin [(0, 0)], .publishReturns 1 .ok,
    .answer (.err .permanent)])

/-- Every step of `lateResult` is one the code can take, under the default settings. -/
theorem drain_hands_back_delivered :
    build .default sampleWorker = .ok (sample .default) ∧
      ∃ exit issued refs,
        FinalRelease (E := FailureKind) (Machine.Next (next (sample .default))) (sample .default)
          exit issued refs ∧ HandsBackDelivered exit issued refs := by
  let d := sample .default
  let exit := Machine.reach (next d) (RunState.start .default 0) lateResult.1
  let last := Machine.reach (next d) exit lateResult.2
  let issued := Machine.reach (next d) last [.drainCheck]
  let refs := [(sampleClaim 2).record.messageRef]
  have hrelease : FinalRelease (Machine.Next (next d)) d exit issued refs := by
    refine ⟨0, lateResult.1, lateResult.2, last, .drainCheck, some .permanent,
      .issue (.release refs) 0, Machine.path_reach (by decide), by decide,
      Machine.path_reach (by decide), ?_, by decide, by decide, rfl⟩
    exact (by decide : next d last .drainCheck = some issued)
  have hback : HandsBackDelivered exit issued refs :=
    ⟨1, .ofClaimed (sampleClaim 2), (sampleClaim 2).record.messageRef, by decide, by decide,
      by decide, by decide, rfl⟩
  exact ⟨build_default sampleWorker, exit, issued, refs, hrelease, hback⟩

/-! ## Where results are joined in time -/

/-- At the drain loop's exits: no outstanding task has ended with `Published` unjoined when the loop
is left past its deadline or on an error, and none does while the last write is awaited. -/
def joinsInTime (s : RunState E) (e : Event E) : Bool :=
  match e, s.pc with
  | .drainCheck, .drainHead deadline permanent =>
      !((decide (deadline ≤ s.now) || permanent.isSome) && s.books.publishedUnjoined)
  | .publishReturns t .ok, .finalRound _ => !decide (t ∈ s.books.outstanding.map (·.id))
  | _, _ => true

/-- The steps that meet the condition. -/
def nextInTime (d : OutboxDispatcher) (s : RunState E) (e : Event E) : Option (RunState E) :=
  if joinsInTime s e then next d s e else none

end

section
variable {E : Type} [Classify E] {d : OutboxDispatcher} {s s' exit : RunState E} {e : Event E}

/-- What is left of the claims of `exit` once the loop is behind. -/
structure Books.LeftOf (held : List TaskId) (spawned : List (TaskId × PendingRow)) (b : Books) :
    Prop where
  inFlight : ∀ t ∈ b.inFlight, t.id ∈ held
  complete : ∀ e ∈ b.unwrittenComplete, e.task ∈ held
  fail : ∀ e ∈ b.unwrittenFail, e.task ∈ held
  spawned : b.hist.spawned = spawned

theorem Books.LeftOf.move {held : List TaskId} {spawned : List (TaskId × PendingRow)} {b b' : Books}
    {now : Instant} (hm : Move d now true b b') (h : b.LeftOf held spawned) :
    b'.LeftOf held spawned := by
  cases hm with
  | receive hs => cases hs
  | spawn hs => cases hs
  | phase ht =>
      refine ⟨fun t ht => ?_, h.complete, h.fail, h.spawned⟩
      obtain ⟨t₀, ht₀, rfl⟩ := List.mem_map.mp ht
      split <;> exact h.inFlight t₀ ht₀
  | resolve r ht =>
      refine ⟨fun t ht => ?_, h.complete, h.fail, h.spawned⟩
      obtain ⟨t₀, ht₀, rfl⟩ := List.mem_map.mp ht
      split <;> exact h.inFlight t₀ ht₀
  | @record t unit ht =>
      have hin : ∀ t' ∈ b.inFlight.filter fun t' => t'.id ≠ t.id, t'.id ∈ held := fun t' ht' =>
        h.inFlight t' (List.mem_filter.mp ht').1
      simp only [Books.recordOne]
      split
      · refine ⟨hin, fun e he => ?_, h.fail, h.spawned⟩
        rcases List.mem_append.mp he with he | he
        · exact h.complete e he
        · rw [List.mem_singleton.mp he]; exact h.inFlight t ht
      · refine ⟨hin, h.complete, fun e he => ?_, h.spawned⟩
        rcases List.mem_append.mp he with he | he
        · exact h.fail e he
        · rw [List.mem_singleton.mp he]; exact h.inFlight t ht
      · exact ⟨hin, h.complete, h.fail, h.spawned⟩
  | clearComplete => exact ⟨h.inFlight, by simp [Books.clearComplete], h.fail, h.spawned⟩
  | clearFail => exact ⟨h.inFlight, h.complete, by simp [Books.clearFail], h.spawned⟩
  | expireComplete =>
      exact ⟨h.inFlight, fun e he => h.complete e (List.mem_filter.mp he).1, h.fail, h.spawned⟩
  | expireFail =>
      exact ⟨h.inFlight, h.complete, fun e he => h.fail e (List.mem_filter.mp he).1, h.spawned⟩
  | dropNotStarted =>
      refine ⟨fun t ht => ?_, h.complete, h.fail, h.spawned⟩
      obtain ⟨t₀, ht₀, rfl⟩ := List.mem_map.mp ht
      split <;> exact h.inFlight t₀ ht₀
  | drainFail => exact ⟨h.inFlight, h.complete, by simp [Books.drainFail], h.spawned⟩

/-- The phase test finds every outstanding task whose publish has returned `Ok`. -/
theorem publishedUnjoined_of_delivered {b : Books} (hs : b.Sound d)
    (h : b.OutstandingDelivered) : b.publishedUnjoined = true ∧ b.joinReady = true := by
  obtain ⟨o, ho, hok⟩ := h
  obtain ⟨t, ht, hid, -⟩ := hs.outstanding_task o ho
  rw [← hid] at hok
  have hlog := hs.phases t ht
  have hfin : ∃ m ty, t.phase = .finished (.published m ty) := by
    unfold PhaseLogged at hlog
    split at hlog
    · rename_i outcome hph
      obtain ⟨r, hr, rfl⟩ := hlog
      cases hs.result_unique hr hok
      exact ⟨_, _, hph⟩
    · exact absurd (List.mem_map.mpr ⟨_, hok, rfl⟩) hlog
  obtain ⟨m, ty, hph⟩ := hfin
  constructor
  · refine List.any_eq_true.mpr ⟨o, ho, List.any_eq_true.mpr ⟨t, ht, ?_⟩⟩
    simp [hid, hph]
  · exact List.any_eq_true.mpr ⟨t, ht, by rw [hph]; rfl⟩

/-- No task seen published, or none seen ended: nothing outstanding is delivered. -/
theorem not_delivered_of_phases {b : Books} (hs : b.Sound d)
    (hu : b.publishedUnjoined = false ∨ b.joinReady = false) : ¬ b.OutstandingDelivered := by
  intro hdel
  obtain ⟨h₁, h₂⟩ := publishedUnjoined_of_delivered hs hdel
  rcases hu with hu | hu
  · rw [hu] at h₁; cases h₁
  · rw [hu] at h₂; cases h₂

/-- The invariant behind the loop: only claims of `exit` are left, and while the last write is
awaited no outstanding one is delivered. -/
structure Draining (d : OutboxDispatcher) (held : List TaskId)
    (spawned : List (TaskId × PendingRow)) (s : RunState E) : Prop where
  settled : s.books.Settled d
  left : s.books.LeftOf held spawned
  final : ∀ round, s.pc = .finalRound round → ¬ s.books.OutstandingDelivered

/-- Past the loop no claim is taken. -/
theorem moves_pastLoop (h : Step d s e s') (hs : s.books.pending = [])
    (hp : s.pc.pastLoop = true) : ReflTransGen (Move d s.now true) s.books s'.books := by
  have hmoves := moves_of_step h hs
  cases h with
  | tick | cancel | crash | apply | enter | fireCancel | fireLease | fireStats | fireClaim
  | answerReleasing | answerRelease | drainStay => exact .refl
  | task _ ht hb => exact moves_taskStep ht hb
  | fireJoin hpc | retryWakes hpc | answerRetry hpc | answerBody hpc => rw [hpc] at hp; cases hp
  | answerDrain | drainJoin => rw [afterDrainRound_inLoop] at hmoves; exact hmoves
  | answerFinal => rw [afterFinal_inLoop] at hmoves; exact hmoves
  | stop => rw [shutdown_inLoop] at hmoves; exact hmoves
  | drainLeave | drainDeadline => rw [leaveDrain_inLoop] at hmoves; exact hmoves

/-! ### The last write and the release -/

/-- In the last write, or in the release after it. -/
def Pc.afterDrain : Pc E → Bool
  | .finalRound _ | .finalRelease _ _ => true
  | _ => false

/-- The release is issued for the collections as the last moves left them. -/
def Issues (d : OutboxDispatcher) (s s' : RunState E) : Prop :=
  ∀ permanent call, s'.pc = .finalRelease permanent call →
    ∃ b, ReflTransGen (Move d s.now true) s.books b ∧ b.SameTasks s'.books ∧
      call.op = .release b.releaseNow

omit [Classify E] in
theorem finalize_issues {b : Books} (permanent : Option E)
    (hb : ReflTransGen (Move d s.now true) s.books b) :
    Issues d s (finalize { s with books := b } permanent) := by
  intro permanent' call hpc
  refine ⟨b, hb, ?_, ?_⟩
  · rw [finalize_books]; exact ⟨rfl, rfl, rfl, rfl⟩
  · simp only [finalize, returnWith] at hpc
    split at hpc
    · cases hpc
    · cases hpc; rfl

omit [Classify E] in
theorem afterFinal_leaves {p : Books × Progress E} (ht : s.books.SameTasks p.1)
    (hp : ReflTransGen (Move d s.now true) s.books p.1) :
    s.books.SameTasks (afterFinal s p).books ∧ Issues d s (afterFinal s p) := by
  simp only [afterFinal]
  split
  · exact ⟨ht, fun _ _ hpc => by cases hpc⟩
  · refine ⟨?_, finalize_issues _ hp⟩
    rw [finalize_books]
    exact ⟨ht.inFlight, ht.outstanding, ht.spawned, ht.resolved⟩

omit [Classify E] in
theorem leaveDrain_leaves (permanent : Option E) :
    s.books.SameTasks (leaveDrain d s permanent).books ∧ Issues d s (leaveDrain d s permanent) := by
  cases permanent with
  | none => exact afterFinal_leaves (startRound_sameTasks _ _ _) (moves_startRound _ _)
  | some e =>
      refine ⟨?_, finalize_issues (b := s.books) (some e) .refl⟩
      rw [leaveDrain, finalize_books]
      exact ⟨rfl, rfl, rfl, rfl⟩

omit [Classify E] in
/-- A publish that returns during the last write does not deliver an outstanding row. -/
theorem taskStep_not_delivered {t : PublishTask} {b : Books} {round : Round}
    (hb : taskStep d s t e = some b) (htask : e.task? = some t.id)
    (hpc : s.pc = .finalRound round) (hj : joinsInTime s e = true)
    (hd : ¬ s.books.OutstandingDelivered) : ¬ b.OutstandingDelivered := by
  rintro ⟨o, ho, hok⟩
  cases e <;> simp only [taskStep, reduceCtorEq, Option.ite_none_right_eq_some,
    Option.ite_none_left_eq_some, Option.some.injEq] at hb
  case publishReturns id r =>
    split at hb
    · simp only [Option.ite_none_right_eq_some, Option.some.injEq] at hb
      obtain ⟨-, rfl⟩ := hb
      cases htask
      rcases List.mem_append.mp hok with hok | hok
      · exact hd ⟨o, ho, hok⟩
      · obtain ⟨hid, rfl⟩ := Prod.mk.inj (List.mem_singleton.mp hok)
        simp only [joinsInTime, hpc, Bool.not_eq_true', decide_eq_false_iff_not] at hj
        exact hj (List.mem_map.mpr ⟨o, ho, hid⟩)
    · cases hb
  all_goals obtain ⟨-, rfl⟩ := hb; exact hd ⟨o, ho, hok⟩

/-- Under the condition, a step into the last write or the release leaves no delivered task
outstanding. -/
theorem leaves_of_step (h : Step d s e s') (hj : joinsInTime s e = true) (hs : s.books.Sound d)
    (hd : ∀ round, s.pc = .finalRound round → ¬ s.books.OutstandingDelivered)
    (hf : s'.pc.afterDrain = true) (hn : s.pc.inFinalRelease = false) :
    ¬ s'.books.OutstandingDelivered ∧ Issues d s s' := by
  -- steps that keep the program counter can only be taken in the last write
  have hstay : s.pc.afterDrain = true → ∃ round, s.pc = .finalRound round := by
    intro hs'
    cases hpc : s.pc <;> simp only [hpc, Pc.afterDrain, Pc.inFinalRelease, reduceCtorEq] at hs' hn
    exact ⟨_, rfl⟩
  cases h with
  | tick | cancel =>
      obtain ⟨round, hpc⟩ := hstay hf
      exact ⟨hd round hpc, fun _ _ hc => by rw [show s.pc = _ from hpc] at hc; cases hc⟩
  | task hid _ hb =>
      obtain ⟨round, hpc⟩ := hstay hf
      exact ⟨taskStep_not_delivered hb hid hpc hj (hd round hpc),
        fun _ _ hc => by rw [show s.pc = _ from hpc] at hc; cases hc⟩
  | apply hc =>
      cases hpc : s.pc <;> simp only [hpc, Pc.setCall, Pc.afterDrain, Pc.inFinalRelease,
        reduceCtorEq] at hf hn
      case select at_ fut => cases fut <;> cases hf
      case finalRound round => exact ⟨hd round hpc, fun _ _ hc => by cases hc⟩
  | enter | crash | fireCancel | fireJoin | fireLease | fireStats | fireClaim | answerReleasing
  | answerRelease | drainStay => cases hf
  | retryWakes | answerRetry =>
      simp only [afterRetry, finishRetry] at hf
      split at hf
      · cases hf
      · split at hf <;> cases hf
  | answerBody =>
      unfold afterBody at hf
      split at hf <;> try split at hf
      all_goals cases hf
  | answerDrain | drainJoin =>
      simp only [afterDrainRound] at hf
      split at hf <;> cases hf
  | stop =>
      simp only [shutdown, beginDrain] at hf
      split at hf <;> cases hf
  | answerFinal hpc =>
      obtain ⟨ht, hi⟩ := afterFinal_leaves (resumeRound_sameTasks d.settings.lease s.now s.books _ _)
        (moves_resumeRound s.now s.books _ _)
      exact ⟨ht.outstandingDelivered.not.mpr (hd _ hpc), hi⟩
  | @drainLeave deadline permanent hpc hc =>
      obtain ⟨ht, hi⟩ := leaveDrain_leaves (d := d) (s := s) permanent
      refine ⟨ht.outstandingDelivered.not.mpr (not_delivered_of_phases hs ?_), hi⟩
      rcases hc with hc | hc
      · exact .inr (by simp [Books.joinReady, hc])
      · have hc' : (decide (deadline ≤ s.now) || permanent.isSome) = true := by
          simpa only [Bool.or_eq_true, decide_eq_true_eq] using hc
        simp only [joinsInTime, hpc, hc', Bool.true_and, Bool.not_eq_true'] at hj
        exact .inl hj
  | drainDeadline hpc _ hr =>
      obtain ⟨ht, hi⟩ := leaveDrain_leaves (d := d) (s := s) none
      exact ⟨ht.outstandingDelivered.not.mpr (not_delivered_of_phases hs (.inr hr)), hi⟩

/-- The release is the last thing `run` awaits. -/
theorem no_round_after_release {round : Round} (h : Step d s e s')
    (hn : s.pc.inFinalRelease = true) : s'.pc ≠ .finalRound round := by
  cases hpc : s.pc <;> simp only [hpc, Pc.inFinalRelease, reduceCtorEq] at hn
  cases h with
  | tick | cancel | task =>
      intro h
      rw [show s.pc = _ from h] at hpc
      cases hpc
  | crash | answerRelease => intro h; cases h
  | apply hc => simp only [hpc, Pc.setCall]; intro h; cases h
  | enter h | fireCancel h | fireJoin h | fireLease h | fireStats h | retryWakes h | fireClaim h
  | answerRetry h | answerBody h | answerReleasing h | answerDrain h | answerFinal h | stop h
  | drainLeave h | drainStay h | drainJoin h | drainDeadline h => rw [h] at hpc; cases hpc

theorem next_of_nextInTime (h : nextInTime d s e = some s') :
    next d s e = some s' ∧ joinsInTime s e = true := by
  unfold nextInTime at h
  split at h
  · rename_i hj; exact ⟨h, hj⟩
  · cases h

theorem draining_of_step (h : nextInTime d s e = some s') {held : List TaskId}
    {spawned : List (TaskId × PendingRow)} (hp : s.pc.pastLoop = true)
    (hd : Draining d held spawned s) : Draining d held spawned s' := by
  obtain ⟨hnext, hj⟩ := next_of_nextInTime h
  have hstep := step_of_next hnext
  have hmoves := moves_pastLoop hstep hd.settled.pending hp
  refine ⟨settled_of_next hnext hd.settled, Moves.inv Books.LeftOf.move hmoves hd.left, ?_⟩
  intro round hpc
  cases hn : s.pc.inFinalRelease with
  | true => exact absurd hpc (no_round_after_release hstep hn)
  | false =>
      exact (leaves_of_step hstep hj hd.settled.sound hd.final (by rw [hpc]; rfl) hn).1

/-- Where results are joined in time and no row was held twice when the loop was left, drain's
final release names no row whose publish has succeeded. -/
theorem drain_keeps_delivered {issued : RunState E} {refs : List MessageRef}
    (hrel : FinalRelease (Machine.Next (nextInTime d)) d exit issued refs) (hone : exit.books.OneClaimPerRow) :
    ¬ HandsBackDelivered exit issued refs := by
  obtain ⟨now, es₁, es₂, s, e, permanent, call, hrun, hexit, hpath, hlast, hn, hpc, hop⟩ := hrel
  have hset := Run.settled hrun
  have hkept := Run.kept hrun (by rw [hexit]; rfl)
  -- the invariant holds where the loop was left, and from there on
  have hstart : Draining d exit.books.held exit.books.hist.spawned exit := by
    refine ⟨hset, ⟨fun t ht => ?_, fun e he => ?_, fun e he => ?_, rfl⟩, fun _ h => ?_⟩
    · have hmem := hkept.tasks.subset (List.mem_map.mpr ⟨t, ht, rfl⟩)
      exact List.mem_append_left _ (List.mem_append_left _ hmem)
    · exact List.mem_append_left _ (List.mem_append_right _ (List.mem_map.mpr ⟨e, he, rfl⟩))
    · exact List.mem_append_right _ (List.mem_map.mpr ⟨e, he, rfl⟩)
    · rw [hexit] at h; cases h
  have hs : s.pc.pastLoop = true ∧ Draining d exit.books.held exit.books.hist.spawned s :=
    hpath.inv (P := fun s => s.pc.pastLoop = true ∧ Draining d _ _ s)
      (fun hs he => ⟨pastLoop_of_step (step_of_next (next_of_nextInTime he).1) hs.1,
        draining_of_step he hs.1 hs.2⟩)
      ⟨by rw [hexit]; rfl, hstart⟩
  obtain ⟨hnext, hj⟩ := next_of_nextInTime hlast
  obtain ⟨hnot, hissues⟩ := leaves_of_step (step_of_next hnext) hj hs.2.settled.sound
    hs.2.final (by rw [hpc]; rfl) hn
  obtain ⟨b, hmoves, hsame, hop'⟩ := hissues permanent call hpc
  have hb := Moves.inv Books.Sound.move hmoves hs.2.settled.sound
  have hleft := Moves.inv Books.LeftOf.move hmoves hs.2.left
  rintro ⟨id, row, m, hid, hrow, hok, hm, hmid⟩
  rw [hsame.spawned] at hrow
  rw [hop] at hop'
  cases hop'
  have hrow' : (id, row) ∈ exit.books.hist.spawned := hleft.spawned ▸ hrow
  rcases List.mem_append.mp hm with hm | hm
  · -- a row still outstanding: its own publish has not succeeded
    obtain ⟨o, ho, rfl⟩ := List.mem_map.mp hm
    obtain ⟨t, ht, htid, htm⟩ := hb.outstanding_task o ho
    have : id = t.id := hone (id, row) hrow' (t.id, t.row)
      (hleft.spawned ▸ hb.inFlight_row t ht) hid (hleft.inFlight t ht)
      (by rw [htm]; exact hmid.symm)
    refine hnot ⟨o, by rw [hsame.outstanding]; exact ho, ?_⟩
    rw [← htid, ← this]
    exact hok
  · -- a failed row: its own publish returned something else
    obtain ⟨f, hf, rfl⟩ := List.mem_map.mp hm
    obtain ⟨row', r, unit, kind, error, hsp, hr, hpub, hitem⟩ := hb.fail f hf
    have : id = f.task := hone (id, row) hrow' (f.task, row') (hleft.spawned ▸ hsp) hid
      (hleft.fail f hf) (by rw [← hmid, hitem]; rfl)
    subst this
    rw [hsame.resolved] at hok
    cases hb.result_unique hr hok
    cases hpub

/-- The first of two rows is published and written; the second is still publishing when the drain
deadline passes. -/
def slowRow : List (Event FailureKind) × List (Event FailureKind) :=
  (lateResult.1,
   [.stop [], .drainCheck, .publishReturns 0 .ok, .drainJoin [(0, 0)], .apply (.affected 1),
    .answer .ok, .drainCheck, .tick DispatcherSettings.default.drainTimeout])

theorem drain_keeps_delivered_slow_row :
    ∃ exit issued refs, FinalRelease (E := FailureKind)
        (Machine.Next (nextInTime (sample .default))) (sample .default) exit issued refs ∧
      exit.books.OneClaimPerRow ∧ refs = [(sampleClaim 2).record.messageRef] ∧
      ¬ HandsBackDelivered exit issued refs := by
  let d := sample .default
  let exit := Machine.reach (next d) (RunState.start .default 0) slowRow.1
  let last := Machine.reach (nextInTime d) exit slowRow.2
  let issued := Machine.reach (nextInTime d) last [.drainDeadline]
  let refs := [(sampleClaim 2).record.messageRef]
  have hone : exit.books.OneClaimPerRow := by decide
  have hrelease : FinalRelease (Machine.Next (nextInTime d)) d exit issued refs := by
    refine ⟨0, slowRow.1, slowRow.2, last, .drainDeadline, none,
      .issue (.release refs) DispatcherSettings.default.drainTimeout,
      Machine.path_reach (by decide), by decide, Machine.path_reach (by decide), ?_, by decide,
      by decide, rfl⟩
    exact (by decide : nextInTime d last .drainDeadline = some issued)
  exact ⟨exit, issued, refs, hrelease, hone, rfl, drain_keeps_delivered hrelease hone⟩

end

end Reliar.Dispatcher
