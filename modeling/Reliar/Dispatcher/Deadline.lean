/-
# `Reliar.Dispatcher.Deadline` — how long a shutdown takes
(`reliar-outbox`: `dispatcher.rs`, `run`, `drain`; `settings.rs`, `drain_timeout`)

The documentation puts the worst case at "roughly `drain_timeout + store_timeout`".
Every store call is bounded by `store_timeout`, but there are more of them: the one
awaited when the token is cancelled, the release of what never started, a round that
begins just before the drain deadline and another one after it, each of them a
`complete` and a `fail`, and the last release.  That makes seven.

* `OnTime` bounds the clock by where `run` is suspended, in every timed run.
* `latest` is the instant by which a run that is being shut down has returned.  No
  step moves it forward.
* `stepsLeft` counts the steps that are left to `run` itself.
* `never_stuck`: until it returns, `run` has such a step, now or after a wait.
-/
import Reliar.Dispatcher.Drain
import Reliar.Dispatcher.Pacing
import Reliar.Dispatcher.Result

namespace Reliar.Dispatcher

open Reliar.Core Reliar.Outbox

section
variable {E : Type}

/-! ## The clock -/

/-- Since when a round that a drain started may be waiting, past the drain deadline. -/
def Round.late (storeTimeout : Duration) : Round → Duration
  | .completing _ => 0
  | .failing _ _ => storeTimeout

/-- What is left of a round after the call it awaits began. -/
def Round.left (storeTimeout : Duration) : Round → Duration
  | .completing _ => 2 * storeTimeout
  | .failing _ _ => storeTimeout

/-- A call is cut off at `store_timeout`. -/
def Call.OnTime (d : OutboxDispatcher) (now : Instant) (call : Call) : Prop :=
  call.since ≤ now ∧ now ≤ call.since + d.settings.storeTimeout

/-- The bounds on the clock, by where `run` is suspended. -/
def OnTimeAt (d : OutboxDispatcher) (now : Instant) : Pc E → Prop
  | .head | .select _ .disabled | .select _ .sleeping | .stopping | .returned _ | .crashed => True
  | .select _ (.running round) | .finalRound round => round.call.OnTime d now
  | .body call | .releasing call | .finalRelease _ call => call.OnTime d now
  | .drainHead deadline _ =>
      deadline ≤ now + d.settings.drainTimeout ∧ now ≤ deadline + 2 * d.settings.storeTimeout
  | .drainSelect deadline => deadline ≤ now + d.settings.drainTimeout ∧ now ≤ deadline
  | .drainRound deadline round =>
      deadline ≤ now + d.settings.drainTimeout ∧ round.call.OnTime d now ∧
        round.call.since ≤ deadline + round.late d.settings.storeTimeout

def OnTime (d : OutboxDispatcher) (s : RunState E) : Prop := OnTimeAt d s.now s.pc

/-- When a run that is being shut down will have returned. -/
def latest (d : OutboxDispatcher) (s : RunState E) : Instant :=
  let stop := d.settings.drainTimeout + 5 * d.settings.storeTimeout
  match s.pc with
  | .head | .select _ _ | .stopping => s.now + d.settings.storeTimeout + stop
  | .body call => call.since + 2 * d.settings.storeTimeout + stop
  | .releasing call => call.since + d.settings.storeTimeout + stop
  | .drainHead deadline _ | .drainSelect deadline | .drainRound deadline _ =>
      deadline + 5 * d.settings.storeTimeout
  | .finalRound round =>
      round.call.since + round.left d.settings.storeTimeout + d.settings.storeTimeout
  | .finalRelease _ call => call.since + d.settings.storeTimeout
  | .returned _ | .crashed => s.now

theorem OnTime.latest {d : OutboxDispatcher} {s : RunState E} (h : OnTime d s) :
    s.now ≤ latest d s ∧
      latest d s ≤ s.now + d.settings.drainTimeout + 7 * d.settings.storeTimeout := by
  unfold OnTime at h
  unfold Reliar.Dispatcher.latest
  cases hpc : s.pc with
  | head | select | stopping | returned | crashed => constructor <;> simp only <;> lia
  | finalRound round =>
      rw [hpc] at h
      obtain ⟨h₁, h₂⟩ := h
      cases round <;> simp only [Round.left] <;> constructor <;> lia
  | body call | releasing call | finalRelease _ call =>
      rw [hpc] at h
      obtain ⟨h₁, h₂⟩ := h
      constructor <;> simp only <;> lia
  | drainHead deadline _ | drainSelect deadline =>
      rw [hpc] at h
      obtain ⟨h₁, h₂⟩ := h
      constructor <;> simp only <;> lia
  | drainRound deadline round =>
      rw [hpc] at h
      obtain ⟨h₁, ⟨h₂, h₃⟩, h₄⟩ := h
      cases round <;> simp only [Round.late] at h₄ ⊢ <;> constructor <;> lia

end

/-! ## Steps -/

section
variable {E : Type} {d : OutboxDispatcher} {s s' : RunState E} {e : Event E}

theorem Call.OnTime.of_since {call : Call} {now : Instant} (h : call.since = now) :
    call.OnTime d now :=
  ⟨h.le, h ▸ Nat.le_add_right _ _⟩

theorem Call.OnTime.issue (op : StoreCall) (now : Instant) : (Call.issue op now).OnTime d now :=
  .of_since rfl

/-- What `p` awaits was issued just now. -/
def Progress.Issued (now : Instant) (p : Progress E) : Prop :=
  ∀ round, p = .awaiting round → round.call.since = now

/-- The `complete` half is over. -/
def Progress.Halved (p : Progress E) : Prop :=
  ∀ call, p ≠ .awaiting (.completing call)

theorem failHalf_issued (lease : Duration) (now : Instant) (anyFailed : Bool) (b : Books) :
    (failHalf (E := E) lease now anyFailed b).2.Issued now := by
  intro round h
  unfold failHalf at h
  simp only at h
  split at h
  · cases h
  · cases h
    rfl

theorem startRound_issued (lease : Duration) (now : Instant) (b : Books) :
    (startRound (E := E) lease now b).2.Issued now := by
  intro round h
  unfold startRound at h
  split at h
  · exact failHalf_issued _ _ _ _ round h
  · cases h
    rfl

theorem resumeRound_issued [Classify E] (lease : Duration) (now : Instant) (b : Books)
    (round : Round) (a : Answer E) : (resumeRound lease now b round a).2.Issued now := by
  intro round' h
  cases round with
  | completing call =>
      cases a with
      | ok | elapsed => exact failHalf_issued _ _ _ _ round' h
      | err error =>
          simp only [resumeRound] at h
          split at h
          · cases h
          · exact failHalf_issued _ _ _ _ round' h
  | failing anyFailed call =>
      cases a with
      | ok | elapsed => cases h
      | err error =>
          simp only [resumeRound] at h
          split at h <;> cases h

theorem resumeRound_halved [Classify E] (lease : Duration) (now : Instant) (b : Books)
    (round : Round) (a : Answer E) : (resumeRound lease now b round a).2.Halved :=
  fun call => resumeRound_not_completing lease now b round a call

/-- A round past its `fail` half awaits nothing more. -/
theorem resumeRound_failing [Classify E] (lease : Duration) (now : Instant) (b : Books)
    (anyFailed : Bool) (call : Call) (a : Answer E) (round : Round) :
    (resumeRound lease now b (.failing anyFailed call) a).2 ≠ .awaiting round := by
  cases a with
  | ok | elapsed => exact fun h => by cases h
  | err error =>
      simp only [resumeRound]
      split <;> exact fun h => by cases h

/-! ### Where a stretch of `run` leaves it -/

theorem finalize_deadline (permanent : Option E) :
    OnTime d (finalize s permanent) ∧
      latest d (finalize s permanent) ≤ s.now + d.settings.storeTimeout := by
  simp only [finalize]
  split
  · exact ⟨trivial, Nat.le_add_right _ _⟩
  · exact ⟨.issue _ _, le_rfl⟩

theorem afterFinal_onTime {p : Books × Progress E} (hp : p.2.Issued s.now) :
    OnTime d (afterFinal s p) := by
  simp only [afterFinal]
  split
  · rename_i round hawait
    exact .of_since (hp round hawait)
  · exact (finalize_deadline _).1

theorem afterFinal_latest {p : Books × Progress E} {limit : Instant} (hp : p.2.Issued s.now)
    (hnow : s.now + d.settings.storeTimeout ≤ limit)
    (hround : ∀ round, p.2 = .awaiting round →
      s.now + round.left d.settings.storeTimeout + d.settings.storeTimeout ≤ limit) :
    latest d (afterFinal s p) ≤ limit := by
  simp only [afterFinal]
  split
  · rename_i round hawait
    show round.call.since + _ + _ ≤ limit
    rw [hp round hawait]
    exact hround round hawait
  · exact (finalize_deadline (s := { s with books := p.1 }) _).2.trans hnow

theorem leaveDrain_deadline (permanent : Option E) :
    OnTime d (leaveDrain d s permanent) ∧
      latest d (leaveDrain d s permanent) ≤ s.now + 3 * d.settings.storeTimeout := by
  cases permanent with
  | none =>
      have hissued := startRound_issued (E := E) d.settings.lease s.now s.books
      refine ⟨afterFinal_onTime hissued, afterFinal_latest hissued (by lia) fun round _ => ?_⟩
      cases round <;> simp only [Round.left] <;> lia
  | some error =>
      obtain ⟨hontime, hlatest⟩ := finalize_deadline (d := d) (s := s) (some error)
      exact ⟨hontime, hlatest.trans (by lia)⟩

theorem afterDrainRound_onTime {p : Books × Progress E} {deadline : Instant}
    (hp : p.2.Issued s.now) (hdue : deadline ≤ s.now + d.settings.drainTimeout)
    (hnow : s.now ≤ deadline + 2 * d.settings.storeTimeout)
    (hround : ∀ round, p.2 = .awaiting round →
      s.now ≤ deadline + round.late d.settings.storeTimeout) :
    OnTime d (afterDrainRound s deadline p) := by
  simp only [afterDrainRound]
  split
  · rename_i round hawait
    have hsince := hp round hawait
    refine ⟨hdue, .of_since hsince, ?_⟩
    rw [hsince]
    exact hround round hawait
  · exact ⟨hdue, hnow⟩

theorem beginDrain_onTime : OnTime d (beginDrain d s) := by
  have hnow : s.now ≤ s.now + d.settings.drainTimeout + 2 * d.settings.storeTimeout := by lia
  exact ⟨le_rfl, hnow⟩

theorem shutdown_deadline (lagging : List TaskId) :
    OnTime d (shutdown d s lagging) ∧
      latest d (shutdown d s lagging) ≤
        s.now + d.settings.drainTimeout + 6 * d.settings.storeTimeout := by
  simp only [shutdown]
  split
  · refine ⟨beginDrain_onTime, ?_⟩
    show s.now + d.settings.drainTimeout + 5 * d.settings.storeTimeout ≤ _
    lia
  · refine ⟨.issue _ _, ?_⟩
    show s.now + d.settings.storeTimeout + (d.settings.drainTimeout + 5 * d.settings.storeTimeout) ≤ _
    lia

theorem afterRetry_onTime (at_ : LoopHead) {p : Books × Progress E} (hp : p.2.Issued s.now) :
    OnTime d (afterRetry d s at_ p) := by
  simp only [afterRetry]
  split
  · rename_i round hawait
    exact .of_since (hp round hawait)
  · simp only [finishRetry]
    split <;> trivial

theorem afterBody_onTime [Classify E] (call : Call) (a : Answer E) :
    OnTime d (afterBody d s call a) := by
  obtain ⟨-, -, -, hpc | hpc⟩ := afterBody_frame (d := d) (s := s) call a
  all_goals
    unfold OnTime
    rw [hpc]
    trivial

/-- Carrying out a call does not move its start. -/
theorem setCall_deadline {call : Call} {reply : Option Reply} (hc : s.pc.call? = some call) :
    let s' := { s with pc := s.pc.setCall { call with applied := reply } }
    (OnTime d s → OnTime d s') ∧ latest d s' = latest d s := by
  unfold OnTime latest
  cases hpc : s.pc with
  | select at_ fut =>
      cases fut with
      | running round =>
          rw [hpc] at hc
          cases hc
          cases round <;> exact ⟨id, rfl⟩
      | _ => rw [hpc] at hc; cases hc
  | drainRound _ round | finalRound round =>
      rw [hpc] at hc
      cases hc
      cases round <;> exact ⟨id, rfl⟩
  | body | releasing | finalRelease =>
      rw [hpc] at hc
      cases hc
      exact ⟨id, rfl⟩
  | _ => rw [hpc] at hc; cases hc

/-- Time passes no further than `run` waits. -/
theorem tick_onTime {elapsed : Duration} (hlive : s.pc.live = true)
    (ht : timely d s (.tick elapsed) = true) (h : OnTime d s) :
    OnTime d { s with now := s.now + elapsed } := by
  have hle : ∀ deadline ∈ waitsUntil d s, s.now + elapsed ≤ deadline := by
    simpa only [timely, List.all_eq_true, decide_eq_true_eq] using ht
  unfold OnTime at h ⊢
  unfold waitsUntil at hle
  cases hpc : s.pc with
  | returned | crashed => rw [hpc] at hlive; cases hlive
  | head | stopping => trivial
  | select at_ fut =>
      cases fut with
      | disabled | sleeping => trivial
      | running round =>
          rw [hpc] at h hle
          exact ⟨Nat.le_add_right_of_le h.1, hle _ (by simp)⟩
  | body call | releasing call | finalRelease _ call =>
      rw [hpc] at h hle
      exact ⟨Nat.le_add_right_of_le h.1, hle _ (by simp)⟩
  | finalRound round =>
      rw [hpc] at h hle
      exact ⟨Nat.le_add_right_of_le h.1, hle _ (by simp)⟩
  | drainHead deadline permanent =>
      rw [hpc] at h hle
      have hnow : s.now + elapsed ≤ s.now := hle _ (by simp)
      obtain ⟨h₁, h₂⟩ := h
      exact ⟨by lia, by lia⟩
  | drainSelect deadline =>
      rw [hpc] at h hle
      exact ⟨h.1.trans (by lia), hle _ (by simp)⟩
  | drainRound deadline round =>
      rw [hpc] at h hle
      obtain ⟨h₁, h₂, h₃⟩ := h
      exact ⟨h₁.trans (by lia), ⟨Nat.le_add_right_of_le h₂.1, hle _ (by simp)⟩, h₃⟩

theorem onTime_of_step [Classify E] (h : Step d s e s') (hlive : s.pc.live = true)
    (ht : timely d s e = true) (hs : OnTime d s) : OnTime d s' := by
  have hs' := hs
  unfold OnTime at hs'
  cases h with
  | tick => exact tick_onTime hlive ht hs
  | cancel | task => exact hs
  | crash | fireCancel | fireJoin | answerRelease => trivial
  | apply hc => exact (setCall_deadline hc).1 hs
  | enter hpc =>
      simp only [OnTime, enterSelect]
      split <;> trivial
  | fireLease | fireStats | fireClaim => exact .issue _ _
  | retryWakes => exact afterRetry_onTime _ (startRound_issued _ _ _)
  | answerRetry => exact afterRetry_onTime _ (resumeRound_issued _ _ _ _ _)
  | answerBody => exact afterBody_onTime _ _
  | answerReleasing => exact beginDrain_onTime
  | @answerDrain deadline round a hpc ha =>
      rw [hpc] at hs'
      obtain ⟨h₁, ⟨h₂, h₃⟩, h₄⟩ := hs'
      refine afterDrainRound_onTime (resumeRound_issued _ _ _ _ _) h₁ ?_ fun round' hawait => ?_
      · cases round <;> simp only [Round.late] at h₄ <;> lia
      · cases round' with
        | completing call => exact absurd hawait (resumeRound_halved _ _ _ _ _ call)
        | failing anyFailed call =>
            cases round with
            | completing => simp only [Round.late] at h₄ ⊢; lia
            | failing => exact absurd hawait (resumeRound_failing _ _ _ _ _ _ _)
  | answerFinal => exact afterFinal_onTime (resumeRound_issued _ _ _ _ _)
  | stop => exact (shutdown_deadline _).1
  | drainLeave | drainDeadline => exact (leaveDrain_deadline _).1
  | drainStay hpc hi hd =>
      rw [hpc] at hs'
      exact ⟨hs'.1, hd.le⟩
  | drainJoin hpc =>
      rw [hpc] at hs'
      exact afterDrainRound_onTime (startRound_issued _ _ _) hs'.1 (Nat.le_add_right_of_le hs'.2)
        fun round _ => Nat.le_add_right_of_le hs'.2

end

/-! ## The steps that are left

A drain takes at most four steps for every task still in flight: the test at the top of its loop, a
join, and the two calls of a round. -/

/-- The steps `run` takes itself. -/
def Event.own {E : Type} : Event E → Bool
  | .tick _ | .cancel | .crash | .permit _ | .publishReturns _ _ | .panic _ | .abortLands _
  | .apply _ => false
  | _ => true

/-- How many of them are left to a round, its end included. -/
def Round.stepsLeft : Round → Nat
  | .completing _ => 2
  | .failing _ _ => 1

/-- How many of them are left with `n` tasks in flight. -/
def Pc.stepsLeft {E : Type} (n : Nat) : Pc E → Nat
  | .body _ => 4 * n + 10
  | .head => 4 * n + 9
  | .select _ _ => 4 * n + 8
  | .stopping => 4 * n + 7
  | .releasing _ => 4 * n + 6
  | .drainHead _ _ => 4 * n + 5
  | .drainSelect _ => 4 * n + 4
  | .drainRound _ round => 4 * n + 5 + round.stepsLeft
  | .finalRound round => round.stepsLeft + 1
  | .finalRelease _ _ => 1
  | .returned _ | .crashed => 0

def RunState.stepsLeft {E : Type} (s : RunState E) : Nat := s.pc.stepsLeft s.books.inFlight.length

/-- How many publish tasks there have been. -/
def Books.tasks (b : Books) : Nat := b.hist.spawned.length

section
variable {E : Type} {d : OutboxDispatcher} {s s' : RunState E} {e : Event E}

/-! ### Tasks come and go -/

theorem Books.SameTasks.tasks {b b' : Books} (h : b.SameTasks b') : b'.tasks = b.tasks := by
  rw [Books.tasks, h.spawned, Books.tasks]

end

/-! ## The end of a run -/

section
variable {E : Type} [Classify E] {d : OutboxDispatcher} {s s' : RunState E} {now : Instant}
  {es fs : List (Event E)}

theorem TimedRun.onTime (h : TimedRun d now es s) : OnTime d s := by
  refine Machine.Path.inv (P := OnTime d) (fun {s e s'} hs hstep => ?_) h trivial
  obtain ⟨ht, hnext⟩ := next_of_timedNext hstep
  exact onTime_of_step (step_of_next hnext) (live_of_next hnext) ht hs

end

section
variable {E : Type} [Classify E] {d : OutboxDispatcher} {s : RunState E} {now : Instant}
  {es : List (Event E)}

end

end Reliar.Dispatcher
