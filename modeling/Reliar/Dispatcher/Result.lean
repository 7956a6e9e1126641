/-
# `Reliar.Dispatcher.Result` — what `run` returns (`reliar-outbox`: `dispatcher.rs`)

A permanent error can reach `run` on three ways: from `acquire`, from a round of
outcome writes in the loop, and from a round of the drain, which goes on after
the other two.  `RunState.verdict` is what the locals on these ways say so far.
It starts empty and each step adds what a decisive answer says, unless something
is there already (`verdict_of_step`), so in the end it is the first one.
-/
import Reliar.Dispatcher.Backpressure

namespace Reliar.Dispatcher

open Reliar.Core Reliar.Outbox

/-! ## Decisive answers -/

/-- The calls whose permanent errors end `run`. -/
def StoreCall.decides : StoreCall → Bool
  | .acquire _ | .complete _ | .fail _ => true
  | .release _ | .extendLease _ _ | .stats => false

section
variable {E : Type}

/-- A permanent error that such a call returns. -/
def decisive [Classify E] (s : RunState E) : Event E → Option E
  | .answer (.err e) =>
      s.pc.call?.bind fun call =>
        if call.op.decides ∧ Classify.kind e = .permanent then some e else none
  | _ => none

/-- The permanent errors of a run, in the order in which they are returned. -/
def permanents [Classify E] (d : OutboxDispatcher) (s : RunState E) (es : List (Event E)) : List E :=
  Machine.observed (next d) decisive s es

/-- What `run` has to report, by its locals. -/
def RunState.verdict (s : RunState E) : Option E :=
  match s.pc with
  | .drainHead _ permanent | .finalRelease permanent _ => s.exitReason.or permanent
  | .returned result => result
  | _ => s.exitReason

/-- The loop is left for a permanent error or because of the token, and outside of a round it
awaits no outcome write. -/
structure RunState.Exits (s : RunState E) : Prop where
  looping : s.pc.pastLoop = false → s.exitReason = none
  left : s.pc.pastLoop = true → s.pc ≠ .crashed → s.verdict = none → s.cancelled = true
  body : ∀ call, s.pc = .body call → (∃ request, call.op = .acquire request) ∨
    call.op.decides = false

/-! ## The answers that count -/

variable {d : OutboxDispatcher} {s s' : RunState E} {e : Event E}

/-- An answer to an outcome write. -/
theorem decisive_round [Classify E] {round : Round} {a : Answer E} (hcall : s.pc.call? = some round.call)
    (hcarries : round.Carries s.books) : decisive s (.answer a) = a.permanent := by
  have hdecides : round.call.op.decides = true := by
    cases round with
    | completing call => rw [Round.call, show call.op = _ from hcarries]; rfl
    | failing anyFailed call => rw [Round.call, show call.op = _ from hcarries]; rfl
  cases a with
  | ok | elapsed => rfl
  | err err => simp only [decisive, hcall, Option.bind_some, hdecides, true_and, Answer.permanent]

/-- An answer to a call that does not decide. -/
theorem decisive_other [Classify E] {call : Call} {a : Answer E} (hcall : s.pc.call? = some call)
    (hop : call.op.decides = false) : decisive s (.answer a) = none := by
  cases a with
  | ok | elapsed => rfl
  | err err =>
      simp only [decisive, hcall, Option.bind_some, hop, Bool.false_eq_true, false_and, if_false]

/-- Only answers decide. -/
theorem decisive_task [Classify E] {id : TaskId} (h : e.task? = some id) : decisive s e = none := by
  cases e <;> first | rfl | cases h

theorem verdict_afterRetry {at_ : LoopHead} {p : Books × Progress E}
    (hs : s.exitReason = none) : (afterRetry d s at_ p).verdict = p.2.permanent := by
  unfold afterRetry
  dsimp only
  split
  · rename_i round hround
    rw [hround]
    exact hs
  · rename_i anyFailed permanent hdone
    rw [hdone]
    cases permanent with
    | none => exact hs
    | some err => rfl

theorem verdict_finalize (permanent : Option E) :
    (finalize s permanent).verdict = s.exitReason.or permanent := by
  unfold finalize
  dsimp only
  split <;> rfl

theorem verdict_afterFinal {p : Books × Progress E} :
    (afterFinal s p).verdict = s.exitReason.or p.2.permanent := by
  unfold afterFinal
  dsimp only
  split
  · rename_i round hround
    rw [hround]
    exact (Option.or_none ..).symm
  · rename_i anyFailed permanent hdone
    rw [hdone]
    exact verdict_finalize permanent

theorem verdict_leaveDrain (permanent : Option E) :
    (leaveDrain d s permanent).verdict = s.exitReason.or permanent := by
  cases permanent with
  | none =>
      refine verdict_afterFinal.trans ?_
      rw [startRound_permanent]
  | some err => exact verdict_finalize _

theorem verdict_afterDrainRound {deadline : Instant} {p : Books × Progress E} :
    (afterDrainRound s deadline p).verdict = s.exitReason.or p.2.permanent := by
  unfold afterDrainRound
  dsimp only
  split
  · rename_i round hround
    rw [hround]
    exact (Option.or_none ..).symm
  · rename_i anyFailed permanent hdone
    rw [hdone]
    rfl

theorem verdict_shutdown {lagging : List TaskId} :
    (shutdown d s lagging).verdict = s.exitReason := by
  unfold shutdown
  dsimp only
  split
  · exact Option.or_none ..
  · rfl

theorem verdict_setCall (call : Call) :
    RunState.verdict { s with pc := s.pc.setCall call } = s.verdict := by
  unfold RunState.verdict
  dsimp only
  cases s.pc with
  | select at_ fut => cases fut <;> rfl
  | head | body | stopping | releasing | drainHead | drainSelect | drainRound | finalRound
  | finalRelease | returned | crashed => rfl

theorem decides_release {call : Call} (h : ∃ refs, call.op = .release refs) :
    call.op.decides = false := by
  obtain ⟨refs, hop⟩ := h
  rw [hop]
  rfl

/-- The handler of a branch of the loop ends it exactly when its answer is decisive. -/
theorem verdict_afterBody [Classify E] {call : Call} {a : Answer E} (hpc : s.pc = .body call)
    (hs : s.Exits) : (afterBody d s call a).verdict = decisive s (.answer a) := by
  have hexit : s.exitReason = none := hs.looping (by rw [hpc]; rfl)
  have hcall : s.pc.call? = some call := by rw [hpc]; rfl
  cases a with
  | ok =>
      show (afterBody d s call .ok).verdict = none
      unfold afterBody
      split
      case h_1 =>
        split <;> exact hexit
      case h_2 => cases ‹Answer.ok = _›
      case h_3 | h_4 => exact hexit
  | elapsed =>
      show (afterBody d s call .elapsed).verdict = none
      unfold afterBody
      split
      case h_1 => cases ‹Answer.elapsed = _›
      case h_2 => cases ‹Answer.elapsed = _›
      case h_3 | h_4 => exact hexit
  | err err =>
      rcases hs.body call hpc with ⟨request, hop⟩ | hop
      · have hdecisive : decisive s (.answer (.err err)) =
            if Classify.kind err = .permanent then some err else none := by
          simp [decisive, hcall, hop, StoreCall.decides]
        rw [hdecisive]
        simp only [afterBody, hop]
        split
        · rfl
        · exact hexit
      · have hhead : (afterBody d s call (.err err)).verdict = s.exitReason := by
          cases hcop : call.op <;> simp only [hcop, StoreCall.decides, reduceCtorEq] at hop <;>
            simp only [afterBody, hcop, RunState.verdict]
        rw [decisive_other hcall hop, hhead, hexit]

/-- A step adds what a decisive answer says, unless there is something already. -/
theorem verdict_of_step [Classify E] (h : Step d s e s') (hs : s.Exits) (hcar : s.Carries)
    (hrel : s.Releases) (hlive : s'.pc ≠ .crashed) :
    s'.verdict = s.verdict.or (decisive s e) := by
  cases h with
  | tick | cancel => exact (Option.or_none ..).symm
  | crash => exact absurd rfl hlive
  | task hid =>
      rw [decisive_task hid, Option.or_none]
      rfl
  | apply hc => exact (verdict_setCall _).trans (Option.or_none ..).symm
  | enter hpc => simp only [RunState.verdict, enterSelect, hpc, decisive, Option.or_none]
  | fireCancel hpc | fireJoin hpc | fireLease hpc | fireStats hpc | fireClaim hpc =>
      simp only [RunState.verdict, hpc, decisive, Option.or_none]
  | retryWakes hpc =>
      have hexit : s.exitReason = none := hs.looping (by rw [hpc]; rfl)
      rw [verdict_afterRetry hexit, startRound_permanent]
      simp only [RunState.verdict, hpc, hexit, decisive, Option.or_none]
  | answerRetry hpc =>
      have hexit : s.exitReason = none := hs.looping (by rw [hpc]; rfl)
      rw [verdict_afterRetry hexit, resumeRound_permanent,
        decisive_round (by rw [hpc]; rfl) (hcar _ (by rw [hpc]; rfl))]
      simp only [RunState.verdict, hpc, hexit, Option.none_or]
  | answerBody hpc =>
      rw [verdict_afterBody hpc hs]
      simp only [RunState.verdict, hpc, hs.looping (by rw [hpc]; rfl), Option.none_or]
  | answerReleasing hpc =>
      rw [decisive_other (by rw [hpc]; rfl) (decides_release (hrel _ (.inl hpc)))]
      simp only [RunState.verdict, beginDrain, hpc, Option.or_none]
  | answerDrain hpc =>
      rw [verdict_afterDrainRound, resumeRound_permanent,
        decisive_round (by rw [hpc]; rfl) (hcar _ (by rw [hpc]; rfl))]
      simp only [RunState.verdict, hpc]
  | answerFinal hpc =>
      rw [verdict_afterFinal, resumeRound_permanent,
        decisive_round (by rw [hpc]; rfl) (hcar _ (by rw [hpc]; rfl))]
      simp only [RunState.verdict, hpc]
  | answerRelease hpc =>
      rw [decisive_other (by rw [hpc]; rfl) (decides_release (hrel _ (.inr ⟨_, hpc⟩)))]
      simp only [RunState.verdict, returnWith, hpc, Option.or_none]
  | stop hpc =>
      rw [verdict_shutdown]
      simp only [RunState.verdict, hpc, decisive, Option.or_none]
  | drainLeave hpc =>
      rw [verdict_leaveDrain]
      simp only [RunState.verdict, hpc, decisive, Option.or_none]
  | drainStay hpc => simp only [RunState.verdict, hpc, decisive, Option.or_none]
  | drainJoin hpc =>
      rw [verdict_afterDrainRound, startRound_permanent]
      simp only [RunState.verdict, hpc, decisive, Option.or_none]
  | drainDeadline hpc =>
      rw [verdict_leaveDrain]
      simp only [RunState.verdict, hpc, decisive, Option.or_none]

/-! ## How the loop is left -/

/-- The branch's handler goes on with the loop, or leaves it with an error. -/
def Continues (s s' : RunState E) : Prop :=
  s'.cancelled = s.cancelled ∧
    (s'.pc.pastLoop = false ∧ s'.exitReason = s.exitReason ∨
      s'.pc.pastLoop = true ∧ s'.verdict ≠ none)

theorem afterRetry_continues {at_ : LoopHead} {p : Books × Progress E} :
    Continues s (afterRetry d s at_ p) := by
  unfold afterRetry
  dsimp only
  split
  · exact ⟨rfl, .inl ⟨rfl, rfl⟩⟩
  · unfold finishRetry
    dsimp only
    split
    · exact ⟨rfl, .inr ⟨rfl, Option.some_ne_none _⟩⟩
    · exact ⟨rfl, .inl ⟨rfl, rfl⟩⟩

theorem afterBody_continues [Classify E] (call : Call) (a : Answer E) :
    Continues s (afterBody d s call a) := by
  unfold afterBody
  split
  case h_1 => split <;> exact ⟨rfl, .inl ⟨rfl, rfl⟩⟩
  case h_2 =>
    split
    · exact ⟨rfl, .inr ⟨rfl, Option.some_ne_none _⟩⟩
    · exact ⟨rfl, .inl ⟨rfl, rfl⟩⟩
  case h_3 | h_4 => exact ⟨rfl, .inl ⟨rfl, rfl⟩⟩

theorem finalize_cancelled (permanent : Option E) :
    (finalize s permanent).cancelled = s.cancelled := by
  simp only [finalize]; split <;> rfl

theorem afterFinal_cancelled (p : Books × Progress E) :
    (afterFinal s p).cancelled = s.cancelled := by
  simp only [afterFinal]
  split
  · rfl
  · exact finalize_cancelled _

theorem leaveDrain_cancelled (permanent : Option E) :
    (leaveDrain d s permanent).cancelled = s.cancelled := by
  cases permanent with
  | none => exact afterFinal_cancelled _
  | some err => exact finalize_cancelled _

theorem afterDrainRound_cancelled (deadline : Instant) (p : Books × Progress E) :
    (afterDrainRound s deadline p).cancelled = s.cancelled := by
  simp only [afterDrainRound]; split <;> rfl

theorem shutdown_cancelled (lagging : List TaskId) :
    (shutdown d s lagging).cancelled = s.cancelled := by
  simp only [shutdown]; split <;> rfl

/-- Only the host cancels, and for good. -/
theorem cancelled_of_step [Classify E] (h : Step d s e s') :
    s'.cancelled = true ↔ s.cancelled = true ∨ e = .cancel := by
  have hkeep : ∀ {b : Bool}, b = s.cancelled → e ≠ .cancel →
      (b = true ↔ s.cancelled = true ∨ e = .cancel) := by
    rintro b rfl hne
    simp [hne]
  cases h with
  | cancel => exact ⟨fun _ => .inr rfl, fun _ => rfl⟩
  | task hid =>
      refine hkeep rfl ?_
      rintro rfl
      cases hid
  | tick | crash | apply | enter | fireCancel | fireJoin | fireLease | fireStats | fireClaim
  | answerReleasing | answerRelease | drainStay => exact hkeep rfl nofun
  | retryWakes | answerRetry => exact hkeep afterRetry_continues.1 nofun
  | answerBody => exact hkeep (afterBody_continues _ _).1 nofun
  | answerDrain | drainJoin => exact hkeep (afterDrainRound_cancelled _ _) nofun
  | answerFinal => exact hkeep (afterFinal_cancelled _) nofun
  | stop => exact hkeep (shutdown_cancelled _) nofun
  | drainLeave | drainDeadline => exact hkeep (leaveDrain_cancelled _) nofun

/-- Within the loop no reason to leave it is set. -/
theorem exitReason_of_step [Classify E] (h : Step d s e s') (hin : s'.pc.pastLoop = false) :
    s'.exitReason = s.exitReason := by
  have hstay : ∀ {s'}, Continues s s' → s'.pc.pastLoop = false → s'.exitReason = s.exitReason := by
    rintro s' ⟨-, ⟨-, hsame⟩ | ⟨hpast, -⟩⟩ hin
    · exact hsame
    · rw [hpast] at hin
      cases hin
  have hbefore : s.pc.pastLoop = true → s'.exitReason = s.exitReason := by
    intro hpast
    rw [pastLoop_of_step h hpast] at hin
    cases hin
  cases h with
  | tick | cancel | crash | task | apply | enter | fireCancel | fireJoin | fireLease | fireStats
  | fireClaim | answerReleasing | answerRelease | drainStay => rfl
  | retryWakes | answerRetry => exact hstay afterRetry_continues hin
  | answerBody => exact hstay (afterBody_continues _ _) hin
  | answerDrain hpc | drainJoin hpc | answerFinal hpc | stop hpc | drainLeave hpc
  | drainDeadline hpc => exact hbefore (by rw [hpc]; rfl)

/-- The loop is left because of the token, or with an error. -/
theorem left_of_step [Classify E] (h : Step d s e s') (hin : s.pc.pastLoop = false)
    (hout : s'.pc.pastLoop = true) (hlive : s'.pc ≠ .crashed) (hverdict : s'.verdict = none) :
    s'.cancelled = true := by
  have hstay : ∀ {s'}, Continues s s' → s'.pc.pastLoop = true → s'.verdict = none →
      s'.cancelled = true := by
    rintro s' ⟨-, ⟨hloop, -⟩ | ⟨-, herror⟩⟩ hout hverdict
    · rw [hloop] at hout
      cases hout
    · exact absurd hverdict herror
  have hpast : s.pc.pastLoop = true → s'.cancelled = true := by
    intro hpast
    rw [hpast] at hin
    cases hin
  cases h with
  | tick | cancel | task => exact absurd (hin.symm.trans hout) Bool.false_ne_true
  | crash => exact absurd rfl hlive
  | apply hc =>
      cases hpc : s.pc <;> simp only [hpc, Pc.setCall, Pc.pastLoop, reduceCtorEq] at hin hout
      case select at_ fut => cases fut <;> cases hout
  | enter => cases hout
  | fireCancel _ hc => exact hc
  | fireJoin | fireLease | fireStats | fireClaim => cases hout
  | retryWakes | answerRetry => exact hstay afterRetry_continues hout hverdict
  | answerBody => exact hstay (afterBody_continues _ _) hout hverdict
  | answerReleasing hpc | answerRelease hpc | answerDrain hpc | answerFinal hpc | stop hpc
  | drainLeave hpc | drainStay hpc | drainJoin hpc | drainDeadline hpc =>
      exact hpast (by rw [hpc]; rfl)

theorem afterRetry_body {at_ : LoopHead} {p : Books × Progress E} (call : Call) :
    (afterRetry d s at_ p).pc ≠ .body call := by
  unfold afterRetry
  dsimp only
  split
  · nofun
  · unfold finishRetry
    dsimp only
    split <;> nofun

theorem afterBody_body [Classify E] (call : Call) (a : Answer E) (call' : Call) :
    (afterBody d s call a).pc ≠ .body call' := by
  unfold afterBody
  split <;> try split
  all_goals nofun

/-- What a handler awaits it awaited before, or its branch has just asked for. -/
theorem body_of_step [Classify E] (h : Step d s e s') {call : Call} (hpc' : s'.pc = .body call) :
    (∃ before, s.pc = .body before ∧ call.op = before.op ∧ call.since = before.since) ∨
      call.op.decides = false ∨
        ∃ at_ fut, s.pc = .select at_ fut ∧ s.cancelled = false ∧
          call.op = .acquire (claimRequest d at_) := by
  have hout : s'.pc.inLoop = false → False := by
    intro hout
    rw [hpc'] at hout
    cases hout
  cases h with
  | tick | cancel | task => exact .inl ⟨call, hpc', rfl, rfl⟩
  | crash | enter | fireCancel | fireJoin | answerReleasing | answerRelease | drainStay => cases hpc'
  | apply hc =>
      obtain ⟨hpc, rfl⟩ := setCall_body hc hpc'
      exact .inl ⟨_, hpc, rfl, rfl⟩
  | fireLease | fireStats =>
      cases hpc'
      exact .inr (.inl rfl)
  | fireClaim hpc hb =>
      cases hpc'
      refine .inr (.inr ⟨_, _, hpc, ?_, rfl⟩)
      simp only [RunState.clearAboveClaim, RunState.clearAboveRetry, RunState.clearAboveStats,
        RunState.clearAboveLease, Bool.and_eq_true, Bool.not_eq_true'] at hb
      exact hb.1.1.1.1
  | retryWakes | answerRetry => exact absurd hpc' (afterRetry_body call)
  | answerBody => exact absurd hpc' (afterBody_body _ _ call)
  | answerDrain | drainJoin => exact absurd (afterDrainRound_inLoop _ _) hout
  | answerFinal => exact absurd (afterFinal_inLoop _) hout
  | stop => exact absurd (shutdown_inLoop _) hout
  | drainLeave | drainDeadline => exact absurd (leaveDrain_inLoop _) hout

theorem RunState.Exits.step [Classify E] (h : next d s e = some s') (hs : s.Exits)
    (hcar : s.Carries) (hrel : s.Releases) : s'.Exits := by
  have hstep := step_of_next h
  constructor
  · intro hin
    have hbefore : s.pc.pastLoop = false := by
      by_contra hpast
      rw [pastLoop_of_step hstep (Bool.not_eq_false _ ▸ hpast)] at hin
      cases hin
    rw [exitReason_of_step hstep hin, hs.looping hbefore]
  · intro hout hlive hverdict
    cases hin : s.pc.pastLoop with
    | false => exact left_of_step hstep hin hout hlive hverdict
    | true =>
        have hlive' : s.pc ≠ .crashed := by
          intro hcrash
          have hlive := live_of_next h
          rw [hcrash] at hlive
          cases hlive
        rw [verdict_of_step hstep hs hcar hrel hlive, Option.or_eq_none_iff] at hverdict
        exact (cancelled_of_step hstep).mpr (.inl (hs.left hin hlive' hverdict.1))
  · intro call hpc'
    rcases body_of_step hstep hpc' with ⟨before, hpc, hop, -⟩ | hother | ⟨_, _, -, -, hop⟩
    · rw [hop]
      exact hs.body before hpc
    · exact .inr hother
    · exact .inl ⟨_, hop⟩

/-! ## Runs -/

variable {now : Instant} {es : List (Event E)}

theorem Run.exits [Classify E] (h : Run d now es s) : s.Exits := by
  induction h with
  | nil => exact ⟨fun _ => rfl, nofun, nofun⟩
  | snoc hes he ih => exact ih.step he (Run.carries hes) (Run.releases hes)

theorem Run.cancelled_iff [Classify E] (h : Run d now es s) :
    s.cancelled = true ↔ .cancel ∈ es := by
  induction h with
  | nil => simp [RunState.start]
  | snoc hes he ih =>
      rw [cancelled_of_step (step_of_next he), ih, List.mem_append, List.mem_singleton, eq_comm]

/-- The locals say which permanent error was the first. -/
theorem Run.verdict_eq [Classify E] (h : Run d now es s) (hlive : s.pc ≠ .crashed) :
    s.verdict = (permanents d (RunState.start d.settings now) es).head? := by
  induction h with
  | nil => rfl
  | @snoc s s' es e hes he ih =>
      have hbefore : s.pc ≠ .crashed := by
        intro hcrash
        have hlive := live_of_next he
        rw [hcrash] at hlive
        cases hlive
      rw [verdict_of_step (step_of_next he) (Run.exits hes) (Run.carries hes) (Run.releases hes)
        hlive, ih hbefore, permanents, permanents, Machine.observed_snoc decisive e hes,
        List.head?_append, Option.head?_toList]

/-- For every run and every answer of the store: `run` returns the first permanent error that an
`acquire`, a `complete` or a `fail` returned, and without one only when cancelled; and from then on,
or once the token is cancelled, it calls `acquire` no more. -/
theorem run_reports_first_permanent [Classify E] (h : Run d now es s) :
    (∀ result, s.pc = .returned result →
      result = (permanents d (RunState.start d.settings now) es).head? ∧
        (result = none → .cancel ∈ es)) ∧
    (.cancel ∈ es ∨ permanents d (RunState.start d.settings now) es ≠ [] →
      ∀ e s', next d s e = some s' → ∀ call request, s'.pc.call? = some call →
        call.op = .acquire request → ∃ before, s.pc = .body before ∧
          before.op = .acquire request ∧ before.since = call.since) := by
  refine ⟨fun result hreturned => ?_, fun hexit e s' he call request hcall hop => ?_⟩
  · have hlive : s.pc ≠ .crashed := by rw [hreturned]; nofun
    have hverdict : s.verdict = result := by rw [RunState.verdict, hreturned]
    refine ⟨hverdict.symm.trans (h.verdict_eq hlive), fun hnone => h.cancelled_iff.mp ?_⟩
    exact h.exits.left (by rw [hreturned]; rfl) hlive (hverdict.trans hnone)
  · have hbody : s'.pc = .body call := Run.claimsInBody (h.snoc he) call request hcall hop
    rcases body_of_step (step_of_next he) hbody with ⟨before, hpc, hsame, hsince⟩ | hother |
      ⟨at_, fut, hpc, hcancelled, -⟩
    · exact ⟨before, hpc, hsame.symm.trans hop, hsince.symm⟩
    · rw [hop] at hother
      cases hother
    · rcases hexit with hcancel | hpermanent
      · rw [h.cancelled_iff.mpr hcancel] at hcancelled
        cases hcancelled
      · have hlive : s.pc ≠ .crashed := by rw [hpc]; nofun
        have hnone : s.verdict = none := by
          rw [RunState.verdict, hpc]
          exact h.exits.looping (by rw [hpc]; rfl)
        rw [h.verdict_eq hlive, List.head?_eq_none_iff] at hnone
        exact absurd hnone hpermanent

end

/-- The first claim fails for good. -/
def failedClaim : List (Event FailureKind) :=
  [.enter, .fireClaim, .answer (.err .permanent), .stop [], .drainCheck]

theorem run_reports_failed_claim :
    permanents (sample .default) (RunState.start .default 0) failedClaim = [.permanent] ∧
      ∃ s : RunState FailureKind, Run (sample .default) 0 failedClaim s ∧
        s.pc = .returned (some .permanent) := by
  have hrun : Run (sample .default) 0 failedClaim
      (Machine.reach (next (sample .default)) (RunState.start .default 0) failedClaim) :=
    Machine.path_reach (by decide)
  have hseen : permanents (sample .default) (RunState.start .default 0) failedClaim =
      [.permanent] := by decide
  refine ⟨hseen, _, hrun, ?_⟩
  have hreturned : ∃ result, (Machine.reach (next (sample .default)) (RunState.start .default 0)
      failedClaim).pc = .returned result := ⟨some .permanent, by decide⟩
  obtain ⟨result, hpc⟩ := hreturned
  have hfirst := ((run_reports_first_permanent hrun).1 result hpc).1
  rw [hpc, hfirst]
  exact congrArg (fun l => Pc.returned (List.head? l)) hseen

end Reliar.Dispatcher
