/-
# `Reliar.Dispatcher.Rounds` — how often a failed outcome write is tried again
(`reliar-outbox`: `dispatcher.rs`, `run`, `retry_unwritten_outcomes`)

Every round that comes to its end in the main loop rewrites
`next_outcome_retry_at`; a round dropped by `select!` leaves it alone.  The
rounds of a run are what `completes` observes along it, and `Rounds` is what
they mean for the state they led to.

Two reasons keep failing rounds apart.  One that leaves something unwritten sets
the due time an interval ahead, and the due time never goes back.  One that
leaves nothing cannot be followed at once by another of its kind: that one has
to see an outcome expire which became unwritten only after the first.
-/
import Reliar.Dispatcher.Pacing

namespace Reliar.Dispatcher

open Reliar.Core Reliar.Outbox

/-! ## Events with a gap

At most one more than `T / gap` of them fall into a window of length `T`. -/

theorem length_le_of_gap {α : Type} (at_ : α → Instant) {gap : Duration} (hgap : 0 < gap) :
    ∀ {l : List α} {a : Instant} {T : Duration}, l.Pairwise (fun x y => at_ x + gap ≤ at_ y) →
      (∀ x ∈ l, a ≤ at_ x ∧ at_ x ≤ a + T) → l.length ≤ T / gap + 1
  | [], _, _, _, _ => Nat.zero_le _
  | [_], _, _, _, _ => Nat.le_add_left _ _
  | x :: y :: rest, a, T, hp, hw => by
      obtain ⟨hx, hp'⟩ := List.pairwise_cons.mp hp
      have hfirst := hw x List.mem_cons_self
      have hsecond := hx y List.mem_cons_self
      have hlast := hw y (List.mem_cons_of_mem _ List.mem_cons_self)
      have hroom : gap ≤ T := by lia
      -- the others fall into what the window holds past the first gap
      have hrest : (y :: rest).length ≤ (T - gap) / gap + 1 := by
        refine length_le_of_gap at_ hgap (a := a + gap) hp' fun z hz => ?_
        have hz₁ := hx z hz
        have hz₂ := (hw z (List.mem_cons_of_mem _ hz)).2
        exact ⟨by lia, by lia⟩
      rw [List.length_cons, Nat.div_eq_sub_div hgap hroom]
      exact Nat.add_le_add_right hrest 1

/-! ## The rounds of a run -/

/-- A round that came to its end: when, whether a write failed in it, and whether it left both
lists empty. -/
structure Completed where
  at_ : Instant
  failed : Bool
  emptied : Bool
  deriving DecidableEq

section
variable {E : Type}

/-- A stretch of a round, if it ends it. -/
def Completed.ofStretch (now : Instant) (p : Books × Progress E) : Option Completed :=
  match p.2 with
  | .awaiting _ => none
  | .done anyFailed _ => some ⟨now, anyFailed, !p.1.hasUnwritten⟩

/-- The round of the main loop that ends with this event. -/
def completes [Classify E] (d : OutboxDispatcher) (s : RunState E) (e : Event E) :
    Option Completed :=
  match e, s.pc with
  | .retryWakes, .select _ .sleeping =>
      Completed.ofStretch s.now (startRound (E := E) d.settings.lease s.now s.books)
  | .answer a, .select _ (.running round) =>
      Completed.ofStretch s.now (resumeRound d.settings.lease s.now s.books round a)
  | _, _ => none

/-- All of them, in order. -/
def rounds [Classify E] (d : OutboxDispatcher) (now : Instant) (es : List (Event E)) :
    List Completed :=
  Machine.observed (next d) (completes d) (RunState.start d.settings now) es

/-- The ones in which a write failed. -/
def failingRounds [Classify E] (d : OutboxDispatcher) (now : Instant) (es : List (Event E)) :
    List Completed :=
  (rounds d now es).filter (·.failed)

/-! ## What the rounds mean for the state -/

/-- How far apart two rounds are. -/
structure Completed.Apart (s : DispatcherSettings) (r r' : Completed) : Prop where
  left : r.failed = true → r.emptied = false → r.at_ + s.outcomeRetryInterval ≤ r'.at_
  emptied : r.emptied = true → r'.failed = true → r'.emptied = true → r.at_ + s.lease < r'.at_

/-- What became unwritten before a round that left nothing is gone. -/
def Fresh (rs : List Completed) (b : Books) : Prop :=
  ∀ r ∈ rs, r.emptied = true → ∀ k, ∀ since ∈ b.waits k, r.at_ ≤ since

/-- More than `lease` has passed since each of these. -/
def Outlived (lease : Duration) (now : Instant) (rs : List Completed) : Prop :=
  ∀ r ∈ rs, r.emptied = true → r.at_ + lease < now

/-- A round under way has something to write; if nothing is left of a `complete` that failed, it
has expired. -/
def Underway (lease : Duration) (now : Instant) (rs : List Completed) (b : Books) : Round → Prop
  | .completing _ => b.waits true ≠ []
  | .failing anyFailed _ =>
      b.waits false ≠ [] ∧ (anyFailed = true → b.waits true = [] → Outlived lease now rs)

/-- The same of the stretch it is in. -/
def Progress.Underway (lease : Duration) (now : Instant) (rs : List Completed) (b : Books) :
    Progress E → Prop
  | .awaiting round => Dispatcher.Underway lease now rs b round
  | .done anyFailed _ => anyFailed = true → b.hasUnwritten = false → Outlived lease now rs

/-- In the loop; a round under way is due. -/
structure Looping (lease : Duration) (rs : List Completed) (s : RunState E) : Prop where
  fresh : Fresh rs s.books
  underway : ∀ at_ round, s.pc = .select at_ (.running round) →
    s.nextOutcomeRetryAt ≤ s.now ∧ Underway lease s.now rs s.books round

structure Rounds (d : OutboxDispatcher) (rs : List Completed) (s : RunState E) : Prop where
  apart : rs.Pairwise (Completed.Apart d.settings)
  past : ∀ r ∈ rs, r.at_ ≤ s.now
  due : ∀ r ∈ rs, r.failed = true → r.emptied = false →
    r.at_ + d.settings.outcomeRetryInterval ≤ s.nextOutcomeRetryAt
  atOnce : (∀ r ∈ rs.getLast?, r.failed = false ∨ r.emptied = true) →
    s.nextOutcomeRetryAt ≤ s.now
  looping : s.pc.pastLoop = false → Looping d.settings.lease rs s

/-! ## Stretches -/

variable {lease : Duration} {now : Instant} {rs : List Completed} {b b' : Books}

theorem Fresh.mono (hf : Fresh rs b) (h : ∀ k since, since ∈ b'.waits k → since ∈ b.waits k) :
    Fresh rs b' :=
  fun r hr he k since hs => hf r hr he k since (h k since hs)

/-- A list of outcomes that has expired as a whole. -/
theorem Fresh.outlived (hf : Fresh rs b) {k : Bool} (hne : b.waits k ≠ [])
    (hold : ∀ since ∈ b.waits k, since + lease < now) : Outlived lease now rs := by
  intro r hr he
  obtain ⟨since, hs⟩ := List.exists_mem_of_ne_nil _ hne
  have hsince := hf r hr he k since hs
  have hexpired := hold since hs
  lia

theorem expired_of_filter {α : Type} {l : List (Unwritten α)}
    (h : (l.filter (Books.keeps lease now)).map (·.since) = []) :
    ∀ since ∈ l.map (·.since), since + lease < now := by
  intro since hs
  obtain ⟨e, he, rfl⟩ := List.mem_map.mp hs
  have hk := List.filter_eq_nil_iff.mp (List.map_eq_nil_iff.mp h) e he
  simp only [Books.keeps, decide_eq_true_eq] at hk
  lia

theorem waits_of_hasUnwritten (h : b.hasUnwritten = false) (k : Bool) : b.waits k = [] := by
  rw [List.eq_nil_iff_forall_not_mem]
  intro since hs
  rw [hasUnwritten_of_waits hs] at h
  cases h

theorem failHalf_underway (hf : Fresh rs b) {anyFailed : Bool}
    (hne : anyFailed = true → b.waits true ≠ []) :
    (failHalf (E := E) lease now anyFailed b).2.Underway lease now rs
      (failHalf (E := E) lease now anyFailed b).1 := by
  -- nothing is left of the first list only if all of it expired
  have hgone : anyFailed = true → (b.expireComplete lease now).waits true = [] →
      Outlived lease now rs := fun ha h => hf.outlived (hne ha) (expired_of_filter h)
  simp only [failHalf]
  split
  · intro ha hempty
    exact hgone ha (waits_of_hasUnwritten hempty true)
  · rename_i hfail
    refine ⟨fun h => hfail ?_, hgone⟩
    simpa [Books.waits] using h

theorem startRound_underway (hf : Fresh rs b) :
    (startRound (E := E) lease now b).2.Underway lease now rs
      (startRound (E := E) lease now b).1 := by
  unfold startRound
  split
  · exact failHalf_underway hf fun h => nomatch h
  · rename_i hne
    intro h
    exact hne (by simpa [Books.waits] using h)

theorem resumeRound_underway [Classify E] (hf : Fresh rs b) {round : Round} {a : Answer E}
    (hu : Underway lease now rs b round) :
    (resumeRound lease now b round a).2.Underway lease now rs
      (resumeRound lease now b round a).1 := by
  -- a permanent error leaves the list it is about as it was
  have hperm : ∀ {k : Bool}, b.waits k ≠ [] → b.hasUnwritten = false → Outlived lease now rs :=
    fun hne h => absurd (waits_of_hasUnwritten h _) hne
  cases round with
  | completing call =>
      cases a with
      | ok =>
          refine failHalf_underway (hf.mono fun k since hs => ?_) fun h => nomatch h
          cases k
          · exact hs
          · cases hs
      | elapsed => exact failHalf_underway hf fun _ => hu
      | err e =>
          simp only [resumeRound]
          split
          · exact fun _ => hperm hu
          · exact failHalf_underway hf fun _ => hu
  | failing anyFailed call =>
      obtain ⟨hne, hgone⟩ := hu
      have hexpired : ∀ {af : Bool} {perm : Option E},
          (Progress.done af perm).Underway lease now rs (b.expireFail lease now) :=
        fun _ h => hf.outlived hne (expired_of_filter (waits_of_hasUnwritten h false))
      cases a with
      | ok => exact fun ha h => hgone ha (waits_of_hasUnwritten h true)
      | elapsed => exact hexpired
      | err e =>
          simp only [resumeRound]
          split
          · exact fun _ => hperm hne
          · exact hexpired

/-! ## Steps -/

variable {d : OutboxDispatcher} {s s' : RunState E} {e : Event E}

theorem Underway.mono {now' : Instant} (hnow : now ≤ now') (hw : ∀ k, b'.waits k = b.waits k) :
    ∀ {round : Round}, Underway lease now rs b round → Underway lease now' rs b' round
  | .completing _, h => by
      simp only [Underway, hw]
      exact h
  | .failing _ _, h => by
      simp only [Underway, hw]
      refine ⟨h.1, fun ha hempty r hr he => ?_⟩
      have hold := h.2 ha hempty r hr he
      lia

/-- No round is under way. -/
theorem Looping.idle (hf : Fresh rs s.books) (hpc : s.pc.round? = none) : Looping lease rs s := by
  refine ⟨hf, fun at_ round h => ?_⟩
  rw [h] at hpc
  cases hpc

/-- No round ends. -/
theorem Rounds.keep (h : Rounds d rs s) (hnow : s.now ≤ s'.now)
    (hdue : s'.nextOutcomeRetryAt = s.nextOutcomeRetryAt)
    (hloop : s'.pc.pastLoop = false → Looping d.settings.lease rs s') :
    Rounds d rs s' where
  apart := h.apart
  past r hr := (h.past r hr).trans hnow
  due := by rw [hdue]; exact h.due
  atOnce hlast := by rw [hdue]; exact (h.atOnce hlast).trans hnow
  looping := hloop

/-- The retry branch's handler moves the due time, and nothing else that counts here. -/
theorem finishRetry_frame (anyFailed : Bool) (permanent : Option E) :
    let s' := finishRetry d s anyFailed permanent
    s'.nextOutcomeRetryAt = (if anyFailed && s.books.hasUnwritten then
        s.now + d.settings.outcomeRetryInterval else s.now) ∧
      s'.now = s.now ∧ s'.books = s.books ∧ s'.pc.round? = none ∧
      (s'.pc.pastLoop = false → permanent = none) := by
  cases permanent with
  | none => exact ⟨rfl, rfl, rfl, rfl, fun _ => rfl⟩
  | some err => exact ⟨rfl, rfl, rfl, rfl, fun h => by cases h⟩

/-- The round ends, and its verdict sets the due time. -/
theorem Rounds.finish (h : Rounds d rs s) (hl : s.pc.pastLoop = false) {b : Books}
    {anyFailed : Bool} {permanent : Option E} (hdue : s.nextOutcomeRetryAt ≤ s.now)
    (hsub : permanent = none → ∀ k since, since ∈ b.waits k → since ∈ s.books.waits k)
    (hgone : anyFailed = true → b.hasUnwritten = false → Outlived d.settings.lease s.now rs) :
    Rounds d (rs ++ [⟨s.now, anyFailed, !b.hasUnwritten⟩])
      (finishRetry d { s with books := b } anyFailed permanent) := by
  obtain ⟨hnext, hnow, hbooks, hpc, hstay⟩ :=
    finishRetry_frame (d := d) (s := { s with books := b }) anyFailed permanent
  -- the due time is never before now, and is an interval later if the round says so
  have hlate : s.now ≤ (finishRetry d { s with books := b } anyFailed permanent).nextOutcomeRetryAt := by
    rw [hnext]; split <;> lia
  refine ⟨?_, ?_, ?_, ?_, ?_⟩
  · refine List.pairwise_append.mpr ⟨h.apart, List.pairwise_singleton _ _, fun r hr r' hr' => ?_⟩
    rw [List.mem_singleton.mp hr']
    refine ⟨fun hf he => (h.due r hr hf he).trans hdue, fun he hf' he' => ?_⟩
    exact hgone hf' (by simpa using he') r hr he
  · intro r hr
    rw [hnow]
    rcases List.mem_append.mp hr with hr | hr
    · exact h.past r hr
    · rw [List.mem_singleton.mp hr]
  · intro r hr hf he
    rcases List.mem_append.mp hr with hr | hr
    · exact (h.due r hr hf he).trans (hdue.trans hlate)
    · rw [List.mem_singleton.mp hr] at hf he ⊢
      have hleft : b.hasUnwritten = true := by simpa using he
      have hfailed : anyFailed = true := hf
      rw [hnext, hfailed, hleft]
      exact le_rfl
  · intro hlast
    have hverdict := hlast _ (by rw [List.getLast?_concat]; rfl)
    rw [hnow, hnext]
    rcases hverdict with hf | he
    · rw [show anyFailed = false from hf]; exact le_rfl
    · rw [show b.hasUnwritten = false by simpa using he, Bool.and_false]; exact le_rfl
  · intro hloop
    refine .idle (fun r hr he k since hs => ?_) hpc
    rw [hbooks] at hs
    rcases List.mem_append.mp hr with hr | hr
    · exact (h.looping hl).fresh r hr he k since (hsub (hstay hloop) k since hs)
    · rw [List.mem_singleton.mp hr] at he
      have hempty := waits_of_hasUnwritten (by simpa using he) k
      rw [hempty] at hs
      cases hs

/-- A stretch of a due round. -/
theorem Rounds.afterRetry (h : Rounds d rs s) (hl : s.pc.pastLoop = false) {at_ : LoopHead}
    {p : Books × Progress E} (hdue : s.nextOutcomeRetryAt ≤ s.now)
    (hsub : (∀ af e, p.2 ≠ .done af (some e)) →
      ∀ k since, since ∈ p.1.waits k → since ∈ s.books.waits k)
    (hp : p.2.Underway d.settings.lease s.now rs p.1) :
    Rounds d (rs ++ (Completed.ofStretch s.now p).toList) (afterRetry d s at_ p) := by
  obtain ⟨b, progress⟩ := p
  have hf := (h.looping hl).fresh
  cases progress with
  | awaiting round =>
      rw [Completed.ofStretch, Option.toList_none, List.append_nil]
      refine h.keep le_rfl rfl fun _ => ⟨hf.mono (hsub fun _ _ h => nomatch h), ?_⟩
      intro at_' round' hpc
      cases hpc
      exact ⟨hdue, hp⟩
  | done anyFailed permanent =>
      refine h.finish hl hdue (fun hnone => hsub fun af e hdone => ?_) hp
      cases hdone
      cases hnone

theorem completes_task [Classify E] {id : TaskId} (h : e.task? = some id) :
    completes d s e = none := by
  cases e <;> first | rfl | cases h

theorem completes_pastLoop [Classify E] (h : s.pc.pastLoop = true) : completes d s e = none := by
  unfold completes
  split
  · rename_i hpc; rw [hpc] at h; cases h
  · rename_i hpc; rw [hpc] at h; cases h
  · rfl

theorem finalize_timers (permanent : Option E) :
    (finalize s permanent).now = s.now ∧
      (finalize s permanent).nextOutcomeRetryAt = s.nextOutcomeRetryAt := by
  simp only [finalize]
  split <;> exact ⟨rfl, rfl⟩

theorem afterFinal_timers (p : Books × Progress E) :
    (afterFinal s p).now = s.now ∧
      (afterFinal s p).nextOutcomeRetryAt = s.nextOutcomeRetryAt := by
  simp only [afterFinal]
  split
  · exact ⟨rfl, rfl⟩
  · exact finalize_timers _

theorem leaveDrain_timers (permanent : Option E) :
    (leaveDrain d s permanent).now = s.now ∧
      (leaveDrain d s permanent).nextOutcomeRetryAt = s.nextOutcomeRetryAt := by
  cases permanent with
  | none => exact afterFinal_timers _
  | some err => exact finalize_timers _

theorem afterDrainRound_timers (deadline : Instant) (p : Books × Progress E) :
    (afterDrainRound s deadline p).now = s.now ∧
      (afterDrainRound s deadline p).nextOutcomeRetryAt = s.nextOutcomeRetryAt := by
  simp only [afterDrainRound]
  split <;> exact ⟨rfl, rfl⟩

theorem shutdown_timers (lagging : List TaskId) :
    (shutdown d s lagging).now = s.now ∧
      (shutdown d s lagging).nextOutcomeRetryAt = s.nextOutcomeRetryAt := by
  simp only [shutdown]
  split <;> exact ⟨rfl, rfl⟩

/-- Outside of the loop the due time stays. -/
theorem timers_of_step [Classify E] (h : Step d s e s') (hp : s.pc.pastLoop = true) :
    s.now ≤ s'.now ∧ s'.nextOutcomeRetryAt = s.nextOutcomeRetryAt := by
  cases h with
  | tick elapsed => exact ⟨Nat.le_add_right _ _, rfl⟩
  | cancel | crash | task | apply | answerReleasing | answerRelease | drainStay =>
      exact ⟨le_rfl, rfl⟩
  | answerDrain | drainJoin => exact (afterDrainRound_timers _ _).imp (·.ge) id
  | answerFinal => exact (afterFinal_timers _).imp (·.ge) id
  | stop => exact (shutdown_timers _).imp (·.ge) id
  | drainLeave | drainDeadline => exact (leaveDrain_timers _).imp (·.ge) id
  | enter hpc | fireCancel hpc | fireJoin hpc | fireLease hpc | fireStats hpc | retryWakes hpc
  | fireClaim hpc | answerRetry hpc | answerBody hpc => rw [hpc] at hp; cases hp

/-- No round ends with `e`. -/
theorem Rounds.quiet [Classify E] (h : Rounds d rs s) (hc : completes d s e = none)
    (hnow : s.now ≤ s'.now) (hdue : s'.nextOutcomeRetryAt = s.nextOutcomeRetryAt)
    (hloop : s'.pc.pastLoop = false → Looping d.settings.lease rs s') :
    Rounds d (rs ++ (completes d s e).toList) s' := by
  rw [hc, Option.toList_none, List.append_nil]
  exact h.keep hnow hdue hloop

theorem rounds_of_step [Classify E] (h : Step d s e s') (hr : Rounds d rs s) :
    Rounds d (rs ++ (completes d s e).toList) s' := by
  cases hl : s.pc.pastLoop with
  | true =>
      obtain ⟨hnow, hdue⟩ := timers_of_step h hl
      refine hr.quiet (completes_pastLoop hl) hnow hdue fun hloop => ?_
      rw [pastLoop_of_step h hl] at hloop
      cases hloop
  | false =>
      obtain ⟨hf, hu⟩ := hr.looping hl
      cases h with
      | tick elapsed =>
          refine hr.quiet rfl (Nat.le_add_right _ _) rfl fun _ => ⟨hf, fun at_ round hpc => ?_⟩
          obtain ⟨hdue, hround⟩ := hu at_ round hpc
          exact ⟨hdue.trans (Nat.le_add_right _ _), hround.mono (Nat.le_add_right _ _) fun _ => rfl⟩
      | cancel => exact hr.quiet rfl le_rfl rfl fun _ => ⟨hf, hu⟩
      | crash | fireCancel =>
          refine hr.quiet rfl le_rfl rfl fun hloop => ?_
          cases hloop
      | task hid _ hb =>
          have hw := waits_of_taskStep hb
          refine hr.quiet (completes_task hid) le_rfl rfl fun _ =>
            ⟨hf.mono fun k since hs => hw k ▸ hs, fun at_ round hpc => ?_⟩
          obtain ⟨hdue, hround⟩ := hu at_ round hpc
          exact ⟨hdue, hround.mono le_rfl hw⟩
      | apply hc =>
          refine hr.quiet rfl le_rfl rfl fun _ => ⟨hf, fun at_ round hpc => ?_⟩
          -- the call carried out is the round's own
          cases hs : s.pc with
          | select at₁ fut =>
              cases fut with
              | running round₁ =>
                  obtain ⟨hdue, hround⟩ := hu at₁ round₁ hs
                  simp only [hs, Pc.setCall, Pc.select.injEq, RetryFut.running.injEq] at hpc
                  rw [← hpc.2]
                  exact ⟨hdue, by cases round₁ <;> exact hround⟩
              | _ => simp [hs, Pc.setCall] at hpc
          | _ => simp [hs, Pc.setCall] at hpc
      | enter =>
          refine hr.quiet rfl le_rfl rfl fun _ => .idle hf ?_
          simp only [enterSelect]
          split <;> rfl
      | @fireJoin _ _ joined hpc =>
          refine hr.quiet rfl le_rfl rfl fun _ =>
            .idle (fun r hmem he k since hs => ?_) rfl
          rw [spawnReady_waits] at hs
          rcases join_waits _ _ _ _ hs with hs | rfl
          · exact hf r hmem he k since hs
          · exact hr.past r hmem
      | fireLease | fireStats | fireClaim =>
          exact hr.quiet rfl le_rfl rfl fun _ => .idle hf rfl
      | @retryWakes at_ hpc hdue =>
          rw [show completes d s .retryWakes = Completed.ofStretch s.now
            (startRound (E := E) d.settings.lease s.now s.books) by simp only [completes, hpc]]
          exact hr.afterRetry hl hdue (fun _ k since hs => (startRound_waits hs).1)
            (startRound_underway hf)
      | @answerRetry at_ round a hpc hb ha =>
          rw [show completes d s (.answer a) = Completed.ofStretch s.now
            (resumeRound d.settings.lease s.now s.books round a) by simp only [completes, hpc]]
          obtain ⟨hdue, hround⟩ := hu at_ round hpc
          exact hr.afterRetry hl hdue (fun hperm k since hs => (resumeRound_waits hs hperm).1)
            (resumeRound_underway hf hround)
      | @answerBody call a hpc =>
          obtain ⟨hnow, hdue, hwaits, hhead⟩ := afterBody_frame (d := d) (s := s) call a
          refine hr.quiet (by simp only [completes, hpc]) hnow.ge hdue fun _ =>
            .idle (hf.mono fun k since hs => hwaits k ▸ hs) ?_
          rcases hhead with hhead | hhead <;> rw [hhead] <;> rfl
      | answerReleasing hpc | answerDrain hpc | answerFinal hpc | answerRelease hpc | stop hpc
      | drainLeave hpc | drainStay hpc | drainJoin hpc | drainDeadline hpc =>
          rw [hpc] at hl; cases hl

end

/-! ## Runs -/

section
variable {E : Type} [Classify E] {d : OutboxDispatcher} {s : RunState E} {now : Instant}
  {es : List (Event E)}

theorem Run.rounds_kept (h : Run d now es s) : Rounds d (rounds d now es) s := by
  induction h with
  | nil =>
      exact ⟨.nil, fun _ h => (nomatch h), fun _ h => (nomatch h), fun _ => le_rfl,
        fun _ => Looping.idle (fun _ h => nomatch h) rfl⟩
  | @snoc s₁ s₂ es e hp he ih =>
      rw [Dispatcher.rounds, Machine.observed_snoc _ e hp]
      exact rounds_of_step (step_of_next he) ih

theorem outcomeRetryInterval_pos (s : DispatcherSettings) : 0 < s.outcomeRetryInterval :=
  Nat.lt_of_lt_of_le (by decide) (Nat.le_max_right _ (Duration.ofMillis 1))

theorem lease_pos {s : DispatcherSettings} (h : validateShared s = .ok ()) : 0 < s.lease := by
  by_contra hzero
  have hshort : s.lease ≤ s.publishTimeout := by lia
  simp only [validateShared, hshort, if_true] at h
  repeat' split at h
  all_goals cases h

theorem failing_apart (h : Run d now es s) :
    (failingRounds d now es).Pairwise fun r r' =>
      r.emptied = false → r.at_ + d.settings.outcomeRetryInterval ≤ r'.at_ := by
  refine List.pairwise_filter.mpr ((Run.rounds_kept h).apart.imp fun hr hf _ he => hr.left hf he)

theorem emptied_apart (h : Run d now es s) :
    ((failingRounds d now es).filter (·.emptied)).Pairwise fun r r' =>
      r.at_ + d.settings.lease < r'.at_ := by
  rw [failingRounds, List.filter_filter]
  refine List.pairwise_filter.mpr ((Run.rounds_kept h).apart.imp fun hr he he' => ?_)
  simp only [Bool.and_eq_true] at he he'
  exact hr.emptied he.1 he'.2 he'.1

/-- In a window, the failing rounds that left something and those that left nothing are counted
apart. -/
theorem failing_window (h : Run d now es s) (hlease : 0 < d.settings.lease) (a : Instant)
    (T : Duration) :
    ((failingRounds d now es).filter fun r => decide (a ≤ r.at_ ∧ r.at_ ≤ a + T)).length ≤
      T / d.settings.outcomeRetryInterval + T / d.settings.lease + 2 := by
  generalize hin : (fun r : Completed => decide (a ≤ r.at_ ∧ r.at_ ≤ a + T)) = inWindow
  have hmem : ∀ {q : Completed → Bool}, ∀ r ∈ ((failingRounds d now es).filter inWindow).filter q,
      a ≤ r.at_ ∧ r.at_ ≤ a + T := by
    intro q r hr
    have hr' := (List.mem_filter.mp (List.mem_filter.mp hr).1).2
    rw [← hin] at hr'
    exact of_decide_eq_true hr'
  have hemptied : (((failingRounds d now es).filter inWindow).filter (·.emptied)).length ≤
      T / d.settings.lease + 1 := by
    refine length_le_of_gap (·.at_) hlease ?_ hmem
    rw [List.filter_comm]
    exact ((emptied_apart h).filter _).imp le_of_lt
  have hleft : (((failingRounds d now es).filter inWindow).filter (!·.emptied)).length ≤
      T / d.settings.outcomeRetryInterval + 1 := by
    refine length_le_of_gap (·.at_) (outcomeRetryInterval_pos _) ?_ hmem
    refine List.pairwise_filter.mpr (((failing_apart h).filter _).imp fun hr he _ => hr ?_)
    simpa using he
  rw [List.length_eq_length_filter_add (·.emptied)]
  lia

/-- For all settings `build` accepts and every run of the loop: failing rounds are an
`outcome_retry_interval` apart unless the earlier one left nothing unwritten, those that left
nothing are more than `lease` apart, and a window of length `T` holds no more failing rounds than
that allows; when the last round did not fail, or left nothing, the next write is due at once. -/
theorem failing_rounds_paced {settings : DispatcherSettings} (hbuilt : Built settings d)
    (h : Run d now es s) :
    (failingRounds d now es).Pairwise (fun r r' =>
        r.emptied = false → r.at_ + settings.outcomeRetryInterval ≤ r'.at_) ∧
      ((failingRounds d now es).filter (·.emptied)).Pairwise (fun r r' =>
        r.at_ + settings.lease < r'.at_) ∧
      (∀ a T, ((failingRounds d now es).filter fun r =>
          decide (a ≤ r.at_ ∧ r.at_ ≤ a + T)).length ≤
        T / settings.outcomeRetryInterval + T / settings.lease + 2) ∧
      ((∀ r ∈ (rounds d now es).getLast?, r.failed = false ∨ r.emptied = true) →
        s.nextOutcomeRetryAt ≤ s.now) := by
  obtain ⟨hv, rfl⟩ := hbuilt.valid
  exact ⟨failing_apart h, emptied_apart h, failing_window h (lease_pos hv),
    (Run.rounds_kept h).atOnce⟩

end

/-- The store refuses the `complete` of one row until it expires. -/
def outage : List (Event FailureKind) :=
  [.enter, .fireClaim, .apply (.batch [sampleClaim 1] []), .answer .ok, .permit 0,
    .publishReturns 0 .ok, .enter, .fireJoin [(0, 0)],
    .enter, .retryWakes, .answer (.err .transient),
    .enter, .tick (Duration.ofMillis 500), .retryWakes, .answer (.err .transient),
    .enter, .tick (Duration.ofSecs 31), .fireLease, .apply (.affected 1), .answer .ok,
    .enter, .fireStats, .apply (.stats ⟨0, 0, 0, none, 0⟩), .answer .ok,
    .enter, .retryWakes, .answer (.err .transient)]

theorem failing_rounds_paced_outage :
    ∃ s, Run (sample .default) 0 outage s ∧
      failingRounds (sample .default) 0 outage =
        [⟨0, true, false⟩, ⟨Duration.ofMillis 500, true, false⟩,
          ⟨Duration.ofMillis 31500, true, true⟩] ∧
      (failingRounds (sample .default) 0 outage).Pairwise (fun r r' =>
        r.emptied = false → r.at_ + Duration.ofMillis 500 ≤ r'.at_) ∧
      s.nextOutcomeRetryAt ≤ s.now := by
  let s := Machine.reach (next (sample .default)) (RunState.start .default 0) outage
  have hrun : Run (sample .default) 0 outage s := Machine.path_reach (by decide)
  obtain ⟨hleft, -, -, hdue⟩ :=
    failing_rounds_paced ⟨sampleWorker, .inl (build_default sampleWorker)⟩ hrun
  exact ⟨s, hrun, by decide, hleft, hdue (by decide)⟩

end Reliar.Dispatcher
