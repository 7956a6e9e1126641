/-
# `Reliar.Dispatcher.Renewal` — renewals are asked for in time
(`reliar-outbox`: `dispatcher.rs`, `run`; `settings.rs`, `store_timeout`)

The lease ticker is one branch of the loop's `select!`.  What can hold it up is the
body of another branch, one store call, and `build` asks for
`store_timeout < lease / 2` so that ticker and call together stay below a lease.

`Ticking` is what the ticker's due time and the lists of an iteration have to do
with the clock.  Where a lease was `Asked` for at an instant,
the next renewal follows within a tick and a store timeout.
-/
import Reliar.Dispatcher.Attempts
import Reliar.Dispatcher.Deadline

namespace Reliar.Dispatcher

open Reliar.Core Reliar.Outbox

/-! ## The ticker -/

section
variable {E : Type} {d : OutboxDispatcher} {s s' : RunState E} {e : Event E}

/-- No row is on the books that was not before. -/
def Books.Within (b : Books) (refs : List MessageRef) : Prop := ∀ m ∈ b.leaseRefs, m ∈ refs

structure Ticking (d : OutboxDispatcher) (s : RunState E) : Prop where
  due : s.leaseDue ≤ s.now + d.settings.leaseTickPeriod
  body : ∀ call, s.pc = .body call → s.leaseDue ≤ call.since + d.settings.leaseTickPeriod
  /-- the iteration's lists are those of its head -/
  select : ∀ at_ fut, s.pc = .select at_ fut →
    s.books.Within at_.leaseRefs ∧ at_.outstandingCount = at_.leaseRefs.length
  renewal : ∀ call refs lease, s.pc = .body call → call.op = .extendLease refs lease →
    lease = d.settings.lease ∧ s.books.Within refs

theorem nextTick_le {due now : Instant} (period : Duration) (h : due ≤ now) :
    nextTick due period now ≤ now + period := by
  unfold nextTick
  split
  · exact le_rfl
  · lia

theorem leaseRefs_length (b : Books) : b.leaseRefs.length = b.outstandingCount := by
  simp only [Books.leaseRefs, Books.outstandingCount, List.length_append, List.length_map]

/-- A stretch of a round takes outcomes off their lists, and nothing else. -/
structure Books.Thins (b b' : Books) : Prop where
  outstanding : b'.outstanding = b.outstanding
  complete : ∀ e ∈ b'.unwrittenComplete, e ∈ b.unwrittenComplete
  fail : ∀ e ∈ b'.unwrittenFail, e ∈ b.unwrittenFail

theorem Books.Thins.within {b b' : Books} {refs : List MessageRef} (h : b.Thins b')
    (hb : b.Within refs) : b'.Within refs := by
  intro m hm
  refine hb m ?_
  simp only [Books.leaseRefs, List.mem_append, h.outstanding] at hm ⊢
  rcases hm with (hm | hm) | hm
  · exact .inl (.inl hm)
  · obtain ⟨e, he, rfl⟩ := List.mem_map.mp hm
    exact .inl (.inr (List.mem_map.mpr ⟨e, h.complete e he, rfl⟩))
  · obtain ⟨e, he, rfl⟩ := List.mem_map.mp hm
    exact .inr (List.mem_map.mpr ⟨e, h.fail e he, rfl⟩)

theorem expireComplete_thins (lease : Duration) (now : Instant) (b : Books) :
    b.Thins (b.expireComplete lease now) :=
  ⟨rfl, fun _ he => (List.mem_filter.mp he).1, fun _ he => he⟩

theorem expireFail_thins (lease : Duration) (now : Instant) (b : Books) :
    b.Thins (b.expireFail lease now) :=
  ⟨rfl, fun _ he => he, fun _ he => (List.mem_filter.mp he).1⟩

theorem Books.Thins.trans {b b' b'' : Books} (h : b.Thins b') (h' : b'.Thins b'') : b.Thins b'' :=
  ⟨h'.outstanding.trans h.outstanding, fun e he => h.complete e (h'.complete e he),
    fun e he => h.fail e (h'.fail e he)⟩

theorem clearComplete_thins (b : Books) : b.Thins b.clearComplete :=
  ⟨rfl, fun _ he => (List.not_mem_nil he).elim, fun _ he => he⟩

theorem clearFail_thins (b : Books) : b.Thins b.clearFail :=
  ⟨rfl, fun _ he => he, fun _ he => (List.not_mem_nil he).elim⟩

theorem Books.Thins.refl (b : Books) : b.Thins b := ⟨rfl, fun _ he => he, fun _ he => he⟩

theorem failHalf_thins (lease : Duration) (now : Instant) (anyFailed : Bool) (b : Books) :
    b.Thins (failHalf (E := E) lease now anyFailed b).1 := by
  simp only [failHalf]
  split
  · exact (expireComplete_thins _ _ _).trans (expireFail_thins _ _ _)
  · exact expireComplete_thins _ _ _

theorem startRound_thins (lease : Duration) (now : Instant) (b : Books) :
    b.Thins (startRound (E := E) lease now b).1 := by
  unfold startRound
  split
  · exact failHalf_thins _ _ _ _
  · exact .refl b

theorem resumeRound_thins [Classify E] (lease : Duration) (now : Instant) (b : Books)
    (round : Round) (a : Answer E) : b.Thins (resumeRound lease now b round a).1 := by
  cases round with
  | completing call =>
      cases a with
      | ok => exact (clearComplete_thins b).trans (failHalf_thins _ _ _ _)
      | elapsed => exact failHalf_thins _ _ _ _
      | err error =>
          simp only [resumeRound]
          split
          · exact .refl b
          · exact failHalf_thins _ _ _ _
  | failing anyFailed call =>
      cases a with
      | ok => exact (clearFail_thins b).trans (expireFail_thins _ _ _)
      | elapsed => exact expireFail_thins _ _ _
      | err error =>
          simp only [resumeRound]
          split
          · exact .refl b
          · exact expireFail_thins _ _ _

theorem taskStep_leaseRefs {t : PublishTask} {b : Books} (h : taskStep d s t e = some b) :
    b.leaseRefs = s.books.leaseRefs := by
  obtain ⟨hcomplete, hfail⟩ := taskStep_unwritten h
  have hout : b.outstanding = s.books.outstanding := by
    cases e <;> simp only [taskStep, reduceCtorEq, Option.ite_none_right_eq_some,
      Option.ite_none_left_eq_some, Option.some.injEq] at h
    case publishReturns =>
        split at h
        · simp only [Option.ite_none_right_eq_some, Option.some.injEq] at h
          obtain ⟨-, rfl⟩ := h
          rfl
        · cases h
    all_goals
      obtain ⟨-, rfl⟩ := h
      rfl
  simp only [Books.leaseRefs, hout, hcomplete, hfail]

theorem afterBody_ticks [Classify E] (call : Call) (a : Answer E) :
    (afterBody d s call a).now = s.now ∧ (afterBody d s call a).leaseDue = s.leaseDue := by
  unfold afterBody
  split <;> try split
  all_goals exact ⟨rfl, rfl⟩

theorem afterRetry_ticks (at_ : LoopHead) (p : Books × Progress E) :
    (afterRetry d s at_ p).now = s.now ∧ (afterRetry d s at_ p).leaseDue = s.leaseDue := by
  simp only [afterRetry]
  split
  · exact ⟨rfl, rfl⟩
  · simp only [finishRetry]
    split <;> exact ⟨rfl, rfl⟩

/-- The pc after a stretch of a round in the loop. -/
theorem afterRetry_pc (at_ : LoopHead) (p : Books × Progress E) :
    (∃ round, (afterRetry d s at_ p).pc = .select at_ (.running round)) ∨
      (afterRetry d s at_ p).pc = .head ∨ (afterRetry d s at_ p).pc = .stopping := by
  simp only [afterRetry]
  split
  · exact .inl ⟨_, rfl⟩
  · simp only [finishRetry]
    split
    · exact .inr (.inr rfl)
    · exact .inr (.inl rfl)

theorem Ticking.start (now : Instant) : Ticking d (RunState.start (E := E) d.settings now) where
  due := le_rfl
  body _ hpc := by cases hpc
  select _ _ hpc := by cases hpc
  renewal _ _ _ hpc := by cases hpc

/-- At a loop head only the due time counts. -/
theorem Ticking.of_between (hdue : s.leaseDue ≤ s.now + d.settings.leaseTickPeriod)
    (hpc : s.pc = .head ∨ s.pc = .stopping) : Ticking d s := by
  refine ⟨hdue, fun call hc => ?_, fun at_ fut hc => ?_, fun call _ _ hc => ?_⟩
  all_goals
    rw [hc] at hpc
    rcases hpc with hpc | hpc <;> cases hpc

/-- A stretch of a round keeps the lists of the iteration. -/
theorem Ticking.afterRetry {at_ : LoopHead} {fut : RetryFut} {p : Books × Progress E}
    (h : Ticking d s) (hpc : s.pc = .select at_ fut) (hp : s.books.Thins p.1) :
    Ticking d (afterRetry d s at_ p) := by
  obtain ⟨hnow, hdue⟩ := afterRetry_ticks (d := d) (s := s) at_ p
  have hle := h.due
  rw [← hnow, ← hdue] at hle
  rcases afterRetry_pc (d := d) (s := s) at_ p with ⟨round, hto⟩ | hto
  · refine ⟨hle, fun call hc => ?_, fun at' fut' hc => ?_, fun call _ _ hc => ?_⟩
    · rw [hto] at hc; cases hc
    · rw [hto] at hc
      cases hc
      rw [afterRetry_books]
      exact (h.select at_ fut hpc).imp_left hp.within
    · rw [hto] at hc; cases hc
  · exact .of_between hle hto

theorem inLoop_of_not_past {pc : Pc E} (h : pc.pastLoop = false) : pc.inLoop = true := by
  cases pc with
  | head | select | body => rfl
  | _ => cases h

theorem stillLoop_of_step [Classify E] (h : Step d s e s') (hl : s'.pc.pastLoop = false) :
    s.pc.pastLoop = false := by
  cases hs : s.pc.pastLoop with
  | false => rfl
  | true =>
      rw [pastLoop_of_step h hs] at hl
      cases hl

theorem ticking_of_step [Classify E] (h : Step d s e s') (hl : s'.pc.pastLoop = false)
    (ht : Ticking d s) : Ticking d s' := by
  have hback := stillLoop_of_step h hl
  cases h with
  | tick elapsed =>
      exact ⟨ht.due.trans (Nat.add_le_add_right (Nat.le_add_right _ _) _), ht.body, ht.select,
        ht.renewal⟩
  | cancel => exact ⟨ht.due, ht.body, ht.select, ht.renewal⟩
  | crash | fireCancel => cases hl
  | task _ _ hb =>
      have hwithin : ∀ {refs}, s.books.Within refs → Books.Within _ refs := fun {refs} hw m hm =>
        hw m (taskStep_leaseRefs hb ▸ hm)
      exact ⟨ht.due, ht.body, fun at_ fut hpc => (ht.select at_ fut hpc).imp_left hwithin,
        fun call refs lease hpc hop => (ht.renewal call refs lease hpc hop).imp_right hwithin⟩
  | apply hc =>
      refine ⟨ht.due, fun call hpc => ?_, fun at_ fut hpc => ?_, fun call refs lease hpc hop => ?_⟩
      · obtain ⟨hbefore, rfl⟩ := setCall_body hc hpc
        have hle := ht.body _ hbefore
        exact hle
      · cases hbefore : s.pc <;> simp only [hbefore, Pc.setCall, reduceCtorEq] at hpc
        rename_i at' fut'
        have hsame : at' = at_ := by cases fut' <;> cases hpc <;> rfl
        exact ht.select at_ fut' (by rw [hbefore, hsame])
      · obtain ⟨hbefore, rfl⟩ := setCall_body hc hpc
        exact ht.renewal _ refs lease hbefore hop
  | enter hpc =>
      refine ⟨ht.due, fun call hc => (by cases hc), fun at_ fut hc => ?_,
        fun call _ _ hc => (by cases hc)⟩
      cases hc
      exact ⟨fun m hm => hm, (leaseRefs_length _).symm⟩
  | fireJoin hpc => exact .of_between ht.due (.inl rfl)
  | @fireLease at_ fut hpc hb hr =>
      have hdue : s.leaseDue ≤ s.now := by
        simp only [RunState.leaseReady, Bool.and_eq_true, decide_eq_true_eq] at hr
        exact hr.2
      have hle := nextTick_le d.settings.leaseTickPeriod hdue
      refine ⟨hle, fun call hc => ?_, fun _ _ hc => (by cases hc), fun call refs lease hc hop => ?_⟩
      · cases hc
        exact hle
      · cases hc
        cases hop
        exact ⟨rfl, (ht.select at_ fut hpc).1⟩
  | fireStats hpc | fireClaim hpc =>
      refine ⟨ht.due, fun call hc => ?_, fun _ _ hc => (by cases hc), fun call refs lease hc hop => ?_⟩
      · cases hc
        exact ht.due
      · cases hc
        cases hop
  | retryWakes hpc => exact ht.afterRetry hpc (startRound_thins _ _ _)
  | answerRetry hpc => exact ht.afterRetry hpc (resumeRound_thins _ _ _ _ _)
  | @answerBody call a hpc =>
      obtain ⟨hnow, hdue⟩ := afterBody_ticks (d := d) (s := s) call a
      have hle := ht.due
      rw [← hnow, ← hdue] at hle
      exact .of_between hle (afterBody_frame (d := d) (s := s) call a).2.2.2
  | answerReleasing hpc | answerDrain hpc | answerFinal hpc | answerRelease hpc | stop hpc
  | drainLeave hpc | drainStay hpc | drainJoin hpc | drainDeadline hpc =>
      rw [hpc] at hback
      cases hback

end

/-! ## Leases asked for -/

section
variable {E : Type} {d : OutboxDispatcher} {s s' : RunState E} {e : Event E} {t : Instant}

/-- The bounds on the clock, by where `run` is suspended; after the loop there is none. -/
def AskedAt (d : OutboxDispatcher) (s : RunState E) (t : Instant) : Pc E → Prop
  | .head | .select _ _ => s.now ≤ max s.leaseDue t + d.settings.storeTimeout
  | .body call => call.since ≤ max s.leaseDue t ∧ s.now ≤ call.since + d.settings.storeTimeout
  | _ => True

/-- The lease asked for at `t` is followed by the next one in time. -/
structure Asked (d : OutboxDispatcher) (s : RunState E) (t : Instant) : Prop where
  le : t ≤ s.now
  due : s.leaseDue ≤ t + d.settings.leaseTickPeriod
  clock : AskedAt d s t s.pc

/-- So it was asked for a tick and a store timeout ago at most. -/
theorem Asked.bound (h : Asked d s t) (hl : s.pc.pastLoop = false) :
    s.now ≤ t + d.settings.leaseTickPeriod + d.settings.storeTimeout := by
  obtain ⟨-, hdue, hclock⟩ := h
  cases hpc : s.pc with
  | head | select =>
      rw [hpc] at hclock
      simp only [AskedAt] at hclock
      lia
  | body call =>
      rw [hpc] at hclock
      obtain ⟨h₁, h₂⟩ := hclock
      lia
  | _ => rw [hpc] at hl; cases hl

/-- While a row of the iteration's list is waited for, time passes up to the next tick only. -/
theorem Asked.tick {elapsed : Duration} (h : Asked d s t) (hl : s.pc.pastLoop = false)
    (ht : timely d s (.tick elapsed) = true)
    (hlist : ∀ at_ fut, s.pc = .select at_ fut → 0 < at_.outstandingCount) :
    Asked d { s with now := s.now + elapsed } t := by
  obtain ⟨hle, hdue, hclock⟩ := h
  have hwaits : ∀ deadline ∈ waitsUntil d s, s.now + elapsed ≤ deadline := by
    simpa only [timely, List.all_eq_true, decide_eq_true_eq] using ht
  refine ⟨hle.trans (Nat.le_add_right _ _), hdue, ?_⟩
  cases hpc : s.pc with
  | head =>
      have hnow := hwaits s.now (by simp [waitsUntil, hpc])
      rw [hpc] at hclock
      simp only [AskedAt] at hclock ⊢
      lia
  | select at_ fut =>
      have hnow := hwaits s.leaseDue (by simp [waitsUntil, hpc, hlist at_ fut hpc])
      simp only [AskedAt]
      lia
  | body call =>
      have hnow := hwaits (call.since + d.settings.storeTimeout) (by simp [waitsUntil, hpc])
      rw [hpc] at hclock
      exact ⟨hclock.1, hnow⟩
  | _ => rw [hpc] at hl; cases hl

theorem Asked.setCall {call : Call} {reply : Option Reply} (h : Asked d s t)
    (hc : s.pc.call? = some call) :
    Asked d { s with pc := s.pc.setCall { call with applied := reply } } t := by
  obtain ⟨hle, hdue, hclock⟩ := h
  refine ⟨hle, hdue, ?_⟩
  cases hpc : s.pc with
  | select at_ fut =>
      rw [hpc] at hclock
      cases fut <;> exact hclock
  | body call' =>
      rw [hpc] at hc hclock
      cases hc
      exact hclock
  | head => rw [hpc] at hc; cases hc
  | _ => trivial

/-- Back at a loop head, or still in `select!`, at the same instant. -/
theorem Asked.stay (h : Asked d s t) {at_ : LoopHead} {fut : RetryFut} (hpc : s.pc = .select at_ fut)
    (hnow : s'.now = s.now) (hdue : s'.leaseDue = s.leaseDue)
    (hto : (∃ at' fut', s'.pc = .select at' fut') ∨ s'.pc = .head ∨ s'.pc = .stopping) :
    Asked d s' t := by
  obtain ⟨hle, hdue', hclock⟩ := h
  rw [hpc] at hclock
  refine ⟨hnow ▸ hle, hdue ▸ hdue', ?_⟩
  rcases hto with ⟨at', fut', hto⟩ | hto | hto
  · rw [hto]
    simpa only [AskedAt, hnow, hdue] using hclock
  · rw [hto]
    simpa only [AskedAt, hnow, hdue] using hclock
  · rw [hto]
    trivial

/-- The handler of another branch starts before the tick is due. -/
theorem Asked.issue (h : Asked d s t) {at_ : LoopHead} (hready : s.leaseReady at_ = false)
    (hcount : 0 < at_.outstandingCount) (op : StoreCall) (statsDue : Option Instant) :
    Asked d { s with statsDue := statsDue, pc := .body (.issue op s.now) } t := by
  refine ⟨h.le, h.due, ?_, Nat.le_add_right _ _⟩
  have hlt : s.now < s.leaseDue := by
    simpa [RunState.leaseReady, hcount] using hready
  exact hlt.le.trans (le_max_left _ _)

/-- A store call later, back at a loop head. -/
theorem Asked.answer [Classify E] (h : Asked d s t) {call : Call} (hpc : s.pc = .body call)
    (a : Answer E) : Asked d (afterBody d s call a) t := by
  obtain ⟨hle, hdue, hclock⟩ := h
  obtain ⟨hnow, hleaseDue⟩ := afterBody_ticks (d := d) (s := s) call a
  rw [hpc] at hclock
  obtain ⟨h₁, h₂⟩ := hclock
  refine ⟨hnow ▸ hle, hleaseDue ▸ hdue, ?_⟩
  obtain ⟨-, -, -, hto | hto⟩ := afterBody_frame (d := d) (s := s) call a
  · rw [hto]
    simp only [AskedAt, hnow, hleaseDue]
    lia
  · rw [hto]
    trivial

end

/-! ## In every timed run -/

section
variable {E : Type}

/-- A lease is asked for: when, and for which rows.  A claim counts from the call's start. -/
def covering (s : RunState E) (e : Event E) : Option (Instant × List MessageRef) :=
  match e, s.pc with
  | .fireLease, .select at_ _ => some (s.now, at_.leaseRefs)
  | .answer .ok, .body call =>
      match call.op, call.applied with
      | .acquire _, some (.batch records _) =>
          some (call.since, records.map fun x => x.record.messageRef)
      | _, _ => none
  | _, _ => none

variable [Classify E]

/-- The claims and renewals of a run. -/
def coverings (d : OutboxDispatcher) (now : Instant) (es : List (Event E)) :
    List (Instant × List MessageRef) :=
  Machine.observed (next d) covering (RunState.start d.settings now) es

variable {d : OutboxDispatcher} {s s' : RunState E} {e : Event E} {now : Instant}
  {es : List (Event E)}

/-- What is spawned comes from the batch of a claim that is answered. -/
theorem claim_of_spawned (h : next d s e = some s') (hs : s.books.Settled d) {t : TaskId}
    {row : PendingRow} (ht : (t, row) ∈ s'.books.hist.spawned)
    (hnew : (t, row) ∉ s.books.hist.spawned) :
    ∃ call request records poisoned, s.pc = .body call ∧ e = .answer .ok ∧
      call.op = .acquire request ∧ call.applied = some (.batch records poisoned) ∧
      ∃ x ∈ records, row = .ofClaimed x := by
  obtain ⟨-, x, hx, hrow⟩ := (spawned_from h hs ht).resolve_left hnew
  have hstep := step_of_next h
  rcases acquired_of_step hstep with hsame | ⟨call, request, records, poisoned, hpc, hop, happ, -, hto⟩
  · -- as many tasks as acquired records, before and after
    have hrows := hs.sound.rows
    have hrows' := (settled_of_next h hs).sound.rows
    rw [hs.pending, List.append_nil] at hrows
    rw [(settled_of_next h hs).pending, List.append_nil, hsame, hrows] at hrows'
    obtain ⟨later, hlater⟩ := (follows_of_next h hs).spawned
    rw [← hlater, List.map_append] at hrows'
    have hnil := List.map_eq_nil_iff.mp (List.self_eq_append_right.mp hrows')
    rw [← hlater, hnil, List.append_nil] at ht
    exact absurd ht hnew
  · have hhanded : s.handed = records := by
      rw [RunState.handed, hpc, Pc.call?, Option.bind_some, happ]
    refine ⟨call, request, records, poisoned, hpc, ?_, hop, happ, x, hhanded ▸ hx, hrow⟩
    cases hstep with
    | tick | cancel | task => rw [hpc] at hto; cases hto
    | crash => cases hto
    | apply hc =>
        rw [hpc] at hto
        cases hto
    | @answerBody call' a hpc' =>
        cases a with
        | ok => rfl
        | err error =>
            refine absurd ?_ hnew
            have hbooks : (afterBody d s call' (.err error)).books = s.books := by
              unfold afterBody
              split <;> try split
              all_goals first | rfl | contradiction
            rwa [hbooks] at ht
        | elapsed =>
            refine absurd ?_ hnew
            have hbooks : (afterBody d s call' .elapsed).books = s.books := by
              unfold afterBody
              split <;> try split
              all_goals first | rfl | contradiction
            rwa [hbooks] at ht
    | enter hpc' | fireCancel hpc' | fireJoin hpc' | fireLease hpc' | fireStats hpc'
    | retryWakes hpc' | fireClaim hpc' | answerRetry hpc' | answerReleasing hpc' | answerDrain hpc'
    | answerFinal hpc' | answerRelease hpc' | stop hpc' | drainLeave hpc' | drainStay hpc'
    | drainJoin hpc' | drainDeadline hpc' =>
        rw [hpc] at hpc'
        cases hpc'

/-- Every row on the books has a lease that was asked for in time. -/
def InTime (d : OutboxDispatcher) (log : List (Instant × List MessageRef)) (s : RunState E) : Prop :=
  ∀ t row, (t, row) ∈ s.books.hist.spawned → t ∈ s.books.unsettled →
    ∃ c ∈ log, row.message ∈ c.2 ∧ Asked d s c.1

omit [Classify E] in
theorem Asked.congr {t : Instant} (h : Asked d s t) (hnow : s'.now = s.now)
    (hdue : s'.leaseDue = s.leaseDue) (hpc : s'.pc = s.pc) : Asked d s' t := by
  refine ⟨hnow ▸ h.le, hdue ▸ h.due, ?_⟩
  have hclock := h.clock
  rw [hpc]
  cases hs : s.pc with
  | head | select | body =>
      rw [hs] at hclock
      simpa only [AskedAt, hnow, hdue] using hclock
  | _ => trivial

/-- One lease, one step of the loop: the next one has been asked for, or there is still time. -/
theorem asked_of_step (h : Step d s e s') (hl : s'.pc.pastLoop = false) (ht : timely d s e = true)
    (hticking : Ticking d s) {m : MessageRef} (hm : m ∈ s.books.leaseRefs) {t : Instant}
    (hasked : Asked d s t) :
    Asked d s' t ∨ ∃ c, covering s e = some c ∧ m ∈ c.2 ∧ Asked d s' c.1 := by
  have hback := stillLoop_of_step h hl
  have hcount : ∀ at_ fut, s.pc = .select at_ fut → m ∈ at_.leaseRefs ∧ 0 < at_.outstandingCount :=
    fun at_ fut hpc => by
      obtain ⟨hwithin, hlen⟩ := hticking.select at_ fut hpc
      exact ⟨hwithin m hm, hlen ▸ List.length_pos_of_mem (hwithin m hm)⟩
  cases h with
  | tick => exact .inl (hasked.tick hback ht fun at_ fut hpc => (hcount at_ fut hpc).2)
  | cancel | task => exact .inl (hasked.congr rfl rfl rfl)
  | crash | fireCancel => cases hl
  | apply hc => exact .inl (hasked.setCall hc)
  | enter hpc =>
      refine .inl ⟨hasked.le, hasked.due, ?_⟩
      have hclock := hasked.clock
      rw [hpc] at hclock
      exact hclock
  | fireJoin hpc => exact .inl (hasked.stay hpc rfl rfl (.inr (.inl rfl)))
  | @fireLease at_ fut hpc hb hr =>
      have hdue : s.leaseDue ≤ s.now := by
        simp only [RunState.leaseReady, Bool.and_eq_true, decide_eq_true_eq] at hr
        exact hr.2
      refine .inr ⟨(s.now, at_.leaseRefs), by simp only [covering, hpc], (hcount at_ fut hpc).1,
        le_rfl, nextTick_le _ hdue, ?_, Nat.le_add_right _ _⟩
      exact le_max_right _ _
  | @fireStats at_ fut hpc hb =>
      simp only [RunState.clearAboveStats, Bool.and_eq_true, Bool.not_eq_true'] at hb
      exact .inl ((hasked.issue hb.2 (hcount at_ fut hpc).2 .stats _))
  | @fireClaim at_ fut hpc hb =>
      simp only [RunState.clearAboveClaim, RunState.clearAboveRetry, RunState.clearAboveStats,
        Bool.and_eq_true, Bool.not_eq_true'] at hb
      exact .inl (hasked.issue hb.1.1.2 (hcount at_ fut hpc).2 _ s.statsDue)
  | @retryWakes at_ hpc =>
      obtain ⟨hnow, hdue⟩ := afterRetry_ticks (d := d) (s := s) at_
        (startRound d.settings.lease s.now s.books)
      exact .inl (hasked.stay hpc hnow hdue
        ((afterRetry_pc at_ _).imp_left fun hto => ⟨at_, _, hto.choose_spec⟩))
  | @answerRetry at_ round a hpc =>
      obtain ⟨hnow, hdue⟩ := afterRetry_ticks (d := d) (s := s) at_
        (resumeRound d.settings.lease s.now s.books round a)
      exact .inl (hasked.stay hpc hnow hdue
        ((afterRetry_pc at_ _).imp_left fun hto => ⟨at_, _, hto.choose_spec⟩))
  | @answerBody call a hpc => exact .inl (hasked.answer hpc a)
  | answerReleasing hpc | answerDrain hpc | answerFinal hpc | answerRelease hpc | stop hpc
  | drainLeave hpc | drainStay hpc | drainJoin hpc | drainDeadline hpc =>
      rw [hpc] at hback
      cases hback

theorem inTime_of_next {log : List (Instant × List MessageRef)} (hrun : Run d now es s)
    (h : next d s e = some s') (hl : s'.pc.pastLoop = false) (ht : timely d s e = true)
    (htime : OnTime d s) (hticking : Ticking d s) (hlog : InTime d log s) :
    InTime d (log ++ (covering s e).toList) s' := by
  have hstep := step_of_next h
  have hs := Run.settled hrun
  have hback := stillLoop_of_step hstep hl
  intro t row hrow ht'
  by_cases hold : (t, row) ∈ s.books.hist.spawned
  · have hunsettled := (follows_of_next h hs).unsettled t (hs.sound.id_lt hold) ht'
    obtain ⟨c, hc, hm, hasked⟩ := hlog t row hold hunsettled
    have hrefs := leaseRefs_of_unsettled hs.sound (Run.kept hrun (inLoop_of_not_past hback)) hold hunsettled
    rcases asked_of_step hstep hl ht hticking hrefs hasked with hasked | ⟨c', hc', hm', hasked⟩
    · exact ⟨c, List.mem_append_left _ hc, hm, hasked⟩
    · exact ⟨c', List.mem_append_right _ (Option.mem_toList.mpr hc'), hm', hasked⟩
  · obtain ⟨call, request, records, poisoned, hpc, rfl, hop, happ, x, hx, rfl⟩ :=
      claim_of_spawned h hs hrow hold
    -- a row that has just been claimed: the lease counts from the call's start
    refine ⟨(call.since, records.map fun x => x.record.messageRef), ?_, List.mem_map_of_mem hx, ?_⟩
    · exact List.mem_append_right _ (Option.mem_toList.mpr (by simp only [covering, hpc, hop, happ]))
    · have hcall := htime
      unfold OnTime at hcall
      rw [hpc] at hcall
      cases hstep with
      | @answerBody call' _ hpc' =>
          rw [hpc] at hpc'
          cases hpc'
          have hbefore : Asked d s call.since := by
            refine ⟨hcall.1, hticking.body call hpc, ?_⟩
            rw [hpc]
            exact ⟨le_max_right _ _, hcall.2⟩
          exact hbefore.answer hpc .ok
      | answerRetry hpc' | answerReleasing hpc' | answerDrain hpc' | answerFinal hpc'
      | answerRelease hpc' =>
          rw [hpc] at hpc'
          cases hpc'
      | task hid => cases hid

theorem TimedRun.inTime (h : TimedRun d now es s) (hl : s.pc.pastLoop = false) :
    Ticking d s ∧ InTime d (coverings d now es) s := by
  induction h with
  | nil => exact ⟨.start now, fun _ _ hrow => by cases hrow⟩
  | @snoc s₁ s₂ es e hp he ih =>
      obtain ⟨ht, hnext⟩ := next_of_timedNext he
      have hback := stillLoop_of_step (step_of_next hnext) hl
      obtain ⟨hticking, hlog⟩ := ih hback
      have hrun := TimedRun.run hp
      refine ⟨ticking_of_step (step_of_next hnext) hl hticking, ?_⟩
      have hstepped := inTime_of_next hrun hnext hl ht (TimedRun.onTime hp) hticking hlog
      rwa [coverings, Machine.observed_snoc covering e hrun]

omit [Classify E] in
/-- What a renewal names belongs to a claim on the books. -/
theorem unsettled_of_leaseRefs {b : Books} (hs : b.Sound d) {m : MessageRef} (hm : m ∈ b.leaseRefs) :
    ∃ t row, (t, row) ∈ b.hist.spawned ∧ t ∈ b.unsettled ∧ row.message = m := by
  simp only [Books.leaseRefs, List.mem_append] at hm
  rcases hm with (hm | hm) | hm
  · obtain ⟨o, ho, rfl⟩ := List.mem_map.mp hm
    obtain ⟨x, hx, hid, hmessage⟩ := hs.outstanding_task o ho
    exact ⟨x.id, x.row, hs.inFlight_row x hx, Books.unsettled_of_task hx, hmessage⟩
  · obtain ⟨e, he, rfl⟩ := List.mem_map.mp hm
    obtain ⟨row, hrow, -, hitem⟩ := hs.complete e he
    exact ⟨e.task, row, hrow, Books.unsettled_of_complete he, by rw [hitem]⟩
  · obtain ⟨e, he, rfl⟩ := List.mem_map.mp hm
    obtain ⟨row, _, _, _, _, hrow, -, -, hitem⟩ := hs.fail e he
    exact ⟨e.task, row, hrow, Books.unsettled_of_fail he, by rw [hitem]; rfl⟩

/-- A tick and a store timeout stay below a lease, unless the tick is floored. -/
theorem tick_lt_lease {settings : DispatcherSettings} (h : validateShared settings = .ok ())
    (hlease : Duration.ofMillis 2 ≤ settings.lease) :
    settings.leaseTickPeriod + settings.storeTimeout < settings.lease := by
  have htimeout : settings.storeTimeout < settings.lease / 2 := by
    by_contra hlong
    rw [not_lt] at hlong
    simp only [validateShared, hlong, if_true] at h
    repeat' split at h
    all_goals cases h
  have hfloor : Duration.ofMillis 1 ≤ settings.lease / 2 := by
    simp only [Duration.ofMillis] at hlease ⊢
    lia
  rw [DispatcherSettings.leaseTickPeriod, max_eq_left hfloor]
  lia

/-- While `run` is in its loop, every row it has on its books was claimed, or named by a renewal, a
tick and a store timeout ago at most: the next renewal is always asked for before the lease can end. -/
theorem leases_renewed_in_time {settings : DispatcherSettings} (hbuilt : Built settings d)
    (h : TimedRun d now es s) (hl : s.pc.pastLoop = false) {m : MessageRef}
    (hm : m ∈ s.books.leaseRefs) :
    ∃ c ∈ coverings d now es, m ∈ c.2 ∧ c.1 ≤ s.now ∧
      s.now ≤ c.1 + settings.leaseTickPeriod + settings.storeTimeout ∧
      (Duration.ofMillis 2 ≤ settings.lease → s.now < c.1 + settings.lease) := by
  obtain ⟨hv, rfl⟩ := hbuilt.valid
  obtain ⟨t, row, hrow, ht, rfl⟩ := unsettled_of_leaseRefs (Run.settled h.run).sound hm
  obtain ⟨c, hc, hmem, hasked⟩ := (h.inTime hl).2 t row hrow ht
  have hbound := hasked.bound hl
  refine ⟨c, hc, hmem, hasked.le, hbound, fun hlease => ?_⟩
  have hlt := tick_lt_lease hv hlease
  lia

end

/-- The row of that run is renewed at 15 s; it was claimed at the start. -/
theorem leases_renewed_first_renewal :
    ∃ s, TimedRun (sample .default) 0 firstRenewal s ∧ s.pc.pastLoop = false ∧
      (sampleClaim 1).record.messageRef ∈ s.books.leaseRefs ∧
      ∃ c ∈ coverings (sample .default) 0 firstRenewal,
        (sampleClaim 1).record.messageRef ∈ c.2 ∧ s.now < c.1 + DispatcherSettings.default.lease := by
  let s := Machine.reach (timedNext (sample .default)) (RunState.start .default 0) firstRenewal
  have hbuilt : Built .default (sample .default) := ⟨sampleWorker, .inl (build_default sampleWorker)⟩
  have hrun : TimedRun (sample .default) 0 firstRenewal s := Machine.path_reach (by decide)
  have hl : s.pc.pastLoop = false := by decide
  have hm : (sampleClaim 1).record.messageRef ∈ s.books.leaseRefs := by decide
  obtain ⟨c, hc, hmem, -, -, hlease⟩ := leases_renewed_in_time hbuilt hrun hl hm
  exact ⟨s, hrun, hl, hm, c, hc, hmem, hlease (by decide)⟩

end Reliar.Dispatcher
