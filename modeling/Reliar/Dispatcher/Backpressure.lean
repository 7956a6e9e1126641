/-
# `Reliar.Dispatcher.Backpressure` — `max_in_flight` bounds what a worker holds

The claim branch asks for as many rows as `max_in_flight` leaves room for, and
the room is computed at the loop head, before an await.  It is still there when
the records arrive: only `acquire` adds to the collections, every other move
takes rows out of them or hands them from one to the next.

The number that never grows is `Books.load`, which counts the tasks of the join
set and not the entries of `outstanding`: at shutdown a task may lose its entry
and still record an outcome later.  Inside the loop the two agree.
-/
import Reliar.Dispatcher.Conservation

namespace Reliar.Dispatcher

open Reliar.Core Reliar.Outbox Relation

/-! ## The load -/

namespace Books

/-- Everything a worker holds: rows not spawned, tasks not joined, outcomes not written. -/
def load (b : Books) : Nat :=
  b.pending.length + b.inFlight.length + b.unwrittenComplete.length + b.unwrittenFail.length

/-- The publish tasks that have not ended. -/
def unfinished (b : Books) : List PublishTask := b.inFlight.filter fun t => !t.phase.ended

theorem unfinished_le_load (b : Books) : b.unfinished.length ≤ b.load := by
  have h := List.length_filter_le (fun t => !t.phase.ended) b.inFlight
  simp only [unfinished, load]
  omega

/-- A task that waits holds no permit itself. -/
theorem permitsHeld_lt_load {b : Books} {t : PublishTask} (ht : t ∈ b.inFlight)
    (hw : t.phase = .waiting) : b.permitsHeld < b.load := by
  have h : b.permitsHeld < b.inFlight.length :=
    List.length_filter_lt_length_iff_exists.mpr ⟨t, ht, by simp [hw]⟩
  simp only [load]
  omega

theorem load_recordOne_le (retry : RetryPolicy) (now : Instant) (unit : ℚ) (b : Books)
    (t : PublishTask) : (recordOne retry now unit b t).load ≤ b.load + 1 := by
  simp only [recordOne]
  split <;> simp only [load, removeOutstanding, List.length_append, List.length_singleton] <;> omega

theorem load_takeTask_lt {b : Books} {t : PublishTask} (ht : t ∈ b.inFlight) :
    (b.takeTask t.id).load < b.load := by
  have h : (b.inFlight.filter fun t' => t'.id ≠ t.id).length < b.inFlight.length :=
    List.length_filter_lt_length_iff_exists.mpr ⟨t, ht, by simp⟩
  simp only [load, takeTask]
  omega

end Books

section
variable {d : OutboxDispatcher} {now : Instant} {shut : Bool} {b b' : Books}

/-- A move loads the worker by what it acquires, and by nothing else. -/
theorem load_of_move (hm : Move d now shut b b') :
    b'.load + b.hist.acquired.length ≤ b.load + b'.hist.acquired.length := by
  cases hm with
  | receive _ records =>
      simp only [Books.load, Books.receive, List.length_append, List.length_map]
      omega
  | spawn _ hp =>
      simp only [Books.load, Books.spawn, hp, List.length_append, List.length_cons,
        List.length_nil]
      omega
  | phase | resolve =>
      simp only [Books.load, Books.setPhase, Books.resolve, List.length_map]
      exact le_refl _
  | @record t unit ht =>
      have hrec := Books.load_recordOne_le d.retry now unit (b.takeTask t.id) t
      have htake := Books.load_takeTask_lt ht
      have hacq : (Books.recordOne d.retry now unit (b.takeTask t.id) t).hist.acquired =
          b.hist.acquired := by
        simp only [Books.recordOne]
        split <;> rfl
      rw [hacq]
      omega
  | clearComplete =>
      simp only [Books.load, Books.clearComplete, List.length_nil]
      omega
  | clearFail | drainFail =>
      simp only [Books.load, Books.clearFail, Books.drainFail, List.length_nil]
      omega
  | expireComplete =>
      have h := List.length_filter_le (Books.keeps d.settings.lease now) b.unwrittenComplete
      simp only [Books.load, Books.expireComplete]
      omega
  | expireFail =>
      have h := List.length_filter_le (Books.keeps d.settings.lease now) b.unwrittenFail
      simp only [Books.load, Books.expireFail]
      omega
  | dropNotStarted lagging _ hp =>
      simp only [Books.load, Books.dropNotStarted, hp, List.length_map]
      exact le_refl _

theorem load_of_moves (h : ReflTransGen (Move d now shut) b b') :
    b'.load + b.hist.acquired.length ≤ b.load + b'.hist.acquired.length := by
  induction h with
  | refl => exact le_refl _
  | tail _ hm ih =>
      have hstep := load_of_move hm
      omega

/-- Inside the loop the tasks of the join set are those of `outstanding`. -/
theorem Books.Kept.load_eq (h : b.Kept d) (hp : b.pending = []) : b.load = b.outstandingCount := by
  have hlen : b.inFlight.length = b.outstanding.length := by
    simpa only [List.length_map] using h.tasks.length_eq
  simp only [Books.load, Books.outstandingCount, hp, hlen, List.length_nil, zero_add]

/-- `outstanding` never holds more than the join set does. -/
theorem Books.Sound.outstandingCount_le (h : b.Sound d) : b.outstandingCount ≤ b.load := by
  have hsub : b.outstanding.map (·.id) ⊆ b.inFlight.map (·.id) := by
    intro id hid
    obtain ⟨o, ho, rfl⟩ := List.mem_map.mp hid
    obtain ⟨t, ht, hto, -⟩ := h.outstanding_task o ho
    exact List.mem_map.mpr ⟨t, ht, hto⟩
  have hle := (h.outstanding_nodup.subperm hsub).length_le
  simp only [List.length_map] at hle
  simp only [Books.load, Books.outstandingCount]
  omega

end

/-! ## Only the claim branch acquires -/

section
variable {E : Type} {d : OutboxDispatcher} {s s' : RunState E} {e : Event E}

namespace Books

@[simp] theorem spawnReady_acquired (b : Books) :
    b.spawnReady.hist.acquired = b.hist.acquired := by
  suffices h : ∀ (rows : List PendingRow) (b : Books),
      (rows.foldl spawn b).hist.acquired = b.hist.acquired from h _ _
  intro rows
  induction rows with
  | nil => intro b; rfl
  | cons row rest ih => intro b; exact ih (b.spawn row)

@[simp] theorem join_acquired (retry : RetryPolicy) (now : Instant) :
    ∀ (joined : List (TaskId × ℚ)) (b : Books),
      (b.join retry now joined).hist.acquired = b.hist.acquired
  | [], _ => rfl
  | j :: rest, b => by
      have hrest : (b.join retry now (j :: rest)).hist.acquired =
          (b.joinOne retry now j).hist.acquired := join_acquired retry now rest _
      rw [hrest, joinOne]
      split
      · simp only [recordOne]
        split <;> rfl
      · rfl

end Books

@[simp] theorem failHalf_acquired (lease : Duration) (now : Instant) (anyFailed : Bool)
    (b : Books) : (failHalf (E := E) lease now anyFailed b).1.hist.acquired = b.hist.acquired := by
  simp only [failHalf]; split <;> rfl

@[simp] theorem startRound_acquired (lease : Duration) (now : Instant) (b : Books) :
    (startRound (E := E) lease now b).1.hist.acquired = b.hist.acquired := by
  unfold startRound; split <;> simp

@[simp] theorem resumeRound_acquired [Classify E] (lease : Duration) (now : Instant) (b : Books)
    (round : Round) (a : Answer E) :
    (resumeRound lease now b round a).1.hist.acquired = b.hist.acquired := by
  unfold resumeRound; split <;> try split
  all_goals simp [Books.clearComplete, Books.clearFail, Books.expireFail]

theorem afterFinal_acquired (p : Books × Progress E) :
    (afterFinal s p).books.hist.acquired = p.1.hist.acquired := by
  simp only [afterFinal]; split
  · rfl
  · rw [finalize_books]; rfl

theorem leaveDrain_acquired (permanent : Option E) :
    (leaveDrain d s permanent).books.hist.acquired = s.books.hist.acquired := by
  cases permanent with
  | none => rw [leaveDrain, afterFinal_acquired, startRound_acquired]
  | some e => rw [leaveDrain, finalize_books]; rfl

theorem taskStep_acquired {t : PublishTask} {b : Books} (h : taskStep d s t e = some b) :
    b.hist.acquired = s.books.hist.acquired := by
  cases e <;> simp only [taskStep, reduceCtorEq, Option.ite_none_right_eq_some,
    Option.ite_none_left_eq_some, Option.some.injEq] at h
  case publishReturns =>
    split at h
    · simp only [Option.ite_none_right_eq_some, Option.some.injEq] at h
      obtain ⟨-, rfl⟩ := h
      rfl
    · cases h
  all_goals obtain ⟨-, rfl⟩ := h; rfl

theorem claim_acquired (b : Books) (records : List Claimed) :
    (b.claim records).hist.acquired = b.hist.acquired ++ records := by
  simp [Books.claim]

/-- What the handler of an acquire takes on: the records the store returned, or nothing. -/
theorem afterBody_acquired [Classify E] (call : Call) (a : Answer E) :
    (afterBody d s call a).books.hist.acquired = s.books.hist.acquired ∨
      ∃ request records poisoned, call.op = .acquire request ∧
        call.applied = some (.batch records poisoned) ∧
        (afterBody d s call a).books = s.books.claim records ∧
        (afterBody d s call a).pc = .head := by
  unfold afterBody
  split
  · rename_i request records poisoned hop happlied
    split
    · exact .inl rfl
    · exact .inr ⟨request, records, poisoned, hop, happlied, rfl, rfl⟩
  · split <;> exact .inl rfl
  · exact .inl rfl
  · exact .inl rfl

/-- A step acquires nothing, or it is the claim branch's and takes what the store returned. -/
theorem acquired_of_step [Classify E] (h : Step d s e s') :
    s'.books.hist.acquired = s.books.hist.acquired ∨
      ∃ call request records poisoned, s.pc = .body call ∧ call.op = .acquire request ∧
        call.applied = some (.batch records poisoned) ∧
        s'.books = s.books.claim records ∧ s'.pc = .head := by
  cases h with
  | tick | cancel | crash | apply | enter | fireCancel | fireLease | fireStats | fireClaim
  | answerReleasing | answerRelease | drainStay => exact .inl rfl
  | task _ _ hb => exact .inl (taskStep_acquired hb)
  | fireJoin => exact .inl (by simp)
  | retryWakes | answerRetry | answerDrain | drainJoin => exact .inl (by simp)
  | @answerBody call a hpc =>
      rcases afterBody_acquired (d := d) (s := s) call a with hsame | ⟨request, records, poisoned, h⟩
      · exact .inl hsame
      · exact .inr ⟨call, request, records, poisoned, hpc, h⟩
  | answerFinal => exact .inl (by rw [afterFinal_acquired, resumeRound_acquired])
  | stop =>
      simp only [shutdown]
      split <;> exact .inl rfl
  | drainLeave | drainDeadline => exact .inl (leaveDrain_acquired _)

/-! ### `acquire` is called nowhere else -/

/-- An awaited `acquire` is the claim branch's. -/
def RunState.ClaimsInBody (s : RunState E) : Prop :=
  ∀ call request, s.pc.call? = some call → call.op = .acquire request → s.pc = .body call

/-- A round writes outcomes. -/
theorem Round.Carries.not_acquire {b : Books} {round : Round} {request : AcquireRequest}
    (h : round.Carries b) : round.call.op ≠ .acquire request := by
  intro hop
  cases round with
  | completing call => exact StoreCall.noConfusion (hop.symm.trans h)
  | failing anyFailed call => exact StoreCall.noConfusion (hop.symm.trans h)

/-- Outside the rounds and the loop's handlers, `run` awaits releases only. -/
def RunState.Releases (s : RunState E) : Prop :=
  ∀ call, (s.pc = .releasing call ∨ ∃ p, s.pc = .finalRelease p call) →
    ∃ refs, call.op = .release refs

theorem claimsInBody_of_pc (hs : s.Carries) (hrel : s.Releases) : s.ClaimsInBody := by
  intro call request hcall hop
  cases hpc : s.pc with
  | body call' =>
      simp only [hpc, Pc.call?, Option.some.injEq] at hcall
      rw [hcall]
  | releasing call' =>
      simp only [hpc, Pc.call?, Option.some.injEq] at hcall
      subst hcall
      obtain ⟨refs, hrefs⟩ := hrel call' (.inl hpc)
      exact StoreCall.noConfusion (hop.symm.trans hrefs)
  | finalRelease p call' =>
      simp only [hpc, Pc.call?, Option.some.injEq] at hcall
      subst hcall
      obtain ⟨refs, hrefs⟩ := hrel call' (.inr ⟨p, hpc⟩)
      exact StoreCall.noConfusion (hop.symm.trans hrefs)
  | select at_ fut =>
      cases fut with
      | disabled | sleeping => simp [hpc, Pc.call?] at hcall
      | running round =>
          simp only [hpc, Pc.call?, Option.some.injEq] at hcall
          subst hcall
          exact absurd hop (hs round (by rw [hpc]; rfl)).not_acquire
  | drainRound deadline round =>
      simp only [hpc, Pc.call?, Option.some.injEq] at hcall
      subst hcall
      exact absurd hop (hs round (by rw [hpc]; rfl)).not_acquire
  | finalRound round =>
      simp only [hpc, Pc.call?, Option.some.injEq] at hcall
      subst hcall
      exact absurd hop (hs round (by rw [hpc]; rfl)).not_acquire
  | head | stopping | drainHead | drainSelect | returned | crashed =>
      simp [hpc, Pc.call?] at hcall

theorem finalize_releases (permanent : Option E) : (finalize s permanent).Releases := by
  simp only [finalize]
  split
  · rintro call (h | ⟨p, h⟩) <;> cases h
  · rintro call (h | ⟨p, h⟩)
    · cases h
    · cases h
      exact ⟨_, rfl⟩

theorem afterFinal_releases (p : Books × Progress E) : (afterFinal s p).Releases := by
  simp only [afterFinal]
  split
  · rintro call (h | ⟨p, h⟩) <;> cases h
  · exact finalize_releases _

theorem leaveDrain_releases (permanent : Option E) : (leaveDrain d s permanent).Releases := by
  cases permanent with
  | none => exact afterFinal_releases _
  | some e => exact finalize_releases _

/-- No release is awaited inside the loop. -/
theorem releases_of_inLoop (h : s.pc.inLoop = true) : s.Releases := by
  rintro call (hpc | ⟨p, hpc⟩) <;> rw [hpc] at h <;> cases h

theorem releases_of_step [Classify E] (h : Step d s e s') (hs : s.Releases) : s'.Releases := by
  cases h with
  | tick | cancel | task => exact hs
  | @apply reply call hc hn hr =>
      rintro call' hpc'
      cases hpc : s.pc <;>
        simp only [hpc, Pc.call?, Pc.setCall, reduceCtorEq, false_or, or_false, exists_const,
          Pc.releasing.injEq, Pc.finalRelease.injEq, Option.some.injEq] at hc hpc'
      case select at_ fut => cases fut <;> simp at hpc'
      case releasing =>
        subst hc hpc'
        obtain ⟨refs, hrefs⟩ := hs _ (.inl hpc)
        exact ⟨refs, hrefs⟩
      case finalRelease p call₀ =>
        obtain ⟨p', -, rfl⟩ := hpc'
        subst hc
        obtain ⟨refs, hrefs⟩ := hs _ (.inr ⟨p, hpc⟩)
        exact ⟨refs, hrefs⟩
  | crash | answerReleasing | answerRelease | drainStay =>
      rintro call (h | ⟨p, h⟩) <;> cases h
  | enter | fireCancel | fireJoin | fireLease | fireStats | fireClaim =>
      exact releases_of_inLoop rfl
  | retryWakes | answerRetry => exact releases_of_inLoop (by
      simp only [afterRetry, finishRetry]
      split <;> try split
      all_goals rfl)
  | answerBody => exact releases_of_inLoop (afterBody_inLoop _ _)
  | answerDrain | drainJoin =>
      simp only [afterDrainRound]
      split <;> rintro call (h | ⟨p, h⟩) <;> cases h
  | answerFinal => exact afterFinal_releases _
  | stop =>
      simp only [shutdown, beginDrain]
      split
      · rintro call (h | ⟨p, h⟩) <;> cases h
      · rintro call (h | ⟨p, h⟩)
        · cases h
          exact ⟨_, rfl⟩
        · cases h
  | drainLeave | drainDeadline => exact leaveDrain_releases _

theorem Run.releases [Classify E] {now : Instant} {es : List (Event E)} (h : Run d now es s) :
    s.Releases :=
  h.inv (P := RunState.Releases) (fun hs he => releases_of_step (step_of_next he) hs)
    (releases_of_inLoop rfl)

theorem Run.claimsInBody [Classify E] {now : Instant} {es : List (Event E)} (h : Run d now es s) :
    s.ClaimsInBody := claimsInBody_of_pc (Run.carries h) (Run.releases h)

end

/-! ## Runs over a store that keeps to the request -/

section
variable {E : Type}

/-- The store answers `acquire` with at most the requested number of records. -/
def WithinRequest (s : RunState E) : Event E → Prop
  | .apply (.batch records _) =>
      ∀ call request, s.pc.call? = some call → call.op = .acquire request →
        records.length ≤ request.batchSize
  | _ => True

/-- A run over such a store. -/
abbrev BoundedRun [Classify E] (d : OutboxDispatcher) (now : Instant) (es : List (Event E))
    (s : RunState E) : Prop :=
  Machine.Path (fun s e s' => Machine.Next (next d) s e s' ∧ WithinRequest s e)
    (RunState.start d.settings now) es s

/-- The load is within the bound, and what the claim branch asks for still fits on top of it. -/
structure RunState.Room (d : OutboxDispatcher) (s : RunState E) : Prop where
  load : s.books.load ≤ d.settings.maxInFlight
  select : ∀ at_ fut, s.pc = .select at_ fut → s.books.load ≤ at_.outstandingCount
  request : ∀ call request, s.pc = .body call → call.op = .acquire request →
    s.books.load + request.batchSize ≤ d.settings.maxInFlight ∧
      1 ≤ request.batchSize ∧ request.batchSize ≤ d.settings.batchSize
  reply : ∀ call request records poisoned, s.pc = .body call → call.op = .acquire request →
    call.applied = some (.batch records poisoned) → records.length ≤ request.batchSize

variable {d : OutboxDispatcher} {s s' : RunState E} {e : Event E}

theorem RunState.Room.start (now : Instant) : (RunState.start (E := E) d.settings now).Room d := by
  refine ⟨Nat.zero_le _, ?_, ?_, ?_⟩
  · intro at_ fut hpc
    cases hpc
  · intro call request hpc
    cases hpc
  · intro call request records poisoned hpc
    cases hpc

/-- Where no branch of the loop's `select!` is pending and no handler runs, the load is all there
is to say. -/
theorem RunState.Room.of_pc (hl : s.books.load ≤ d.settings.maxInFlight)
    (hsel : ∀ at_ fut, s.pc ≠ .select at_ fut) (hbody : ∀ call, s.pc ≠ .body call) : s.Room d where
  load := hl
  select at_ fut hpc := absurd hpc (hsel at_ fut)
  request call _ hpc _ := absurd hpc (hbody call)
  reply call _ _ _ hpc _ _ := absurd hpc (hbody call)

theorem RunState.Room.of_outside (hl : s.books.load ≤ d.settings.maxInFlight)
    (hout : s.pc.inLoop = false) : s.Room d := by
  refine .of_pc hl ?_ ?_
  · intro at_ fut hpc
    rw [hpc] at hout
    cases hout
  · intro call hpc
    rw [hpc] at hout
    cases hout

/-- The handlers of the lease and stats branches ask for no rows. -/
theorem RunState.Room.of_body {call : Call} (hl : s.books.load ≤ d.settings.maxInFlight)
    (hpc : s.pc = .body call) (hop : ∀ request, call.op ≠ .acquire request) : s.Room d where
  load := hl
  select at_ fut h := by rw [hpc] at h; cases h
  request call' request h hop' := by
    rw [hpc] at h
    cases h
    exact absurd hop' (hop request)
  reply call' request _ _ h hop' _ := by
    rw [hpc] at h
    cases h
    exact absurd hop' (hop request)

/-- A round that is due leaves the loop's locals as they are. -/
theorem RunState.Room.afterRetry {at_ : LoopHead} {p : Books × Progress E}
    (hl : p.1.load ≤ s.books.load) (hat : s.books.load ≤ at_.outstandingCount)
    (hroom : s.Room d) : (afterRetry d s at_ p).Room d := by
  have hbooks : (Dispatcher.afterRetry d s at_ p).books.load ≤ s.books.load := by
    rw [afterRetry_books]
    exact hl
  have hmax := hbooks.trans hroom.load
  cases hp : p.2 with
  | awaiting round =>
      simp only [Dispatcher.afterRetry, hp] at hmax ⊢
      refine ⟨hmax, ?_, ?_, ?_⟩
      · intro at' fut hpc
        cases hpc
        exact hl.trans hat
      · intro call request hpc
        cases hpc
      · intro call request records poisoned hpc
        cases hpc
  | done anyFailed permanent =>
      refine .of_pc hmax ?_ ?_
      · intro at' fut hpc
        cases permanent <;> simp [Dispatcher.afterRetry, hp, finishRetry] at hpc
      · intro call hpc
        cases permanent <;> simp [Dispatcher.afterRetry, hp, finishRetry] at hpc

/-- The handler of an acquire ends at the next loop head, or out of the loop. -/
theorem afterBody_pc [Classify E] (call : Call) (a : Answer E) :
    (afterBody d s call a).pc = .head ∨ (afterBody d s call a).pc = .stopping := by
  unfold afterBody
  split <;> try split
  all_goals first | exact .inl rfl | exact .inr rfl

/-- What the claim branch asks for fits into the room of its loop head. -/
theorem claimRequest_fits {at_ : LoopHead} (hbatch : d.settings.batchSize ≠ 0)
    (hcount : at_.outstandingCount < d.settings.maxInFlight) {load : Nat}
    (hload : load ≤ at_.outstandingCount) :
    load + (claimRequest d at_).batchSize ≤ d.settings.maxInFlight ∧
      1 ≤ (claimRequest d at_).batchSize ∧
      (claimRequest d at_).batchSize ≤ d.settings.batchSize := by
  have hu32 : 1 ≤ U32_MAX := by decide
  simp only [claimRequest]
  omega

/-- Carrying out a call keeps the room, as long as the store keeps to the request. -/
theorem RunState.Room.apply {reply : Reply} {call : Call} (hroom : s.Room d)
    (hc : s.pc.call? = some call) (hwithin : WithinRequest s (.apply reply)) :
    ({ s with pc := s.pc.setCall { call with applied := some reply } } : RunState E).Room d := by
  have hselect : ∀ {at_ fut}, s.pc.setCall { call with applied := some reply } = .select at_ fut →
      ∃ fut', s.pc = .select at_ fut' := by
    intro at_ fut hpc
    cases hs : s.pc <;> simp only [hs, Pc.setCall, reduceCtorEq] at hpc
    case select at₀ fut₀ =>
      cases fut₀ <;> simp only [Pc.select.injEq] at hpc <;> exact ⟨_, by rw [hpc.1]⟩
  refine ⟨hroom.load, ?_, ?_, ?_⟩
  · intro at_ fut hpc
    obtain ⟨fut', hpc'⟩ := hselect hpc
    exact hroom.select at_ fut' hpc'
  · intro call' request hpc hop
    obtain ⟨hpc', rfl⟩ := setCall_body hc hpc
    exact hroom.request call request hpc' hop
  · intro call' request records poisoned hpc hop happlied
    obtain ⟨hpc', rfl⟩ := setCall_body hc hpc
    cases happlied
    exact hwithin call request hc hop

/-- A step of the loop's `acquire` handler fills the room it was promised. -/
theorem load_le_of_step [Classify E] (h : Step d s e s') (hp : s.books.pending = [])
    (hroom : s.Room d) :
    s'.books.load ≤ d.settings.maxInFlight ∧
      ((∀ call, s.pc ≠ .body call) → s'.books.load ≤ s.books.load) := by
  have hmoves := load_of_moves (moves_of_step h hp)
  have hload := hroom.load
  rcases acquired_of_step h with hsame | ⟨call, request, records, poisoned, hpc, hop, happlied, hb, -⟩
  · rw [hsame] at hmoves
    exact ⟨by omega, fun _ => by omega⟩
  · have hrecords := hroom.reply call request records poisoned hpc hop happlied
    have hfits := (hroom.request call request hpc hop).1
    rw [hb] at hmoves ⊢
    rw [claim_acquired, List.length_append] at hmoves
    exact ⟨by omega, fun hno => absurd hpc (hno call)⟩

theorem room_of_step [Classify E] (hbatch : d.settings.batchSize ≠ 0) (h : Step d s e s')
    (hwithin : WithinRequest s e) (hk : s.Keeps d) (hroom : s.Room d) : s'.Room d := by
  obtain ⟨hmax, hle⟩ := load_le_of_step h hk.2.1 hroom
  cases h with
  | tick | cancel => exact ⟨hroom.load, hroom.select, hroom.request, hroom.reply⟩
  | task _ _ hb =>
      -- publish tasks run beside every suspension and add nothing
      have hmoves := load_of_moves (moves_of_step (.task ‹_› ‹_› hb) hk.2.1)
      simp only [taskStep_acquired hb] at hmoves
      refine ⟨hmax, ?_, ?_, hroom.reply⟩
      · intro at_ fut hpc
        have := hroom.select at_ fut hpc
        exact le_trans (by simpa using hmoves) this
      · intro call request hpc hop
        obtain ⟨hfits, hpos, hcap⟩ := hroom.request call request hpc hop
        refine ⟨le_trans ?_ hfits, hpos, hcap⟩
        simpa using hmoves
  | apply hc => exact hroom.apply hc hwithin
  | enter hpc =>
      have hkept := hk.1.2 (hk.2.2 (by rw [hpc]; rfl))
      refine ⟨hmax, ?_, ?_, ?_⟩
      · intro at_ fut h
        cases h
        exact le_of_eq (hkept.load_eq hk.2.1)
      · intro call request h
        cases h
      · intro call request records poisoned h
        cases h
  | crash | fireCancel | fireJoin | answerReleasing | answerRelease | drainStay =>
      exact .of_pc hmax (fun _ _ h => by cases h) (fun _ h => by cases h)
  | fireLease | fireStats => exact .of_body hmax rfl (fun _ h => by cases h)
  | @fireClaim at_ fut hpc hb hr =>
      simp only [RunState.claimReady, Bool.and_eq_true, decide_eq_true_eq] at hr
      have hfits := claimRequest_fits hbatch hr.1 (hroom.select at_ fut hpc)
      refine ⟨hmax, ?_, ?_, ?_⟩
      · intro at' fut' h
        cases h
      · intro call request h hop
        cases h
        cases hop
        exact hfits
      · intro call request records poisoned h hop happlied
        cases h
        cases happlied
  | @retryWakes at_ hpc =>
      refine .afterRetry ?_ (hroom.select at_ _ hpc) hroom
      simpa using hle (fun call h => by rw [hpc] at h; cases h)
  | @answerRetry at_ round a hpc =>
      refine .afterRetry ?_ (hroom.select at_ _ hpc) hroom
      simpa using hle (fun call h => by rw [hpc] at h; cases h)
  | @answerBody call a =>
      refine .of_pc hmax ?_ ?_
      · intro at_ fut h
        rcases afterBody_pc (d := d) (s := s) call a with hpc | hpc <;> rw [hpc] at h <;> cases h
      · intro call' h
        rcases afterBody_pc (d := d) (s := s) call a with hpc | hpc <;> rw [hpc] at h <;> cases h
  | answerDrain | drainJoin => exact .of_outside hmax (afterDrainRound_inLoop _ _)
  | answerFinal => exact .of_outside hmax (afterFinal_inLoop _)
  | stop => exact .of_outside hmax (shutdown_inLoop _)
  | drainLeave | drainDeadline => exact .of_outside hmax (leaveDrain_inLoop _)

theorem BoundedRun.run [Classify E] {now : Instant} {es : List (Event E)}
    (h : BoundedRun d now es s) : Run d now es s := h.mono fun he => he.1

theorem BoundedRun.room [Classify E] {now : Instant} {es : List (Event E)}
    (hbatch : d.settings.batchSize ≠ 0) (h : BoundedRun d now es s) : s.Room d := by
  have hboth : s.Keeps d ∧ s.Room d := by
    refine h.inv (P := fun s => s.Keeps d ∧ s.Room d) ?_ ⟨⟨⟨.empty d, fun _ => .empty d⟩, rfl,
      fun _ => rfl⟩, .start now⟩
    intro s e s' hs he
    exact ⟨keeps_of_next he.1 hs.1, room_of_step hbatch (step_of_next he.1) he.2 hs.1 hs.2⟩
  exact hboth.2

/-- A task that waits while a permit is free gets it as soon as it runs. -/
theorem permit_granted [Classify E] {t : PublishTask} (hs : s.books.Sound d)
    (hlive : s.pc.live = true) (ht : t ∈ s.books.inFlight) (hw : t.phase = .waiting)
    (hfree : s.books.permitsHeld < d.settings.maxInFlight) :
    next d s (.permit t.id) =
      some { s with books := s.books.setPhase t.id (.publishing s.now) } := by
  have hcontrol : control d s (.permit t.id) = none := by
    cases hpc : s.pc <;> simp [control, selectStep, hpc]
  have hfind : (s.books.inFlight.find? fun t' => decide (t'.id = t.id)) = some t := by
    cases hf : s.books.inFlight.find? fun t' => decide (t'.id = t.id) with
    | none => simpa using List.find?_eq_none.mp hf t ht
    | some t' =>
        have hid : t'.id = t.id := by simpa using List.find?_some hf
        rw [hs.task_unique (List.mem_of_find?_eq_some hf) ht hid]
  simp only [next, hlive, if_true, hcontrol, Option.none_or, environment, Event.task?,
    Option.bind_some, hfind, taskStep, hw, hfree, and_self, Option.map_some]

/-! ## Backpressure -/

/-- `build` keeps the settings it accepts, and accepts no empty batches. -/
theorem Built.settings {settings : DispatcherSettings} (h : Built settings d) :
    d.settings = settings ∧ settings.batchSize ≠ 0 := by
  obtain ⟨hv, hsettings⟩ := h.valid
  refine ⟨hsettings, fun hzero => ?_⟩
  unfold validateShared at hv
  split at hv
  · cases hv
  · cases hv

/-- For all settings `build` accepts, every store that keeps to the request and every run, in every
state: the worker holds at most `max_in_flight` rows, an `acquire` asks for at least one row and
at most `batch_size`, and at most `max_in_flight` publish tasks are unfinished, so that a task
that waits for a permit finds one free. -/
theorem backpressure [Classify E] {settings : DispatcherSettings} (hbuilt : Built settings d)
    {now : Instant} {es : List (Event E)} (h : BoundedRun d now es s) :
    s.books.outstandingCount ≤ settings.maxInFlight ∧
      (∀ call request, s.pc.call? = some call → call.op = .acquire request →
        1 ≤ request.batchSize ∧ request.batchSize ≤ settings.batchSize) ∧
      s.books.unfinished.length ≤ settings.maxInFlight ∧
      ∀ t ∈ s.books.inFlight, t.phase = .waiting →
        s.books.permitsHeld < settings.maxInFlight ∧
          (s.pc.live = true → next d s (.permit t.id) =
            some { s with books := s.books.setPhase t.id (.publishing s.now) }) := by
  obtain ⟨rfl, hbatch⟩ := hbuilt.settings
  have hroom := BoundedRun.room hbatch h
  have hsound := (Run.settled h.run).sound
  refine ⟨hsound.outstandingCount_le.trans hroom.load, ?_,
    s.books.unfinished_le_load.trans hroom.load, ?_⟩
  · intro call request hcall hop
    have hpc := Run.claimsInBody h.run call request hcall hop
    exact (hroom.request call request hpc hop).2
  · intro t ht hw
    have hfree := (Books.permitsHeld_lt_load ht hw).trans_le hroom.load
    exact ⟨hfree, fun hlive => permit_granted hsound hlive ht hw hfree⟩

end

/-- After the claim of `oneClaim` one task waits, and it finds a permit. -/
theorem backpressure_one_claim :
    ∃ s : RunState FailureKind, BoundedRun (sample .default) 0 oneClaim s ∧
      s.books.inFlight.map (·.phase) = [.waiting] ∧
      s.books.permitsHeld < DispatcherSettings.default.maxInFlight := by
  have hbuilt : Built .default (sample .default) :=
    ⟨sampleWorker, .inl (build_default sampleWorker)⟩
  have hrun : BoundedRun (sample .default) 0 oneClaim
      (Machine.reach (next (sample .default)) (RunState.start .default 0) oneClaim) := by
    refine .cons ⟨rfl, trivial⟩ (.cons ⟨rfl, trivial⟩ (.cons ⟨rfl, ?_⟩ (.single ⟨rfl, trivial⟩)))
    intro call request hcall hop
    cases hcall
    cases hop
    decide
  have hphase : (Machine.reach (next (sample .default)) (RunState.start .default 0)
      oneClaim).books.inFlight.map (·.phase) = [.waiting] := by decide
  refine ⟨_, hrun, hphase, ?_⟩
  obtain ⟨t, ht, hw⟩ := List.mem_map.mp (hphase ▸ List.mem_singleton.mpr rfl)
  exact ((backpressure hbuilt hrun).2.2.2 t ht hw).1

end Reliar.Dispatcher
