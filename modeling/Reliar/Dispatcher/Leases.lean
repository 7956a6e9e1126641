/-
# `Reliar.Dispatcher.Leases` — a clean shutdown leaves no lease behind

`run` over a store, with others using the store beside it.  Every lease of the
worker belongs to a claim on its way out of `run` (`Books` and pc), or to a batch
that the store has handed out and `run` has not looked at yet; when `run` has
returned there is neither.

A round that `select!` drops may have taken effect or not: its entries stay on
their lists either way, and writing a row that is not leased any more does
nothing.
-/
import Reliar.Dispatcher.Shutdown

namespace Reliar.Dispatcher

open Reliar.Core Reliar.Outbox Reliar.Store

/-! ## `run` over a store -/

inductive SystemEvent (E : Type)
  | run (e : Event E)
  /-- anyone else at the store, time, or a dropped call arriving late -/
  | others

section
variable {E σ : Type}

def SystemEvent.run? : SystemEvent E → Option (Event E)
  | .run e => some e
  | .others => none

def SystemEvent.Clean : SystemEvent E → Prop
  | .run e => e.Clean
  | .others => True

variable [Classify E]

/-- A call is carried out by the store; nobody else takes a lease in this worker's name. -/
inductive SystemStep (S : LeaseStore σ) (d : OutboxDispatcher) :
    RunState E × σ → SystemEvent E → RunState E × σ → Prop
  | run {s s' : RunState E} {st : σ} {e : Event E} (h : next d s e = some s')
      (he : ∀ reply, e ≠ .apply reply) : SystemStep S d (s, st) (.run e) (s', st)
  | apply {s s' : RunState E} {st st' : σ} {call : Call} {reply : Reply}
      (h : next d s (.apply reply) = some s') (hc : s.pc.call? = some call)
      (hst : S.carriesOut st d.worker call.op reply st') :
      SystemStep S d (s, st) (.run (.apply reply)) (s', st')
  | others {s : RunState E} {st st' : σ}
      (h : ∀ m, S.locked st' d.worker m → S.locked st d.worker m) :
      SystemStep S d (s, st) .others (s, st')

/-- A run in which every awaited call returns `Ok` and no task panics. -/
abbrev CleanRun (S : LeaseStore σ) (d : OutboxDispatcher) (now : Instant) (st₀ : σ)
    (es : List (SystemEvent E)) (c : RunState E × σ) : Prop :=
  Machine.Path (fun c e c' => SystemStep S d c e c' ∧ e.Clean)
    (RunState.start d.settings now, st₀) es c

variable {S : LeaseStore σ} {d : OutboxDispatcher} {now : Instant} {st₀ st st' : σ}
  {es : List (SystemEvent E)} {s s' : RunState E} {e : Event E}

/-- What the dispatcher does in it. -/
theorem CleanRun.run {c : RunState E × σ} (h : CleanRun S d now st₀ es c) :
    Run d now (es.filterMap SystemEvent.run?) c.1 := by
  induction h with
  | nil => exact .nil _
  | @snoc c₁ c₂ es e _ he ih =>
      rw [List.filterMap_append]
      cases he.1 with
      | run hnext => exact .snoc ih hnext
      | apply hnext => exact .snoc ih hnext
      | others =>
          rw [List.filterMap_cons_none rfl, List.filterMap_nil, List.append_nil]
          exact ih

/-! ## Whose lease it is -/

/-- The row is in a batch the store has handed out, and `run` has not looked at. -/
def RunState.HandedOut (s : RunState E) (m : MessageRef) : Prop :=
  ∃ call request records poisoned, s.pc = .body call ∧ call.op = .acquire request ∧
    call.applied = some (.batch records poisoned) ∧ ∃ c ∈ records, c.record.messageRef = m

/-- Every lease is accounted for, and none is left on a row whose settling call has been carried
out. -/
structure Covered (S : LeaseStore σ) (d : OutboxDispatcher) (s : RunState E) (st : σ) : Prop where
  claims : ∀ m, S.locked st d.worker m → (∃ t, s.Holds (t, m)) ∨ s.HandedOut m
  settled : ∀ call, s.pc.call? = some call → call.applied.isSome = true →
    ∀ m ∈ call.op.settles, ¬ S.locked st d.worker m

/-- What holds of the dispatcher in a clean run. -/
structure Orderly (d : OutboxDispatcher) (s : RunState E) : Prop where
  faultless : s.Faultless
  aborted : s.books.Aborted
  settled : s.books.Settled d
  carries : s.Carries
  releases : s.Releases

omit [Classify E] in
theorem Orderly.claimsInBody (h : Orderly d s) : s.ClaimsInBody :=
  claimsInBody_of_pc h.carries h.releases

omit [Classify E] in
theorem Orderly.start (now : Instant) : Orderly d (RunState.start (E := E) d.settings now) where
  faultless := ⟨rfl, fun _ ht => (List.not_mem_nil ht).elim, trivial⟩
  aborted := fun _ ht => (List.not_mem_nil ht).elim
  settled := .empty d
  carries := RunState.carries_of_none rfl
  releases := releases_of_inLoop rfl

theorem Orderly.next (h : Orderly d s) (hnext : next d s e = some s') (hclean : e.Clean) :
    Orderly d s' := by
  have hstep := step_of_next hnext
  refine ⟨faultless_of_step hstep hclean h.settled.sound h.aborted h.faultless, ?_,
    settled_of_next hnext h.settled, carries_of_step hstep h.carries,
    releases_of_step hstep h.releases⟩
  have hboth : s'.books.Sound d ∧ s'.books.Aborted :=
    Moves.inv (P := fun b => b.Sound d ∧ b.Aborted)
      (fun hm hb => ⟨hb.1.move hm, hb.2.move hb.1 hm⟩) (moves_of_step hstep h.settled.pending)
      ⟨h.settled.sound, h.aborted⟩
  exact hboth.2

/-- A batch is looked at by the handler that asked for it. -/
theorem handedOut_of_step {m : MessageRef} (h : Step d s e s') (hclean : e.Clean)
    (he : ∀ reply, e ≠ .apply reply) (hm : s.HandedOut m) :
    s'.HandedOut m ∨ ∃ t, s'.Holds (t, m) := by
  obtain ⟨call, request, records, poisoned, hpc, hop, happ, c, hc, hcm⟩ := hm
  have hstay : s'.pc = s.pc → s'.HandedOut m := fun hpc' =>
    ⟨call, request, records, poisoned, hpc'.trans hpc, hop, happ, c, hc, hcm⟩
  cases h with
  | tick | cancel | task => exact .inl (hstay rfl)
  | crash => exact absurd hclean (fun h => h)
  | apply => exact absurd rfl (he _)
  | @answerBody call' a hpc' =>
      obtain rfl : call' = call := by
        rw [hpc] at hpc'
        cases hpc'
        rfl
      obtain rfl : a = .ok := hclean
      have hsome : (records.isEmpty && poisoned.isEmpty) = false := by
        cases records with
        | nil => cases hc
        | cons => rfl
      obtain ⟨t, ht⟩ := (s.books.claim_takesOn records).rows (.ofClaimed c)
        (List.mem_append_right _ (List.mem_map.mpr ⟨c, hc, rfl⟩))
      refine .inr ⟨t, ?_⟩
      rw [← hcm]
      simp only [afterBody, hop, happ, hsome, Bool.false_eq_true, if_false, RunState.Holds]
      exact ht
  | enter hpc' | fireCancel hpc' | fireJoin hpc' | fireLease hpc' | fireStats hpc'
  | retryWakes hpc' | fireClaim hpc' | answerRetry hpc' | answerReleasing hpc'
  | answerDrain hpc' | answerFinal hpc' | answerRelease hpc' | stop hpc' | drainLeave hpc'
  | drainStay hpc' | drainJoin hpc' | drainDeadline hpc' =>
      rw [hpc] at hpc'
      cases hpc'

/-- A step of `run` beside the store. -/
theorem Covered.run (h : Covered S d s st) (ho : Orderly d s) (hnext : next d s e = some s')
    (hclean : e.Clean) (he : ∀ reply, e ≠ .apply reply) : Covered S d s' st := by
  have hstep := step_of_next hnext
  refine ⟨?_, ?_⟩
  · intro m hm
    rcases h.claims m hm with ⟨t, ht⟩ | hbatch
    · rcases holds_of_step hstep hclean ho.settled.sound ho.aborted ho.faultless ho.carries
        ho.releases ht with ht | ⟨rfl, call, hcall, hsettles, -⟩
      · exact .inl ⟨t, ht⟩
      · exact absurd hm (h.settled call hcall (applied_of_ok hstep hcall) m hsettles)
    · exact (handedOut_of_step hstep hclean he hbatch).symm
  · intro call hcall happ
    rcases call_of_step hstep he with hpc | hissue
    · rw [hpc] at hcall
      exact h.settled call hcall happ
    · rw [hissue call hcall] at happ
      cases happ

omit [Classify E] in
theorem setCall_call {pc : Pc E} {call call' : Call} (h : pc.call? = some call) :
    (pc.setCall call').call? = some call' := by
  have hround : ∀ round : Round, (round.setCall call').call = call' := by
    intro round
    cases round <;> rfl
  cases pc with
  | select at_ fut =>
      cases fut with
      | running round => simp only [Pc.setCall, Pc.call?, hround]
      | _ => cases h
  | drainRound deadline round => simp only [Pc.setCall, Pc.call?, hround]
  | finalRound round => simp only [Pc.setCall, Pc.call?, hround]
  | body call₀ => rfl
  | releasing call₀ => rfl
  | finalRelease permanent call₀ => rfl
  | _ => cases h

/-- The store carries out the awaited call. -/
theorem Covered.apply {call : Call} {reply : Reply} (h : Covered S d s st) (ho : Orderly d s)
    (hnext : next d s (.apply reply) = some s') (hc : s.pc.call? = some call)
    (hst : S.carriesOut st d.worker call.op reply st') : Covered S d s' st' := by
  have hstep := step_of_next hnext
  cases hstep with
  | task hid => cases hid
  | @apply _ call' hc' hn hr =>
      obtain rfl : call' = call := Option.some.inj (hc'.symm.trans hc)
      have hnot : ∀ m, ¬ s.HandedOut m := by
        rintro m ⟨call₁, _, _, _, hpc, -, happ, -⟩
        rw [hpc] at hc
        cases hc
        rw [hn] at happ
        cases happ
      have hold : ∀ m, S.locked st d.worker m → ∃ t, RunState.Holds
          { s with pc := s.pc.setCall { call' with applied := some reply } } (t, m) := by
        intro m hm
        obtain ⟨t, ht⟩ := (h.claims m hm).resolve_right (hnot m)
        exact ⟨t, holds_of_apply hc ht⟩
      refine ⟨?_, ?_⟩
      · intro m hm
        by_cases hacq : ∃ request, call'.op = .acquire request
        · obtain ⟨request, hop⟩ := hacq
          rw [hop] at hst hr
          cases reply with
          | batch records poisoned =>
              rcases S.acquires hst hm with hm | hc
              · exact .inl (hold m hm)
              · have hpc := ho.claimsInBody call' request hc' hop
                refine .inr ⟨{ call' with applied := some (.batch records poisoned) }, request,
                  records, poisoned, ?_, hop, rfl, hc⟩
                simp only [hpc, Pc.setCall]
          | affected | stats => cases hr
        · push Not at hacq
          exact .inl (hold m (S.keeps hacq hst hm))
      · intro call₁ hcall₁ _ m hm
        rw [setCall_call hc] at hcall₁
        cases hcall₁
        exact S.settles hst hm

omit [Classify E] in
/-- Others at the store. -/
theorem Covered.others (h : Covered S d s st)
    (hst : ∀ m, S.locked st' d.worker m → S.locked st d.worker m) : Covered S d s st' :=
  ⟨fun m hm => h.claims m (hst m hm),
    fun call hcall happ m hm hlocked => h.settled call hcall happ m hm (hst m hlocked)⟩

theorem CleanRun.covered {c : RunState E × σ} (h : CleanRun S d now st₀ es c)
    (hfree : ∀ m, ¬ S.locked st₀ d.worker m) : Orderly d c.1 ∧ Covered S d c.1 c.2 := by
  refine h.inv (P := fun c => Orderly d c.1 ∧ Covered S d c.1 c.2) ?_ ?_
  · rintro c e c' ⟨ho, hc⟩ ⟨hstep, hclean⟩
    cases hstep with
    | run hnext he => exact ⟨ho.next hnext hclean, hc.run ho hnext hclean he⟩
    | apply hnext hcall hst => exact ⟨ho.next hnext hclean, hc.apply ho hnext hcall hst⟩
    | others hst => exact ⟨ho, hc.others hst⟩
  · exact ⟨.start now, fun m hm => absurd hm (hfree m), fun call hcall => by cases hcall⟩

/-! ## Every claim ends -/

/-- In the run `es`, a call that settles the claim spawned as task `t` was answered `Ok`. -/
def EndedIn (d : OutboxDispatcher) (now : Instant) (es : List (Event E)) (t : TaskId)
    (row : PendingRow) : Prop :=
  ∃ es₁ es₂ s, es = es₁ ++ .answer .ok :: es₂ ∧ Run d now es₁ s ∧
    (t, row) ∈ s.books.hist.spawned ∧ Closing s (t, row.message)

theorem EndedIn.snoc {es : List (Event E)} {t : TaskId} {row : PendingRow}
    (h : EndedIn d now es t row) (e : Event E) : EndedIn d now (es ++ [e]) t row := by
  obtain ⟨es₁, es₂, s, rfl, hrun, hspawned, hclosing⟩ := h
  exact ⟨es₁, es₂ ++ [e], s, by simp, hrun, hspawned, hclosing⟩

/-- A claim is on its way or has ended. -/
theorem Run.ends {es : List (Event E)} (h : Run d now es s) (hclean : ∀ e ∈ es, e.Clean)
    {t : TaskId} {row : PendingRow} (ht : (t, row) ∈ s.books.hist.spawned) :
    s.Holds (t, row.message) ∨ EndedIn d now es t row := by
  suffices hboth : Orderly d s ∧ ∀ t row, (t, row) ∈ s.books.hist.spawned →
      s.Holds (t, row.message) ∨ EndedIn d now es t row from hboth.2 t row ht
  clear ht
  induction h with
  | nil => exact ⟨.start now, fun t row ht => (List.not_mem_nil ht).elim⟩
  | @snoc s₁ s₂ es e hrun hnext ih =>
      obtain ⟨ho, hends⟩ := ih fun e' he' => hclean e' (List.mem_append_left _ he')
      have he := hclean e (List.mem_append_right _ (List.mem_singleton.mpr rfl))
      have hstep := step_of_next hnext
      have ho' := ho.next hnext he
      refine ⟨ho', fun t row ht => ?_⟩
      rcases spawned_of_step hstep ho.settled ho'.settled ht with hold | hnew
      · rcases hends t row hold with hheld | hended
        · rcases holds_of_step hstep he ho.settled.sound ho.aborted ho.faultless ho.carries
            ho.releases hheld with hheld | ⟨rfl, hclosing⟩
          · exact .inl hheld
          · exact .inr ⟨es, [], s₁, rfl, hrun, hold, hclosing⟩
        · exact .inr (hended.snoc e)
      · exact .inl hnew

theorem CleanRun.clean {c : RunState E × σ} (h : CleanRun S d now st₀ es c) :
    ∀ e ∈ es.filterMap SystemEvent.run?, e.Clean := by
  induction h with
  | nil => exact fun e he => (List.not_mem_nil he).elim
  | @snoc c₁ c₂ es e' _ he ih =>
      intro e hmem
      obtain ⟨e₁, he₁, hrun⟩ := List.mem_filterMap.mp hmem
      rcases List.mem_append.mp he₁ with he₁ | he₁
      · exact ih e (List.mem_filterMap.mpr ⟨e₁, he₁, hrun⟩)
      · rw [List.mem_singleton.mp he₁] at hrun
        cases e' with
        | run e'' =>
            cases hrun
            exact he.2
        | others => cases hrun

/-- When a clean run that began without a lease returns, it returns `Ok(())`, no row is locked by
its worker, and every claim it made has ended in a `complete`, a `fail` or a `release` that
returned `Ok`. -/
theorem clean_shutdown {result : Option E} (h : CleanRun S d now st₀ es (s, st))
    (hfree : ∀ m, ¬ S.locked st₀ d.worker m) (hret : s.pc = .returned result) :
    result = none ∧ (∀ m, ¬ S.locked st d.worker m) ∧
      s.books.hist.acquired.map PendingRow.ofClaimed = s.books.hist.spawned.map Prod.snd ∧
      ∀ t row, (t, row) ∈ s.books.hist.spawned →
        EndedIn d now (es.filterMap SystemEvent.run?) t row := by
  obtain ⟨ho, hcovered⟩ := h.covered hfree
  have hheld : ∀ x, ¬ s.Holds x := by
    intro x hx
    simp only [RunState.Holds, hret] at hx
  refine ⟨?_, ?_, ?_, ?_⟩
  · have hpc := ho.faultless.pc
    rw [hret] at hpc
    exact hpc
  · intro m hm
    rcases hcovered.claims m hm with ⟨t, ht⟩ | ⟨_, _, _, _, hpc, -⟩
    · exact hheld _ ht
    · rw [hret] at hpc
      cases hpc
  · have hrows := ho.settled.sound.rows
    rwa [ho.settled.pending, List.append_nil] at hrows
  · intro t row ht
    exact (Run.ends h.run h.clean ht).resolve_left (hheld _)

end

/-! ### One row, claimed and released -/

def storedRow : UniqueRows :=
  ⟨(Memory.insertRow (sampleEnvelope 1) none none .default).2, ⟨by decide, by decide⟩, by decide⟩

def leasedRow : UniqueRows :=
  ⟨(Memory.tryAcquire (claimRequest (sample .default) ⟨0, []⟩) storedRow.inner).2,
    ⟨by decide, by decide⟩, by decide⟩

def releasedRow : UniqueRows :=
  ⟨(Memory.tryRelease sampleWorker [⟨(sampleEnvelope 1).id, 0⟩] leasedRow.inner).2,
    ⟨by decide, by decide⟩, by decide⟩

/-- A row is claimed, cancellation comes before its publish has a permit, the row is released and
its task aborted. -/
def claimAndRelease : List (SystemEvent FailureKind) :=
  [.run .enter, .run .fireClaim,
    .run (.apply (.batch (leasedRow.inner.rows.map (⟨·, 1⟩)) [])),
    .run (.answer .ok), .run .cancel, .run .enter, .run .fireCancel, .run (.stop []),
    .run (.apply (.affected 1)), .run (.answer .ok), .run .drainCheck, .run (.abortLands 0),
    .run (.drainJoin [(0, 0)]), .run .drainCheck]

theorem clean_shutdown_one_row :
    ∃ (s : RunState FailureKind) (st : UniqueRows),
      CleanRun memoryStore (sample .default) 0 storedRow claimAndRelease (s, st) ∧
      s.pc = .returned none ∧ ¬ memoryStore.locked st sampleWorker ⟨(sampleEnvelope 1).id, 0⟩ := by
  have hclaimed : memoryStore.carriesOut storedRow sampleWorker
      (.acquire (claimRequest (sample .default) ⟨0, []⟩))
      (.batch (leasedRow.inner.rows.map (⟨·, 1⟩)) []) leasedRow := ⟨_, rfl, rfl, rfl⟩
  have hreleased : memoryStore.carriesOut leasedRow sampleWorker
      (.release [⟨(sampleEnvelope 1).id, 0⟩]) (.affected 1) releasedRow := ⟨_, rfl, rfl⟩
  have hrun : CleanRun memoryStore (sample .default) 0 storedRow claimAndRelease
      (Machine.reach (next (sample .default)) (RunState.start .default 0)
        (claimAndRelease.filterMap SystemEvent.run?), releasedRow) := by
    refine .cons ⟨.run rfl nofun, trivial⟩ ?_
    refine .cons ⟨.run rfl nofun, trivial⟩ ?_
    refine .cons ⟨.apply rfl rfl hclaimed, trivial⟩ ?_
    refine .cons ⟨.run rfl nofun, rfl⟩ ?_
    refine .cons ⟨.run rfl nofun, trivial⟩ ?_
    refine .cons ⟨.run rfl nofun, trivial⟩ ?_
    refine .cons ⟨.run rfl nofun, trivial⟩ ?_
    refine .cons ⟨.run rfl nofun, trivial⟩ ?_
    refine .cons ⟨.apply rfl rfl hreleased, trivial⟩ ?_
    refine .cons ⟨.run rfl nofun, rfl⟩ ?_
    refine .cons ⟨.run rfl nofun, trivial⟩ ?_
    refine .cons ⟨.run rfl nofun, trivial⟩ ?_
    refine .cons ⟨.run rfl nofun, trivial⟩ ?_
    exact .single ⟨.run rfl nofun, trivial⟩
  have hfree : ∀ m, ¬ memoryStore.locked storedRow sampleWorker m := by
    rintro m ⟨row, hrow, -, hlocked⟩
    rw [show storedRow.inner.rows = [OutboxRecord.build (sampleEnvelope 1) 1 0] from rfl] at hrow
    rw [List.mem_singleton.mp hrow] at hlocked
    cases hlocked
  exact ⟨_, releasedRow, hrun, rfl, (clean_shutdown hrun hfree rfl).2.1 _⟩

end Reliar.Dispatcher
