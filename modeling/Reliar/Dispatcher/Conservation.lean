/-
# `Reliar.Dispatcher.Conservation` — every claim is in one place

A claim is named by the task it was spawned as.  At every loop head it is in
exactly one of the six places of `Place`; the first three are what the worker
still holds and renews, the last three are where a claim ends.

Nothing leaves the loop's collections except by the moves of
`Reliar.Dispatcher.Moves`, and inside the loop no move drops a claim
(`hist.dropped` stays empty until shutdown), so the argument is one count per
move: what one place loses another one gains.
-/
import Reliar.Dispatcher.Moves

namespace Reliar.Dispatcher

open Reliar.Core Reliar.Outbox Relation

/-- Where a claim can be at a loop head. -/
inductive Place
  | outstanding
  | unwrittenComplete
  | unwrittenFail
  | written
  | abandoned
  | lost
  deriving DecidableEq, Repr

namespace Books

/-- The claims in a place. -/
def claimsAt (b : Books) : Place → List TaskId
  | .outstanding => b.outstanding.map (·.id)
  | .unwrittenComplete => b.unwrittenComplete.map (·.task)
  | .unwrittenFail => b.unwrittenFail.map (·.task)
  | .written => b.hist.written
  | .abandoned => b.hist.abandoned.map Prod.fst
  | .lost => b.hist.lost.map Prod.fst

/-- All places in a row. -/
def placed (b : Books) : List TaskId :=
  b.claimsAt .outstanding ++ b.claimsAt .unwrittenComplete ++ b.claimsAt .unwrittenFail ++
    b.claimsAt .written ++ b.claimsAt .abandoned ++ b.claimsAt .lost

/-- The invariant while nothing has been dropped. -/
structure Kept (d : OutboxDispatcher) (b : Books) : Prop where
  placed : b.placed.Perm (List.range b.nextTask)
  tasks : (b.inFlight.map (·.id)).Perm (b.outstanding.map (·.id))
  unaborted : ∀ t ∈ b.inFlight, t.abortRequested = false ∧ t.phase ≠ .cancelled
  abandoned : ∀ p ∈ b.hist.abandoned, d.settings.lease < p.2
  lost : ∀ p ∈ b.hist.lost, p.2 = .panicked

end Books

section
variable {d : OutboxDispatcher} {now : Instant} {shut : Bool} {b b' : Books}

/-- Counting a claim over all places. -/
theorem count_placed (b : Books) (id : TaskId) :
    b.placed.count id = (b.outstanding.map (·.id)).count id +
      (b.unwrittenComplete.map (·.task)).count id + (b.unwrittenFail.map (·.task)).count id +
      b.hist.written.count id + (b.hist.abandoned.map Prod.fst).count id +
      (b.hist.lost.map Prod.fst).count id := by
  simp only [Books.placed, Books.claimsAt, List.count_append]

/-- Taking a key out of a list of distinct keys. -/
theorem perm_filter_ne {α : Type} {key : α → TaskId} {l : List α} {id : TaskId}
    (hnd : (l.map key).Nodup) (hm : id ∈ l.map key) :
    (l.map key).Perm (id :: (l.filter fun x => key x ≠ id).map key) := by
  induction l with
  | nil => cases hm
  | cons x l ih =>
      simp only [List.map_cons, List.nodup_cons] at hnd
      by_cases hx : key x = id
      · subst hx
        have hrest : (l.filter fun y => key y ≠ key x) = l := by
          refine List.filter_eq_self.mpr fun y hy => ?_
          simp only [ne_eq, decide_not, Bool.not_eq_true', decide_eq_false_iff_not]
          exact fun hxy => hnd.1 (hxy ▸ List.mem_map.mpr ⟨y, hy, rfl⟩)
        rw [List.filter_cons_of_neg (by simp), hrest]
        exact .refl _
      · have hm' : id ∈ l.map key := by
          rcases List.mem_cons.mp hm with h | h
          · exact absurd h.symm hx
          · exact h
        simp only [ne_eq, hx, not_false_eq_true, decide_true, List.filter_cons_of_pos,
          List.map_cons]
        exact ((ih hnd.2 hm').cons (key x)).trans (.swap _ _ _)

/-- Splitting a list into what is kept and what is given up. -/
theorem count_split {α : Type} (key : α → TaskId) (p : α → Bool) (l : List α) (id : TaskId) :
    (l.map key).count id =
      ((l.filter p).map key).count id + ((l.filter fun x => !p x).map key).count id := by
  have := ((List.filter_append_perm p l).map key).count_eq id
  rw [List.map_append, List.count_append] at this
  exact this.symm

namespace Books.Kept

theorem empty (d : OutboxDispatcher) : Books.empty.Kept d := by
  refine ⟨.refl _, .refl _, ?_, ?_, ?_⟩ <;> simp [Books.empty, History.empty]

theorem spawn (h : b.Kept d) {row : PendingRow} {rest : List PendingRow} :
    (Books.spawn { b with pending := rest } row).Kept d where
  placed := by
    have hp := h.placed
    refine List.perm_iff_count.mpr fun id => ?_
    have hc := List.perm_iff_count.mp hp id
    rw [count_placed] at hc ⊢
    simp only [Books.spawn, List.map_append, List.map_cons, List.map_nil, List.count_append,
      List.range_succ] at hc ⊢
    omega
  tasks := by
    simp only [Books.spawn, List.map_append, List.map_cons, List.map_nil]
    exact h.tasks.append_right _
  unaborted t ht := by
    rcases List.mem_append.mp ht with ht | ht
    · exact h.unaborted t ht
    · rw [List.mem_singleton.mp ht]; exact ⟨rfl, fun hc => by cases hc⟩
  abandoned := h.abandoned
  lost := h.lost

/-- A change of phases only. -/
theorem map_phase (h : b.Kept d) {f : PublishTask → PublishTask} {hist : History}
    (hid : ∀ t, (f t).id = t.id)
    (hf : ∀ t ∈ b.inFlight, (f t).abortRequested = false ∧ (f t).phase ≠ .cancelled)
    (hw : hist.written = b.hist.written) (ha : hist.abandoned = b.hist.abandoned)
    (hl : hist.lost = b.hist.lost) :
    ({ b with inFlight := b.inFlight.map f, hist := hist } : Books).Kept d where
  placed := by
    have hp := h.placed
    simpa only [Books.placed, Books.claimsAt, hw, ha, hl] using hp
  tasks := by
    have hids : (b.inFlight.map f).map (·.id) = b.inFlight.map (·.id) := by
      rw [List.map_map]; exact List.map_congr_left fun t _ => hid t
    rw [hids]
    exact h.tasks
  unaborted t ht := by
    obtain ⟨t₀, ht₀, rfl⟩ := List.mem_map.mp ht
    exact hf t₀ ht₀
  abandoned := by rw [ha]; exact h.abandoned
  lost := by rw [hl]; exact h.lost

theorem record (hs : b.Sound d) (h : b.Kept d) {t : PublishTask} (unit : ℚ)
    (ht : t ∈ b.inFlight) (he : t.phase.ended = true) :
    (Books.recordOne d.retry now unit (b.takeTask t.id) t).Kept d := by
  have hmem : t.id ∈ b.outstanding.map (·.id) :=
    h.tasks.subset (List.mem_map.mpr ⟨t, ht, rfl⟩)
  have hout := perm_filter_ne hs.outstanding_nodup hmem
  have hin := perm_filter_ne hs.inFlight_nodup (List.mem_map.mpr ⟨t, ht, rfl⟩)
  have htasks : ((b.inFlight.filter fun t' => t'.id ≠ t.id).map (·.id)).Perm
      ((b.outstanding.filter fun o => o.id ≠ t.id).map (·.id)) :=
    (List.perm_cons t.id).mp (hin.symm.trans (h.tasks.trans hout))
  have hun : ∀ t' ∈ b.inFlight.filter fun t' => t'.id ≠ t.id,
      t'.abortRequested = false ∧ t'.phase ≠ .cancelled := fun t' ht' =>
    h.unaborted t' (List.mem_filter.mp ht').1
  -- the claim leaves `outstanding` and enters one other place
  have hcount : ∀ id, (List.range b.nextTask).count id = [t.id].count id +
      ((b.outstanding.filter fun o => o.id ≠ t.id).map (·.id)).count id +
      (b.unwrittenComplete.map (·.task)).count id + (b.unwrittenFail.map (·.task)).count id +
      b.hist.written.count id + (b.hist.abandoned.map Prod.fst).count id +
      (b.hist.lost.map Prod.fst).count id := by
    intro id
    rw [← List.perm_iff_count.mp h.placed id, count_placed, hout.count_eq, ← List.singleton_append,
      List.count_append]
  simp only [Books.recordOne]
  split
  · refine ⟨List.perm_iff_count.mpr fun id => ?_, htasks, hun, h.abandoned, h.lost⟩
    have hc := hcount id
    rw [count_placed]
    simp only [Books.removeOutstanding, Books.takeTask, List.map_append, List.count_append,
      List.map_cons, List.map_nil]
    omega
  · refine ⟨List.perm_iff_count.mpr fun id => ?_, htasks, hun, h.abandoned, h.lost⟩
    have hc := hcount id
    rw [count_placed]
    simp only [Books.removeOutstanding, Books.takeTask, List.map_append, List.count_append,
      List.map_cons, List.map_nil]
    omega
  · rename_i hpub hfail
    refine ⟨List.perm_iff_count.mpr fun id => ?_, htasks, hun, h.abandoned, ?_⟩
    · have hc := hcount id
      rw [count_placed]
      simp only [Books.removeOutstanding, Books.takeTask, List.map_append, List.count_append,
        List.map_cons, List.map_nil]
      omega
    · intro p hp
      rcases List.mem_append.mp hp with hp | hp
      · exact h.lost p hp
      · rw [List.mem_singleton.mp hp]
        have hnc := (h.unaborted t ht).2
        cases hph : t.phase with
        | waiting | publishing => rw [hph] at he; cases he
        | finished outcome =>
            cases outcome with
            | published m ty => exact absurd hph (hpub m ty)
            | failed m a k er => exact absurd hph (hfail m a k er)
        | panicked => rfl
        | cancelled => exact absurd hph hnc

/-- Outcomes leave the two lists for `written` or `abandoned`. -/
theorem moveOut (h : b.Kept d) {uc : List (Unwritten CompletedMessage)}
    {uf : List (Unwritten FailedMessage)} {hist : History}
    (hcount : ∀ id, (uc.map (·.task)).count id + (uf.map (·.task)).count id +
        hist.written.count id + (hist.abandoned.map Prod.fst).count id =
      (b.unwrittenComplete.map (·.task)).count id + (b.unwrittenFail.map (·.task)).count id +
        b.hist.written.count id + (b.hist.abandoned.map Prod.fst).count id)
    (ha : ∀ p ∈ hist.abandoned, d.settings.lease < p.2) (hl : hist.lost = b.hist.lost) :
    ({ b with unwrittenComplete := uc, unwrittenFail := uf, hist := hist } : Books).Kept d where
  placed := by
    refine List.perm_iff_count.mpr fun id => ?_
    have hc := List.perm_iff_count.mp h.placed id
    have hm := hcount id
    rw [count_placed] at hc ⊢
    simp only [hl] at hc ⊢
    omega
  tasks := h.tasks
  unaborted := h.unaborted
  abandoned := ha
  lost := by rw [hl]; exact h.lost

/-- The ages `expire_past_lease` logs. -/
theorem expired_old {α : Type} {l : List (Unwritten α)} {p : TaskId × Duration}
    (hp : p ∈ (l.filter fun e => !Books.keeps d.settings.lease now e).map
      fun e => (e.task, now - e.since)) : d.settings.lease < p.2 := by
  obtain ⟨e, he, rfl⟩ := List.mem_map.mp hp
  have := (List.mem_filter.mp he).2
  simpa only [Books.keeps, Bool.not_eq_true', decide_eq_false_iff_not, not_le] using this

theorem expireComplete (h : b.Kept d) : (b.expireComplete d.settings.lease now).Kept d := by
  refine h.moveOut (fun id => ?_) (fun p hp => ?_) rfl
  · have := count_split (·.task) (Books.keeps d.settings.lease now) b.unwrittenComplete id
    simp only [List.map_append, List.map_map, List.count_append, Function.comp_def] at this ⊢
    omega
  · rcases List.mem_append.mp hp with hp | hp
    · exact h.abandoned p hp
    · exact expired_old hp

theorem expireFail (h : b.Kept d) : (b.expireFail d.settings.lease now).Kept d := by
  refine h.moveOut (fun id => ?_) (fun p hp => ?_) rfl
  · have := count_split (·.task) (Books.keeps d.settings.lease now) b.unwrittenFail id
    simp only [List.map_append, List.map_map, List.count_append, Function.comp_def] at this ⊢
    omega
  · rcases List.mem_append.mp hp with hp | hp
    · exact h.abandoned p hp
    · exact expired_old hp

theorem clearComplete (h : b.Kept d) : b.clearComplete.Kept d := by
  refine h.moveOut (fun id => ?_) h.abandoned rfl
  simp only [List.map_nil, List.count_nil, List.count_append]
  omega

theorem clearFail (h : b.Kept d) : b.clearFail.Kept d := by
  refine h.moveOut (fun id => ?_) h.abandoned rfl
  simp only [List.map_nil, List.count_nil, List.count_append]
  omega

/-- Shutdown moves either change nothing or log a dropped claim. -/
theorem dropNotStarted (h : b.Kept d) (lagging : List TaskId)
    (hd : (b.dropNotStarted lagging).hist.dropped = []) : (b.dropNotStarted lagging).Kept d := by
  have hgone : (b.notYetPermitted lagging).map (·.id) = [] :=
    (List.append_eq_nil_iff.mp hd).2
  simp only [Books.dropNotStarted, hgone, List.not_mem_nil, not_false_eq_true, decide_true,
    List.filter_true, if_false, List.map_id']
  exact ⟨h.placed, h.tasks, h.unaborted, h.abandoned, h.lost⟩

theorem drainFail (h : b.Kept d) (hd : b.drainFail.hist.dropped = []) : b.drainFail.Kept d := by
  have hgone : b.unwrittenFail = [] := List.map_eq_nil_iff.mp (List.append_eq_nil_iff.mp hd).2
  refine h.moveOut (fun id => ?_) h.abandoned rfl
  rw [hgone]

end Books.Kept

/-- No claim has been dropped: the claims are all kept. -/
def Books.KeptUnlessDropped (d : OutboxDispatcher) (b : Books) : Prop :=
  b.Sound d ∧ (b.hist.dropped = [] → b.Kept d)

/-- The log of dropped claims only grows. -/
theorem dropped_of_move (hm : Move d now shut b b') : b.hist.dropped <+: b'.hist.dropped := by
  cases hm with
  | record =>
      simp only [Books.recordOne]
      split <;> exact List.prefix_rfl
  | dropNotStarted | drainFail => exact List.prefix_append _ _
  | _ => exact List.prefix_rfl

theorem keptUnlessDropped_of_move (hm : Move d now shut b b') (h : b.KeptUnlessDropped d) :
    b'.KeptUnlessDropped d := by
  refine ⟨h.1.move hm, fun hd => ?_⟩
  have hd₀ : b.hist.dropped = [] := List.prefix_nil.mp (hd ▸ dropped_of_move hm)
  have hk := h.2 hd₀
  cases hm with
  | receive _ records => exact ⟨hk.placed, hk.tasks, hk.unaborted, hk.abandoned, hk.lost⟩
  | spawn => exact hk.spawn
  | @phase t p ht he hp hc =>
      refine hk.map_phase (fun t' => by split <;> rfl) (fun t' ht' => ?_) rfl rfl rfl
      split
      · refine ⟨(hk.unaborted t' ht').1, fun hcan => ?_⟩
        have := hc hcan
        rw [(hk.unaborted t ht).1] at this
        cases this
      · exact hk.unaborted t' ht'
  | resolve r ht hp =>
      refine hk.map_phase (fun t' => by split <;> rfl) (fun t' ht' => ?_) rfl rfl rfl
      split
      · exact ⟨(hk.unaborted t' ht').1, fun hcan => nomatch hcan⟩
      · exact hk.unaborted t' ht'
  | record unit ht he => exact hk.record h.1 unit ht he
  | clearComplete => exact hk.clearComplete
  | clearFail => exact hk.clearFail
  | expireComplete => exact hk.expireComplete
  | expireFail => exact hk.expireFail
  | dropNotStarted lagging => exact hk.dropNotStarted lagging hd
  | drainFail => exact hk.drainFail hd

/-- Inside the loop nothing is dropped. -/
theorem dropped_of_loop_move (hm : Move d now false b b') : b'.hist.dropped = b.hist.dropped := by
  cases hm with
  | record =>
      simp only [Books.recordOne]
      split <;> rfl
  | dropNotStarted _ hs => cases hs
  | drainFail hs => cases hs
  | _ => rfl

end

/-! ## Along a run -/

section
variable {E : Type} [Classify E] {d : OutboxDispatcher} {s s' : RunState E} {e : Event E}

/-- Claims are kept, and inside the loop none has been dropped. -/
def RunState.Keeps (d : OutboxDispatcher) (s : RunState E) : Prop :=
  s.books.KeptUnlessDropped d ∧ s.books.pending = [] ∧
    (s.pc.inLoop = true → s.books.hist.dropped = [])

theorem keeps_of_next (h : next d s e = some s') (hs : s.Keeps d) : s'.Keeps d := by
  have hstep := step_of_next h
  have hmoves := moves_of_step hstep hs.2.1
  refine ⟨Moves.inv keptUnlessDropped_of_move hmoves hs.1, pending_of_step hstep hs.2.1,
    fun hl' => ?_⟩
  have hl := inLoop_of_step hstep hl'
  rw [hl'] at hmoves
  exact Moves.inv (P := fun b => b.hist.dropped = [])
    (fun hm hb => (dropped_of_loop_move hm).trans hb) hmoves (hs.2.2 hl)

theorem Run.kept {now : Instant} {es : List (Event E)} (h : Run d now es s)
    (hl : s.pc.inLoop = true) : s.books.Kept d := by
  have hk : s.Keeps d := h.inv (P := RunState.Keeps d) (fun hs he => keeps_of_next he hs)
    ⟨⟨.empty d, fun _ => .empty d⟩, rfl, fun _ => rfl⟩
  exact hk.1.2 (hk.2.2 hl)

/-! ### Written outcomes -/

/-- `s` awaits the write of the outcome of task `t`. -/
def Writing (s : RunState E) (t : TaskId) : Prop :=
  ∃ call, s.pc.call? = some call ∧
    (call.op = .complete (s.books.unwrittenComplete.map (·.item)) ∧
        t ∈ s.books.unwrittenComplete.map (·.task) ∨
      call.op = .fail (s.books.unwrittenFail.map (·.item)) ∧
        t ∈ s.books.unwrittenFail.map (·.task))

end

/-- What an answer adds to the written outcomes. -/
def Round.writes {E : Type} (b : Books) : Round → Answer E → List TaskId
  | .completing _, .ok => b.unwrittenComplete.map (·.task)
  | .failing _ _, .ok => b.unwrittenFail.map (·.task)
  | _, _ => []

section
variable {E : Type} {d : OutboxDispatcher} {s s' : RunState E} {e : Event E}

@[simp] theorem spawnReady_written (b : Books) : b.spawnReady.hist.written = b.hist.written := by
  suffices h : ∀ (rows : List PendingRow) (b : Books),
      (rows.foldl Books.spawn b).hist.written = b.hist.written from h _ _
  intro rows
  induction rows with
  | nil => intro b; rfl
  | cons row rest ih => intro b; exact ih (b.spawn row)

@[simp] theorem join_written (retry : RetryPolicy) (now : Instant) :
    ∀ (joined : List (TaskId × ℚ)) (b : Books),
      (b.join retry now joined).hist.written = b.hist.written
  | [], _ => rfl
  | j :: rest, b => by
      have hrest : (b.join retry now (j :: rest)).hist.written =
          (b.joinOne retry now j).hist.written := join_written retry now rest _
      rw [hrest, Books.joinOne]
      split
      · simp only [Books.recordOne]
        split <;> rfl
      · rfl

@[simp] theorem failHalf_written (lease : Duration) (now : Instant) (anyFailed : Bool)
    (b : Books) : (failHalf (E := E) lease now anyFailed b).1.hist.written = b.hist.written := by
  simp only [failHalf]; split <;> rfl

@[simp] theorem startRound_written (lease : Duration) (now : Instant) (b : Books) :
    (startRound (E := E) lease now b).1.hist.written = b.hist.written := by
  unfold startRound; split <;> simp

theorem resumeRound_written [Classify E] (lease : Duration) (now : Instant) (b : Books)
    (round : Round) (a : Answer E) :
    (resumeRound lease now b round a).1.hist.written = b.hist.written ++ round.writes b a := by
  unfold resumeRound
  split <;> try split
  all_goals simp [Round.writes, Books.clearComplete, Books.clearFail, Books.expireFail]

theorem afterFinal_written (p : Books × Progress E) :
    (afterFinal s p).books.hist.written = p.1.hist.written := by
  simp only [afterFinal]; split
  · rfl
  · rw [finalize_books]; rfl

theorem leaveDrain_written (permanent : Option E) :
    (leaveDrain d s permanent).books.hist.written = s.books.hist.written := by
  cases permanent with
  | none => rw [leaveDrain, afterFinal_written, startRound_written]
  | some e => rw [leaveDrain, finalize_books]; rfl

theorem taskStep_written {t : PublishTask} {b : Books} (h : taskStep d s t e = some b) :
    b.hist.written = s.books.hist.written := by
  cases e <;> simp only [taskStep, reduceCtorEq, Option.ite_none_right_eq_some,
    Option.ite_none_left_eq_some, Option.some.injEq] at h
  case publishReturns =>
    split at h
    · simp only [Option.ite_none_right_eq_some, Option.some.injEq] at h
      obtain ⟨-, rfl⟩ := h
      rfl
    · cases h
  all_goals obtain ⟨-, rfl⟩ := h; rfl

/-- An answer writes what its round carries, and only `Ok` does. -/
theorem writing_of_writes {round : Round} {a : Answer E} {t : TaskId} (hs : s.Carries)
    (hr : s.pc.round? = some round) (hc : s.pc.call? = some round.call)
    (ht : t ∈ round.writes s.books a) : a = .ok ∧ Writing s t := by
  have hcar := hs round hr
  cases round with
  | completing call =>
      cases a <;> simp only [Round.writes, List.not_mem_nil] at ht
      exact ⟨rfl, call, hc, .inl ⟨hcar, ht⟩⟩
  | failing anyFailed call =>
      cases a <;> simp only [Round.writes, List.not_mem_nil] at ht
      exact ⟨rfl, call, hc, .inr ⟨hcar, ht⟩⟩

theorem written_of_step [Classify E] (h : Step d s e s') (hs : s.Carries) {t : TaskId}
    (ht : t ∈ s'.books.hist.written) :
    t ∈ s.books.hist.written ∨ e = .answer .ok ∧ Writing s t := by
  cases h with
  | tick | cancel | crash | apply | enter | fireCancel | fireLease | fireStats | fireClaim
  | answerReleasing | answerRelease | drainStay => exact .inl ht
  | task _ _ hb => rw [taskStep_written hb] at ht; exact .inl ht
  | fireJoin => exact .inl (by simpa using ht)
  | retryWakes => exact .inl (by simpa using ht)
  | answerBody =>
      refine .inl ?_
      unfold afterBody at ht
      split at ht
      · split at ht
        · exact ht
        · rw [Books.claim, spawnReady_written] at ht; exact ht
      · split at ht <;> exact ht
      · exact ht
      · exact ht
  | answerRetry hpc =>
      rw [afterRetry_books, resumeRound_written] at ht
      refine (List.mem_append.mp ht).imp id fun hw => ?_
      obtain ⟨rfl, hw'⟩ := writing_of_writes hs (by rw [hpc]; rfl) (by rw [hpc]; rfl) hw
      exact ⟨rfl, hw'⟩
  | answerDrain hpc =>
      rw [afterDrainRound_books, resumeRound_written] at ht
      refine (List.mem_append.mp ht).imp id fun hw => ?_
      obtain ⟨rfl, hw'⟩ := writing_of_writes hs (by rw [hpc]; rfl) (by rw [hpc]; rfl) hw
      exact ⟨rfl, hw'⟩
  | answerFinal hpc =>
      rw [afterFinal_written, resumeRound_written] at ht
      refine (List.mem_append.mp ht).imp id fun hw => ?_
      obtain ⟨rfl, hw'⟩ := writing_of_writes hs (by rw [hpc]; rfl) (by rw [hpc]; rfl) hw
      exact ⟨rfl, hw'⟩
  | stop =>
      simp only [shutdown] at ht
      split at ht <;> exact .inl ht
  | drainLeave => rw [leaveDrain_written] at ht; exact .inl ht
  | drainJoin => exact .inl (by simpa using ht)
  | drainDeadline => rw [leaveDrain_written] at ht; exact .inl ht

/-- In run `es`, a write carrying the outcome of task `t` was answered `Ok`. -/
def WrittenIn [Classify E] (d : OutboxDispatcher) (now : Instant) (es : List (Event E))
    (t : TaskId) : Prop :=
  ∃ es₁ es₂ s, es = es₁ ++ .answer .ok :: es₂ ∧ Run d now es₁ s ∧ Writing s t

theorem Run.written [Classify E] {now : Instant} {es : List (Event E)} (h : Run d now es s)
    {t : TaskId} (ht : t ∈ s.books.hist.written) : WrittenIn d now es t := by
  induction h with
  | nil => cases ht
  | @snoc s₁ s₂ es e hp he ih =>
      rcases written_of_step (step_of_next he) (Run.carries hp) ht with ht | ⟨rfl, hw⟩
      · obtain ⟨es₁, es₂, s₀, rfl, hrun, hw⟩ := ih ht
        exact ⟨es₁, es₂ ++ [e], s₀, by simp, hrun, hw⟩
      · exact ⟨es, [], s₁, rfl, hp, hw⟩

/-! ### Renewed rows -/

/-- The rows a renewal in this iteration covers, or covered. -/
def Pc.Renews (refs : List MessageRef) : Pc E → Prop
  | .select at_ _ => at_.leaseRefs = refs
  | .body call => ∀ refs' lease, call.op = .extendLease refs' lease → refs' = refs
  | _ => True

theorem renews_of_step [Classify E] {refs : List MessageRef} (h : Step d s e s')
    (hne : e ≠ .enter) (hr : s.pc.Renews refs) : s'.pc.Renews refs := by
  cases h with
  | tick | cancel | task => exact hr
  | crash | fireCancel | fireJoin | answerReleasing | answerRelease | drainStay => trivial
  | enter => exact absurd rfl hne
  | apply hc =>
      cases hpc : s.pc <;> simp only [hpc, Pc.setCall, Pc.Renews, Pc.call?, reduceCtorEq,
        Option.some.injEq] at hr hc ⊢
      case select at_ fut => cases fut <;> simpa only [Pc.Renews] using hr
      case body call => subst hc; exact hr
  | fireLease hpc =>
      rw [hpc] at hr
      intro refs' lease hop
      cases hop
      exact hr
  | fireStats => intro refs' lease hop; cases hop
  | fireClaim => intro refs' lease hop; cases hop
  | retryWakes hpc | answerRetry hpc =>
      rw [hpc] at hr
      simp only [afterRetry, finishRetry]
      split
      · exact hr
      · split <;> trivial
  | answerBody =>
      unfold afterBody
      split <;> try split
      all_goals trivial
  | answerDrain | drainJoin =>
      simp only [afterDrainRound]
      split <;> trivial
  | answerFinal =>
      simp only [afterFinal, finalize, returnWith]
      split <;> try split
      all_goals trivial
  | stop =>
      simp only [shutdown, beginDrain]
      split <;> trivial
  | drainLeave | drainDeadline =>
      simp only [leaveDrain, afterFinal, finalize, returnWith]
      split <;> try split
      all_goals try split
      all_goals trivial

/-- From a loop head to the end of its iteration, a renewal covers what was held at the head. -/
theorem renews_of_path [Classify E] {es : List (Event E)} (hpc : s.pc = .head)
    (h : Machine.Path (Machine.Next (next d)) s (.enter :: es) s') (hne : .enter ∉ es) :
    s'.pc.Renews s.books.leaseRefs := by
  obtain ⟨s₁, h₁, hrest⟩ := h.uncons
  have hs₁ : s₁ = enterSelect s := by
    have h₁' : next d s .enter = some s₁ := h₁
    simpa [next, control, hpc, Pc.live] using h₁'.symm
  induction hrest with
  | nil => rw [hs₁]; rfl
  | @snoc s₂ s₃ es e hp he ih =>
      rw [List.mem_append, not_or, List.mem_singleton] at hne
      exact renews_of_step (step_of_next he) (Ne.symm hne.2)
        (ih (.cons h₁ hp) hne.1)

/-! ## Conservation -/

/-- What the collections and the log say of every claim. -/
structure Books.Conserved (d : OutboxDispatcher) (b : Books) : Prop where
  pending : b.pending = []
  /-- the join set holds exactly the tasks `outstanding` names -/
  tasks : (b.inFlight.map (·.id)).Perm (b.outstanding.map (·.id))
  tasks_nodup : (b.inFlight.map (·.id)).Nodup
  /-- every acquired record was spawned, as a task of its own -/
  spawned : b.hist.spawned.map Prod.snd = b.hist.acquired.map PendingRow.ofClaimed
  spawned_nodup : (b.hist.spawned.map Prod.fst).Nodup
  /-- every claim is in one place, once -/
  one_place : ∀ id, id ∈ b.hist.spawned.map Prod.fst → ∃! p, id ∈ b.claimsAt p
  no_double : ∀ p, (b.claimsAt p).Nodup
  no_other : ∀ p, ∀ id ∈ b.claimsAt p, id ∈ b.hist.spawned.map Prod.fst
  outstanding : ∀ o ∈ b.outstanding, ∃ row, (o.id, row) ∈ b.hist.spawned ∧ o.message = row.message
  complete : ∀ e ∈ b.unwrittenComplete, Delivered b e
  fail : ∀ e ∈ b.unwrittenFail, Refused d b e
  abandoned : ∀ p ∈ b.hist.abandoned, d.settings.lease < p.2
  lost : ∀ p ∈ b.hist.lost, p.2 = .panicked

theorem count_claimsAt_le (b : Books) (p : Place) (id : TaskId) :
    (b.claimsAt p).count id ≤ b.placed.count id := by
  rw [count_placed]
  cases p <;> simp only [Books.claimsAt] <;> omega

/-- Where all places together list a claim once, it is in one of them. -/
theorem one_place_of_nodup {b : Books} {id : TaskId} (hnd : b.placed.Nodup) (hm : id ∈ b.placed) :
    ∃! p, id ∈ b.claimsAt p := by
  have hcount : b.placed.count id = 1 := List.count_eq_one_of_mem hnd hm
  rw [count_placed] at hcount
  have hex : ∃ p, id ∈ b.claimsAt p := by
    simp only [Books.placed, List.mem_append, or_assoc] at hm
    rcases hm with h | h | h | h | h | h <;> exact ⟨_, h⟩
  obtain ⟨p, hp⟩ := hex
  refine ⟨p, hp, fun q hq => ?_⟩
  have hp' := List.count_pos_iff.mpr hp
  have hq' := List.count_pos_iff.mpr hq
  -- two different places would count the claim twice
  cases p <;> cases q <;> simp only [Books.claimsAt] at hp' hq' <;> first | rfl | omega

theorem Books.Kept.conserved {b : Books} (hs : b.Settled d) (h : b.Kept d) : b.Conserved d := by
  have hsp : b.hist.spawned.map Prod.snd = b.hist.acquired.map PendingRow.ofClaimed := by
    rw [hs.sound.rows, hs.pending, List.append_nil]
  have hids : b.placed.Perm (b.hist.spawned.map Prod.fst) := by
    rw [hs.sound.ids]; exact h.placed
  have hnd : (b.hist.spawned.map Prod.fst).Nodup := by rw [hs.sound.ids]; exact List.nodup_range
  have hpnd : b.placed.Nodup := hids.nodup_iff.mpr hnd
  refine ⟨hs.pending, h.tasks, hs.sound.inFlight_nodup, hsp, hnd, ?_, ?_, ?_, ?_,
    hs.sound.complete, hs.sound.fail, h.abandoned, h.lost⟩
  · intro id hid
    exact one_place_of_nodup hpnd (hids.symm.subset hid)
  · intro p
    refine List.nodup_iff_count_le_one.mpr fun id => ?_
    exact (count_claimsAt_le b p id).trans (List.nodup_iff_count_le_one.mp hpnd id)
  · intro p id hid
    have hpos : 0 < b.placed.count id :=
      (List.count_pos_iff.mpr hid).trans_le (count_claimsAt_le b p id)
    exact hids.subset (List.count_pos_iff.mp hpos)
  · intro o ho
    obtain ⟨t, ht, hid, hm⟩ := hs.sound.outstanding_task o ho
    exact ⟨t.row, hid ▸ hs.sound.inFlight_row t ht, hm.symm⟩

/-- At every loop head of every run, every claim is in one place, an outcome counts as written
only after the store's `Ok`, and the iteration's renewal covers exactly the rows held there. -/
theorem run_conserves_claims [Classify E] {now : Instant} {es : List (Event E)}
    (h : Run d now es s) (hpc : s.pc = .head) :
    s.books.Conserved d ∧
      (∀ t ∈ s.books.hist.written, WrittenIn d now es t) ∧
      (∀ {es' s' call refs lease}, Machine.Path (Machine.Next (next d)) s (.enter :: es') s' →
        .enter ∉ es' → s'.pc = .body call → call.op = .extendLease refs lease →
        refs = s.books.outstanding.map (·.message) ++
          s.books.unwrittenComplete.map (·.item.message) ++
          s.books.unwrittenFail.map (·.item.message)) := by
  refine ⟨(Run.kept h (by rw [hpc]; rfl)).conserved (Run.settled h), fun t ht => Run.written h ht, ?_⟩
  intro es' s' call refs lease hp hne hbody hop
  have hr := renews_of_path hpc hp hne
  rw [hbody] at hr
  exact hr refs lease hop

/-- A claim of one row, up to the next loop head. -/
def oneClaim : List (Event FailureKind) :=
  [.enter, .fireClaim, .apply (.batch [sampleClaim 1] []), .answer .ok]

theorem run_conserves_claims_after_a_claim :
    ∃ s, Run (sample .default) 0 oneClaim s ∧ s.pc = .head ∧ s.books.outstandingCount = 1 ∧
      s.books.Conserved (sample .default) := by
  have hrun : Run (sample .default) 0 oneClaim
      (Machine.reach (next (sample .default)) (RunState.start .default 0) oneClaim) :=
    Machine.path_reach (by decide)
  exact ⟨_, hrun, by decide, by decide, (run_conserves_claims hrun (by decide)).1⟩

end

end Reliar.Dispatcher
