/-
# `Reliar.Dispatcher.Shutdown` — where a claim goes when nothing fails
(`reliar-outbox`: `dispatcher.rs`, the shutdown path of `run`, `drain`)

A claim leaves `run` by one of four exits: its outcome is written in the loop,
in a round of the drain or in the last round, or its row is released, at once if
it had not started and at the end if it had not resolved.  `RunState.Holds` says
that a claim is still on its way to one of them; as long as every awaited call
returns `Ok`, a step keeps that, or it is the answer to a call that settles the
claim (`holds_of_step`).

Not used: that publishes resolve before the drain deadline.  A row that does not
is released with the rest.
-/
import Reliar.Dispatcher.Drain
import Reliar.Dispatcher.Backpressure
import Reliar.Dispatcher.Provider

namespace Reliar.Dispatcher

open Reliar.Core Reliar.Outbox Relation

/-! ## Claims held -/

namespace Books

/-- The claims held, with the rows they are of. -/
def entries (b : Books) : List (TaskId × MessageRef) :=
  b.outstanding.map (fun o => (o.id, o.message)) ++
    b.unwrittenComplete.map (fun e => (e.task, e.item.message)) ++
    b.unwrittenFail.map (fun e => (e.task, e.item.message))

theorem mem_entries {b : Books} {x : TaskId × MessageRef} :
    x ∈ b.entries ↔ (∃ o ∈ b.outstanding, (o.id, o.message) = x) ∨
      (∃ e ∈ b.unwrittenComplete, (e.task, e.item.message) = x) ∨
      ∃ e ∈ b.unwrittenFail, (e.task, e.item.message) = x := by
  simp only [entries, List.mem_append, List.mem_map, or_assoc]

/-- No task has panicked. -/
def Calm (b : Books) : Prop := ∀ t ∈ b.inFlight, t.phase ≠ .panicked

/-- An aborted task is in the map no longer. -/
def Aborted (b : Books) : Prop :=
  ∀ t ∈ b.inFlight, t.abortRequested = true ∨ t.phase = .cancelled →
    t.id ∉ b.outstanding.map (·.id)

end Books

section
variable {d : OutboxDispatcher} {now : Instant} {shut : Bool} {b b' : Books}

/-- A change of phases and flags. -/
theorem Books.Aborted.map_tasks (h : b.Aborted) {f : PublishTask → PublishTask}
    {outstanding : List OutstandingTask} (hid : ∀ t, (f t).id = t.id)
    (hf : ∀ t ∈ b.inFlight, (f t).abortRequested = true ∨ (f t).phase = .cancelled →
      (t.abortRequested = true ∨ t.phase = .cancelled) ∨ t.id ∉ outstanding.map (·.id))
    (hout : outstanding ⊆ b.outstanding) :
    ∀ t ∈ b.inFlight.map f, t.abortRequested = true ∨ t.phase = .cancelled →
      t.id ∉ outstanding.map (·.id) := by
  intro t ht habort
  obtain ⟨t₀, ht₀, rfl⟩ := List.mem_map.mp ht
  rw [hid]
  rcases hf t₀ ht₀ habort with hold | hnot
  · intro hmem
    obtain ⟨o, ho, hoid⟩ := List.mem_map.mp hmem
    exact h t₀ ht₀ hold (List.mem_map.mpr ⟨o, hout ho, hoid⟩)
  · exact hnot

theorem Books.Aborted.move (hs : b.Sound d) (hm : Move d now shut b b') (h : b.Aborted) :
    b'.Aborted := by
  cases hm with
  | receive | clearComplete | clearFail | expireComplete | expireFail | drainFail => exact h
  | @spawn row rest _ hp =>
      intro t ht habort hmem
      simp only [Books.spawn, List.map_append, List.map_cons, List.map_nil, List.mem_append,
        List.mem_singleton] at ht hmem
      rcases ht with ht | rfl
      · rcases hmem with hmem | hid
        · exact h t ht habort hmem
        · exact Nat.ne_of_lt (hs.id_lt (hs.inFlight_row t ht)) hid
      · rcases habort with hfalse | hphase
        · cases hfalse
        · cases hphase
  | @phase t p ht he hp hc =>
      refine h.map_tasks (fun t' => by split <;> rfl) ?_ (List.Subset.refl _)
      intro t' ht' habort
      split at habort
      · rename_i hid
        have hsame := hs.task_unique ht' ht hid
        subst hsame
        rcases habort with habort | hcan
        · exact .inl (.inl habort)
        · exact .inl (.inl (hc hcan))
      · exact .inl habort
  | @resolve t since r ht hp =>
      refine h.map_tasks (fun t' => by split <;> rfl) ?_ (List.Subset.refl _)
      intro t' ht' habort
      split at habort
      · rcases habort with habort | hcan
        · exact .inl (.inl habort)
        · cases hcan
      · exact .inl habort
  | @record t unit ht he =>
      intro t' ht' habort hmem
      have hin : t' ∈ b.inFlight := by
        simp only [Books.recordOne] at ht'
        split at ht' <;> exact (List.mem_filter.mp ht').1
      have hout : t'.id ∈ b.outstanding.map (·.id) := by
        simp only [Books.recordOne] at hmem
        split at hmem
        all_goals
          obtain ⟨o, ho, hoid⟩ := List.mem_map.mp hmem
          exact List.mem_map.mpr ⟨o, (List.mem_filter.mp ho).1, hoid⟩
      exact h t' hin habort hout
  | dropNotStarted lagging _ hp =>
      refine h.map_tasks (fun t' => by split <;> rfl) ?_ (List.filter_subset_self _)
      intro t' ht' habort
      split at habort
      · rename_i hgone
        refine .inr fun hmem => ?_
        obtain ⟨o, ho, hoid⟩ := List.mem_map.mp hmem
        have hkeep := (List.mem_filter.mp ho).2
        simp only [decide_eq_true_eq] at hkeep
        exact hkeep (hoid ▸ hgone)
      · exact .inl habort

end

/-! ### Joining and spawning keep every claim -/

section
variable {d : OutboxDispatcher} {now : Instant} {b : Books} {x : TaskId × MessageRef}

theorem finished_message (row : PendingRow) (timeout : Duration) (r : Option PublishResult) :
    (∃ ty, publishOne row timeout r = .published row.message ty) ∨
      ∃ attempts kind error, publishOne row timeout r = .failed row.message attempts kind error := by
  rcases r with _ | (_ | ⟨kind, error⟩ | _)
  · exact .inr ⟨_, _, _, rfl⟩
  · exact .inl ⟨_, rfl⟩
  · exact .inr ⟨_, _, _, rfl⟩
  · exact .inr ⟨_, _, _, rfl⟩

/-- Recording a result hands the claim from the map to one of the lists. -/
theorem entries_record {t : PublishTask} (unit : ℚ) (hs : b.Sound d) (hcalm : b.Calm)
    (habort : b.Aborted) (ht : t ∈ b.inFlight) (he : t.phase.ended = true) (hx : x ∈ b.entries) :
    x ∈ (Books.recordOne d.retry now unit (b.takeTask t.id) t).entries := by
  have hlists : ∀ {b' : Books}, b'.outstanding = b.outstanding.filter (fun o => o.id ≠ t.id) →
      b.unwrittenComplete ⊆ b'.unwrittenComplete → b.unwrittenFail ⊆ b'.unwrittenFail →
      ((t.id, t.row.message) ∈ b'.entries ∨ t.id ∉ b.outstanding.map (·.id)) → x ∈ b'.entries := by
    intro b' hout hc hf hown
    rcases Books.mem_entries.mp hx with ⟨o, ho, rfl⟩ | ⟨e, he, rfl⟩ | ⟨e, he, rfl⟩
    · by_cases hid : o.id = t.id
      · obtain ⟨t', ht', hid', hm'⟩ := hs.outstanding_task o ho
        have hsame := hs.task_unique ht' ht (hid'.trans hid)
        subst hsame
        rcases hown with hown | hnot
        · rw [← hm', hid]
          exact hown
        · exact absurd (List.mem_map.mpr ⟨o, ho, hid⟩) hnot
      · refine Books.mem_entries.mpr (.inl ⟨o, ?_, rfl⟩)
        rw [hout]
        exact List.mem_filter.mpr ⟨ho, by simpa using hid⟩
    · exact Books.mem_entries.mpr (.inr (.inl ⟨e, hc he, rfl⟩))
    · exact Books.mem_entries.mpr (.inr (.inr ⟨e, hf he, rfl⟩))
  have hlog := hs.phases t ht
  unfold PhaseLogged at hlog
  simp only [Books.recordOne]
  split
  · rename_i message ty hph
    simp only [hph] at hlog
    obtain ⟨r, -, hr⟩ := hlog
    have hmessage : message = t.row.message := by
      rcases finished_message t.row d.settings.publishTimeout (some r) with
        ⟨ty', h⟩ | ⟨a, k, er, h⟩ <;> rw [h] at hr <;> cases hr
      rfl
    subst hmessage
    refine hlists rfl (List.subset_append_left _ _) (List.Subset.refl _) (.inl ?_)
    exact Books.mem_entries.mpr
      (.inr (.inl ⟨_, List.mem_append_right _ (List.mem_singleton.mpr rfl), rfl⟩))
  · rename_i message attempts kind error hph
    simp only [hph] at hlog
    obtain ⟨r, -, hr⟩ := hlog
    have hmessage : message = t.row.message := by
      rcases finished_message t.row d.settings.publishTimeout (some r) with
        ⟨ty', h⟩ | ⟨a, k, er, h⟩ <;> rw [h] at hr <;> cases hr
      rfl
    subst hmessage
    refine hlists rfl (List.Subset.refl _) (List.subset_append_left _ _) (.inl ?_)
    exact Books.mem_entries.mpr
      (.inr (.inr ⟨_, List.mem_append_right _ (List.mem_singleton.mpr rfl), rfl⟩))
  · rename_i hpub hfail
    -- ended without an outcome and not panicked: aborted, and its row is released already
    refine hlists rfl (List.Subset.refl _) (List.Subset.refl _) (.inr ?_)
    refine habort t ht (.inr ?_)
    cases hph : t.phase with
    | waiting | publishing => rw [hph] at he; cases he
    | finished outcome =>
        cases outcome with
        | published m ty => exact absurd hph (hpub m ty)
        | failed m a k er => exact absurd hph (hfail m a k er)
    | panicked => exact absurd hph (hcalm t ht)
    | cancelled => rfl

theorem recordOne_calm {t : PublishTask} (unit : ℚ) (hcalm : b.Calm) :
    (Books.recordOne d.retry now unit (b.takeTask t.id) t).Calm := by
  intro t' ht'
  refine hcalm t' ?_
  simp only [Books.recordOne] at ht'
  split at ht' <;> exact (List.mem_filter.mp ht').1

theorem entries_join (hs : b.Sound d) (hcalm : b.Calm) (habort : b.Aborted)
    (joined : List (TaskId × ℚ)) :
    (b.join d.retry now joined).Calm ∧ b.entries ⊆ (b.join d.retry now joined).entries := by
  induction joined generalizing b with
  | nil => exact ⟨hcalm, List.Subset.refl _⟩
  | cons j rest ih =>
      have hstep : b.join d.retry now (j :: rest) =
          (b.joinOne d.retry now j).join d.retry now rest := rfl
      rw [hstep]
      unfold Books.joinOne
      split
      · rename_i t hfind
        have ht := List.mem_of_find?_eq_some hfind
        have hfound := List.find?_some hfind
        simp only [Bool.and_eq_true, decide_eq_true_eq] at hfound
        obtain ⟨hid, he⟩ := hfound
        have hrecord : Books.recordOne d.retry now j.2
            { b with inFlight := b.inFlight.filter fun t' => t'.id ≠ j.1 } t =
            Books.recordOne d.retry now j.2 (b.takeTask t.id) t := by rw [hid]; rfl
        rw [hrecord]
        have hmove : Move d now true b (Books.recordOne d.retry now j.2 (b.takeTask t.id) t) :=
          .record j.2 ht he
        obtain ⟨hc, hsub⟩ := ih (hs.move hmove) (recordOne_calm j.2 hcalm) (habort.move hs hmove)
        exact ⟨hc, fun x hx => hsub (entries_record j.2 hs hcalm habort ht he hx)⟩
      · exact ih hs hcalm habort

end

namespace Books

/-- `b'` holds what `b` does and `rows` besides; what it has spawned since, it holds. -/
structure TakesOn (b : Books) (rows : List PendingRow) (b' : Books) : Prop where
  entries : b.entries ⊆ b'.entries
  rows : ∀ row ∈ rows, ∃ t, (t, row.message) ∈ b'.entries
  spawned : ∀ t row, (t, row) ∈ b'.hist.spawned →
    (t, row) ∈ b.hist.spawned ∨ (t, row.message) ∈ b'.entries

theorem spawnReady_takesOn (b : Books) : b.TakesOn b.pending b.spawnReady := by
  suffices h : ∀ (rows : List PendingRow) (b : Books), b.TakesOn rows (rows.foldl spawn b) by
    obtain ⟨hsub, hrows, hspawned⟩ := h b.pending { b with pending := [] }
    exact ⟨hsub, hrows, hspawned⟩
  intro rows
  induction rows with
  | nil =>
      intro b
      exact ⟨List.Subset.refl _, fun row hrow => (List.not_mem_nil hrow).elim, fun t row h => .inl h⟩
  | cons row rest ih =>
      intro b
      obtain ⟨hsub, hrows, hspawned⟩ := ih (b.spawn row)
      have hspawn : b.entries ⊆ (b.spawn row).entries := by
        intro x hx
        rcases mem_entries.mp hx with ⟨o, ho, rfl⟩ | hrest
        · exact mem_entries.mpr (.inl ⟨o, List.mem_append_left _ ho, rfl⟩)
        · exact mem_entries.mpr (.inr hrest)
      have hnew : (b.nextTask, row.message) ∈ (b.spawn row).entries :=
        mem_entries.mpr (.inl ⟨⟨b.nextTask, row.message⟩,
          List.mem_append_right _ (List.mem_singleton.mpr rfl), rfl⟩)
      refine ⟨fun x hx => hsub (hspawn hx), ?_, ?_⟩
      · intro row' hrow'
        rcases List.mem_cons.mp hrow' with rfl | hrow'
        · exact ⟨b.nextTask, hsub hnew⟩
        · exact hrows row' hrow'
      · intro t row' h
        rcases hspawned t row' h with h | h
        · rcases List.mem_append.mp h with h | h
          · exact .inl h
          · cases List.mem_singleton.mp h
            exact .inr (hsub hnew)
        · exact .inr h

theorem claim_takesOn (b : Books) (records : List Claimed) :
    b.TakesOn (b.pending ++ records.map PendingRow.ofClaimed) (b.claim records) := by
  obtain ⟨hsub, hrows, hspawned⟩ := spawnReady_takesOn
    { b with
      pending := b.pending ++ records.map PendingRow.ofClaimed
      hist := { b.hist with acquired := b.hist.acquired ++ records } }
  exact ⟨hsub, hrows, hspawned⟩

end Books

/-! ### A round whose calls return `Ok` -/

section
variable {E : Type} {b : Books} {lease : Duration} {now : Instant} {x : TaskId × MessageRef}

/-- A round that keeps what `b` holds; where it ends, both lists are written. -/
structure KeepsEntries (b : Books) (p : Books × Progress E) : Prop where
  entries : p.1.entries = b.entries
  failing : ∀ anyFailed call, p.2 = .awaiting (.failing anyFailed call) →
    p.1.unwrittenComplete = []
  done : ∀ anyFailed permanent, p.2 = .done anyFailed permanent →
    permanent = none ∧ p.1.unwrittenComplete = [] ∧ p.1.unwrittenFail = []

/-- There is nothing to expire where nothing is left to write. -/
theorem failHalf_keeps (anyFailed : Bool) (hempty : b.unwrittenComplete = []) :
    KeepsEntries (E := E) b (failHalf lease now anyFailed b) := by
  simp only [failHalf]
  split
  · rename_i hfail
    have hfail' : b.unwrittenFail = [] := by simpa [Books.expireComplete] using hfail
    refine ⟨by simp [Books.entries, Books.expireFail, Books.expireComplete, hempty, hfail'], ?_, ?_⟩
    · intro anyFailed' call h
      cases h
    · intro anyFailed' permanent h
      cases h
      exact ⟨rfl, by simp [Books.expireFail, Books.expireComplete, hempty],
        by simp [Books.expireFail, Books.expireComplete, hfail']⟩
  · refine ⟨by simp [Books.entries, Books.expireComplete, hempty], ?_, ?_⟩
    · intro anyFailed' call h
      simp [Books.expireComplete, hempty]
    · intro anyFailed' permanent h
      cases h

theorem startRound_keeps : KeepsEntries (E := E) b (startRound lease now b) := by
  unfold startRound
  split
  · rename_i hempty
    exact failHalf_keeps false (by simpa using hempty)
  · refine ⟨rfl, ?_, ?_⟩
    · intro anyFailed call h
      cases h
    · intro anyFailed permanent h
      cases h

/-- What an `Ok` settles. -/
def Round.cleared (b : Books) : Round → List (TaskId × MessageRef)
  | .completing _ => b.unwrittenComplete.map fun e => (e.task, e.item.message)
  | .failing _ _ => b.unwrittenFail.map fun e => (e.task, e.item.message)

/-- After an `Ok` the rest of the claims is held, and the round goes on as it should. -/
theorem resumeRound_keeps [Classify E] (round : Round)
    (hfailing : ∀ anyFailed call, round = .failing anyFailed call → b.unwrittenComplete = []) :
    (∀ x ∈ b.entries, x ∈ (resumeRound (E := E) lease now b round .ok).1.entries ∨
        x ∈ round.cleared b) ∧
      KeepsEntries (resumeRound (E := E) lease now b round .ok).1
        (resumeRound (E := E) lease now b round .ok) := by
  cases round with
  | completing call =>
      have hkeeps : KeepsEntries (E := E) b.clearComplete
          (failHalf lease now false b.clearComplete) := failHalf_keeps false rfl
      refine ⟨?_, ⟨rfl, hkeeps.failing, hkeeps.done⟩⟩
      intro x hx
      simp only [resumeRound, hkeeps.entries]
      rcases Books.mem_entries.mp hx with hout | ⟨e, he, rfl⟩ | hfail
      · exact .inl (Books.mem_entries.mpr (.inl hout))
      · exact .inr (List.mem_map.mpr ⟨e, he, rfl⟩)
      · exact .inl (Books.mem_entries.mpr (.inr (.inr hfail)))
  | failing anyFailed call =>
      have hempty := hfailing anyFailed call rfl
      refine ⟨?_, ⟨rfl, ?_, ?_⟩⟩
      · intro x hx
        rcases Books.mem_entries.mp hx with hout | ⟨e, he, rfl⟩ | ⟨e, he, rfl⟩
        · exact .inl (Books.mem_entries.mpr (.inl hout))
        · rw [hempty] at he
          cases he
        · exact .inr (List.mem_map.mpr ⟨e, he, rfl⟩)
      · intro anyFailed' call' h
        cases h
      · intro anyFailed' permanent h
        cases h
        exact ⟨rfl, hempty, rfl⟩

end

/-! ## Runs in which nothing goes wrong -/

section
variable {E : Type} {d : OutboxDispatcher} {s s' : RunState E} {e : Event E}

/-- Every awaited call returns `Ok`, no task panics, the process does not die. -/
def Event.Clean : Event E → Prop
  | .answer a => a = .ok
  | .panic _ => False
  | .crash => False
  | _ => True

/-- A round that has come to its second half has written the first. -/
def Round.Faultless (b : Books) : Round → Prop
  | .completing _ => True
  | .failing _ _ => b.unwrittenComplete = []

/-- The locals alive at a suspension, while nothing has gone wrong.  The last release comes after
both lists are written, and names what is left. -/
def Pc.Faultless (b : Books) : Pc E → Prop
  | .select _ (.running round) => round.Faultless b
  | .drainHead _ permanent => permanent = none
  | .drainRound _ round => round.Faultless b
  | .finalRound round => round.Faultless b
  | .finalRelease permanent call =>
      permanent = none ∧ b.unwrittenComplete = [] ∧ b.unwrittenFail = [] ∧
        ∀ o ∈ b.outstanding, o.message ∈ call.op.settles
  | .returned result => result = none
  | _ => True

structure RunState.Faultless (s : RunState E) : Prop where
  exitReason : s.exitReason = none
  calm : s.books.Calm
  pc : s.pc.Faultless s.books

theorem taskStep_calm {t : PublishTask} {b : Books} (hclean : e.Clean) (h : taskStep d s t e = some b)
    (hcalm : s.books.Calm) : b.Calm := by
  have hset : ∀ {p : TaskPhase}, p ≠ .panicked → (s.books.setPhase t.id p).Calm := by
    intro p hp t' ht'
    obtain ⟨t₀, ht₀, rfl⟩ := List.mem_map.mp ht'
    split
    · exact hp
    · exact hcalm t₀ ht₀
  cases e <;> simp only [taskStep, reduceCtorEq, Option.ite_none_right_eq_some,
    Option.ite_none_left_eq_some, Option.some.injEq] at h
  case permit =>
    obtain ⟨-, rfl⟩ := h
    exact hset (fun hp => by cases hp)
  case publishReturns =>
    split at h
    · simp only [Option.ite_none_right_eq_some, Option.some.injEq] at h
      obtain ⟨-, rfl⟩ := h
      exact hset (fun hp => by cases hp)
    · cases h
  case panic => exact absurd hclean (fun h => h)
  case abortLands =>
    obtain ⟨-, rfl⟩ := h
    exact hset (fun hp => by cases hp)

theorem spawnReady_calm {b : Books} (h : b.Calm) : b.spawnReady.Calm := by
  suffices H : ∀ (rows : List PendingRow) (b : Books), b.Calm → (rows.foldl Books.spawn b).Calm from
    H b.pending { b with pending := [] } h
  intro rows
  induction rows with
  | nil => exact fun b h => h
  | cons row rest ih =>
      intro b h
      refine ih (b.spawn row) ?_
      intro t ht
      rcases List.mem_append.mp ht with ht | ht
      · exact h t ht
      · rw [List.mem_singleton.mp ht]
        exact fun hp => by cases hp

theorem dropNotStarted_calm {b : Books} (lagging : List TaskId) (h : b.Calm) :
    (b.dropNotStarted lagging).Calm := by
  intro t ht
  obtain ⟨t₀, ht₀, rfl⟩ := List.mem_map.mp ht
  split
  · exact h t₀ ht₀
  · exact h t₀ ht₀

theorem Books.SameTasks.calm {b b' : Books} (h : b.SameTasks b') (hb : b.Calm) : b'.Calm := by
  intro t ht
  rw [h.inFlight] at ht
  exact hb t ht

theorem KeepsEntries.faultless {b : Books} {p : Books × Progress E} (h : KeepsEntries b p) :
    (∀ round, p.2 = .awaiting round → round.Faultless p.1) := by
  intro round hround
  cases round with
  | completing call => trivial
  | failing anyFailed call => exact h.failing anyFailed call hround

theorem afterRetry_faultless {at_ : LoopHead} {b : Books} {p : Books × Progress E}
    (hk : KeepsEntries b p) (hcalm : p.1.Calm) (hexit : s.exitReason = none) :
    (afterRetry d s at_ p).Faultless := by
  refine ⟨?_, by rw [afterRetry_books]; exact hcalm, ?_⟩
  · cases hp : p.2 with
    | awaiting round => simpa only [afterRetry, hp] using hexit
    | done anyFailed permanent =>
        obtain ⟨rfl, -⟩ := hk.done anyFailed permanent hp
        simpa only [afterRetry, hp, finishRetry] using hexit
  · rw [afterRetry_books]
    cases hp : p.2 with
    | awaiting round =>
        simp only [afterRetry, hp]
        exact hk.faultless round hp
    | done anyFailed permanent =>
        obtain ⟨rfl, -⟩ := hk.done anyFailed permanent hp
        simp only [afterRetry, hp, finishRetry]
        trivial

theorem afterDrainRound_faultless {deadline : Instant} {b : Books} {p : Books × Progress E}
    (hk : KeepsEntries b p) (hcalm : p.1.Calm) (hexit : s.exitReason = none) :
    (afterDrainRound s deadline p).Faultless := by
  cases hp : p.2 with
  | awaiting round =>
      simp only [afterDrainRound, hp]
      exact ⟨hexit, hcalm, hk.faultless round hp⟩
  | done anyFailed permanent =>
      obtain ⟨rfl, -⟩ := hk.done anyFailed permanent hp
      simp only [afterDrainRound, hp]
      exact ⟨hexit, hcalm, rfl⟩

theorem finalize_faultless (hcalm : s.books.Calm) (hexit : s.exitReason = none)
    (hc : s.books.unwrittenComplete = []) : (finalize s none).Faultless := by
  simp only [finalize]
  split
  · refine ⟨hexit, hcalm, ?_⟩
    simp only [returnWith, hexit]
    rfl
  · refine ⟨hexit, hcalm, rfl, hc, rfl, ?_⟩
    intro o ho
    exact List.mem_append_left _ (List.mem_map.mpr ⟨o, ho, rfl⟩)

theorem afterFinal_faultless {b : Books} {p : Books × Progress E} (hk : KeepsEntries b p)
    (hcalm : p.1.Calm) (hexit : s.exitReason = none) : (afterFinal s p).Faultless := by
  cases hp : p.2 with
  | awaiting round =>
      simp only [afterFinal, hp]
      exact ⟨hexit, hcalm, hk.faultless round hp⟩
  | done anyFailed permanent =>
      obtain ⟨rfl, hc, -⟩ := hk.done anyFailed permanent hp
      simp only [afterFinal, hp]
      exact finalize_faultless (s := { s with books := p.1 }) hcalm hexit hc

theorem leaveDrain_faultless (hcalm : s.books.Calm) (hexit : s.exitReason = none) :
    (leaveDrain d s none).Faultless :=
  afterFinal_faultless startRound_keeps ((startRound_sameTasks _ _ _).calm hcalm) hexit

theorem taskStep_outstanding {t : PublishTask} {b : Books} (h : taskStep d s t e = some b) :
    b.outstanding = s.books.outstanding := by
  cases e <;> simp only [taskStep, reduceCtorEq, Option.ite_none_right_eq_some,
    Option.ite_none_left_eq_some, Option.some.injEq] at h
  case publishReturns =>
    split at h
    · simp only [Option.ite_none_right_eq_some, Option.some.injEq] at h
      obtain ⟨-, rfl⟩ := h
      rfl
    · cases h
  all_goals obtain ⟨-, rfl⟩ := h; rfl

/-- The suspension asks about the lists and the map only. -/
theorem Pc.Faultless.congr {pc : Pc E} {b b' : Books} (h : pc.Faultless b)
    (hc : b'.unwrittenComplete = b.unwrittenComplete) (hf : b'.unwrittenFail = b.unwrittenFail)
    (ho : b'.outstanding = b.outstanding) : pc.Faultless b' := by
  have hround : ∀ {round : Round}, round.Faultless b → round.Faultless b' := by
    intro round hr
    cases round with
    | completing call => trivial
    | failing anyFailed call => exact hc.trans hr
  cases pc with
  | select at_ fut =>
      cases fut with
      | running round => exact hround h
      | _ => trivial
  | drainRound deadline round => exact hround h
  | finalRound round => exact hround h
  | finalRelease permanent call =>
      obtain ⟨hp, h₁, h₂, h₃⟩ := h
      refine ⟨hp, hc.trans h₁, hf.trans h₂, ?_⟩
      rw [ho]
      exact h₃
  | drainHead deadline permanent => exact h
  | returned result => exact h
  | _ => trivial

/-- Carrying out a call does not change what it names. -/
theorem Pc.Faultless.setCall {pc : Pc E} {b : Books} {call : Call} {reply : Option Reply}
    (h : pc.Faultless b) (hc : pc.call? = some call) :
    (pc.setCall { call with applied := reply }).Faultless b := by
  have hround : ∀ {round : Round} {call' : Call}, round.Faultless b →
      (round.setCall call').Faultless b := by
    intro round call' hr
    cases round with
    | completing call => trivial
    | failing anyFailed call => exact hr
  cases pc with
  | select at_ fut =>
      cases fut with
      | running round => exact hround h
      | _ => cases hc
  | drainRound deadline round => exact hround h
  | finalRound round => exact hround h
  | finalRelease permanent call' =>
      cases hc
      exact h
  | body call' => trivial
  | releasing call' => trivial
  | _ => cases hc

theorem Round.Faultless.empty {b : Books} {round : Round} (h : round.Faultless b)
    (anyFailed : Bool) (call : Call) (hr : round = .failing anyFailed call) :
    b.unwrittenComplete = [] := by
  subst hr
  exact h

/-- Nothing goes wrong in a step of a clean run. -/
theorem faultless_of_step [Classify E] (h : Step d s e s') (hclean : e.Clean) (hb : s.books.Sound d)
    (habort : s.books.Aborted) (hs : s.Faultless) : s'.Faultless := by
  obtain ⟨hexit, hcalm, hpc'⟩ := hs
  cases h with
  | tick | cancel => exact ⟨hexit, hcalm, hpc'⟩
  | crash => exact absurd hclean (fun h => h)
  | task _ _ htask =>
      obtain ⟨hc, hf⟩ := taskStep_unwritten htask
      exact ⟨hexit, taskStep_calm hclean htask hcalm, hpc'.congr hc hf (taskStep_outstanding htask)⟩
  | apply hc => exact ⟨hexit, hcalm, hpc'.setCall hc⟩
  | enter =>
      refine ⟨hexit, hcalm, ?_⟩
      simp only [enterSelect]
      split <;> trivial
  | fireCancel | fireLease | fireStats | fireClaim | drainStay => exact ⟨hexit, hcalm, trivial⟩
  | fireJoin => exact ⟨hexit, spawnReady_calm (entries_join hb hcalm habort _).1, trivial⟩
  | retryWakes =>
      exact afterRetry_faultless startRound_keeps ((startRound_sameTasks _ _ _).calm hcalm) hexit
  | @answerRetry at_ round a hpc =>
      obtain rfl : a = .ok := hclean
      rw [hpc] at hpc'
      exact afterRetry_faultless (resumeRound_keeps round hpc'.empty).2
        ((resumeRound_sameTasks _ _ _ _ _).calm hcalm) hexit
  | @answerBody call a hpc =>
      obtain rfl : a = .ok := hclean
      unfold afterBody
      split
      · split
        · exact ⟨hexit, hcalm, trivial⟩
        · exact ⟨hexit, spawnReady_calm hcalm, trivial⟩
      · rename_i heq
        cases heq
      · exact ⟨hexit, hcalm, trivial⟩
      · exact ⟨hexit, hcalm, trivial⟩
  | answerReleasing => exact ⟨hexit, hcalm, rfl⟩
  | @answerDrain deadline round a hpc =>
      obtain rfl : a = .ok := hclean
      rw [hpc] at hpc'
      exact afterDrainRound_faultless (resumeRound_keeps round hpc'.empty).2
        ((resumeRound_sameTasks _ _ _ _ _).calm hcalm) hexit
  | @answerFinal round a hpc =>
      obtain rfl : a = .ok := hclean
      rw [hpc] at hpc'
      exact afterFinal_faultless (resumeRound_keeps round hpc'.empty).2
        ((resumeRound_sameTasks _ _ _ _ _).calm hcalm) hexit
  | @answerRelease permanent call a hpc =>
      rw [hpc] at hpc'
      obtain ⟨rfl, -⟩ := hpc'
      refine ⟨hexit, hcalm, ?_⟩
      simp only [returnWith, hexit]
      rfl
  | stop =>
      simp only [shutdown, beginDrain]
      split
      · exact ⟨hexit, dropNotStarted_calm _ hcalm, rfl⟩
      · exact ⟨hexit, dropNotStarted_calm _ hcalm, trivial⟩
  | @drainLeave deadline permanent hpc =>
      rw [hpc] at hpc'
      obtain rfl : permanent = none := hpc'
      exact leaveDrain_faultless hcalm hexit
  | drainJoin =>
      exact afterDrainRound_faultless startRound_keeps
        ((startRound_sameTasks _ _ _).calm (entries_join hb hcalm habort _).1) hexit
  | drainDeadline => exact leaveDrain_faultless hcalm hexit

end

/-! ## A claim on its way -/

section
variable {E : Type} {d : OutboxDispatcher} {s s' : RunState E} {e : Event E}
  {x : TaskId × MessageRef}

/-- The claim is held, or its row is being released because it never started. -/
def RunState.Holds (s : RunState E) (x : TaskId × MessageRef) : Prop :=
  match s.pc with
  | .returned _ => False
  | .releasing call =>
      x ∈ s.books.entries ∨ x.1 ∈ s.books.hist.dropped ∧ x.2 ∈ call.op.settles
  | _ => x ∈ s.books.entries

/-- `s` awaits a call that settles the claim: the write of its outcome, or a release of its row. -/
def Closing (s : RunState E) (x : TaskId × MessageRef) : Prop :=
  ∃ call, s.pc.call? = some call ∧ x.2 ∈ call.op.settles ∧
    (Writing s x.1 ∨ ∃ refs, call.op = .release refs)

theorem holds_of_entries (hx : x ∈ s.books.entries) (hpc : ∀ result, s.pc ≠ .returned result) :
    s.Holds x := by
  unfold RunState.Holds
  split
  · rename_i result h
    exact absurd h (hpc result)
  · exact .inl hx
  · exact hx

theorem entries_of_holds (hx : s.Holds x) (hpc : ∀ call, s.pc ≠ .releasing call) :
    x ∈ s.books.entries := by
  unfold RunState.Holds at hx
  split at hx
  · exact absurd hx (fun h => h)
  · rename_i call h
    exact absurd h (hpc call)
  · exact hx

/-- A round that is answered settles what it clears. -/
theorem closing_of_cleared {round : Round} (hcar : s.Carries) (hr : s.pc.round? = some round)
    (hc : s.pc.call? = some round.call) (hx : x ∈ round.cleared s.books) : Closing s x := by
  have hop := hcar round hr
  cases round with
  | completing call =>
      obtain ⟨u, hu, rfl⟩ := List.mem_map.mp hx
      refine ⟨call, hc, ?_, .inl ⟨call, hc, .inl ⟨hop, List.mem_map.mpr ⟨u, hu, rfl⟩⟩⟩⟩
      rw [hop]
      exact List.mem_map.mpr ⟨u.item, List.mem_map.mpr ⟨u, hu, rfl⟩, rfl⟩
  | failing anyFailed call =>
      obtain ⟨u, hu, rfl⟩ := List.mem_map.mp hx
      refine ⟨call, hc, ?_, .inl ⟨call, hc, .inr ⟨hop, List.mem_map.mpr ⟨u, hu, rfl⟩⟩⟩⟩
      rw [hop]
      exact List.mem_map.mpr ⟨u.item, List.mem_map.mpr ⟨u, hu, rfl⟩, rfl⟩

theorem afterRetry_holds {at_ : LoopHead} {p : Books × Progress E} (hx : x ∈ p.1.entries) :
    (afterRetry d s at_ p).Holds x := by
  refine holds_of_entries (by rw [afterRetry_books]; exact hx) ?_
  intro result h
  cases hp : p.2 with
  | awaiting round => simp only [afterRetry, hp, reduceCtorEq] at h
  | done anyFailed permanent =>
      cases permanent <;> simp only [afterRetry, hp, finishRetry, reduceCtorEq] at h

theorem afterDrainRound_holds {deadline : Instant} {p : Books × Progress E}
    (hx : x ∈ p.1.entries) : (afterDrainRound s deadline p).Holds x := by
  refine holds_of_entries (by rw [afterDrainRound_books]; exact hx) ?_
  intro result h
  cases hp : p.2 <;> simp only [afterDrainRound, hp, reduceCtorEq] at h

/-- With both lists written, what is left is in the map, and is released. -/
theorem finalize_holds (hc : s.books.unwrittenComplete = []) (hf : s.books.unwrittenFail = [])
    (hx : x ∈ s.books.entries) : (finalize s none).Holds x := by
  simp only [Books.entries, hc, hf, List.map_nil, List.append_nil] at hx
  have hrefs : s.books.releaseNow ≠ [] := by
    obtain ⟨o, ho, -⟩ := List.mem_map.mp hx
    exact List.ne_nil_of_mem (List.mem_append_left _ (List.mem_map.mpr ⟨o, ho, rfl⟩))
  have hempty : s.books.releaseNow.isEmpty = false := by simpa using hrefs
  refine holds_of_entries ?_ ?_
  · rw [finalize_books]
    exact List.mem_append_left _ (List.mem_append_left _ hx)
  · intro result h
    simp only [finalize, hempty, Bool.false_eq_true, if_false, reduceCtorEq] at h

theorem afterFinal_holds {b : Books} {p : Books × Progress E} (hk : KeepsEntries b p)
    (hx : x ∈ p.1.entries) : (afterFinal s p).Holds x := by
  cases hp : p.2 with
  | awaiting round =>
      simp only [afterFinal, hp]
      exact hx
  | done anyFailed permanent =>
      obtain ⟨rfl, hc, hf⟩ := hk.done anyFailed permanent hp
      simp only [afterFinal, hp]
      exact finalize_holds (s := { s with books := p.1 }) hc hf hx

theorem leaveDrain_holds (hx : x ∈ s.books.entries) : (leaveDrain d s none).Holds x := by
  have hk : KeepsEntries (E := E) s.books (startRound d.settings.lease s.now s.books) :=
    startRound_keeps
  exact afterFinal_holds hk (by rw [hk.entries]; exact hx)

/-- What the shutdown path takes out of the map it releases. -/
theorem shutdown_holds {lagging : List TaskId} (hx : x ∈ s.books.entries) :
    (shutdown d s lagging).Holds x := by
  have hkept : x ∈ (s.books.dropNotStarted lagging).entries ∨
      x.1 ∈ (s.books.dropNotStarted lagging).hist.dropped ∧
        x.2 ∈ s.books.releaseImmediately lagging := by
    rcases Books.mem_entries.mp hx with ⟨o, ho, rfl⟩ | hrest
    · by_cases hgone : o.id ∈ (s.books.notYetPermitted lagging).map (·.id)
      · -- the test asks about the id only, so `o` itself passes it
        have hmem : o ∈ s.books.notYetPermitted lagging := by
          obtain ⟨o', ho', hid⟩ := List.mem_map.mp hgone
          have htest := (List.mem_filter.mp ho').2
          rw [hid] at htest
          exact List.mem_filter.mpr ⟨ho, htest⟩
        refine .inr ⟨List.mem_append_right _ hgone, ?_⟩
        exact List.mem_append_right _ (List.mem_map.mpr ⟨o, hmem, rfl⟩)
      · exact .inl (Books.mem_entries.mpr
          (.inl ⟨o, List.mem_filter.mpr ⟨ho, by simpa using hgone⟩, rfl⟩))
    · exact .inl (Books.mem_entries.mpr (.inr hrest))
  simp only [shutdown]
  split
  · rename_i hempty
    rcases hkept with hkept | ⟨-, hrefs⟩
    · exact hkept
    · rw [List.isEmpty_iff.mp hempty] at hrefs
      cases hrefs
  · exact hkept

theorem entries_of_taskStep {t : PublishTask} {b : Books} (h : taskStep d s t e = some b) :
    b.entries = s.books.entries := by
  obtain ⟨hc, hf⟩ := taskStep_unwritten h
  simp only [Books.entries, hc, hf, taskStep_outstanding h]

theorem holds_of_taskStep {t : PublishTask} {b : Books} (ht : t ∈ s.books.inFlight)
    (h : taskStep d s t e = some b) (hx : s.Holds x) : ({ s with books := b } : RunState E).Holds x := by
  have hmoves : ReflTransGen (Move d s.now true) s.books b := moves_taskStep ht h
  have hdropped : s.books.hist.dropped <+: b.hist.dropped :=
    Moves.inv (P := fun b' => s.books.hist.dropped <+: b'.hist.dropped)
      (fun hm hpre => hpre.trans (dropped_of_move hm)) hmoves List.prefix_rfl
  unfold RunState.Holds at hx ⊢
  simp only [entries_of_taskStep h]
  split at hx
  · exact absurd hx (fun h => h)
  · exact hx.imp_right fun hx => ⟨hdropped.subset hx.1, hx.2⟩
  · exact hx

/-- Carrying out a call leaves the claims where they are. -/
theorem holds_of_apply {call : Call} {reply : Option Reply} (hc : s.pc.call? = some call)
    (hx : s.Holds x) :
    ({ s with pc := s.pc.setCall { call with applied := reply } } : RunState E).Holds x := by
  by_cases hpc : ∃ call', s.pc = .releasing call'
  · obtain ⟨call', hpc⟩ := hpc
    simp only [hpc, Pc.call?, Option.some.injEq] at hc
    subst hc
    simp only [RunState.Holds, hpc] at hx
    simpa only [RunState.Holds, hpc, Pc.setCall] using hx
  · push Not at hpc
    have hentries := entries_of_holds hx hpc
    refine holds_of_entries hentries ?_
    intro result h
    cases hpc' : s.pc with
    | select at_ fut => cases fut <;> simp only [hpc', Pc.setCall, reduceCtorEq] at h
    | returned result => simp only [hpc', Pc.call?, reduceCtorEq] at hc
    | _ => simp only [hpc', Pc.setCall, reduceCtorEq] at h

theorem holds_of_round [Classify E] {round : Round} (hround : round.Faultless s.books)
    (hcar : s.Carries) (hr : s.pc.round? = some round) (hc : s.pc.call? = some round.call)
    (hx : x ∈ s.books.entries) :
    x ∈ (resumeRound (E := E) d.settings.lease s.now s.books round .ok).1.entries ∨
      Closing s x := by
  rcases (resumeRound_keeps (E := E) round hround.empty).1 x hx with hx | hx
  · exact .inl hx
  · exact .inr (closing_of_cleared hcar hr hc hx)

/-- A claim stays on its way until a call that settles it returns `Ok`. -/
theorem holds_of_step [Classify E] (h : Step d s e s') (hclean : e.Clean) (hb : s.books.Sound d)
    (habort : s.books.Aborted) (hs : s.Faultless) (hcar : s.Carries) (hrel : s.Releases) (hx : s.Holds x) :
    s'.Holds x ∨ e = .answer .ok ∧ Closing s x := by
  obtain ⟨-, hcalm, hpc'⟩ := hs
  have hheld : ∀ {pc : Pc E}, s.pc = pc → (∀ call, pc ≠ .releasing call) → x ∈ s.books.entries := by
    rintro pc rfl hpc
    exact entries_of_holds hx hpc
  cases h with
  | tick | cancel => exact .inl hx
  | crash => exact absurd hclean (fun h => h)
  | task _ ht htask => exact .inl (holds_of_taskStep ht htask hx)
  | apply hc => exact .inl (holds_of_apply hc hx)
  | enter hpc =>
      refine .inl (holds_of_entries (hheld hpc (fun _ h => by cases h)) ?_)
      intro result h
      cases h
  | fireCancel hpc =>
      exact .inl (hheld hpc (fun _ h => by cases h))
  | fireLease hpc | fireStats hpc | fireClaim hpc =>
      exact .inl (hheld hpc (fun _ h => by cases h))
  | drainStay hpc => exact .inl (hheld hpc (fun _ h => by cases h))
  | fireJoin hpc =>
      have hx := hheld hpc (fun _ h => by cases h)
      exact .inl ((Books.spawnReady_takesOn _).entries ((entries_join hb hcalm habort _).2 hx))
  | retryWakes hpc =>
      have hx := hheld hpc (fun _ h => by cases h)
      exact .inl (afterRetry_holds (by rw [(startRound_keeps (E := E)).entries]; exact hx))
  | @answerRetry at_ round a hpc =>
      obtain rfl : a = .ok := hclean
      have hx := hheld hpc (fun _ h => by cases h)
      rw [hpc] at hpc'
      rcases holds_of_round (d := d) hpc' hcar (by rw [hpc]; rfl) (by rw [hpc]; rfl) hx with hx | hx
      · exact .inl (afterRetry_holds hx)
      · exact .inr ⟨rfl, hx⟩
  | @answerBody call a hpc =>
      obtain rfl : a = .ok := hclean
      have hx := hheld hpc (fun _ h => by cases h)
      refine .inl ?_
      unfold afterBody
      split
      · split
        · exact hx
        · exact (Books.claim_takesOn _ _).entries hx
      · rename_i heq
        cases heq
      · exact hx
      · exact hx
  | @answerReleasing call a hpc =>
      obtain rfl : a = .ok := hclean
      simp only [RunState.Holds, hpc] at hx
      rcases hx with hx | ⟨-, hx⟩
      · exact .inl hx
      · exact .inr ⟨rfl, call, by rw [hpc]; rfl, hx, .inr (hrel call (.inl hpc))⟩
  | @answerDrain deadline round a hpc =>
      obtain rfl : a = .ok := hclean
      have hx := hheld hpc (fun _ h => by cases h)
      rw [hpc] at hpc'
      rcases holds_of_round (d := d) hpc' hcar (by rw [hpc]; rfl) (by rw [hpc]; rfl) hx with hx | hx
      · exact .inl (afterDrainRound_holds hx)
      · exact .inr ⟨rfl, hx⟩
  | @answerFinal round a hpc =>
      obtain rfl : a = .ok := hclean
      have hx := hheld hpc (fun _ h => by cases h)
      rw [hpc] at hpc'
      rcases holds_of_round (d := d) hpc' hcar (by rw [hpc]; rfl) (by rw [hpc]; rfl) hx with hx | hx
      · exact .inl (afterFinal_holds (resumeRound_keeps round hpc'.empty).2 hx)
      · exact .inr ⟨rfl, hx⟩
  | @answerRelease permanent call a hpc =>
      obtain rfl : a = .ok := hclean
      have hx := hheld hpc (fun _ h => by cases h)
      rw [hpc] at hpc'
      obtain ⟨-, hc, hf, hout⟩ := hpc'
      refine .inr ⟨rfl, call, by rw [hpc]; rfl, ?_, .inr (hrel call (.inr ⟨permanent, hpc⟩))⟩
      simp only [Books.entries, hc, hf, List.map_nil, List.append_nil] at hx
      obtain ⟨o, ho, rfl⟩ := List.mem_map.mp hx
      exact hout o ho
  | stop hpc => exact .inl (shutdown_holds (hheld hpc (fun _ h => by cases h)))
  | @drainLeave deadline permanent hpc =>
      have hx := hheld hpc (fun _ h => by cases h)
      rw [hpc] at hpc'
      obtain rfl : permanent = none := hpc'
      exact .inl (leaveDrain_holds hx)
  | drainJoin hpc =>
      have hx := hheld hpc (fun _ h => by cases h)
      refine .inl (afterDrainRound_holds ?_)
      rw [(startRound_keeps (E := E)).entries]
      exact (entries_join hb hcalm habort _).2 hx
  | drainDeadline hpc => exact .inl (leaveDrain_holds (hheld hpc (fun _ h => by cases h)))

/-- With nothing pending, the log of claims says what has been spawned. -/
theorem Books.Settled.spawned_eq {b : Books} (h : b.Settled d) :
    b.hist.spawned = (List.range b.hist.acquired.length).zip
      (b.hist.acquired.map PendingRow.ofClaimed) := by
  have hrows := h.sound.rows
  rw [h.pending, List.append_nil] at hrows
  have hlen : b.nextTask = b.hist.acquired.length := by
    have hids := congrArg List.length h.sound.ids
    have hsnd := congrArg List.length hrows
    simp only [List.length_map, List.length_range] at hids hsnd
    exact hids.symm.trans hsnd.symm
  rw [hrows, ← hlen, ← h.sound.ids, ← List.unzip_fst, ← List.unzip_snd, List.zip_unzip]

/-- A claim that is new is on its way. -/
theorem spawned_of_step [Classify E] (h : Step d s e s') (hs : s.books.Settled d)
    (hs' : s'.books.Settled d) {t : TaskId} {row : PendingRow}
    (ht : (t, row) ∈ s'.books.hist.spawned) :
    (t, row) ∈ s.books.hist.spawned ∨ s'.Holds (t, row.message) := by
  rcases acquired_of_step h with hsame | ⟨call, request, records, poisoned, -, -, -, hb, hpc⟩
  · left
    rw [hs'.spawned_eq, hsame, ← hs.spawned_eq] at ht
    exact ht
  · have htakes := s.books.claim_takesOn records
    rw [← hb] at htakes
    refine (htakes.spawned t row ht).imp_right fun hheld => holds_of_entries hheld ?_
    intro result h
    rw [hpc] at h
    cases h

end

/-! ### A new call has not been carried out -/

section
variable {E : Type} {d : OutboxDispatcher} {s s' : RunState E} {e : Event E}

/-- Whatever is awaited was just issued. -/
def Progress.Fresh : Progress E → Prop
  | .awaiting round => round.call.applied = none
  | .done _ _ => True

theorem failHalf_fresh (lease : Duration) (now : Instant) (anyFailed : Bool) (b : Books) :
    (failHalf (E := E) lease now anyFailed b).2.Fresh := by
  simp only [failHalf]
  split
  · trivial
  · exact rfl

theorem startRound_fresh (lease : Duration) (now : Instant) (b : Books) :
    (startRound (E := E) lease now b).2.Fresh := by
  unfold startRound
  split
  · exact failHalf_fresh lease now false b
  · exact rfl

theorem resumeRound_fresh [Classify E] (lease : Duration) (now : Instant) (b : Books)
    (round : Round) (a : Answer E) : (resumeRound lease now b round a).2.Fresh := by
  unfold resumeRound
  split <;> try split
  all_goals first | trivial | exact failHalf_fresh lease now _ _

/-- The call `run` awaits, if any, was just issued. -/
def RunState.Issuing (s : RunState E) : Prop :=
  ∀ call, s.pc.call? = some call → call.applied = none

theorem issuing_of_none (h : s.pc.call? = none) : s.Issuing := by
  intro call hcall
  rw [h] at hcall
  cases hcall

theorem afterRetry_issuing {at_ : LoopHead} {p : Books × Progress E} (hp : p.2.Fresh) :
    (afterRetry d s at_ p).Issuing := by
  cases hprog : p.2 with
  | awaiting round =>
      intro call hcall
      simp only [afterRetry, hprog, Pc.call?, Option.some.injEq] at hcall
      rw [hprog] at hp
      rw [← hcall]
      exact hp
  | done anyFailed permanent =>
      refine issuing_of_none ?_
      cases permanent <;> simp only [afterRetry, hprog, finishRetry, Pc.call?]

theorem afterDrainRound_issuing {deadline : Instant} {p : Books × Progress E} (hp : p.2.Fresh) :
    (afterDrainRound s deadline p).Issuing := by
  cases hprog : p.2 with
  | awaiting round =>
      intro call hcall
      simp only [afterDrainRound, hprog, Pc.call?, Option.some.injEq] at hcall
      rw [hprog] at hp
      rw [← hcall]
      exact hp
  | done anyFailed permanent => exact issuing_of_none (by simp only [afterDrainRound, hprog, Pc.call?])

theorem finalize_issuing (permanent : Option E) : (finalize s permanent).Issuing := by
  simp only [finalize]
  split
  · exact issuing_of_none rfl
  · intro call hcall
    cases hcall
    rfl

theorem afterFinal_issuing {p : Books × Progress E} (hp : p.2.Fresh) :
    (afterFinal s p).Issuing := by
  cases hprog : p.2 with
  | awaiting round =>
      intro call hcall
      simp only [afterFinal, hprog, Pc.call?, Option.some.injEq] at hcall
      rw [hprog] at hp
      rw [← hcall]
      exact hp
  | done anyFailed permanent =>
      simp only [afterFinal, hprog]
      exact finalize_issuing permanent

theorem leaveDrain_issuing (permanent : Option E) : (leaveDrain d s permanent).Issuing := by
  cases permanent with
  | none => exact afterFinal_issuing (startRound_fresh _ _ _)
  | some err => exact finalize_issuing (some err)

/-- A step of `run` stays at the call it awaits, or awaits one it has just issued, or none. -/
theorem call_of_step [Classify E] (h : Step d s e s') (he : ∀ reply, e ≠ .apply reply) :
    s'.pc = s.pc ∨ s'.Issuing := by
  have hissue : ∀ {s : RunState E} {op : StoreCall} {now : Instant},
      s.pc = .body (.issue op now) → s.Issuing := by
    intro s op now hpc call hcall
    rw [hpc] at hcall
    cases hcall
    rfl
  cases h with
  | tick | cancel | task => exact .inl rfl
  | apply => exact absurd rfl (he _)
  | crash | fireCancel | fireJoin | answerReleasing | answerRelease | drainStay =>
      exact .inr (issuing_of_none rfl)
  | enter =>
      refine .inr (issuing_of_none ?_)
      simp only [enterSelect]
      split <;> rfl
  | fireLease | fireStats | fireClaim => exact .inr (hissue rfl)
  | retryWakes => exact .inr (afterRetry_issuing (startRound_fresh _ _ _))
  | answerRetry => exact .inr (afterRetry_issuing (resumeRound_fresh _ _ _ _ _))
  | @answerBody call a =>
      refine .inr (issuing_of_none ?_)
      rcases afterBody_pc (d := d) (s := s) call a with hpc | hpc <;> rw [hpc] <;> rfl
  | answerDrain => exact .inr (afterDrainRound_issuing (resumeRound_fresh _ _ _ _ _))
  | drainJoin => exact .inr (afterDrainRound_issuing (startRound_fresh _ _ _))
  | answerFinal => exact .inr (afterFinal_issuing (resumeRound_fresh _ _ _ _ _))
  | stop =>
      right
      simp only [shutdown, beginDrain]
      split
      · exact issuing_of_none rfl
      · intro call hcall
        cases hcall
        rfl
  | drainLeave | drainDeadline => exact .inr (leaveDrain_issuing _)

/-- `Ok` is the answer of a call that was carried out. -/
theorem applied_of_ok [Classify E] (h : Step d s (.answer .ok) s') {call : Call}
    (hc : s.pc.call? = some call) : call.applied.isSome = true := by
  cases h with
  | task hid => cases hid
  | answerRetry hpc _ ha | answerDrain hpc ha | answerFinal hpc ha | answerBody hpc ha
  | answerReleasing hpc ha | answerRelease hpc ha =>
      simp only [hpc, Pc.call?, Option.some.injEq] at hc
      rw [← hc]
      exact ha

end

end Reliar.Dispatcher
