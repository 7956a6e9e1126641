/-
# `Reliar.Dispatcher.Pacing` — how long an outcome may stay unwritten
(`reliar-outbox`: `dispatcher.rs`, `retry_unwritten_outcomes_when_due`, `expire_past_lease`)

An outcome older than `lease` is dropped by `expire_past_lease`, which runs only
inside a retry round whose store call has come to its end.  The round is one
branch of a biased `select!`: whenever another branch wins, it starts over.

Time is `timely` here: it passes only while `run` has nothing to do, so every
delay is one the code itself allows.

* `renewals_unbounded`: under the default settings no bound exists.  With
  `complete` hanging, the claim timer (`idle_poll_interval`, 5 s) overtakes every
  round before its `store_timeout` (10 s), and renewals of the row go on for
  ever.
* `renewals_within`: it takes that.  Each time a due round is overtaken costs at
  most three store timeouts, and without it the outcome is gone by `lease`,
  `outcome_retry_interval` and a store timeout.
-/
import Reliar.Dispatcher.Moves

namespace Reliar.Dispatcher

open Reliar.Core Reliar.Outbox

section
variable {E : Type} [Classify E]

/-! ## Time passes only while `run` waits -/

/-- The instants up to which `run` may stay suspended where it is. -/
def waitsUntil (d : OutboxDispatcher) (s : RunState E) : List Instant :=
  match s.pc with
  | .head | .stopping | .drainHead _ _ => [s.now]
  | .select at_ fut =>
      (if s.cancelled || s.books.joinReady then [s.now] else []) ++
        (if 0 < at_.outstandingCount then [s.leaseDue] else []) ++ s.statsDue.toList ++
        (match fut with
          | .disabled => []
          | .sleeping => [s.nextOutcomeRetryAt]
          | .running round => [round.call.since + d.settings.storeTimeout]) ++
        (if at_.outstandingCount < d.settings.maxInFlight then [s.nextPollAt] else [])
  | .body call | .releasing call | .finalRelease _ call =>
      [call.since + d.settings.storeTimeout]
  | .drainSelect deadline => (if s.books.joinReady then [s.now] else []) ++ [deadline]
  | .drainRound _ round | .finalRound round => [round.call.since + d.settings.storeTimeout]
  | .returned _ | .crashed => []

/-- Only a tick can be untimely. -/
def timely (d : OutboxDispatcher) (s : RunState E) : Event E → Bool
  | .tick elapsed => (waitsUntil d s).all fun deadline => decide (s.now + elapsed ≤ deadline)
  | _ => true

def timedNext (d : OutboxDispatcher) (s : RunState E) (e : Event E) : Option (RunState E) :=
  if timely d s e then next d s e else none

/-- Runs in which `run` is never kept waiting. -/
abbrev TimedRun (d : OutboxDispatcher) (now : Instant) (es : List (Event E)) (s : RunState E) :
    Prop :=
  Machine.Path (Machine.Next (timedNext d)) (RunState.start d.settings now) es s

theorem next_of_timedNext {d : OutboxDispatcher} {s s' : RunState E} {e : Event E}
    (h : timedNext d s e = some s') : timely d s e = true ∧ next d s e = some s' := by
  unfold timedNext at h
  split at h
  · rename_i ht; exact ⟨ht, h⟩
  · cases h

/-- If `s` is renewing, no outcome among the renewed rows has been unwritten for longer than
`bound`. -/
def RenewsWithin (bound : Duration) (s : RunState E) : Prop :=
  ∀ call refs lease, s.pc = .body call → call.op = .extendLease refs lease →
    (∀ e ∈ s.books.unwrittenComplete, e.item.message ∈ refs → call.since ≤ e.since + bound) ∧
    (∀ e ∈ s.books.unwrittenFail, e.item.message ∈ refs → call.since ≤ e.since + bound)

/-! ## Overtaken rounds -/

/-- Another branch wins an iteration in which the round is due or under way, past the instant
`old`. -/
def overtakes (old : Instant) (s : RunState E) (e : Event E) : Bool :=
  decide (old < s.now) && decide (s.nextOutcomeRetryAt ≤ s.now) &&
    match e with
    | .fireJoin _ | .fireLease | .fireStats | .fireClaim => true
    | _ => false

/-- How often that happens along a run. -/
def overtaken (d : OutboxDispatcher) (old : Instant) : RunState E → List (Event E) → Nat
  | _, [] => 0
  | s, e :: es =>
      (if overtakes old s e then 1 else 0) +
        match next d s e with
        | some s' => overtaken d old s' es
        | none => 0

theorem overtaken_snoc {d : OutboxDispatcher} {old : Instant} {e : Event E} :
    ∀ {s s' : RunState E} {es : List (Event E)},
      Machine.exec (next d) s es = some s' →
      overtaken d old s (es ++ [e]) = overtaken d old s es + if overtakes old s' e then 1 else 0
  | s, s', [], h => by
      cases h
      simp only [List.nil_append, overtaken, Nat.zero_add]
      cases next d s e <;> rfl
  | s, s', f :: es, h => by
      have h' : (next d s f).bind (fun s₁ => Machine.exec (next d) s₁ es) = some s' := h
      obtain ⟨s₁, h₁, h₂⟩ := Option.bind_eq_some_iff.mp h'
      simp only [List.cons_append, overtaken, h₁]
      rw [overtaken_snoc h₂]
      lia

end

/-! ## The bound

For an outcome unwritten since `since` whose due rounds have been overtaken `c` times past
`since + lease`, `paceLimit` bounds the clock at every loop head. -/

def outcomeBound (s : DispatcherSettings) (c : Nat) : Duration :=
  s.lease + s.outcomeRetryInterval + (1 + 3 * c) * s.storeTimeout

/-- A round that ends with the outcome still there ends by `since + lease + store_timeout`, so the
next one is due by then plus the interval. -/
def dueLimit (s : DispatcherSettings) (since : Instant) : Instant :=
  since + s.lease + s.storeTimeout + s.outcomeRetryInterval

def paceLimit (s : DispatcherSettings) (since : Instant) (c : Nat) : Instant :=
  dueLimit s since + s.storeTimeout + 3 * s.storeTimeout * c

/-- The bounds on the clock, by where `run` is suspended; `k` tells the two lists apart. -/
def PacedAt {E : Type} (d : OutboxDispatcher) (c : Nat) (since : Instant) (k : Bool)
    (now : Instant) : Pc E → Prop
  | .head => now ≤ paceLimit d.settings since c
  | .select _ .disabled => False
  | .select _ .sleeping => now ≤ paceLimit d.settings since c
  | .select _ (.running (.completing call)) =>
      call.since ≤ paceLimit d.settings since c ∧ now ≤ call.since + d.settings.storeTimeout
  | .select _ (.running (.failing _ call)) =>
      call.since ≤ paceLimit d.settings since c + d.settings.storeTimeout ∧
        now ≤ call.since + d.settings.storeTimeout ∧
        (k = true → call.since ≤ since + d.settings.lease)
  | .body call =>
      call.since + d.settings.storeTimeout ≤ paceLimit d.settings since c ∧
        now ≤ call.since + d.settings.storeTimeout
  | _ => True

def Paced {E : Type} (d : OutboxDispatcher) (c : Nat) (since : Instant) (k : Bool)
    (s : RunState E) : Prop :=
  s.nextOutcomeRetryAt ≤ dueLimit d.settings since ∧ PacedAt d c since k s.now s.pc

/-- Since when the outcomes of one of the two lists have been unwritten. -/
def Books.waits (b : Books) : Bool → List Instant
  | true => b.unwrittenComplete.map (·.since)
  | false => b.unwrittenFail.map (·.since)

/-- Every unwritten outcome is paced; `cnt` counts the overtaken rounds past an instant. -/
structure PacedAll {E : Type} (d : OutboxDispatcher) (cnt : Instant → Nat) (s : RunState E) :
    Prop where
  due : s.nextOutcomeRetryAt ≤ s.now + d.settings.outcomeRetryInterval
  all : ∀ k, ∀ since ∈ s.books.waits k,
    since ≤ s.now ∧ Paced d (cnt (since + d.settings.lease)) since k s

/-! ### Limits -/

theorem dueLimit_le (s : DispatcherSettings) (since : Instant) (c : Nat) :
    dueLimit s since + s.storeTimeout ≤ paceLimit s since c := by
  unfold paceLimit; lia

theorem old_le (s : DispatcherSettings) (since : Instant) :
    since + s.lease + s.storeTimeout + s.outcomeRetryInterval = dueLimit s since := rfl

theorem paceLimit_succ (s : DispatcherSettings) (since : Instant) (c : Nat) :
    paceLimit s since (c + 1) = paceLimit s since c + 3 * s.storeTimeout := by
  simp only [paceLimit, Nat.mul_succ]; lia

theorem paceLimit_mono (s : DispatcherSettings) (since : Instant) {c c' : Nat} (h : c ≤ c') :
    paceLimit s since c ≤ paceLimit s since c' := by
  simp only [paceLimit]
  have := Nat.mul_le_mul_left (3 * s.storeTimeout) h
  lia

/-! ### Where unwritten outcomes come from -/

section
variable {E : Type} {d : OutboxDispatcher} {s s' : RunState E} {e : Event E}

theorem spawnReady_waits (b : Books) (k : Bool) : b.spawnReady.waits k = b.waits k := by
  suffices h : ∀ (rows : List PendingRow) (b : Books),
      (rows.foldl Books.spawn b).waits k = b.waits k by
    rw [Books.spawnReady, h]; cases k <;> rfl
  intro rows
  induction rows with
  | nil => intro b; rfl
  | cons row rest ih => intro b; rw [List.foldl_cons, ih]; cases k <;> rfl

theorem recordOne_waits {retry : RetryPolicy} {now : Instant} {unit : ℚ} {b : Books}
    {t : PublishTask} {k : Bool} {since : Instant}
    (h : since ∈ (Books.recordOne retry now unit b t).waits k) :
    since ∈ b.waits k ∨ since = now := by
  simp only [Books.recordOne] at h
  split at h
  · cases k
    · exact .inl h
    · simpa [Books.waits, Books.removeOutstanding] using h
  · cases k
    · simpa [Books.waits, Books.removeOutstanding] using h
    · exact .inl h
  · cases k <;> exact .inl h

/-- A joined result is unwritten from now on; the others were already. -/
theorem join_waits (retry : RetryPolicy) (now : Instant) {k : Bool} {since : Instant} :
    ∀ (joined : List (TaskId × ℚ)) (b : Books),
      since ∈ (b.join retry now joined).waits k → since ∈ b.waits k ∨ since = now
  | [], _, h => .inl h
  | j :: rest, b, h => by
      have hrest : since ∈ ((b.joinOne retry now j).join retry now rest).waits k := h
      rcases join_waits retry now rest _ hrest with h₁ | h₁
      · unfold Books.joinOne at h₁
        split at h₁
        · rcases recordOne_waits h₁ with h₂ | h₂
          · exact .inl (by cases k <;> exact h₂)
          · exact .inr h₂
        · exact .inl h₁
      · exact .inr h₁

theorem mem_waits_filter {α : Type} {l : List (Unwritten α)} {lease : Duration} {now since : Instant}
    (h : since ∈ (l.filter (Books.keeps lease now)).map (·.since)) :
    since ∈ l.map (·.since) ∧ now ≤ since + lease := by
  obtain ⟨e, he, rfl⟩ := List.mem_map.mp h
  obtain ⟨hmem, hk⟩ := List.mem_filter.mp he
  refine ⟨List.mem_map.mpr ⟨e, hmem, rfl⟩, ?_⟩
  simp only [Books.keeps, decide_eq_true_eq] at hk
  lia

theorem expireComplete_waits {lease : Duration} {now : Instant} {b : Books} {k : Bool}
    {since : Instant} (h : since ∈ (b.expireComplete lease now).waits k) :
    since ∈ b.waits k ∧ (k = true → now ≤ since + lease) := by
  cases k
  · exact ⟨h, fun hk => nomatch hk⟩
  · obtain ⟨h₁, h₂⟩ := mem_waits_filter h
    exact ⟨h₁, fun _ => h₂⟩

theorem expireFail_waits {lease : Duration} {now : Instant} {b : Books} {k : Bool}
    {since : Instant} (h : since ∈ (b.expireFail lease now).waits k) :
    since ∈ b.waits k ∧ (k = false → now ≤ since + lease) := by
  cases k
  · obtain ⟨h₁, h₂⟩ := mem_waits_filter h
    exact ⟨h₁, fun _ => h₂⟩
  · exact ⟨h, fun hk => nomatch hk⟩

/-- What a stretch of a round says of an outcome that survives it. -/
def Survives (lease : Duration) (now since : Instant) (k : Bool) : Progress E → Prop
  | .awaiting (.completing call) => call.since = now
  | .awaiting (.failing _ call) => call.since = now ∧ (k = true → now ≤ since + lease)
  | .done _ _ => now ≤ since + lease

theorem failHalf_waits {lease : Duration} {now : Instant} {anyFailed : Bool} {b : Books}
    {k : Bool} {since : Instant} (h : since ∈ (failHalf (E := E) lease now anyFailed b).1.waits k) :
    since ∈ b.waits k ∧
      Survives lease now since k (failHalf (E := E) lease now anyFailed b).2 := by
  simp only [failHalf] at h ⊢
  split at h
  · rename_i hempty
    obtain ⟨h₁, hfail⟩ := expireFail_waits h
    obtain ⟨h₂, hcomp⟩ := expireComplete_waits h₁
    rw [if_pos hempty]
    exact ⟨h₂, by cases k; exacts [hfail rfl, hcomp rfl]⟩
  · rename_i hne
    obtain ⟨h₂, hcomp⟩ := expireComplete_waits h
    rw [if_neg hne]
    exact ⟨h₂, rfl, hcomp⟩

theorem startRound_waits {lease : Duration} {now : Instant} {b : Books} {k : Bool}
    {since : Instant} (h : since ∈ (startRound (E := E) lease now b).1.waits k) :
    since ∈ b.waits k ∧ Survives lease now since k (startRound (E := E) lease now b).2 := by
  unfold startRound at h ⊢
  split at h
  · rename_i hempty; rw [if_pos hempty]; exact failHalf_waits h
  · rename_i hne; rw [if_neg hne]; exact ⟨h, rfl⟩

/-- After the `complete` half every survivor is young; after the `fail` half those of the second
list are. -/
theorem resumeRound_waits [Classify E] {lease : Duration} {now : Instant} {b : Books}
    {round : Round} {a : Answer E} {k : Bool} {since : Instant}
    (h : since ∈ (resumeRound lease now b round a).1.waits k)
    (hperm : ∀ af e, (resumeRound lease now b round a).2 ≠ .done af (some e)) :
    since ∈ b.waits k ∧
      ((∃ call, round = .completing call) ∨ k = false →
        Survives lease now since k (resumeRound lease now b round a).2) ∧
      ((∃ af call, round = .failing af call) →
        ∃ af, (resumeRound lease now b round a).2 = .done af none) := by
  have hclear : ∀ since, since ∈ b.clearComplete.waits k → since ∈ b.waits k := by
    intro since h; cases k
    · exact h
    · simp [Books.waits, Books.clearComplete] at h
  unfold resumeRound at h hperm ⊢
  cases round with
  | completing call =>
      refine ⟨?_, fun _ => ?_, by rintro ⟨_, _, hf⟩; cases hf⟩ <;> cases a <;>
        simp only at h hperm ⊢
      case refine_1.ok => exact hclear _ (failHalf_waits h).1
      case refine_2.ok => exact (failHalf_waits h).2
      case refine_1.elapsed => exact (failHalf_waits h).1
      case refine_2.elapsed => exact (failHalf_waits h).2
      all_goals
        split at h
        · rename_i hk; rw [if_pos hk] at hperm; exact absurd rfl (hperm _ _)
        · rename_i hk
          try rw [if_neg hk]
          first | exact (failHalf_waits h).1 | exact (failHalf_waits h).2
  | failing af call =>
      have hdone : ∀ b' : Books, (∀ since, since ∈ b'.waits k → since ∈ b.waits k) →
          since ∈ (b'.expireFail lease now).waits k →
          since ∈ b.waits k ∧ (k = false → now ≤ since + lease) := fun b' hb' hm =>
        ⟨hb' _ (expireFail_waits hm).1, (expireFail_waits hm).2⟩
      have hclearF : ∀ since, since ∈ b.clearFail.waits k → since ∈ b.waits k := by
        intro since h; cases k
        · simp [Books.waits, Books.clearFail] at h
        · exact h
      cases a <;> simp only at h hperm ⊢
      case ok =>
        obtain ⟨h₁, h₂⟩ := hdone _ hclearF h
        exact ⟨h₁, fun hk => h₂ (hk.resolve_left (by rintro ⟨_, hc⟩; cases hc)), fun _ => ⟨_, rfl⟩⟩
      case elapsed =>
        obtain ⟨h₁, h₂⟩ := hdone b (fun _ h => h) h
        exact ⟨h₁, fun hk => h₂ (hk.resolve_left (by rintro ⟨_, hc⟩; cases hc)), fun _ => ⟨_, rfl⟩⟩
      case err =>
        split at h
        · rename_i hk; rw [if_pos hk] at hperm; exact absurd rfl (hperm _ _)
        · rename_i hk
          rw [if_neg hk]
          obtain ⟨h₁, h₂⟩ := hdone b (fun _ h => h) h
          exact ⟨h₁, fun hk => h₂ (hk.resolve_left (by rintro ⟨_, hc⟩; cases hc)), fun _ => ⟨_, rfl⟩⟩

end

/-! ### Steps -/

section
variable {E : Type} {d : OutboxDispatcher} {s s' : RunState E} {e : Event E}
  {c : Nat} {since : Instant} {k : Bool}

/-- In `select!` the clock is at most two store timeouts past the last loop head. -/
theorem Paced.select_now {at_ : LoopHead} {fut : RetryFut} (h : Paced d c since k s)
    (hpc : s.pc = .select at_ fut) :
    s.now ≤ paceLimit d.settings since c + 2 * d.settings.storeTimeout := by
  obtain ⟨-, h⟩ := h
  rw [hpc] at h
  cases fut with
  | disabled => exact h.elim
  | sleeping => simp only [PacedAt] at h; lia
  | running round => cases round <;> simp only [PacedAt] at h <;> lia

/-- A branch that wins: either the round was not due, or this is counted. -/
theorem Paced.fire {at_ : LoopHead} {fut : RetryFut} (h : Paced d c since k s)
    (hpc : s.pc = .select at_ fut)
    (hfire : overtakes (since + d.settings.lease) s e = false →
      s.now ≤ since + d.settings.lease ∨ s.now < s.nextOutcomeRetryAt) :
    s.now + d.settings.storeTimeout ≤ paceLimit d.settings since
      (c + if overtakes (since + d.settings.lease) s e then 1 else 0) := by
  cases ho : overtakes (since + d.settings.lease) s e with
  | true =>
      rw [if_pos rfl, paceLimit_succ]
      have := h.select_now hpc
      lia
  | false =>
      rw [if_neg (by decide), Nat.add_zero]
      have hdue := h.1
      have hlim := dueLimit_le d.settings since c
      have hold := old_le d.settings since
      rcases hfire ho with hn | hn <;> lia

theorem overtakes_fire {old : Instant} (he : (match e with
      | .fireJoin _ | .fireLease | .fireStats | .fireClaim => true
      | _ => false) = true) (h : overtakes old s e = false) :
    s.now ≤ old ∨ s.now < s.nextOutcomeRetryAt := by
  simp only [overtakes, he, Bool.and_true, Bool.and_eq_false_iff, decide_eq_false_iff_not,
    not_lt, not_le] at h
  exact h

/-- More overtaken rounds, later limits. -/
theorem PacedAt.mono {c' : Nat} {now : Instant} (hc : c ≤ c') :
    ∀ {pc : Pc E}, PacedAt d c since k now pc → PacedAt d c' since k now pc
  | .head, h => h.trans (paceLimit_mono _ _ hc)
  | .select _ .disabled, h => h
  | .select _ .sleeping, h => h.trans (paceLimit_mono _ _ hc)
  | .select _ (.running (.completing _)), ⟨h₁, h₂⟩ => ⟨h₁.trans (paceLimit_mono _ _ hc), h₂⟩
  | .select _ (.running (.failing _ _)), ⟨h₁, h₂⟩ =>
      ⟨h₁.trans (Nat.add_le_add_right (paceLimit_mono _ _ hc) _), h₂⟩
  | .body _, ⟨h₁, h₂⟩ => ⟨h₁.trans (paceLimit_mono _ _ hc), h₂⟩
  | .stopping, _ | .releasing _, _ | .drainHead _ _, _ | .drainSelect _, _ | .drainRound _ _, _
  | .finalRound _, _ | .finalRelease _ _, _ | .returned _, _ | .crashed, _ => trivial

/-- Time passes only up to the suspension's own limit. -/
theorem PacedAt.tick {elapsed : Duration} (ht : timely d s (.tick elapsed) = true)
    (hdue : s.nextOutcomeRetryAt ≤ dueLimit d.settings since)
    (h : PacedAt d c since k s.now s.pc) : PacedAt d c since k (s.now + elapsed) s.pc := by
  have hle : ∀ deadline ∈ waitsUntil d s, s.now + elapsed ≤ deadline := by
    simpa only [timely, List.all_eq_true, decide_eq_true_eq] using ht
  have hlim := dueLimit_le d.settings since c
  cases hpc : s.pc with
  | head =>
      have := hle s.now (by simp [waitsUntil, hpc])
      rw [hpc] at h
      simp only [PacedAt] at h ⊢
      lia
  | select at_ fut =>
      rw [hpc] at h
      cases fut with
      | disabled => exact h
      | sleeping =>
          have := hle s.nextOutcomeRetryAt (by simp [waitsUntil, hpc])
          simp only [PacedAt] at h ⊢
          lia
      | running round =>
          have := hle (round.call.since + d.settings.storeTimeout) (by simp [waitsUntil, hpc])
          cases round with
          | completing call => exact ⟨h.1, this⟩
          | failing anyFailed call => exact ⟨h.1, this, h.2.2⟩
  | body call =>
      have := hle (call.since + d.settings.storeTimeout) (by simp [waitsUntil, hpc])
      rw [hpc] at h
      exact ⟨h.1, this⟩
  | _ => trivial

/-- Carrying out a call does not move its start. -/
theorem PacedAt.setCall {call : Call} {reply : Option Reply} {now : Instant} {pc : Pc E}
    (hc : pc.call? = some call) (h : PacedAt d c since k now pc) :
    PacedAt d c since k now (pc.setCall { call with applied := reply }) := by
  cases pc with
  | select at_ fut =>
      cases fut with
      | disabled => exact h
      | sleeping => exact h
      | running round =>
          cases hc
          cases round <;> exact h
  | body => cases hc; exact h
  | _ => trivial

/-- Back at the head within `store_timeout` of the age limit. -/
theorem Paced.finishRetry {anyFailed : Bool}
    (hn : s.now ≤ since + d.settings.lease + d.settings.storeTimeout) :
    Paced d c since k (finishRetry d s anyFailed none) := by
  have hlim := dueLimit_le d.settings since c
  have hold := old_le d.settings since
  refine ⟨?_, ?_⟩
  · simp only [Reliar.Dispatcher.finishRetry]
    split <;> lia
  · simp only [Reliar.Dispatcher.finishRetry, PacedAt]
    lia

/-- A stretch of a round that began in time and that the outcome survived. -/
theorem Paced.afterRetry {p : Books × Progress E} (h : Paced d c since k s) (at_ : LoopHead)
    (hn : s.now ≤ paceLimit d.settings since c + d.settings.storeTimeout)
    (hnc : ∀ call, p.2 = .awaiting (.completing call) → s.now ≤ paceLimit d.settings since c)
    (hsv : Survives d.settings.lease s.now since k p.2) (hperm : ∀ af e, p.2 ≠ .done af (some e)) :
    Paced d c since k (afterRetry d s at_ p) := by
  simp only [Reliar.Dispatcher.afterRetry]
  split
  · rename_i round hround
    rw [hround] at hsv
    refine ⟨h.1, ?_⟩
    cases round with
    | completing call =>
        have hsv' : call.since = s.now := hsv
        have := hnc call hround
        exact ⟨by lia, by lia⟩
    | failing anyFailed call =>
        obtain ⟨hcs, hk⟩ := hsv
        exact ⟨by lia, by lia, fun h => by have := hk h; lia⟩
  · rename_i anyFailed permanent hdone
    cases permanent with
    | some e => exact absurd hdone (hperm anyFailed e)
    | none =>
        rw [hdone] at hsv
        have hsv' : s.now ≤ since + d.settings.lease := hsv
        exact Paced.finishRetry (by show s.now ≤ _; lia)

end

section
variable {E : Type} {d : OutboxDispatcher} {s s' : RunState E} {e : Event E}
  {cnt cnt' : Instant → Nat}

/-- A branch of `select!` wins, and the new outcomes are unwritten from now. -/
theorem PacedAll.fire {at_ : LoopHead} {fut : RetryFut} (h : PacedAll d cnt s)
    (hpc : s.pc = .select at_ fut) (hnow : s'.now = s.now)
    (hdue : s'.nextOutcomeRetryAt = s.nextOutcomeRetryAt)
    (hwaits : ∀ k, ∀ since ∈ s'.books.waits k, since ∈ s.books.waits k ∨ since = s.now)
    (hfire : ∀ old, overtakes old s e = false → s.now ≤ old ∨ s.now < s.nextOutcomeRetryAt)
    (hto : ∀ since c k, s.now + d.settings.storeTimeout ≤ paceLimit d.settings since c →
      PacedAt d c since k s'.now s'.pc) :
    PacedAll d (fun old => cnt old + if overtakes old s e then 1 else 0) s' := by
  refine ⟨by rw [hdue, hnow]; exact h.due, fun k since hs => ?_⟩
  rcases hwaits k since hs with hs | hs
  · obtain ⟨hle, hp⟩ := h.all k since hs
    refine ⟨by rw [hnow]; exact hle, by rw [hdue]; exact hp.1, ?_⟩
    exact hto _ _ _ (hp.fire hpc (hfire _))
  · have hlim := dueLimit_le d.settings since
      (cnt (since + d.settings.lease) + if overtakes (since + d.settings.lease) s e then 1 else 0)
    have hold := old_le d.settings since
    have hd := h.due
    refine ⟨by lia, by lia, hto _ _ _ (by lia)⟩

/-- Nothing but the clock, a task or a reply changed. -/
theorem PacedAll.keep (h : PacedAll d cnt s) (hcnt : ∀ old, cnt old ≤ cnt' old)
    (hnow : s.now ≤ s'.now) (hdue : s'.nextOutcomeRetryAt = s.nextOutcomeRetryAt)
    (hwaits : ∀ k, s'.books.waits k = s.books.waits k)
    (hto : ∀ k, ∀ since ∈ s.books.waits k, ∀ c, Paced d c since k s →
      PacedAt d c since k s'.now s'.pc) :
    PacedAll d cnt' s' := by
  have hd := h.due
  refine ⟨by lia, fun k since hs => ?_⟩
  rw [hwaits k] at hs
  obtain ⟨hle, hp⟩ := h.all k since hs
  exact ⟨hle.trans hnow, by rw [hdue]; exact hp.1, (hto k since hs _ hp).mono (hcnt _)⟩

theorem waits_of_taskStep {t : PublishTask} {b : Books} (h : taskStep d s t e = some b) (k : Bool) :
    b.waits k = s.books.waits k := by
  obtain ⟨h₁, h₂⟩ := taskStep_unwritten h
  cases k
  · simp only [Books.waits, h₂]
  · simp only [Books.waits, h₁]

theorem hasUnwritten_of_waits {b : Books} {k : Bool} {since : Instant} (h : since ∈ b.waits k) :
    b.hasUnwritten = true := by
  cases k
  all_goals
    obtain ⟨x, hx, -⟩ := List.mem_map.mp h
    simp [Books.hasUnwritten, List.ne_nil_of_mem hx]

theorem finishRetry_due (anyFailed : Bool) (permanent : Option E) :
    (finishRetry d s anyFailed permanent).nextOutcomeRetryAt ≤
        s.now + d.settings.outcomeRetryInterval ∧
      (finishRetry d s anyFailed permanent).now = s.now := by
  simp only [finishRetry]
  split <;> split <;> exact ⟨by simp, rfl⟩

theorem afterRetry_due (at_ : LoopHead) {p : Books × Progress E}
    (hdue : s.nextOutcomeRetryAt ≤ s.now + d.settings.outcomeRetryInterval) :
    (afterRetry d s at_ p).nextOutcomeRetryAt ≤ s.now + d.settings.outcomeRetryInterval ∧
      (afterRetry d s at_ p).now = s.now := by
  simp only [afterRetry]
  split
  · exact ⟨hdue, rfl⟩
  · exact finishRetry_due _ _

theorem resumeRound_not_completing [Classify E] (lease : Duration) (now : Instant) (b : Books)
    (round : Round) (a : Answer E) (call : Call) :
    (resumeRound lease now b round a).2 ≠ .awaiting (.completing call) := by
  unfold resumeRound failHalf
  split <;> (try simp only) <;> (try split) <;> (try split) <;> simp

theorem afterBody_frame [Classify E] (call : Call) (a : Answer E) :
    (afterBody d s call a).now = s.now ∧
      (afterBody d s call a).nextOutcomeRetryAt = s.nextOutcomeRetryAt ∧
      (∀ k, (afterBody d s call a).books.waits k = s.books.waits k) ∧
      ((afterBody d s call a).pc = .head ∨ (afterBody d s call a).pc = .stopping) := by
  unfold afterBody
  split
  · split
    · exact ⟨rfl, rfl, fun _ => rfl, .inl rfl⟩
    · refine ⟨rfl, rfl, fun k => ?_, .inl rfl⟩
      rw [Books.claim, spawnReady_waits]
      cases k <;> rfl
  · split
    · exact ⟨rfl, rfl, fun _ => rfl, .inr rfl⟩
    · exact ⟨rfl, rfl, fun _ => rfl, .inl rfl⟩
  · exact ⟨rfl, rfl, fun _ => rfl, .inl rfl⟩
  · exact ⟨rfl, rfl, fun _ => rfl, .inl rfl⟩

/-- One step of the loop keeps every unwritten outcome paced. -/
theorem pacedAll_of_step [Classify E] (h : Step d s e s') (ht : timely d s e = true)
    (hl : s'.pc.pastLoop = false) (hp : PacedAll d cnt s) :
    PacedAll d (fun old => cnt old + if overtakes old s e then 1 else 0) s' := by
  have hcnt : ∀ old, cnt old ≤ cnt old + if overtakes old s e then 1 else 0 := fun old =>
    Nat.le_add_right _ _
  have hback : s.pc.pastLoop = false := by
    cases hs : s.pc.pastLoop with
    | false => rfl
    | true => rw [pastLoop_of_step h hs] at hl; cases hl
  cases h with
  | tick elapsed =>
      exact hp.keep hcnt (Nat.le_add_right _ _) rfl (fun _ => rfl)
        fun k since _ c hpc => hpc.2.tick ht hpc.1
  | cancel => exact hp.keep hcnt le_rfl rfl (fun _ => rfl) fun _ _ _ _ hpc => hpc.2
  | task _ _ hb =>
      exact hp.keep hcnt le_rfl rfl (waits_of_taskStep hb) fun _ _ _ _ hpc => hpc.2
  | apply hc =>
      exact hp.keep hcnt le_rfl rfl (fun _ => rfl) fun _ _ _ _ hpc => hpc.2.setCall hc
  | enter hpc =>
      refine hp.keep hcnt le_rfl rfl (fun _ => rfl) fun k since hs c hpaced => ?_
      simp only [enterSelect, hasUnwritten_of_waits hs, if_true]
      have := hpaced.2
      rw [hpc] at this
      exact this
  | fireJoin hpc =>
      refine hp.fire hpc rfl rfl (fun k since hs => ?_) (fun _ ho => overtakes_fire rfl ho)
        fun since c k hn => ?_
      · rw [spawnReady_waits] at hs
        exact join_waits _ _ _ _ hs
      · show s.now ≤ _
        lia
  | fireLease hpc | fireStats hpc | fireClaim hpc =>
      exact hp.fire hpc rfl rfl (fun _ _ hs => .inl hs) (fun _ ho => overtakes_fire rfl ho)
        fun since c k hn => ⟨hn, Nat.le_add_right _ _⟩
  | @retryWakes at_ hpc hd hb =>
      obtain ⟨hdue, hnow⟩ := afterRetry_due (d := d) at_
        (p := startRound d.settings.lease s.now s.books) hp.due
      refine ⟨by rw [hnow]; exact hdue, fun k since hs => ?_⟩
      rw [afterRetry_books] at hs
      obtain ⟨hs, hsv⟩ := startRound_waits hs
      obtain ⟨hle, hpaced⟩ := hp.all k since hs
      have hn : s.now ≤ paceLimit d.settings since (cnt (since + d.settings.lease)) := by
        have := hpaced.2
        rw [hpc] at this
        exact this
      have hperm : ∀ af e, (startRound (E := E) d.settings.lease s.now s.books).2 ≠
          .done af (some e) := by
        intro af e
        unfold startRound failHalf
        split
        · simp only; split <;> simp
        · simp
      refine ⟨by rw [hnow]; exact hle, ?_⟩
      have hafter := hpaced.afterRetry at_ (hn.trans (Nat.le_add_right _ _))
        (fun _ _ => hn) hsv hperm
      exact ⟨hafter.1, hafter.2.mono (hcnt _)⟩
  | @answerRetry at_ round a hpc hb ha =>
      obtain ⟨hdue, hnow⟩ := afterRetry_due (d := d) at_
        (p := resumeRound d.settings.lease s.now s.books round a) hp.due
      have hperm : ∀ af e, (resumeRound d.settings.lease s.now s.books round a).2 ≠
          .done af (some e) := by
        intro af e hdone
        simp only [afterRetry, hdone, finishRetry] at hl
        cases hl
      refine ⟨by rw [hnow]; exact hdue, fun k since hs => ?_⟩
      rw [afterRetry_books] at hs
      obtain ⟨hs, hsv, hfail⟩ := resumeRound_waits hs hperm
      obtain ⟨hle, hpaced⟩ := hp.all k since hs
      refine ⟨by rw [hnow]; exact hle, ?_⟩
      have hat := hpaced.2
      rw [hpc] at hat
      cases round with
      | completing call =>
          obtain ⟨hcs, hnc⟩ := hat
          have hafter := hpaced.afterRetry at_ (by lia)
            (fun _ hc => absurd hc (resumeRound_not_completing _ _ _ _ _ _)) (hsv (.inl ⟨call, rfl⟩))
            hperm
          exact ⟨hafter.1, hafter.2.mono (hcnt _)⟩
      | failing anyFailed call =>
          obtain ⟨hcs, hnc, hk⟩ := hat
          obtain ⟨af, hdone⟩ := hfail ⟨anyFailed, call, rfl⟩
          have hn : s.now ≤ since + d.settings.lease + d.settings.storeTimeout := by
            cases k with
            | true => have := hk rfl; lia
            | false =>
                have hsv' := hsv (.inr rfl)
                rw [hdone] at hsv'
                exact Nat.le_add_right_of_le hsv'
          simp only [afterRetry, hdone]
          exact Paced.finishRetry hn
  | @answerBody call a hpc ha =>
      obtain ⟨hnow, hdue, hwaits, hhead⟩ := afterBody_frame (d := d) (s := s) call a
      refine hp.keep hcnt hnow.ge hdue hwaits fun k since _ c hpaced => ?_
      have hat := hpaced.2
      rw [hpc] at hat
      obtain ⟨hcs, hnc⟩ := hat
      rcases hhead with hhead | hhead
      · rw [hhead, hnow]
        exact hnc.trans hcs
      · rw [hhead] at hl; cases hl
  | crash | fireCancel | answerReleasing | answerRelease | drainStay => cases hl
  | answerDrain hpc | answerFinal hpc | stop hpc | drainLeave hpc | drainJoin hpc
  | drainDeadline hpc => rw [hpc] at hback; cases hback

/-! ### Runs -/

/-- What is counted for an outcome unwritten since `since`, along the run `es`. -/
def OvertakenAtMost [Classify E] (d : OutboxDispatcher) (now : Instant) (es : List (Event E))
    (K : Nat) (s : RunState E) : Prop :=
  ∀ k, ∀ since ∈ s.books.waits k,
    overtaken d (since + d.settings.lease) (RunState.start d.settings now) es ≤ K

theorem TimedRun.run [Classify E] {now : Instant} {es : List (Event E)} (h : TimedRun d now es s) :
    Run d now es s :=
  h.mono fun he => (next_of_timedNext he).2

theorem TimedRun.paced [Classify E] {now : Instant} {es : List (Event E)}
    (h : TimedRun d now es s) (hl : s.pc.pastLoop = false) :
    PacedAll d (fun old => overtaken d old (RunState.start d.settings now) es) s := by
  induction h with
  | nil => exact ⟨Nat.le_add_right _ _, fun k since hs => by cases k <;> cases hs⟩
  | @snoc s₁ s₂ es e hp he ih =>
      obtain ⟨ht, hnext⟩ := next_of_timedNext he
      have hstep := step_of_next hnext
      have hl₁ : s₁.pc.pastLoop = false := by
        cases hs : s₁.pc.pastLoop with
        | false => rfl
        | true => rw [pastLoop_of_step hstep hs] at hl; cases hl
      have hexec := Machine.exec_of_path (TimedRun.run hp)
      have hstepped := pacedAll_of_step hstep ht hl (ih hl₁)
      simpa only [overtaken_snoc hexec] using hstepped

/-- Where the due rounds of no outcome older than `lease` are overtaken more than `K` times, every
renewal is within the bound for `K`. -/
theorem renewals_within [Classify E] {now : Instant} {es : List (Event E)} {K : Nat}
    (h : TimedRun d now es s) (hK : OvertakenAtMost d now es K s) :
    RenewsWithin (outcomeBound d.settings K) s := by
  intro call refs lease hpc hop
  have hp := TimedRun.paced h (by rw [hpc]; rfl)
  have key : ∀ k, ∀ since ∈ s.books.waits k,
      call.since ≤ since + outcomeBound d.settings K := by
    intro k since hs
    obtain ⟨-, -, hat⟩ := hp.all k since hs
    rw [hpc] at hat
    obtain ⟨hcs, -⟩ := hat
    have hm := paceLimit_mono d.settings since (hK k since hs)
    have hb : paceLimit d.settings since K =
        since + outcomeBound d.settings K + d.settings.storeTimeout := by
      simp only [paceLimit, dueLimit, outcomeBound, Nat.add_mul, Nat.one_mul]
      have : 3 * d.settings.storeTimeout * K = 3 * K * d.settings.storeTimeout := by ring
      lia
    lia
  exact ⟨fun e he _ => key true _ (List.mem_map.mpr ⟨e, he, rfl⟩),
    fun e he _ => key false _ (List.mem_map.mpr ⟨e, he, rfl⟩)⟩

end

/-! ## No bound at the defaults

`complete` hangs for ever.  Every round is overtaken before its timeout: twice by the claim timer,
then by the lease ticker, the stats ticker and the claim timer again, every 15 seconds. -/

/-- One row is claimed and published; its `complete` is issued, and overtaken by the next claim. -/
def stuckPrefix : List (Event FailureKind) :=
  [.enter, .fireClaim, .apply (.batch [sampleClaim 1] []), .answer .ok, .permit 0,
    .publishReturns 0 .ok, .enter, .fireJoin [(0, 0)], .enter, .retryWakes,
    .tick (Duration.ofMillis 500), .fireClaim, .apply (.batch [] []), .answer .ok]

def stuckBooks : Books :=
  (Machine.reach (timedNext (sample .default)) (RunState.start .default 0) stuckPrefix).books

def stuckHead : LoopHead := ⟨stuckBooks.outstandingCount, stuckBooks.leaseRefs⟩

/-- The loop's head with that outcome unwritten and the timers at the given instants. -/
def stuck (now pollAt leaseAt statsAt : Instant) : RunState FailureKind where
  now := now
  books := stuckBooks
  nextPollAt := pollAt
  leaseDue := leaseAt
  statsDue := some statsAt
  nextOutcomeRetryAt := 0
  exitReason := none
  cancelled := false
  pc := .head

theorem stuck_start : Machine.reach (timedNext (sample .default)) (RunState.start .default 0)
    stuckPrefix = stuck (Duration.ofMillis 500) (Duration.ofMillis 5500) (Duration.ofSecs 15)
      (Duration.ofSecs 15) := by decide

theorem stuck_joinReady : stuckBooks.joinReady = false := by decide
theorem stuck_count : stuckBooks.outstandingCount = 1 := by decide
theorem stuck_hasUnwritten : stuckBooks.hasUnwritten = true := by decide
theorem stuck_complete : stuckBooks.unwrittenComplete ≠ [] := by decide

/-- The same, suspended in a `complete` issued at `since`. -/
def stuckWriting (since now pollAt leaseAt statsAt : Instant) : RunState FailureKind :=
  { stuck now pollAt leaseAt statsAt with
    pc := .select stuckHead (.running (.completing
      (.issue (.complete (stuckBooks.unwrittenComplete.map (·.item))) since))) }

section
variable {now t pollAt leaseAt statsAt : Instant}

theorem sample_maxInFlight : (sample .default).settings.maxInFlight = 16 := rfl
theorem sample_storeTimeout : (sample .default).settings.storeTimeout = Duration.ofSecs 10 := rfl

/-- A round starts and waits until `t`. -/
theorem stuck_writes (hl : now < leaseAt) (hs : now < statsAt) (hn : now ≤ t) (htl : t ≤ leaseAt)
    (hts : t ≤ statsAt) (htp : t ≤ pollAt) (ht : t ≤ now + Duration.ofSecs 10) :
    Machine.exec (timedNext (sample .default)) (stuck now pollAt leaseAt statsAt)
      [.enter, .retryWakes, .tick (t - now)] =
      some (stuckWriting now t pollAt leaseAt statsAt) := by
  have htn : now + (t - now) = t := by lia
  simp [Machine.exec, timedNext, timely, waitsUntil, next, control, environment, selectStep,
    enterSelect, stuck, stuckWriting, stuck_hasUnwritten, stuck_joinReady, stuck_count,
    stuck_complete, RunState.clearAboveRetry, RunState.clearAboveStats, RunState.clearAboveLease,
    RunState.leaseReady, RunState.statsReady, afterRetry, startRound, Pc.live, hl, hs, stuckHead,
    sample_maxInFlight, sample_storeTimeout, Call.issue, Round.call, htn, htl, hts, htp, ht]

/-- The claim timer overtakes the round. -/
theorem stuck_claims (hl : pollAt < leaseAt) (hs : pollAt < statsAt)
    (ht : pollAt < now + Duration.ofSecs 10) :
    Machine.exec (timedNext (sample .default)) (stuckWriting now pollAt pollAt leaseAt statsAt)
      [.fireClaim, .apply (.batch [] []), .answer .ok] =
      some (stuck pollAt (pollAt + Duration.ofSecs 5) leaseAt statsAt) := by
  simp [Machine.exec, timedNext, timely, next, control, environment, selectStep, stuck,
    stuckWriting, stuck_joinReady, stuck_count, RunState.clearAboveRetry, RunState.clearAboveStats,
    RunState.clearAboveLease, RunState.clearAboveClaim, RunState.leaseReady, RunState.statsReady,
    RunState.retryReady, RunState.claimReady, Pc.live, Pc.call?, Pc.setCall, hl, hs, ht, stuckHead,
    sample_maxInFlight, sample_storeTimeout, Call.issue, Round.call, StoreCall.returns, mayHear,
    Call.mayAnswer, afterAnswer, afterBody]
  rfl

/-- A renewal of the row overtakes the round. -/
def stuckRenewing (now pollAt leaseAt statsAt : Instant) : RunState FailureKind :=
  { stuck now pollAt leaseAt statsAt with
    pc := .body (.issue (.extendLease stuckBooks.leaseRefs (Duration.ofSecs 30)) now) }

theorem stuck_renews :
    Machine.exec (timedNext (sample .default)) (stuckWriting now leaseAt pollAt leaseAt statsAt)
      [.fireLease] =
      some (stuckRenewing leaseAt pollAt (leaseAt + Duration.ofSecs 15) statsAt) := by
  have hperiod : (sample .default).settings.leaseTickPeriod = Duration.ofSecs 15 := by decide
  simp [Machine.exec, timedNext, timely, next, control, environment, selectStep, stuck,
    stuckWriting, stuckRenewing, stuck_joinReady, stuck_count, RunState.clearAboveLease,
    RunState.leaseReady, Pc.live, stuckHead, Call.issue, nextTick, hperiod]
  rfl

theorem stuck_renewed :
    Machine.exec (timedNext (sample .default)) (stuckRenewing now pollAt leaseAt statsAt)
      [.apply (.affected 1), .answer .ok] = some (stuck now pollAt leaseAt statsAt) := by
  simp [Machine.exec, timedNext, timely, next, control, environment, stuck, stuckRenewing, Pc.live,
    Pc.call?, Pc.setCall, Call.issue, StoreCall.returns, mayHear, Call.mayAnswer, afterAnswer,
    afterBody]

/-- So does the gauge. -/
theorem stuck_reports (hl : now < leaseAt) :
    Machine.exec (timedNext (sample .default)) (stuck now pollAt leaseAt now)
      [.enter, .fireStats, .apply (.stats ⟨0, 0, 0, none, 0⟩), .answer .ok] =
      some (stuck now pollAt leaseAt (now + Duration.ofSecs 15)) := by
  have hperiod : (sample .default).settings.statsInterval = Duration.ofSecs 15 := rfl
  simp [Machine.exec, timedNext, timely, next, control, environment, selectStep, enterSelect, stuck,
    stuck_joinReady, stuck_count, RunState.clearAboveStats, RunState.clearAboveLease,
    RunState.leaseReady, RunState.statsReady, Pc.live, Pc.call?, Pc.setCall, hl, Call.issue,
    StoreCall.returns, mayHear, Call.mayAnswer, afterAnswer, afterBody, nextTick, hperiod]

/-- Half a second: every interval of the run is a multiple of it. -/
def half : Duration := Duration.ofMillis 500

theorem half_pos : 0 < half := by decide

theorem add_half_lt (t : Instant) {m n : Nat} (h : m < n) : t + m * half < t + n * half :=
  Nat.add_lt_add_left (Nat.mul_lt_mul_of_pos_right h half_pos) t

theorem add_half_le (t : Instant) {m n : Nat} (h : m ≤ n) : t + m * half ≤ t + n * half :=
  Nat.add_le_add_left (Nat.mul_le_mul_right half h) t

theorem add_half_add (t : Instant) (m n : Nat) : t + m * half + n * half = t + (m + n) * half := by
  rw [Nat.add_assoc, ← Nat.add_mul]

theorem five_seconds : Duration.ofSecs 5 = 10 * half := by decide
theorem ten_seconds : Duration.ofSecs 10 = 20 * half := by decide
theorem fifteen_seconds : Duration.ofSecs 15 = 30 * half := by decide

/-- Half a second into a period. -/
def stuckAt (t : Instant) : RunState FailureKind :=
  stuck t (t + 10 * half) (t + 29 * half) (t + 29 * half)

/-- One more claim, ten seconds at most after the last step. -/
theorem stuck_claimed (hn : now ≤ pollAt) (hp : pollAt < now + 20 * half) (hl : pollAt < leaseAt)
    (hs : pollAt < statsAt) :
    ∃ es, Machine.Path (Machine.Next (timedNext (sample .default)))
      (stuck now pollAt leaseAt statsAt) es (stuck pollAt (pollAt + 10 * half) leaseAt statsAt) := by
  have hw := stuck_writes (hn.trans_lt hl) (hn.trans_lt hs) hn hl.le hs.le (le_refl pollAt)
    (by rw [ten_seconds]; exact hp.le)
  have hc := stuck_claims hl hs (by rw [ten_seconds]; exact hp)
  rw [five_seconds] at hc
  exact ⟨_, (Machine.path_of_exec hw).append (Machine.path_of_exec hc)⟩

/-- Fourteen and a half seconds later the row is renewed. -/
theorem stuckAt_renews (t : Instant) :
    ∃ es, Machine.Path (Machine.Next (timedNext (sample .default))) (stuckAt t) es
      (stuckRenewing (t + 29 * half) (t + 30 * half) (t + 59 * half) (t + 29 * half)) := by
  have hlt : ∀ {m n : Nat}, m < n → t + m * half < t + n * half := add_half_lt t
  have hle : ∀ {m n : Nat}, m ≤ n → t + m * half ≤ t + n * half := add_half_le t
  obtain ⟨es₁, h₁⟩ := stuck_claimed (Nat.le_add_right t (10 * half)) (hlt (by decide))
    (hlt (n := 29) (by decide)) (hlt (n := 29) (by decide))
  rw [add_half_add] at h₁
  obtain ⟨es₂, h₂⟩ := stuck_claimed (hle (m := 10) (n := 20) (by decide))
    (by rw [add_half_add]; exact hlt (by decide)) (hlt (n := 29) (by decide))
    (hlt (n := 29) (by decide))
  rw [add_half_add] at h₂
  have hw := stuck_writes (hlt (m := 20) (n := 29) (by decide)) (hlt (n := 29) (by decide))
    (hle (by decide)) (le_refl (t + 29 * half)) (le_refl _) (hle (n := 30) (by decide))
    (by rw [ten_seconds, add_half_add]; exact hle (by decide))
  have hr := @stuck_renews (t + 20 * half) (t + 30 * half) (t + 29 * half) (t + 29 * half)
  rw [fifteen_seconds, add_half_add] at hr
  exact ⟨_, ((h₁.append h₂).append (Machine.path_of_exec hw)).append (Machine.path_of_exec hr)⟩

/-- And half a second after that the period starts over. -/
theorem stuckAt_repeats (t : Instant) :
    ∃ es, Machine.Path (Machine.Next (timedNext (sample .default)))
      (stuckRenewing (t + 29 * half) (t + 30 * half) (t + 59 * half) (t + 29 * half)) es
      (stuckAt (t + 30 * half)) := by
  have hlt : ∀ {m n : Nat}, m < n → t + m * half < t + n * half := add_half_lt t
  have hr := @stuck_renewed (t + 29 * half) (t + 30 * half) (t + 59 * half) (t + 29 * half)
  have hs := @stuck_reports (t + 29 * half) (t + 30 * half) (t + 59 * half) (hlt (by decide))
  rw [fifteen_seconds, add_half_add] at hs
  obtain ⟨es, hc⟩ := stuck_claimed (add_half_le t (m := 29) (n := 30) (by decide))
    (by rw [add_half_add]; exact hlt (by decide)) (hlt (n := 59) (by decide))
    (hlt (n := 59) (by decide))
  rw [stuckAt, add_half_add t 30 29]
  exact ⟨_, ((Machine.path_of_exec hr).append (Machine.path_of_exec hs)).append hc⟩

theorem stuckAt_reached (n : Nat) :
    ∃ es, TimedRun (sample .default) 0 es (stuckAt (half + n * (30 * half))) := by
  induction n with
  | zero =>
      have hstart : TimedRun (sample .default) 0 stuckPrefix
          (Machine.reach (timedNext (sample .default)) (RunState.start .default 0) stuckPrefix) :=
        Machine.path_reach (by decide)
      rw [stuck_start] at hstart
      exact ⟨_, hstart⟩
  | succ n ih =>
      obtain ⟨es, h⟩ := ih
      obtain ⟨es₁, h₁⟩ := stuckAt_renews (half + n * (30 * half))
      obtain ⟨es₂, h₂⟩ := stuckAt_repeats (half + n * (30 * half))
      refine ⟨es ++ es₁ ++ es₂, ?_⟩
      rw [Nat.succ_mul, ← Nat.add_assoc]
      exact (h.append h₁).append h₂

end

/-- At the default settings, outcomes of every age are renewed. -/
theorem renewals_unbounded :
    build .default sampleWorker = .ok (sample .default) ∧
      ∀ bound, ∃ es s, TimedRun (E := FailureKind) (sample .default) 0 es s ∧
        ¬ RenewsWithin bound s := by
  refine ⟨build_default sampleWorker, fun bound => ?_⟩
  obtain ⟨es, h⟩ := stuckAt_reached bound
  obtain ⟨es₁, h₁⟩ := stuckAt_renews (half + bound * (30 * half))
  refine ⟨_, _, h.append h₁, fun hw => ?_⟩
  have hmem : (⟨0, ⟨(sampleClaim 1).record.messageRef⟩, 0⟩ : Unwritten CompletedMessage) ∈
      stuckBooks.unwrittenComplete := by decide
  have hrefs : (sampleClaim 1).record.messageRef ∈ stuckBooks.leaseRefs := by decide
  have hle : half + bound * (30 * half) + 29 * half ≤ 0 + bound :=
    (hw _ _ _ rfl rfl).1 _ hmem hrefs
  have hmul : bound ≤ bound * (30 * half) :=
    Nat.le_mul_of_pos_right _ (Nat.mul_pos (by decide) half_pos)
  have hpos := half_pos
  generalize half = u at hle hmul hpos
  lia

/-- The first renewal of that run comes at 15 s, within `lease`: nothing is counted yet. -/
def firstRenewal : List (Event FailureKind) :=
  let claim : List (Event FailureKind) :=
    [.enter, .retryWakes, .tick (Duration.ofSecs 5), .fireClaim, .apply (.batch [] []), .answer .ok]
  stuckPrefix ++ claim ++ claim ++
    [.enter, .retryWakes, .tick (Duration.ofMillis 4500), .fireLease]

theorem renewals_within_first_renewal :
    ∃ s, TimedRun (sample .default) 0 firstRenewal s ∧
      OvertakenAtMost (sample .default) 0 firstRenewal 0 s ∧
      s.pc = .body (.issue (.extendLease stuckBooks.leaseRefs (Duration.ofSecs 30))
        (Duration.ofSecs 15)) ∧
      RenewsWithin (outcomeBound .default 0) s := by
  let s := Machine.reach (timedNext (sample .default)) (RunState.start .default 0) firstRenewal
  have hrun : TimedRun (sample .default) 0 firstRenewal s := Machine.path_reach (by decide)
  have hnone : OvertakenAtMost (sample .default) 0 firstRenewal 0 s := by
    intro k since hs
    have hwaits : ∀ k, s.books.waits k = if k then [0] else [] := by decide
    rw [hwaits] at hs
    cases k
    · cases hs
    · rw [List.mem_singleton.mp hs]; decide
  exact ⟨s, hrun, hnone, by decide, renewals_within hrun hnone⟩

end Reliar.Dispatcher
