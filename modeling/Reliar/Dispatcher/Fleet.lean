/-
# `Reliar.Dispatcher.Fleet` — any number of dispatchers over one store

The dispatchers take their steps one beside the other, each on its own clock.
They share the store alone, and only a call that the store carries out changes it.
An awaited call may be carried out as a whole (`Event.apply`), after which it may
still time out, answer an error or be dropped, or in part (`FleetEvent.part`), of
which its dispatcher learns nothing; a call nobody awaits any more is not carried
out.

A dispatcher that crashes takes no further step.  Its successor is another member.
-/
import Reliar.Dispatcher.Result

namespace Reliar.Dispatcher

open Reliar.Core Reliar.Outbox

/-! ## A store and its clients -/

/-- What a store makes of a method, and what else happens to it. -/
structure Backend (σ : Type) where
  /-- a method, carried out for a worker with this result -/
  carriesOut : σ → WorkerId → StoreCall → Reply → σ → Prop
  /-- time passes, or someone who is no dispatcher uses the store -/
  elsewhere : σ → σ → Prop

/-- Some of the entries of an outcome write. -/
def StoreCall.PartOf (part : StoreCall) : StoreCall → Prop
  | .complete items => ∃ items', part = .complete items' ∧ items' ⊆ items
  | .fail items => ∃ items', part = .fail items' ∧ items' ⊆ items
  | _ => False

theorem complete_of_part {op all : StoreCall} {items : List CompletedMessage}
    (h : op = .complete items) (hop : op = all ∨ op.PartOf all) :
    ∃ items', all = .complete items' ∧ items ⊆ items' := by
  subst h
  rcases hop with rfl | hpart
  · exact ⟨items, rfl, fun _ h => h⟩
  · cases all with
    | complete items' =>
        obtain ⟨_, ⟨⟩, hsub⟩ := hpart
        exact ⟨items', rfl, hsub⟩
    | fail items' =>
        obtain ⟨_, hne, -⟩ := hpart
        cases hne
    | _ => cases hpart

theorem fail_of_part {op all : StoreCall} {items : List FailedMessage}
    (h : op = .fail items) (hop : op = all ∨ op.PartOf all) :
    ∃ items', all = .fail items' ∧ items ⊆ items' := by
  subst h
  rcases hop with rfl | hpart
  · exact ⟨items, rfl, fun _ h => h⟩
  · cases all with
    | complete items' =>
        obtain ⟨_, hne, -⟩ := hpart
        cases hne
    | fail items' =>
        obtain ⟨_, ⟨⟩, hsub⟩ := hpart
        exact ⟨items', rfl, hsub⟩
    | _ => cases hpart

structure Fleet (ι E σ : Type) where
  runs : ι → RunState E
  store : σ

inductive FleetEvent (ι E : Type)
  | run (i : ι) (e : Event E)
  /-- the store carries out part of the call `i` awaits -/
  | part (i : ι)
  | elsewhere

section
variable {ι E σ : Type} [DecidableEq ι] [Classify E]

inductive FleetStep (B : Backend σ) (d : ι → OutboxDispatcher) (c : Fleet ι E σ) :
    FleetEvent ι E → Fleet ι E σ → Prop
  | run {i : ι} {e : Event E} {s : RunState E} (h : next (d i) (c.runs i) e = some s)
      (he : ∀ reply, e ≠ .apply reply) :
      FleetStep B d c (.run i e) { c with runs := Function.update c.runs i s }
  | apply {i : ι} {reply : Reply} {call : Call} {s : RunState E} {st : σ}
      (h : next (d i) (c.runs i) (.apply reply) = some s) (hc : (c.runs i).pc.call? = some call)
      (hst : B.carriesOut c.store (d i).worker call.op reply st) :
      FleetStep B d c (.run i (.apply reply)) ⟨Function.update c.runs i s, st⟩
  | part {i : ι} {call : Call} {op : StoreCall} {reply : Reply} {st : σ}
      (hc : (c.runs i).pc.call? = some call) (hn : call.applied = none) (hop : op.PartOf call.op)
      (hst : B.carriesOut c.store (d i).worker op reply st) :
      FleetStep B d c (.part i) { c with store := st }
  | elsewhere {st : σ} (h : B.elsewhere c.store st) :
      FleetStep B d c .elsewhere { c with store := st }

/-- The members at the heads of their loops, each at its own instant. -/
def Fleet.start (d : ι → OutboxDispatcher) (now : ι → Instant) (st : σ) : Fleet ι E σ :=
  ⟨fun i => .start (d i).settings (now i), st⟩

variable {B : Backend σ} {d : ι → OutboxDispatcher} {now : ι → Instant} {st₀ : σ}
  {c c' : Fleet ι E σ} {e : FleetEvent ι E}

/-- A member takes a step, or stays where it is. -/
theorem FleetStep.member (h : FleetStep B d c e c') (i : ι) :
    c'.runs i = c.runs i ∨ ∃ f, e = .run i f ∧ next (d i) (c.runs i) f = some (c'.runs i) := by
  have hupdate : ∀ {j : ι} {f : Event E} {s : RunState E}, next (d j) (c.runs j) f = some s →
      Function.update c.runs j s i = c.runs i ∨
        ∃ f', FleetEvent.run j f = .run i f' ∧
          next (d i) (c.runs i) f' = some (Function.update c.runs j s i) := by
    intro j f s hnext
    by_cases hij : i = j
    · subst hij
      exact .inr ⟨f, rfl, by rw [Function.update_self]; exact hnext⟩
    · exact .inl (Function.update_of_ne hij _ _)
  cases h with
  | run hnext => exact hupdate hnext
  | apply hnext => exact hupdate hnext
  | part | elsewhere => exact .inl rfl

/-- What every run of a dispatcher keeps, every member keeps. -/
theorem member_run {es : List (FleetEvent ι E)}
    (h : Machine.Path (FleetStep B d) (Fleet.start d now st₀) es c) (i : ι) :
    ∃ fs, Run (d i) (now i) fs (c.runs i) := by
  induction h with
  | nil => exact ⟨[], .nil _⟩
  | @snoc c₁ c₂ es e _ hstep ih =>
      obtain ⟨fs, hrun⟩ := ih
      rcases hstep.member i with hsame | ⟨f, -, hnext⟩
      · exact ⟨fs, by rw [hsame]; exact hrun⟩
      · exact ⟨fs ++ [f], hrun.snoc hnext⟩

/-- What a member does without the store. -/
def Fleet.solo (d : ι → OutboxDispatcher) (c : Fleet ι E σ) (i : ι) (es : List (Event E)) :
    Fleet ι E σ :=
  { c with runs := Function.update c.runs i (Machine.reach (next (d i)) (c.runs i) es) }

theorem path_of_solo (i : ι) (es : List (Event E))
    (h : (Machine.exec (next (d i)) (c.runs i) es).isSome = true)
    (he : ∀ e ∈ es, ∀ reply, e ≠ .apply reply) :
    Machine.Path (FleetStep B d) c (es.map (.run i)) (c.solo d i es) := by
  have hpath := Machine.path_reach h
  unfold Fleet.solo
  generalize Machine.reach (next (d i)) (c.runs i) es = s at hpath
  clear h
  generalize hstart : c.runs i = s₀ at hpath
  induction hpath with
  | nil =>
      subst hstart
      rw [Function.update_eq_self]
      exact .nil _
  | @snoc s₁ s₂ es e hfirst hnext ih =>
      rw [List.map_append]
      refine (ih fun e' he' => he e' (List.mem_append_left _ he')).snoc ?_
      have hstep : FleetStep B d { c with runs := Function.update c.runs i s₁ } (.run i e)
          { c with runs := Function.update (Function.update c.runs i s₁) i s₂ } :=
        .run (by simpa only [Function.update_self, Machine.Next] using hnext)
          (he e (List.mem_append_right _ (List.mem_singleton.mpr rfl)))
      rwa [Function.update_idem] at hstep

end

/-! ## The entries of a write -/

section
variable {E : Type} [Classify E] {d : OutboxDispatcher} {s : RunState E} {now : Instant}
  {es : List (Event E)} {call : Call}

/-- Outcomes are written by rounds only. -/
theorem round_of_call (h : Run d now es s) (hc : s.pc.call? = some call)
    (hop : call.op.decides = true) (hacq : ∀ request, call.op ≠ .acquire request) :
    ∃ round, s.pc.round? = some round ∧ round.call = call := by
  have hrelease : ∀ {refs : List MessageRef}, call.op ≠ .release refs := by
    intro refs hrefs
    rw [hrefs] at hop
    cases hop
  cases hpc : s.pc with
  | select at_ fut =>
      cases fut with
      | running round => simp only [hpc, Pc.call?, Option.some.injEq] at hc; exact ⟨round, rfl, hc⟩
      | _ => simp [hpc, Pc.call?] at hc
  | drainRound _ round | finalRound round =>
      simp only [hpc, Pc.call?, Option.some.injEq] at hc; exact ⟨round, rfl, hc⟩
  | body call' =>
      simp only [hpc, Pc.call?, Option.some.injEq] at hc
      subst hc
      rcases (Run.exits h).body call' hpc with ⟨request, hrequest⟩ | hno
      · exact absurd hrequest (hacq request)
      · rw [hno] at hop; cases hop
  | releasing call' =>
      simp only [hpc, Pc.call?, Option.some.injEq] at hc
      subst hc
      obtain ⟨refs, hrefs⟩ := Run.releases h call' (.inl hpc)
      exact absurd hrefs hrelease
  | finalRelease permanent call' =>
      simp only [hpc, Pc.call?, Option.some.injEq] at hc
      subst hc
      obtain ⟨refs, hrefs⟩ := Run.releases h call' (.inr ⟨permanent, hpc⟩)
      exact absurd hrefs hrelease
  | _ => simp [hpc, Pc.call?] at hc

/-- A `complete` names what is on its list. -/
theorem complete_items (h : Run d now es s) {items : List CompletedMessage}
    (hc : s.pc.call? = some call) (hop : call.op = .complete items) :
    items = s.books.unwrittenComplete.map (·.item) := by
  obtain ⟨round, hround, rfl⟩ := round_of_call h hc (by rw [hop]; rfl) (by simp [hop])
  have hcarries := Run.carries h round hround
  cases round with
  | completing call => exact StoreCall.complete.inj (hop.symm.trans hcarries)
  | failing anyFailed call => exact StoreCall.noConfusion (hop.symm.trans hcarries)

theorem fail_items (h : Run d now es s) {items : List FailedMessage}
    (hc : s.pc.call? = some call) (hop : call.op = .fail items) :
    items = s.books.unwrittenFail.map (·.item) := by
  obtain ⟨round, hround, rfl⟩ := round_of_call h hc (by rw [hop]; rfl) (by simp [hop])
  have hcarries := Run.carries h round hround
  cases round with
  | completing call => exact StoreCall.noConfusion (hop.symm.trans hcarries)
  | failing anyFailed call => exact StoreCall.fail.inj (hop.symm.trans hcarries)

end

end Reliar.Dispatcher
