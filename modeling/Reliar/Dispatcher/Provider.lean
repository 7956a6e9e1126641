/-
# `Reliar.Dispatcher.Provider` — the dispatcher's store

`run` is generic over its `OutboxStore`.  What its results need of a store is
said once, as a structure: who holds the lease of a row, what a method does when
it is carried out, and the laws that tie the two.  `LeaseStore` is the part about
leases: only `acquire` takes one, and it returns the row; a `complete`, `fail` or
`release` that names a row gives it up.

`InMemoryOutboxStore` keeps these laws as long as a `MessageRef` identifies one
row (`memoryStore`).
-/
import Reliar.Dispatcher.Run
import Reliar.Store.Memory

namespace Reliar.Dispatcher

open Reliar.Core Reliar.Outbox Reliar.Store

/-- The rows an outcome or a release settles. -/
def StoreCall.settles : StoreCall → List MessageRef
  | .complete items => items.map (·.message)
  | .fail items => items.map (·.message)
  | .release messages => messages
  | _ => []

/-- What a store promises about the leases of its rows. -/
structure LeaseStore (σ : Type) where
  /-- the row has `locked_by` equal to the worker -/
  locked : σ → WorkerId → MessageRef → Prop
  /-- a method, carried out for a worker with this result -/
  carriesOut : σ → WorkerId → StoreCall → Reply → σ → Prop
  acquires : ∀ {st w request records poisoned st' v m},
    carriesOut st w (.acquire request) (.batch records poisoned) st' → locked st' v m →
      locked st v m ∨ ∃ c ∈ records, c.record.messageRef = m
  settles : ∀ {st w call reply st' m},
    carriesOut st w call reply st' → m ∈ call.settles → ¬ locked st' w m
  keeps : ∀ {st w call reply st' v m}, (∀ request, call ≠ .acquire request) →
    carriesOut st w call reply st' → locked st' v m → locked st v m

/-! ## `InMemoryOutboxStore` -/

/-- Its rows, each under a reference of its own. -/
structure UniqueRows where
  inner : Memory.Inner
  ok : inner.Ok
  refs : (inner.rows.map OutboxRecord.messageRef).Nodup

/-- The method of the in-memory store. -/
def StoreCall.op (w : WorkerId) : StoreCall → Memory.Op
  | .acquire request => .acquire request
  | .complete items => .complete w items
  | .fail items => .fail w items
  | .release messages => .release w messages
  | .extendLease messages lease => .extendLease w messages lease
  | .stats => .stats

/-- The same result; the dispatcher's model numbers the claims besides. -/
def Answers : Memory.Reply → Reply → Prop
  | .batch batch, .batch records poisoned =>
      records.map (·.record) = batch.records ∧ poisoned = batch.poisoned
  | .affected n, .affected n' => n' = n
  | .stats stats, .stats stats' => stats' = stats
  | _, _ => False

/-- The row of this reference is locked by this worker. -/
def LockedBy (rows : List OutboxRecord) (w : WorkerId) (m : MessageRef) : Prop :=
  ∃ row ∈ rows, row.messageRef = m ∧ row.lockedBy = some w

theorem guarded_eq_ok {α : Type} {body : Memory.Inner → α × Memory.Inner} {s s' : Memory.Inner}
    {a : α} (h : Memory.guarded body s = (.ok a, s')) : body s = (a, s') := by
  unfold Memory.guarded Memory.takeInjectedFailure at h
  split_ifs at h
  · cases h
  · cases h
  · obtain ⟨ha, hs⟩ := Prod.mk.inj h
    exact Prod.ext (Except.ok.inj ha) hs

/-- The method behind a wrapped result. -/
theorem run_eq_ok {α : Type} {x : Except Memory.InMemoryStoreError α × Memory.Inner}
    {g : α → Memory.Reply} {r : Memory.Reply} {s' : Memory.Inner}
    (h : x.map (·.map g) id = (.ok r, s')) : ∃ a, x = (.ok a, s') ∧ r = g a := by
  obtain ⟨res, s⟩ := x
  obtain ⟨hres, hs⟩ := Prod.mk.inj h
  cases res with
  | error err => cases hres
  | ok a => exact ⟨a, Prod.ext rfl hs, (Except.ok.inj hres).symm⟩

section
variable {α : Type} {p : α → OutboxRecord → Bool} {f : α → OutboxRecord → OutboxRecord}
  {v w : WorkerId} {m : MessageRef}

/-- One item: a row is as before, or it is one the item looked for. -/
theorem updateOne_mem {rows : List OutboxRecord} {n : Nat} {item : α} {y : OutboxRecord}
    (hnd : (Memory.sequences rows).Nodup)
    (hy : y ∈ (Memory.updateOne p f (rows, n) item).1) :
    (y ∈ rows ∧ ∀ r, rows.find? (p item) = some r → y.sequence ≠ r.sequence) ∨
      ∃ r ∈ rows, y = f item r := by
  unfold Memory.updateOne at hy
  rw [Memory.updateFirst_eq_map hnd] at hy
  cases hfind : rows.find? (p item) with
  | none =>
      simp only [hfind, Option.map_none] at hy
      exact .inl ⟨hy, fun r hr => by cases hr⟩
  | some r =>
      simp only [hfind, Option.map_some] at hy
      obtain ⟨x, hx, rfl⟩ := List.mem_map.mp hy
      by_cases hseq : x.sequence = r.sequence
      · exact .inr ⟨x, hx, by rw [if_pos hseq]⟩
      · rw [if_neg hseq]
        refine .inl ⟨hx, fun r' hr' => ?_⟩
        cases hr'
        exact hseq

theorem updateOne_map {β : Type} {key : OutboxRecord → β} (hkey : ∀ a r, key (f a r) = key r)
    {rows : List OutboxRecord} (hnd : (Memory.sequences rows).Nodup) (n : Nat) (item : α) :
    (Memory.updateOne p f (rows, n) item).1.map key = rows.map key := by
  unfold Memory.updateOne
  rw [Memory.updateFirst_eq_map hnd]
  cases rows.find? (p item) with
  | none => rfl
  | some r =>
      simp only [Option.map_some, List.map_map]
      refine List.map_congr_left fun x _ => ?_
      simp only [Function.comp_apply]
      split
      · exact hkey item x
      · rfl

/-- A loop that locks nothing leaves no lock that was not there. -/
theorem foldl_keeps (hseq : ∀ a r, (f a r).sequence = r.sequence)
    (href : ∀ a r, (f a r).messageRef = r.messageRef)
    (hlock : ∀ a r, (f a r).lockedBy = some v → r.lockedBy = some v) (items : List α) :
    ∀ {rows : List OutboxRecord} {n : Nat}, (Memory.sequences rows).Nodup →
      LockedBy (items.foldl (Memory.updateOne p f) (rows, n)).1 v m → LockedBy rows v m := by
  induction items with
  | nil => exact fun _ h => h
  | cons item items ih =>
      intro rows n hnd h
      have hnd' : (Memory.sequences (Memory.updateOne p f (rows, n) item).1).Nodup := by
        rw [Memory.sequences, updateOne_map hseq hnd]
        exact hnd
      obtain ⟨y, hy, hym, hyv⟩ := ih hnd' h
      rcases updateOne_mem hnd hy with ⟨hy, -⟩ | ⟨r, hr, rfl⟩
      · exact ⟨y, hy, hym, hyv⟩
      · exact ⟨r, hr, (href item r).symm.trans hym, hlock item r hyv⟩

/-- A loop that unlocks what it finds leaves none of its rows locked. -/
theorem foldl_settles {ref : α → MessageRef} (hseq : ∀ a r, (f a r).sequence = r.sequence)
    (href : ∀ a r, (f a r).messageRef = r.messageRef) (hfree : ∀ a r, (f a r).lockedBy = none)
    (items : List α) :
    ∀ {rows : List OutboxRecord} {n : Nat}, (Memory.sequences rows).Nodup →
      (rows.map OutboxRecord.messageRef).Nodup → m ∈ items.map ref →
      ¬ LockedBy (items.foldl
        (Memory.updateOne (fun a => Memory.owns w (ref a)) f) (rows, n)).1 w m := by
  have hlock : ∀ a r, (f a r).lockedBy = some w → r.lockedBy = some w := by
    intro a r h
    rw [hfree] at h
    cases h
  induction items with
  | nil => intro rows n _ _ hm; cases hm
  | cons item items ih =>
      intro rows n hnd hrefs hm hlocked
      have hnd' : (Memory.sequences
          (Memory.updateOne (fun a => Memory.owns w (ref a)) f (rows, n) item).1).Nodup := by
        rw [Memory.sequences, updateOne_map hseq hnd]
        exact hnd
      rcases List.mem_cons.mp hm with rfl | hm
      · -- the row this item found is free now, and the rest of the loop locks nothing
        obtain ⟨y, hy, hym, hyw⟩ := foldl_keeps hseq href hlock items hnd' hlocked
        rcases updateOne_mem hnd hy with ⟨hyrows, hne⟩ | ⟨r, hr, rfl⟩
        · have howns : Memory.owns w (ref item) y = true := by
            simp only [Memory.owns, Memory.refMatches, Bool.and_eq_true, decide_eq_true_eq, ← hym]
            exact ⟨⟨rfl, rfl⟩, hyw⟩
          cases hfind : rows.find? (Memory.owns w (ref item)) with
          | none => exact absurd howns (by simpa using List.find?_eq_none.mp hfind y hyrows)
          | some r =>
              have hr : r.messageRef = ref item := by
                have hfound := List.find?_some hfind
                simp only [Memory.owns, Memory.refMatches, Bool.and_eq_true,
                  decide_eq_true_eq] at hfound
                obtain ⟨⟨hid, hcreated⟩, -⟩ := hfound
                simp only [OutboxRecord.messageRef, hid, hcreated]
              have hsame := List.inj_on_of_nodup_map hrefs hyrows (List.mem_of_find?_eq_some hfind)
                (hym.trans hr.symm)
              exact hne r hfind (by rw [hsame])
        · rw [hfree] at hyw
          cases hyw
      · refine ih hnd' ?_ hm hlocked
        rw [updateOne_map href hnd]
        exact hrefs

end

/-! ### The laws -/

section
variable {s s' : Memory.Inner} {v w : WorkerId} {m : MessageRef}

theorem tryAcquire_locks {request : AcquireRequest} {batch : AcquiredBatch} (hok : s.Ok)
    (h : Memory.tryAcquire request s = (.ok batch, s')) (hl : LockedBy s'.rows v m) :
    LockedBy s.rows v m ∨ ∃ r ∈ batch.records, r.messageRef = m := by
  unfold Memory.tryAcquire at h
  have hbody := guarded_eq_ok h
  obtain ⟨rfl, rfl⟩ := Prod.mk.inj hbody
  obtain ⟨y, hy, hym, hyv⟩ := hl
  obtain ⟨x, hx, rfl⟩ := List.mem_map.mp hy
  unfold Memory.lockAmong at hym hyv
  by_cases hq : x.sequence ∈ (Memory.chosen request s).map (·.sequence)
  · rw [if_pos hq] at hym hyv
    obtain ⟨c, hc, hcx⟩ := List.mem_map.mp hq
    have hsame := List.inj_on_of_nodup_map hok.nodup (Memory.mem_chosen hc).1 hx hcx
    subst hsame
    exact .inr ⟨_, List.mem_map.mpr ⟨c, hc, rfl⟩, hym⟩
  · rw [if_neg hq] at hym hyv
    exact .inl ⟨x, hx, hym, hyv⟩

/-- What a call that is one loop makes of the rows. -/
structure Loops {α : Type} (w : WorkerId) (ref : α → MessageRef)
    (f : α → OutboxRecord → OutboxRecord) (items : List α) (s s' : Memory.Inner) : Prop where
  rows : s'.rows = (Memory.updateEach (fun a => Memory.owns w (ref a)) f items s.rows).1
  sequence : ∀ a r, (f a r).sequence = r.sequence
  messageRef : ∀ a r, (f a r).messageRef = r.messageRef

theorem Loops.keeps {α : Type} {ref : α → MessageRef} {f : α → OutboxRecord → OutboxRecord}
    {items : List α} (h : Loops w ref f items s s') (hok : s.Ok)
    (hlock : ∀ a r, (f a r).lockedBy = some v → r.lockedBy = some v)
    (hl : LockedBy s'.rows v m) : LockedBy s.rows v m := by
  rw [h.rows] at hl
  exact foldl_keeps h.sequence h.messageRef hlock items hok.nodup hl

theorem Loops.settles {α : Type} {ref : α → MessageRef} {f : α → OutboxRecord → OutboxRecord}
    {items : List α} (h : Loops w ref f items s s') (hok : s.Ok)
    (hrefs : (s.rows.map OutboxRecord.messageRef).Nodup) (hfree : ∀ a r, (f a r).lockedBy = none)
    (hm : m ∈ items.map ref) : ¬ LockedBy s'.rows w m := by
  rw [h.rows]
  exact foldl_settles h.sequence h.messageRef hfree items hok.nodup hrefs hm

theorem tryComplete_loops {items : List CompletedMessage} {n : Nat}
    (h : Memory.tryComplete w items s = (.ok n, s')) :
    Loops w (·.message) (Memory.completeRow s.now) items s s' := by
  refine ⟨?_, fun _ _ => rfl, fun _ _ => rfl⟩
  simp only [Memory.tryComplete] at h
  split at h
  · cases h
  · have hbody := guarded_eq_ok h
    obtain ⟨-, rfl⟩ := Prod.mk.inj hbody
    rfl

theorem failRow_ref (now : Timestamp) (item : FailedMessage) (r : OutboxRecord) :
    (Memory.failRow now item r).messageRef = r.messageRef := by
  unfold Memory.failRow
  cases item.outcome <;> rfl

theorem failRow_free (now : Timestamp) (item : FailedMessage) (r : OutboxRecord) :
    (Memory.failRow now item r).lockedBy = none := by
  unfold Memory.failRow
  cases item.outcome <;> rfl

theorem tryFail_loops {items : List FailedMessage} {n : Nat}
    (h : Memory.tryFail w items s = (.ok n, s')) :
    Loops w (·.message) (Memory.failRow s.now) items s s' := by
  refine ⟨?_, Memory.failRow_sequence s.now, failRow_ref s.now⟩
  unfold Memory.tryFail at h
  have hbody := guarded_eq_ok h
  obtain ⟨-, rfl⟩ := Prod.mk.inj hbody
  rfl

theorem tryRelease_loops {items : List MessageRef} {n : Nat}
    (h : Memory.tryRelease w items s = (.ok n, s')) :
    Loops w id (fun _ => Memory.unlock) items s s' := by
  refine ⟨?_, fun _ _ => rfl, fun _ _ => rfl⟩
  unfold Memory.tryRelease at h
  have hbody := guarded_eq_ok h
  obtain ⟨-, rfl⟩ := Prod.mk.inj hbody
  rfl

theorem tryExtendLease_loops {items : List MessageRef} {lease : Duration} {n : Nat}
    (h : Memory.tryExtendLease w items lease s = (.ok n, s')) :
    Loops w id (Memory.extendRow (s.now + lease)) items s s' := by
  refine ⟨?_, fun _ _ => rfl, fun _ _ => rfl⟩
  unfold Memory.tryExtendLease at h
  have hbody := guarded_eq_ok h
  obtain ⟨-, rfl⟩ := Prod.mk.inj hbody
  rfl

theorem tryStats_rows {stats : OutboxStats} (h : Memory.tryStats s = (.ok stats, s')) : s' = s := by
  unfold Memory.tryStats at h
  have hbody := guarded_eq_ok h
  exact (Prod.mk.inj hbody).2.symm

theorem free_keeps {α : Type} {f : α → OutboxRecord → OutboxRecord}
    (hfree : ∀ a r, (f a r).lockedBy = none) (a : α) (r : OutboxRecord)
    (h : (f a r).lockedBy = some v) : r.lockedBy = some v := by
  rw [hfree] at h
  cases h

end

/-- The in-memory store as the dispatcher's. -/
def memoryStore : LeaseStore UniqueRows where
  locked st w m := LockedBy st.inner.rows w m
  carriesOut st w call reply st' :=
    ∃ r, (call.op w).run st.inner = (.ok r, st'.inner) ∧ Answers r reply
  acquires := by
    rintro st w request records poisoned st' v m ⟨r, hrun, hanswers⟩ hl
    obtain ⟨batch, hbatch, rfl⟩ := run_eq_ok hrun
    rcases tryAcquire_locks st.ok hbatch hl with hold | ⟨r, hr, hrm⟩
    · exact .inl hold
    · rw [← hanswers.1] at hr
      obtain ⟨c, hc, rfl⟩ := List.mem_map.mp hr
      exact .inr ⟨c, hc, hrm⟩
  settles := by
    rintro st w call reply st' m ⟨r, hrun, -⟩ hm
    cases call with
    | complete items =>
        obtain ⟨n, hn, -⟩ := run_eq_ok hrun
        exact (tryComplete_loops hn).settles st.ok st.refs (fun _ _ => rfl) hm
    | fail items =>
        obtain ⟨n, hn, -⟩ := run_eq_ok hrun
        exact (tryFail_loops hn).settles st.ok st.refs (failRow_free _) hm
    | release messages =>
        obtain ⟨n, hn, -⟩ := run_eq_ok hrun
        exact (tryRelease_loops hn).settles st.ok st.refs (fun _ _ => rfl)
          (by rw [List.map_id]; exact hm)
    | _ => cases hm
  keeps := by
    rintro st w call reply st' v m hcall ⟨r, hrun, -⟩ hl
    cases call with
    | acquire request => exact absurd rfl (hcall request)
    | complete items =>
        obtain ⟨n, hn, -⟩ := run_eq_ok hrun
        exact (tryComplete_loops hn).keeps st.ok (free_keeps fun _ _ => rfl) hl
    | fail items =>
        obtain ⟨n, hn, -⟩ := run_eq_ok hrun
        exact (tryFail_loops hn).keeps st.ok (free_keeps (failRow_free _)) hl
    | release messages =>
        obtain ⟨n, hn, -⟩ := run_eq_ok hrun
        exact (tryRelease_loops hn).keeps st.ok (free_keeps fun _ _ => rfl) hl
    | extendLease messages lease =>
        obtain ⟨n, hn, -⟩ := run_eq_ok hrun
        exact (tryExtendLease_loops hn).keeps st.ok (fun _ _ h => h) hl
    | stats =>
        obtain ⟨stats, hstats, -⟩ := run_eq_ok hrun
        rw [tryStats_rows hstats] at hl
        exact hl

end Reliar.Dispatcher
