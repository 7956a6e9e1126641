/-
# `Reliar.Dispatcher.Attempts` — one publish, one attempt
(`reliar-outbox`: `dispatcher.rs`; `reliar-store-postgres`: `store.rs`)

The only guard of an outcome write is `locked_by = worker`, so a write that is
retried is harmless as long as a lease of the worker means its latest claim.
`Owned` says so: what a member has on its books for a row that it leases belongs to
the row's latest claim, and if the publish has come back, its attempt has not been
counted yet.  A claim keeps it unless the member is handed a row that it still has on
its books, which nothing in `run` prevents; `Careful` excludes it.
-/
import Reliar.Dispatcher.Database
import Reliar.Dispatcher.Leases

namespace Reliar.Dispatcher

open Reliar.Core Reliar.Outbox Reliar.Store Relation

/-! ## What a member has on its books -/

namespace Books

/-- The claims whose outcome is to come, or is not known to be written. -/
def unsettled (b : Books) : List TaskId :=
  b.inFlight.map (·.id) ++ b.unwrittenComplete.map (·.task) ++ b.unwrittenFail.map (·.task)

theorem mem_unsettled {b : Books} {t : TaskId} :
    t ∈ b.unsettled ↔ (∃ x ∈ b.inFlight, x.id = t) ∨ (∃ e ∈ b.unwrittenComplete, e.task = t) ∨
      ∃ e ∈ b.unwrittenFail, e.task = t := by
  simp only [unsettled, List.mem_append, List.mem_map, or_assoc]

theorem unsettled_of_task {b : Books} {x : PublishTask} (h : x ∈ b.inFlight) : x.id ∈ b.unsettled :=
  mem_unsettled.mpr (.inl ⟨x, h, rfl⟩)

theorem unsettled_of_complete {b : Books} {e : Unwritten CompletedMessage}
    (h : e ∈ b.unwrittenComplete) : e.task ∈ b.unsettled := mem_unsettled.mpr (.inr (.inl ⟨e, h, rfl⟩))

theorem unsettled_of_fail {b : Books} {e : Unwritten FailedMessage} (h : e ∈ b.unwrittenFail) :
    e.task ∈ b.unsettled := mem_unsettled.mpr (.inr (.inr ⟨e, h, rfl⟩))

/-- How many publishes of the row have come back. -/
def returns (b : Books) (m : MessageRef) : Nat :=
  (b.hist.resolved.filter fun p =>
    b.hist.spawned.any fun q => decide (q.1 = p.1) && decide (q.2.message = m)).length

section
variable {d : OutboxDispatcher} {now : Instant} {shut : Bool} {b b' : Books}

/-- A claim comes onto the books under a new number. -/
structure Follows (b b' : Books) : Prop where
  next : b.nextTask ≤ b'.nextTask
  unsettled : ∀ t < b.nextTask, t ∈ b'.unsettled → t ∈ b.unsettled
  resolved : b.hist.resolved <+: b'.hist.resolved
  spawned : b.hist.spawned <+: b'.hist.spawned

theorem Follows.refl (b : Books) : b.Follows b :=
  ⟨le_rfl, fun _ _ h => h, List.prefix_rfl, List.prefix_rfl⟩

theorem Follows.trans {b'' : Books} (h : b.Follows b') (h' : b'.Follows b'') : b.Follows b'' where
  next := h.next.trans h'.next
  unsettled t ht hu := h.unsettled t ht (h'.unsettled t (ht.trans_le h.next) hu)
  resolved := h.resolved.trans h'.resolved
  spawned := h.spawned.trans h'.spawned

/-- A change that loses claims, or renames none. -/
theorem Follows.of_mem (hnext : b'.nextTask = b.nextTask)
    (htasks : ∀ x ∈ b'.inFlight, x.id ∈ b.unsettled)
    (hcomplete : ∀ e ∈ b'.unwrittenComplete, e.task ∈ b.unsettled)
    (hfail : ∀ e ∈ b'.unwrittenFail, e.task ∈ b.unsettled)
    (hresolved : b.hist.resolved <+: b'.hist.resolved)
    (hspawned : b'.hist.spawned = b.hist.spawned) : b.Follows b' := by
  refine ⟨hnext.ge, fun t _ ht => ?_, hresolved, by rw [hspawned]⟩
  rcases mem_unsettled.mp ht with ⟨x, hx, rfl⟩ | ⟨e, he, rfl⟩ | ⟨e, he, rfl⟩
  · exact htasks x hx
  · exact hcomplete e he
  · exact hfail e he

theorem follows_of_move (hm : Move d now shut b b') : b.Follows b' := by
  have hmap : ∀ {f : PublishTask → PublishTask}, (∀ t, (f t).id = t.id) →
      ∀ x ∈ b.inFlight.map f, x.id ∈ b.unsettled := by
    intro f hf x hx
    obtain ⟨t, ht, rfl⟩ := List.mem_map.mp hx
    rw [hf]
    exact unsettled_of_task ht
  have htask : ∀ x ∈ b.inFlight, x.id ∈ b.unsettled := fun _ => unsettled_of_task
  have hcomplete : ∀ e ∈ b.unwrittenComplete, e.task ∈ b.unsettled := fun _ => unsettled_of_complete
  have hfail : ∀ e ∈ b.unwrittenFail, e.task ∈ b.unsettled := fun _ => unsettled_of_fail
  cases hm with
  | receive => exact .of_mem rfl htask hcomplete hfail List.prefix_rfl rfl
  | @spawn row rest =>
      refine ⟨Nat.le_succ _, fun t ht hu => ?_, List.prefix_rfl, List.prefix_append _ _⟩
      rcases mem_unsettled.mp hu with ⟨x, hx, rfl⟩ | hunwritten
      · rcases List.mem_append.mp hx with hx | hx
        · exact htask x hx
        · rw [List.mem_singleton.mp hx] at ht
          exact absurd ht (lt_irrefl _)
      · exact mem_unsettled.mpr (.inr hunwritten)
  | @phase t p =>
      exact .of_mem rfl (hmap fun x => by split <;> rfl) hcomplete hfail List.prefix_rfl rfl
  | @resolve t _ r =>
      exact .of_mem rfl (hmap fun x => by split <;> rfl) hcomplete hfail (List.prefix_append _ _) rfl
  | @record t unit ht =>
      have hrest : ∀ x ∈ b.inFlight.filter fun x => x.id ≠ t.id, x.id ∈ b.unsettled :=
        fun x hx => htask x (List.mem_filter.mp hx).1
      simp only [Books.recordOne]
      split
      · refine .of_mem rfl hrest (fun e he => ?_) hfail List.prefix_rfl rfl
        rcases List.mem_append.mp he with he | he
        · exact hcomplete e he
        · rw [List.mem_singleton.mp he]
          exact htask t ht
      · refine .of_mem rfl hrest hcomplete (fun e he => ?_) List.prefix_rfl rfl
        rcases List.mem_append.mp he with he | he
        · exact hfail e he
        · rw [List.mem_singleton.mp he]
          exact htask t ht
      · exact .of_mem rfl hrest hcomplete hfail List.prefix_rfl rfl
  | clearComplete =>
      exact .of_mem rfl htask (fun _ he => (List.not_mem_nil he).elim) hfail List.prefix_rfl rfl
  | clearFail | drainFail =>
      exact .of_mem rfl htask hcomplete (fun _ he => (List.not_mem_nil he).elim) List.prefix_rfl rfl
  | expireComplete =>
      exact .of_mem rfl htask (fun e he => hcomplete e (List.mem_filter.mp he).1) hfail
        List.prefix_rfl rfl
  | expireFail =>
      exact .of_mem rfl htask hcomplete (fun e he => hfail e (List.mem_filter.mp he).1)
        List.prefix_rfl rfl
  | dropNotStarted =>
      exact .of_mem rfl (hmap fun x => by split <;> rfl) hcomplete hfail List.prefix_rfl rfl

/-- What had come back before is still counted. -/
theorem Follows.returns_split (h : b.Follows b') (m : MessageRef) : ∃ later,
    b'.hist.resolved = b.hist.resolved ++ later ∧
      b.returns m + (later.filter fun p =>
        b'.hist.spawned.any fun q => decide (q.1 = p.1) && decide (q.2.message = m)).length ≤
      b'.returns m := by
  obtain ⟨later, hlater⟩ := h.resolved
  refine ⟨later, hlater.symm, ?_⟩
  rw [returns, returns, ← hlater, List.filter_append, List.length_append]
  refine Nat.add_le_add_right (List.Sublist.length_le ?_) _
  refine List.monotone_filter_right _ fun p hp => ?_
  obtain ⟨q, hq, hqp⟩ := List.any_eq_true.mp hp
  exact List.any_eq_true.mpr ⟨q, h.spawned.subset hq, hqp⟩

/-- A publish that has just come back is counted. -/
theorem Follows.returns_lt (h : b.Follows b') {t : TaskId} {row : PendingRow}
    (ht : (t, row) ∈ b'.hist.spawned) (hnew : t ∈ b'.hist.resolved.map Prod.fst)
    (hold : t ∉ b.hist.resolved.map Prod.fst) : b.returns row.message < b'.returns row.message := by
  obtain ⟨later, hlater, hle⟩ := h.returns_split row.message
  rw [hlater, List.map_append] at hnew
  obtain ⟨p, hp, rfl⟩ := List.mem_map.mp ((List.mem_append.mp hnew).resolve_left hold)
  refine lt_of_lt_of_le (Nat.lt_add_of_pos_right ?_) hle
  refine List.length_pos_of_mem (List.mem_filter.mpr ⟨hp, List.any_eq_true.mpr ⟨_, ht, ?_⟩⟩)
  simp only [decide_true, Bool.and_self]

end

end Books

section
variable {E : Type} {d : OutboxDispatcher} {s s' : RunState E} {e : Event E}

/-- The batch the store has handed out, and `run` has not looked at. -/
def RunState.handed (s : RunState E) : List Claimed :=
  match s.pc.call?.bind (·.applied) with
  | some (.batch records _) => records
  | _ => []

/-- A claim with its row and its number: spawned as a task, or in that batch. -/
inductive RunState.OpenClaim (s : RunState E) : Option TaskId → MessageRef → Nat → Prop
  | task {t : TaskId} {row : PendingRow} (hrow : (t, row) ∈ s.books.hist.spawned)
      (ht : t ∈ s.books.unsettled) : RunState.OpenClaim s (some t) row.message row.stamp
  | batch {x : Claimed} (hx : x ∈ s.handed) : RunState.OpenClaim s none x.record.messageRef x.stamp

variable [Classify E]

theorem follows_of_next (h : next d s e = some s') (hs : s.books.Settled d) :
    s.books.Follows s'.books :=
  Moves.inv (P := fun b => s.books.Follows b)
    (fun hm hb => hb.trans (Books.follows_of_move hm)) (moves_of_step (step_of_next h) hs.pending)
    (.refl _)

theorem handed_of_step (h : Step d s e s') (he : ∀ reply, e ≠ .apply reply) :
    s'.handed ⊆ s.handed := by
  rcases call_of_step h he with hpc | hissue
  · rw [RunState.handed, hpc]
    exact fun _ hx => hx
  · cases hcall : s'.pc.call? with
    | none =>
        rw [RunState.handed, hcall]
        exact List.nil_subset _
    | some call =>
        rw [RunState.handed, hcall, Option.bind_some, hissue call hcall]
        exact List.nil_subset _

/-- A task is spawned for a row that was handed out, under a new number. -/
theorem spawned_from (h : next d s e = some s') (hs : s.books.Settled d) {t : TaskId}
    {row : PendingRow} (ht : (t, row) ∈ s'.books.hist.spawned) :
    (t, row) ∈ s.books.hist.spawned ∨
      s.books.nextTask ≤ t ∧ ∃ x ∈ s.handed, row = .ofClaimed x := by
  have hs' := settled_of_next h hs
  obtain ⟨new, hnew⟩ := (follows_of_next h hs).spawned
  rw [← hnew] at ht
  refine (List.mem_append.mp ht).imp_right fun ht => ⟨?_, ?_⟩
  · have hnd : (s'.books.hist.spawned.map Prod.fst).Nodup := by
      rw [hs'.sound.ids]
      exact List.nodup_range
    rw [← hnew, List.map_append, hs.sound.ids] at hnd
    refine not_lt.mp fun hlt => ?_
    exact List.disjoint_of_nodup_append hnd (List.mem_range.mpr hlt) (List.mem_map_of_mem ht)
  · have hrows := hs.sound.rows
    have hrows' := hs'.sound.rows
    rw [hs.pending, List.append_nil] at hrows
    rw [hs'.pending, List.append_nil, ← hnew, List.map_append, ← hrows] at hrows'
    rcases acquired_of_step (step_of_next h) with
      hsame | ⟨call, request, records, poisoned, hpc, -, happ, hb, -⟩
    · rw [hsame] at hrows'
      have hnil := List.map_eq_nil_iff.mp (List.self_eq_append_right.mp hrows')
      rw [hnil] at ht
      cases ht
    · rw [hb, claim_acquired, List.map_append] at hrows'
      have hmem : row ∈ records.map PendingRow.ofClaimed := by
        rw [List.append_cancel_left hrows']
        exact List.mem_map_of_mem ht
      obtain ⟨x, hx, rfl⟩ := List.mem_map.mp hmem
      refine ⟨x, ?_, rfl⟩
      rw [RunState.handed, hpc, Pc.call?, Option.bind_some, happ]
      exact hx

/-- No step of a member opens a claim, but it may spawn one as a task. -/
theorem openClaim_of_next (h : next d s e = some s') (he : ∀ reply, e ≠ .apply reply)
    (hs : s.books.Settled d) {o : Option TaskId} {m : MessageRef} {k : Nat}
    (ho : s'.OpenClaim o m k) :
    s.OpenClaim o m k ∨
      s.OpenClaim none m k ∧ ∀ t, o = some t → t ∉ s.books.hist.resolved.map Prod.fst := by
  have hfollows := follows_of_next h hs
  cases ho with
  | @task t row hrow ht =>
      rcases spawned_from h hs hrow with hold | ⟨hnew, x, hx, rfl⟩
      · exact .inl (.task hold (hfollows.unsettled t (hs.sound.id_lt hold) ht))
      · refine .inr ⟨.batch hx, fun t' heq hresolved => ?_⟩
        cases heq
        obtain ⟨p, hp, rfl⟩ := List.mem_map.mp hresolved
        exact absurd (hs.sound.resolved_spawned p hp) (not_lt.mpr hnew)
  | batch hx => exact .inl (.batch (handed_of_step (step_of_next h) he hx))

/-- Inside the loop, the rows of a renewal are those of the claims on the books. -/
theorem leaseRefs_of_unsettled {b : Books} (hs : b.Sound d) (hk : b.Kept d) {t : TaskId}
    {row : PendingRow} (hrow : (t, row) ∈ b.hist.spawned) (ht : t ∈ b.unsettled) :
    row.message ∈ b.leaseRefs := by
  have hsame : ∀ {row' : PendingRow}, (t, row') ∈ b.hist.spawned → row'.message = row.message :=
    fun hrow' => by rw [hs.row_unique hrow' hrow]
  simp only [Books.leaseRefs, List.mem_append]
  rcases Books.mem_unsettled.mp ht with ⟨x, hx, rfl⟩ | ⟨e, he, rfl⟩ | ⟨e, he, rfl⟩
  · obtain ⟨o, ho, hid⟩ := List.mem_map.mp (hk.tasks.subset (List.mem_map_of_mem hx))
    obtain ⟨x', hx', hid', hmessage⟩ := hs.outstanding_task o ho
    have hrow' := hs.inFlight_row x' hx'
    rw [hid', hid] at hrow'
    exact .inl (.inl (List.mem_map.mpr ⟨o, ho, hmessage.symm.trans (hsame hrow')⟩))
  · obtain ⟨row', hrow', -, hitem⟩ := hs.complete e he
    exact .inl (.inr (List.mem_map.mpr ⟨e, he, by rw [hitem]; exact hsame hrow'⟩))
  · obtain ⟨row', _, _, _, _, hrow', -, -, hitem⟩ := hs.fail e he
    exact .inr (List.mem_map.mpr ⟨e, he, by rw [hitem]; exact hsame hrow'⟩)

end

/-! ## What a call of a member names -/

section
variable {E : Type} [Classify E] {d : OutboxDispatcher} {s : RunState E} {now : Instant}
  {es : List (Event E)} {call : Call} {op : StoreCall}

end

/-! ## The tally -/

/-- How many publishes of a row have come back since it was inserted or last started over. -/
abbrev Tally := MessageRef → Nat

/-- The row is alive now, and was not there before, or dead. -/
def Database.startsOver (st st' : Database) (m : MessageRef) : Bool :=
  st'.rows.any fun r' => decide (r'.messageRef = m) && r'.deadAt.isNone &&
    st.rows.all fun r => !decide (r.messageRef = m) || r.deadAt.isSome

section
variable {ι E : Type}

def Tally.after (n : Tally) (c c' : Fleet ι E Database) : FleetEvent ι E → Tally
  | .run i _ => fun m => n m + ((c'.runs i).books.returns m - (c.runs i).books.returns m)
  | .part _ => n
  | .elsewhere => fun m => if c.store.startsOver c'.store m then 0 else n m

/-- No member is handed a row that it still has on its books. -/
def Careful (c c' : Fleet ι E Database) : FleetEvent ι E → Prop
  | .run i _ => ∀ m, c.store.claims m < c'.store.claims m →
      ∀ held ∈ (c.runs i).books.leaseRefs, held.id ≠ m.id
  | _ => True

variable [DecidableEq ι] [Classify E]

/-- A step of the fleet, with the tally beside it. -/
structure TallyStep (rendering : Rendering) (d : ι → OutboxDispatcher)
    (c : Fleet ι E Database × Tally) (e : FleetEvent ι E) (c' : Fleet ι E Database × Tally) :
    Prop where
  step : FleetStep (database rendering) d c.1 e c'.1
  tally : c'.2 = c.2.after c.1 c'.1 e

structure CarefulStep (rendering : Rendering) (d : ι → OutboxDispatcher)
    (c : Fleet ι E Database × Tally) (e : FleetEvent ι E) (c' : Fleet ι E Database × Tally) : Prop
    extends TallyStep rendering d c e c' where
  careful : Careful c.1 c'.1 e

/-! ## A lease means the latest claim -/

omit [DecidableEq ι] [Classify E] in
/-- What a member that leases the row has on its books for it. -/
structure Owned (s : RunState E) (st : Database) (n : Tally) (r : Row) : Prop where
  /-- it belongs to the row's latest claim -/
  current : ∀ o m k, s.OpenClaim o m k → m.id = r.messageRef.id →
    m = r.messageRef ∧ k = st.claims r.messageRef
  /-- and a publish that came back has not been counted -/
  due : ∀ t m k, s.OpenClaim (some t) m k → t ∈ s.books.hist.resolved.map Prod.fst →
    m.id = r.messageRef.id → r.attempts + 1 ≤ n r.messageRef

structure Tallied (d : ι → OutboxDispatcher) (c : Fleet ι E Database) (n : Tally) : Prop where
  keyed : Postgres.Keyed c.store.rows
  counted : ∀ r ∈ c.store.rows, r.attempts ≤ n r.messageRef
  leases : ∀ r ∈ c.store.rows, ∀ i, r.lockedBy = some (d i).worker.asStr →
    Owned (c.runs i) c.store n r

section
variable {s s' : RunState E} {st st' : Database} {n n' : Tally} {r r' : Row} {d : OutboxDispatcher}
  {e : Event E}

omit [DecidableEq ι] [Classify E] in
/-- Fewer claims on the books, a higher tally, and a row nobody claimed. -/
theorem Owned.weaken (h : Owned s st n r)
    (hopen : ∀ o m k, s'.OpenClaim o m k → m.id = r.messageRef.id → s.OpenClaim o m k)
    (hresolved : s'.books.hist.resolved = s.books.hist.resolved)
    (hclaims : st'.claims r.messageRef = st.claims r.messageRef) (hn : n r.messageRef ≤ n' r.messageRef)
    (href : r'.messageRef = r.messageRef) (hattempts : r'.attempts = r.attempts) :
    Owned s' st' n' r' where
  current o m k ho hid := by
    rw [href] at hid ⊢
    rw [hclaims]
    exact h.current o m k (hopen o m k ho hid) hid
  due t m k ho hresolved' hid := by
    rw [href] at hid ⊢
    rw [hattempts]
    rw [hresolved] at hresolved'
    have hdue := h.due t m k (hopen _ m k ho hid) hresolved' hid
    exact hdue.trans (Int.ofNat_le.mpr hn)

omit [DecidableEq ι] in
/-- The member goes on, and what came back is counted. -/
theorem Owned.next (h : Owned s st n r) (hnext : next d s e = some s')
    (he : ∀ reply, e ≠ .apply reply) (hs : s.books.Settled d)
    (hn : ∀ m, n' m = n m + (s'.books.returns m - s.books.returns m))
    (hattempts : r.attempts ≤ n r.messageRef) : Owned s' st n' r := by
  have hfollows := follows_of_next hnext hs
  refine ⟨fun o m k ho hid => ?_, fun t m k ho hresolved hid => ?_⟩
  · rcases openClaim_of_next hnext he hs ho with hold | ⟨hold, -⟩
    · exact h.current o m k hold hid
    · exact h.current none m k hold hid
  · by_cases hold : t ∈ s.books.hist.resolved.map Prod.fst
    · have hbefore : s.OpenClaim (some t) m k := by
        rcases openClaim_of_next hnext he hs ho with hbefore | ⟨-, hnot⟩
        · exact hbefore
        · exact absurd hold (hnot t rfl)
      refine (h.due t m k hbefore hold hid).trans (Int.ofNat_le.mpr ?_)
      rw [hn]
      exact Nat.le_add_right _ _
    · -- the publish has just come back
      have hm : m = r.messageRef := by
        rcases openClaim_of_next hnext he hs ho with hbefore | ⟨hbefore, -⟩
        · exact (h.current _ m k hbefore hid).1
        · exact (h.current none m k hbefore hid).1
      cases ho with
      | task hrow _ =>
          have hlt := hfollows.returns_lt hrow hresolved hold
          rw [hm] at hlt
          have hmore := hn r.messageRef
          omega

end

section
variable {rendering : Rendering} {d : ι → OutboxDispatcher} {now : ι → Instant}
  {c c' : Fleet ι E Database} {n n' : Tally} {e : FleetEvent ι E} {es : List (FleetEvent ι E)}

omit [DecidableEq ι] [Classify E] in
/-- A method that takes no rows: the claims on the books stay, and an outcome write counts what is
due. -/
theorem Tallied.call (h : Tallied d c n) {i : ι} {op : StoreCall} {reply : Reply}
    (hst : (database rendering).carriesOut c.store (d i).worker op reply c'.store)
    (hop : ∀ request, op ≠ .acquire request)
    (hnamed : ∀ m ∈ op.outcomes, ∃ t k, (c.runs i).OpenClaim (some t) m k ∧
      t ∈ (c.runs i).books.hist.resolved.map Prod.fst)
    (hopen : ∀ j o m k, (c'.runs j).OpenClaim o m k → (c.runs j).OpenClaim o m k)
    (hresolved : ∀ j, (c'.runs j).books.hist.resolved = (c.runs j).books.hist.resolved) :
    Tallied d c' n := by
  have hclaims : ∀ m, c'.store.claims m = c.store.claims m := by
    intro m
    rw [Database.claims, (CarriesOut.taken_eq hst hop).1, Database.claims]
  refine ⟨CarriesOut.keyed hst h.keyed, fun r' hr' => ?_, fun r' hr' j hlocked => ?_⟩
  · obtain ⟨r, hr, hquiet | hcounted⟩ := CarriesOut.row hst hop hr'
    · rw [hquiet.attempts, hquiet.ref]
      exact h.counted r hr
    · have howned := hcounted.owned
      simp only [Postgres.owned, Bool.and_eq_true, decide_eq_true_eq] at howned
      obtain ⟨m, hm, hid⟩ := List.mem_map.mp howned.1
      obtain ⟨t, k, ho, hret⟩ := hnamed m hm
      have hsame : m.id = r.messageRef.id := congrArg MessageId.mk hid
      rw [hcounted.attempts, hcounted.ref]
      exact (h.leases r hr i howned.2).due t m k ho hret hsame
  · obtain ⟨r, hr, hquiet | hcounted⟩ := CarriesOut.row hst hop hr'
    · exact (h.leases r hr j (hquiet.locked hlocked)).weaken (fun o m k ho _ => hopen j o m k ho)
        (hresolved j) (hclaims _) le_rfl hquiet.ref hquiet.attempts
    · rw [hcounted.lock] at hlocked
      cases hlocked

omit [DecidableEq ι] [Classify E] in
/-- An `acquire` of a member that has none of the rows on its books. -/
theorem Tallied.acquire (h : Tallied d c n) (hworkers : Function.Injective fun i => (d i).worker)
    {i : ι} {request : AcquireRequest} {reply : Reply}
    (hst : (database rendering).carriesOut c.store (d i).worker (.acquire request) reply c'.store)
    (hworker : request.worker = (d i).worker)
    (hnone : ∀ m, c.store.claims m < c'.store.claims m →
      ∀ o m' k, (c.runs i).OpenClaim o m' k → m'.id ≠ m.id)
    (hopen : ∀ j o m k, (c'.runs j).OpenClaim o m k → (c.runs j).OpenClaim o m k ∨
      j = i ∧ o = none ∧ ∃ records poisoned x, reply = .batch records poisoned ∧ x ∈ records ∧
        m = x.record.messageRef ∧ k = x.stamp)
    (hresolved : ∀ j, (c'.runs j).books.hist.resolved = (c.runs j).books.hist.resolved) :
    Tallied d c' n := by
  have hkeyed := CarriesOut.keyed hst h.keyed
  generalize hafter : c'.store = after at hst hkeyed hnone
  cases hst with
  | call hop => cases hop
  | @acquire _ env env' rows result _ _ hrun heq =>
      have hrows : after.rows = (Postgres.runAcquireThen rendering request env env' c.store.rows).1 := by
        rw [heq, hrun]
        rfl
      have hclaims : ∀ m, after.claims m = ((Postgres.claimReturns request env c.store.rows).map
          Row.messageRef).count m + c.store.claims m := by
        intro m
        rw [heq, Database.claims, Database.take, List.count_append, Database.claims]
      -- what was handed out is a row that was taken, with the number of that claim
      have hbatch : ∀ {records poisoned x}, after.handOut result = .batch records poisoned →
          x ∈ records → x.record.messageRef ∈
            (Postgres.claimReturns request env c.store.rows).map Row.messageRef ∧
            x.stamp = after.claims x.record.messageRef := by
        intro records poisoned x hreply hx
        cases result with
        | error err =>
            cases hreply
            cases hx
        | ok batch =>
            cases hreply
            obtain ⟨record, hrecord, rfl⟩ := List.mem_map.mp hx
            exact ⟨Postgres.acquire_record (by rw [hrun]) hrecord, rfl⟩
      have hknown : ∀ {m : MessageRef} {r : Row}, r ∈ c.store.rows →
          m ∈ (Postgres.claimReturns request env c.store.rows).map Row.messageRef →
          m.id = r.messageRef.id → m = r.messageRef := by
        intro m r hr hm hid
        obtain ⟨x, hx, rfl⟩ := List.mem_map.mp hm
        obtain ⟨y, hy, hxy⟩ := Postgres.claimReturns_ref hx
        rw [hxy] at hid ⊢
        rw [h.keyed.eq_of_id hy hr hid]
      refine ⟨hafter ▸ hkeyed, fun r' hr' => ?_, fun r' hr' j hlocked => ?_⟩
      · rw [hafter, hrows] at hr'
        obtain ⟨r, hr, hacquired⟩ := Postgres.acquire_row h.keyed hr'
        rw [hacquired.attempts, hacquired.ref]
        exact h.counted r hr
      · rw [hafter, hrows] at hr'
        obtain ⟨r, hr, hacquired⟩ := Postgres.acquire_row h.keyed hr'
        rw [hafter]
        rcases hacquired.lock _ hlocked with ⟨hold, hnot⟩ | ⟨htaken, hname⟩
        · refine (h.leases r hr j hold).weaken (fun o m k ho hid => ?_) (hresolved j) ?_ le_rfl
            hacquired.ref hacquired.attempts
          · rcases hopen j o m k ho with hbefore | ⟨-, -, _, _, x, hreply, hx, rfl, -⟩
            · exact hbefore
            · -- the row was not taken
              obtain ⟨hmem, -⟩ := hbatch hreply hx
              rw [hknown hr hmem hid, ← hacquired.ref] at hmem
              exact absurd hmem hnot
          · rw [hclaims, ← hacquired.ref, List.count_eq_zero_of_not_mem hnot, Nat.zero_add]
        · -- the row was taken by `i`, which had nothing on its books for it
          have hij : j = i := by
            have hnames : (d j).worker.asStr = (d i).worker.asStr := by rw [hname, hworker]
            exact hworkers (WorkerId.asStr_inj.mp hnames)
          subst hij
          have hmore : c.store.claims r'.messageRef < after.claims r'.messageRef := by
            rw [hclaims]
            have hpos := List.count_pos_iff.mpr htaken
            omega
          refine ⟨fun o m k ho hid => ?_, fun t m k ho _ hid => ?_⟩
          · rcases hopen j o m k ho with hbefore | ⟨-, -, _, _, x, hreply, hx, rfl, rfl⟩
            · exact absurd hid (hnone _ hmore o m k hbefore)
            · obtain ⟨hmem, hstamp⟩ := hbatch hreply hx
              rw [hacquired.ref] at hid ⊢
              rw [hstamp, hknown hr hmem hid]
              exact ⟨rfl, rfl⟩
          · rcases hopen j (some t) m k ho with hbefore | ⟨-, hno, -⟩
            · exact absurd hid (hnone _ hmore _ m k hbefore)
            · cases hno

omit [DecidableEq ι] [Classify E] in
/-- A row that starts over has no attempts; the others keep their tally. -/
theorem Tallied.elsewhere (h : Tallied d c n) (hst : c.store.Elsewhere c'.store)
    (hruns : c'.runs = c.runs) : Tallied d c' (n.after c c' .elsewhere) := by
  have hkeyed := hst.keyed h.keyed
  have hsame : ∀ {r r'}, r ∈ c.store.rows → r' ∈ c'.store.rows → Postgres.Quiet r r' →
      n.after c c' .elsewhere r'.messageRef = n r'.messageRef := by
    intro r r' hr hr' hquiet
    refine if_neg fun hover => ?_
    obtain ⟨x, hx, hstarts⟩ := List.any_eq_true.mp hover
    simp only [Bool.and_eq_true, decide_eq_true_eq, Option.isNone_iff_eq_none,
      List.all_eq_true] at hstarts
    obtain ⟨⟨href, halive⟩, hdead⟩ := hstarts
    have hxr : x = r' := hkeyed.eq_of_id hx hr' (congrArg MessageRef.id href)
    subst hxr
    have hrdead := hdead r hr
    rw [decide_eq_true hquiet.ref.symm, Bool.not_true, Bool.false_or] at hrdead
    have hxdead := hquiet.dead hrdead
    rw [halive] at hxdead
    cases hxdead
  refine ⟨hkeyed, fun r' hr' => ?_, fun r' hr' j hlocked => ?_⟩
  · rcases hst.row h.keyed hr' with ⟨hzero, -⟩ | ⟨r, hr, hquiet⟩
    · rw [hzero]
      exact Int.natCast_nonneg _
    · rw [hsame hr hr' hquiet, hquiet.attempts, hquiet.ref]
      exact h.counted r hr
  · rcases hst.row h.keyed hr' with ⟨-, hnone, -⟩ | ⟨r, hr, hquiet⟩
    · rw [hnone] at hlocked
      cases hlocked
    · rw [hruns]
      refine (h.leases r hr j (hquiet.locked hlocked)).weaken (fun _ _ _ ho _ => ho) rfl ?_ ?_
        hquiet.ref hquiet.attempts
      · rw [Database.claims, hst.taken_eq, Database.claims]
      · rw [← hquiet.ref, hsame hr hr' hquiet]

theorem TallyStep.path {c c' : Fleet ι E Database × Tally}
    (h : Machine.Path (TallyStep rendering d) c es c') :
    Machine.Path (FleetStep (database rendering) d) c.1 es c'.1 := by
  induction h with
  | nil => exact .nil _
  | snoc _ hstep ih => exact ih.snoc hstep.step

theorem CarefulStep.path {c c' : Fleet ι E Database × Tally}
    (h : Machine.Path (CarefulStep rendering d) c es c') :
    Machine.Path (FleetStep (database rendering) d) c.1 es c'.1 :=
  TallyStep.path (h.mono (·.toTallyStep))

omit [DecidableEq ι] [Classify E] in
/-- The store has no part in it. -/
def FleetEvent.aside : FleetEvent ι E → Bool
  | .run _ (.apply _) => false
  | .run _ _ => true
  | .part _ => false
  | .elsewhere => false

/-- What the members do without the store is careful. -/
theorem careful_of_aside {c c' : Fleet ι E Database}
    (h : Machine.Path (FleetStep (database rendering) d) c es c') (hes : es.all (·.aside) = true) :
    Machine.Path (fun c e c' => FleetStep (database rendering) d c e c' ∧ Careful c c' e) c es c' := by
  induction h with
  | nil => exact .nil _
  | @snoc c₁ c₂ es e _ hstep ih =>
      rw [List.all_append, Bool.and_eq_true] at hes
      refine (ih hes.1).snoc ⟨hstep, ?_⟩
      have haside : e.aside = true := by simpa using hes.2
      cases hstep with
      | run => exact fun m hlt => absurd hlt (lt_irrefl _)
      | apply | part | elsewhere => cases haside

/-- Every run has a tally. -/
theorem exists_tally {P : Fleet ι E Database → FleetEvent ι E → Fleet ι E Database → Prop}
    {c c' : Fleet ι E Database}
    (h : Machine.Path (fun c e c' => FleetStep (database rendering) d c e c' ∧ P c e c') c es c')
    (n : Tally) : ∃ n', Machine.Path
      (fun x e x' => TallyStep rendering d x e x' ∧ P x.1 e x'.1) (c, n) es (c', n') := by
  induction h with
  | nil => exact ⟨n, .nil _⟩
  | @snoc c₁ c₂ es e _ hstep ih =>
      obtain ⟨n₁, hn₁⟩ := ih
      exact ⟨n₁.after c₁ c₂ e, hn₁.snoc ⟨⟨hstep.1, rfl⟩, hstep.2⟩⟩

end

end

/-- Of a single member the tally never exceeds what has come back. -/
theorem tally_le_returns {E : Type} [Classify E] {rendering : Rendering} {d : Unit → OutboxDispatcher}
    {now : Unit → Instant} {es : List (FleetEvent Unit E)} {c : Fleet Unit E Database × Tally}
    (h : Machine.Path (TallyStep rendering d) (Fleet.start d now Database.empty, fun _ => 0) es c)
    (m : MessageRef) : c.2 m ≤ (c.1.runs ()).books.returns m := by
  induction h with
  | nil => exact Nat.zero_le _
  | @snoc c₁ c₂ es e hpath hstep ih =>
      have hmono : (c₁.1.runs ()).books.returns m ≤ (c₂.1.runs ()).books.returns m := by
        rcases hstep.step.member () with hsame | ⟨f, -, hnext⟩
        · rw [hsame]
        · obtain ⟨fs, hrun⟩ := member_run (TallyStep.path hpath) ()
          obtain ⟨later, -, hle⟩ := (follows_of_next hnext (Run.settled hrun)).returns_split m
          exact (Nat.le_add_right _ _).trans hle
      rw [hstep.tally]
      cases e with
      | run i e =>
          change c₁.2 m + ((c₂.1.runs ()).books.returns m - (c₁.1.runs ()).books.returns m) ≤
            (c₂.1.runs ()).books.returns m
          omega
      | part i => exact ih.trans hmono
      | elsewhere =>
          simp only [Tally.after]
          split
          · exact Nat.zero_le _
          · exact ih.trans hmono

/-! ### A `fail` that is carried out unseen -/

/-- A dispatcher whose policy waits for 0.8 s. -/
def patient : OutboxDispatcher :=
  ⟨.default, sampleWorker, ⟨fun _ _ _ => .retry (Duration.ofMillis 800)⟩⟩

def storedTable : Database := ⟨[Postgres.waitingRow 1 METADATA_VERSION], []⟩

/-- Every statement takes the one row. -/
def envAt (now : Timestamp) : Postgres.Env := ⟨now, fun _ => ⟨[1], fun _ => 0⟩, fun _ => false⟩

/-- The claim of a member with so many rows on its books, and its result. -/
def claimAt (outstanding : Nat) (now : Timestamp) (st : Database) :
    Database × Except Postgres.CallError AcquiredBatch :=
  let request := claimRequest (patient) ⟨outstanding, []⟩
  let run := Postgres.runAcquireThen Postgres.sampleRendering request (envAt now) (envAt now) st.rows
  (st.take run.1 ((Postgres.claimReturns request (envAt now) st.rows).map Row.messageRef), run.2)

theorem carriesOut_claimAt (outstanding : Nat) (now : Timestamp) (st : Database)
    (hvalid : Postgres.AcquireValid Postgres.sampleRendering (claimRequest patient ⟨outstanding, []⟩)
      (envAt now) (envAt now) st.rows) :
    (database Postgres.sampleRendering).carriesOut st sampleWorker
      (.acquire (claimRequest patient ⟨outstanding, []⟩))
      ((claimAt outstanding now st).1.handOut (claimAt outstanding now st).2)
      (claimAt outstanding now st).1 := by
  have hrun : Postgres.runAcquireThen Postgres.sampleRendering
      (claimRequest patient ⟨outstanding, []⟩) (envAt now) (envAt now) st.rows =
        ((claimAt outstanding now st).1.rows, (claimAt outstanding now st).2) := rfl
  exact .acquire hvalid hrun rfl

def failedItem : FailedMessage :=
  ⟨⟨(sampleEnvelope 1).id, 0⟩, "broker down", .retry (Duration.ofMillis 800)⟩

def failAt (now : Timestamp) (st : Database) : Database :=
  { st with rows := ((Postgres.Call.fail sampleWorker [failedItem]).run .pool (envAt now) st.rows).1 }

def leasedTable : Database := (claimAt 0 0 storedTable).1

def claimAndFail : List (Event FailureKind) :=
  [.answer .ok, .permit 0, .publishReturns 0 (.err .transient "broker down"), .enter,
    .fireJoin [(0, 0)], .enter, .retryWakes]

/-- The publish has failed, and the member is about to say so. -/
def failing : RunState FailureKind :=
  Machine.reach (next patient) (RunState.start .default 0)
    ([.enter, .fireClaim, .apply (leasedTable.handOut (claimAt 0 0 storedTable).2)] ++ claimAndFail)

abbrev CarefulPath := Machine.Path fun (c : Fleet Unit FailureKind Database) e c' =>
  FleetStep (database Postgres.sampleRendering) (fun _ => patient) c e c' ∧ Careful c c' e

def failingRun : List (FleetEvent Unit FailureKind) :=
  [.elsewhere] ++ [Event.enter, .fireClaim].map (.run ()) ++
    [.run () (.apply (leasedTable.handOut (claimAt 0 0 storedTable).2))] ++
    claimAndFail.map (.run ())

theorem path_failing : CarefulPath (Fleet.start (fun _ => patient) (fun _ => 0) Database.empty)
    failingRun ⟨fun _ => failing, leasedTable⟩ := by
  have hstored : CarefulPath (Fleet.start (fun _ => patient) (fun _ => 0) Database.empty)
      [.elsewhere] ⟨_, storedTable⟩ :=
    .single ⟨.elsewhere (.insert List.not_mem_nil List.not_mem_nil rfl), trivial⟩
  have hasked := hstored.append (careful_of_aside
    (path_of_solo () [.enter, .fireClaim] rfl (by simp)) rfl)
  have hclaim := hasked.snoc ⟨.apply (i := ()) rfl rfl (carriesOut_claimAt 0 0 storedTable
    (.of_readable (by decide) (by decide))), by
    intro m _ held hheld
    cases hheld⟩
  exact hclaim.append (careful_of_aside
    (path_of_solo () claimAndFail rfl (by simp [claimAndFail])) rfl)

theorem carriesOut_failAt (now : Timestamp) (st : Database) (count : Nat)
    (hvalid : (envAt now).Valid 0 (Postgres.Call.fail sampleWorker [failedItem]).stmts st.rows)
    (h : ((Postgres.Call.fail sampleWorker [failedItem]).run .pool (envAt now) st.rows).2 =
      .ok (.affected count)) :
    (database Postgres.sampleRendering).carriesOut st sampleWorker (.fail [failedItem])
      (.affected count) (failAt now st) :=
  Database.CarriesOut.call rfl hvalid (Prod.ext rfl h)

/-- The one statement of this `fail`. -/
theorem failValid_of {now : Timestamp} {rows : List Row}
    (h : (Postgres.Stmt.failRetry (Postgres.retries [failedItem]) sampleWorker.asStr).pick now rows [1] =
      true)
    (hitem : ∀ r ∈ rows, (Postgres.Stmt.failRetry (Postgres.retries [failedItem])
      sampleWorker.asStr).picks 0 r = true) :
    (envAt now).Valid 0 (Postgres.Call.fail sampleWorker [failedItem]).stmts rows :=
  ⟨fun _ => ⟨h, fun r hr _ => hitem r hr⟩, fun _ _ _ => trivial⟩

def failedTable : Database := failAt 0 leasedTable

theorem carriesOut_failedTable : (database Postgres.sampleRendering).carriesOut leasedTable
    sampleWorker (.fail [failedItem]) (.affected 1) failedTable :=
  carriesOut_failAt 0 leasedTable 1 (failValid_of (by decide) (by decide)) rfl

def failed : RunState FailureKind := Machine.reach (next patient) failing [.apply (.affected 1)]

theorem path_failed : CarefulPath (Fleet.start (fun _ => patient) (fun _ => 0) Database.empty)
    (failingRun ++ [.run () (.apply (.affected 1))]) ⟨fun _ => failed, failedTable⟩ := by
  refine path_failing.snoc ⟨?_, fun m hlt => absurd hlt (lt_irrefl _)⟩
  have hnext : next patient failing (.apply (.affected 1)) = some failed := rfl
  exact .apply (i := ()) hnext rfl carriesOut_failedTable

def leasedAgain : Database := (claimAt 1 1000000000 failedTable).1

def batchAgain : Reply := leasedAgain.handOut (claimAt 1 1000000000 failedTable).2

def askAgain : List (Event FailureKind) := [.tick 1000000000, .fireClaim]

def retryOld : List (Event FailureKind) := [.answer .ok, .enter, .retryWakes]

def asked : RunState FailureKind := Machine.reach (next patient) failed askAgain

def claimedAgain : RunState FailureKind := Machine.reach (next patient) asked [.apply batchAgain]

def retrying : RunState FailureKind := Machine.reach (next patient) claimedAgain retryOld

def twice : RunState FailureKind := Machine.reach (next patient) retrying [.apply (.affected 1)]

def twiceTable : Database := failAt 1000000000 leasedAgain

/-- From the unseen `fail` up to its repetition. -/
theorem path_careless : Machine.Path (FleetStep (database Postgres.sampleRendering) fun _ => patient)
    (⟨fun _ => failed, failedTable⟩ : Fleet Unit FailureKind Database)
    (askAgain.map (.run ()) ++ [.run () (.apply batchAgain)] ++ retryOld.map (.run ()) ++
      [.run () (.apply (.affected 1))]) ⟨fun _ => twice, twiceTable⟩ := by
  have hasked : Machine.Path (FleetStep (database Postgres.sampleRendering) fun _ => patient)
      (⟨fun _ => failed, failedTable⟩ : Fleet Unit FailureKind Database) (askAgain.map (.run ()))
      ⟨fun _ => asked, failedTable⟩ := path_of_solo () askAgain (by decide) (by simp [askAgain])
  have hclaim : next patient asked (.apply batchAgain) = some claimedAgain := rfl
  have hretried : Machine.Path (FleetStep (database Postgres.sampleRendering) fun _ => patient)
      (⟨fun _ => claimedAgain, leasedAgain⟩ : Fleet Unit FailureKind Database)
      (retryOld.map (.run ())) ⟨fun _ => retrying, leasedAgain⟩ :=
    path_of_solo () retryOld (by decide) (by simp [retryOld])
  have htwice : next patient retrying (.apply (.affected 1)) = some twice := rfl
  have hcount : ((Postgres.Call.fail sampleWorker [failedItem]).run .pool (envAt 1000000000)
      leasedAgain.rows).2 = .ok (.affected 1) := by decide
  refine ((hasked.snoc ?_).append hretried).snoc ?_
  · exact .apply (i := ()) hclaim rfl (carriesOut_claimAt 1 1000000000 failedTable
      (.of_readable (by decide) (by decide)))
  · exact .apply (i := ()) htwice rfl (carriesOut_failAt 1000000000 leasedAgain 1
      (failValid_of (by decide) (by decide)) hcount)

/-- The `fail` of the first claim is carried out unseen, its round is dropped for a claim of the same
row, and then it is carried out again: two attempts, and one publish that came back. -/
theorem attempts_exceed : ∃ (es : List (FleetEvent Unit FailureKind))
    (c : Fleet Unit FailureKind Database) (n : Tally) (r : Row),
      Machine.Path (TallyStep Postgres.sampleRendering fun _ => patient)
        (Fleet.start (fun _ => patient) (fun _ => 0) Database.empty, fun _ => 0) es (c, n) ∧
      r ∈ c.store.rows ∧ (n r.messageRef : Int) < r.attempts := by
  have hrun := (path_failed.mono fun h => h.1).append path_careless
  obtain ⟨n, hpath⟩ := exists_tally (P := fun _ _ _ => True) (hrun.mono fun h => ⟨h, trivial⟩)
    fun _ => 0
  have htally : Machine.Path (TallyStep Postgres.sampleRendering fun _ => patient) _ _ _ :=
    hpath.mono fun h => h.1
  obtain ⟨r, hr, href, htwo⟩ : ∃ r ∈ twiceTable.rows,
      r.messageRef = ⟨(sampleEnvelope 1).id, 0⟩ ∧ r.attempts = 2 := by
    refine ⟨_, List.mem_singleton.mpr rfl, ?_, ?_⟩
    · decide
    · decide
  have hone : twice.books.returns ⟨(sampleEnvelope 1).id, 0⟩ ≤ 1 := by decide
  have hle := (tally_le_returns htally r.messageRef).trans (href ▸ hone)
  refine ⟨_, ⟨fun _ => twice, twiceTable⟩, n, r, htally, hr, ?_⟩
  rw [htwo]
  exact Int.ofNat_lt.mpr (Nat.lt_succ_of_le hle)

end Reliar.Dispatcher
