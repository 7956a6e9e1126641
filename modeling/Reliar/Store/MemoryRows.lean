/-
# `Reliar.Store.MemoryRows` — what a method of `InMemoryOutboxStore` does to a row

`Change` lists what one method may do to one row, with the guard it asks; a loop
over items may do it several times.  Every row after a call comes from a row
before it by such changes (`run_rows`), so what every change keeps holds of every
row of every run.

`RecordOk` is the row state that PostgreSQL's constraints describe.  Nothing
checks it here; it holds because a leased row is neither published nor dead.
-/
import Reliar.Store.Memory
import Reliar.Outbox.ErrorText

namespace Reliar.Store.Memory

open Reliar.Core Reliar.Outbox Relation

/-! ## Changes -/

/-- What a method does to a row that passes its guard. -/
inductive Change (now : Timestamp) (row : OutboxRecord) : Op → OutboxRecord → Prop
  | lock {request} : isClaimable row now = true →
      Change now row (.acquire request) (lockRow request.worker (now + request.lease) row)
  | complete {worker items item} : item ∈ items → owns worker item.message row = true →
      Change now row (.complete worker items) (completeRow now item row)
  | fail {worker items item} : item ∈ items → owns worker item.message row = true →
      Change now row (.fail worker items) (failRow now item row)
  | release {worker items message} : message ∈ items → owns worker message row = true →
      Change now row (.release worker items) (unlock row)
  | extend {worker items lease message} : message ∈ items → owns worker message row = true →
      Change now row (.extendLease worker items lease) (extendRow (now + lease) message row)
  | sweep {request} : sweepable now row = true →
      Change now row (.purge request) (sweepRow now row)
  | retry {refs message} : message ∈ refs → refMatches row message = true →
      row.deadAt.isSome = true → Change now row (.retryDead refs) (retryRow now message row)

/-- A chain of changes by one call. -/
abbrev Changes (now : Timestamp) (op : Op) : OutboxRecord → OutboxRecord → Prop :=
  ReflTransGen fun row row' => Change now row op row'

section
variable {p : OutboxRecord → Bool} {f : OutboxRecord → OutboxRecord}

theorem updateFirst_mem : ∀ {rows rows' : List OutboxRecord} {y : OutboxRecord},
    updateFirst p f rows = some rows' → y ∈ rows' → y ∈ rows ∨ ∃ r ∈ rows, p r = true ∧ y = f r
  | [], _, _, h, _ => by cases h
  | r :: rs, rows', y, h, hy => by
      unfold updateFirst at h
      split at h
      · rename_i hp
        cases h
        rcases List.mem_cons.mp hy with rfl | hy
        · exact .inr ⟨r, List.mem_cons_self, hp, rfl⟩
        · exact .inl (List.mem_cons_of_mem _ hy)
      · obtain ⟨rs', hrs', rfl⟩ := Option.map_eq_some_iff.mp h
        rcases List.mem_cons.mp hy with rfl | hy
        · exact .inl List.mem_cons_self
        · rcases updateFirst_mem hrs' hy with hy | ⟨x, hx, hpx, rfl⟩
          · exact .inl (List.mem_cons_of_mem _ hy)
          · exact .inr ⟨x, List.mem_cons_of_mem _ hx, hpx, rfl⟩

end

/-- A loop over items changes a row by the items that match it. -/
theorem updateEach_mem {α : Type} {p : α → OutboxRecord → Bool}
    {f : α → OutboxRecord → OutboxRecord} {items : List α} {rows : List OutboxRecord}
    {y : OutboxRecord} (hy : y ∈ (updateEach p f items rows).1) :
    ∃ r ∈ rows, ReflTransGen (fun r r' => ∃ a ∈ items, p a r = true ∧ r' = f a r) r y := by
  suffices h : ∀ (todo : List α) (acc : List OutboxRecord × Nat), todo ⊆ items →
      y ∈ (todo.foldl (updateOne p f) acc).1 →
      ∃ r ∈ acc.1, ReflTransGen (fun r r' => ∃ a ∈ items, p a r = true ∧ r' = f a r) r y from
    h items (rows, 0) (List.Subset.refl _) hy
  intro todo
  induction todo with
  | nil => exact fun acc _ hy => ⟨y, hy, .refl⟩
  | cons a todo ih =>
      intro acc hsub hy
      obtain ⟨r, hr, hchain⟩ := ih (updateOne p f acc a) (fun x hx => hsub (List.mem_cons_of_mem _ hx)) hy
      unfold updateOne at hr
      cases hu : updateFirst (p a) (f a) acc.1 with
      | none =>
          simp only [hu] at hr
          exact ⟨r, hr, hchain⟩
      | some rows' =>
          simp only [hu] at hr
          rcases updateFirst_mem hu hr with hr | ⟨x, hx, hpx, rfl⟩
          · exact ⟨r, hr, hchain⟩
          · exact ⟨x, hx, .head ⟨a, hsub List.mem_cons_self, hpx, rfl⟩ hchain⟩

theorem sweepRows_mem {now : Timestamp} : ∀ {budget : Nat} {rows : List OutboxRecord}
    {y : OutboxRecord}, y ∈ (sweepRows now budget rows).1 →
    y ∈ rows ∨ ∃ r ∈ rows, sweepable now r = true ∧ y = sweepRow now r
  | _, [], _, hy => .inl hy
  | 0, _ :: _, _, hy => .inl hy
  | budget + 1, r :: rs, y, hy => by
      unfold sweepRows at hy
      split at hy
      · rename_i hp
        rcases List.mem_cons.mp hy with rfl | hy
        · exact .inr ⟨r, List.mem_cons_self, hp, rfl⟩
        · rcases sweepRows_mem hy with hy | ⟨x, hx, hpx, rfl⟩
          · exact .inl (List.mem_cons_of_mem _ hy)
          · exact .inr ⟨x, List.mem_cons_of_mem _ hx, hpx, rfl⟩
      · rcases List.mem_cons.mp hy with rfl | hy
        · exact .inl List.mem_cons_self
        · rcases sweepRows_mem hy with hy | ⟨x, hx, hpx, rfl⟩
          · exact .inl (List.mem_cons_of_mem _ hy)
          · exact .inr ⟨x, List.mem_cons_of_mem _ hx, hpx, rfl⟩

/-- A method behind an injected failure. -/
theorem guarded_rows {α : Type} {body : Inner → α × Inner} {s : Inner} {P : OutboxRecord → Prop}
    (hold : ∀ y ∈ s.rows, P y) (hbody : ∀ y ∈ (body s).2.rows, P y) :
    ∀ y ∈ (guarded body s).2.rows, P y := by
  unfold guarded takeInjectedFailure
  split_ifs
  · exact hold
  · exact hold
  · exact hbody

/-- Every row after a call comes from one before it. -/
theorem run_rows (op : Op) {s : Inner} (hok : s.Ok) :
    ∀ y ∈ (op.run s).2.rows, ∃ r ∈ s.rows, Changes s.now op r y := by
  have hsame : ∀ y ∈ s.rows, ∃ r ∈ s.rows, Changes s.now op r y := fun y hy => ⟨y, hy, .refl⟩
  -- a loop whose steps are changes of this call
  have hloop : ∀ {α : Type} {p : α → OutboxRecord → Bool} {f : α → OutboxRecord → OutboxRecord}
      {items : List α}, (∀ a ∈ items, ∀ r, p a r = true → Change s.now r op (f a r)) →
      ∀ y ∈ (updateEach p f items s.rows).1, ∃ r ∈ s.rows, Changes s.now op r y := by
    intro α p f items hchange y hy
    obtain ⟨r, hr, hchain⟩ := updateEach_mem hy
    refine ⟨r, hr, ReflTransGen.mono ?_ r y hchain⟩
    rintro x x' ⟨a, ha, hpa, rfl⟩
    exact hchange a ha x hpa
  cases op with
  | acquire request =>
      show ∀ y ∈ (tryAcquire request s).2.rows, _
      refine guarded_rows hsame ?_
      intro y hy
      obtain ⟨r, hr, rfl⟩ := List.mem_map.mp hy
      unfold lockAmong
      split
      · rename_i hq
        obtain ⟨c, hc, hseq⟩ := List.mem_map.mp hq
        obtain ⟨hcrows, hclaim⟩ := mem_chosen hc
        have hsame : c = r := List.inj_on_of_nodup_map hok.nodup hcrows hr hseq
        subst hsame
        exact ⟨c, hr, .single (.lock hclaim)⟩
      · exact ⟨r, hr, .refl⟩
  | complete worker items =>
      show ∀ y ∈ (tryComplete worker items s).2.rows, _
      unfold tryComplete
      simp only
      split_ifs
      · exact hsame
      · exact guarded_rows hsame (hloop fun a ha r hp => .complete ha hp)
  | fail worker items =>
      exact guarded_rows hsame (hloop fun a ha r hp => .fail ha hp)
  | release worker items =>
      exact guarded_rows hsame (hloop fun a ha r hp => .release ha hp)
  | extendLease worker items lease =>
      exact guarded_rows hsame (hloop fun a ha r hp => .extend ha hp)
  | purge request =>
      refine guarded_rows hsame ?_
      intro y hy
      have hswept := (dropOld_sublist ..).subset ((dropOld_sublist ..).subset hy)
      rcases sweepRows_mem hswept with hy | ⟨r, hr, hp, rfl⟩
      · exact hsame y hy
      · exact ⟨r, hr, .single (.sweep hp)⟩
  | stats => exact guarded_rows hsame hsame
  | retryDead refs =>
      refine hloop fun a ha r hp => ?_
      rw [Bool.and_eq_true] at hp
      exact .retry ha hp.1 hp.2
  | purgeDead refs => exact fun y hy => hsame y (List.mem_filter.mp hy).1

/-! ## The state of a row -/

/-- What holds of every row. -/
structure RecordOk (r : OutboxRecord) : Prop where
  lease : r.lockedBy.isSome = r.lockedUntil.isSome
  terminal : r.publishedAt = none ∨ r.deadAt = none
  reason : r.deadAt.isSome = r.deadReason.isSome
  /-- A leased row is neither published nor dead. -/
  idle : r.lockedBy ≠ none → r.publishedAt = none ∧ r.deadAt = none
  error : ∀ text, r.lastError = some text → text.utf8ByteSize ≤ MAX_ERROR_LEN

theorem owns_locked {worker : WorkerId} {message : MessageRef} {r : OutboxRecord}
    (h : owns worker message r = true) : r.lockedBy = some worker := by
  simp only [owns, Bool.and_eq_true, decide_eq_true_eq] at h
  exact h.2

theorem Change.ok {now : Timestamp} {op : Op} {r r' : OutboxRecord} (h : Change now r op r')
    (hr : RecordOk r) : RecordOk r' := by
  have hidle : ∀ {worker : WorkerId} {message : MessageRef}, owns worker message r = true →
      r.publishedAt = none ∧ r.deadAt = none := by
    intro worker message howns
    refine hr.idle ?_
    rw [owns_locked howns]
    exact Option.some_ne_none worker
  cases h with
  | lock hc =>
      simp only [isClaimable, Bool.and_eq_true, Option.isNone_iff_eq_none] at hc
      exact ⟨rfl, hr.terminal, hr.reason, fun _ => ⟨hc.1.1.1.1, hc.1.1.1.2⟩, hr.error⟩
  | complete _ howns =>
      obtain ⟨-, hdead⟩ := hidle howns
      exact ⟨rfl, .inr hdead, hr.reason, fun h => absurd rfl h, hr.error⟩
  | @fail _ _ item _ howns =>
      obtain ⟨hpub, -⟩ := hidle howns
      have herror : ∀ text, some (truncateError item.error) = some text →
          text.utf8ByteSize ≤ MAX_ERROR_LEN := by
        rintro _ ⟨⟩
        exact truncateError_size item.error
      unfold failRow
      cases item.outcome with
      | retry delay => exact ⟨rfl, .inl hpub, hr.reason, fun h => absurd rfl h, herror⟩
      | dead reason => exact ⟨rfl, .inl hpub, rfl, fun h => absurd rfl h, herror⟩
  | release _ _ => exact ⟨rfl, hr.terminal, hr.reason, fun h => absurd rfl h, hr.error⟩
  | extend _ howns =>
      refine ⟨?_, hr.terminal, hr.reason, hr.idle, hr.error⟩
      simp only [extendRow, owns_locked howns, Option.isSome_some]
  | sweep hs =>
      simp only [sweepable, Bool.and_eq_true, Option.isNone_iff_eq_none] at hs
      refine ⟨rfl, .inl hs.1.1.1, rfl, fun h => absurd rfl h, ?_⟩
      rintro _ ⟨⟩
      decide
  | retry _ _ hdead =>
      refine ⟨hr.lease, .inr rfl, rfl, fun hl => ?_, hr.error⟩
      rw [(hr.idle hl).2] at hdead
      cases hdead

theorem RecordOk.inserted (envelope : SerializedEnvelope) (sequence : Int) (createdAt : Timestamp)
    (orderingKey : Option String) (availableAt : Timestamp) :
    RecordOk { OutboxRecord.build envelope sequence createdAt with
      orderingKey := orderingKey, availableAt := availableAt } :=
  ⟨rfl, .inl rfl, rfl, fun h => absurd rfl h, fun _ h => by cases h⟩

theorem Changes.ok {now : Timestamp} {op : Op} {r r' : OutboxRecord} (h : Changes now op r r')
    (hr : RecordOk r) : RecordOk r' := by
  induction h with
  | refl => exact hr
  | tail _ hchange ih => exact hchange.ok ih

theorem Step.records {st st' : InMemoryOutboxStore} {e : Event} (h : Step st e st')
    (hok : st.inner.Ok) (hrows : ∀ r ∈ st.inner.rows, RecordOk r) : ∀ r ∈ st'.inner.rows, RecordOk r := by
  cases h with
  | @run op _ _ =>
      intro y hy
      obtain ⟨r, hr, hchain⟩ := run_rows op hok y hy
      exact hchain.ok (hrows r hr)
  | insert hsame =>
      intro y hy
      simp only [insertRow, hsame] at hy
      rcases List.mem_append.mp hy with hy | hy
      · exact hrows y hy
      · rw [List.mem_singleton.mp hy]
        exact .inserted ..
  | rest hsame =>
      intro y hy
      rw [hsame] at hy
      exact hrows y hy

theorem Run.records {es : List Event} {st : InMemoryOutboxStore} (h : Run es st) :
    ∀ r ∈ st.inner.rows, RecordOk r := by
  have hboth : st.inner.Ok ∧ ∀ r ∈ st.inner.rows, RecordOk r := by
    refine h.inv (P := fun st => st.inner.Ok ∧ ∀ r ∈ st.inner.rows, RecordOk r) ?_ ?_
    · intro st e st' hst hnext
      exact ⟨(step_of_next hnext).ok hst.1, (step_of_next hnext).records hst.1 hst.2⟩
    · exact ⟨⟨List.nodup_nil, fun _ hq => absurd hq List.not_mem_nil⟩,
        fun _ hr => absurd hr List.not_mem_nil⟩
  exact hboth.2

end Reliar.Store.Memory
