/-
# `Reliar.Store.MemoryLease` — lease exclusivity of the in-memory store, and of both stores

A method *keeps apart* from row `q` if it answers, and changes the other rows,
exactly as if the row were not there, and leaves the row as it is (`Apart`).
That is stronger than not touching the row: the row is not counted, not
returned, and takes no place in a batch.

While worker `w` holds a row, every method but `w`'s own complete, fail and
release on it keeps apart (`apart_of_held`), or renews the lease.
-/
import Reliar.Store.Lease
import Reliar.Store.Memory

namespace Reliar.Store.Memory

open Reliar.Core Reliar.Outbox

/-! ## Rows apart from one -/

def others (q : Int) (rows : List OutboxRecord) : List OutboxRecord :=
  rows.filter fun r => r.sequence ≠ q

def only (q : Int) (rows : List OutboxRecord) : List OutboxRecord :=
  rows.filter fun r => r.sequence = q

def Inner.without (s : Inner) (q : Int) : Inner := { s with rows := others q s.rows }

@[simp] theorem without_rows (s : Inner) (q : Int) : (s.without q).rows = others q s.rows := rfl
@[simp] theorem without_now (s : Inner) (q : Int) : (s.without q).now = s.now := rfl

theorem mem_only {q : Int} {rows : List OutboxRecord} {x : OutboxRecord} :
    x ∈ only q rows ↔ x ∈ rows ∧ x.sequence = q := by
  simp [only]

section
variable {q : Int} {r : OutboxRecord} {rs : List OutboxRecord}

theorem others_cons_eq (h : r.sequence = q) : others q (r :: rs) = others q rs := by
  simp [others, h]

theorem others_cons_ne (h : r.sequence ≠ q) : others q (r :: rs) = r :: others q rs := by
  simp [others, h]

theorem only_cons_eq (h : r.sequence = q) : only q (r :: rs) = r :: only q rs := by
  simp [only, h]

theorem only_cons_ne (h : r.sequence ≠ q) : only q (r :: rs) = only q rs := by
  simp [only, h]

/-- What holds of the rows `q` of a list holds of those of its tail. -/
theorem forall_only_tail {p : OutboxRecord → Bool} (h : ∀ x ∈ only q (r :: rs), p x = false) :
    ∀ x ∈ only q rs, p x = false := by
  intro x hx
  rw [mem_only] at hx
  exact h x (mem_only.mpr ⟨List.mem_cons_of_mem _ hx.1, hx.2⟩)

theorem find?_others {p : OutboxRecord → Bool} :
    ∀ {rs : List OutboxRecord}, (∀ x ∈ only q rs, p x = false) →
      (others q rs).find? p = rs.find? p
  | [], _ => rfl
  | r :: rs, hp => by
      have ih := find?_others (forall_only_tail hp)
      by_cases hq : r.sequence = q
      · have hpr : p r = false := hp r (mem_only.mpr ⟨List.mem_cons_self, hq⟩)
        rw [others_cons_eq hq, ih, List.find?_cons_of_neg (by simp [hpr])]
      · rw [others_cons_ne hq, List.find?_cons, List.find?_cons, ih]

/-- Rows keep their places under an update that keeps their numbers. -/
theorem others_map {g : OutboxRecord → OutboxRecord} (hg : ∀ x, (g x).sequence = x.sequence) :
    others q (rs.map g) = (others q rs).map g := by
  simp only [others, List.filter_map]
  congr 1
  exact List.filter_congr fun x _ => by simp [hg]

theorem only_map {g : OutboxRecord → OutboxRecord} (hg : ∀ x, (g x).sequence = x.sequence)
    (hq : ∀ x, x.sequence = q → g x = x) : only q (rs.map g) = only q rs := by
  simp only [only, List.filter_map]
  have hfilter : rs.filter ((fun r => decide (r.sequence = q)) ∘ g) =
      rs.filter fun r => decide (r.sequence = q) :=
    List.filter_congr fun x _ => by simp [hg]
  rw [hfilter]
  refine (List.map_congr_left fun x hx => ?_).trans (List.map_id _)
  exact hq x (by simpa using (List.mem_filter.mp hx).2)

end

/-- `body` neither sees nor changes row `q` of `s`. -/
structure Apart {α : Type} (q : Int) (body : Inner → α × Inner) (s : Inner) : Prop where
  rest : body (s.without q) = ((body s).1, (body s).2.without q)
  row : only q (body s).2.rows = only q s.rows

section
variable {q : Int} {p : OutboxRecord → Bool} {f : OutboxRecord → OutboxRecord}

theorem updateFirst_others (hf : ∀ r, (f r).sequence = r.sequence) :
    ∀ (rows : List OutboxRecord), (∀ x ∈ only q rows, p x = false) →
      updateFirst p f (others q rows) = (updateFirst p f rows).map (others q)
  | [], _ => rfl
  | r :: rs, hp => by
      have ih := updateFirst_others hf rs (forall_only_tail hp)
      by_cases hq : r.sequence = q
      · have hpr : p r = false := hp r (mem_only.mpr ⟨List.mem_cons_self, hq⟩)
        simp [others_cons_eq hq, updateFirst, hpr, ih, Function.comp_def]
      · by_cases hpr : p r = true
        · simp [others_cons_ne hq, updateFirst, hpr, others_cons_ne (hf r ▸ hq)]
        · simp [others_cons_ne hq, updateFirst, hpr, ih, Function.comp_def]

theorem updateFirst_only (hf : ∀ r, (f r).sequence = r.sequence) :
    ∀ (rows : List OutboxRecord) {rows' : List OutboxRecord}, (∀ x ∈ only q rows, p x = false) →
      updateFirst p f rows = some rows' → only q rows' = only q rows
  | [], _, _, h => by cases h
  | r :: rs, rows', hp, h => by
      by_cases hpr : p r = true
      · have hq : r.sequence ≠ q := by
          intro hq
          rw [hp r (mem_only.mpr ⟨List.mem_cons_self, hq⟩)] at hpr
          cases hpr
        simp only [updateFirst, hpr, if_true, Option.some.injEq] at h
        rw [← h, only_cons_ne (hf r ▸ hq), only_cons_ne hq]
      · simp only [updateFirst, hpr, Bool.false_eq_true, if_false, Option.map_eq_some_iff] at h
        obtain ⟨rs', hrs', rfl⟩ := h
        have ih := updateFirst_only hf rs (forall_only_tail hp) hrs'
        by_cases hq : r.sequence = q
        · rw [only_cons_eq hq, only_cons_eq hq, ih]
        · rw [only_cons_ne hq, only_cons_ne hq, ih]

end

/-- The loop over `items` keeps apart from a row no item matches. -/
theorem foldl_updateOne_apart {α : Type} {q : Int} {p : α → OutboxRecord → Bool}
    {f : α → OutboxRecord → OutboxRecord} (hf : ∀ a r, (f a r).sequence = r.sequence) :
    ∀ (items : List α) (acc : List OutboxRecord × Nat),
      (∀ item ∈ items, ∀ x ∈ only q acc.1, p item x = false) →
        items.foldl (updateOne p f) (others q acc.1, acc.2) =
            (others q (items.foldl (updateOne p f) acc).1, (items.foldl (updateOne p f) acc).2) ∧
          only q (items.foldl (updateOne p f) acc).1 = only q acc.1
  | [], _, _ => ⟨rfl, rfl⟩
  | item :: items, acc, hp => by
      have hone := updateFirst_others (q := q) (hf item) acc.1 (hp item List.mem_cons_self)
      simp only [List.foldl_cons]
      cases hu : updateFirst (p item) (f item) acc.1 with
      | none =>
        rw [hu] at hone
        simp only [updateOne, hone, hu, Option.map_none]
        exact foldl_updateOne_apart hf items acc fun i hi => hp i (List.mem_cons_of_mem _ hi)
      | some rows =>
        have honly := updateFirst_only (q := q) (hf item) acc.1 (hp item List.mem_cons_self) hu
        rw [hu] at hone
        simp only [updateOne, hone, hu, Option.map_some]
        have ih := foldl_updateOne_apart (q := q) hf items (rows, acc.2 + 1)
          fun i hi x hx => hp i (List.mem_cons_of_mem _ hi) x (honly ▸ hx)
        exact ⟨ih.1, ih.2.trans honly⟩

theorem updateEach_apart {α : Type} {q : Int} {p : α → OutboxRecord → Bool}
    {f : α → OutboxRecord → OutboxRecord} (items : List α) {rows : List OutboxRecord}
    (hf : ∀ a r, (f a r).sequence = r.sequence)
    (hp : ∀ item ∈ items, ∀ x ∈ only q rows, p item x = false) :
    updateEach p f items (others q rows) =
        (others q (updateEach p f items rows).1, (updateEach p f items rows).2) ∧
      only q (updateEach p f items rows).1 = only q rows :=
  foldl_updateOne_apart hf items (rows, 0) hp

theorem dropRows_apart {q : Int} {p : OutboxRecord → Bool} :
    ∀ (budget : Nat) (rows : List OutboxRecord), (∀ x ∈ only q rows, p x = false) →
      dropRows p budget (others q rows) =
          (others q (dropRows p budget rows).1, (dropRows p budget rows).2) ∧
        only q (dropRows p budget rows).1 = only q rows
  | _, [], _ => ⟨rfl, rfl⟩
  | 0, r :: rs, _ => by
      simp only [dropRows, and_true]
      cases others q (r :: rs) <;> rfl
  | budget + 1, r :: rs, hp => by
      have ih := dropRows_apart budget rs (forall_only_tail hp)
      have ih' := dropRows_apart (budget + 1) rs (forall_only_tail hp)
      by_cases hq : r.sequence = q
      · have hpr : p r = false := hp r (mem_only.mpr ⟨List.mem_cons_self, hq⟩)
        simp [dropRows, hpr, others_cons_eq hq, only_cons_eq hq, ih']
      · by_cases hpr : p r = true
        · simp [dropRows, hpr, others_cons_ne hq, only_cons_ne hq, ih]
        · simp [dropRows, hpr, others_cons_ne hq, only_cons_ne hq, ih']

theorem sweepRows_apart {q : Int} (now : Timestamp) :
    ∀ (budget : Nat) (rows : List OutboxRecord), (∀ x ∈ only q rows, sweepable now x = false) →
      sweepRows now budget (others q rows) =
          (others q (sweepRows now budget rows).1, (sweepRows now budget rows).2) ∧
        only q (sweepRows now budget rows).1 = only q rows
  | _, [], _ => ⟨rfl, rfl⟩
  | 0, r :: rs, _ => by
      simp only [sweepRows, and_true]
      cases others q (r :: rs) <;> rfl
  | budget + 1, r :: rs, hp => by
      have ih := sweepRows_apart now budget rs (forall_only_tail hp)
      have ih' := sweepRows_apart now (budget + 1) rs (forall_only_tail hp)
      by_cases hq : r.sequence = q
      · have hpr : sweepable now r = false := hp r (mem_only.mpr ⟨List.mem_cons_self, hq⟩)
        simp [sweepRows, hpr, others_cons_eq hq, only_cons_eq hq, ih']
      · have hq' : (sweepRow now r).sequence ≠ q := hq
        by_cases hpr : sweepable now r = true
        · simp [sweepRows, hpr, others_cons_ne hq, only_cons_ne hq, others_cons_ne hq',
            only_cons_ne hq', ih]
        · simp [sweepRows, hpr, others_cons_ne hq, only_cons_ne hq, ih']

/-! ## Methods apart from a row -/

section
variable {α β : Type} {q : Int} {body : Inner → α × Inner} {s : Inner}

theorem Apart.map (h : Apart q body s) (g : α → β) : Apart q (fun s => (body s).map g id) s where
  rest := by simp [h.rest]
  row := h.row

theorem guarded_apart
    (h : ∀ s' : Inner, s'.rows = s.rows → s'.now = s.now → Apart q body s') :
    Apart q (guarded body) s := by
  have hs := h s rfl rfl
  by_cases h₁ : 0 < s.failNextPermanent
  · exact ⟨by simp [guarded, takeInjectedFailure, Inner.without, h₁],
      by simp [guarded, takeInjectedFailure, h₁]⟩
  · by_cases h₂ : 0 < s.failNext
    · exact ⟨by simp [guarded, takeInjectedFailure, Inner.without, h₁, h₂],
        by simp [guarded, takeInjectedFailure, h₁, h₂]⟩
    · have hrest := hs.rest
      simp only [Inner.without] at hrest
      exact ⟨by simp [guarded, takeInjectedFailure, Inner.without, h₁, h₂, hrest],
        by simp [guarded, takeInjectedFailure, h₁, h₂, hs.row]⟩

/-- A method that is one loop over its items. -/
theorem update_apart {p : α → OutboxRecord → Bool}
    {f : Timestamp → α → OutboxRecord → OutboxRecord} {items : List α}
    (hf : ∀ now a r, (f now a r).sequence = r.sequence)
    (hp : ∀ item ∈ items, ∀ x ∈ only q s.rows, p item x = false) :
    Apart q (fun s => ((updateEach p (f s.now) items s.rows).2,
      { s with rows := (updateEach p (f s.now) items s.rows).1 })) s where
  rest := by simp [Inner.without, (updateEach_apart items (hf s.now) hp).1]
  row := (updateEach_apart items (hf s.now) hp).2

end

/-- Row `q` is leased beyond `now`, and not settled. -/
structure Leased (q : Int) (w : WorkerId) (m : MessageRef) (now : Timestamp)
    (rows : List OutboxRecord) : Prop where
  locked : ∀ x ∈ only q rows, x.lockedBy = some w
  lease : ∀ x ∈ only q rows, leaseIsFree x now = false
  live : ∀ x ∈ only q rows, x.publishedAt = none ∧ x.deadAt = none
  ref : ∀ x ∈ only q rows, x.messageRef = m

section
variable {q : Int} {w : WorkerId} {m : MessageRef} {s : Inner}

theorem owns_false {worker : WorkerId} {message : MessageRef} {x : OutboxRecord}
    (hx : x.lockedBy = some w) (hm : x.messageRef = m) (h : worker ≠ w ∨ message ≠ m) :
    owns worker message x = false := by
  by_contra hne
  simp only [owns, refMatches, Bool.not_eq_false, Bool.and_eq_true, decide_eq_true_eq] at hne
  obtain ⟨⟨hid, hat⟩, hlocked⟩ := hne
  rcases h with h | h
  · rw [hx] at hlocked
    exact h (Option.some.inj hlocked).symm
  · refine h ?_
    rw [← hm]
    cases message
    simp_all [OutboxRecord.messageRef]

theorem not_chosen (request : AcquireRequest) (h : Leased q w m s.now s.rows) :
    q ∉ (chosen request s).map (·.sequence) := by
  intro hmem
  obtain ⟨x, hx, hxq⟩ := List.mem_map.mp hmem
  obtain ⟨hrow, hclaim⟩ := mem_chosen hx
  simp [isClaimable, h.lease x (mem_only.mpr ⟨hrow, hxq⟩)] at hclaim

theorem acquire_apart (request : AcquireRequest) (h : Leased q w m s.now s.rows) :
    Apart q (tryAcquire request) s := by
  refine guarded_apart fun s' hrows hnow => ?_
  rw [← hrows, ← hnow] at h
  have hidle : ∀ x ∈ s'.rows, x.sequence = q → isClaimable x s'.now = false := fun x hx hxq => by
    simp [isClaimable, h.lease x (mem_only.mpr ⟨hx, hxq⟩)]
  have hchosen : chosen request (s'.without q) = chosen request s' := by
    simp only [chosen, Inner.without, others, List.filter_filter]
    congr 2
    refine List.filter_congr fun x hx => ?_
    by_cases hxq : x.sequence = q
    · simp [hxq, hidle x hx hxq]
    · simp [hxq]
  have hq := not_chosen request h
  have hseq : ∀ x, (lockAmong request.worker (s'.now + request.lease)
      ((chosen request s').map (·.sequence)) x).sequence = x.sequence := by
    intro x
    unfold lockAmong
    split <;> rfl
  refine ⟨?_, only_map hseq fun x hx => if_neg (hx ▸ hq)⟩
  simp only [hchosen, without_rows, without_now, ← others_map hseq]
  rfl

theorem tryComplete_apart {worker : WorkerId} {items : List CompletedMessage}
    (h : ∀ item ∈ items, ∀ x ∈ only q s.rows, owns worker item.message x = false) :
    Apart q (tryComplete worker items) s := by
  have hguard : Apart q (guarded fun s : Inner =>
      let updated := updateEach (fun item => owns worker item.message) (completeRow s.now) items
        s.rows
      (updated.2, { s with rows := updated.1 })) { s with completeCalls := s.completeCalls + 1 } :=
    guarded_apart fun s' hrows _ =>
      update_apart (f := completeRow) (fun _ _ _ => rfl) (by rwa [hrows])
  by_cases hf : 0 < s.failNextComplete
  · exact ⟨by simp [tryComplete, Inner.without, hf], by simp [tryComplete, hf]⟩
  · have hrest := hguard.rest
    simp only [Inner.without] at hrest
    exact ⟨by simp [tryComplete, Inner.without, hf, hrest], by simp [tryComplete, hf, hguard.row]⟩

theorem tryPurge_apart (request : PurgeRequest) (h : Leased q w m s.now s.rows) :
    Apart q (tryPurge request) s := by
  refine guarded_apart fun s' hrows hnow => ?_
  rw [← hrows, ← hnow] at h
  obtain ⟨hsweep, hsweepq⟩ := sweepRows_apart (q := q) s'.now request.batchSize s'.rows
    fun x hx => by simp [sweepable, h.lease x hx]
  -- neither retention reaches a row that is not settled
  have hdrop : ∀ (retention : Option Duration) (at' : OutboxRecord → Option Timestamp)
      (rows : List OutboxRecord), only q rows = only q s'.rows →
      (∀ x ∈ only q s'.rows, at' x = none) →
      dropOld s'.now retention at' request.batchSize (others q rows) =
          (others q (dropOld s'.now retention at' request.batchSize rows).1,
            (dropOld s'.now retention at' request.batchSize rows).2) ∧
        only q (dropOld s'.now retention at' request.batchSize rows).1 = only q s'.rows := by
    intro retention at' rows hq hat
    cases retention with
    | none => exact ⟨rfl, hq⟩
    | some d =>
      obtain ⟨h₁, h₂⟩ := dropRows_apart request.batchSize rows
        (p := fun row => isBefore (s'.now - d) (at' row))
        fun x hx => by simp [isBefore, hat x (hq ▸ hx)]
      exact ⟨h₁, h₂.trans hq⟩
  obtain ⟨hpub, hpubq⟩ := hdrop request.publishedRetention (·.publishedAt) _ hsweepq
    fun x hx => (h.live x hx).1
  obtain ⟨hdead, hdeadq⟩ := hdrop request.deadRetention (·.deadAt) _ hpubq
    fun x hx => (h.live x hx).2
  refine ⟨?_, hdeadq⟩
  simp only [without_rows, without_now, hsweep, hpub, hdead]
  rfl

theorem retryDead_apart (refs : List MessageRef) (h : Leased q w m s.now s.rows) :
    Apart q (retryDead refs) s :=
  update_apart (f := retryRow) (fun _ _ _ => rfl) fun _ _ x hx => by
    rw [(h.live x hx).2, Option.isSome_none, Bool.and_false]

theorem purgeDead_apart (refs : List MessageRef) (h : Leased q w m s.now s.rows) :
    Apart q (purgeDead refs) s := by
  have hdead : ∀ x ∈ s.rows, x.sequence = q → isDeadAmong refs x = false := fun x hx hxq => by
    simp [isDeadAmong, (h.live x (mem_only.mpr ⟨hx, hxq⟩)).2]
  have hcount : (others q s.rows).filter (isDeadAmong refs) = s.rows.filter (isDeadAmong refs) := by
    rw [others, List.filter_filter]
    refine List.filter_congr fun x hx => ?_
    by_cases hxq : x.sequence = q
    · simp [hxq, hdead x hx hxq]
    · simp [hxq]
  constructor
  · simp only [purgeDead, without_rows, hcount]
    simp only [Inner.without, others, List.filter_filter, Bool.and_comm]
  · simp only [purgeDead, only, List.filter_filter]
    refine List.filter_congr fun x hx => ?_
    by_cases hxq : x.sequence = q
    · simp [hxq, hdead x hx hxq]
    · simp [hxq]

end

/-! ## The window -/

/-- `w`'s own complete, fail or release on the row. -/
def Op.closes (w : WorkerId) (m : MessageRef) : Op → Bool
  | .complete worker items => decide (worker = w) && items.any fun item => item.message = m
  | .fail worker items => decide (worker = w) && items.any fun item => item.message = m
  | .release worker items => decide (worker = w) && items.any fun item => item = m
  | _ => false

/-- Neither disturbing nor reading the row: all calls but `w`'s renewals, and `stats`. -/
theorem apart_of_leased {q : Int} {w : WorkerId} {m : MessageRef} {s : Inner} {op : Op}
    (h : Leased q w m s.now s.rows) (hcloses : op.closes w m = false)
    (hextend : ∀ items lease, op ≠ .extendLease w items lease) (hstats : op ≠ .stats) :
    Apart q op.run s := by
  have howns : ∀ (worker : WorkerId) (message : MessageRef), worker ≠ w ∨ message ≠ m →
      ∀ x ∈ only q s.rows, owns worker message x = false :=
    fun _ _ hne x hx => owns_false (h.locked x hx) (h.ref x hx) hne
  cases op with
  | acquire request => exact (acquire_apart request h).map _
  | complete worker items =>
    refine (tryComplete_apart fun item hitem => howns _ _ ?_).map _
    by_contra hne
    push Not at hne
    simp [Op.closes, hne.1] at hcloses
    exact hcloses item hitem hne.2
  | fail worker items =>
    refine (guarded_apart fun s' hrows _ => ?_).map _
    refine update_apart (f := failRow) (fun now item r => ?_) fun item hitem x hx => ?_
    · unfold failRow
      cases item.outcome <;> rfl
    · rw [hrows] at hx
      refine howns _ _ ?_ x hx
      by_contra hne
      push Not at hne
      simp [Op.closes, hne.1] at hcloses
      exact hcloses item hitem hne.2
  | release worker items =>
    refine (guarded_apart fun s' hrows _ => ?_).map _
    refine update_apart (f := fun _ _ => unlock) (fun _ _ _ => rfl) fun item hitem x hx => ?_
    rw [hrows] at hx
    refine howns _ _ ?_ x hx
    by_contra hne
    push Not at hne
    simp [Op.closes, hne.1] at hcloses
    exact hcloses item hitem hne.2
  | extendLease worker items lease =>
    have hne : worker ≠ w := by
      rintro rfl
      exact hextend items lease rfl
    refine (guarded_apart fun s' hrows _ => ?_).map _
    rw [← hrows] at howns
    obtain ⟨hupdate, hupdateq⟩ := updateEach_apart items (f := extendRow (s'.now + lease))
      (fun _ _ => rfl) fun item _ => howns worker item (.inl hne)
    have htouched : touched worker items (others q s'.rows) = touched worker items s'.rows := by
      refine List.filterMap_congr fun item _ => ?_
      rw [find?_others (howns worker item (.inl hne))]
    refine ⟨?_, hupdateq⟩
    simp only [without_rows, without_now, hupdate, htouched]
    rfl
  | purge request => exact (tryPurge_apart request h).map _
  | stats => exact absurd rfl hstats
  | retryDead refs => exact (retryDead_apart refs h).map fun n => Except.ok (Reply.affected n)
  | purgeDead refs => exact (purgeDead_apart refs h).map fun n => Except.ok (Reply.affected n)

/-- The last `locked_until` that `w`'s claims and renewals wrote to row `q`. -/
def lastLease (s : Inner) (q : Int) (w : WorkerId) : Option Timestamp :=
  (s.leases.find? fun l => l.sequence = q ∧ l.worker = w).map LeaseWrite.lockedUntil

/-- The lease runs: the clock has not strictly passed it. -/
def LeaseRuns (s : Inner) (q : Int) (w : WorkerId) : Prop :=
  ∃ t, lastLease s q w = some t ∧ s.now ≤ t

/-- One step while `w` holds row `q`, whose reference is `m`. -/
structure Window (q : Int) (w : WorkerId) (m : MessageRef) (st : InMemoryOutboxStore) (e : Event)
    (st' : InMemoryOutboxStore) : Prop where
  next : next st e = some st'
  kept : ∀ op, st.executes e = some op → op.closes w m = false
  runs : LeaseRuns st'.inner q w

/-- The row is leased by `w` until the last instant `w` wrote. -/
structure Held (s : Inner) (q : Int) (w : WorkerId) (m : MessageRef) : Prop where
  row : q ∈ sequences s.rows
  locked : ∀ x ∈ only q s.rows, x.lockedBy = some w
  until' : ∀ x ∈ only q s.rows, x.lockedUntil = lastLease s q w
  live : ∀ x ∈ only q s.rows, x.publishedAt = none ∧ x.deadAt = none
  ref : ∀ x ∈ only q s.rows, x.messageRef = m

section
variable {q : Int} {w : WorkerId} {m : MessageRef} {s s' : Inner}

theorem Held.leased (h : Held s q w m) (hruns : LeaseRuns s q w) : Leased q w m s.now s.rows := by
  obtain ⟨t, ht, hnow⟩ := hruns
  refine ⟨h.locked, fun x hx => ?_, h.live, h.ref⟩
  simp only [leaseIsFree, h.until' x hx, ht, decide_eq_false_iff_not]
  lia

theorem mem_sequences {rows : List OutboxRecord} : q ∈ sequences rows ↔ only q rows ≠ [] := by
  constructor
  · intro h hnil
    obtain ⟨x, hx, hxq⟩ := List.mem_map.mp h
    have hmem := mem_only.mpr ⟨hx, hxq⟩
    rw [hnil] at hmem
    cases hmem
  · intro h
    obtain ⟨x, hx⟩ := List.exists_mem_of_ne_nil _ h
    obtain ⟨hx, hxq⟩ := mem_only.mp hx
    exact List.mem_map.mpr ⟨x, hx, hxq⟩

theorem Held.same (h : Held s q w m) (honly : only q s'.rows = only q s.rows)
    (hlease : lastLease s' q w = lastLease s q w) : Held s' q w m where
  row := mem_sequences.mpr (honly ▸ mem_sequences.mp h.row)
  locked := honly ▸ h.locked
  until' := by
    rw [honly, hlease]
    exact h.until'
  live := honly ▸ h.live
  ref := honly ▸ h.ref

/-- The lease log of a method behind an injected failure. -/
theorem guarded_cases {α : Type} (body : Inner → α × Inner) (s : Inner) :
    (guarded body s).2.rows = s.rows ∧ (guarded body s).2.leases = s.leases ∨
      guarded body s = (.ok (body s).1, (body s).2) := by
  unfold guarded takeInjectedFailure
  split_ifs
  · exact .inl ⟨rfl, rfl⟩
  · exact .inl ⟨rfl, rfl⟩
  · exact .inr rfl

theorem lastLease_congr (h : s'.leases = s.leases) : lastLease s' q w = lastLease s q w := by
  rw [lastLease, h, lastLease]

theorem lastLease_append {ls : List LeaseWrite} {s s' : Inner} (hs : s'.leases = ls ++ s.leases)
    (h : ∀ l ∈ ls, l.sequence ≠ q ∨ l.worker ≠ w) : lastLease s' q w = lastLease s q w := by
  have hnone : ls.find? (fun l => decide (l.sequence = q ∧ l.worker = w)) = none := by
    rw [List.find?_eq_none]
    intro l hl
    rcases h l hl with hne | hne <;> simp [hne]
  rw [lastLease, hs, List.find?_append, hnone, Option.none_or, lastLease]

theorem lastLease_written {qs : List Int} {until' : Timestamp}
    (hs : s'.leases = qs.map (fun q => ⟨q, w, until'⟩) ++ s.leases) (hq : q ∈ qs) :
    lastLease s' q w = some until' := by
  have hsome : ((qs.map fun q => (⟨q, w, until'⟩ : LeaseWrite)).find? fun l =>
      decide (l.sequence = q ∧ l.worker = w)).isSome = true := by
    rw [List.find?_isSome]
    exact ⟨⟨q, w, until'⟩, List.mem_map.mpr ⟨q, hq, rfl⟩, by simp⟩
  obtain ⟨l, hl⟩ := Option.isSome_iff_exists.mp hsome
  obtain ⟨q', -, rfl⟩ := List.mem_map.mp (List.mem_of_find?_eq_some hl)
  rw [lastLease, hs, List.find?_append, hl]
  rfl

theorem guarded_lastLease {α : Type} {body : Inner → α × Inner}
    (h : lastLease (body s).2 q w = lastLease s q w) :
    lastLease (guarded body s).2 q w = lastLease s q w := by
  rcases guarded_cases body s with ⟨-, hl⟩ | heq
  · exact lastLease_congr hl
  · rw [heq, h]

/-- Only claims and renewals write a lease. -/
theorem run_lastLease {op : Op} (h : Leased q w m s.now s.rows)
    (hextend : ∀ items lease, op ≠ .extendLease w items lease) :
    lastLease (op.run s).2 q w = lastLease s q w := by
  cases op with
  | acquire request =>
    show lastLease (tryAcquire request s).2 q w = _
    refine guarded_lastLease (lastLease_append rfl fun l hl => ?_)
    obtain ⟨q', hq', rfl⟩ := List.mem_map.mp hl
    refine .inl ?_
    rintro rfl
    exact not_chosen request h hq'
  | complete worker items =>
    show lastLease (tryComplete worker items s).2 q w = _
    unfold tryComplete
    simp only
    split_ifs
    · rfl
    · exact guarded_lastLease rfl
  | fail worker items =>
    show lastLease (tryFail worker items s).2 q w = _
    exact guarded_lastLease rfl
  | release worker items =>
    show lastLease (tryRelease worker items s).2 q w = _
    exact guarded_lastLease rfl
  | extendLease worker items lease =>
    show lastLease (tryExtendLease worker items lease s).2 q w = _
    refine guarded_lastLease (lastLease_append rfl fun l hl => ?_)
    obtain ⟨x, -, rfl⟩ := List.mem_map.mp hl
    refine .inr ?_
    rintro rfl
    exact hextend items lease rfl
  | purge request =>
    show lastLease (tryPurge request s).2 q w = _
    exact guarded_lastLease rfl
  | stats =>
    show lastLease (tryStats s).2 q w = _
    exact guarded_lastLease rfl
  | retryDead refs => rfl
  | purgeDead refs => rfl

/-! ### Renewals -/

/-- A renewal reaches, for each item, the row found for it; renewing a row does not change what is
found for the next item. -/
theorem extend_eq_map (until' : Timestamp) (items : List MessageRef) {rows : List OutboxRecord}
    (hnd : (sequences rows).Nodup) :
    (updateEach (owns w) (extendRow until') items rows).1 = rows.map fun x =>
      if x.sequence ∈ touched w items rows then { x with lockedUntil := some until' } else x := by
  suffices h : ∀ (n : Nat), (items.foldl (updateOne (owns w) (extendRow until')) (rows, n)).1 =
      rows.map fun x =>
        if x.sequence ∈ touched w items rows then { x with lockedUntil := some until' } else x
    from h 0
  induction items generalizing rows with
  | nil => intro n; simp [touched]
  | cons item items ih =>
    intro n
    rw [List.foldl_cons, updateOne, updateFirst_eq_map hnd]
    cases hfind : rows.find? (owns w item) with
    | none => simpa [touched, hfind] using ih hnd n
    | some r =>
      let renew : OutboxRecord → OutboxRecord := fun x =>
        if x.sequence = r.sequence then extendRow until' item x else x
      have howns : ∀ i x, owns w i (renew x) = owns w i x := by
        intro i x
        simp only [renew]
        split <;> rfl
      have hseq : ∀ x : OutboxRecord, (renew x).sequence = x.sequence := by
        intro x
        simp only [renew]
        split <;> rfl
      have hnd' : (sequences (rows.map renew)).Nodup := by
        have heq : sequences (rows.map renew) = sequences rows := by
          simp [sequences, Function.comp_def, hseq]
        rwa [heq]
      have hsame : touched w items (rows.map renew) = touched w items rows := by
        refine List.filterMap_congr fun i _ => ?_
        rw [List.find?_map]
        simp only [Function.comp_def, howns, Option.map_map, hseq]
      refine (ih hnd' (n + 1)).trans ?_
      rw [hsame, List.map_map]
      refine List.map_congr_left fun x _ => ?_
      have hcons : touched w (item :: items) rows = r.sequence :: touched w items rows := by
        simp [touched, hfind]
      simp only [Function.comp_apply, hseq, hcons, List.mem_cons]
      by_cases hxr : x.sequence = r.sequence
      · simp [renew, hxr, extendRow]
      · simp [renew, hxr]

theorem Held.extend (h : Held s q w m) (hok : s.Ok) (items : List MessageRef) (lease : Duration) :
    Held ((Op.extendLease w items lease).run s).2 q w m := by
  show Held (tryExtendLease w items lease s).2 q w m
  rcases guarded_cases (fun s : Inner =>
      ((updateEach (owns w) (extendRow (s.now + lease)) items s.rows).2,
        { s with
          rows := (updateEach (owns w) (extendRow (s.now + lease)) items s.rows).1
          leases := (touched w items s.rows).map (fun q => ⟨q, w, s.now + lease⟩) ++ s.leases })) s
    with ⟨hrows, hl⟩ | heq
  · refine h.same ?_ ?_
    · exact congrArg (only q) hrows
    · exact lastLease_congr hl
  · have hmap := extend_eq_map (w := w) (s.now + lease) items hok.nodup
    have hrows : (tryExtendLease w items lease s).2.rows = s.rows.map fun x =>
        if x.sequence ∈ touched w items s.rows then { x with lockedUntil := some (s.now + lease) }
        else x := by
      rw [← hmap]
      exact congrArg (fun r => r.2.rows) heq
    have hleases : (tryExtendLease w items lease s).2.leases =
        (touched w items s.rows).map (fun q => ⟨q, w, s.now + lease⟩) ++ s.leases :=
      congrArg (fun r => r.2.leases) heq
    by_cases hq : q ∈ touched w items s.rows
    · have hlease : lastLease (tryExtendLease w items lease s).2 q w = some (s.now + lease) :=
        lastLease_written hleases hq
      have hback : ∀ y ∈ only q (tryExtendLease w items lease s).2.rows, ∃ x ∈ only q s.rows,
          y = { x with lockedUntil := some (s.now + lease) } := by
        intro y hy
        rw [mem_only, hrows] at hy
        obtain ⟨⟨x, hx, rfl⟩, hyq⟩ := And.imp_left List.mem_map.mp hy
        by_cases hxt : x.sequence ∈ touched w items s.rows
        · simp only [if_pos hxt] at hyq ⊢
          exact ⟨x, mem_only.mpr ⟨hx, hyq⟩, rfl⟩
        · simp only [if_neg hxt] at hyq
          exact absurd (hyq ▸ hq) hxt
      have hrow : q ∈ sequences (tryExtendLease w items lease s).2.rows := by
        obtain ⟨x, hx, hxq⟩ := List.mem_map.mp h.row
        rw [hrows, sequences, List.map_map]
        refine List.mem_map.mpr ⟨x, hx, ?_⟩
        simp only [Function.comp_apply]
        split <;> exact hxq
      refine ⟨hrow, ?_, ?_, ?_, ?_⟩ <;> intro y hy <;> obtain ⟨x, hx, rfl⟩ := hback y hy
      · exact h.locked x hx
      · exact hlease.symm
      · exact h.live x hx
      · exact h.ref x hx
    · refine h.same ?_ (lastLease_append hleases fun l hl => ?_)
      · rw [hrows]
        refine only_map (fun x => ?_) fun x hx => if_neg (hx ▸ hq)
        split <;> rfl
      · obtain ⟨q', hq', rfl⟩ := List.mem_map.mp hl
        exact .inl fun heq' => hq (heq' ▸ hq')

/-! ### From the claim to the end of the window -/

theorem Inner.Ok.unique (h : s.Ok) {x y : OutboxRecord} (hx : x ∈ s.rows) (hy : y ∈ s.rows)
    (heq : x.sequence = y.sequence) : x = y :=
  List.inj_on_of_nodup_map h.nodup hx hy heq

theorem Window.held {st st' : InMemoryOutboxStore} {e : Event} (hok : st.inner.Ok)
    (hheld : Held st.inner q w m) (hruns : LeaseRuns st.inner q w) (hw : Window q w m st e st') :
    Held st'.inner q w m := by
  cases step_of_next hw.next with
  | @run op _ hop =>
    have hleased := hheld.leased hruns
    by_cases hext : ∃ items lease, op = .extendLease w items lease
    · obtain ⟨items, lease, rfl⟩ := hext
      exact hheld.extend hok items lease
    · push Not at hext
      refine hheld.same ?_ (run_lastLease hleased hext)
      by_cases hstats : op = .stats
      · subst hstats
        show only q (tryStats st.inner).2.rows = _
        rcases guarded_cases (fun s : Inner =>
          (s.rows.foldl (countRow s.now) ⟨0, 0, 0, none, s.now⟩, s)) st.inner with ⟨hrows, -⟩ | heq
        · exact congrArg (only q) hrows
        · exact congrArg (fun r => only q r.2.rows) heq
      · exact (apart_of_leased hleased (hw.kept op hop) hext hstats).row
  | insert hrows _ hnext hleases =>
    refine hheld.same ?_ (lastLease_congr hleases)
    -- a new row has a new number
    have hne : st.inner.nextSequence ≠ q := (Int.ne_of_lt (hok.below q hheld.row)).symm
    simp [insertRow, only, hrows, hnext, hne, OutboxRecord.build]
  | rest hrows _ hleases =>
    exact hheld.same (congrArg (only q) hrows)
      (lastLease_congr hleases)

end

end Reliar.Store.Memory

namespace Reliar.Store

open Reliar.Core Reliar.Outbox

def claimer : WorkerId := ⟨"claimer", by decide, by decide⟩

end Reliar.Store
