/-
# `Reliar.Store.ReplayReads` — the calls that return rows, replayed

`acquire`, `stats` and `list_dead` on both stores.  Where an order decides which
rows a call takes, both sort by the same key, and the keys of mirrored rows are
the same multiset (`Same.sorted`).  A mirrored row decodes to its record, so
nothing is poisoned.
-/
import Reliar.Store.ReplayCalls
import Reliar.Store.Backlog

namespace Reliar.Store

open Reliar.Core Reliar.Outbox Postgres

/-! ## Mirrors of lists -/

section
variable {rows : List Row} {records : List OutboxRecord}

/-- The first rows by a key are mirrored one by one. -/
theorem Same.sorted {γ : Type} [LinearOrder γ] (h : Same rows records) {p : Row → Bool}
    {q : OutboxRecord → Bool} {f : Row → γ} {g : OutboxRecord → γ} {r : Row → Row → Prop}
    {s : OutboxRecord → OutboxRecord → Prop} [DecidableRel r] [DecidableRel s]
    (hr : ∀ a b, r a b ↔ f a ≤ f b) (hs : ∀ a b, s a b ↔ g a ≤ g b)
    (hpq : ∀ row ∈ rows, ∀ record ∈ records, Mirrors row record → p row = q record)
    (hfg : ∀ row record, Mirrors row record → f row = g record)
    (hkey : ∀ row record, f row = g record → row.sequence = record.sequence) (n : Nat) :
    List.Forall₂ Mirrors (((rows.filter p).insertionSort r).take n)
      (((records.filter q).insertionSort s).take n) := by
  have hperm := h.perm hpq (fun row _ record _ hm _ => hfg row record hm)
  have hsorted := SortBy.map_eq_of_perm hr hs hperm
  refine List.forall₂_take n (SortBy.forall₂_of_map_eq hsorted ?_)
  intro row hrow record hrecord hfg'
  have hrow' := (List.mem_filter.mp ((List.mem_insertionSort r).mp hrow)).1
  have hrecord' := (List.mem_filter.mp ((List.mem_insertionSort s).mp hrecord)).1
  exact h.mirrors hrow' hrecord' (hkey row record hfg')

theorem sequences_of_mirrors {l : List Row} {l' : List OutboxRecord} (h : List.Forall₂ Mirrors l l') :
    l.map Row.sequence = Memory.sequences l' := by
  induction h with
  | nil => rfl
  | cons hm _ ih => rw [List.map_cons, ih, hm.sequence]; rfl

/-- Mirrored rows decode, in order. -/
theorem decoded_of_mirrors (rendering : Rendering) {l : List Row} {l' : List OutboxRecord}
    (h : List.Forall₂ Mirrors l l')
    (hok : ∀ r ∈ l', Memory.RecordOk r ∧ (r.attempts : Int) ≤ INT_MAX) :
    List.Forall₂ SameRecord (decoded l) l' ∧ poisoned rendering l = [] ∧
      poisonedRows rendering l = [] := by
  induction h with
  | nil => exact ⟨.nil, rfl, rfl⟩
  | @cons row record l l' hm _ ih =>
      obtain ⟨hrecord, hattempts⟩ := hok record List.mem_cons_self
      obtain ⟨ihdecoded, ihpoisoned, ihrows⟩ := ih fun r hr => hok r (List.mem_cons_of_mem _ hr)
      obtain ⟨r, hdecode, hsame⟩ := hm.decodes hrecord hattempts
      refine ⟨?_, ?_, ?_⟩
      · have hcons : decoded (row :: l) = r :: decoded l := by
          simp [decoded, hdecode, Except.toOption]
        rw [hcons]
        exact .cons hsame ihdecoded
      · simpa [poisoned, hdecode] using ihpoisoned
      · simpa [poisonedRows, hdecode] using ihrows

/-- The mirrors of some records, in their order. -/
theorem Same.mirrored (h : Same rows records) {l : List OutboxRecord} (hl : l ⊆ records) :
    ∃ l', List.Forall₂ Mirrors l' l ∧ l' ⊆ rows := by
  induction l with
  | nil => exact ⟨[], .nil, List.nil_subset _⟩
  | cons record l ih =>
      obtain ⟨l', hmirrors, hsub⟩ := ih fun x hx => hl (List.mem_cons_of_mem _ hx)
      obtain ⟨row, hrow, hm⟩ := h.ofRecord record (hl List.mem_cons_self)
      exact ⟨row :: l', .cons hm hmirrors, List.cons_subset.mpr ⟨hrow, hsub⟩⟩

end

/-! ## `acquire` -/

section
variable {rows : List Row} {s : Memory.Inner}

/-- `ORDER BY available_at, sequence`, here. -/
def recordKey (r : OutboxRecord) : Int ×ₗ Int := toLex (r.availableAt, r.sequence)

theorem claimsBefore_iff (r r' : OutboxRecord) :
    Memory.claimsBefore r r' ↔ recordKey r ≤ recordKey r' := by
  rw [recordKey, recordKey, Prod.Lex.toLex_le_toLex]
  rfl

/-- Both take the same rows, in the same order. -/
theorem Start.chosen (h : Start rows s) (request : AcquireRequest) :
    List.Forall₂ Mirrors (claimRows s.now request.batchSize rows) (Memory.chosen request s) := by
  refine h.paired.same.sorted (f := claimKey) (g := recordKey) claimOrder_iff claimsBefore_iff ?_ ?_ ?_
    request.batchSize
  · exact fun row _ record _ hm => hm.claimable
  · intro row record hm
    rw [claimKey, recordKey, hm.availableAt, hm.sequence]
  · exact fun row record hkey => congrArg (fun k => (ofLex k).2) hkey

/-- The rows `InMemoryOutboxStore` leaves after a claim. -/
def locked (request : AcquireRequest) (s : Memory.Inner) : List OutboxRecord :=
  s.rows.map (Memory.lockAmong request.worker (s.now + request.lease)
    ((Memory.chosen request s).map (·.sequence)))

theorem Start.replay_claim (h : Start rows s) {request : AcquireRequest}
    (hlease : Ahead s.now request.lease) (htext : hasNul request.worker.asStr = false) :
    ∃ rows', (claimChoice s.now request.batchSize rows).Full s.now rows (Postgres.acquire request) ∧
      (Postgres.acquire request).exec s.now (claimChoice s.now request.batchSize rows) rows =
        .ok rows' ∧
      (Postgres.acquire request).onRows s.now (claimChoice s.now request.batchSize rows) rows =
        .ok rows' ∧
      Same rows' (locked request s) := by
  have hsame := h.paired.same
  have hnumbers : (claimRows s.now request.batchSize rows).map Row.sequence =
      Memory.sequences (Memory.chosen request s) := sequences_of_mirrors (h.chosen request)
  have hfull := claim_full s.now request.batchSize request.worker.asStr
    (millis request.lease) hsame.rows_nodup
  obtain ⟨rows', hrows, hleft, -⟩ := hsame.update (Postgres.acquire request) s.now
    (claimChoice s.now request.batchSize rows) h.paired.rowOk
    (p := fun r => decide (r.sequence ∈ Memory.sequences (Memory.chosen request s)))
    (f := Memory.lockRow request.worker (s.now + request.lease)) (fun _ => rfl)
    (by
      intro row hrow record hrecord hm
      rw [claimChoice, hm.sequence, hnumbers, decide_eq_true_eq])
    (by
      intro row hrow record hrecord hm hmem
      have htarget : row.sequence ∈ (claimRows s.now request.batchSize rows).map Row.sequence := by
        rw [hnumbers, hm.sequence]
        exact of_decide_eq_true hmem
      refine ⟨inner_of_target hsame.rows_nodup hfull.toValid hrow htarget, ?_⟩
      simp only [Postgres.acquire, Stmt.set, hlease.addMillis, ok_bind]
      exact ⟨_, rfl, { hm with lockedBy := rfl, lockedUntil := rfl }⟩)
  refine ⟨rows', hfull, ?_, hrows, ?_⟩
  · refine (exec_of_texts s.now _ ?_ rfl rows).trans hrows
    intro text hmem
    rw [List.mem_singleton.mp hmem]
    exact htext
  · simp only [decide_eq_true_eq] at hleft
    exact hleft

theorem chosen_locked (request : AcquireRequest) :
    (Memory.chosen request s).map (Memory.lockRow request.worker (s.now + request.lease)) ⊆
      locked request s := by
  intro r hr
  obtain ⟨x, hx, rfl⟩ := List.mem_map.mp hr
  refine List.mem_map.mpr ⟨x, (Memory.mem_chosen hx).1, ?_⟩
  exact if_pos (List.mem_map_of_mem hx)

/-- What the claim returns mirrors what the other store returns. -/
theorem Start.returned (h : Start rows s) {request : AcquireRequest} {rows' : List Row}
    (hleft : Same rows' (locked request s)) :
    ∃ l, (rows'.filter fun r => decide (r.sequence ∈
        (claimRows s.now request.batchSize rows).map Row.sequence)).Perm l ∧
      List.Forall₂ Mirrors l ((Memory.chosen request s).map
        (Memory.lockRow request.worker (s.now + request.lease))) := by
  have hnumbers : (claimRows s.now request.batchSize rows).map Row.sequence =
      Memory.sequences (Memory.chosen request s) := sequences_of_mirrors (h.chosen request)
  obtain ⟨l, hmirrors, hsub⟩ := hleft.mirrored (chosen_locked request)
  have hkept : l.map Row.sequence = Memory.sequences (Memory.chosen request s) := by
    rw [sequences_of_mirrors hmirrors, Memory.sequences, List.map_map]
    rfl
  refine ⟨l, (List.perm_ext_iff_of_nodup ?_ ?_).mpr ?_, hmirrors⟩
  · exact (List.Nodup.of_map _ hleft.rows_nodup).filter _
  · refine List.Nodup.of_map Row.sequence ?_
    rw [hkept, ← hnumbers]
    exact claimRows_nodup h.paired.same.rows_nodup
  · intro r
    rw [List.mem_filter, decide_eq_true_eq, hnumbers, ← hkept]
    constructor
    · rintro ⟨hr, hmem⟩
      obtain ⟨x, hx, hseq⟩ := List.mem_map.mp hmem
      rw [← List.inj_on_of_nodup_map hleft.rows_nodup (hsub hx) hr hseq]
      exact hx
    · exact fun hr => ⟨hsub hr, List.mem_map_of_mem hr⟩

/-- `acquire`, without a failure. -/
theorem Start.replay_acquire (h : Start rows s) (rendering : Rendering) {request : AcquireRequest}
    (hlease : Ahead s.now request.lease) (htext : hasNul request.worker.asStr = false) :
    ∃ choice : Nat → Choice, (playEnv s.now choice).Full 0 [Postgres.acquire request] rows ∧
      ∃ rows' batch records,
        runAcquire rendering request (playEnv s.now choice) rows = (rows', .ok batch) ∧
          batch.records.Perm records ∧
          List.Forall₂ SameRecord records ((Memory.chosen request s).map
            (Memory.lockRow request.worker (s.now + request.lease))) ∧
          batch.poisoned = [] ∧ Same rows' (locked request s) := by
  obtain ⟨rows', hfull, hexec, hrows, hleft⟩ := h.replay_claim hlease htext
  obtain ⟨l, hperm, hmirrors⟩ := h.returned hleft
  have hchosen : ∀ r ∈ (Memory.chosen request s).map
      (Memory.lockRow request.worker (s.now + request.lease)),
      Memory.RecordOk r ∧ (r.attempts : Int) ≤ INT_MAX := by
    intro r hr
    obtain ⟨x, hx, rfl⟩ := List.mem_map.mp hr
    obtain ⟨hrows, hclaim⟩ := Memory.mem_chosen hx
    have hchange : Memory.Change s.now x (.acquire request)
        (Memory.lockRow request.worker (s.now + request.lease) x) := .lock hclaim
    exact ⟨hchange.ok (h.paired.ok x hrows), h.paired.attempts x hrows⟩
  obtain ⟨hdecoded, hpoisoned, hpoisonedRows⟩ := decoded_of_mirrors rendering hmirrors hchosen
  have hreturned : (returnedRows s.now (claimChoice s.now request.batchSize rows)
      (Postgres.acquire request) rows).Perm l := by
    have heq : returnedRows s.now (claimChoice s.now request.batchSize rows)
        (Postgres.acquire request) rows = _ :=
      returnedRows_eq h.paired.same.rows_nodup hfull.toValid hrows
    rw [heq]
    exact hperm
  have hnone : poisoned rendering (returnedRows s.now (claimChoice s.now request.batchSize rows)
      (Postgres.acquire request) rows) = [] := by
    refine List.Perm.eq_nil ?_
    rw [← hpoisoned]
    exact hreturned.filterMap _
  refine ⟨fun _ => claimChoice s.now request.batchSize rows, ⟨hfull, fun _ _ _ => trivial⟩, rows',
    ⟨decoded (returnedRows s.now (claimChoice s.now request.batchSize rows)
      (Postgres.acquire request) rows), []⟩, decoded l, ?_, hreturned.filterMap _, hdecoded, rfl,
    hleft⟩
  have hnoneRows : poisonedRows rendering (returnedRows s.now
      (claimChoice s.now request.batchSize rows) (Postgres.acquire request) rows) = [] := by
    refine List.Perm.eq_nil ?_
    rw [← hpoisonedRows]
    exact hreturned.filterMap _
  have hstep : (playEnv s.now fun _ => claimChoice s.now request.batchSize rows).exec 0
      (Postgres.acquire request) rows = .ok (rows', (Postgres.acquire request).affected s.now
        (claimChoice s.now request.batchSize rows) rows) := by
    simp only [Env.exec, playEnv, hexec, Bool.false_eq_true, if_false]
  unfold runAcquire
  rw [hstep]
  simp only [playEnv, hnone, hnoneRows, List.isEmpty_nil, if_true]

end

/-! ## `stats` -/

section
variable {rows : List Row} {s : Memory.Inner}

/-- Neither published nor dead, and past `expires_at`. -/
def expiredPending (now : Timestamp) (r : OutboxRecord) : Bool :=
  r.publishedAt.isNone && r.deadAt.isNone && Memory.isExpired r now

/-- The smaller of the two, if there are two. -/
def oldest (o : Option Timestamp) (r : OutboxRecord) : Option Timestamp :=
  some (o.elim r.availableAt fun t => min t r.availableAt)

/-- The counting loop counts each kind of row for itself. -/
theorem foldl_countRow (now : Timestamp) (records : List OutboxRecord) (stats : OutboxStats) :
    records.foldl (Memory.countRow now) stats =
      { pending := stats.pending + (records.filter fun r => Memory.isClaimable r now).length
        dead := stats.dead + (records.filter fun r => r.deadAt.isSome).length
        expiredPending := stats.expiredPending + (records.filter (expiredPending now)).length
        oldestPendingAvailableAt :=
          (records.filter fun r => Memory.isClaimable r now).foldl oldest
            stats.oldestPendingAvailableAt
        asOf := stats.asOf } := by
  induction records generalizing stats with
  | nil => rfl
  | cons r records ih =>
      rw [List.foldl_cons, ih]
      have hclaimable : Memory.isClaimable r now = true →
          r.publishedAt = none ∧ r.deadAt = none ∧ Memory.isExpired r now = false := by
        intro h
        simp only [Memory.isClaimable, Bool.and_eq_true, Option.isNone_iff_eq_none] at h
        refine ⟨h.1.1.1.1, h.1.1.1.2, ?_⟩
        cases hx : r.envelope.expiresAt with
        | none => simp [Memory.isExpired, hx]
        | some t =>
            have hlt : now < t := of_decide_eq_true (by simpa [hx] using h.2)
            simp [Memory.isExpired, hx, hlt]
      by_cases hdead : r.deadAt.isSome = true
      · have hnot : Memory.isClaimable r now = false := by
          by_contra hc
          rw [(hclaimable (Bool.not_eq_false _ ▸ hc)).2.1] at hdead
          cases hdead
        have hexpired : expiredPending now r = false := by
          rw [Option.isSome_iff_ne_none] at hdead
          simp [expiredPending, hdead]
        simp [Memory.countRow, hdead, hnot, hexpired, Nat.add_assoc, Nat.add_comm 1]
      · by_cases hpub : r.publishedAt.isSome = true
        · have hnot : Memory.isClaimable r now = false := by
            by_contra hc
            rw [(hclaimable (Bool.not_eq_false _ ▸ hc)).1] at hpub
            cases hpub
          have hexpired : expiredPending now r = false := by
            rw [Option.isSome_iff_ne_none] at hpub
            simp [expiredPending, hpub]
          simp [Memory.countRow, hdead, hpub, hnot, hexpired]
        · have hidle : r.publishedAt.isNone = true ∧ r.deadAt.isNone = true := by
            simpa using And.intro hpub hdead
          by_cases hexpired : Memory.isExpired r now = true
          · have hnot : Memory.isClaimable r now = false := by
              by_contra hc
              rw [(hclaimable (Bool.not_eq_false _ ▸ hc)).2.2] at hexpired
              cases hexpired
            have hpending : expiredPending now r = true := by
              simp only [expiredPending, hidle.1, hidle.2, hexpired, Bool.and_self]
            simp [Memory.countRow, hdead, hpub, hexpired, hnot, hpending, Nat.add_assoc,
              Nat.add_comm 1]
          · have hpending : expiredPending now r = false := by
              simp [expiredPending, hexpired]
            by_cases hclaim : Memory.isClaimable r now = true
            · have hcount : Memory.countRow now stats r =
                  { stats with
                    pending := stats.pending + 1
                    oldestPendingAvailableAt := oldest stats.oldestPendingAvailableAt r } := by
                cases ho : stats.oldestPendingAvailableAt with
                | none => simp [Memory.countRow, hdead, hpub, hexpired, hclaim, ho, oldest]
                | some t =>
                    by_cases hle : t ≤ r.availableAt
                    · simp [Memory.countRow, hdead, hpub, hexpired, hclaim, ho, oldest, hle]
                    · simp [Memory.countRow, hdead, hpub, hexpired, hclaim, ho, oldest, hle,
                        min_eq_right (Int.le_of_lt (Int.not_le.mp hle))]
              simp [hcount, hdead, hclaim, hpending, Nat.add_assoc, Nat.add_comm 1]
            · simp [Memory.countRow, hdead, hpub, hexpired, hclaim, hpending]

theorem foldl_oldest (records : List OutboxRecord) :
    records.foldl oldest none = (records.map (·.availableAt)).min? := by
  have hsome : ∀ (l : List OutboxRecord) (t : Timestamp),
      l.foldl oldest (some t) = some ((l.map (·.availableAt)).foldl min t) := by
    intro l
    induction l with
    | nil => exact fun _ => rfl
    | cons r l ih => exact fun t => ih (min t r.availableAt)
  cases records with
  | nil => rfl
  | cons r l =>
      show l.foldl oldest (some r.availableAt) = _
      rw [hsome, List.map_cons, List.min?_cons']

/-- The smallest of a multiset. -/
theorem min?_of_perm {l l' : List Int} (h : l.Perm l') : l.min? = l'.min? := by
  cases hmin : l'.min? with
  | none =>
      rw [List.min?_eq_none_iff] at hmin ⊢
      rw [hmin] at h
      exact h.eq_nil
  | some t =>
      rw [List.min?_eq_some_iff] at hmin ⊢
      exact ⟨h.mem_iff.mpr hmin.1, fun b hb => hmin.2 b (h.mem_iff.mp hb)⟩

theorem Start.stats_eq (h : Start rows s) :
    Memory.tryStats s = (.ok (Postgres.stats s.now rows), s) := by
  rw [Memory.tryStats, h.unarmed.guarded]
  refine Prod.ext (congrArg Except.ok ?_) rfl
  have hsame := h.paired.same
  have hpending : ∀ row ∈ rows, ∀ record ∈ s.rows, Mirrors row record →
      pendingFilter s.now row = Memory.isClaimable record s.now := by
    intro row _ record _ hm
    rw [pendingFilter_eq, hm.claimable]
  have hexpired : ∀ row ∈ rows, ∀ record ∈ s.rows, Mirrors row record →
      expiredPendingFilter s.now row = expiredPending s.now record := by
    intro row _ record hrecord hm
    have hpast := hm.expired (h.expires record hrecord)
    have hwording : (row.columns.expires.any fun t => decide (t < s.now)) =
        Postgres.expired s.now row := by
      cases hx : row.columns.expires <;> simp [Postgres.expired, hx]
    rw [expiredPendingFilter, hwording, hpast, hm.publishedAt, hm.deadAt]
    rfl
  have holdest := min?_of_perm (hsame.perm (f := Row.availableAt) (g := OutboxRecord.availableAt)
    hpending (fun row _ record _ hm _ => hm.availableAt))
  show s.rows.foldl (Memory.countRow s.now) ⟨0, 0, 0, none, s.now⟩ = Postgres.stats s.now rows
  rw [foldl_countRow, foldl_oldest, ← holdest, Postgres.stats, hsame.count hpending,
    hsame.count hexpired, hsame.count (p := fun r => r.deadAt.isSome)
      (q := fun r => r.deadAt.isSome) (fun row _ record _ hm => by rw [hm.deadAt])]
  simp only [Nat.zero_add]

/-! ## `list_dead` -/

theorem Mirrors.deadFilter {row : Row} {record : OutboxRecord} (h : Mirrors row record)
    (query : DeadQuery) : Postgres.deadFilter query row = Memory.deadMatches query record := by
  simp only [Postgres.deadFilter, Memory.deadMatches, h.deadAt, h.messageType, h.tenantId, h.sequence]

theorem Start.replay_listDead (h : Start rows s) (rendering : Rendering) {query : DeadQuery}
    (hlimit : query.limit ≤ MAX_LIST_DEAD_LIMIT) (htexts : ∀ text ∈ queryTexts query, hasNul text = false) :
    ∃ page, Postgres.listDead rendering query rows = .ok page ∧
      List.Forall₂ SameRecord page.records (Memory.listDead query s).records ∧
      page.poisoned = (Memory.listDead query s).poisoned ∧
      page.nextAfterSequence = (Memory.listDead query s).nextAfterSequence := by
  have hmirrors := h.paired.same.sorted (f := Row.sequence) (g := OutboxRecord.sequence)
    (r := fun r r' => r.sequence ≤ r'.sequence) (s := fun r r' => r.sequence ≤ r'.sequence)
    (fun _ _ => Iff.rfl) (fun _ _ => Iff.rfl)
    (fun row _ record _ hm => hm.deadFilter query) (fun row record hm => hm.sequence)
    (fun _ _ hseq => hseq) query.limit
  have hpage : ∀ r ∈ ((s.rows.filter (Memory.deadMatches query)).insertionSort
      fun r r' => r.sequence ≤ r'.sequence).take query.limit,
      Memory.RecordOk r ∧ (r.attempts : Int) ≤ INT_MAX := by
    intro r hr
    have hmem := (List.mem_filter.mp (SortBy.mem_take hr)).1
    exact ⟨h.paired.ok r hmem, h.paired.attempts r hmem⟩
  obtain ⟨hdecoded, -, hpoisoned⟩ := decoded_of_mirrors rendering hmirrors hpage
  have hnone : (queryTexts query).any hasNul = false := by
    rw [List.any_eq_false]
    exact fun text htext => Bool.not_eq_true _ ▸ htexts text htext
  have hcap : min query.limit MAX_LIST_DEAD_LIMIT = query.limit := Nat.min_eq_left hlimit
  have hsorted : (((rows.filter (Postgres.deadFilter query)).insertionSort
      fun r r' => r.sequence ≤ r'.sequence).take query.limit).Pairwise
        fun r r' => r.sequence ≤ r'.sequence :=
    (SortBy.pairwise (f := Row.sequence) (fun _ _ => Iff.rfl) _).sublist (List.take_sublist _ _)
  obtain ⟨scanned, hscanned⟩ : ∃ scanned, scanned = ((rows.filter
    (Postgres.deadFilter query)).insertionSort fun r r' => r.sequence ≤ r'.sequence).take
      query.limit := ⟨_, rfl⟩
  rw [← hscanned] at hmirrors hdecoded hpoisoned hsorted
  refine ⟨⟨decoded scanned, poisonedRows rendering scanned,
    if scanned.length = query.limit then maxSequence scanned else none⟩, ?_, hdecoded, hpoisoned, ?_⟩
  · simp only [Postgres.listDead, listDeadRows, hnone, hcap, Bool.false_eq_true, if_false, hscanned]
  · show (if scanned.length = query.limit then maxSequence scanned else none) = _
    rw [maxSequence_sorted hsorted, hmirrors.length_eq, ← List.getLast?_map,
      sequences_of_mirrors hmirrors, Memory.sequences, List.getLast?_map]
    rfl

end

end Reliar.Store
