/-
# `Reliar.Store.Poison` — one row nobody can read (`reliar-store-postgres`: `store.rs`,
`acquire`)

`acquire` claims, decodes row by row, and buries what it cannot decode with a
second statement.  Every claimed row ends in one of two places: returned and
leased, or reported and dead (`Settled`).  The two statements run in transactions
of their own, so their `now()` may differ; nobody else writes the table.
-/
import Reliar.Store.Claim
import Reliar.Outbox.ErrorText

namespace Reliar.Store.Postgres

open Reliar.Core Reliar.Outbox

/-- `acquire` with another instant, and other failures, for its second statement. -/
def runAcquireThen (rendering : Rendering) (request : AcquireRequest) (env env' : Env)
    (rows : List Row) : List Row × Except CallError AcquiredBatch :=
  match env.exec 0 (acquire request) rows with
  | .error err => (rows, .error err)
  | .ok (rows', _) =>
      let returned := returnedRows env.now (env.choice 0) (acquire request) rows
      let batch : AcquiredBatch := ⟨decoded returned, poisonedRows rendering returned⟩
      if (poisoned rendering returned).isEmpty then (rows', .ok batch)
      else
        match env'.exec 1 (sweepPoisoned rendering returned request.worker.asStr) rows' with
        | .error err => (rows', .error err)
        | .ok (rows'', _) => (rows'', .ok batch)

theorem runAcquireThen_self (rendering : Rendering) (request : AcquireRequest) (env : Env)
    (rows : List Row) :
    runAcquireThen rendering request env env rows = runAcquire rendering request env rows := rfl

/-! ## What becomes of a row -/

/-- A row as the claim leaves it. -/
def leased (request : AcquireRequest) (now : Timestamp) (r : Row) : Row :=
  { r with
    lockedBy := some request.worker.asStr
    lockedUntil := some (now + millis request.lease * 1000000)
    updatedAt := now }

/-- What `acquire` makes of a row of the table: nothing; a lease; or, of a claimed row that cannot
be decoded, a dead row. -/
inductive Settled (request : AcquireRequest) (now now' : Timestamp) (claimed : List Row) :
    Row → Row → Prop
  | other {r : Row} : r ∉ claimed → Settled request now now' claimed r r
  | leased {r : Row} {record : OutboxRecord} : r ∈ claimed →
      decodeRow (leased request now r) = .ok record →
      Settled request now now' claimed r (leased request now r)
  | dead {r : Row} {err : RowError} {lastError : String} : r ∈ claimed →
      decodeRow (leased request now r) = .error err →
      lastError.utf8ByteSize ≤ MAX_ERROR_LEN →
      Settled request now now' claimed r
        { r with
          deadAt := some now', deadReason := some (encodeDeadReason .undecodable)
          lastError := some lastError, lockedBy := none, lockedUntil := none, updatedAt := now' }

/-! ## Statements that delete nothing -/

section
variable {rows rows' : List Row} {stmt : Stmt} {now : Timestamp} {choice : Choice}

theorem Stmt.onRow_outside {r : Row} (h : r.sequence ∉ choice.targets) :
    stmt.onRow now choice r = .ok (some r) := if_neg h

/-- A target that qualifies and does not abort the statement gets what `SET` makes of it. -/
theorem Stmt.onRow_inside {r : Row} {o : Option Row} (h : stmt.onRow now choice r = .ok o)
    (htarget : r.sequence ∈ choice.targets) (houter : stmt.outer now r = true) :
    stmt.set now (choice.item r.sequence) r = .ok o := by
  simp only [Stmt.onRow, if_pos htarget, Stmt.touch, houter, if_true] at h
  cases hset : stmt.set now (choice.item r.sequence) r with
  | error err =>
      rw [hset] at h
      cases h
  | ok o' =>
      rw [hset] at h
      cases o' with
      | none =>
          cases h
          rfl
      | some r' =>
          cases hviolated : violated r' with
          | some c =>
              simp only [hviolated] at h
              cases h
          | none =>
              simp only [hviolated] at h
              cases h
              rfl

/-- A statement that leaves every row in its place maps the table. -/
theorem Stmt.onRows_map {f : Row → Row} (h : stmt.onRows now choice rows = .ok rows')
    (hf : ∀ r ∈ rows, ∀ o, stmt.onRow now choice r = .ok o → o = some (f r)) :
    rows' = rows.map f := by
  obtain ⟨hall, rfl⟩ := Stmt.onRows_ok.mp h
  rw [← List.filterMap_eq_map]
  refine List.filterMap_congr fun r hr => ?_
  obtain ⟨o, ho⟩ := hall r hr
  rw [Stmt.after_eq ho, hf r hr o ho]
  rfl

end

/-! ## The two statements -/

section
variable {rows rows' : List Row} {now : Timestamp} {choice : Choice} {request : AcquireRequest}

/-- The numbers of the rows a claim takes. -/
def claimed (request : AcquireRequest) (now : Timestamp) (rows : List Row) : List Int :=
  (claimRows now request.batchSize rows).map Row.sequence

theorem mem_claimed (hnd : (rows.map Row.sequence).Nodup) {r : Row} (hr : r ∈ rows) :
    r.sequence ∈ claimed request now rows ↔ r ∈ claimRows now request.batchSize rows := by
  constructor
  · intro h
    obtain ⟨x, hx, hseq⟩ := List.mem_map.mp h
    rw [← List.inj_on_of_nodup_map hnd (mem_claimRows hx).1 hr hseq]
    exact hx
  · exact fun h => List.mem_map_of_mem h

/-- The table after the claim. -/
def leaseClaimed (request : AcquireRequest) (now : Timestamp) (rows : List Row) (r : Row) : Row :=
  if r.sequence ∈ claimed request now rows then leased request now r else r

theorem claim_map (hnd : (rows.map Row.sequence).Nodup)
    (hfull : choice.Full now rows (acquire request))
    (hrows : (acquire request).onRows now choice rows = .ok rows') :
    rows' = rows.map (leaseClaimed request now rows) := by
  refine Stmt.onRows_map hrows fun r hr o ho => ?_
  have htargets : r.sequence ∈ choice.targets ↔ r.sequence ∈ claimed request now rows :=
    (claim_targets_perm hnd hfull).mem_iff
  by_cases htarget : r.sequence ∈ choice.targets
  · have houter : (acquire request).outer now r = true := inner_of_target hnd hfull.toValid hr htarget
    have hset := Stmt.onRow_inside ho htarget houter
    obtain ⟨until', hadd, hset⟩ := bind_eq_ok hset
    cases hset
    have huntil : until' = now + millis request.lease * 1000000 := by
      simp only [addMillis] at hadd
      split at hadd
      · exact (Except.ok.inj hadd).symm
      · cases hadd
    rw [leaseClaimed, if_pos (htargets.mp htarget), leased, huntil]
  · rw [Stmt.onRow_outside htarget] at ho
    cases ho
    rw [leaseClaimed, if_neg fun h => htarget (htargets.mpr h)]

/-- `RETURNING` gives the claimed rows, leased. -/
theorem returned_perm (hnd : (rows.map Row.sequence).Nodup)
    (hfull : choice.Full now rows (acquire request))
    (hrows : (acquire request).onRows now choice rows = .ok rows') :
    (returnedRows now choice (acquire request) rows).Perm
      ((claimRows now request.batchSize rows).map (leased request now)) := by
  have hreturned : returnedRows now choice (acquire request) rows = _ :=
    returnedRows_eq hnd hfull.toValid hrows
  have htargets : ∀ q, q ∈ choice.targets ↔ q ∈ claimed request now rows := fun q =>
    (claim_targets_perm hnd hfull).mem_iff
  rw [hreturned, claim_map hnd hfull hrows, List.filter_map]
  have hmem : ∀ {r}, r ∈ rows.filter ((fun r => decide (r.sequence ∈ choice.targets)) ∘
      leaseClaimed request now rows) ↔ r ∈ rows ∧ r.sequence ∈ claimed request now rows := by
    intro r
    have hseq : (leaseClaimed request now rows r).sequence = r.sequence := by
      unfold leaseClaimed
      split
      · rfl
      · rfl
    rw [List.mem_filter, Function.comp_apply, decide_eq_true_eq, hseq, htargets]
  have hsame : (rows.filter ((fun r => decide (r.sequence ∈ choice.targets)) ∘
      leaseClaimed request now rows)).Perm (claimRows now request.batchSize rows) := by
    refine (List.perm_ext_iff_of_nodup ((List.Nodup.of_map _ hnd).filter _)
      (List.Nodup.of_map _ (claimRows_nodup hnd))).mpr fun r => ?_
    rw [hmem]
    constructor
    · rintro ⟨hr, hin⟩
      exact (mem_claimed hnd hr).mp hin
    · intro hr
      exact ⟨(mem_claimRows hr).1, (mem_claimed hnd (mem_claimRows hr).1).mpr hr⟩
  have hmap : ∀ r ∈ rows.filter ((fun r => decide (r.sequence ∈ choice.targets)) ∘
      leaseClaimed request now rows), leaseClaimed request now rows r = leased request now r :=
    fun r hr => if_pos (hmem.mp hr).2
  rw [List.map_congr_left hmap]
  exact hsame.map _

/-- The table after the sweep: what it names is dead, with the text of one of its items. -/
theorem sweep_map {items : List (Uuid × String)} {worker reason : String}
    (hnd : (rows.map Row.sequence).Nodup)
    (hfull : choice.Full now rows (.poisonSweep items worker reason))
    (hrows : (Stmt.poisonSweep items worker reason).onRows now choice rows = .ok rows') :
    ∃ text : Row → String, (∀ r ∈ rows, owned (items.map Prod.fst) worker r = true →
        (r.columns.id, text r) ∈ items) ∧
      rows' = rows.map fun r =>
        if owned (items.map Prod.fst) worker r then
          { r with
            deadAt := some now, deadReason := some reason, lastError := some (text r)
            lockedBy := none, lockedUntil := none, updatedAt := now }
        else r := by
  have htargets : ∀ r ∈ rows, r.sequence ∈ choice.targets ↔
      owned (items.map Prod.fst) worker r = true := by
    intro r hr
    constructor
    · exact inner_of_target hnd hfull.toValid hr
    · intro howned
      by_contra hout
      obtain ⟨⟨n, hn, -⟩, -⟩ := hfull.full r hr howned hout
      cases hn
  have hitem : ∀ r ∈ rows, owned (items.map Prod.fst) worker r = true →
      ∃ text, items[choice.item r.sequence]? = some (r.columns.id, text) := by
    intro r hr howned
    have hpicks := hfull.item r hr ((htargets r hr).mpr howned)
    simp only [Stmt.picks, beq_iff_eq, Option.map_eq_some_iff] at hpicks
    obtain ⟨⟨id, text⟩, hget, rfl⟩ := hpicks
    exact ⟨text, hget⟩
  refine ⟨fun r => (items[choice.item r.sequence]?.map Prod.snd).getD "", ?_, ?_⟩
  · intro r hr howned
    obtain ⟨text, hget⟩ := hitem r hr howned
    simp only [hget, Option.map_some, Option.getD_some]
    exact List.mem_of_getElem? hget
  · refine Stmt.onRows_map hrows fun r hr o ho => ?_
    by_cases howned : owned (items.map Prod.fst) worker r = true
    · obtain ⟨text, hget⟩ := hitem r hr howned
      have hset := Stmt.onRow_inside ho ((htargets r hr).mpr howned) howned
      cases hset
      simp only [if_pos howned, hget, Option.map_some, Option.getD_some]
    · rw [Stmt.onRow_outside fun h => howned ((htargets r hr).mp h)] at ho
      cases ho
      rw [if_neg howned]

end

/-! ## The call -/

/-- The schema's two unique indexes. -/
structure Keyed (rows : List Row) : Prop where
  ids : (rows.map fun r => r.columns.id).Nodup
  sequences : (rows.map Row.sequence).Nodup

/-- Both statements choose as PostgreSQL does on a table no row of which is locked by anybody
else. -/
structure AcquireFull (rendering : Rendering) (request : AcquireRequest) (env env' : Env)
    (rows : List Row) : Prop where
  claim : (env.choice 0).Full env.now rows (acquire request)
  sweep : ∀ rows', (acquire request).exec env.now (env.choice 0) rows = .ok rows' →
    (env'.choice 1).Full env'.now rows' (sweepPoisoned rendering
      (returnedRows env.now (env.choice 0) (acquire request) rows) request.worker.asStr)

section
variable {rendering : Rendering} {rows : List Row} {now now' : Timestamp} {request : AcquireRequest}

/-- Of the rows of the table the sweep owns the claimed ones that cannot be decoded. -/
theorem owned_claimed_iff (rendering : Rendering) (hkeyed : Keyed rows) {returned : List Row}
    (hreturned : returned.Perm ((claimRows now request.batchSize rows).map (leased request now)))
    {r : Row} (hr : r ∈ rows) :
    owned ((poisoned rendering returned).map Prod.fst) request.worker.asStr
        (leaseClaimed request now rows r) = true ↔
      r ∈ claimRows now request.batchSize rows ∧
        ∃ err, decodeRow (leased request now r) = .error err := by
  have hid : (leaseClaimed request now rows r).columns.id = r.columns.id := by
    unfold leaseClaimed
    split
    · rfl
    · rfl
  have hnamed : r.columns.id ∈ (poisoned rendering returned).map Prod.fst ↔
      r ∈ claimRows now request.batchSize rows ∧
        ∃ err, decodeRow (leased request now r) = .error err := by
    rw [List.mem_map]
    constructor
    · rintro ⟨item, hitem, heq⟩
      obtain ⟨x, hx, err, hdecode, rfl⟩ := mem_poisoned.mp hitem
      obtain ⟨y, hy, rfl⟩ := List.mem_map.mp (hreturned.mem_iff.mp hx)
      have hyr : y = r := List.inj_on_of_nodup_map hkeyed.ids (mem_claimRows hy).1 hr heq
      subst hyr
      exact ⟨hy, err, hdecode⟩
    · rintro ⟨hclaimed, err, hdecode⟩
      have hx : leased request now r ∈ returned :=
        hreturned.mem_iff.mpr (List.mem_map_of_mem hclaimed)
      exact ⟨_, mem_poisoned.mpr ⟨_, hx, err, hdecode, rfl⟩, rfl⟩
  simp only [owned, hid, Bool.and_eq_true, decide_eq_true_eq, hnamed]
  constructor
  · exact fun h => h.1
  · intro h
    refine ⟨h, ?_⟩
    rw [leaseClaimed, if_pos ((mem_claimed hkeyed.sequences hr).mpr h.1)]
    rfl

theorem decodeRow_sequence {r : Row} {record : OutboxRecord} (h : decodeRow r = .ok record) :
    record.sequence = r.sequence := by
  unfold decodeRow at h
  cases hrecord : decodeRecord r with
  | error fault =>
      rw [hrecord] at h
      cases h
  | ok record' =>
      rw [hrecord] at h
      cases h
      obtain ⟨_, -, hrest⟩ := bind_eq_ok hrecord
      obtain ⟨_, -, hrest⟩ := bind_eq_ok hrest
      obtain ⟨_, -, hrest⟩ := bind_eq_ok hrest
      obtain ⟨_, -, hrest⟩ := bind_eq_ok hrest
      cases hrest
      rfl

/-- Returned or reported: each row once. -/
theorem decoded_poisoned_perm (rendering : Rendering) (rows : List Row) :
    ((decoded rows).map (·.sequence) ++ (poisonedRows rendering rows).map (·.sequence)).Perm
      (rows.map Row.sequence) := by
  induction rows with
  | nil => exact .nil
  | cons r rows ih =>
      cases hdecode : decodeRow r with
      | ok record =>
          have hseq : record.sequence = r.sequence := decodeRow_sequence hdecode
          have hdecoded : decoded (r :: rows) = record :: decoded rows := by
            simp [decoded, hdecode, Except.toOption]
          have hpoisoned : poisonedRows rendering (r :: rows) = poisonedRows rendering rows := by
            simp [poisonedRows, hdecode]
          rw [hdecoded, hpoisoned, List.map_cons, List.map_cons, hseq, List.cons_append]
          exact ih.cons _
      | error err =>
          have hseq : err.sequence = r.sequence := (decodeRow_error hdecode).2
          have hdecoded : decoded (r :: rows) = decoded rows := by
            simp [decoded, hdecode, Except.toOption]
          have hpoisoned : poisonedRows rendering (r :: rows) =
              PoisonedRow.new err.id err.sequence (err.detail.text rendering) ::
                poisonedRows rendering rows := by
            simp [poisonedRows, hdecode]
          rw [hdecoded, hpoisoned, List.map_cons, List.map_cons]
          refine List.perm_middle.trans ?_
          rw [PoisonedRow.new, hseq]
          exact ih.cons _

theorem poisoned_isEmpty {rows : List Row} :
    (poisoned rendering rows).isEmpty = true ↔ ∀ r ∈ rows, ∃ record, decodeRow r = .ok record := by
  rw [List.isEmpty_iff]
  constructor
  · intro hnil r hr
    cases hdecode : decodeRow r with
    | ok record => exact ⟨record, rfl⟩
    | error err =>
        have hmem : (r.columns.id, truncateLastError (err.detail.text rendering)) ∈
            poisoned rendering rows := mem_poisoned.mpr ⟨r, hr, err, hdecode, rfl⟩
        rw [hnil] at hmem
        exact absurd hmem List.not_mem_nil
  · intro hall
    refine List.eq_nil_iff_forall_not_mem.mpr fun item hitem => ?_
    obtain ⟨r, hr, err, hdecode, -⟩ := mem_poisoned.mp hitem
    obtain ⟨record, hok⟩ := hall r hr
    rw [hok] at hdecode
    cases hdecode

/-- What both statements leave of the table, and what the call returns. -/
theorem runAcquireThen_ok {env env' : Env} {rows' : List Row} {batch : AcquiredBatch}
    (hkeyed : Keyed rows) (hfull : AcquireFull rendering request env env' rows)
    (h : runAcquireThen rendering request env env' rows = (rows', .ok batch)) :
    ∃ returned, returned.Perm
        ((claimRows env.now request.batchSize rows).map (leased request env.now)) ∧
      batch = ⟨decoded returned, poisonedRows rendering returned⟩ ∧
      List.Forall₂ (Settled request env.now env'.now (claimRows env.now request.batchSize rows))
        rows rows' := by
  have hnd := hkeyed.sequences
  simp only [runAcquireThen] at h
  split at h
  case h_1 => cases h
  case h_2 rows₁ count hexec =>
    obtain ⟨hclaim, -, -⟩ := Env.exec_ok hexec
    have hrows₁ := claim_map hnd hfull.claim (Stmt.exec_onRows hclaim)
    have hreturned := returned_perm hnd hfull.claim (Stmt.exec_onRows hclaim)
    have hsweep := hfull.sweep rows₁ hclaim
    refine ⟨_, hreturned, ?_⟩
    split at h
    case isTrue hnone =>
      cases h
      refine ⟨rfl, ?_⟩
      rw [hrows₁, List.forall₂_map_right_iff, List.forall₂_same]
      intro r hr
      by_cases hin : r ∈ claimRows env.now request.batchSize rows
      · obtain ⟨record, hok⟩ := poisoned_isEmpty.mp hnone (leased request env.now r)
          (hreturned.mem_iff.mpr (List.mem_map_of_mem hin))
        rw [leaseClaimed, if_pos ((mem_claimed hnd hr).mpr hin)]
        exact .leased hin hok
      · rw [leaseClaimed, if_neg fun hmem => hin ((mem_claimed hnd hr).mp hmem)]
        exact .other hin
    case isFalse =>
      split at h
      case h_1 => cases h
      case h_2 rows₂ count₂ hexec₂ =>
        cases h
        refine ⟨rfl, ?_⟩
        obtain ⟨hswept, -, -⟩ := Env.exec_ok hexec₂
        have hnd₁ : (rows₁.map Row.sequence).Nodup :=
          hnd.sublist (Stmt.onRows_sequences (Stmt.exec_onRows hclaim))
        obtain ⟨text, htext, hrows₂⟩ := sweep_map hnd₁ hsweep (Stmt.exec_onRows hswept)
        rw [hrows₂, hrows₁, List.map_map, List.forall₂_map_right_iff, List.forall₂_same]
        intro r hr
        have hmem₁ : leaseClaimed request env.now rows r ∈ rows₁ := by
          rw [hrows₁]
          exact List.mem_map_of_mem hr
        rw [Function.comp_apply]
        by_cases hin : r ∈ claimRows env.now request.batchSize rows
        · have hleft : leaseClaimed request env.now rows r = leased request env.now r :=
            if_pos ((mem_claimed hnd hr).mpr hin)
          cases hdecode : decodeRow (leased request env.now r) with
          | ok record =>
              rw [if_neg, hleft]
              · exact .leased hin hdecode
              · intro ho
                obtain ⟨-, err, herr⟩ := (owned_claimed_iff rendering hkeyed hreturned hr).mp ho
                rw [hdecode] at herr
                cases herr
          | error err =>
              have howned := (owned_claimed_iff rendering hkeyed hreturned hr).mpr ⟨hin, err, hdecode⟩
              have hitem := htext _ hmem₁ howned
              rw [if_pos howned, hleft]
              refine .dead hin hdecode ?_
              obtain ⟨x, -, err', -, heq⟩ := mem_poisoned.mp hitem
              rw [hleft] at heq
              rw [(Prod.mk.inj heq).2, truncateLastError_eq]
              exact truncateError_size _
        · have hleft : leaseClaimed request env.now rows r = r :=
            if_neg fun hmem => hin ((mem_claimed hnd hr).mp hmem)
          rw [if_neg, hleft]
          · exact .other hin
          · exact fun ho => hin ((owned_claimed_iff rendering hkeyed hreturned hr).mp ho).1

end

/-- A call of `acquire` that returns: the first rows that qualify, each once, in one list or the
other; and every row of the table is settled. -/
theorem acquire_settles (rendering : Rendering) (request : AcquireRequest) (env env' : Env)
    (rows rows' : List Row) (batch : AcquiredBatch) (hkeyed : Keyed rows)
    (hfull : AcquireFull rendering request env env' rows)
    (h : runAcquireThen rendering request env env' rows = (rows', .ok batch)) :
    (batch.records.map (·.sequence) ++ batch.poisoned.map (·.sequence)).Perm
        ((claimRows env.now request.batchSize rows).map Row.sequence) ∧
      (∀ r ∈ claimRows env.now request.batchSize rows, ∀ record,
        decodeRow (leased request env.now r) = .ok record →
          record ∈ batch.records ∧ r.sequence ∉ batch.poisoned.map (·.sequence)) ∧
      (∀ r ∈ claimRows env.now request.batchSize rows, ∀ err,
        decodeRow (leased request env.now r) = .error err →
          r.sequence ∈ batch.poisoned.map (·.sequence) ∧
            r.sequence ∉ batch.records.map (·.sequence)) ∧
      List.Forall₂ (Settled request env.now env'.now (claimRows env.now request.batchSize rows))
        rows rows' := by
  obtain ⟨returned, hreturned, rfl, hsettled⟩ := runAcquireThen_ok hkeyed hfull h
  have honce : ((decoded returned).map (·.sequence) ++
      (poisonedRows rendering returned).map (·.sequence)).Perm
        ((claimRows env.now request.batchSize rows).map Row.sequence) := by
    refine (decoded_poisoned_perm rendering returned).trans ?_
    have hnumbers := hreturned.map Row.sequence
    rw [List.map_map] at hnumbers
    exact hnumbers
  have hdisjoint := (List.nodup_append.mp
    (honce.nodup_iff.mpr (claimRows_nodup hkeyed.sequences))).2.2
  have hback : ∀ r ∈ claimRows env.now request.batchSize rows,
      leased request env.now r ∈ returned :=
    fun r hr => hreturned.mem_iff.mpr (List.mem_map_of_mem hr)
  refine ⟨honce, ?_, ?_, hsettled⟩
  · intro r hr record hok
    have hrecord : record ∈ decoded returned :=
      List.mem_filterMap.mpr ⟨_, hback r hr, by rw [hok]; rfl⟩
    have hseq : record.sequence = (leased request env.now r).sequence := decodeRow_sequence hok
    refine ⟨hrecord, fun hmem => ?_⟩
    exact hdisjoint _ (List.mem_map_of_mem hrecord) _ hmem hseq
  · intro r hr err herr
    have hseq : err.sequence = (leased request env.now r).sequence := (decodeRow_error herr).2
    have hpoisoned : PoisonedRow.new err.id err.sequence (err.detail.text rendering) ∈
        poisonedRows rendering returned :=
      List.mem_filterMap.mpr ⟨_, hback r hr, by rw [herr]⟩
    have hreported : r.sequence ∈ (poisonedRows rendering returned).map (·.sequence) :=
      List.mem_map.mpr ⟨_, hpoisoned, hseq⟩
    exact ⟨hreported, fun hmem => hdisjoint _ hmem _ hreported rfl⟩

/-! ## A table with one unreadable row -/

/-- A row nobody has claimed; its metadata may be of a version to come. -/
def waitingRow (n : Nat) (metadataVersion : Int) : Row :=
  Row.inserted { sampleColumns n none with metadataVersion := metadataVersion } n 0

def mixedRows : List Row := [waitingRow 1 METADATA_VERSION, waitingRow 2 (METADATA_VERSION + 1)]

def claimTen (lease : Duration) : AcquireRequest := ⟨workerW, 10, lease, .unordered⟩

/-- The claim takes both rows, the sweep the second. -/
def mixedEnv : Env where
  now := 0
  choice k := if k = 0 then claimChoice 0 10 mixedRows else ⟨[2], fun _ => 0⟩
  fails _ := false

theorem mixedRows_keyed : Keyed mixedRows := ⟨by decide, by decide⟩

theorem claimRows_mixed : claimRows 0 10 mixedRows = mixedRows := by
  have hall : mixedRows.filter (claimable 0) = mixedRows := List.filter_eq_self.mpr (by decide)
  have hsorted : mixedRows.Pairwise claimOrder := by decide
  rw [claimRows, hall, hsorted.insertionSort_eq]
  exact List.take_of_length_le (by decide)

/-- These choices are PostgreSQL's, for every lease under which the second row alone is refused. -/
theorem mixedEnv_full {lease : Duration}
    (hids : (poisoned sampleRendering (mixedRows.map (leased (claimTen lease) 0))).map Prod.fst =
      [⟨2⟩]) :
    AcquireFull sampleRendering (claimTen lease) mixedEnv mixedEnv mixedRows := by
  have hclaim : (mixedEnv.choice 0).Full mixedEnv.now mixedRows (acquire (claimTen lease)) :=
    claim_full 0 10 workerW.asStr (millis lease) mixedRows_keyed.sequences
  refine ⟨hclaim, fun rows' hexec => ?_⟩
  have hrows : rows' = [leased (claimTen lease) 0 (waitingRow 1 METADATA_VERSION),
      leased (claimTen lease) 0 (waitingRow 2 (METADATA_VERSION + 1))] :=
    claim_map mixedRows_keyed.sequences hclaim (Stmt.exec_onRows hexec)
  have hreturned : (returnedRows mixedEnv.now (mixedEnv.choice 0) (acquire (claimTen lease))
      mixedRows).Perm ((claimRows 0 10 mixedRows).map (leased (claimTen lease) 0)) :=
    returned_perm mixedRows_keyed.sequences hclaim (Stmt.exec_onRows hexec)
  rw [claimRows_mixed] at hreturned
  have hnamed : (poisoned sampleRendering (returnedRows mixedEnv.now (mixedEnv.choice 0)
      (acquire (claimTen lease)) mixedRows)).map Prod.fst = [⟨2⟩] := by
    rw [← List.perm_singleton, ← hids]
    exact (hreturned.filterMap _).map Prod.fst
  obtain ⟨item, hitems, hitem⟩ := List.map_eq_singleton_iff.mp hnamed
  rw [sweepPoisoned, hitems, hrows]
  obtain ⟨id, text⟩ := item
  cases hitem
  refine ⟨⟨rfl, ?_⟩, ?_⟩
  · intro r hr htarget
    rcases List.mem_pair.mp hr with rfl | rfl
    · exact absurd htarget (show (1 : Int) ∉ [2] by decide)
    · rfl
  · intro r hr hinner hout
    rcases List.mem_pair.mp hr with rfl | rfl
    · cases hinner
    · exact absurd (List.mem_singleton_self _) hout

theorem acquire_settles_mixed :
    ∃ rows' batch, runAcquireThen sampleRendering (claimTen (Duration.ofSecs 1)) mixedEnv mixedEnv
        mixedRows = (rows', .ok batch) ∧
      batch.records.map (·.sequence) = [1] ∧ batch.poisoned.map (·.sequence) = [2] ∧
      List.Forall₂ (Settled (claimTen (Duration.ofSecs 1)) 0 0 (claimRows 0 10 mixedRows))
        mixedRows rows' := by
  have hrun : (runAcquireThen sampleRendering (claimTen (Duration.ofSecs 1)) mixedEnv mixedEnv
      mixedRows).2.map (fun batch => (batch.records.map (·.sequence),
        batch.poisoned.map (·.sequence))) = .ok ([1], [2]) := by decide
  cases hresult : runAcquireThen sampleRendering (claimTen (Duration.ofSecs 1)) mixedEnv mixedEnv
      mixedRows with
  | mk rows' reply =>
      rw [hresult] at hrun
      cases reply with
      | error err => cases hrun
      | ok batch =>
          obtain ⟨hrecords, hpoisoned⟩ := Prod.mk.inj (Except.ok.inj hrun)
          obtain ⟨-, -, -, hsettled⟩ := acquire_settles sampleRendering _ mixedEnv mixedEnv
            mixedRows rows' batch mixedRows_keyed (mixedEnv_full (by decide)) hresult
          exact ⟨rows', batch, rfl, hrecords, hpoisoned, hsettled⟩

/-- A lease counts in whole milliseconds: one of a nanosecond ends when it begins. -/
theorem acquire_rounds_lease :
    ¬ ∀ (rendering : Rendering) (request : AcquireRequest) (env env' : Env)
      (rows rows' : List Row) (batch : AcquiredBatch), Keyed rows →
        AcquireFull rendering request env env' rows →
        runAcquireThen rendering request env env' rows = (rows', .ok batch) →
        ∀ r' ∈ rows', r'.sequence ∈ batch.records.map (·.sequence) →
          r'.lockedBy = some request.worker.asStr ∧
            r'.lockedUntil = some (env.now + request.lease) := by
  intro hall
  have hbatch : (runAcquireThen sampleRendering (claimTen 1) mixedEnv mixedEnv mixedRows).2.map
      (fun batch => batch.records.map (·.sequence)) = .ok [1] := by decide
  have hleft : (runAcquireThen sampleRendering (claimTen 1) mixedEnv mixedEnv mixedRows).1.map
      (fun r => (r.sequence, r.lockedUntil)) = [(1, some 0), (2, none)] := by decide
  cases hresult : runAcquireThen sampleRendering (claimTen 1) mixedEnv mixedEnv mixedRows with
  | mk rows' reply =>
      rw [hresult] at hbatch hleft
      cases reply with
      | error err => cases hbatch
      | ok batch =>
          have hrecords : batch.records.map (·.sequence) = [1] := Except.ok.inj hbatch
          obtain ⟨r', hr', hfirst⟩ : ∃ r' ∈ rows', (r'.sequence, r'.lockedUntil) = (1, some 0) :=
            List.mem_map.mp (hleft ▸ List.mem_cons_self)
          obtain ⟨hseq, huntil⟩ := Prod.mk.inj hfirst
          obtain ⟨-, hlate⟩ := hall sampleRendering (claimTen 1) mixedEnv mixedEnv mixedRows rows'
            batch mixedRows_keyed (mixedEnv_full (by decide)) hresult r' hr'
            (by rw [hseq, hrecords]; exact List.mem_cons_self)
          rw [huntil] at hlate
          exact absurd (Option.some.inj hlate) (by decide)

end Reliar.Store.Postgres
