/-
# `Reliar.Store.Paging` — reading all dead letters (`reliar-store-postgres`: `store.rs`,
`list_dead`; `reliar-outbox`: `test_support/store.rs`, `list_dead`)

A caller pages through the dead letters by handing each page's cursor to the next
call.  Both stores answer a call with a page of a keyset (`Keyset.page`): the
first `limit` matching rows above the cursor, poisoned rows included, so the
calls end and miss nothing.
-/
import Reliar.Lib.Keyset
import Reliar.Store.Poison

namespace Reliar.Store

open Reliar.Core Reliar.Outbox

/-- The rows a page stands for. -/
def pageSequences (page : DeadLetterPage) : List Int :=
  page.records.map (·.sequence) ++ page.poisoned.map (·.sequence)

/-- Calls of `list_dead`, each with the cursor of the page before, up to the page without one or
the call that fails. -/
inductive Pages {ε : Type} (call : DeadQuery → Except ε DeadLetterPage) :
    DeadQuery → List DeadLetterPage → Option ε → Prop
  | failed {query : DeadQuery} {err : ε} : call query = .error err → Pages call query [] (some err)
  | last {query : DeadQuery} {page : DeadLetterPage} : call query = .ok page →
      page.nextAfterSequence = none → Pages call query [page] none
  | next {query : DeadQuery} {page : DeadLetterPage} {after : Int} {pages : List DeadLetterPage}
      {stop : Option ε} : call query = .ok page → page.nextAfterSequence = some after →
      Pages call { query with afterSequence := some after } pages stop →
      Pages call query (page :: pages) stop

section
variable {α ε : Type} {key : α → Int} {l : List α} {limit : Nat} {view : List α → DeadLetterPage}
  {call : DeadQuery → Except ε DeadLetterPage} {query : DeadQuery}

/-- A store that answers with the pages of a keyset. -/
structure Answers (key : α → Int) (l : List α) (limit : Nat) (view : List α → DeadLetterPage)
    (call : DeadQuery → Except ε DeadLetterPage) (query : DeadQuery) : Prop where
  call : ∀ after, call { query with afterSequence := after } = .ok (view (Keyset.page key l limit after))
  cursor : ∀ after, (view (Keyset.page key l limit after)).nextAfterSequence =
    Keyset.cursor key limit (Keyset.page key l limit after)

theorem Answers.pages (h : Answers key l limit view call query) {after : Option Int}
    {pages : List (List α)} (hpaged : Keyset.Paged key l limit after pages) :
    Pages call { query with afterSequence := after } (pages.map view) none := by
  induction hpaged with
  | last hcursor => exact .last (h.call _) ((h.cursor _).trans hcursor)
  | next hcursor _ ih => exact .next (h.call _) ((h.cursor _).trans hcursor) ih

/-- The calls end; what the pages stand for is what matches, in order from page to page. -/
theorem Answers.complete (h : Answers key l limit view call query) (hnd : (l.map key).Nodup)
    (hlimit : 1 ≤ limit) (hview : ∀ p, (pageSequences (view p)).Perm (p.map key)) :
    ∃ pages : List (List α), Pages call query (pages.map view) none ∧
      pages.flatten = Keyset.sorted key l query.afterSequence ∧
      ((pages.map view).flatMap pageSequences).Perm
        ((l.filter (Keyset.above key query.afterSequence)).map key) ∧
      (pages.map view).Pairwise fun page page' =>
        ∀ q ∈ pageSequences page, ∀ q' ∈ pageSequences page', q < q' := by
  obtain ⟨pages, hpaged, hflatten⟩ := Keyset.exists_paged hnd hlimit query.afterSequence
  refine ⟨pages, h.pages hpaged, hflatten, ?_, ?_⟩
  · rw [List.flatMap_map]
    have hmap : pages.flatMap (fun p => p.map key) = (Keyset.sorted key l query.afterSequence).map key := by
      rw [← hflatten, List.map_flatten, List.flatMap_def]
    refine (List.Perm.flatMap_left pages fun p _ => hview p).trans ?_
    rw [hmap]
    exact (Keyset.sorted_perm l _).map key
  · have hstrict := Keyset.sorted_strict hnd query.afterSequence
    rw [← hflatten, List.pairwise_flatten] at hstrict
    refine List.pairwise_map.mpr (hstrict.2.imp fun {p p'} hlt q hq q' hq' => ?_)
    obtain ⟨a, ha, rfl⟩ := List.mem_map.mp ((hview p).mem_iff.mp hq)
    obtain ⟨b, hb, rfl⟩ := List.mem_map.mp ((hview p').mem_iff.mp hq')
    exact hlt a ha b hb

end

/-! ## The two stores -/

/-- The filters without the cursor. -/
def unpaged (query : DeadQuery) : DeadQuery := { query with afterSequence := none }

namespace Postgres

/-- A `text` column holds no U+0000. -/
def TextsStored (rows : List Row) : Prop :=
  ∀ r ∈ rows, hasNul r.columns.messageType = false ∧
    ∀ tenant, r.columns.tenantId = some tenant → hasNul tenant = false

theorem deadFilter_after (query : DeadQuery) (after : Option Int) (r : Row) :
    deadFilter { query with afterSequence := after } r =
      (Keyset.above Row.sequence after r && deadFilter (unpaged query) r) := by
  have hcursor : deadFilter { query with afterSequence := after } r =
      (deadFilter (unpaged query) r && after.all fun k => decide (k < r.sequence)) := by
    simp [deadFilter, unpaged]
  rw [hcursor, Bool.and_comm]
  rfl

theorem filter_dead (query : DeadQuery) (after : Option Int) (rows : List Row) :
    rows.filter (deadFilter { query with afterSequence := after }) =
      (rows.filter (deadFilter (unpaged query))).filter (Keyset.above Row.sequence after) := by
  rw [List.filter_filter]
  exact List.filter_congr fun r _ => deadFilter_after query after r

/-- A page of decoded and undecoded rows. -/
def pageOf (rendering : Rendering) (limit : Nat) (scanned : List Row) : DeadLetterPage :=
  ⟨decoded scanned, poisonedRows rendering scanned,
    if scanned.length = limit then maxSequence scanned else none⟩

theorem listDead_answers (rendering : Rendering) {query : DeadQuery} (rows : List Row)
    (htexts : (queryTexts query).any hasNul = false) :
    Answers Row.sequence (rows.filter (deadFilter (unpaged query)))
      (min query.limit MAX_LIST_DEAD_LIMIT) (pageOf rendering (min query.limit MAX_LIST_DEAD_LIMIT))
      (fun q => listDead rendering q rows) query where
  call after := by
    have hnul : (queryTexts { query with afterSequence := after }).any hasNul = false := htexts
    simp only [listDead, listDeadRows, hnul, filter_dead, Bool.false_eq_true, if_false]
    rfl
  cursor after := by
    have hsorted : (Keyset.page Row.sequence (rows.filter (deadFilter (unpaged query)))
        (min query.limit MAX_LIST_DEAD_LIMIT) after).Pairwise fun r r' =>
          r.sequence ≤ r'.sequence :=
      (SortBy.pairwise (f := Row.sequence) (fun _ _ => Iff.rfl) _).sublist (List.take_sublist _ _)
    simp only [pageOf, Keyset.cursor, maxSequence_sorted hsorted]

theorem no_match_of_nul {query : DeadQuery} {rows : List Row} (hstored : TextsStored rows)
    (hnul : (queryTexts query).any hasNul = true) : rows.filter (deadFilter query) = [] := by
  refine List.filter_eq_nil_iff.mpr fun r hr hmatch => ?_
  obtain ⟨text, htext, hbad⟩ := List.any_eq_true.mp hnul
  obtain ⟨htype, htenant⟩ := hstored r hr
  simp only [deadFilter, Bool.and_eq_true, Option.all_eq_true, decide_eq_true_eq] at hmatch
  obtain ⟨⟨⟨⟨-, hty⟩, hten⟩, -⟩, -⟩ := hmatch
  rcases List.mem_append.mp htext with htext | htext
  · rw [hty text (Option.mem_toList.mp htext), hbad] at htype
    cases htype
  · rw [htenant text (hten text (Option.mem_toList.mp htext))] at hbad
    cases hbad

end Postgres

namespace Memory

theorem deadMatches_after (query : DeadQuery) (after : Option Int) (r : OutboxRecord) :
    deadMatches { query with afterSequence := after } r =
      (Keyset.above OutboxRecord.sequence after r && deadMatches (unpaged query) r) := by
  have hcursor : deadMatches { query with afterSequence := after } r =
      (deadMatches (unpaged query) r && after.all fun k => decide (k < r.sequence)) := by
    simp [deadMatches, unpaged]
  rw [hcursor, Bool.and_comm]
  rfl

theorem filter_dead (query : DeadQuery) (after : Option Int) (rows : List OutboxRecord) :
    rows.filter (deadMatches { query with afterSequence := after }) =
      (rows.filter (deadMatches (unpaged query))).filter
        (Keyset.above OutboxRecord.sequence after) := by
  rw [List.filter_filter]
  exact List.filter_congr fun r _ => deadMatches_after query after r

/-- A page of records. -/
def pageOf (limit : Nat) (page : List OutboxRecord) : DeadLetterPage :=
  ⟨page, [], if page.length = limit then page.getLast?.map (·.sequence) else none⟩

theorem listDead_answers (query : DeadQuery) (s : Inner) :
    Answers OutboxRecord.sequence (s.rows.filter (deadMatches (unpaged query))) query.limit
      (pageOf query.limit) (fun q => (.ok (listDead q s) : Except InMemoryStoreError _)) query where
  call after := by
    simp only [listDead, filter_dead]
    rfl
  cursor after := rfl

end Memory

/-- Paging reads every matching dead row exactly once, in ascending order from page to page, and
ends; a filter that no `text` can equal ends it at the first call. -/
theorem list_dead_pages (query : DeadQuery) (hlimit : 1 ≤ query.limit) :
    (∀ (rendering : Rendering) (rows : List Row), (rows.map Row.sequence).Nodup →
      Postgres.TextsStored rows →
      ∃ pages stop, Pages (fun q => Postgres.listDead rendering q rows) query pages stop ∧
        (stop = none ∨ (Postgres.queryTexts query).any Postgres.hasNul = true) ∧
        (pages.flatMap pageSequences).Perm
          ((rows.filter (Postgres.deadFilter query)).map Row.sequence) ∧
        (pages.flatMap (·.records)).Perm
          (Postgres.decoded (rows.filter (Postgres.deadFilter query))) ∧
        (pages.flatMap (·.poisoned)).Perm
          (Postgres.poisonedRows rendering (rows.filter (Postgres.deadFilter query))) ∧
        pages.Pairwise fun page page' =>
          ∀ q ∈ pageSequences page, ∀ q' ∈ pageSequences page', q < q') ∧
    ∀ s : Memory.Inner, (s.rows.map (·.sequence)).Nodup →
      ∃ pages, Pages (fun q => (.ok (Memory.listDead q s) : Except Memory.InMemoryStoreError _))
          query pages none ∧
        (pages.flatMap (·.records)).Perm (s.rows.filter (Memory.deadMatches query)) ∧
        pages.flatMap (·.poisoned) = [] ∧
        pages.Pairwise fun page page' =>
          ∀ q ∈ pageSequences page, ∀ q' ∈ pageSequences page', q < q' := by
  constructor
  · intro rendering rows hnd hstored
    cases hnul : (Postgres.queryTexts query).any Postgres.hasNul with
    | true =>
        have hnone := Postgres.no_match_of_nul hstored hnul
        refine ⟨[], some .nulCharacter, .failed ?_, .inr rfl, ?_, ?_, ?_, .nil⟩
        · simp only [Postgres.listDead, Postgres.listDeadRows, hnul, if_true]
        · rw [hnone]
          exact .nil
        · rw [hnone]
          exact .nil
        · rw [hnone]
          exact .nil
    | false =>
        have hanswers := Postgres.listDead_answers rendering rows hnul
        have hlimit' : 1 ≤ min query.limit Postgres.MAX_LIST_DEAD_LIMIT :=
          Nat.le_min.mpr ⟨hlimit, by decide⟩
        obtain ⟨pages, hpages, hflatten, hall, horder⟩ := hanswers.complete
          (hnd.sublist (List.filter_sublist.map _)) hlimit'
          fun p => Postgres.decoded_poisoned_perm rendering p
        have hsorted : (Keyset.sorted Row.sequence
            (rows.filter (Postgres.deadFilter (unpaged query))) query.afterSequence).Perm
              (rows.filter (Postgres.deadFilter query)) := by
          rw [show rows.filter (Postgres.deadFilter query) = _ from
            Postgres.filter_dead query query.afterSequence rows]
          exact Keyset.sorted_perm _ _
        refine ⟨_, none, hpages, .inl rfl, ?_, ?_, ?_, horder⟩
        · rw [← Postgres.filter_dead] at hall
          exact hall
        · have hrecords : pages.flatMap Postgres.decoded = Postgres.decoded pages.flatten := by
            rw [Postgres.decoded, List.filterMap_flatten, List.flatMap_def]
            rfl
          rw [List.flatMap_map]
          refine (List.Perm.of_eq hrecords).trans ?_
          rw [hflatten]
          exact hsorted.filterMap _
        · have hpoisoned : pages.flatMap (Postgres.poisonedRows rendering) =
              Postgres.poisonedRows rendering pages.flatten := by
            rw [Postgres.poisonedRows, List.filterMap_flatten, List.flatMap_def]
            rfl
          rw [List.flatMap_map]
          refine (List.Perm.of_eq hpoisoned).trans ?_
          rw [hflatten]
          exact hsorted.filterMap _
  · intro s hnd
    have hanswers := Memory.listDead_answers query s
    obtain ⟨pages, hpages, hflatten, -, horder⟩ := hanswers.complete
      (hnd.sublist (List.filter_sublist.map _)) hlimit fun p => by
        show (p.map OutboxRecord.sequence ++ []).Perm _
        rw [List.append_nil]
    refine ⟨_, hpages, ?_, ?_, horder⟩
    · have hrecords : pages.flatMap (fun p => p) = pages.flatten := by
        rw [List.flatMap_def, List.map_id']
      rw [List.flatMap_map]
      refine (List.Perm.of_eq hrecords).trans ?_
      rw [hflatten, show s.rows.filter (Memory.deadMatches query) = _ from
        Memory.filter_dead query query.afterSequence s.rows]
      exact Keyset.sorted_perm _ _
    · rw [List.flatMap_map]
      exact List.flatMap_eq_nil_iff.mpr fun p _ => rfl

/-- A dead row, perhaps one that nobody can decode. -/
def deadRow (n : Nat) (metadataVersion : Int) : Row :=
  { Postgres.waitingRow n metadataVersion with
    deadAt := some 0, deadReason := some (encodeDeadReason .expired) }

/-- Page by page, the second page all poisoned. -/
theorem list_dead_pages_poisoned :
    ∃ pages stop, Pages (fun q => Postgres.listDead Postgres.sampleRendering q
          [deadRow 2 (METADATA_VERSION + 1), deadRow 1 METADATA_VERSION,
            Postgres.waitingRow 3 METADATA_VERSION])
        { DeadQuery.default with limit := 1 } pages stop ∧
      (pages.flatMap pageSequences).Perm [2, 1] := by
  have hstored : Postgres.TextsStored [deadRow 2 (METADATA_VERSION + 1),
      deadRow 1 METADATA_VERSION, Postgres.waitingRow 3 METADATA_VERSION] := by
    intro r hr
    simp only [List.mem_cons, List.not_mem_nil, or_false] at hr
    rcases hr with rfl | rfl | rfl
    · exact ⟨by decide, fun tenant htenant => by cases htenant⟩
    · exact ⟨by decide, fun tenant htenant => by cases htenant⟩
    · exact ⟨by decide, fun tenant htenant => by cases htenant⟩
  obtain ⟨pages, stop, hpages, -, hall, -⟩ :=
    (list_dead_pages { DeadQuery.default with limit := 1 } (by decide)).1
      Postgres.sampleRendering _ (by decide) hstored
  exact ⟨pages, stop, hpages, hall⟩

end Reliar.Store
