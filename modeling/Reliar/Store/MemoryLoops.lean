/-
# `Reliar.Store.MemoryLoops` — the loops of `InMemoryOutboxStore` as maps and filters

The loops go row by row or item by item and change the list as they go.  On rows
with references and sequence numbers of their own a loop does something to each
row by itself: the loop over items is a `map` (`updateEach_eq`), the bounded loops
take the first rows that qualify (`sweepRows_eq`, `dropRows_eq`).

Two reorderings follow: `fail` may take its items kind by kind
(`updateEach_split`), and `purge` may sweep last (`purge_passes`).
-/
import Reliar.Store.Memory

namespace Reliar.Store.Memory

open Reliar.Core Reliar.Outbox

/-! ## Loops as maps

Where every item finds at most one row, and no row is found twice, a loop is what it does to each
row. -/

/-- What the loop over `items` makes of a row that at most one of them finds. -/
def applyItems {α : Type} (p : α → OutboxRecord → Bool) (f : α → OutboxRecord → OutboxRecord)
    (items : List α) (r : OutboxRecord) : OutboxRecord :=
  match items.find? fun a => p a r with
  | some a => f a r
  | none => r

section
variable {α : Type} {p : α → OutboxRecord → Bool} {f : α → OutboxRecord → OutboxRecord}

theorem updateOne_eq {rows : List OutboxRecord} (n : Nat) {a : α} (hnd : (sequences rows).Nodup)
    (hunique : ∀ r ∈ rows, ∀ r' ∈ rows, p a r = true → p a r' = true → r' = r) :
    updateOne p f (rows, n) a =
      (rows.map fun r => if p a r then f a r else r, n + (rows.filter (p a)).length) := by
  unfold updateOne
  rw [updateFirst_eq_map hnd]
  cases hfind : rows.find? (p a) with
  | none =>
      have hnone := List.find?_eq_none.mp hfind
      have hfilter : rows.filter (p a) = [] := List.filter_eq_nil_iff.mpr hnone
      have hmap : rows.map (fun r => if p a r then f a r else r) = rows :=
        (List.map_congr_left fun r hr => if_neg (hnone r hr)).trans (List.map_id _)
      simp only [Option.map_none, hfilter, hmap, List.length_nil, Nat.add_zero]
  | some r =>
      have hr := List.mem_of_find?_eq_some hfind
      have hp : p a r = true := List.find?_some hfind
      have hmap : rows.map (fun x => if x.sequence = r.sequence then f a x else x) =
          rows.map fun x => if p a x then f a x else x := by
        refine List.map_congr_left fun x hx => ?_
        by_cases hpx : p a x = true
        · rw [if_pos hpx, hunique r hr x hx hp hpx, if_pos rfl]
        · have hne : x.sequence ≠ r.sequence := by
            intro hseq
            rw [List.inj_on_of_nodup_map hnd hx hr hseq] at hpx
            exact hpx hp
          rw [if_neg hpx, if_neg hne]
      have hone : (rows.filter (p a)).Perm [r] := by
        refine (List.perm_ext_iff_of_nodup ?_ (List.nodup_singleton r)).mpr fun x => ?_
        · exact (List.Nodup.of_map _ hnd).filter _
        · rw [List.mem_filter, List.mem_singleton]
          constructor
          · exact fun hx => hunique r hr x hx.1 hp hx.2
          · rintro rfl
            exact ⟨hr, hp⟩
      simp only [Option.map_some, hmap, hone.length_eq, List.length_singleton]

omit p f in
theorem length_filter_or {p q : OutboxRecord → Bool} (rows : List OutboxRecord)
    (h : ∀ r ∈ rows, p r = true → q r = false) :
    (rows.filter fun r => p r || q r).length =
      (rows.filter p).length + (rows.filter q).length := by
  induction rows with
  | nil => rfl
  | cons r rows ih =>
      have hrest := ih fun x hx => h x (List.mem_cons_of_mem _ hx)
      have hhead := h r List.mem_cons_self
      cases hp : p r with
      | true =>
          simp only [hp, hhead hp, Bool.true_or, List.filter_cons_of_pos, List.length_cons, hrest,
            Bool.false_eq_true, not_false_eq_true, List.filter_cons_of_neg]
          omega
      | false =>
          cases hq : q r <;>
            simp only [hp, hq, Bool.false_or, List.filter_cons, Bool.false_eq_true, if_false,
              if_true, List.length_cons, hrest]
          omega

/-- A loop over items with references of their own. -/
theorem updateEach_eq {key : α → MessageRef} {items : List α} {rows : List OutboxRecord}
    (hkey : ∀ a r, p a r = true → r.messageRef = key a)
    (href : ∀ a r, (f a r).messageRef = r.messageRef)
    (hseq : ∀ a r, (f a r).sequence = r.sequence) (hitems : (items.map key).Nodup)
    (hnd : (sequences rows).Nodup) (hrefs : (rows.map OutboxRecord.messageRef).Nodup) :
    updateEach p f items rows =
      (rows.map (applyItems p f items), (rows.filter fun r => items.any fun a => p a r).length) := by
  suffices h : ∀ n, items.foldl (updateOne p f) (rows, n) =
      (rows.map (applyItems p f items),
        n + (rows.filter fun r => items.any fun a => p a r).length) by
    unfold updateEach
    rw [h 0, Nat.zero_add]
  induction items generalizing rows with
  | nil =>
      intro n
      have hmap : rows.map (applyItems p f []) = rows := List.map_id _
      simp [hmap]
  | cons a items ih =>
      intro n
      rw [List.map_cons, List.nodup_cons] at hitems
      have hunique : ∀ r ∈ rows, ∀ r' ∈ rows, p a r = true → p a r' = true → r' = r := by
        intro r hr r' hr' hp hp'
        exact List.inj_on_of_nodup_map hrefs hr' hr ((hkey a r' hp').trans (hkey a r hp).symm)
      -- a row the first item finds is none of the others'
      have hothers : ∀ r x, p a r = true → x.messageRef = r.messageRef → ∀ b ∈ items,
          p b x = false := by
        intro r x hp hx b hb
        by_contra hpb
        rw [Bool.not_eq_false] at hpb
        refine hitems.1 (List.mem_map.mpr ⟨b, hb, ?_⟩)
        rw [← hkey b x hpb, hx, hkey a r hp]
      have hstep : ∀ r, applyItems p f items (if p a r then f a r else r) =
          applyItems p f (a :: items) r := by
        intro r
        by_cases hp : p a r = true
        · have hnone : (items.find? fun b => p b (f a r)) = none :=
            List.find?_eq_none.mpr fun b hb => by
              simp [hothers r (f a r) hp (href a r) b hb]
          simp only [applyItems, hp, if_true, hnone, List.find?_cons_of_pos]
        · simp only [applyItems, hp, if_false, Bool.false_eq_true, List.find?_cons_of_neg,
            not_false_eq_true]
      have hkept : ∀ {β : Type} (g : OutboxRecord → β), (∀ r, g (f a r) = g r) →
          (rows.map fun r => if p a r then f a r else r).map g = rows.map g := by
        intro β g hg
        rw [List.map_map]
        refine List.map_congr_left fun r _ => ?_
        simp only [Function.comp_apply]
        split
        · exact hg r
        · rfl
      rw [List.foldl_cons, updateOne_eq n hnd hunique, ih hitems.2]
      · have hmatch : ∀ r, (items.any fun b => p b (if p a r then f a r else r)) =
            (!p a r && items.any fun b => p b r) := by
          intro r
          by_cases hp : p a r = true
          · simp only [hp, if_true, Bool.not_true, Bool.false_and, List.any_eq_false]
            exact fun b hb => by simp [hothers r (f a r) hp (href a r) b hb]
          · simp [hp]
        have hsplit := length_filter_or (p := p a) (q := fun r => !p a r && items.any fun b => p b r)
          rows fun r _ hp => by simp [hp]
        have hany : ∀ r, ((a :: items).any fun b => p b r) =
            (p a r || (!p a r && items.any fun b => p b r)) := by
          intro r
          cases hp : p a r <;> simp [hp]
        simp only [List.map_map, Function.comp_def, hstep, List.filter_map, List.length_map, hmatch,
          hany, hsplit, Nat.add_assoc]
      · rw [sequences, hkept _ (hseq a)]
        exact hnd
      · rw [hkept _ (href a)]
        exact hrefs

end

section
variable {α : Type} {p : α → OutboxRecord → Bool} {f : α → OutboxRecord → OutboxRecord}
  {items : List α} {key : α → MessageRef}

/-- The item that finds a row is the only one. -/
theorem applyItems_eq (hkey : ∀ a r, p a r = true → r.messageRef = key a)
    (hitems : (items.map key).Nodup) {a : α} (ha : a ∈ items) {r : OutboxRecord}
    (hp : p a r = true) : applyItems p f items r = f a r := by
  unfold applyItems
  cases hfind : items.find? fun a => p a r with
  | none => exact absurd hp (List.find?_eq_none.mp hfind a ha)
  | some b =>
      have hb : p b r = true := List.find?_some (p := fun a => p a r) hfind
      have hsame : b = a := List.inj_on_of_nodup_map hitems (List.mem_of_find?_eq_some hfind) ha
        ((hkey b r hb).symm.trans (hkey a r hp))
      rw [hsame]

theorem applyItems_of_none {r : OutboxRecord} (h : (items.any fun a => p a r) = false) :
    applyItems p f items r = r := by
  have hnone : (items.find? fun a => p a r) = none :=
    List.find?_eq_none.mpr fun a ha => List.any_eq_false.mp h a ha
  simp only [applyItems, hnone]

/-- The items of one kind first, then the others: no item finds a row that one has changed. -/
theorem applyItems_split (hkey : ∀ a r, p a r = true → r.messageRef = key a)
    (hitems : (items.map key).Nodup) (hdone : ∀ a b r, p a r = true → p b (f a r) = false)
    (kind : α → Bool) (r : OutboxRecord) :
    applyItems p f (items.filter fun a => !kind a) (applyItems p f (items.filter kind) r) =
        applyItems p f items r ∧
      (items.any fun a => p a r) = ((items.filter kind).any (fun a => p a r) ||
        (items.filter fun a => !kind a).any fun b => p b (applyItems p f (items.filter kind) r)) ∧
      ((items.filter kind).any (fun a => p a r) = true →
        ((items.filter fun a => !kind a).any fun b =>
          p b (applyItems p f (items.filter kind) r)) = false) := by
  have hsub : ∀ q : α → Bool, ((items.filter q).map key).Nodup := fun q =>
    hitems.sublist (List.filter_sublist.map _)
  have hnone : ∀ q : α → Bool, (∀ a ∈ items, q a = true → p a r = false) →
      ((items.filter q).any fun a => p a r) = false := by
    intro q hq
    rw [List.any_eq_false]
    intro a ha
    obtain ⟨ha, hqa⟩ := List.mem_filter.mp ha
    rw [hq a ha hqa]
    exact Bool.false_ne_true
  by_cases hany : ∃ a ∈ items, p a r = true
  · obtain ⟨a, ha, hp⟩ := hany
    have hothers : ∀ b ∈ items, p b r = true → b = a := fun b hb hpb =>
      List.inj_on_of_nodup_map hitems hb ha ((hkey b r hpb).symm.trans (hkey a r hp))
    have hall : (items.any fun a => p a r) = true := List.any_eq_true.mpr ⟨a, ha, hp⟩
    by_cases hkind : kind a = true
    · have hmem := List.mem_filter.mpr ⟨ha, hkind⟩
      have hfirst : ((items.filter kind).any fun a => p a r) = true :=
        List.any_eq_true.mpr ⟨a, hmem, hp⟩
      have hlast : ((items.filter fun a => !kind a).any fun b => p b (f a r)) = false := by
        rw [List.any_eq_false]
        intro b _
        rw [hdone a b r hp]
        exact Bool.false_ne_true
      rw [applyItems_eq hkey (hsub kind) hmem hp, applyItems_eq hkey hitems ha hp, hall, hfirst,
        hlast, applyItems_of_none hlast]
      exact ⟨rfl, rfl, fun _ => rfl⟩
    · have hmem : a ∈ items.filter fun a => !kind a :=
        List.mem_filter.mpr ⟨ha, by simp [hkind]⟩
      have hfirst := hnone kind fun b hb hkb => by
        by_contra hpb
        rw [hothers b hb (Bool.not_eq_false _ ▸ hpb)] at hkb
        exact hkind hkb
      have hlast : ((items.filter fun a => !kind a).any fun b => p b r) = true :=
        List.any_eq_true.mpr ⟨a, hmem, hp⟩
      rw [applyItems_of_none hfirst, applyItems_eq hkey (hsub _) hmem hp,
        applyItems_eq hkey hitems ha hp, hall, hfirst, hlast]
      exact ⟨rfl, rfl, fun h => absurd h Bool.false_ne_true⟩
  · have hno : ∀ a ∈ items, p a r = false := fun a ha =>
      Bool.eq_false_iff.mpr fun hp => hany ⟨a, ha, hp⟩
    have hall : (items.any fun a => p a r) = false := by
      rw [List.any_eq_false]
      intro a ha
      rw [hno a ha]
      exact Bool.false_ne_true
    have hfirst := hnone kind fun a ha _ => hno a ha
    have hlast := hnone (fun a => !kind a) fun a ha _ => hno a ha
    rw [applyItems_of_none hfirst, applyItems_of_none hlast, applyItems_of_none hall, hall, hfirst,
      hlast]
    exact ⟨rfl, rfl, fun h => absurd h Bool.false_ne_true⟩

theorem applyItems_cases (p : α → OutboxRecord → Bool) (f : α → OutboxRecord → OutboxRecord)
    (items : List α) (r : OutboxRecord) :
    applyItems p f items r = r ∨ ∃ a ∈ items, p a r = true ∧ applyItems p f items r = f a r := by
  unfold applyItems
  cases hfind : items.find? fun a => p a r with
  | none => exact .inl rfl
  | some a =>
      exact .inr ⟨a, List.mem_of_find?_eq_some hfind, List.find?_some (p := fun a => p a r) hfind,
        rfl⟩

theorem applyItems_kept {β : Type} {g : OutboxRecord → β} (hg : ∀ a r, g (f a r) = g r)
    (r : OutboxRecord) : g (applyItems p f items r) = g r := by
  unfold applyItems
  split
  · exact hg _ r
  · rfl

/-- A loop may take its items kind by kind. -/
theorem updateEach_split (hkey : ∀ a r, p a r = true → r.messageRef = key a)
    (href : ∀ a r, (f a r).messageRef = r.messageRef)
    (hseq : ∀ a r, (f a r).sequence = r.sequence) (hitems : (items.map key).Nodup)
    (hdone : ∀ a b r, p a r = true → p b (f a r) = false) (kind : α → Bool)
    {rows : List OutboxRecord} (hnd : (sequences rows).Nodup)
    (hrefs : (rows.map OutboxRecord.messageRef).Nodup) :
    updateEach p f items rows =
      ((updateEach p f (items.filter fun a => !kind a)
          (updateEach p f (items.filter kind) rows).1).1,
        (updateEach p f (items.filter kind) rows).2 +
          (updateEach p f (items.filter fun a => !kind a)
            (updateEach p f (items.filter kind) rows).1).2) := by
  have hsub : ∀ q : α → Bool, ((items.filter q).map key).Nodup := fun q =>
    hitems.sublist (List.filter_sublist.map _)
  have hkept : ∀ {β : Type} (g : OutboxRecord → β), (∀ a r, g (f a r) = g r) →
      (rows.map (applyItems p f (items.filter kind))).map g = rows.map g := by
    intro β g hg
    rw [List.map_map]
    exact List.map_congr_left fun r _ => applyItems_kept hg r
  have hfirst := updateEach_eq hkey href hseq (hsub kind) hnd hrefs
  have hlast := updateEach_eq hkey href hseq (hsub fun a => !kind a) (by rw [sequences, hkept _ hseq]; exact hnd)
    (by rw [hkept _ href]; exact hrefs)
  have hsplit := applyItems_split hkey hitems hdone kind
  have hcount := length_filter_or (p := fun r => (items.filter kind).any fun a => p a r)
    (q := fun r => (items.filter fun a => !kind a).any fun b =>
      p b (applyItems p f (items.filter kind) r)) rows fun r _ => (hsplit r).2.2
  rw [updateEach_eq hkey href hseq hitems hnd hrefs, hfirst, hlast]
  refine Prod.ext ?_ ?_
  · rw [List.map_map]
    exact List.map_congr_left fun r _ => (hsplit r).1.symm
  · simp only [List.filter_map, List.length_map, Function.comp_def]
    rw [← hcount]
    exact congrArg List.length (List.filter_congr fun r _ => (hsplit r).2.1)

end

/-- The numbers of the first `n` rows that satisfy `p`. -/
def firstOf (p : OutboxRecord → Bool) (n : Nat) (rows : List OutboxRecord) : List Int :=
  sequences ((rows.filter p).take n)

theorem firstOf_subset {p : OutboxRecord → Bool} {n : Nat} {rows : List OutboxRecord} {q : Int}
    (h : q ∈ firstOf p n rows) : ∃ r ∈ rows, p r = true ∧ r.sequence = q := by
  obtain ⟨r, hr, rfl⟩ := List.mem_map.mp h
  obtain ⟨hr, hp⟩ := List.mem_filter.mp (List.mem_of_mem_take hr)
  exact ⟨r, hr, hp, rfl⟩

theorem firstOf_cons_pos {p : OutboxRecord → Bool} {r : OutboxRecord} (n : Nat)
    (rows : List OutboxRecord) (h : p r = true) :
    firstOf p (n + 1) (r :: rows) = r.sequence :: firstOf p n rows := by
  simp [firstOf, sequences, h]

theorem firstOf_cons_neg {p : OutboxRecord → Bool} {r : OutboxRecord} (n : Nat)
    (rows : List OutboxRecord) (h : ¬ p r = true) :
    firstOf p n (r :: rows) = firstOf p n rows := by
  simp [firstOf, h]

/-- The sweep takes the first rows that qualify. -/
theorem sweepRows_eq (now : Timestamp) : ∀ (budget : Nat) (rows : List OutboxRecord),
    (sequences rows).Nodup →
      sweepRows now budget rows =
        (rows.map fun r => if r.sequence ∈ firstOf (sweepable now) budget rows then sweepRow now r
          else r, (firstOf (sweepable now) budget rows).length)
  | budget, [], _ => by cases budget <;> rfl
  | 0, r :: rows, _ => by
      have hnone : firstOf (sweepable now) 0 (r :: rows) = [] := by simp [firstOf, sequences]
      simp [sweepRows, hnone]
  | budget + 1, r :: rows, hnd => by
      rw [sequences, List.map_cons, List.nodup_cons] at hnd
      unfold sweepRows
      by_cases hp : sweepable now r = true
      · rw [if_pos hp, sweepRows_eq now budget rows hnd.2, firstOf_cons_pos budget rows hp, List.map_cons,
          if_pos List.mem_cons_self]
        refine Prod.ext (congrArg (sweepRow now r :: ·) (List.map_congr_left fun x hx => ?_)) rfl
        have hne : x.sequence ≠ r.sequence := fun heq => hnd.1 (heq ▸ List.mem_map_of_mem hx)
        simp [hne]
      · have hnot : r.sequence ∉ firstOf (sweepable now) (budget + 1) rows := by
          intro hmem
          obtain ⟨x, hx, -, hseq⟩ := firstOf_subset hmem
          exact hnd.1 (hseq ▸ List.mem_map_of_mem hx)
        rw [if_neg hp, sweepRows_eq now (budget + 1) rows hnd.2, firstOf_cons_neg (budget + 1) rows hp,
          List.map_cons, if_neg hnot]

/-- A bounded `retain` drops the first rows that qualify. -/
theorem dropRows_eq (p : OutboxRecord → Bool) : ∀ (budget : Nat) (rows : List OutboxRecord),
    (sequences rows).Nodup →
      dropRows p budget rows =
        (rows.filter fun r => !decide (r.sequence ∈ firstOf p budget rows),
          (firstOf p budget rows).length)
  | budget, [], _ => by cases budget <;> rfl
  | 0, r :: rows, _ => by
      have hnone : firstOf p 0 (r :: rows) = [] := by simp [firstOf, sequences]
      simp [dropRows, hnone]
  | budget + 1, r :: rows, hnd => by
      rw [sequences, List.map_cons, List.nodup_cons] at hnd
      unfold dropRows
      by_cases hp : p r = true
      · rw [if_pos hp, dropRows_eq p budget rows hnd.2, firstOf_cons_pos budget rows hp]
        refine Prod.ext ?_ rfl
        rw [List.filter_cons_of_neg (by simp)]
        refine List.filter_congr fun x hx => ?_
        have hne : x.sequence ≠ r.sequence := fun heq => hnd.1 (heq ▸ List.mem_map_of_mem hx)
        simp [hne]
      · have hnot : r.sequence ∉ firstOf p (budget + 1) rows := by
          intro hmem
          obtain ⟨x, hx, -, hseq⟩ := firstOf_subset hmem
          exact hnd.1 (hseq ▸ List.mem_map_of_mem hx)
        rw [if_neg hp, dropRows_eq p (budget + 1) rows hnd.2, firstOf_cons_neg (budget + 1) rows hp,
          List.filter_cons_of_pos (by simpa using hnot)]

theorem firstOf_map {p : OutboxRecord → Bool} {g : OutboxRecord → OutboxRecord} {n : Nat}
    {rows : List OutboxRecord} (hseq : ∀ r ∈ rows, (g r).sequence = r.sequence)
    (hp : ∀ r ∈ rows, p (g r) = p r) : firstOf p n (rows.map g) = firstOf p n rows := by
  have hfilter : rows.filter (p ∘ g) = rows.filter p := List.filter_congr hp
  rw [firstOf, firstOf, List.filter_map, hfilter, ← List.map_take, sequences, sequences, List.map_map]
  exact List.map_congr_left fun r hr => hseq r (List.mem_filter.mp (List.mem_of_mem_take hr)).1

theorem firstOf_filter {p q : OutboxRecord → Bool} {n : Nat} {rows : List OutboxRecord}
    (h : ∀ r ∈ rows, p r = true → q r = true) : firstOf p n (rows.filter q) = firstOf p n rows := by
  have hfilter : (rows.filter q).filter p = rows.filter p := by
    rw [List.filter_filter]
    refine List.filter_congr fun r hr => ?_
    cases hp : p r with
    | false => rfl
    | true => rw [h r hr hp, Bool.and_self]
  rw [firstOf, firstOf, hfilter]

/-- A deletion of rows that the sweep neither takes nor makes can come before it or after. -/
theorem sweep_drop_comm {now : Timestamp} {p : OutboxRecord → Bool} {n : Nat}
    {rows : List OutboxRecord} (hnd : (sequences rows).Nodup)
    (hp : ∀ r ∈ rows, sweepable now r = true → p r = false ∧ p (sweepRow now r) = false) :
    sweepRows now n (dropRows p n rows).1 =
        ((dropRows p n (sweepRows now n rows).1).1, (sweepRows now n rows).2) ∧
      (dropRows p n (sweepRows now n rows).1).2 = (dropRows p n rows).2 := by
  have hswept : (sequences (sweepRows now n rows).1).Nodup := by
    rw [sweepRows_sequences]
    exact hnd
  have hdropped : (sequences (dropRows p n rows).1).Nodup :=
    hnd.sublist ((dropRows_sublist n rows).map _)
  rw [sweepRows_eq now n _ hdropped, dropRows_eq p n _ hswept, dropRows_eq p n rows hnd,
    sweepRows_eq now n rows hnd]
  have htaken : ∀ r ∈ rows, r.sequence ∈ firstOf (sweepable now) n rows → sweepable now r = true := by
    intro r hr hmem
    obtain ⟨x, hx, hsweep, hseq⟩ := firstOf_subset hmem
    rw [← List.inj_on_of_nodup_map hnd hx hr hseq]
    exact hsweep
  have hfirst : firstOf p n (rows.map fun r =>
      if r.sequence ∈ firstOf (sweepable now) n rows then sweepRow now r else r) =
        firstOf p n rows := by
    refine firstOf_map ?_ ?_
    · intro r _
      split
      · rfl
      · rfl
    · intro r hr
      split
      · rename_i hmem
        obtain ⟨hbefore, hafter⟩ := hp r hr (htaken r hr hmem)
        rw [hbefore, hafter]
      · rfl
  have hsecond : firstOf (sweepable now) n (rows.filter fun r =>
      !decide (r.sequence ∈ firstOf p n rows)) = firstOf (sweepable now) n rows := by
    refine firstOf_filter fun r hr hsweep => ?_
    rw [Bool.not_eq_true', decide_eq_false_iff_not]
    intro hmem
    obtain ⟨x, hx, hpx, hseq⟩ := firstOf_subset hmem
    have hsame : x = r := List.inj_on_of_nodup_map hnd hx hr hseq
    subst hsame
    rw [(hp x hr hsweep).1] at hpx
    cases hpx
  simp only [hfirst, hsecond, and_true, Prod.mk.injEq]
  rw [List.filter_map]
  refine congrArg (List.map _) (List.filter_congr fun r _ => ?_)
  simp only [Function.comp_apply]
  split
  · rfl
  · rfl

theorem sweep_dropOld_comm (now : Timestamp) (retention : Option Duration)
    {at' : OutboxRecord → Option Timestamp} (n : Nat) {rows : List OutboxRecord}
    (hnd : (sequences rows).Nodup)
    (hat : ∀ r, sweepable now r = true →
      at' r = none ∧ (at' (sweepRow now r) = none ∨ at' (sweepRow now r) = some now)) :
    sweepRows now n (dropOld now retention at' n rows).1 =
        ((dropOld now retention at' n (sweepRows now n rows).1).1, (sweepRows now n rows).2) ∧
      (dropOld now retention at' n (sweepRows now n rows).1).2 =
        (dropOld now retention at' n rows).2 := by
  cases retention with
  | none => exact ⟨rfl, rfl⟩
  | some d =>
      refine sweep_drop_comm hnd fun r _ hsweep => ?_
      obtain ⟨hbefore, hafter⟩ := hat r hsweep
      refine ⟨by rw [hbefore]; rfl, ?_⟩
      rcases hafter with hafter | hafter
      · rw [hafter]
        rfl
      · rw [hafter]
        have hnot : ¬ now < now - (d : Int) :=
          Int.not_lt.mpr (Int.sub_le_self now (Int.natCast_nonneg d))
        exact decide_eq_false hnot

/-- The passes of `purge` in the order of the SQL store: the deletions first. -/
theorem purge_passes (request : PurgeRequest) (now : Timestamp) {rows : List OutboxRecord}
    (hnd : (sequences rows).Nodup) :
    let swept := sweepRows now request.batchSize rows
    let published := dropOld now request.publishedRetention (·.publishedAt) request.batchSize swept.1
    let dead := dropOld now request.deadRetention (·.deadAt) request.batchSize published.1
    let published' := dropOld now request.publishedRetention (·.publishedAt) request.batchSize rows
    let dead' := dropOld now request.deadRetention (·.deadAt) request.batchSize published'.1
    sweepRows now request.batchSize dead'.1 = (dead.1, swept.2) ∧ published'.2 = published.2 ∧
      dead'.2 = dead.2 := by
  intro swept published dead published' dead'
  have hsettled : ∀ r, sweepable now r = true → r.publishedAt = none ∧ r.deadAt = none := by
    intro r hsweep
    simp only [sweepable, Bool.and_eq_true, Option.isNone_iff_eq_none] at hsweep
    exact ⟨hsweep.1.1.1, hsweep.1.1.2⟩
  obtain ⟨hpublished, hcount⟩ := sweep_dropOld_comm now request.publishedRetention
    request.batchSize hnd fun r hsweep => ⟨(hsettled r hsweep).1, .inl (hsettled r hsweep).1⟩
  have hnd' : (sequences published'.1).Nodup :=
    hnd.sublist ((dropOld_sublist now request.publishedRetention _ request.batchSize rows).map _)
  obtain ⟨hdead, hcount'⟩ := sweep_dropOld_comm now request.deadRetention
    request.batchSize hnd' fun r hsweep => ⟨(hsettled r hsweep).2, .inr rfl⟩
  rw [hpublished] at hdead hcount'
  exact ⟨hdead, hcount.symm, hcount'.symm⟩

end Reliar.Store.Memory
