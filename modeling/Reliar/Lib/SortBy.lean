/-
# `Reliar.Lib.SortBy` — sorting by a key and taking the first

`List.insertionSort` by a relation that compares keys.  The keys of the result
depend on the keys of the list as a multiset only (`map_eq_of_perm`), and what
`take` leaves out comes after what it takes (`rest`).
-/
import Mathlib.Data.List.Sort
import Mathlib.Data.List.Forall2
import Mathlib.Order.Basic

namespace SortBy

variable {α β γ : Type} [LinearOrder γ] {r : α → α → Prop} [DecidableRel r] {f : α → γ}

theorem map_insertionSort (hr : ∀ a b, r a b ↔ f a ≤ f b) (l : List α) :
    (l.insertionSort r).map f = (l.map f).insertionSort (· ≤ ·) :=
  List.map_insertionSort r (· ≤ ·) f l fun a _ b _ => hr a b

theorem pairwise (hr : ∀ a b, r a b ↔ f a ≤ f b) (l : List α) :
    (l.insertionSort r).Pairwise fun a b => f a ≤ f b := by
  have hkeys : ((l.insertionSort r).map f).Pairwise (· ≤ ·) := by
    rw [map_insertionSort hr]
    exact List.pairwise_insertionSort _ _
  exact List.pairwise_map.mp hkeys

/-- Lists with the same keys, in any order, sort to lists with the same keys. -/
theorem map_eq_of_perm {s : β → β → Prop} [DecidableRel s] {g : β → γ}
    (hr : ∀ a b, r a b ↔ f a ≤ f b) (hs : ∀ a b, s a b ↔ g a ≤ g b) {l : List α} {l' : List β}
    (h : (l.map f).Perm (l'.map g)) : (l.insertionSort r).map f = (l'.insertionSort s).map g := by
  rw [map_insertionSort hr, map_insertionSort hs]
  refine List.Perm.eq_of_pairwise' (List.pairwise_insertionSort (· ≤ ·) _)
    (List.pairwise_insertionSort (· ≤ ·) _) ?_
  exact (List.perm_insertionSort _ _).trans (h.trans (List.perm_insertionSort _ _).symm)

/-- A list in the order of its keys, no key twice, is what every rearrangement of it sorts to. -/
theorem insertionSort_eq (hr : ∀ a b, r a b ↔ f a ≤ f b) {l sorted : List α} (h : l.Perm sorted)
    (hlt : sorted.Pairwise fun a b => f a < f b) : l.insertionSort r = sorted := by
  have hkeys : (sorted.map f).Nodup := List.pairwise_map.mpr (hlt.imp fun hab => hab.ne)
  have hperm : (l.insertionSort r).Perm sorted := (List.perm_insertionSort r l).trans h
  refine List.Perm.eq_of_pairwise ?_ (pairwise hr l) (hlt.imp fun hab => hab.le) hperm
  intro a b ha hb hab hba
  exact List.inj_on_of_nodup_map hkeys (hperm.mem_iff.mp ha) hb (le_antisymm hab hba)

theorem mem_take {l : List α} {n : Nat} {x : α} (h : x ∈ (l.insertionSort r).take n) : x ∈ l :=
  (List.mem_insertionSort r).mp (List.mem_of_mem_take h)

theorem length_take (l : List α) (n : Nat) :
    ((l.insertionSort r).take n).length = min n l.length := by
  rw [List.length_take, List.length_insertionSort]

/-- What is left out is left out for want of room, and comes after what is taken. -/
theorem rest (hr : ∀ a b, r a b ↔ f a ≤ f b) {l : List α} {n : Nat} {x : α} (hx : x ∈ l)
    (hout : x ∉ (l.insertionSort r).take n) :
    ((l.insertionSort r).take n).length = n ∧ ∀ y ∈ (l.insertionSort r).take n, f y ≤ f x := by
  have hsplit := List.take_append_drop n (l.insertionSort r)
  have hdrop : x ∈ (l.insertionSort r).drop n := by
    have hmem : x ∈ (l.insertionSort r).take n ++ (l.insertionSort r).drop n := by
      rw [hsplit]
      exact (List.mem_insertionSort r).mpr hx
    exact (List.mem_append.mp hmem).resolve_left hout
  constructor
  · rw [List.length_take]
    have hlong : n < (l.insertionSort r).length := by
      by_contra hshort
      rw [List.drop_of_length_le (Nat.le_of_not_lt hshort)] at hdrop
      exact absurd hdrop List.not_mem_nil
    exact Nat.min_eq_left hlong.le
  · intro y hy
    have hpairs := pairwise hr l
    rw [← hsplit] at hpairs
    exact (List.pairwise_append.mp hpairs).2.2 y hy x hdrop

omit [LinearOrder γ] in
/-- Lists with equal keys are related element by element. -/
theorem forall₂_of_map_eq {R : α → β → Prop} {g : β → γ} {l : List α} {l' : List β}
    (h : l.map f = l'.map g) (hR : ∀ a ∈ l, ∀ b ∈ l', f a = g b → R a b) :
    List.Forall₂ R l l' := by
  induction l generalizing l' with
  | nil =>
      rw [List.map_nil, eq_comm, List.map_eq_nil_iff] at h
      subst h
      exact .nil
  | cons a l ih =>
      cases l' with
      | nil => cases h
      | cons b l' =>
          rw [List.map_cons, List.map_cons, List.cons.injEq] at h
          refine .cons (hR a List.mem_cons_self b List.mem_cons_self h.1) (ih h.2 ?_)
          exact fun x hx y hy => hR x (List.mem_cons_of_mem _ hx) y (List.mem_cons_of_mem _ hy)

end SortBy
