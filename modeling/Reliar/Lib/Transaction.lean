/-
# `Reliar.Lib.Transaction` — transactions with savepoints

A transaction works on a state of its own.  A statement changes that state or
fails, and after a failure the transaction accepts nothing but going back to a
savepoint.  A commit keeps the state, or, after a failure, gives it up.

Statements that are issued one after the other, each only if the one before it
went well, are together one statement (`statement_bind`).  That is what makes a
procedure of several statements atomic, whatever fails inside it.

A client sees commands and answers.  `Journal` is what it can conclude from
them, and `commit_log` says that it is right.
-/
import Mathlib

/-- A transaction in progress. -/
structure Transaction (σ : Type) where
  /-- what a rollback returns to -/
  start : σ
  /-- what the open savepoints return to, latest first -/
  saves : List σ
  /-- nothing, once a statement has failed -/
  current : Option σ

namespace Transaction

variable {σ ε κ ω α β : Type}

def begin (s : σ) : Transaction σ := ⟨s, [], some s⟩

/-- What a commit leaves. -/
def commit (t : Transaction σ) : σ := t.current.getD t.start

/-- What runs inside a transaction. -/
abbrev Session (ε σ α : Type) := ExceptT ε (StateM (Transaction σ)) α

/-- A procedure in a session, with the transaction it leaves. -/
def perform (m : Session ε σ α) (t : Transaction σ) : Except ε α × Transaction σ := m.run.run t

/-- One statement; `refused` is the answer of a transaction that has failed. -/
def statement (refused : ε) (f : StateT σ (Except ε) α) : Session ε σ α :=
  ExceptT.mk fun t =>
    match t.current with
    | none => (.error refused, t)
    | some s =>
        match f.run s with
        | .ok (a, s') => (.ok a, { t with current := some s' })
        | .error err => (.error err, { t with current := none })

section
variable {refused : ε} {f : StateT σ (Except ε) α} {t : Transaction σ} {s s' : σ} {a : α} {err : ε}

theorem perform_refused (h : t.current = none) :
    perform (statement refused f) t = (.error refused, t) := by
  simp only [perform, statement, ExceptT.run_mk, StateT.run, h]

theorem perform_ok (h : t.current = some s) (hf : f.run s = .ok (a, s')) :
    perform (statement refused f) t = (.ok a, { t with current := some s' }) := by
  simp only [perform, statement, ExceptT.run_mk, StateT.run, h] at hf ⊢
  rw [hf]

theorem perform_error (h : t.current = some s) (hf : f.run s = .error err) :
    perform (statement refused f) t = (.error err, { t with current := none }) := by
  simp only [perform, statement, ExceptT.run_mk, StateT.run, h] at hf ⊢
  rw [hf]

theorem perform_bind (m : Session ε σ α) (k : α → Session ε σ β) (t : Transaction σ) :
    perform (m >>= k) t =
      match perform m t with
      | (.ok a, t') => perform (k a) t'
      | (.error err, t') => (.error err, t') := by
  simp only [perform, ExceptT.run_bind, StateT.run_bind]
  rcases h : m.run.run t with ⟨r, t'⟩
  cases r <;> rfl

/-- A step of a statement that goes well. -/
theorem run_bind_ok {g : α → StateT σ (Except ε) β} (hf : f.run s = .ok (a, s')) :
    (f >>= g).run s = (g a).run s' := by
  rw [StateT.run_bind, hf]
  rfl

theorem run_bind_error {g : α → StateT σ (Except ε) β} (hf : f.run s = .error err) :
    (f >>= g).run s = .error err := by
  rw [StateT.run_bind, hf]
  rfl

/-- Statements one after the other are one statement. -/
theorem statement_bind (refused : ε) (f : StateT σ (Except ε) α) (g : α → StateT σ (Except ε) β) :
    (statement refused f >>= fun a => statement refused (g a)) = statement refused (f >>= g) := by
  refine funext fun t => ?_
  show perform (statement refused f >>= fun a => statement refused (g a)) t =
    perform (statement refused (f >>= g)) t
  rw [perform_bind]
  cases hcurrent : t.current with
  | none => rw [perform_refused hcurrent, perform_refused hcurrent]
  | some s =>
      cases hf : f.run s with
      | error err => rw [perform_error hcurrent hf, perform_error hcurrent (run_bind_error hf)]
      | ok p =>
          obtain ⟨a, s'⟩ := p
          have hbind := run_bind_ok (g := g) hf
          rw [perform_ok hcurrent hf]
          dsimp only
          cases hg : (g a).run s' with
          | error err => rw [perform_error rfl hg, perform_error hcurrent (hbind.trans hg)]
          | ok q => rw [perform_ok rfl hg, perform_ok hcurrent (hbind.trans hg)]

end

/-! ## Programs -/

/-- What a client does with a transaction between its begin and its end. -/
inductive Command (κ : Type)
  | call (k : κ)
  | savepoint
  /-- go back to the latest savepoint, and forget it -/
  | rollbackTo
  /-- forget the latest savepoint -/
  | release

/-- Nothing is accepted any more. -/
def fail (refused : ε) (t : Transaction σ) : Except ε Unit × Transaction σ :=
  (.error refused, { t with current := none })

/-- One command and its answer.  Without a savepoint there is none to go back to or to forget. -/
def step (refused : ε) (proc : κ → Session ε σ Unit) (t : Transaction σ) :
    Command κ → Except ε Unit × Transaction σ
  | .call k => perform (proc k) t
  | .savepoint =>
      match t.current with
      | some s => (.ok (), { t with saves := s :: t.saves })
      | none => fail refused t
  | .rollbackTo =>
      match t.saves with
      | s :: saves => (.ok (), { t with saves := saves, current := some s })
      | [] => fail refused t
  | .release =>
      match t.saves, t.current with
      | _ :: saves, some _ => (.ok (), { t with saves := saves })
      | _, _ => fail refused t

/-- The answers to a list of commands. -/
def exec (refused : ε) (proc : κ → Session ε σ Unit) :
    List (Command κ) → Transaction σ → List (Except ε Unit) × Transaction σ
  | [], t => ([], t)
  | c :: cs, t =>
      let (answer, t) := step refused proc t c
      let (answers, t) := exec refused proc cs t
      (answer :: answers, t)

/-- Procedures of one statement each. -/
def atomic (refused : ε) (run : κ → StateT σ (Except ε) Unit) (k : κ) : Session ε σ Unit :=
  statement refused (run k)

/-- What is on a transaction satisfies this. -/
def All (P : σ → Prop) (t : Transaction σ) : Prop :=
  P t.start ∧ (∀ s ∈ t.saves, P s) ∧ ∀ s, t.current = some s → P s

section
variable {P : σ → Prop} {refused : ε} {run run' : κ → StateT σ (Except ε) Unit} {t : Transaction σ}

theorem All.commit (h : t.All P) : P t.commit := by
  unfold Transaction.commit
  cases hcurrent : t.current with
  | none => exact h.1
  | some s => exact h.2.2 s hcurrent

theorem All.statement (h : t.All P) {f : StateT σ (Except ε) Unit}
    (hf : ∀ {s a s'}, P s → f.run s = .ok (a, s') → P s') :
    (perform (Transaction.statement refused f) t).2.All P := by
  cases hcurrent : t.current with
  | none =>
      rw [perform_refused hcurrent]
      exact h
  | some s =>
      cases hrun : f.run s with
      | error err =>
          rw [perform_error hcurrent hrun]
          refine ⟨h.1, h.2.1, fun s' hs' => ?_⟩
          cases hs'
      | ok p =>
          rw [perform_ok hcurrent hrun]
          refine ⟨h.1, h.2.1, fun s' hs' => ?_⟩
          cases hs'
          exact hf (h.2.2 s hcurrent) hrun

/-- An invariant of the statements is one of the commands. -/
theorem All.step (refused : ε) (h : t.All P) {c : Command κ}
    (hrun : ∀ k, c = .call k → ∀ {s a s'}, P s → (run k).run s = .ok (a, s') → P s') :
    (step refused (atomic refused run) t c).2.All P := by
  have hfailed : Transaction.All P { t with current := none } :=
    ⟨h.1, h.2.1, fun s hs => by cases hs⟩
  cases c with
  | call k => exact h.statement (hrun k rfl)
  | savepoint =>
      simp only [Transaction.step]
      split
      · rename_i s hcurrent
        exact ⟨h.1, List.forall_mem_cons.mpr ⟨h.2.2 s hcurrent, h.2.1⟩, h.2.2⟩
      · exact hfailed
  | rollbackTo =>
      simp only [Transaction.step]
      split
      · rename_i s saves hsaves
        obtain ⟨hs, hall⟩ := List.forall_mem_cons.mp (hsaves ▸ h.2.1)
        refine ⟨h.1, hall, fun x hx => ?_⟩
        cases hx
        exact hs
      · exact hfailed
  | release =>
      simp only [Transaction.step]
      split
      · rename_i s saves _ hsaves _
        exact ⟨h.1, (List.forall_mem_cons.mp (hsaves ▸ h.2.1)).2, h.2.2⟩
      · exact hfailed

theorem All.exec (refused : ε) (h : t.All P) {cs : List (Command κ)}
    (hrun : ∀ k, .call k ∈ cs → ∀ {s a s'}, P s → (run k).run s = .ok (a, s') → P s') :
    (exec refused (atomic refused run) cs t).2.All P := by
  induction cs generalizing t with
  | nil => exact h
  | cons c cs ih =>
      refine ih (h.step refused fun k hk => hrun k (hk ▸ List.mem_cons_self)) fun k hk => ?_
      exact hrun k (List.mem_cons_of_mem _ hk)

end

/-! ## What the client can conclude -/

/-- What has been done since the latest savepoint, since the one before it, and so on to the begin;
and whether a commit would keep it. -/
structure Journal (ω : Type) where
  done : List (List ω)
  live : Bool

namespace Journal

def empty : Journal ω := ⟨[[]], true⟩

/-- All of it, oldest first. -/
def all (j : Journal ω) : List ω := j.done.reverse.flatten

/-- What a commit would keep. -/
def kept (j : Journal ω) : List ω := if j.live then j.all else []

/-- A command and its answer. -/
def note (effect : κ → List ω) (j : Journal ω) (c : Command κ) (answer : Except ε Unit) :
    Journal ω :=
  match c, answer, j.done with
  | .call k, .ok _, top :: below => { j with done := (top ++ effect k) :: below }
  | .savepoint, .ok _, done => { j with done := [] :: done }
  | .rollbackTo, .ok _, _ :: below => ⟨below, true⟩
  | .release, .ok _, top :: next :: below => { j with done := (next ++ top) :: below }
  | _, _, _ => { j with live := false }

def notes (effect : κ → List ω) : List (Command κ) → List (Except ε Unit) → Journal ω → Journal ω
  | c :: cs, answer :: answers, j => notes effect cs answers (j.note effect c answer)
  | _, _, j => j

end Journal

/-- The journal matches the transaction: at every savepoint, and now. -/
inductive Saved (log : σ → List ω) (base : List ω) : List σ → List (List ω) → Prop
  | nil : Saved log base [] []
  | cons {s : σ} {saves : List σ} {done : List ω} {below : List (List ω)}
      (h : log s = base ++ (done :: below).reverse.flatten) (rest : Saved log base saves below) :
      Saved log base (s :: saves) (done :: below)

structure Matches (log : σ → List ω) (t : Transaction σ) (j : Journal ω) : Prop where
  saved : ∃ top below, j.done = top :: below ∧ Saved log (log t.start) t.saves below
  live : j.live = t.current.isSome
  current : ∀ s, t.current = some s → log s = log t.start ++ j.all

section
variable {log : σ → List ω} {refused : ε} {run : κ → StateT σ (Except ε) Unit}
  {effect : κ → List ω} {t : Transaction σ} {j : Journal ω}

theorem Matches.failed (h : Matches log t j) :
    Matches log { t with current := none } { j with live := false } :=
  ⟨h.saved, rfl, fun s hs => by cases hs⟩

theorem Matches.step (refused : ε) (h : Matches log t j)
    (hlog : ∀ k {s a s'}, (run k).run s = .ok (a, s') → log s' = log s ++ effect k)
    (c : Command κ) :
    Matches log (step refused (atomic refused run) t c).2 (j.note effect c (step refused (atomic refused run) t c).1) := by
  obtain ⟨⟨top, below, hdone, hsaved⟩, hlive, hcurrent⟩ := h
  have hmatches : Matches log t j := ⟨⟨top, below, hdone, hsaved⟩, hlive, hcurrent⟩
  cases c with
  | call k =>
      show Matches log (perform (statement refused (run k)) t).2
        (j.note effect (.call k) (perform (statement refused (run k)) t).1)
      cases hs : t.current with
      | none =>
          rw [perform_refused hs]
          have hfailed := hmatches.failed
          obtain ⟨start, saves, current⟩ := t
          cases hs
          exact hfailed
      | some s =>
          cases hf : (run k).run s with
          | error err =>
              rw [perform_error hs hf]
              exact hmatches.failed
          | ok p =>
              obtain ⟨a, s'⟩ := p
              rw [perform_ok hs hf]
              simp only [Journal.note, hdone]
              refine ⟨⟨_, below, rfl, hsaved⟩, by rw [hlive, hs]; rfl, fun x hx => ?_⟩
              cases hx
              rw [hlog k hf, hcurrent s hs, Journal.all, Journal.all, hdone]
              simp only [List.reverse_cons, List.flatten_append, List.flatten_cons,
                List.flatten_nil, List.append_nil, List.append_assoc]
  | savepoint =>
      simp only [Transaction.step]
      split
      · rename_i s hs
        refine ⟨⟨[], j.done, rfl, ?_⟩, hlive, fun x hx => ?_⟩
        · rw [hdone]
          refine .cons ?_ hsaved
          rw [hcurrent s hs, Journal.all, hdone]
        · rw [hcurrent x hx]
          simp only [Journal.note, Journal.all, List.reverse_cons, List.flatten_append,
            List.flatten_cons, List.flatten_nil, List.append_nil]
      · exact hmatches.failed
  | rollbackTo =>
      simp only [Transaction.step]
      split
      · rename_i s saves hsaves
        rw [hsaves] at hsaved
        cases hsaved with
        | @cons _ _ done below hs hrest =>
            simp only [Journal.note, hdone]
            refine ⟨⟨done, below, rfl, hrest⟩, rfl, fun x hx => ?_⟩
            cases hx
            exact hs
      · exact hmatches.failed
  | release =>
      simp only [Transaction.step]
      split
      · rename_i s saves x hsaves hx
        rw [hsaves] at hsaved
        cases hsaved with
        | @cons _ _ done below hs hrest =>
            simp only [Journal.note, hdone]
            refine ⟨⟨_, below, rfl, hrest⟩, hlive, fun y hy => ?_⟩
            rw [hcurrent y hy, Journal.all, Journal.all, hdone]
            simp only [List.reverse_cons, List.flatten_append, List.flatten_cons,
              List.flatten_nil, List.append_nil, List.append_assoc]
      · exact hmatches.failed

theorem Matches.exec (refused : ε) (h : Matches log t j)
    (hlog : ∀ k {s a s'}, (run k).run s = .ok (a, s') → log s' = log s ++ effect k)
    (cs : List (Command κ)) :
    Matches log (exec refused (atomic refused run) cs t).2
      (Journal.notes effect cs (exec refused (atomic refused run) cs t).1 j) := by
  induction cs generalizing t j with
  | nil => exact h
  | cons c cs ih => exact ih (h.step refused hlog c)

/-- What a commit leaves is what the client has concluded. -/
theorem Matches.commit (h : Matches log t j) : log t.commit = log t.start ++ j.kept := by
  rw [Transaction.commit, Journal.kept, h.live]
  cases hcurrent : t.current with
  | none => exact (List.append_nil _).symm
  | some s => exact h.current s hcurrent

end

end Transaction
