/-
# `Reliar.Lib.Machine` — runs of labelled transition systems

A system is a step relation `step s e s'`: in state `s`, event `e` may lead to
`s'`.  A run is a `Path`, extended at the end, so that its label list is the
history of the state it ends in.

An executable system is a partial function `next : σ → ε → Option σ`; `exec`
runs it along a list of events, and `path_of_exec` turns a successful execution
into a path.  Safety proofs work on paths (`Path.inv`), concrete runs are
evaluated by `exec`.
-/
import Mathlib

namespace Machine

variable {σ ε : Type}

/-- Finite runs.  The labels, oldest first, are the history of the last state. -/
inductive Path (step : σ → ε → σ → Prop) : σ → List ε → σ → Prop
  | nil (s : σ) : Path step s [] s
  | snoc {s s' s'' : σ} {es : List ε} {e : ε} :
      Path step s es s' → step s' e s'' → Path step s (es ++ [e]) s''

section
variable {step : σ → ε → σ → Prop}

/-- An invariant of every step is an invariant of every run. -/
theorem Path.inv {P : σ → Prop} (hstep : ∀ {s e s'}, P s → step s e s' → P s')
    {s s' : σ} {es : List ε} (h : Path step s es s') (h₀ : P s) : P s' := by
  induction h with
  | nil => exact h₀
  | snoc _ he ih => exact hstep ih he

theorem Path.append {s s' s'' : σ} {es fs : List ε} (h : Path step s es s')
    (k : Path step s' fs s'') : Path step s (es ++ fs) s'' := by
  induction k with
  | nil => simpa using h
  | snoc _ he ih => rw [← List.append_assoc]; exact .snoc ih he

theorem Path.single {s s' : σ} {e : ε} (h : step s e s') : Path step s [e] s' :=
  .snoc (.nil s) h

theorem Path.cons {s s' s'' : σ} {e : ε} {es : List ε} (h : step s e s')
    (k : Path step s' es s'') : Path step s (e :: es) s'' :=
  (Path.single h).append k

theorem Path.eq_of_nil {s s' : σ} (h : Path step s [] s') : s = s' := by
  generalize hl : ([] : List ε) = l at h
  cases h with
  | nil => rfl
  | snoc => simp at hl

theorem Path.uncons {s s'' : σ} {e : ε} {es : List ε} (h : Path step s (e :: es) s'') :
    ∃ s', step s e s' ∧ Path step s' es s'' := by
  generalize hl : e :: es = l at h
  induction h generalizing es with
  | nil => cases hl
  | @snoc s₁ s₂ fs f hp hf ih =>
      rcases List.cons_eq_append_iff.mp hl with ⟨rfl, hfs⟩ | ⟨gs, rfl, rfl⟩
      · cases hfs
        cases hp.eq_of_nil
        exact ⟨_, hf, .nil _⟩
      · obtain ⟨s', h₁, h₂⟩ := ih rfl
        exact ⟨s', h₁, h₂.snoc hf⟩

/-- Weakening the step relation. -/
theorem Path.mono {step' : σ → ε → σ → Prop} (hw : ∀ {s e s'}, step s e s' → step' s e s')
    {s s' : σ} {es : List ε} (h : Path step s es s') : Path step' s es s' := by
  induction h with
  | nil => exact .nil _
  | snoc _ he ih => exact .snoc ih (hw he)

end

/-! ## Executable systems -/

/-- The step relation of a partial step function. -/
def Next (next : σ → ε → Option σ) (s : σ) (e : ε) (s' : σ) : Prop := next s e = some s'

/-- Runs `next` along a list of events. -/
def exec (next : σ → ε → Option σ) : σ → List ε → Option σ
  | s, [] => some s
  | s, e :: es => (next s e).bind fun s' => exec next s' es

theorem exec_append (next : σ → ε → Option σ) :
    ∀ (s : σ) (es fs : List ε),
      exec next s (es ++ fs) = (exec next s es).bind fun s' => exec next s' fs
  | _, [], _ => rfl
  | s, e :: es, fs => by
      show (next s e).bind _ = ((next s e).bind _).bind _
      cases next s e with
      | none => rfl
      | some s' => exact exec_append next s' es fs

theorem path_of_exec {next : σ → ε → Option σ} :
    ∀ {s s' : σ} {es : List ε}, exec next s es = some s' → Path (Next next) s es s'
  | s, s', [], h => by
      have h' : some s = some s' := h
      cases h'
      exact .nil s
  | s, s', e :: es, h => by
      have h' : (next s e).bind (fun s₁ => exec next s₁ es) = some s' := h
      obtain ⟨s₁, h₁, h₂⟩ := Option.bind_eq_some_iff.mp h'
      exact .cons h₁ (path_of_exec h₂)

theorem exec_of_path {next : σ → ε → Option σ} {s s' : σ} {es : List ε}
    (h : Path (Next next) s es s') : exec next s es = some s' := by
  induction h with
  | nil => rfl
  | @snoc s₁ s₂ es e _ he ih =>
      have he' : next s₁ e = some s₂ := he
      simp only [exec_append, ih, Option.bind_some, exec, he']

/-- The state a list of events leads to; `s` itself if some event is refused. -/
def reach (next : σ → ε → Option σ) (s : σ) (es : List ε) : σ := (exec next s es).getD s

theorem path_reach {next : σ → ε → Option σ} {s : σ} {es : List ε}
    (h : (exec next s es).isSome = true) : Path (Next next) s es (reach next s es) := by
  obtain ⟨s', hs'⟩ := Option.isSome_iff_exists.mp h
  rw [reach, hs']
  exact path_of_exec hs'

/-! ## What is seen along a run -/

/-- What `look` sees in the events of a run, each in the state it happens in. -/
def observed {β : Type} (next : σ → ε → Option σ) (look : σ → ε → Option β) : σ → List ε → List β
  | _, [] => []
  | s, e :: es =>
      (look s e).toList ++
        match next s e with
        | some s' => observed next look s' es
        | none => []

theorem observed_snoc {β : Type} {next : σ → ε → Option σ} (look : σ → ε → Option β) {s s' : σ}
    {es : List ε} (e : ε) (h : Path (Next next) s es s') :
    observed next look s (es ++ [e]) = observed next look s es ++ (look s' e).toList := by
  induction es generalizing s with
  | nil =>
      cases h.eq_of_nil
      simp only [List.nil_append, observed]
      split <;> exact List.append_nil _
  | cons f es ih =>
      obtain ⟨s₁, hf, hes⟩ := h.uncons
      have hf' : next s f = some s₁ := hf
      simp only [List.cons_append, observed, hf', ih hes, List.append_assoc]

end Machine
