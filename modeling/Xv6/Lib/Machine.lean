import Xv6.Lib.Run

/-!
# Machines

A machine says which acts can be taken in a state and what an act does there: it may fail, and
otherwise answers with a new state and an output. Its steps are labelled by the act and the output,
so that a history tells all that happened.
-/

namespace Xv6.Lib

/-- A machine with states `σ`, acts `α`, outputs `ω` and faults `ε`. -/
structure Machine (σ α ω ε : Type*) where
  init : σ
  enabled : σ → α → Bool
  exec : σ → α → Except ε (σ × ω)

namespace Machine

variable {σ α ω ε : Type*} (M : Machine σ α ω ε)

/-- **The step relation.** -/
def Step (s : σ) (e : α × ω) (s' : σ) : Prop :=
  M.enabled s e.1 = true ∧ M.exec s e.1 = .ok (s', e.2)

/-- The steps whose act meets the condition `g` on the state it starts from. -/
def Guarded (g : σ → α → Bool) (s : σ) (e : α × ω) (s' : σ) : Prop :=
  M.Step s e s' ∧ g s e.1 = true

abbrev Runs : List (α × ω) → σ → Prop := Run M.Step M.init

/-- The runs whose steps all meet `g`. -/
abbrev GuardedRuns (g : σ → α → Bool) : List (α × ω) → σ → Prop := Run (M.Guarded g) M.init

variable {M}

/-! ### Ghost state -/

/-- The machine with a ghost state next to its own, which follows the steps and decides nothing. -/
def ghost {γ : Type*} (M : Machine σ α ω ε) (g₀ : γ) (f : γ → σ → α → γ) : Machine (σ × γ) α ω ε where
  init := (M.init, g₀)
  enabled s a := M.enabled s.1 a
  exec s a := (M.exec s.1 a).map fun r => ((r.1, f s.2 s.1 a), r.2)

theorem ghost_step {γ : Type*} {g₀ : γ} {f : γ → σ → α → γ} {s s' : σ} {g g' : γ} {e : α × ω} :
    (M.ghost g₀ f).Step (s, g) e (s', g') ↔ M.Step s e s' ∧ g' = f g s e.1 := by
  unfold Step ghost
  dsimp only
  cases hx : M.exec s e.1 with
  | error x => simp [Except.map]
  | ok r =>
    simp only [Except.map, Except.ok.injEq, Prod.ext_iff]
    grind

theorem Runs.exists_ghost {γ : Type*} (g₀ : γ) (f : γ → σ → α → γ) {h : List (α × ω)} {s : σ}
    (hr : M.Runs h s) : ∃ g, (M.ghost g₀ f).Runs h (s, g) := by
  induction hr with
  | start => exact ⟨g₀, .start⟩
  | step _ hst ih =>
    obtain ⟨g, hg⟩ := ih
    exact ⟨_, .step hg (ghost_step.2 ⟨hst, rfl⟩)⟩

variable [DecidableEq ω]

def step? (M : Machine σ α ω ε) (s : σ) (e : α × ω) : Option σ :=
  if M.enabled s e.1 then
    match M.exec s e.1 with
    | .ok (s', o) => if o = e.2 then some s' else none
    | .error _ => none
  else none

theorem step?_step {s s' : σ} {e : α × ω} (h : M.step? s e = some s') : M.Step s e s' := by
  unfold step? at h
  split at h
  · rename_i he
    refine ⟨he, ?_⟩
    split at h
    · split at h
      · rename_i hx ho
        cases h
        rw [hx, ho]
      · exact absurd h (by simp)
    · exact absurd h (by simp)
  · exact absurd h (by simp)

/-- Follow the events `es` from the initial state, oldest first, as long as they meet `g`. -/
def follow (M : Machine σ α ω ε) (g : σ → α → Bool) (es : List (α × ω)) : Option σ :=
  es.foldlM (fun s e => if g s e.1 then M.step? s e else none) M.init

/-- Events that can be followed to a state with `P` are a run to such a state. -/
theorem exists_guarded (M : Machine σ α ω ε) (g : σ → α → Bool) (es : List (α × ω)) (P : σ → Bool)
    (h : (M.follow g es).any P = true) : ∃ s, M.GuardedRuns g es.reverse s ∧ P s = true := by
  obtain ⟨s, hs, hP⟩ := (Option.any_eq_true ..).1 h
  refine ⟨s, ?_, hP⟩
  simpa using Run.of_foldlM (R := M.Guarded g) (fun {s e s'} he => by
    split at he
    · rename_i hg
      exact ⟨step?_step he, hg⟩
    · cases he) .start hs

theorem exists_runs (M : Machine σ α ω ε) (es : List (α × ω)) (P : σ → Bool)
    (h : (M.follow (fun _ _ => true) es).any P = true) :
    ∃ s, M.Runs es.reverse s ∧ P s = true := by
  obtain ⟨s, hr, hP⟩ := M.exists_guarded _ es P h
  exact ⟨s, hr.mono fun hst => hst.1, hP⟩

end Machine

end Xv6.Lib
