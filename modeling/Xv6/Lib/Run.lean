import Mathlib.Tactic.Common

/-!
# Runs of a labelled transition system

A run is kept with its *history*, the labels of its steps with the newest first: what a claim
about a whole run has to speak of (how often something happened, what happened since) is then a
function of the history and not a field of the state.
-/

namespace Xv6.Lib

variable {σ ℓ : Type*}

/-- The runs of the step relation `R` from `s₀`: the history, newest label first, and the state
reached. -/
inductive Run (R : σ → ℓ → σ → Prop) (s₀ : σ) : List ℓ → σ → Prop
  | start : Run R s₀ [] s₀
  | step {h : List ℓ} {s : σ} {a : ℓ} {s' : σ} : Run R s₀ h s → R s a s' → Run R s₀ (a :: h) s'

namespace Run

variable {R S : σ → ℓ → σ → Prop} {s₀ s : σ} {h : List ℓ}

/-- **The invariant rule.** What holds at the start and is kept by every step out of a state that
some run reaches holds wherever a run ends. -/
theorem invariant {P : List ℓ → σ → Prop} (hr : Run R s₀ h s) (h0 : P [] s₀)
    (hstep : ∀ {h s a s'}, Run R s₀ h s → P h s → R s a s' → P (a :: h) s') : P h s := by
  induction hr with
  | start => exact h0
  | step hr ha ih => exact hstep hr ih ha

theorem mono (hr : Run R s₀ h s) (hRS : ∀ {s a s'}, R s a s' → S s a s') : Run S s₀ h s := by
  induction hr with
  | start => exact .start
  | step _ ha ih => exact .step ih (hRS ha)

theorem append {s' : σ} {h' : List ℓ} (hr : Run R s₀ h s) (hr' : Run R s h' s') : Run R s₀ (h' ++ h) s' := by
  induction hr' with
  | start => exact hr
  | step _ ha ih => exact .step ih ha

/-- A list of labels that an executable step function follows to its end is a run. -/
theorem of_foldlM {f : σ → ℓ → Option σ} (hf : ∀ {s a s'}, f s a = some s' → R s a s') :
    ∀ {as : List ℓ} {h : List ℓ} {s s' : σ}, Run R s₀ h s → as.foldlM f s = some s' →
      Run R s₀ (as.reverse ++ h) s'
  | [], h, s, s', hr, he => by
    simp only [List.foldlM_nil, Option.pure_def, Option.some.injEq] at he
    subst he
    simpa using hr
  | a :: as, h, s, s', hr, he => by
    simp only [List.foldlM_cons, Option.bind_eq_bind, Option.bind_eq_some_iff] at he
    obtain ⟨t, ht, he⟩ := he
    have := of_foldlM hf (.step hr (hf ht)) he
    simpa using this

end Run

end Xv6.Lib
