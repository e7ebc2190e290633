import Mathlib.Tactic.Common

/-!
# Programs over a state that can fail

A program runs on a state, which it keeps even when it fails. A triple says that the program does
not fail, and what holds of its result and of the state that it leaves; a loop has a bound on its
turns, and the rule for it asks for a variant below the bound, so that a triple also says that the
loop comes to its end.
-/

namespace Xv6.Lib

/-- Programs over the states `σ` with the faults `ε`. -/
abbrev Prog (σ ε α : Type) := ExceptT ε (StateM σ) α

namespace Prog

variable {σ ε α β γ : Type}

def eval (m : Prog σ ε α) (s : σ) : Except ε α × σ := StateT.run (ExceptT.run m) s

/-- From a state with `P`, the program succeeds with a result and a state as `Q` says. -/
def Triple (P : σ → Prop) (m : Prog σ ε α) (Q : α → σ → Prop) : Prop :=
  ∀ s, P s → ∃ a s', m.eval s = (.ok a, s') ∧ Q a s'

theorem eval_pure (a : α) (s : σ) : (pure a : Prog σ ε α).eval s = (.ok a, s) := rfl

theorem eval_bind {m : Prog σ ε α} {f : α → Prog σ ε β} {s t : σ} {a : α}
    (h : m.eval s = (.ok a, t)) : (m >>= f).eval s = (f a).eval t := by
  show (ExceptT.run (m >>= f)).run s = _
  rw [ExceptT.run_bind, StateT.run_bind, show (ExceptT.run m).run s = (.ok a, t) from h]
  rfl

theorem eval_bind_error {m : Prog σ ε α} {f : α → Prog σ ε β} {s t : σ} {e : ε}
    (h : m.eval s = (.error e, t)) : (m >>= f).eval s = (.error e, t) := by
  show (ExceptT.run (m >>= f)).run s = _
  rw [ExceptT.run_bind, StateT.run_bind, show (ExceptT.run m).run s = (.error e, t) from h]
  rfl

theorem throw_bind (e : ε) (f : α → Prog σ ε β) : (throw e >>= f : Prog σ ε β) = throw e := rfl

theorem eval_bind_congr {m m' : Prog σ ε α} {f : α → Prog σ ε β} {s : σ} (h : m.eval s = m'.eval s) :
    (m >>= f).eval s = (m' >>= f).eval s := by
  rcases hm : m'.eval s with ⟨e | a, t⟩
  · rw [eval_bind_error (h.trans hm), eval_bind_error hm]
  · rw [eval_bind (h.trans hm), eval_bind hm]

variable {P A : σ → Prop} {Q B : α → σ → Prop} {R : β → σ → Prop} {m : Prog σ ε α}

theorem Triple.pure {a : α} (h : ∀ s, P s → Q a s) : Triple P (pure a : Prog σ ε α) Q :=
  fun s hs => ⟨a, s, eval_pure a s, h s hs⟩

theorem Triple.bind {f : α → Prog σ ε β} (hm : Triple P m Q) (hf : ∀ a, Triple (Q a) (f a) R) :
    Triple P (m >>= f) R := by
  intro s hs
  obtain ⟨a, s₁, h₁, hq⟩ := hm s hs
  obtain ⟨b, s₂, h₂, hr⟩ := hf a s₁ hq
  exact ⟨b, s₂, (eval_bind h₁).trans h₂, hr⟩

theorem Triple.weaken (hm : Triple P m Q) (hP : ∀ s, A s → P s) (hQ : ∀ a s, Q a s → B a s) :
    Triple A m B := by
  intro s hs
  obtain ⟨a, s', h, hq⟩ := hm s (hP s hs)
  exact ⟨a, s', h, hQ a s' hq⟩

/-- A fact about the state before that does not depend on the state may be used as a hypothesis. -/
theorem Triple.of_imp {φ : Prop} (h : φ → Triple P m Q) : Triple (fun s => φ ∧ P s) m Q :=
  fun s hs => h hs.1 s hs.2

/-- Some value of the state before. -/
theorem Triple.exists {ι : Type*} {P : ι → σ → Prop} (h : ∀ i, Triple (P i) m Q) :
    Triple (fun s => ∃ i, P i s) m Q :=
  fun s hs => hs.elim fun i hi => h i s hi

/-- A bounded loop: a turn goes on with a new value or ends with a result. -/
def loop (e : ε) (f : α → Prog σ ε (α ⊕ β)) : ℕ → α → Prog σ ε β
  | 0, _ => throw e
  | n + 1, a => do
    match ← f a with
    | .inl a' => loop e f n a'
    | .inr b => pure b

/-- **The rule for loops**: every turn keeps the invariant `I` and makes the variant `v` smaller, or
ends with `R`. -/
theorem Triple.loop {e : ε} {f : α → Prog σ ε (α ⊕ β)} {I : α → σ → Prop} {v : α → ℕ}
    (hf : ∀ a, Triple (I a) (f a) fun
      | .inl a', s => I a' s ∧ v a' < v a
      | .inr b, s => R b s) :
    ∀ {n : ℕ} {a : α}, v a < n → Triple (I a) (Prog.loop e f n a) R
  | n + 1, a, hn => by
    refine (hf a).bind fun r => ?_
    cases r with
    | inl a' =>
      intro s hs
      exact Triple.loop hf (by omega : v a' < n) s hs.1
    | inr b => exact Triple.pure fun s hs => hs

/-! ### Programs that may fail -/

/-- From a state with `P` the program succeeds as `Q` says, or fails as `E` says. -/
def After (P : σ → Prop) (m : Prog σ ε α) (Q : α → σ → Prop) (E : ε → σ → Prop) : Prop :=
  ∀ s, P s → match m.eval s with
    | (.ok a, t) => Q a t
    | (.error e, t) => E e t

variable {E : ε → σ → Prop}

theorem Triple.after (h : Triple P m Q) : After P m Q E := by
  intro s hs
  obtain ⟨a, t, hm, hq⟩ := h s hs
  rw [hm]
  exact hq

theorem After.throw {e : ε} (h : ∀ s, P s → E e s) : After P (throw e : Prog σ ε α) Q E :=
  fun s hs => h s hs

theorem After.pure {a : α} (h : ∀ s, P s → Q a s) : After P (pure a : Prog σ ε α) Q E :=
  fun s hs => h s hs

theorem After.bind {f : α → Prog σ ε β} (hm : After P m Q E) (hf : ∀ a, After (Q a) (f a) R E) :
    After P (m >>= f) R E := by
  intro s hs
  have h := hm s hs
  rcases hr : m.eval s with ⟨e | a, t⟩
  · rw [hr] at h
    rw [eval_bind_error hr]
    exact h
  · rw [hr] at h
    rw [eval_bind hr]
    exact hf a t h

theorem After.weaken (hm : After P m Q E) (hP : ∀ s, A s → P s) (hQ : ∀ a s, Q a s → B a s) :
    After A m B E := by
  intro s hs
  have h := hm s (hP s hs)
  rcases hr : m.eval s with ⟨e | a, t⟩
  · rw [hr] at h
    exact h
  · rw [hr] at h
    exact hQ a t h

theorem After.mono_error {E' : ε → σ → Prop} (hm : After P m Q E) (hE : ∀ e s, E e s → E' e s) :
    After P m Q E' := by
  intro s hs
  have h := hm s hs
  rcases hr : m.eval s with ⟨e | a, t⟩
  · rw [hr] at h
    exact hE e t h
  · rw [hr] at h
    exact h

theorem After.of_imp {φ : Prop} (h : φ → After P m Q E) : After (fun s => φ ∧ P s) m Q E :=
  fun s hs => h hs.1 s hs.2

end Prog

end Xv6.Lib
