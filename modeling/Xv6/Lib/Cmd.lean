import Xv6.Lib.Fold

/-!
# Programs over an interface

A program calls the operations of an interface and goes on with what they answer. What the operations
do is not part of it: a layer says that, for states of its own, so that one program can be run on
several layers. A program has faults of its own, which the layer turns into its own. What a layer
keeps with each operation it keeps with each program, and a layer that follows another one operation
by operation, unless an operation goes wrong, follows it program by program, up to such an operation.
-/

namespace Xv6.Lib

/-- Programs with results in `α` and faults in `ε` over the operations `A`, where `a` is answered by
an `R a`. -/
inductive Cmd (A : Type) (R : A → Type) (ε α : Type) : Type
  | ret (x : α)
  | fail (e : ε)
  | op (a : A) (k : R a → Cmd A R ε α)

/-- What the operations `A` do to the states `σ`, and what the faults `ε` of programs mean there. -/
structure Layer (A : Type) (R : A → Type) (ε φ σ : Type) where
  exec : (a : A) → σ → Except φ (R a × σ)
  fault : ε → φ

namespace Cmd

variable {A : Type} {R : A → Type} {ε φ σ τ α β : Type}

protected def bind : Cmd A R ε α → (α → Cmd A R ε β) → Cmd A R ε β
  | ret x, f => f x
  | fail e, _ => fail e
  | op a k, f => op a fun r => (k r).bind f

instance : Monad (Cmd A R ε) where
  pure := ret
  bind := Cmd.bind

def call (a : A) : Cmd A R ε (R a) := op a ret

def run (L : Layer A R ε φ σ) : Cmd A R ε α → σ → Except φ (α × σ)
  | ret x, s => .ok (x, s)
  | fail e, _ => .error (L.fault e)
  | op a k, s =>
    match L.exec a s with
    | .ok (r, s') => (k r).run L s'
    | .error e => .error e

variable {L : Layer A R ε φ σ}

theorem run_fail (e : ε) (s : σ) : (fail e : Cmd A R ε α).run L s = .error (L.fault e) := rfl

theorem run_call (a : A) (s : σ) : (call a : Cmd A R ε (R a)).run L s = L.exec a s := by
  unfold call run
  cases L.exec a s <;> rfl

theorem run_bind (m : Cmd A R ε α) (f : α → Cmd A R ε β) (s : σ) :
    (m >>= f).run L s = m.run L s >>= fun x => (f x.1).run L x.2 := by
  induction m generalizing s with
  | ret x => rfl
  | fail e => rfl
  | op a k ih =>
    have hop : (op a k >>= f) = op a fun r => k r >>= f := rfl
    rw [hop, run, run]
    cases L.exec a s with
    | error e => rfl
    | ok x => exact ih x.1 x.2

theorem run_keeps {I : σ → Prop} (hI : ∀ a s r s', I s → L.exec a s = .ok (r, s') → I s')
    {m : Cmd A R ε α} {s s' : σ} {x : α} (hs : I s) (h : m.run L s = .ok (x, s')) : I s' := by
  induction m generalizing s with
  | ret y =>
    cases h
    exact hs
  | fail e => cases h
  | op a k ih =>
    unfold run at h
    split at h
    · rename_i r s₁ ha
      exact ih r (hI a s r s₁ hs ha) h
    · cases h

/-- The faults of a run are those of programs and those of the operations. -/
theorem run_error {I : σ → Prop} {E : φ → Prop}
    (hI : ∀ a s r s', I s → L.exec a s = .ok (r, s') → I s')
    (hE : ∀ a s e, I s → L.exec a s = .error e → E e) (hL : ∀ e, E (L.fault e))
    {m : Cmd A R ε α} {s : σ} {e : φ} (hs : I s) (h : m.run L s = .error e) : E e := by
  induction m generalizing s with
  | ret y => cases h
  | fail e' =>
    cases h
    exact hL e'
  | op a k ih =>
    unfold run at h
    split at h
    · rename_i r s₁ ha
      exact ih r (hI a s r s₁ hs ha) h
    · rename_i e' ha
      cases h
      exact hE a s e hs ha

/-- A run from `s` comes to the operation `a`, in the state `t`. -/
inductive Reaches (L : Layer A R ε φ σ) : Cmd A R ε α → σ → A → σ → Prop
  | here {a : A} {k : R a → Cmd A R ε α} {s : σ} : Reaches L (op a k) s a s
  | next {a b : A} {k : R a → Cmd A R ε α} {s s' t : σ} {r : R a} (h : L.exec a s = .ok (r, s'))
      (hk : Reaches L (k r) s' b t) : Reaches L (op a k) s b t

/-- A run of one program after another comes to the operations of the first one, and, when it has ended, to those
of the second one. -/
theorem Reaches.of_bind {m : Cmd A R ε α} {f : α → Cmd A R ε β} {s t : σ} {a : A} (h : (m >>= f).Reaches L s a t) :
    m.Reaches L s a t ∨ ∃ x s', m.run L s = .ok (x, s') ∧ (f x).Reaches L s' a t := by
  induction m generalizing s with
  | ret x => exact .inr ⟨x, s, rfl, h⟩
  | fail e => cases h
  | op b k ih =>
    cases h with
    | here => exact .inl .here
    | next hb hk =>
      refine (ih _ hk).imp (.next hb) fun ⟨x, s', hx, hf⟩ => ⟨x, s', ?_, hf⟩
      rw [run, hb]
      exact hx

theorem Reaches.of_call {a b : A} {s t : σ} (h : (call a : Cmd A R ε (R a)).Reaches L s b t) : b = a ∧ t = s := by
  cases h with
  | here => exact ⟨rfl, rfl⟩
  | next _ hk => cases hk

/-- All operations of the program are `ok`, whatever the answers are. -/
def Calls (ok : A → Prop) : Cmd A R ε α → Prop
  | ret _ => True
  | fail _ => True
  | op a k => ok a ∧ ∀ r, (k r).Calls ok

section calls

variable {ok ok' : A → Prop} {m m' : Cmd A R ε α} {f : α → Cmd A R ε β} {s t : σ} {a : A}

theorem Calls.call (h : ok a) : (call a : Cmd A R ε (R a)).Calls ok := ⟨h, fun _ => trivial⟩

theorem Calls.bind (hm : m.Calls ok) (hf : ∀ x, (f x).Calls ok) : (m >>= f).Calls ok := by
  induction m with
  | ret x => exact hf x
  | fail e => exact trivial
  | op a k ih => exact ⟨hm.1, fun r => ih r (hm.2 r)⟩

theorem Calls.ite {c : Prop} [Decidable c] (h : m.Calls ok) (h' : m'.Calls ok) : (if c then m else m').Calls ok := by
  split
  · exact h
  · exact h'

theorem Calls.mono (hm : m.Calls ok) (h : ∀ a, ok a → ok' a) : m.Calls ok' := by
  induction m with
  | ret x => exact trivial
  | fail e => exact trivial
  | op a k ih => exact ⟨h a hm.1, fun r => ih r (hm.2 r)⟩

theorem Calls.reaches (hm : m.Calls ok) (h : m.Reaches L s a t) : ok a := by
  induction h with
  | here => exact hm.1
  | next _ _ ih => exact ih (hm.2 _)

theorem Calls.keeps {I : σ → Prop} (hm : m.Calls ok) (hI : ∀ a s r s', ok a → I s → L.exec a s = .ok (r, s') → I s')
    {x : α} (hs : I s) (h : m.run L s = .ok (x, t)) : I t := by
  induction m generalizing s with
  | ret y =>
    cases h
    exact hs
  | fail e => cases h
  | op a k ih =>
    unfold run at h
    split at h
    · rename_i r s₁ ha
      exact ih r (hm.2 r) (hI a s r s₁ hm.1 hs ha) h
    · cases h

end calls

/-- From a state with `P` the program ends with a result and a state as `Q` says, or goes wrong as `E`
says. -/
def After (L : Layer A R ε φ σ) (P : σ → Prop) (m : Cmd A R ε α) (Q : α → σ → Prop)
    (E : φ → Prop := fun _ => True) : Prop :=
  ∀ ⦃s⦄, P s → match m.run L s with
    | .ok (x, s') => Q x s'
    | .error e => E e

section after

variable {P P' : σ → Prop} {Q Q' : α → σ → Prop} {Q₂ : β → σ → Prop} {m m' : Cmd A R ε α}
  {f : α → Cmd A R ε β} {E E' : φ → Prop}

theorem After.ok (h : After L P m Q E) {s s' : σ} {x : α} (hs : P s) (hr : m.run L s = .ok (x, s')) :
    Q x s' := by
  have := h hs
  rwa [hr] at this

theorem After.error (h : After L P m Q E) {s : σ} {e : φ} (hs : P s) (hr : m.run L s = .error e) :
    E e := by
  have := h hs
  rwa [hr] at this

theorem After.of_run (h : ∀ s x s', P s → m.run L s = .ok (x, s') → Q x s')
    (he : ∀ s e, P s → m.run L s = .error e → E e) : After L P m Q E := by
  intro s hs
  cases hr : m.run L s with
  | error e => exact he s e hs hr
  | ok y => exact h s y.1 y.2 hs hr

theorem After.of_ok (h : ∀ s x s', P s → m.run L s = .ok (x, s') → Q x s') : After L P m Q :=
  .of_run h fun _ _ _ _ => trivial

theorem After.pure {x : α} (h : ∀ s, P s → Q x s) : After L P (pure x) Q E := fun s hs => h s hs

theorem After.fail {e : ε} (h : E (L.fault e)) : After L P (fail e) Q E := fun _ _ => h

theorem After.stop {e : ε} : After L P (Cmd.fail e) Q := .fail trivial

theorem After.call {a : A} {Q : R a → σ → Prop}
    (h : ∀ s r s', P s → L.exec a s = .ok (r, s') → Q r s')
    (he : ∀ s e, P s → L.exec a s = .error e → E e) :
    After L P (call a) Q E :=
  .of_run (fun s r s' hs hr => h s r s' hs (run_call a s ▸ hr)) fun s e hs hr =>
    he s e hs (run_call a s ▸ hr)

theorem After.call_ok {a : A} {Q : R a → σ → Prop}
    (h : ∀ s r s', P s → L.exec a s = .ok (r, s') → Q r s') : After L P (Cmd.call a) Q :=
  After.call h fun _ _ _ _ => trivial

theorem After.bind (hm : After L P m Q E) (hf : ∀ x, After L (Q x) (f x) Q₂ E) :
    After L P (m >>= f) Q₂ E := by
  intro s hs
  have h := hm hs
  rw [run_bind]
  cases hr : m.run L s with
  | error e =>
    rw [hr] at h
    exact h
  | ok y =>
    rw [hr] at h
    exact hf y.1 h

theorem After.ite {c : Prop} [Decidable c] (h : c → After L P m Q E) (h' : ¬ c → After L P m' Q E) :
    After L P (if c then m else m') Q E := by
  split
  · exact h (by assumption)
  · exact h' (by assumption)

theorem After.weaken (hm : After L P m Q E) (hP : ∀ s, P' s → P s) (hQ : ∀ x s, Q x s → Q' x s) :
    After L P' m Q' E :=
  .of_run (fun _ _ _ hs hr => hQ _ _ (hm.ok (hP _ hs) hr)) fun _ _ hs hr => hm.error (hP _ hs) hr

theorem After.pre {p : Prop} (h : p → After L P m Q E) : After L (fun s => P s ∧ p) m Q E :=
  fun _ hs => h hs.2 hs.1

end after

end Cmd

section follows

variable {A : Type} {R : A → Type} {ε φ σ τ α : Type} {L : Layer A R ε φ σ} {L' : Layer A R ε φ τ}

/-- The layer `L'` does what `L` does, in states related by `Rel`, unless `L` goes wrong as `E` says of the operation
and the state. -/
structure Layer.Follows (L : Layer A R ε φ σ) (L' : Layer A R ε φ τ) (Rel : σ → τ → Prop)
    (E : A → σ → φ → Prop) : Prop where
  exec : ∀ a s t, Rel s t → match L.exec a s with
    | .ok (r, s') => ∃ t', L'.exec a t = .ok (r, t') ∧ Rel s' t'
    | .error e => L'.exec a t = .error e ∨ E a s e
  fault : L'.fault = L.fault

/-- **A layer that follows another one by operations follows it by programs.** -/
theorem Layer.Follows.run {Rel : σ → τ → Prop} {E : A → σ → φ → Prop} (hL : L.Follows L' Rel E)
    (m : Cmd A R ε α) {s : σ} {t : τ} (h : Rel s t) :
    match m.run L s with
    | .ok (x, s') => ∃ t', m.run L' t = .ok (x, t') ∧ Rel s' t'
    | .error e => m.run L' t = .error e ∨ ∃ a s', m.Reaches L s a s' ∧ E a s' e := by
  induction m generalizing s t with
  | ret x => exact ⟨t, rfl, h⟩
  | fail e => exact .inl (by rw [Cmd.run_fail, hL.fault])
  | op a k ih =>
    have ha := hL.exec a s t h
    rw [Cmd.run, Cmd.run]
    cases hs : L.exec a s with
    | error e =>
      rw [hs] at ha
      rcases ha with ha | ha
      · exact .inl (by rw [ha])
      · exact .inr ⟨a, s, .here, ha⟩
    | ok x =>
      rw [hs] at ha
      obtain ⟨t', ht, hrel⟩ := ha
      have hrun := ih x.1 hrel
      rw [ht]
      dsimp only
      split
      · rename_i hx
        rw [hx] at hrun
        exact hrun
      · rename_i hx
        rw [hx] at hrun
        exact hrun.imp_right fun ⟨b, s', hb, he⟩ => ⟨b, s', .next hs hb, he⟩

end follows

end Xv6.Lib
