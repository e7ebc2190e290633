import Mathlib.Tactic.Common

/-!
Loops that can fail: what a `foldlM` over `Except` keeps, when no turn fails and when the whole
loop is known to have ended well.
-/

namespace Xv6.Lib

universe u

/-- A sequence that succeeded: its first part did, and the rest did on its result. -/
theorem bind_eq_ok {ε : Type*} {α β : Type u} {x : Except ε α} {f : α → Except ε β} {b : β} :
    (x >>= f) = .ok b ↔ ∃ a, x = .ok a ∧ f a = .ok b := by
  cases x with
  | error e => exact ⟨nofun, fun ⟨_, h, _⟩ => nomatch h⟩
  | ok a => exact ⟨fun h => ⟨a, rfl, h⟩, fun ⟨_, h, hf⟩ => Except.ok.inj h ▸ hf⟩

/-- A sequence that failed: its first part did, or the rest did on its result. -/
theorem bind_eq_error {ε : Type*} {α β : Type u} {x : Except ε α} {f : α → Except ε β} {e : ε} :
    (x >>= f) = .error e ↔ x = .error e ∨ ∃ a, x = .ok a ∧ f a = .error e := by
  cases x with
  | error e' => exact ⟨fun h => .inl (by cases h; rfl), fun h => h.elim (fun h => by cases h; rfl) nofun⟩
  | ok a =>
    exact ⟨fun h => .inr ⟨a, rfl, h⟩, fun h => h.elim nofun fun ⟨_, h, hf⟩ => Except.ok.inj h ▸ hf⟩

variable {σ α ε : Type*} {f : σ → α → Except ε σ}

/-- If every turn succeeds and keeps `P`, so does the loop. -/
theorem foldlM_ok {P : σ → Prop} :
    ∀ {l : List α}, (∀ s, ∀ a ∈ l, P s → ∃ s', f s a = .ok s' ∧ P s') →
      ∀ {s : σ}, P s → ∃ s', l.foldlM f s = .ok s' ∧ P s'
  | [], _, s, hs => ⟨s, rfl, hs⟩
  | a :: l, hf, s, hs => by
    obtain ⟨t, ht, hPt⟩ := hf s a List.mem_cons_self hs
    obtain ⟨s', hs', hP⟩ := foldlM_ok (fun s b (hb : b ∈ l) => hf s b (.tail a hb)) hPt
    refine ⟨s', ?_, hP⟩
    rw [List.foldlM_cons, ht]
    exact hs'

/-- A loop that succeeded relates its ends by any preorder that relates those of each turn. -/
theorem foldlM_rel {r : σ → σ → Prop} (hrefl : ∀ s, r s s) (htrans : ∀ {s t u}, r s t → r t u → r s u)
    (hf : ∀ {s a s'}, f s a = .ok s' → r s s') :
    ∀ (l : List α) {s s' : σ}, l.foldlM f s = .ok s' → r s s'
  | [], s, s', h => by
    cases h
    exact hrefl s
  | a :: l, s, s', h => by
    rw [List.foldlM_cons] at h
    cases ht : f s a with
    | error e => rw [ht] at h; cases h
    | ok t =>
      rw [ht] at h
      exact htrans (hf ht) (foldlM_rel hrefl htrans hf l h)

/-- What the turns of a loop log, one after the other, as long as they succeed. -/
def foldLog {β : Type*} (f : σ → α → Except ε σ) (g : σ → α → List β) : List α → σ → List β
  | [], _ => []
  | a :: l, s => g s a ++ match f s a with
    | .ok s' => foldLog f g l s'
    | .error _ => []

/-- What every turn keeps, with its log, a loop that succeeded has kept. -/
theorem foldlM_log {β : Type*} {g : σ → α → List β} {P : List β → σ → Prop} {l : List α}
    (hf : ∀ {log s s'}, ∀ a ∈ l, f s a = .ok s' → P log s → P (log ++ g s a) s') {s s' : σ}
    (h : l.foldlM f s = .ok s') (hs : P [] s) : P (foldLog f g l s) s' := by
  induction l generalizing P s with
  | nil =>
    cases h
    exact hs
  | cons a l ih =>
    rw [List.foldlM_cons] at h
    obtain ⟨t, ht, h⟩ := bind_eq_ok.1 h
    have hrest : P (g s a ++ foldLog f g l t) s' := by
      refine ih (P := fun log => P (g s a ++ log)) (fun b hb hx hP => ?_) h ?_
      · rw [← List.append_assoc]
        exact hf b (.tail a hb) hx hP
      · rw [List.append_nil]
        exact hf a List.mem_cons_self ht hs
    simpa only [foldLog, ht] using hrest

/-- A loop that keeps a candidate or replaces it by the current element, if that element has `P`,
ends with a candidate that has `P`. -/
theorem foldl_select {μ : Type*} {g : μ → α → μ} (sel : μ → Option α) {P : α → Prop}
    (hg : ∀ m a, sel (g m a) = sel m ∨ sel (g m a) = some a ∧ P a) :
    ∀ (l : List α) {m : μ}, (∀ a, sel m = some a → P a) → ∀ {a}, sel (l.foldl g m) = some a → P a
  | [], _, hm, a, ha => hm a ha
  | r :: l, m, hm, a, ha => by
    refine foldl_select sel hg l (m := g m r) (fun s hs => ?_) ha
    rcases hg m r with h | ⟨h, hr⟩
    · exact hm s (h ▸ hs)
    · obtain rfl : r = s := Option.some.inj (h ▸ hs)
      exact hr

end Xv6.Lib
