import Mathlib.Tactic.Common
import Mathlib.Logic.Function.Basic

/-!
# Writes to a store, and stores cut off in the middle

A store maps places to values; a sequence of writes is performed one after the other. After a
crash the store has seen a prefix of the writes: an invariant that every single write keeps holds
whatever the prefix.
-/

namespace Xv6.Lib

variable {β α : Type*} [DecidableEq β] {ws vs : List (β × α)} {d : β → α}

/-- Perform the writes `ws` in order. -/
def perform (ws : List (β × α)) (d : β → α) : β → α :=
  ws.foldl (fun d w => Function.update d w.1 w.2) d

@[simp] theorem perform_nil : perform ([] : List (β × α)) d = d := rfl

@[simp] theorem perform_cons (w : β × α) :
    perform (w :: ws) d = perform ws (Function.update d w.1 w.2) := rfl

theorem perform_append : perform (ws ++ vs) d = perform vs (perform ws d) :=
  List.foldl_append

/-- A place that is not written keeps its value. -/
theorem perform_other {x : β} (h : x ∉ ws.map Prod.fst) : perform ws d x = d x := by
  induction ws generalizing d with
  | nil => rfl
  | cons w ws ih =>
    simp only [List.map_cons, List.mem_cons, not_or] at h
    rw [perform_cons, ih h.2, Function.update_of_ne h.1]

/-- Writes that all agree with `f` leave `f` in the places written. -/
theorem perform_eq {f : β → α} {x : β} (hf : ∀ w ∈ ws, w.2 = f w.1) (hx : x ∈ ws.map Prod.fst) :
    perform ws d x = f x := by
  induction ws generalizing d with
  | nil => simp at hx
  | cons w ws ih =>
    rw [perform_cons]
    by_cases h : x ∈ ws.map Prod.fst
    · exact ih (fun v hv => hf v (List.mem_cons_of_mem w hv)) h
    · obtain rfl : x = w.1 := by simpa [h] using hx
      rw [perform_other h, Function.update_self, hf w List.mem_cons_self]

/-- **The crash rule.** What every single write keeps, every prefix of the writes keeps. -/
theorem perform_take {P : (β → α) → Prop}
    (hw : ∀ w ∈ ws, ∀ d, P d → P (Function.update d w.1 w.2)) (hd : P d) (n : ℕ) :
    P (perform (ws.take n) d) := by
  induction ws generalizing d n with
  | nil => simpa using hd
  | cons w ws ih =>
    cases n with
    | zero => simpa using hd
    | succ n =>
      rw [List.take_succ_cons, perform_cons]
      exact ih (fun v hv => hw v (List.mem_cons_of_mem w hv)) (hw w List.mem_cons_self d hd) n

end Xv6.Lib
