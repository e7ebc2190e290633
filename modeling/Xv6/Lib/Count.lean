import Mathlib.Algebra.BigOperators.Group.Finset.Piecewise
import Mathlib.Data.Fintype.BigOperators

/-!
# Counting with one value changed
-/

namespace Xv6.Lib

open Finset

variable {ι β : Type*} [Fintype ι] [DecidableEq ι]

/-- A sum over the values of a function, one of which is replaced. -/
theorem sum_update (g : β → ℕ) (f : ι → β) (j : ι) (x : β) :
    ∑ i, g (Function.update f j x i) + g (f j) = ∑ i, g (f i) + g x := by
  have h : (fun i => g (Function.update f j x i)) = Function.update (fun i => g (f i)) j (g x) := by
    funext i
    by_cases hi : i = j
    · rw [hi, Function.update_self, Function.update_self]
    · rw [Function.update_of_ne hi, Function.update_of_ne hi]
  rw [h, sum_update_of_mem (mem_univ j), ← sum_sdiff (subset_univ {j})]
  simp only [sum_singleton]
  omega

end Xv6.Lib
