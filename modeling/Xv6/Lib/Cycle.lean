import Mathlib.Data.List.Chain

/-!
# Circular lists

Following `next` from a node `c` leads through the nodes of a list and back to `c`.
-/

namespace Xv6.Lib

variable {ν : Type*} {next next' : ν → ν} {c x y : ν} {l k P Q : List ν}

/-- Following `next` leads from each of the nodes to the one after it. -/
def Follows (next : ν → ν) (l : List ν) : Prop := l.IsChain fun x y => next x = y

theorem follows_cons : Follows next (x :: y :: l) ↔ next x = y ∧ Follows next (y :: l) :=
  List.isChain_cons_cons

theorem follows_split : Follows next (l ++ x :: k) ↔ Follows next (l ++ [x]) ∧ Follows next (x :: k) :=
  List.isChain_split

/-- A path sees only the links of the nodes before its end. -/
theorem Follows.congr (h : Follows next (l ++ [x])) (hn : ∀ y ∈ l, next' y = next y) :
    Follows next' (l ++ [x]) := by
  induction l with
  | nil => exact .singleton x
  | cons y l ih =>
    have hl : ∃ z t, l ++ [x] = z :: t := by
      cases l with
      | nil => exact ⟨x, [], rfl⟩
      | cons z t => exact ⟨z, t ++ [x], rfl⟩
    have ih := fun h => ih h fun z hz => hn z (List.mem_cons_of_mem y hz)
    obtain ⟨z, t, hzt⟩ := hl
    rw [List.cons_append, hzt] at h ⊢
    rw [hzt] at ih
    obtain ⟨h₁, h₂⟩ := follows_cons.1 h
    exact follows_cons.2 ⟨(hn y List.mem_cons_self).trans h₁, ih h₂⟩

/-- **Once around**, from any node of the circle. -/
theorem Follows.lap (h : Follows next (c :: l ++ [c])) (hs : c :: l = P ++ x :: Q) :
    Follows next (x :: (Q ++ P) ++ [x]) := by
  cases P with
  | nil =>
    cases hs
    simpa using h
  | cons c' P =>
    rw [List.cons_append] at hs
    obtain ⟨rfl, rfl⟩ := List.cons.inj hs
    have hPQ : (c :: (P ++ x :: Q)) ++ [c] = (c :: P) ++ x :: (Q ++ [c]) := by simp
    rw [hPQ] at h
    obtain ⟨h₁, h₂⟩ := follows_split.1 h
    have hQP : x :: (Q ++ c :: P) ++ [x] = (x :: Q) ++ c :: (P ++ [x]) := by simp
    rw [hQP]
    exact follows_split.2 ⟨h₂, h₁⟩

end Xv6.Lib
