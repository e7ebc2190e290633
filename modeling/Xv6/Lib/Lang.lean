import Mathlib.Computability.Language

/-!
# Languages at the front of a text

`Before L P text` says that a word of `L` stands at the front of `text`, and that `P` holds of what is
after it. A matcher that goes through a text from left to right is about this relation.
-/

namespace Xv6.Lib

open Computability

variable {α : Type*} {K L : Language α} {P Q : List α → Prop} {text : List α}

/-- A word of `L` is at the front of `text`, and `P` holds of the rest. -/
def Before (L : Language α) (P : List α → Prop) (text : List α) : Prop :=
  ∃ w rest, text = w ++ rest ∧ w ∈ L ∧ P rest

theorem before_one : Before 1 P text ↔ P text := by
  constructor
  · rintro ⟨w, rest, rfl, hw, hP⟩
    rw [Language.mem_one] at hw
    rwa [hw]
  · exact fun hP => ⟨[], text, rfl, Language.nil_mem_one, hP⟩

/-- **A product is matched word by word.** -/
theorem before_mul : Before (K * L) P text ↔ Before K (Before L P) text := by
  constructor
  · rintro ⟨w, rest, rfl, hw, hP⟩
    obtain ⟨u, hu, v, hv, rfl⟩ := Language.mem_mul.1 hw
    exact ⟨u, v ++ rest, List.append_assoc .., hu, v, rest, rfl, hv, hP⟩
  · rintro ⟨u, t, rfl, hu, v, rest, rfl, hv, hP⟩
    exact ⟨u ++ v, rest, (List.append_assoc ..).symm, Language.append_mem_mul hu hv, hP⟩

theorem before_add : Before (K + L) P text ↔ Before K P text ∨ Before L P text := by
  constructor
  · rintro ⟨w, rest, rfl, hw, hP⟩
    rcases (Language.mem_add ..).1 hw with hw | hw
    · exact .inl ⟨w, rest, rfl, hw, hP⟩
    · exact .inr ⟨w, rest, rfl, hw, hP⟩
  · rintro (⟨w, rest, rfl, hw, hP⟩ | ⟨w, rest, rfl, hw, hP⟩)
    · exact ⟨w, rest, rfl, (Language.mem_add ..).2 (.inl hw), hP⟩
    · exact ⟨w, rest, rfl, (Language.mem_add ..).2 (.inr hw), hP⟩

/-- **A star** is matched by nothing, or by one word and the star again. -/
theorem before_kstar : Before K∗ P text ↔ P text ∨ Before K (Before K∗ P) text := by
  conv_lhs => rw [← Language.one_add_self_mul_kstar_eq_kstar K]
  rw [before_add, before_one, before_mul]

/-- A word of one letter that meets `p`. -/
def letter (p : α → Prop) : Language α := {w | ∃ x, p x ∧ w = [x]}

theorem before_letter {p : α → Prop} :
    Before (letter p) P text ↔ ∃ x rest, text = x :: rest ∧ p x ∧ P rest := by
  constructor
  · rintro ⟨w, rest, rfl, ⟨x, hx, rfl⟩, hP⟩
    exact ⟨x, rest, rfl, hx, hP⟩
  · rintro ⟨x, rest, rfl, hx, hP⟩
    exact ⟨[x], rest, rfl, ⟨x, hx, rfl⟩, hP⟩

end Xv6.Lib
