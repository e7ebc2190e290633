import Mathlib.Data.List.Basic

/-!
# Lines

A text is cut at the separator `nl` into the lines that `nl` ends and what is left behind the last one.
If a text comes in pieces, then the lines of a piece begin with what was left of those before.
-/

namespace Xv6.Lib

variable {α : Type*} [DecidableEq α] {nl : α} {x y text more : List α}

/-- The lines that end with `nl`, without it. -/
def lines (nl : α) (text : List α) : List (List α) := (text.splitOn nl).dropLast

/-- What is behind the last `nl`. -/
def left (nl : α) (text : List α) : List α := (text.splitOn nl).getLastD []

theorem lines_of_not_mem (h : nl ∉ x) : lines nl x = [] := by
  rw [lines, List.splitOn_eq_singleton h]
  rfl

theorem left_of_not_mem (h : nl ∉ x) : left nl x = x := by
  rw [left, List.splitOn_eq_singleton h]
  rfl

theorem lines_cons (h : nl ∉ x) : lines nl (x ++ nl :: y) = x :: lines nl y := by
  unfold lines
  rw [List.splitOn_append_cons_self_of_not_mem h, List.dropLast_cons_of_ne_nil (List.splitOn_ne_nil nl y)]

theorem left_cons (h : nl ∉ x) : left nl (x ++ nl :: y) = left nl y := by
  unfold left
  rw [List.splitOn_append_cons_self_of_not_mem h]
  cases hs : y.splitOn nl with
  | nil => exact absurd hs (List.splitOn_ne_nil nl y)
  | cons l ls => rfl

/-- **Induction over the lines of a text.** -/
theorem lines_induction (nl : α) {motive : List α → Prop} (last : ∀ x, nl ∉ x → motive x)
    (line : ∀ x y, nl ∉ x → motive y → motive (x ++ nl :: y)) (text : List α) : motive text := by
  by_cases hmem : nl ∈ text
  · obtain ⟨x, y, heq, hx⟩ := List.eq_append_cons_of_mem hmem
    have hlt : y.length < text.length := by
      rw [heq, List.length_append, List.length_cons]
      omega
    rw [heq]
    exact line x y hx (lines_induction nl last line y)
  · exact last text hmem
termination_by text.length

theorem not_mem_left : nl ∉ left nl text := by
  induction text using lines_induction nl with
  | last x hx => rwa [left_of_not_mem hx]
  | line x y hx ih => rwa [left_cons hx]

theorem mem_of_mem_left {a : α} (h : a ∈ left nl text) : a ∈ text := by
  induction text using lines_induction nl with
  | last x hx => rwa [left_of_not_mem hx] at h
  | line x y hx ih =>
    rw [left_cons hx] at h
    exact List.mem_append_right x (List.mem_cons_of_mem nl (ih h))

theorem length_left_le (nl : α) (text : List α) : (left nl text).length ≤ text.length := by
  induction text using lines_induction nl with
  | last x hx => exact Nat.le_of_eq (congrArg List.length (left_of_not_mem hx))
  | line x y hx ih =>
    rw [left_cons hx, List.length_append, List.length_cons]
    omega

theorem length_left_lt (h : nl ∈ text) : (left nl text).length < text.length := by
  obtain ⟨x, y, rfl, hx⟩ := List.eq_append_cons_of_mem h
  have := length_left_le nl y
  rw [left_cons hx, List.length_append, List.length_cons]
  omega

/-- **The lines of a text in two pieces**: the second one begins with what the first has left. -/
theorem lines_append : lines nl (text ++ more) = lines nl text ++ lines nl (left nl text ++ more) := by
  induction text using lines_induction nl with
  | last x hx => rw [lines_of_not_mem hx, left_of_not_mem hx, List.nil_append]
  | line x y hx ih =>
    rw [List.append_assoc, List.cons_append, lines_cons hx, lines_cons hx, left_cons hx, ih, List.cons_append]

theorem left_append_of_mem (h : nl ∈ more) : left nl (text ++ more) = left nl more := by
  induction text using lines_induction nl with
  | last x hx =>
    obtain ⟨y, z, rfl, hy⟩ := List.eq_append_cons_of_mem h
    rw [← List.append_assoc, left_cons (by simp [hx, hy]), left_cons hy]
  | line x y hx ih => rw [List.append_assoc, List.cons_append, left_cons hx, ih]

end Xv6.Lib
