import Mathlib.Tactic.Common

/-!
# Records of one size in a list

A list as a sequence of records of `w` elements, one after the other, with the operation that puts a
record in the place of another one, or at the end.
-/

namespace Xv6.Lib

variable {α : Type*} {w j j' : ℕ} {l r : List α}

/-- The record number `j`; past the end there is nothing. -/
def record (w : ℕ) (l : List α) (j : ℕ) : List α := (l.drop (w * j)).take w

/-- Put the record `r` at number `j`. -/
def setRecord (w : ℕ) (l : List α) (j : ℕ) (r : List α) : List α :=
  l.take (w * j) ++ r ++ l.drop (w * j + w)

theorem record_of_length_le (h : l.length ≤ w * j) : record w l j = [] := by
  rw [record, List.drop_eq_nil_of_le h, List.take_nil]

theorem length_record (h : w * j + w ≤ l.length) : (record w l j).length = w := by
  simp only [record, List.length_take, List.length_drop]
  omega

theorem length_setRecord (hr : r.length = w) (hj : w * j ≤ l.length) :
    (setRecord w l j r).length = max l.length (w * j + w) := by
  simp only [setRecord, List.length_append, List.length_take, List.length_drop, hr]
  omega

theorem record_setRecord_self (hr : r.length = w) (hj : w * j ≤ l.length) :
    record w (setRecord w l j r) j = r := by
  have htake : (l.take (w * j)).length = w * j := by simp [hj]
  rw [record, setRecord, List.append_assoc, List.drop_left' htake, List.take_left' hr]

theorem record_setRecord_of_ne (hr : r.length = w) (hj : w * j ≤ l.length) (h : j' ≠ j) :
    record w (setRecord w l j r) j' = record w l j' := by
  have htake : (l.take (w * j)).length = w * j := by simp [hj]
  rcases Nat.lt_or_gt_of_ne h with hlt | hgt
  · -- before the record
    have hle : w * j' + w ≤ w * j := by
      rw [← Nat.mul_succ]
      exact Nat.mul_le_mul_left w hlt
    rw [record, record, setRecord, List.append_assoc, List.drop_append_of_le_length (by omega),
      List.take_append_of_le_length (by simp; omega), List.drop_take, List.take_take,
      Nat.min_eq_left (by omega)]
  · -- after the record
    have hle : w * j + w ≤ w * j' := by
      rw [← Nat.mul_succ]
      exact Nat.mul_le_mul_left w hgt
    have hlen : (l.take (w * j) ++ r).length = w * j + w := by rw [List.length_append, htake, hr]
    rw [record, record, setRecord, ← Nat.add_sub_cancel' hle, ← List.drop_drop,
      List.drop_left' hlen, List.drop_drop]

end Xv6.Lib
