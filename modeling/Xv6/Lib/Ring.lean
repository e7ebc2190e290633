import Mathlib.Data.Fin.Basic
import Mathlib.Data.Int.ModEq
import Mathlib.Data.List.Basic
import Mathlib.Tactic.Common

/-!
# Rings with counters that wrap

A ring of `N` cells whose ends are kept as 32-bit counters that are never reduced: the cell of a
counter is its rest by `N`. As long as `N` divides `2 ^ 32` the counters may wrap, and what the ring
holds between two of them depends on their difference alone.
-/

namespace Xv6.Lib

variable {α : Type*} {N : ℕ} [NeZero N] {data : Fin N → α} {r w e : BitVec 32}

def cell (N : ℕ) [NeZero N] (a : BitVec 32) : Fin N := Fin.ofNat N a.toNat

/-- What the ring holds from the counter `r` up to the counter `w`. -/
def window (data : Fin N → α) (r w : BitVec 32) : List α :=
  (List.range (w - r).toNat).map fun j => data (cell N (r + .ofNat 32 j))

theorem length_window (data : Fin N → α) (r w : BitVec 32) :
    (window data r w).length = (w - r).toNat := by
  simp [window]

theorem window_self (data : Fin N → α) (r : BitVec 32) : window data r r = [] := by
  simp [window]

theorem toNat_succ_sub (h : (w - r).toNat + 1 < 2 ^ 32) : (w + 1 - r).toNat = (w - r).toNat + 1 := by
  bv_omega

theorem toNat_sub_succ (h : r ≠ w) : (w - r).toNat = (w - (r + 1)).toNat + 1 := by
  bv_omega

theorem add_ofNat_sub (r w : BitVec 32) : r + .ofNat 32 (w - r).toNat = w := by
  bv_omega

theorem cell_val (a : BitVec 32) : (cell N a).val = a.toNat % N := rfl

theorem cell_add (hN : N ∣ 2 ^ 32) (r : BitVec 32) (j : ℕ) :
    (cell N (r + .ofNat 32 j)).val = (r.toNat + j) % N := by
  rw [cell_val, BitVec.toNat_add, BitVec.toNat_ofNat, Nat.add_mod_mod, Nat.mod_mod_of_dvd _ hN]

/-- Two places less than a round apart are in different cells. -/
theorem cell_ne (hN : N ∣ 2 ^ 32) {i j : ℕ} (h : i < j) (hlt : j < i + N) (r : BitVec 32) :
    cell N (r + .ofNat 32 i) ≠ cell N (r + .ofNat 32 j) := by
  intro he
  have he := congrArg Fin.val he
  rw [cell_add hN, cell_add hN] at he
  have hdvd := (Nat.modEq_iff_dvd' (by omega)).1 he
  have hle := Nat.le_of_dvd (by omega) hdvd
  omega

theorem window_congr {data' : Fin N → α}
    (h : ∀ j < (w - r).toNat, data' (cell N (r + .ofNat 32 j)) = data (cell N (r + .ofNat 32 j))) :
    window data' r w = window data r w :=
  List.map_congr_left fun j hj => h j (List.mem_range.1 hj)

theorem window_update (hN : N ∣ 2 ^ 32) (x : α) (hw : (w - r).toNat ≤ (e - r).toNat)
    (he : (e - r).toNat < N) : window (Function.update data (cell N e) x) r w = window data r w := by
  refine window_congr fun j hj => Function.update_of_ne ?_ ..
  have := cell_ne hN (i := j) (j := (e - r).toNat) (by omega) (by omega) r
  rwa [add_ofNat_sub] at this

/-- **One more at the end.** -/
theorem window_push (hN : N ∣ 2 ^ 32) (hlt : N < 2 ^ 32) (x : α) (h : (w - r).toNat < N) :
    window (Function.update data (cell N w) x) r (w + 1) = window data r w ++ [x] := by
  have hlen := toNat_succ_sub (r := r) (w := w) (by omega)
  have hold : window (Function.update data (cell N w) x) r w = window data r w :=
    window_update hN x le_rfl h
  rw [← hold]
  unfold window
  rw [hlen, List.range_succ, List.map_append, List.map_singleton, add_ofNat_sub, Function.update_self]

/-- **One less at the front.** -/
theorem window_pop (h : r ≠ w) (data : Fin N → α) :
    window data r w = data (cell N r) :: window data (r + 1) w := by
  unfold window
  rw [toNat_sub_succ h, List.range_succ_eq_map, List.map_cons, List.map_map]
  refine congrArg₂ _ (by simp) (List.map_congr_left fun j _ => ?_)
  have : r + .ofNat 32 j.succ = r + 1 + .ofNat 32 j := by
    rw [Nat.succ_eq_add_one, Nat.add_comm, BitVec.ofNat_add, ← BitVec.add_assoc]
    rfl
  simp only [Function.comp_apply, this]

theorem window_unpush (h : r ≠ w) (data : Fin N → α) :
    window data r w = window data r (w - 1) ++ [data (cell N (w - 1))] := by
  have hlen : (w - r).toNat = (w - 1 - r).toNat + 1 := by bv_omega
  unfold window
  rw [hlen, List.range_succ, List.map_append, List.map_singleton, add_ofNat_sub]

/-- What is between two ends is what is before a place in between and what is after. -/
theorem window_append (h : (w - r).toNat ≤ (e - r).toNat) (data : Fin N → α) :
    window data r e = window data r w ++ window data w e := by
  have hlen : (e - r).toNat = (w - r).toNat + (e - w).toNat := by bv_omega
  unfold window
  rw [hlen, List.range_add, List.map_append, List.map_map]
  refine congrArg _ (List.map_congr_left fun j _ => ?_)
  simp only [Function.comp_apply, BitVec.ofNat_add, ← BitVec.add_assoc, add_ofNat_sub]

end Xv6.Lib
