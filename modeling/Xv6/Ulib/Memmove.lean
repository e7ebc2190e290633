import Xv6.Basic
import Xv6.Lib.Bytes
import Mathlib.Logic.Function.Basic
import Mathlib.Tactic.Cases

/-!
# `memmove`

`string.c` has a `memmove` for the kernel and `ulib.c` one for user programs. The first copies from the
end if the destination overlaps the end of the source; the second always copies from the start.
-/

namespace Xv6

open Lib

abbrev Mem := ℕ → Byte

/-- `while(n-- > 0) *d++ = *s++`. -/
def copyUp (m : Mem) (d s : ℕ) : ℕ → Mem
  | 0 => m
  | n + 1 => copyUp (Function.update m d (m s)) ((d + 1) % 2 ^ 32) ((s + 1) % 2 ^ 32) n

/-- `while(n-- > 0) *--d = *--s`. -/
def copyDown (m : Mem) (d s : ℕ) : ℕ → Mem
  | 0 => m
  | n + 1 =>
    let d := (d + 2 ^ 32 - 1) % 2 ^ 32
    let s := (s + 2 ^ 32 - 1) % 2 ^ 32
    copyDown (Function.update m d (m s)) d s n

/-- `memmove` of `string.c`. -/
def Kernel.memmove (m : Mem) (dst src n : Word) : Mem :=
  if src.toNat < dst.toNat ∧ (src + n).toNat > dst.toNat then
    copyDown m (dst + n).toNat (src + n).toNat n.toNat
  else copyUp m dst.toNat src.toNat n.toNat

/-- `memmove` of `ulib.c`. Its `n` is an `int`. -/
def Ulib.memmove (m : Mem) (vdst vsrc n : Word) : Mem := copyUp m vdst.toNat vsrc.toNat n.toInt.toNat

/-- The memory `m` after the `n` bytes at `s` have been moved to `d`. -/
def moved (m : Mem) (d s n : ℕ) : Mem := fun a => if d ≤ a ∧ a < d + n then m (s + (a - d)) else m a

variable {m : Mem} {d s n : ℕ}

/-! ### The loops -/

/-- From the start, each byte is read before it is overwritten if the destination is lower. -/
theorem copyUp_of_le (hle : d ≤ s) (hs : s + n ≤ 2 ^ 32) :
    copyUp m (d % 2 ^ 32) (s % 2 ^ 32) n = moved m d s n := by
  induction n generalizing m d s with
  | zero =>
    funext a
    exact (if_neg (by omega)).symm
  | succ n ih =>
    rw [copyUp, Nat.mod_eq_of_lt (by omega : d < 2 ^ 32), Nat.mod_eq_of_lt (by omega : s < 2 ^ 32),
      ih (by omega) (by omega)]
    funext a
    unfold moved
    grind

/-- From the end, each byte is read before it is overwritten if the destination is higher. -/
theorem copyDown_of_lt (hlt : s < d) (hd : d + n ≤ 2 ^ 32) :
    copyDown m ((d + n) % 2 ^ 32) ((s + n) % 2 ^ 32) n = moved m d s n := by
  induction n generalizing m with
  | zero =>
    funext a
    exact (if_neg (by omega)).symm
  | succ n ih =>
    have hpred : ∀ {x : ℕ}, x + (n + 1) ≤ 2 ^ 32 →
        ((x + (n + 1)) % 2 ^ 32 + 2 ^ 32 - 1) % 2 ^ 32 = (x + n) % 2 ^ 32 := by
      intro x hx
      omega
    rw [copyDown, hpred hd, hpred (by omega), ih (by omega), Nat.mod_eq_of_lt (by omega : d + n < 2 ^ 32),
      Nat.mod_eq_of_lt (by omega : s + n < 2 ^ 32)]
    funext a
    unfold moved
    grind

/-- From the start, the first bytes are copied again and again if the destination is higher. -/
theorem copyUp_of_lt (hlt : s < d) (hd : d + n ≤ 2 ^ 32) :
    copyUp m (d % 2 ^ 32) (s % 2 ^ 32) n =
      fun a => if d ≤ a ∧ a < d + n then m (s + (a - d) % (d - s)) else m a := by
  induction n generalizing m d s with
  | zero =>
    funext a
    exact (if_neg (by omega)).symm
  | succ n ih =>
    rw [copyUp, Nat.mod_eq_of_lt (by omega : d < 2 ^ 32), Nat.mod_eq_of_lt (by omega : s < 2 ^ 32),
      ih (by omega) (by omega)]
    funext a
    have hdist : d + 1 - (s + 1) = d - s := by omega
    rw [hdist]
    rcases lt_trichotomy a d with ha | rfl | ha
    · rw [if_neg (by omega), if_neg (by omega), Function.update_of_ne (by omega)]
    · rw [if_neg (by omega), if_pos (by omega), Function.update_self, Nat.sub_self, Nat.zero_mod, Nat.add_zero]
    · by_cases hr : a < d + (n + 1)
      · rw [if_pos (by omega), if_pos (by omega)]
        -- the byte at `d` is the first one of the source when its turn to be read comes
        have hmod := Nat.mod_lt (a - (d + 1)) (by omega : 0 < d - s)
        have hsucc : a - d = a - (d + 1) + 1 := by omega
        rw [hsucc, ← Nat.mod_add_mod]
        by_cases hlast : (a - (d + 1)) % (d - s) + 1 = d - s
        · have hd' : s + 1 + (a - (d + 1)) % (d - s) = d := by omega
          rw [hd', hlast, Nat.mod_self, Function.update_self, Nat.add_zero]
        · rw [Nat.mod_eq_of_lt (by omega : (a - (d + 1)) % (d - s) + 1 < d - s),
            Function.update_of_ne (by omega), Nat.add_assoc s, Nat.add_comm 1]
      · rw [if_neg (by omega), if_neg (by omega), Function.update_of_ne (by omega)]

/-! ### The functions -/

/-- Where the ranges do not overlap, nothing is copied twice. -/
theorem copyUp_of_disjoint (hle : s + n ≤ d) (hd : d + n ≤ 2 ^ 32) :
    copyUp m (d % 2 ^ 32) (s % 2 ^ 32) n = moved m d s n := by
  rcases Nat.eq_zero_or_pos n with rfl | hn
  · funext a
    exact (if_neg (by omega)).symm
  · rw [copyUp_of_lt (by omega) hd]
    funext a
    unfold moved
    split
    · rw [Nat.mod_eq_of_lt (by omega : a - d < d - s)]
    · rfl

theorem copyUp_word (m : Mem) (dst src : Word) (n : ℕ) :
    copyUp m dst.toNat src.toNat n = copyUp m (dst.toNat % 2 ^ 32) (src.toNat % 2 ^ 32) n := by
  rw [Nat.mod_eq_of_lt dst.isLt, Nat.mod_eq_of_lt src.isLt]

theorem Kernel.memmove_eq {dst src n : Word} (hs : src.toNat + n.toNat ≤ 2 ^ 32)
    (hd : dst.toNat + n.toNat ≤ 2 ^ 32) :
    Kernel.memmove m dst src n = moved m dst.toNat src.toNat n.toNat := by
  unfold Kernel.memmove
  rw [BitVec.toNat_add, BitVec.toNat_add]
  split
  · rename_i h
    exact copyDown_of_lt h.1 hd
  · rename_i h
    rw [copyUp_word]
    by_cases hle : dst.toNat ≤ src.toNat
    · exact copyUp_of_le hle hs
    · exact copyUp_of_disjoint (by omega) hd

theorem Ulib.memmove_of_le {dst src n : Word} (hle : dst.toNat ≤ src.toNat) (hs : src.toNat + n.toNat ≤ 2 ^ 32)
    (hn : n.toNat < 2 ^ 31) : Ulib.memmove m dst src n = moved m dst.toNat src.toNat n.toNat := by
  unfold Ulib.memmove
  rw [BitVec.toInt_eq_toNat_of_lt (by omega), Int.toNat_natCast, copyUp_word]
  exact copyUp_of_le hle hs

theorem periodic_iff {k : ℕ} (hk : 0 < k) :
    (∀ j < n, m (s + j % k) = m (s + j)) ↔ ∀ i, i + k < n → m (s + (i + k)) = m (s + i) := by
  constructor
  · intro h i hi
    rw [← h (i + k) hi, ← h i (by omega), Nat.add_mod_right]
  · intro h j
    induction j using Nat.strong_induction_on with
    | _ j ih =>
      intro hj
      by_cases hlt : j < k
      · rw [Nat.mod_eq_of_lt hlt]
      · have hstep := h (j - k) (by omega)
        rw [Nat.sub_add_cancel (by omega)] at hstep
        rw [Nat.mod_eq_sub_mod (by omega), ih (j - k) (by omega) (by omega), hstep]

/-- **The two functions leave the same memory**, with the bytes of the source at the destination and the
others as they were, unless the destination begins inside of the source. There it takes a source that
repeats itself at the distance of the two. -/
theorem memmove_agree_iff {dst src n : Word} (hs : src.toNat + n.toNat ≤ 2 ^ 32)
    (hd : dst.toNat + n.toNat ≤ 2 ^ 32) (hn : n.toNat < 2 ^ 31) :
    (Kernel.memmove m dst src n = moved m dst.toNat src.toNat n.toNat ∧
      Ulib.memmove m dst src n = moved m dst.toNat src.toNat n.toNat) ↔
    (src.toNat < dst.toNat → ∀ i, i + (dst.toNat - src.toNat) < n.toNat →
      m (src.toNat + (i + (dst.toNat - src.toNat))) = m (src.toNat + i)) := by
  rw [and_iff_right (Kernel.memmove_eq hs hd)]
  by_cases hlt : src.toNat < dst.toNat
  · unfold Ulib.memmove
    rw [BitVec.toInt_eq_toNat_of_lt (by omega), Int.toNat_natCast, copyUp_word, copyUp_of_lt hlt hd,
      forall_prop_of_true hlt, ← periodic_iff (by omega)]
    constructor
    · intro h j hj
      have := congrFun h (dst.toNat + j)
      simpa only [moved, Nat.le_add_right, Nat.add_lt_add_iff_left, hj, and_self, if_true,
        Nat.add_sub_cancel_left] using this
    · intro h
      funext a
      unfold moved
      split
      · exact h (a - dst.toNat) (by omega)
      · rfl
  · exact iff_of_true (Ulib.memmove_of_le (by omega) hs hn) fun h => absurd h hlt

/-- The destination begins before the source. -/
theorem memmove_agree_lower :
    Kernel.memmove (BitVec.ofNat 8) 0 1 2 =
        moved (BitVec.ofNat 8) (0 : Word).toNat (1 : Word).toNat (2 : Word).toNat ∧
      Ulib.memmove (BitVec.ofNat 8) 0 1 2 =
        moved (BitVec.ofNat 8) (0 : Word).toNat (1 : Word).toNat (2 : Word).toNat :=
  (memmove_agree_iff (by decide) (by decide) (by decide)).2 fun h => absurd h (by decide)

/-- The destination begins inside of the source: the first byte is copied twice. -/
theorem memmove_overlap : Kernel.memmove (BitVec.ofNat 8) 1 0 2 2 = 1 ∧
    Ulib.memmove (BitVec.ofNat 8) 1 0 2 2 = 0 := by decide

end Xv6
