import Mathlib.Algebra.Ring.Nat
import Mathlib.Data.List.GetD

/-!
# Words as bytes

An array of 32-bit words, read and written as bytes in little-endian order: the byte `k` of the array
is in the word `k / 4`. `copyOut` and `copyIn` move a stretch of bytes out of an array and into one.
-/

namespace Xv6.Lib

abbrev Byte := BitVec 8

/-- The code of a character. -/
def ch (c : Char) : Byte := BitVec.ofNat 8 c.toNat

/-- The byte number `i` of a word. -/
def wordByte (w : BitVec 32) (i : ℕ) : Byte := w.extractLsb' (8 * i) 8

/-- The word with the bytes `f`. -/
def ofBytes (f : ℕ → Byte) : BitVec 32 := f 3 ++ f 2 ++ f 1 ++ f 0

theorem wordByte_ofBytes (f : ℕ → Byte) {i : ℕ} (h : i < 4) : wordByte (ofBytes f) i = f i := by
  unfold wordByte ofBytes
  ext j hj
  have hi : i = 0 ∨ i = 1 ∨ i = 2 ∨ i = 3 := by omega
  rcases hi with rfl | rfl | rfl | rfl <;>
    simp only [BitVec.getElem_extractLsb', BitVec.getLsbD_append] <;> grind

variable {n : ℕ} [NeZero n]

/-- The byte `k` of an array. -/
def getByte (x : Fin n → BitVec 32) (k : ℕ) : Byte := wordByte (x (Fin.ofNat n (k / 4))) (k % 4)

/-- The bytes `o`, …, `o + m - 1` of an array. -/
def copyOut (x : Fin n → BitVec 32) (o m : ℕ) : List Byte := (List.range m).map fun k => getByte x (o + k)

/-- The array with the bytes `src` from the byte `o` on. -/
def copyIn (x : Fin n → BitVec 32) (o : ℕ) (src : List Byte) : Fin n → BitVec 32 := fun j =>
  ofBytes fun i =>
    if o ≤ 4 * j.val + i then src.getD (4 * j.val + i - o) (wordByte (x j) i) else wordByte (x j) i

theorem getByte_zero (k : ℕ) : getByte (fun _ : Fin n => 0) k = 0 := by
  unfold getByte wordByte
  ext i hi
  simp

theorem copyOut_length (x : Fin n → BitVec 32) (o m : ℕ) : (copyOut x o m).length = m := by
  simp [copyOut]

theorem getByte_copyIn (x : Fin n → BitVec 32) (o : ℕ) (src : List Byte) {k : ℕ} (hk : k < 4 * n) :
    getByte (copyIn x o src) k =
      if o ≤ k ∧ k < o + src.length then src.getD (k - o) 0 else getByte x k := by
  have hj : (Fin.ofNat n (k / 4)).val = k / 4 := Nat.mod_eq_of_lt (by omega)
  have hk4 : 4 * (k / 4) + k % 4 = k := Nat.div_add_mod k 4
  unfold getByte copyIn
  rw [wordByte_ofBytes _ (Nat.mod_lt _ (by decide)), hj, hk4]
  by_cases ho : o ≤ k
  · rw [if_pos ho]
    by_cases hl : k < o + src.length
    · rw [if_pos ⟨ho, hl⟩, List.getD_eq_getElem _ _ (by omega), List.getD_eq_getElem _ _ (by omega)]
    · rw [if_neg fun h => hl h.2, List.getD_eq_default _ _ (by omega)]
  · rw [if_neg ho, if_neg fun h => ho h.1]

theorem getD_copyOut (x : Fin n → BitVec 32) (o : ℕ) {m k : ℕ} (hk : k < m) :
    (copyOut x o m).getD k 0 = getByte x (o + k) := by
  rw [List.getD_eq_getElem _ _ (by rw [copyOut_length]; exact hk)]
  simp [copyOut]

theorem copyOut_drop_take (x : Fin n → BitVec 32) {N o m : ℕ} (h : o + m ≤ N) :
    ((copyOut x 0 N).drop o).take m = copyOut x o m := by
  refine List.ext_getElem ?_ fun i h₁ h₂ => ?_
  · rw [List.length_take, List.length_drop, copyOut_length, copyOut_length]
    omega
  · simp [copyOut]

theorem ofBytes_congr {f g : ℕ → Byte} (h : ∀ i < 4, f i = g i) : ofBytes f = ofBytes g := by
  unfold ofBytes
  rw [h 0 (by omega), h 1 (by omega), h 2 (by omega), h 3 (by omega)]

omit [NeZero n] in
/-- Bytes are laid over an array at once, or in two stretches. -/
theorem copyIn_append (x : Fin n → BitVec 32) (o : ℕ) (xs ys : List Byte) :
    copyIn x o (xs ++ ys) = copyIn (copyIn x o xs) (o + xs.length) ys := by
  funext j
  refine ofBytes_congr fun i hi => ?_
  have hw : wordByte (copyIn x o xs j) i =
      if o ≤ 4 * j.val + i then xs.getD (4 * j.val + i - o) (wordByte (x j) i) else wordByte (x j) i :=
    wordByte_ofBytes _ hi
  by_cases h₁ : o + xs.length ≤ 4 * j.val + i
  · rw [if_pos h₁, if_pos (by omega), List.getD_append_right _ _ _ _ (by omega), hw, if_pos (by omega),
      List.getD_eq_default xs _ (by omega)]
    congr 1
    omega
  · rw [if_neg h₁, hw]
    by_cases h₂ : o ≤ 4 * j.val + i
    · rw [if_pos h₂, if_pos h₂, List.getD_append _ _ _ _ (by omega)]
    · rw [if_neg h₂, if_neg h₂]

theorem ofBytes_wordByte (w : BitVec 32) : ofBytes (wordByte w) = w := by
  unfold ofBytes wordByte
  ext i hi
  simp only [← BitVec.getLsbD_eq_getElem, BitVec.getLsbD_append, BitVec.getLsbD_extractLsb']
  grind

end Xv6.Lib
