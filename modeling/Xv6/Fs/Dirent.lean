import Xv6.Basic
import Xv6.Lib.Bytes

/-!
# Directory entries and names

A directory is a file of entries of sixteen bytes. A name in an entry has room for `DIRSIZ` bytes and
ends at the first NUL, or at its last byte if there is none; `namecmp` compares two names as far as
that, so that what counts of a name is what `key` gives.
-/

namespace Xv6.Fs

open Lib

/-- `sizeof(struct dirent)`. -/
abbrev DIRENT : ℕ := 16

structure Dirent where
  inum : BitVec 16
  name : List Byte
  deriving DecidableEq

def Dirent.ofBytes (l : List Byte) : Dirent := ⟨l.getD 1 0 ++ l.getD 0 0, (l.drop 2).take DIRSIZ⟩

def Dirent.toBytes (e : Dirent) : List Byte :=
  [e.inum.extractLsb' 0 8, e.inum.extractLsb' 8 8] ++ e.name

def Dirent.zero : Dirent := ⟨0, List.replicate DIRSIZ 0⟩

def strncmp : ℕ → List Byte → List Byte → ℤ
  | 0, _, _ => 0
  | n + 1, p, q =>
    if p.headD 0 ≠ 0 ∧ p.headD 0 = q.headD 0 then strncmp n p.tail q.tail
    else (p.headD 0).toNat - (q.headD 0).toNat

def namecmp (s t : List Byte) : ℤ := strncmp DIRSIZ s t

def strncpy : ℕ → List Byte → List Byte
  | 0, _ => []
  | n + 1, t => if t.headD 0 = 0 then List.replicate (n + 1) 0 else t.headD 0 :: strncpy n t.tail

/-- What is before the first NUL, among the first `n` bytes. -/
def cut : ℕ → List Byte → List Byte
  | 0, _ => []
  | n + 1, s => if s.headD 0 = 0 then [] else s.headD 0 :: cut n s.tail

/-- What counts of a name. -/
def key (s : List Byte) : List Byte := cut DIRSIZ s

abbrev dot : List Byte := [0x2e]
abbrev dotdot : List Byte := [0x2e, 0x2e]
abbrev slash : Byte := 0x2f

/-- `skipelem`: the next element of a path, cut to `DIRSIZ` bytes, and the rest of the path. -/
def skipelem (path : List Byte) : Option (List Byte × List Byte) :=
  let s := path.dropWhile (· = slash)
  if s = [] then none
  else some ((s.takeWhile (· ≠ slash)).take DIRSIZ,
    (s.dropWhile (· ≠ slash)).dropWhile (· = slash))

/-! ### Names -/

theorem strncmp_eq_zero : ∀ {n : ℕ} {p q : List Byte}, strncmp n p q = 0 ↔ cut n p = cut n q
  | 0, p, q => iff_of_true rfl rfl
  | n + 1, p, q => by
    have hsub : ∀ a b : Byte, (a.toNat : ℤ) - b.toNat = 0 ↔ a = b := fun a b => by
      rw [← BitVec.toNat_inj]
      omega
    rw [strncmp, cut, cut]
    by_cases hp : p.headD 0 = 0
    · rw [if_neg (fun h => h.1 hp), if_pos hp, hsub, hp]
      by_cases hq : q.headD 0 = 0
      · rw [if_pos hq, hq]
        exact iff_of_true rfl rfl
      · rw [if_neg hq]
        exact iff_of_false (fun h => hq h.symm) nofun
    · by_cases hpq : p.headD 0 = q.headD 0
      · rw [if_pos ⟨hp, hpq⟩, if_neg hp, if_neg (hpq ▸ hp), hpq, strncmp_eq_zero]
        exact ⟨fun h => by rw [h], fun h => (List.cons.inj h).2⟩
      · rw [if_neg (fun h => hpq h.2), if_neg hp, hsub]
        refine iff_of_false hpq fun h => ?_
        split at h
        · cases h
        · exact hpq (List.cons.inj h).1

theorem namecmp_eq_zero {s t : List Byte} : namecmp s t = 0 ↔ key s = key t := strncmp_eq_zero

theorem strncpy_length : ∀ (n : ℕ) (t : List Byte), (strncpy n t).length = n
  | 0, _ => rfl
  | n + 1, t => by
    unfold strncpy
    split
    · simp
    · rw [List.length_cons, strncpy_length]

theorem cut_strncpy : ∀ (n : ℕ) (t : List Byte), cut n (strncpy n t) = cut n t
  | 0, _ => rfl
  | n + 1, t => by
    rw [strncpy, cut, cut]
    by_cases ht : t.headD 0 = 0
    · rw [if_pos ht, if_pos ht, List.replicate_succ]
      exact if_pos rfl
    · rw [if_neg ht, if_neg ht, List.headD_cons, if_neg ht, List.tail_cons, cut_strncpy]

/-- A name is stored as it is compared. -/
theorem key_strncpy (t : List Byte) : key (strncpy DIRSIZ t) = key t := cut_strncpy DIRSIZ t

/-! ### Entries -/

theorem Dirent.toBytes_length {e : Dirent} (h : e.name.length = DIRSIZ) : e.toBytes.length = DIRENT := by
  rw [toBytes, List.length_append, h]
  rfl

theorem Dirent.ofBytes_toBytes {e : Dirent} (h : e.name.length = DIRSIZ) : ofBytes e.toBytes = e := by
  obtain ⟨i, n⟩ := e
  have hi : i.extractLsb' 8 8 ++ i.extractLsb' 0 8 = i := by
    ext j hj
    simp only [BitVec.getElem_append, BitVec.getElem_extractLsb']
    split
    · rw [Nat.zero_add]
      exact BitVec.getLsbD_eq_getElem hj
    · rw [BitVec.getLsbD_eq_getElem (by omega)]
      congr 1
      omega
  simp only [ofBytes, toBytes, List.getD_cons_succ, List.getD_cons_zero, List.cons_append,
    List.nil_append, List.drop_succ_cons, List.drop_zero, hi]
  rw [List.take_of_length_le (by rw [h])]

theorem skipelem_length {path name rest : List Byte} (h : skipelem path = some (name, rest)) :
    rest.length < path.length := by
  unfold skipelem at h
  dsimp only at h
  split at h
  · cases h
  · rename_i hne
    cases h
    have h₁ : (path.dropWhile (· = slash)).length ≤ path.length := (List.dropWhile_sublist _).length_le
    obtain ⟨c, s, hs⟩ := List.exists_cons_of_ne_nil hne
    have hc : c ≠ slash := by
      have := List.head_dropWhile_not (fun b => decide (b = slash)) hne
      simp only [hs, List.head_cons, decide_eq_false_iff_not] at this
      exact this
    rw [hs] at h₁ ⊢
    have h₂ : ((c :: s).dropWhile (· ≠ slash)).length ≤ s.length := by
      rw [List.dropWhile_cons_of_pos (by simpa using hc)]
      exact (List.dropWhile_sublist _).length_le
    have h₃ := (List.dropWhile_sublist (fun b => decide (b = slash))
      (l := (c :: s).dropWhile (· ≠ slash))).length_le
    rw [List.length_cons] at h₁
    omega

end Xv6.Fs
