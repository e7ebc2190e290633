import Mathlib.Data.List.Nodup
import Mathlib.Data.List.Pairwise
import Mathlib.Data.List.Perm.Basic
import Mathlib.Data.List.Range
import Mathlib.Tactic.Common
import Mathlib.Tactic.Linarith

/-!
# Tilings of memory

A block is an address with a number of units, each `w` bytes wide. Blocks tile some regions of memory
if their units are those of the regions, each once; splitting a block and joining two neighbours is
then algebra of lists. Blocks that tile regions which do not overlap do not overlap either.
-/

namespace Xv6.Lib

variable {w a m n u v z : ℕ} {b c : ℕ × ℕ} {bs rs : List (ℕ × ℕ)}

/-- The addresses of `n` units from `a` on. -/
def units (w a n : ℕ) : List ℕ := (List.range n).map fun i => a + w * i

/-- The units of some blocks. -/
def allUnits (w : ℕ) (bs : List (ℕ × ℕ)) : List ℕ := bs.flatMap fun b => units w b.1 b.2

/-- Two blocks do not overlap. -/
def Apart (w : ℕ) (b c : ℕ × ℕ) : Prop := b.1 + w * b.2 ≤ c.1 ∨ c.1 + w * c.2 ≤ b.1

/-- The byte `z` is in one of the blocks. -/
def Covers (w : ℕ) (bs : List (ℕ × ℕ)) (z : ℕ) : Prop := ∃ b ∈ bs, b.1 ≤ z ∧ z < b.1 + w * b.2

/-- **The blocks `bs` tile the regions `rs`.** -/
def Tiles (w : ℕ) (bs rs : List (ℕ × ℕ)) : Prop := (allUnits w bs).Perm (allUnits w rs)

theorem mem_units : u ∈ units w a n ↔ ∃ i < n, u = a + w * i := by
  simp [units, eq_comm]

theorem mem_allUnits : u ∈ allUnits w bs ↔ ∃ b ∈ bs, ∃ i < b.2, u = b.1 + w * i := by
  simp [allUnits, mem_units]

@[simp] theorem units_zero : units w a 0 = [] := rfl

theorem units_add : units w a (m + n) = units w a m ++ units w (a + w * m) n := by
  simp only [units, List.range_add, List.map_append, List.map_map]
  congr 2
  funext i
  simp [mul_add, add_assoc]

@[simp] theorem allUnits_cons : allUnits w (b :: bs) = units w b.1 b.2 ++ allUnits w bs := rfl

@[simp] theorem allUnits_append : allUnits w (bs ++ rs) = allUnits w bs ++ allUnits w rs :=
  List.flatMap_append

instance : Std.Symm (Apart w) := ⟨fun _ _ => Or.symm⟩

/-! ### Units apart -/

theorem units_sep (hu : u ∈ units w a n) (hv : v ∈ units w a n) : u = v ∨ u + w ≤ v ∨ v + w ≤ u := by
  obtain ⟨i, -, rfl⟩ := mem_units.1 hu
  obtain ⟨j, -, rfl⟩ := mem_units.1 hv
  have hmono : ∀ {i j : ℕ}, i < j → a + w * i + w ≤ a + w * j := by
    intro i j hij
    have : w * (i + 1) ≤ w * j := Nat.mul_le_mul_left w hij
    rw [Nat.mul_succ] at this
    omega
  rcases lt_trichotomy i j with h | rfl | h
  · exact .inr (.inl (hmono h))
  · exact .inl rfl
  · exact .inr (.inr (hmono h))

theorem units_inside (hu : u ∈ units w a n) : a ≤ u ∧ u + w ≤ a + w * n := by
  obtain ⟨i, hi, rfl⟩ := mem_units.1 hu
  have : w * (i + 1) ≤ w * n := Nat.mul_le_mul_left w hi
  rw [Nat.mul_succ] at this
  omega

/-- Units of blocks that do not overlap are equal or do not overlap. -/
theorem allUnits_sep (hrs : rs.Pairwise (Apart w)) (hu : u ∈ allUnits w rs) (hv : v ∈ allUnits w rs) :
    u = v ∨ u + w ≤ v ∨ v + w ≤ u := by
  obtain ⟨b, hb, i, hi, hui⟩ := mem_allUnits.1 hu
  obtain ⟨c, hc, j, hj, hvj⟩ := mem_allUnits.1 hv
  have hub : u ∈ units w b.1 b.2 := mem_units.2 ⟨i, hi, hui⟩
  have hvc : v ∈ units w c.1 c.2 := mem_units.2 ⟨j, hj, hvj⟩
  by_cases hbc : b = c
  · subst hbc
    exact units_sep hub hvc
  · have := hrs.forall hb hc hbc
    have hu' := units_inside hub
    have hv' := units_inside hvc
    rcases this with h | h
    · exact .inr (.inl (by omega))
    · exact .inr (.inr (by omega))

theorem units_nodup (hw : 0 < w) : (units w a n).Nodup := by
  refine List.Nodup.map (fun i j hij => ?_) List.nodup_range
  exact Nat.eq_of_mul_eq_mul_left hw (by simpa using hij)

theorem allUnits_nodup (hw : 0 < w) (hrs : rs.Pairwise (Apart w)) : (allUnits w rs).Nodup := by
  induction rs with
  | nil => exact List.nodup_nil
  | cons r rs ih =>
    obtain ⟨hr, hrs⟩ := List.pairwise_cons.1 hrs
    refine List.nodup_append.2 ⟨units_nodup hw, ih hrs, ?_⟩
    rintro u hu _ hv rfl
    obtain ⟨c, hc, j, hj, huj⟩ := mem_allUnits.1 hv
    have h₁ := units_inside hu
    have h₂ := units_inside (mem_units.2 ⟨j, hj, huj⟩)
    rcases hr c hc with h | h <;> omega

/-! ### Tilings -/

/-- A byte of a block is in one of its units. -/
theorem exists_unit (hw : 0 < w) (h₁ : a ≤ z) (h₂ : z < a + w * n) :
    ∃ u ∈ units w a n, u ≤ z ∧ z < u + w := by
  have hi : (z - a) / w < n := Nat.div_lt_of_lt_mul (by omega)
  have hdiv := Nat.div_add_mod (z - a) w
  have hmod := Nat.mod_lt (z - a) hw
  exact ⟨_, mem_units.2 ⟨_, hi, rfl⟩, by omega, by omega⟩

theorem covers_iff (hw : 0 < w) : Covers w bs z ↔ ∃ u ∈ allUnits w bs, u ≤ z ∧ z < u + w := by
  constructor
  · rintro ⟨b, hb, h₁, h₂⟩
    obtain ⟨u, hu, hz⟩ := exists_unit hw h₁ h₂
    exact ⟨u, List.mem_flatMap.2 ⟨b, hb, hu⟩, hz⟩
  · rintro ⟨u, hu, hz⟩
    obtain ⟨b, hb, hu⟩ := List.mem_flatMap.1 hu
    have := units_inside hu
    exact ⟨b, hb, by omega, by omega⟩

namespace Tiles

theorem covers (h : Tiles w bs rs) (hw : 0 < w) : Covers w bs z ↔ Covers w rs z := by
  rw [covers_iff hw, covers_iff hw]
  simp only [h.mem_iff]

theorem mem (h : Tiles w bs rs) (hb : b ∈ bs) (hu : u ∈ units w b.1 b.2) : u ∈ allUnits w rs :=
  h.mem_iff.1 (List.mem_flatMap.2 ⟨b, hb, hu⟩)

/-- **Blocks that tile regions do not overlap.** -/
theorem apart (h : Tiles w bs rs) (hw : 0 < w) (hrs : rs.Pairwise (Apart w)) :
    bs.Pairwise fun b c => 0 < b.2 → 0 < c.2 → Apart w b c := by
  have hnodup : (allUnits w bs).Nodup := h.nodup_iff.2 (allUnits_nodup hw hrs)
  have hsep : ∀ u ∈ allUnits w bs, ∀ v ∈ allUnits w bs, u = v ∨ u + w ≤ v ∨ v + w ≤ u :=
    fun u hu v hv => allUnits_sep hrs (h.mem_iff.1 hu) (h.mem_iff.1 hv)
  clear h
  induction bs with
  | nil => exact .nil
  | cons b bs ih =>
    obtain ⟨-, hnd, hdisj⟩ := List.nodup_append.1 hnodup
    refine List.pairwise_cons.2 ⟨fun c hc hb0 hc0 => ?_, ih hnd fun u hu v hv =>
      hsep u (List.mem_append_right _ hu) v (List.mem_append_right _ hv)⟩
    -- two blocks that overlap would share the unit in which the later one begins
    have key : ∀ {x y : ℕ × ℕ}, 0 < y.2 → (∀ u ∈ units w x.1 x.2, ∀ v ∈ units w y.1 y.2,
        u ≠ v ∧ (u = v ∨ u + w ≤ v ∨ v + w ≤ u)) → x.1 ≤ y.1 → x.1 + w * x.2 ≤ y.1 := by
      intro x y hy hxy hle
      by_contra hlt
      obtain ⟨u, hu, h₁, h₂⟩ := exists_unit hw hle (by omega : y.1 < x.1 + w * x.2)
      have := hxy u hu y.1 (mem_units.2 ⟨0, hy, by simp⟩)
      omega
    have hcu : ∀ v ∈ units w c.1 c.2, v ∈ allUnits w bs := fun v hv => List.mem_flatMap.2 ⟨c, hc, hv⟩
    rcases le_total b.1 c.1 with hle | hle
    · refine .inl (key hc0 (fun u hu v hv => ⟨hdisj u hu v (hcu v hv), ?_⟩) hle)
      exact hsep u (List.mem_append_left _ hu) v (List.mem_append_right _ (hcu v hv))
    · refine .inr (key hb0 (fun u hu v hv => ⟨(hdisj v hv u (hcu u hu)).symm, ?_⟩) hle)
      exact hsep u (List.mem_append_right _ (hcu u hu)) v (List.mem_append_left _ hv)

end Tiles

end Xv6.Lib
