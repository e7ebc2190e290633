import Xv6.Umalloc.Code
import Xv6.Lib.Cycle
import Xv6.Lib.Fold
import Xv6.Lib.Tiling
import Mathlib.Data.List.Perm.Subperm

/-!
# `free`

The free list is a circle through `base`, sorted by address, and no block ends where the next one
begins. The blocks on it and those that are in use tile the memory that `sbrk` has given.
-/

namespace Xv6.Umalloc

open Lib

variable {κ : Type} {S : Sys κ} {k : κ} {h : Heap} {base bp p x y : ℕ} {l live P Q : List ℕ}
  {rs : List (ℕ × ℕ)}

/-- The blocks at some addresses, with the sizes in their headers. -/
def blocks (h : Heap) (xs : List ℕ) : List (ℕ × ℕ) := xs.map fun x => (x, h.size x)

/-- The free list is `l`. -/
structure FreeList (base : ℕ) (h : Heap) (l : List ℕ) : Prop where
  ring : Follows h.ptr (base :: l ++ [base])
  /-- A block ends before the next one begins. -/
  gaps : (base :: l).Pairwise fun x y => x + 8 * h.size x < y
  pos : ∀ x ∈ l, 0 < h.size x
  zero : h.size base = 0
  freep : h.freep ∈ base :: l

/-- The regions that `sbrk` has given do not overlap, and are above `base`. -/
structure Regions (base : ℕ) (rs : List (ℕ × ℕ)) : Prop where
  pos : 0 < base
  apart : rs.Pairwise (Apart 8)
  bounds : ∀ r ∈ rs, base + 8 ≤ r.1 ∧ r.1 + 8 * r.2 < 2 ^ 32

/-- **The state of the allocator**: the free blocks are those at `l`, those in use are at `live`, and
`sbrk` has given the regions `rs`. -/
structure Inv (base : ℕ) (h : Heap) (l live : List ℕ) (rs : List (ℕ × ℕ)) : Prop where
  list : FreeList base h l
  sizes : ∀ x ∈ live, 0 < h.size x
  tiles : Tiles 8 (blocks h (base :: l ++ live)) rs
  regions : Regions base rs

/-- There is memory for the header of a block. -/
def Mapped (S : Sys κ) (k : κ) (rs : List (ℕ × ℕ)) : Prop :=
  ∀ x, x = S.base ∨ x ∈ allUnits 8 rs → S.mapped k x = true

/-! ### Where the blocks are -/

theorem Regions.unit (hr : Regions base rs) {u : ℕ} (hu : u ∈ allUnits 8 rs) :
    base + 8 ≤ u ∧ u + 8 < 2 ^ 32 := by
  obtain ⟨r, hr', i, hi, rfl⟩ := mem_allUnits.1 hu
  have := hr.bounds r hr'
  have := units_inside (mem_units.2 ⟨i, hi, rfl⟩ : r.1 + 8 * i ∈ units 8 r.1 r.2)
  omega

theorem mem_blocks {xs : List ℕ} (hx : x ∈ xs) : (x, h.size x) ∈ blocks h xs :=
  List.mem_map_of_mem hx

theorem blocks_append {xs ys : List ℕ} : blocks h (xs ++ ys) = blocks h xs ++ blocks h ys :=
  List.map_append

theorem blocks_cons {xs : List ℕ} : blocks h (x :: xs) = (x, h.size x) :: blocks h xs := rfl

theorem blocks_congr {h' : Heap} (xs : List ℕ) (hs : ∀ x ∈ xs, h'.size x = h.size x) :
    blocks h' xs = blocks h xs :=
  List.map_congr_left fun x hx => by rw [hs x hx]

/-- The allocator reads only the headers of its blocks. -/
theorem Inv.congr {h' : Heap} (hi : Inv base h l live rs) (hptr : ∀ a ∈ base :: l, h'.ptr a = h.ptr a)
    (hsize : ∀ a ∈ base :: l ++ live, h'.size a = h.size a) (hfreep : h'.freep = h.freep) :
    Inv base h' l live rs := by
  refine ⟨⟨hi.list.ring.congr hptr, hi.list.gaps.imp_of_mem fun {a b} ha _ hab => ?_, fun a ha => ?_, ?_, ?_⟩,
    fun a ha => ?_, ?_, hi.regions⟩
  · rwa [hsize a (List.mem_append_left live ha)]
  · rw [hsize a (by simp [ha])]
    exact hi.list.pos a ha
  · rw [hsize base (by simp)]
    exact hi.list.zero
  · rw [hfreep]
    exact hi.list.freep
  · rw [hsize a (by simp [ha])]
    exact hi.sizes a ha
  · rw [blocks_congr _ hsize]
    exact hi.tiles

namespace Inv

variable (hi : Inv base h l live rs)
include hi

theorem pos (hx : x ∈ l ++ live) : 0 < h.size x := by
  rcases List.mem_append.1 hx with hx | hx
  · exact hi.list.pos x hx
  · exact hi.sizes x hx

/-- A unit of a block is in the memory that `sbrk` has given. -/
theorem unit (hx : x ∈ base :: l ++ live) {i : ℕ} (hlt : i < h.size x) : x + 8 * i ∈ allUnits 8 rs :=
  hi.tiles.mem (mem_blocks hx) (mem_units.2 ⟨i, hlt, rfl⟩)

theorem bounds (hx : x ∈ l ++ live) : base + 8 ≤ x ∧ x + 8 * h.size x < 2 ^ 32 := by
  have hpos := hi.pos hx
  have hx' : x ∈ base :: l ++ live := List.mem_cons_of_mem base hx
  have h₁ := hi.regions.unit (hi.unit hx' hpos)
  have h₂ := hi.regions.unit (hi.unit hx' (by omega : h.size x - 1 < h.size x))
  have : 8 * (h.size x - 1) + 8 = 8 * h.size x := by
    rw [← Nat.mul_succ]
    congr 1
    omega
  omega

theorem apart : (l ++ live).Pairwise fun x y => Apart 8 (x, h.size x) (y, h.size y) := by
  have := hi.tiles.apart (by decide) hi.regions.apart
  rw [blocks, List.pairwise_map, List.cons_append, List.pairwise_cons] at this
  refine this.2.imp_of_mem fun hx hy hxy => hxy (hi.pos hx) (hi.pos hy)

theorem nodup : (base :: l ++ live).Nodup := by
  refine List.nodup_cons.2 ⟨fun hb => ?_, ?_⟩
  · have := (hi.bounds hb).1
    omega
  · refine hi.apart.imp_of_mem fun {x y} hx hy hxy => ?_
    have h₁ := hi.pos hx
    have h₂ := hi.pos hy
    rintro rfl
    rcases hxy with h | h <;> dsimp only at h <;> omega

theorem length_le : l.length ≤ 2 ^ 32 := by
  have hsub : l ⊆ List.range (2 ^ 32) := fun x hx => by
    have := (hi.bounds (List.mem_append_left live hx)).2
    exact List.mem_range.2 (by omega)
  have hnd : l.Nodup := (List.nodup_append.1 (List.nodup_cons.1 hi.nodup).2).1
  exact (List.subperm_of_subset hnd hsub).length_le.trans_eq List.length_range

theorem mapped (hm : Mapped S k rs) (hb : S.base = base) (hx : x ∈ base :: l ++ live) :
    S.mapped k x = true := by
  refine hm x ?_
  rcases List.mem_cons.1 hx with rfl | hx'
  · exact .inl hb.symm
  · exact .inr (by simpa using hi.unit hx (hi.pos hx'))

end Inv

/-! ### The search -/

theorem deref_ok (hm : S.mapped k p = true) : S.deref k p = .ok () := by
  rw [Sys.deref, hm]
  rfl

/-- The loop goes on from `p` to the next block. -/
def Passes (h : Heap) (bp p : ℕ) : Prop :=
  ¬ (bp > p ∧ bp < h.ptr p) ∧ ¬ (p ≥ h.ptr p ∧ (bp > p ∨ bp < h.ptr p))

/-- The loop stops at the end of a path whose other blocks it passes. -/
theorem search_path {A : List ℕ} {n : ℕ} (hf : Follows h.ptr (y :: A ++ [x]))
    (hpass : ∀ a ∈ y :: A, Passes h bp a) (hm : ∀ a ∈ y :: A ++ [x], S.mapped k a = true)
    (hstop : ¬ Passes h bp x) (hn : A.length + 1 < n) : h.search S k bp n y = .ok x := by
  have hturn : ∀ {a n : ℕ}, S.mapped k a = true → Passes h bp a →
      h.search S k bp (n + 1) a = h.search S k bp n (h.ptr a) := by
    intro a n ha hpa
    rw [Heap.search, deref_ok ha]
    show (if _ then _ else _) = _
    rw [if_neg hpa.1, if_neg hpa.2]
  obtain ⟨n, rfl⟩ : ∃ m, n = m + 1 := ⟨n - 1, by omega⟩
  rw [hturn (hm y (by simp)) (hpass y (by simp))]
  induction A generalizing y n with
  | nil =>
    obtain ⟨n, rfl⟩ : ∃ m, n = m + 1 := ⟨n - 1, by simp at hn; omega⟩
    rw [(follows_cons.1 hf).1, Heap.search, deref_ok (hm x (by simp))]
    show (if _ then _ else _) = _
    unfold Passes at hstop
    split
    · rfl
    · rename_i h₁
      rw [if_pos (by tauto)]
  | cons a A ih =>
    obtain ⟨n, rfl⟩ : ∃ m, n = m + 1 := ⟨n - 1, by simp at hn; omega⟩
    obtain ⟨hya, hf⟩ := follows_cons.1 hf
    rw [hya, hturn (hm a (by simp)) (hpass a (by simp))]
    exact ih hf (fun b hb => hpass b (List.mem_cons_of_mem y hb))
      (fun b hb => hm b (List.mem_cons_of_mem y hb)) n (by simp at hn ⊢; omega)

theorem exists_place (hs : (base :: l).Pairwise (· < ·)) (hb : base < bp) (hne : bp ∉ l) :
    ∃ P x Q, base :: l = P ++ x :: Q ∧ x < bp ∧ ∀ y ∈ Q, bp < y := by
  induction l generalizing base with
  | nil => exact ⟨[], base, [], rfl, hb, nofun⟩
  | cons y l ih =>
    obtain ⟨-, hs'⟩ := List.pairwise_cons.1 hs
    by_cases hy : y < bp
    · obtain ⟨P, x, Q, he, hx, hQ⟩ := ih hs' hy fun h => hne (List.mem_cons_of_mem y h)
      exact ⟨base :: P, x, Q, by rw [he]; rfl, hx, hQ⟩
    · have hby : bp < y := lt_of_le_of_ne (not_lt.1 hy) fun h => hne (by simp [h])
      refine ⟨[], base, y :: l, rfl, hb, fun z hz => ?_⟩
      rcases List.mem_cons.1 hz with rfl | hz
      · exact hby
      · exact hby.trans ((List.pairwise_cons.1 hs').1 z hz)

namespace FreeList

variable (hl : FreeList base h l)
include hl

theorem sorted : (base :: l).Pairwise (· < ·) := hl.gaps.imp fun hxy => by omega

theorem nodup : (base :: l).Nodup := hl.sorted.imp fun hxy => hxy.ne

theorem ptr_eq (hs : base :: l = P ++ x :: Q) : ∃ z t, Q ++ [base] = z :: t ∧ h.ptr x = z := by
  have hring := hl.ring
  rw [hs, List.append_assoc, List.cons_append] at hring
  obtain ⟨-, hf⟩ := follows_split.1 hring
  cases Q with
  | nil => exact ⟨base, [], rfl, (follows_cons.1 hf).1⟩
  | cons z t => exact ⟨z, t ++ [base], rfl, (follows_cons.1 hf).1⟩

variable (hs : base :: l = P ++ x :: Q) (hx : x < bp) (hQ : ∀ y ∈ Q, bp < y) (hb : base < bp)
include hs hx hQ hb

/-- The loop passes every block but the one before the place of `bp`. -/
theorem passes {a : ℕ} (ha : a ∈ Q ++ P) : Passes h bp a := by
  have hsorted := hl.sorted
  rw [hs] at hsorted
  rcases List.mem_append.1 ha with ha | ha
  · obtain ⟨Q₁, Q₂, rfl⟩ := List.append_of_mem ha
    have hba := hQ a ha
    obtain ⟨z, t, hzt, hz⟩ := hl.ptr_eq (P := P ++ x :: Q₁) (x := a) (Q := Q₂) (by simp [hs])
    cases Q₂ with
    | nil =>
      obtain rfl : base = z := (List.cons.inj hzt).1
      unfold Passes
      omega
    | cons b Q₂ =>
      obtain rfl : b = z := (List.cons.inj hzt).1
      have hab : a < b := by
        have := (List.pairwise_append.1 (List.pairwise_cons.1 (List.pairwise_append.1 hsorted).2.1).2).2.1
        exact (List.pairwise_cons.1 this).1 b (by simp)
      unfold Passes
      omega
  · obtain ⟨P₁, P₂, rfl⟩ := List.append_of_mem ha
    obtain ⟨z, t, hzt, hz⟩ := hl.ptr_eq (P := P₁) (x := a) (Q := P₂ ++ x :: Q) (by simp [hs])
    -- the next block is not after `x`
    have hmem : z ∈ P₂ ++ [x] := by
      cases P₂ with
      | nil =>
        obtain rfl : x = z := (List.cons.inj hzt).1
        simp
      | cons b P₂ =>
        obtain rfl : b = z := (List.cons.inj hzt).1
        simp
    have hsorted' : (a :: (P₂ ++ x :: Q)).Pairwise (· < ·) := by
      rw [List.append_assoc] at hsorted
      exact (List.pairwise_append.1 hsorted).2.1
    have haz : a < z ∧ z ≤ x := by
      obtain ⟨h₁, h₂⟩ := List.pairwise_cons.1 hsorted'
      rcases List.mem_append.1 hmem with hz' | hz'
      · exact ⟨h₁ z (by simp [hz']), ((List.pairwise_append.1 h₂).2.2 z hz' x (by simp)).le⟩
      · obtain rfl : z = x := by simpa using hz'
        exact ⟨h₁ z (by simp), le_rfl⟩
    unfold Passes
    omega

theorem not_passes : ¬ Passes h bp x := by
  obtain ⟨z, t, hzt, hz⟩ := hl.ptr_eq hs
  unfold Passes
  cases Q with
  | nil =>
    obtain rfl : base = z := (List.cons.inj hzt).1
    have hxb : base ≤ x := by
      have hmem : x ∈ base :: l := by simp [hs]
      rcases List.mem_cons.1 hmem with rfl | hmem
      · exact le_rfl
      · exact ((List.pairwise_cons.1 hl.sorted).1 x hmem).le
    omega
  | cons y Q =>
    obtain rfl : y = z := (List.cons.inj hzt).1
    have := hQ y (by simp)
    omega

/-- **The search** finds the block before the place of `bp`. -/
theorem search_eq (hm : ∀ a ∈ base :: l, S.mapped k a = true) (hlen : l.length ≤ 2 ^ 32) :
    h.search S k bp fuel h.freep = .ok x := by
  have hlap := hl.ring.lap hs
  have hmem : ∀ a, a ∈ base :: l ↔ a = x ∨ a ∈ Q ++ P := by
    intro a
    rw [hs]
    simp only [List.mem_append, List.mem_cons]
    tauto
  have hstop := hl.not_passes hs hx hQ hb
  rcases (hmem _).1 hl.freep with hfx | hf
  · -- the search starts there
    rw [hfx]
    show h.search S k bp (2 ^ 34 - 1 + 1) x = .ok x
    rw [Heap.search, deref_ok (hm x ((hmem x).2 (.inl rfl)))]
    show (if _ then _ else _) = _
    unfold Passes at hstop
    split
    · rfl
    · rw [if_pos (by tauto)]
  · obtain ⟨A, B, hAB⟩ := List.append_of_mem hf
    have hpath : Follows h.ptr (h.freep :: B ++ [x]) := by
      have hsplit : x :: (A ++ h.freep :: B) ++ [x] = (x :: A) ++ h.freep :: (B ++ [x]) := by simp
      rw [hAB, hsplit] at hlap
      exact (follows_split.1 hlap).2
    have hsub : ∀ a ∈ h.freep :: B, a ∈ Q ++ P := fun a ha => hAB ▸ List.mem_append_right A ha
    have hlenB : B.length ≤ l.length := by
      have h₁ := congrArg List.length hs
      have h₂ := congrArg List.length hAB
      simp only [List.length_append, List.length_cons] at h₁ h₂
      omega
    refine search_path hpath (fun a ha => hl.passes hs hx hQ hb (hsub a ha)) (fun a ha => hm a ?_) hstop
      (show B.length + 1 < 2 ^ 34 by omega)
    rcases List.mem_append.1 ha with ha | ha
    · exact (hmem a).2 (.inr (hsub a ha))
    · exact (hmem a).2 (.inl (by simpa using ha))

end FreeList

/-! ### Joining -/

/-- What is known of the place of `bp`, a block in use that is given back. -/
structure Place (base : ℕ) (h : Heap) (l live : List ℕ) (rs : List (ℕ × ℕ)) (bp : ℕ) (P : List ℕ) (x : ℕ)
    (Q : List ℕ) : Prop where
  inv : Inv base h l (bp :: live) rs
  split : base :: l = P ++ x :: Q
  before : x < bp
  after : ∀ y ∈ Q, bp < y

namespace Place

variable (hp : Place base h l live rs bp P x Q)
include hp

theorem above : base + 8 ≤ bp ∧ bp + 8 * h.size bp < 2 ^ 32 := hp.inv.bounds (by simp)

theorem mem_ring {a : ℕ} : a ∈ P ∨ a = x ∨ a ∈ Q ↔ a ∈ base :: l := by
  rw [hp.split]
  simp

theorem apart {a : ℕ} (ha : a ∈ l) : a + 8 * h.size a ≤ bp ∨ bp + 8 * h.size bp ≤ a :=
  (List.pairwise_append.1 hp.inv.apart).2.2 a ha bp (by simp)

theorem fits_after {y : ℕ} (hy : y ∈ Q) : bp + 8 * h.size bp ≤ y := by
  have hmem : y ∈ base :: l := hp.mem_ring.1 (.inr (.inr hy))
  have hlt := hp.after y hy
  have habove := hp.above
  rcases List.mem_cons.1 hmem with rfl | hmem
  · omega
  · have := hp.apart hmem
    omega

theorem fits_before : x + 8 * h.size x ≤ bp := by
  have hmem : x ∈ base :: l := hp.mem_ring.1 (.inr (.inl rfl))
  have hlt := hp.before
  rcases List.mem_cons.1 hmem with rfl | hmem
  · rw [hp.inv.list.zero]
    omega
  · have := hp.apart hmem
    have hpos := hp.inv.sizes bp (by simp)
    omega

end Place

/-- **`bp` and the blocks after it.** `bp` gets `n` units, so that it ends before the blocks `R` after it
begin, and is linked to `z`, the first of them. -/
structure Joined (base : ℕ) (h : Heap) (l live : List ℕ) (rs : List (ℕ × ℕ)) (bp : ℕ) (P : List ℕ) (x : ℕ)
    (Q R : List ℕ) (n z : ℕ) : Prop extends Place base h l live rs bp P x Q where
  first : ∃ t, R ++ [base] = z :: t
  suffix : R <:+ Q
  gap : ∀ q ∈ R, bp + 8 * n < q
  le : h.size bp ≤ n
  lt : bp + 8 * n < 2 ^ 32
  units : units 8 bp n ++ allUnits 8 (blocks h R) = units 8 bp (h.size bp) ++ allUnits 8 (blocks h Q)

theorem Place.joinNext (hp : Place base h l live rs bp P x Q) (hm : ∀ a ∈ base :: l, S.mapped k a = true) :
    ∃ R n z, Joined base h l live rs bp P x Q R n z ∧ h.joinNext S k bp x = .ok { h with
      size := Function.update h.size bp n, ptr := Function.update h.ptr bp z } := by
  obtain ⟨z, t, hzt, hz⟩ := hp.inv.list.ptr_eq hp.split
  have habove := hp.above
  have hplus : plus bp (h.size bp) = bp + 8 * h.size bp := Nat.mod_eq_of_lt habove.2
  unfold Heap.joinNext
  rw [hplus, hz]
  by_cases heq : bp + 8 * h.size bp = z
  · -- `bp` is joined with the first of the blocks after it
    rw [if_pos heq]
    cases Q with
    | nil =>
      obtain rfl : base = z := (List.cons.inj hzt).1
      omega
    | cons y Q =>
      obtain rfl : y = z := (List.cons.inj hzt).1
      have hy : y ∈ base :: l := hp.mem_ring.1 (.inr (.inr (by simp)))
      have hyl : y ∈ l := by
        rcases List.mem_cons.1 hy with rfl | hy
        · omega
        · exact hy
      obtain ⟨z, t, hzt', hz'⟩ := hp.inv.list.ptr_eq (P := P ++ [x]) (x := y) (Q := Q) (by simp [hp.split])
      have hend := (hp.inv.bounds (List.mem_append_left (bp :: live) hyl)).2
      have hsum : bp + 8 * (h.size bp + h.size y) = y + 8 * h.size y := by omega
      have hmod : (h.size bp + h.size y) % 2 ^ 32 = h.size bp + h.size y := Nat.mod_eq_of_lt (by omega)
      have hgap : ∀ q ∈ Q, y + 8 * h.size y < q := by
        have hgaps := hp.inv.list.gaps
        rw [hp.split] at hgaps
        exact (List.pairwise_cons.1 (List.pairwise_cons.1 (List.pairwise_append.1 hgaps).2.1).2).1
      refine ⟨Q, h.size bp + h.size y, z, ⟨hp, ⟨t, hzt'⟩, List.suffix_cons y Q, fun q hq => ?_, by omega,
        by omega, ?_⟩, ?_⟩
      · rw [hsum]
        exact hgap q hq
      · rw [units_add, heq]
        simp [blocks]
      · rw [deref_ok (hm y hy), hmod, hz']
        rfl
  · rw [if_neg heq]
    refine ⟨Q, h.size bp, z, ⟨hp, ⟨t, hzt⟩, List.suffix_refl Q, fun q hq => ?_, le_rfl, habove.2, rfl⟩,
      by rw [Function.update_eq_self]⟩
    · cases Q with
      | nil => cases hq
      | cons y Q =>
        obtain rfl : y = z := (List.cons.inj hzt).1
        have hfit := hp.fits_after (y := y) (by simp)
        rcases List.mem_cons.1 hq with rfl | hq
        · omega
        · have hsorted := hp.inv.list.sorted
          rw [hp.split] at hsorted
          have := (List.pairwise_cons.1 (List.pairwise_cons.1 (List.pairwise_append.1 hsorted).2.1).2).1 q hq
          omega

/-- The list `P ++ x :: R`, with links and sizes that are those of `h` on `P` and on what is in use. -/
theorem Place.inv_of_list (hp : Place base h l live rs bp P x Q) {h' : Heap} {R t : List ℕ} {z : ℕ}
    (hR : R ++ [base] = z :: t) (hfreep : h'.freep = x) (hptr : ∀ a ∈ P, h'.ptr a = h.ptr a)
    (hsize : ∀ a ∈ P ++ live, h'.size a = h.size a) (hx : h'.ptr x = z) (hx0 : x = base → h'.size x = 0)
    (hring : Follows h'.ptr (R ++ [base])) (hgap : ∀ q ∈ R, x + 8 * h'.size x < q)
    (hgaps : R.Pairwise fun a b => a + 8 * h'.size a < b) (hpos : ∀ a ∈ x :: R, a ≠ base → 0 < h'.size a)
    (htiles : Tiles 8 (blocks h P ++ blocks h' (x :: R) ++ blocks h live) rs) :
    ∃ l', base :: l' = P ++ x :: R ∧ Inv base h' l' live rs := by
  obtain ⟨l', hl'⟩ : ∃ l', base :: l' = P ++ x :: R := by
    have hs := hp.split
    cases P with
    | nil => exact ⟨R, by rw [(List.cons.inj hs).1]; rfl⟩
    | cons c P => exact ⟨P ++ x :: R, by rw [(List.cons.inj hs).1]; rfl⟩
  have hring₀ := hp.inv.list.ring
  have hgaps₀ := hp.inv.list.gaps
  rw [hp.split] at hring₀ hgaps₀
  have hsorted : ∀ a ∈ P, a < x := fun a ha => by
    have := (List.pairwise_append.1 hgaps₀).2.2 a ha x (by simp)
    omega
  have hlist : FreeList base h' l' := by
    have hgaps' : (base :: l').Pairwise fun a b => a + 8 * h'.size a < b := by
      rw [hl']
      refine List.pairwise_append.2 ⟨?_, List.pairwise_cons.2 ⟨hgap, hgaps⟩, fun a ha b hb => ?_⟩
      · refine (List.pairwise_append.1 hgaps₀).1.imp_of_mem fun {a b} ha _ hab => ?_
        rwa [hsize a (by simp [ha])]
      · have hax := (List.pairwise_append.1 hgaps₀).2.2 a ha x (by simp)
        rw [hsize a (by simp [ha])]
        rcases List.mem_cons.1 hb with rfl | hb
        · exact hax
        · have := hgap b hb
          omega
    refine ⟨?_, hgaps', fun a ha => ?_, ?_, ?_⟩
    · rw [hl', List.append_assoc, List.cons_append, hR]
      refine follows_split.2 ⟨?_, follows_cons.2 ⟨hx, hR ▸ hring⟩⟩
      rw [List.append_assoc, List.cons_append] at hring₀
      exact (follows_split.1 hring₀).1.congr hptr
    · have hab : base < a := by
        have := (List.pairwise_cons.1 hgaps').1 a ha
        omega
      have hmem : a ∈ P ++ x :: R := hl' ▸ List.mem_cons_of_mem base ha
      rcases List.mem_append.1 hmem with hmem | hmem
      · rw [hsize a (by simp [hmem])]
        have : a ∈ base :: l := hp.mem_ring.1 (.inl hmem)
        rcases List.mem_cons.1 this with rfl | this
        · omega
        · exact hp.inv.list.pos a this
      · exact hpos a hmem hab.ne'
    · cases P with
      | nil => exact (List.cons.inj hl').1 ▸ hx0 (List.cons.inj hl').1.symm
      | cons c P =>
        obtain rfl : base = c := (List.cons.inj hl').1
        rw [hsize base (by simp)]
        exact hp.inv.list.zero
    · rw [hfreep, hl']
      simp
  refine ⟨l', hl', hlist, fun a ha => ?_, ?_, hp.inv.regions⟩
  · rw [hsize a (by simp [ha])]
    exact hp.inv.sizes a (by simp [ha])
  · rw [hl', blocks_append, blocks_append, blocks_congr _ fun a ha => hsize a (List.mem_append_left live ha),
      blocks_congr _ fun a ha => hsize a (List.mem_append_right P ha)]
    exact htiles

namespace Joined

variable {R : List ℕ} {n z : ℕ} (hj : Joined base h l live rs bp P x Q R n z)
include hj

/-- The addresses of the blocks differ. -/
theorem nodup : (P ++ x :: R ++ bp :: live).Nodup := by
  have hnd := hj.inv.nodup
  rw [hj.split] at hnd
  refine hnd.sublist ?_
  exact ((hj.suffix.sublist.cons_cons x).append_left P).append_right _

theorem other {a : ℕ} (ha : a ∈ P ∨ a ∈ R ∨ a ∈ live) : a ≠ x ∧ a ≠ bp := by
  have hnd := hj.nodup
  simp only [List.nodup_append, List.nodup_cons, List.mem_append, List.mem_cons] at hnd
  obtain ⟨⟨hP, ⟨hxR, hR⟩, hPxR⟩, ⟨hbl, hl⟩, hall⟩ := hnd
  rcases ha with ha | ha | ha
  · exact ⟨hPxR a ha x (.inl rfl), hall a (.inl ha) bp (.inl rfl)⟩
  · exact ⟨fun h => hxR (h ▸ ha), hall a (.inr (.inr ha)) bp (.inl rfl)⟩
  · exact ⟨(hall x (.inr (.inl rfl)) a (.inr ha)).symm, fun h => hbl (h ▸ ha)⟩

theorem ne : bp ≠ x := hj.before.ne'

theorem ring : Follows h.ptr (R ++ [base]) := by
  obtain ⟨T, hT⟩ := hj.suffix
  have hring := hj.inv.list.ring
  have hsplit : P ++ x :: (T ++ R) ++ [base] = (P ++ x :: T) ++ (R ++ [base]) := by simp
  rw [hj.split, ← hT, hsplit] at hring
  exact List.IsChain.right_of_append hring

theorem gaps : R.Pairwise fun a b => a + 8 * h.size a < b := by
  have hgaps := hj.inv.list.gaps
  rw [hj.split] at hgaps
  exact (List.pairwise_cons.1 (List.pairwise_append.1 hgaps).2.1).2.sublist hj.suffix.sublist

theorem pos {a : ℕ} (ha : a ∈ R) (hab : a ≠ base) : 0 < h.size a :=
  hj.inv.list.pos a (List.mem_of_ne_of_mem hab (hj.mem_ring.1 (.inr (.inr (hj.suffix.subset ha)))))

theorem pos_bp : 0 < n := Nat.lt_of_lt_of_le (hj.inv.sizes bp (by simp)) hj.le

/-- The units of the new blocks are those of the old ones. -/
theorem tiles : (allUnits 8 (blocks h P) ++ (Lib.units 8 x (h.size x) ++ (Lib.units 8 bp n ++
    allUnits 8 (blocks h R))) ++ allUnits 8 (blocks h live)).Perm (allUnits 8 rs) := by
  have htiles := hj.inv.tiles
  rw [hj.split] at htiles
  refine List.Perm.trans ?_ htiles
  rw [hj.units]
  simp only [blocks_append, blocks_cons, allUnits_append, allUnits_cons, List.append_assoc]
  refine List.Perm.append_left _ (List.Perm.append_left _ ?_)
  rw [← List.append_assoc, ← List.append_assoc]
  exact List.perm_append_comm.append_right _

theorem join (heq : x + 8 * h.size x = bp) :
    ∃ l', Inv base ⟨Function.update (Function.update h.ptr bp z) x z,
      Function.update (Function.update h.size bp n) x (h.size x + n), x⟩ l' live rs ∧ x ∈ l' := by
  obtain ⟨t, hR⟩ := hj.first
  have hxbase : x ≠ base := by
    rintro rfl
    have := hj.above
    rw [hj.inv.list.zero] at heq
    omega
  have hsize : ∀ a, a ∈ P ∨ a ∈ R ∨ a ∈ live →
      Function.update (Function.update h.size bp n) x (h.size x + n) a = h.size a := fun a ha => by
    rw [Function.update_of_ne (hj.other ha).1, Function.update_of_ne (hj.other ha).2]
  have hptr : ∀ a, a ∈ P ∨ a ∈ R ∨ a ∈ live →
      Function.update (Function.update h.ptr bp z) x z a = h.ptr a := fun a ha => by
    rw [Function.update_of_ne (hj.other ha).1, Function.update_of_ne (hj.other ha).2]
  have hmem : ∀ l', base :: l' = P ++ x :: R → x ∈ l' := fun l' hl' =>
    List.mem_of_ne_of_mem hxbase (hl' ▸ by simp)
  refine (hj.inv_of_list hR rfl (fun a ha => hptr a (.inl ha)) (fun a ha => (List.mem_append.1 ha).elim
    (fun h => hsize a (.inl h)) fun h => hsize a (.inr (.inr h))) (Function.update_self ..)
    (fun h => absurd h hxbase) (hj.ring.congr fun a ha => hptr a (.inr (.inl ha))) (fun q hq => ?_)
    (hj.gaps.imp_of_mem fun {a b} ha _ hab => ?_) (fun a ha hab => ?_) ?_).imp
    fun l' ⟨hl', hinv⟩ => ⟨hinv, hmem l' hl'⟩
  · have := hj.gap q hq
    dsimp only
    rw [Function.update_self]
    omega
  · dsimp only
    rwa [hsize a (.inr (.inl ha))]
  · dsimp only
    rcases List.mem_cons.1 ha with rfl | ha
    · have := hj.pos_bp
      rw [Function.update_self]
      omega
    · rw [hsize a (.inr (.inl ha))]
      exact hj.pos ha hab
  · have hunits : Lib.units 8 x (h.size x + n) = Lib.units 8 x (h.size x) ++ Lib.units 8 bp n := by
      rw [units_add, heq]
    unfold Tiles
    rw [blocks_cons, blocks_congr (h := h) R fun a ha => hsize a (.inr (.inl ha)), allUnits_append,
      allUnits_append, allUnits_cons]
    dsimp only
    rw [Function.update_self, hunits, List.append_assoc (Lib.units 8 x _)]
    exact hj.tiles

theorem link (hne : x + 8 * h.size x ≠ bp) :
    ∃ l', Inv base ⟨Function.update (Function.update h.ptr bp z) x bp, Function.update h.size bp n, x⟩
      l' live rs ∧ bp ∈ l' := by
  obtain ⟨t, hR⟩ := hj.first
  have hbefore := hj.fits_before
  have hsizex : Function.update h.size bp n x = h.size x := Function.update_of_ne hj.ne.symm ..
  have hsize : ∀ a, a ∈ P ∨ a ∈ R ∨ a ∈ live → Function.update h.size bp n a = h.size a := fun a ha =>
    Function.update_of_ne (hj.other ha).2 ..
  have hptr : ∀ a, a ∈ P ∨ a ∈ R ∨ a ∈ live →
      Function.update (Function.update h.ptr bp z) x bp a = h.ptr a := fun a ha => by
    rw [Function.update_of_ne (hj.other ha).1, Function.update_of_ne (hj.other ha).2]
  have hbp : bp ≠ base := by
    have := hj.above
    omega
  have hmem : ∀ l', base :: l' = P ++ x :: bp :: R → bp ∈ l' := fun l' hl' =>
    List.mem_of_ne_of_mem hbp (hl' ▸ by simp)
  refine (hj.inv_of_list (R := bp :: R) (t := R ++ [base]) rfl rfl (fun a ha => hptr a (.inl ha))
    (fun a ha => (List.mem_append.1 ha).elim (fun h => hsize a (.inl h)) fun h => hsize a (.inr (.inr h)))
    (Function.update_self ..) (fun h => ?_) ?_ (fun q hq => ?_)
    (List.pairwise_cons.2 ⟨fun q hq => ?_, hj.gaps.imp_of_mem fun {a b} ha _ hab => ?_⟩)
    (fun a ha hab => ?_) ?_).imp fun l' ⟨hl', hinv⟩ => ⟨hinv, hmem l' hl'⟩
  · dsimp only
    rw [hsizex, h]
    exact hj.inv.list.zero
  · rw [List.cons_append, hR]
    refine follows_cons.2 ⟨?_, ?_⟩
    · dsimp only
      rw [Function.update_of_ne hj.ne, Function.update_self]
    · rw [← hR]
      exact hj.ring.congr fun a ha => hptr a (.inr (.inl ha))
  · dsimp only
    rw [hsizex]
    rcases List.mem_cons.1 hq with rfl | hq
    · omega
    · have := hj.gap q hq
      omega
  · dsimp only
    rw [Function.update_self]
    exact hj.gap q hq
  · dsimp only
    rwa [hsize a (.inr (.inl ha))]
  · dsimp only
    rcases List.mem_cons.1 ha with rfl | ha
    · rw [hsizex]
      exact hj.inv.list.pos a (List.mem_of_ne_of_mem hab (hj.mem_ring.1 (.inr (.inl rfl))))
    · rcases List.mem_cons.1 ha with rfl | ha
      · rw [Function.update_self]
        exact hj.pos_bp
      · rw [hsize a (.inr (.inl ha))]
        exact hj.pos ha hab
  · unfold Tiles
    rw [blocks_cons, blocks_cons, blocks_congr (h := h) R fun a ha => hsize a (.inr (.inl ha)),
      allUnits_append, allUnits_append, allUnits_cons, allUnits_cons]
    dsimp only
    rw [hsizex, Function.update_self]
    exact hj.tiles

end Joined

/-- **`free`** gives the block `bp` back: it ends, and the free list and the blocks that are still in use
tile memory as before. -/
theorem Inv.free (hi : Inv base h l (bp :: live) rs) (hm : Mapped S k rs) (hb : S.base = base) :
    ∃ h' l', h.free S k (bp + 8) = .ok h' ∧ Inv base h' l' live rs ∧
      (∀ a ∈ live, h'.size a = h.size a) ∧ ∃ y ∈ l', h.size bp ≤ h'.size y := by
  have habove := hi.bounds (x := bp) (by simp)
  have hpos := hi.sizes bp (by simp)
  have hmapped : ∀ a ∈ base :: l, S.mapped k a = true := fun a ha =>
    hi.mapped hm hb (List.mem_append_left _ ha)
  have hbp : bp ∉ l := fun hbl =>
    (List.nodup_append.1 (List.nodup_cons.1 hi.nodup).2).2.2 bp hbl bp (by simp) rfl
  obtain ⟨P, x, Q, hs, hx, hQ⟩ := exists_place hi.list.sorted (by omega : base < bp) hbp
  have hp : Place base h l live rs bp P x Q := ⟨hi, hs, hx, hQ⟩
  have hsearch : h.search S k bp fuel h.freep = .ok x :=
    hi.list.search_eq hs hx hQ (by omega) hmapped hi.length_le
  obtain ⟨R, n, z, hj, hnext⟩ := hp.joinNext hmapped
  have harg : (bp + 8 + 2 ^ 32 - 8) % 2 ^ 32 = bp := by omega
  have hfree : h.free S k (bp + 8) = .ok { Heap.joinPrev { h with
      size := Function.update h.size bp n, ptr := Function.update h.ptr bp z } bp x with freep := x } := by
    unfold Heap.free
    simp only [harg, hsearch, deref_ok (hi.mapped hm hb (by simp : bp ∈ base :: l ++ bp :: live))]
    exact bind_eq_ok.2 ⟨x, rfl, bind_eq_ok.2 ⟨(), rfl, bind_eq_ok.2 ⟨_, hnext, rfl⟩⟩⟩
  have hsizex : Function.update h.size bp n x = h.size x := Function.update_of_ne hj.ne.symm ..
  have hplus : plus x (h.size x) = x + 8 * h.size x := Nat.mod_eq_of_lt (by
    have := hp.fits_before
    omega)
  have hmod : (h.size x + n) % 2 ^ 32 = h.size x + n := Nat.mod_eq_of_lt (by
    have := hp.fits_before
    have := hj.lt
    omega)
  simp only [Heap.joinPrev, hsizex, hplus, Function.update_self, hmod] at hfree
  by_cases heq : x + 8 * h.size x = bp
  · obtain ⟨l', hinv, hmem⟩ := hj.join heq
    rw [if_pos heq] at hfree
    refine ⟨_, l', hfree, hinv, fun a ha => ?_, x, hmem, ?_⟩
    · obtain ⟨hax, hab⟩ := hj.other (.inr (.inr ha))
      dsimp only
      rw [Function.update_of_ne hax, Function.update_of_ne hab]
    · have := hj.le
      dsimp only
      rw [Function.update_self]
      omega
  · obtain ⟨l', hinv, hmem⟩ := hj.link heq
    rw [if_neg heq] at hfree
    refine ⟨_, l', hfree, hinv, fun a ha => Function.update_of_ne (hj.other (.inr (.inr ha))).2 .., bp, hmem, ?_⟩
    dsimp only
    rw [Function.update_self]
    exact hj.le

end Xv6.Umalloc
