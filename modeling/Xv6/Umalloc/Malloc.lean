import Xv6.Umalloc.Free

/-!
# `malloc`

The loop goes once around the free list, and takes the units from the first block that has enough of
them. If there is none, `morecore` asks `sbrk` for a new region and gives it to `free`; the loop then
finds a block in its second time around.
-/

namespace Xv6.Umalloc

open Lib

variable {κ : Type} {S : Sys κ} {k : κ} {h : Heap} {base n p x y : ℕ} {l live P Q : List ℕ}
  {rs : List (ℕ × ℕ)}

/-! ### Taking units from a block -/

theorem Inv.apart_of_ne (hi : Inv base h l live rs) (hx : x ∈ l ++ live) (hy : y ∈ l ++ live) (hne : x ≠ y) :
    x + 8 * h.size x ≤ y ∨ y + 8 * h.size y ≤ x := by
  have : Std.Symm fun x y => Apart 8 (x, h.size x) (y, h.size y) := ⟨fun _ _ => Or.symm⟩
  exact hi.apart.forall hx hy hne

/-- What `take` leaves: the block at `r` is in use, with `n` units. -/
structure Taken (base : ℕ) (h : Heap) (live : List ℕ) (rs : List (ℕ × ℕ)) (n r : ℕ) (h' : Heap) (l' : List ℕ) :
    Prop where
  inv : Inv base h' l' (r :: live) rs
  size : h'.size r = n
  frame : ∀ a ∈ live, h'.size a = h.size a

theorem Inv.take_all (hi : Inv base h l live rs) (hs : base :: l = P ++ x :: p :: Q) :
    ∃ l', Taken base h live rs (h.size p) p
      { h with ptr := Function.update h.ptr x (h.ptr p), freep := x } l' := by
  obtain ⟨l', hl'⟩ : ∃ l', base :: l' = P ++ x :: Q := by
    cases P with
    | nil => exact ⟨Q, by rw [(List.cons.inj hs).1]; rfl⟩
    | cons c P => exact ⟨P ++ x :: Q, by rw [(List.cons.inj hs).1]; rfl⟩
  have hnd := hi.list.nodup
  rw [hs] at hnd
  have hsub : (base :: l').Sublist (base :: l) := by
    rw [hs, hl']
    exact ((List.sublist_cons_self p Q).cons_cons x).append_left P
  have hsubl : l'.Sublist l := List.cons_sublist_cons.1 hsub
  have hp : p ∈ l := by
    have hmem : p ∈ base :: l := hs ▸ by simp
    refine List.mem_of_ne_of_mem ?_ hmem
    rintro rfl
    cases P with
    | nil =>
      obtain rfl : p = x := (List.cons.inj hs).1
      simp at hnd
    | cons c P =>
      obtain rfl : p = c := (List.cons.inj hs).1
      simp at hnd
  refine ⟨l', ⟨⟨?_, hi.list.gaps.sublist hsub, fun a ha => hi.list.pos a (hsubl.subset ha), hi.list.zero, ?_⟩,
    fun a ha => ?_, ?_, hi.regions⟩, rfl, fun _ _ => rfl⟩
  · -- the link of `x` leads past `p`
    have hring := hi.list.ring
    rw [hs, List.append_assoc, List.cons_append, List.cons_append] at hring
    obtain ⟨hPx, hx⟩ := follows_split.1 hring
    obtain ⟨-, hpQ⟩ := follows_cons.1 hx
    obtain ⟨z, t, hzt, hz⟩ := hi.list.ptr_eq (P := P ++ [x]) (x := p) (Q := Q) (by simp [hs])
    have hxP : x ∉ P := fun hxP => (List.nodup_append.1 hnd).2.2 x hxP x (by simp) rfl
    have hxQ : x ∉ Q := fun hxQ => (List.nodup_cons.1 (List.nodup_append.1 hnd).2.1).1 (by simp [hxQ])
    rw [hl', List.append_assoc, List.cons_append]
    refine follows_split.2 ⟨hPx.congr fun a ha => ?_, ?_⟩
    · exact Function.update_of_ne (ne_of_mem_of_not_mem ha hxP) ..
    · rw [hzt]
      refine follows_cons.2 ⟨?_, ?_⟩
      · exact (Function.update_self ..).trans hz
      · rw [← hzt]
        refine Follows.congr ?_ fun a ha => Function.update_of_ne (ne_of_mem_of_not_mem ha hxQ) ..
        rw [hzt] at hpQ ⊢
        exact (follows_cons.1 hpQ).2
  · rw [hl']
    simp
  · rcases List.mem_cons.1 ha with rfl | ha
    · exact hi.list.pos a hp
    · exact hi.sizes a ha
  · refine List.Perm.trans ?_ hi.tiles
    refine List.Perm.flatMap_right _ (List.Perm.map _ ?_)
    rw [hl', hs]
    simp only [List.append_assoc, List.cons_append]
    refine List.Perm.append_left P (List.Perm.cons x ?_)
    exact List.perm_middle

theorem Inv.take_tail (hi : Inv base h l live rs) (hp : p ∈ l) (hx : x ∈ base :: l) (hn : 0 < n)
    (hlt : n < h.size p) :
    Taken base h live rs n (p + 8 * (h.size p - n)) { h with
      size := Function.update (Function.update h.size p (h.size p - n)) (p + 8 * (h.size p - n)) n
      freep := x } l := by
  have hpl : p ∈ l ++ live := List.mem_append_left live hp
  have hbounds := hi.bounds hpl
  -- the tail begins inside of the block, and so at no other one
  have hne : ∀ a ∈ base :: l ++ live, a ≠ p + 8 * (h.size p - n) := by
    rintro a ha rfl
    rcases List.mem_cons.1 ha with hb | ha
    · omega
    · have hpos := hi.pos ha
      have := hi.apart_of_ne hpl ha (by omega)
      omega
  have hsize : ∀ a ∈ base :: l ++ live, a ≠ p →
      Function.update (Function.update h.size p (h.size p - n)) (p + 8 * (h.size p - n)) n a = h.size a := by
    intro a ha hap
    rw [Function.update_of_ne (hne a ha), Function.update_of_ne hap]
  have hsizep : Function.update (Function.update h.size p (h.size p - n)) (p + 8 * (h.size p - n)) n p =
      h.size p - n := by
    rw [Function.update_of_ne (hne p (by simp [hp])), Function.update_self]
  have hle : ∀ a ∈ base :: l ++ live,
      Function.update (Function.update h.size p (h.size p - n)) (p + 8 * (h.size p - n)) n a ≤ h.size a := by
    intro a ha
    by_cases hap : a = p
    · rw [hap, hsizep]
      omega
    · rw [hsize a ha hap]
  have hnd := hi.nodup
  have hplive : p ∉ live := fun hpl =>
    (List.nodup_append.1 (List.nodup_cons.1 hnd).2).2.2 p hp p hpl rfl
  have hpbase : base ≠ p := by omega
  have hframe : ∀ a ∈ live,
      Function.update (Function.update h.size p (h.size p - n)) (p + 8 * (h.size p - n)) n a = h.size a :=
    fun a ha => hsize a (by simp [ha]) (ne_of_mem_of_not_mem ha hplive)
  refine ⟨⟨⟨hi.list.ring, hi.list.gaps.imp_of_mem fun {a b} ha _ hab => ?_, fun a ha => ?_, ?_, hx⟩,
    fun a ha => ?_, ?_, hi.regions⟩, Function.update_self .., hframe⟩
  · have := hle a (List.mem_append_left live ha)
    dsimp only
    omega
  · dsimp only
    by_cases hap : a = p
    · rw [hap, hsizep]
      omega
    · rw [hsize a (by simp [ha]) hap]
      exact hi.list.pos a ha
  · dsimp only
    rw [hsize base (by simp) hpbase]
    exact hi.list.zero
  · dsimp only
    rcases List.mem_cons.1 ha with rfl | ha
    · rw [Function.update_self]
      exact hn
    · rw [hframe a ha]
      exact hi.sizes a ha
  · -- the units of the block are those of its two parts
    obtain ⟨L₁, L₂, rfl⟩ := List.append_of_mem hp
    have hnd' : (L₁ ++ p :: L₂).Nodup := (List.nodup_append.1 (List.nodup_cons.1 hnd).2).1
    have hp₁ : p ∉ L₁ := fun hmem => (List.nodup_append.1 hnd').2.2 p hmem p (by simp) rfl
    have hp₂ : p ∉ L₂ := (List.nodup_cons.1 (List.nodup_append.1 hnd').2.1).1
    have hsame : ∀ xs : List ℕ, (∀ a ∈ xs, a ∈ base :: (L₁ ++ p :: L₂) ++ live ∧ a ≠ p) →
        blocks { h with
          size := Function.update (Function.update h.size p (h.size p - n)) (p + 8 * (h.size p - n)) n
          freep := x } xs = blocks h xs :=
      fun xs hxs => blocks_congr _ fun a ha => hsize a (hxs a ha).1 (hxs a ha).2
    have h₁ := hsame L₁ fun a ha => ⟨by simp [ha], ne_of_mem_of_not_mem ha hp₁⟩
    have h₂ := hsame L₂ fun a ha => ⟨by simp [ha], ne_of_mem_of_not_mem ha hp₂⟩
    have h₃ := hsame live fun a ha => ⟨by simp [ha], ne_of_mem_of_not_mem ha hplive⟩
    have hunits : units 8 p (h.size p) =
        units 8 p (h.size p - n) ++ units 8 (p + 8 * (h.size p - n)) n := by
      rw [← units_add, Nat.sub_add_cancel hlt.le]
    refine List.Perm.trans ?_ hi.tiles
    simp only [List.cons_append, List.append_assoc, blocks_append, blocks_cons, h₁, h₂, h₃, allUnits_append,
      allUnits_cons, hsizep, Function.update_self, hunits, hsize base (by simp) hpbase]
    refine List.Perm.append_left _ (List.Perm.append_left _ (List.Perm.append_left _ ?_))
    rw [← List.append_assoc, ← List.append_assoc]
    exact List.perm_append_comm.append_right _

/-- **`take`** gives out `n` units of the block that comes after `x`. -/
theorem Inv.take (hi : Inv base h l live rs) (hm : Mapped S k rs) (hx : x ∈ base :: l) (hn : 0 < n)
    (hfit : n ≤ h.size (h.ptr x)) :
    ∃ r h' l', h.take S k n x (h.ptr x) = .ok (r + 8, h') ∧ Taken base h live rs n r h' l' := by
  -- the block is not `base`, which has no units
  obtain ⟨P, Q, hs⟩ := List.append_of_mem hx
  obtain ⟨z, t, hzt, hz⟩ := hi.list.ptr_eq hs
  obtain ⟨Q, rfl⟩ : ∃ Q', Q = z :: Q' := by
    cases Q with
    | nil =>
      obtain rfl : base = z := (List.cons.inj hzt).1
      rw [hz, hi.list.zero] at hfit
      omega
    | cons y Q =>
      obtain rfl : y = z := (List.cons.inj hzt).1
      exact ⟨Q, rfl⟩
  have hzl : z ∈ l := by
    have hmem : z ∈ base :: l := hs ▸ by simp
    refine List.mem_of_ne_of_mem ?_ hmem
    rintro rfl
    rw [hz, hi.list.zero] at hfit
    omega
  have hbounds := hi.bounds (List.mem_append_left live hzl)
  have hpos := hi.list.pos z hzl
  rw [hz] at hfit ⊢
  unfold Heap.take
  by_cases heq : h.size z = n
  · obtain ⟨l', ht⟩ := hi.take_all hs
    rw [if_pos heq, Nat.mod_eq_of_lt (by omega)]
    exact ⟨z, _, l', rfl, heq ▸ ht⟩
  · have ht := hi.take_tail hzl hx hn (by omega)
    have hplus : plus z (h.size z - n) = z + 8 * (h.size z - n) := Nat.mod_eq_of_lt (by omega)
    have hunit : z + 8 * (h.size z - n) ∈ allUnits 8 rs := hi.unit (by simp [hzl]) (by omega)
    rw [if_neg heq]
    simp only [Function.update_self, hplus, deref_ok (hm _ (.inr hunit))]
    refine ⟨_, _, l, ?_, ht⟩
    rw [Nat.mod_eq_of_lt (by omega)]
    rfl

/-! ### A new region -/

/-- The units that `morecore` asks for. -/
def coreUnits (n : ℕ) : ℕ := if n < 4096 then 4096 else n

/-- A new region becomes a block in use, which is then given back. -/
theorem Inv.region (hi : Inv base h l live rs) {nu : ℕ} (hr : Regions base ((p, nu) :: rs)) (hnu : 0 < nu) :
    Inv base { h with size := Function.update h.size p nu } l (p :: live) ((p, nu) :: rs) ∧
      ∀ a ∈ base :: l ++ live, Function.update h.size p nu a = h.size a := by
  have hbounds := hr.bounds (p, nu) (by simp)
  -- no block begins at the new region
  have hne : ∀ a ∈ base :: l ++ live, a ≠ p := by
    rintro a ha rfl
    rcases List.mem_cons.1 ha with rfl | ha'
    · dsimp only at hbounds
      omega
    · have hunit := hi.unit ha (hi.pos ha')
      obtain ⟨r, hr', i, hlt, he⟩ := mem_allUnits.1 hunit
      have hin := units_inside (mem_units.2 ⟨i, hlt, rfl⟩ : r.1 + 8 * i ∈ units 8 r.1 r.2)
      have := (List.pairwise_cons.1 hr.apart).1 r hr'
      rcases this with h | h <;> dsimp only at h <;> omega
  have hsize : ∀ a ∈ base :: l ++ live, Function.update h.size p nu a = h.size a := fun a ha =>
    Function.update_of_ne (hne a ha) ..
  have hi' : Inv base { h with size := Function.update h.size p nu } l live rs :=
    hi.congr (fun _ _ => rfl) hsize rfl
  refine ⟨⟨hi'.list, fun a ha => ?_, ?_, hr⟩, hsize⟩
  · rcases List.mem_cons.1 ha with rfl | ha
    · dsimp only
      rwa [Function.update_self]
    · exact hi'.sizes a ha
  · have htiles := hi'.tiles
    unfold Tiles at htiles ⊢
    rw [blocks_append, allUnits_append] at htiles
    rw [blocks_append, blocks_cons (x := p), allUnits_append, allUnits_cons, allUnits_cons]
    dsimp only
    rw [Function.update_self, ← List.append_assoc]
    refine List.Perm.trans (List.perm_append_comm.append_right _) ?_
    rw [List.append_assoc]
    exact htiles.append_left _

/-- **`morecore`** when `sbrk` gives a new region. -/
theorem Inv.morecore {k' : κ} (hi : Inv base h l live rs) (hb : S.base = base)
    (hsbrk : S.sbrk (coreUnits n * 8 % 2 ^ 32) k = .ok (p, k')) (hr : Regions base ((p, coreUnits n) :: rs))
    (hm : Mapped S k' ((p, coreUnits n) :: rs)) :
    ∃ h' l', morecore S n h k = .ok (h'.freep, h', k') ∧
      Inv base h' l' live ((p, coreUnits n) :: rs) ∧ (∀ a ∈ live, h'.size a = h.size a) ∧
      ∃ y ∈ l', n ≤ h'.size y := by
  have hnu : 4096 ≤ coreUnits n ∧ n ≤ coreUnits n := by
    unfold coreUnits
    split <;> omega
  have hbounds := hr.bounds (p, coreUnits n) (by simp)
  dsimp only at hbounds
  obtain ⟨hi', hsize⟩ := hi.region hr (by omega)
  obtain ⟨h', l', hfree, hinv, hframe, y, hy, hle⟩ := hi'.free hm hb
  have hunit : p ∈ allUnits 8 ((p, coreUnits n) :: rs) := by
    rw [allUnits_cons]
    exact List.mem_append_left _ (mem_units.2 ⟨0, by omega, by simp⟩)
  refine ⟨h', l', ?_, hinv, fun a ha => ?_, y, hy, ?_⟩
  · have hne : p ≠ 2 ^ 32 - 1 := by omega
    have hmod : (p + 8) % 2 ^ 32 = p + 8 := Nat.mod_eq_of_lt (by omega)
    unfold Umalloc.morecore
    refine bind_eq_ok.2 ⟨(p, k'), hsbrk, ?_⟩
    dsimp only
    rw [if_neg hne, hmod]
    exact bind_eq_ok.2 ⟨(), deref_ok (hm p (.inr hunit)), bind_eq_ok.2 ⟨h', hfree, rfl⟩⟩
  · rw [hframe a ha]
    exact hsize a (by simp [ha])
  · dsimp only at hle
    rw [Function.update_self] at hle
    omega

theorem morecore_fail {k' : κ} (hsbrk : S.sbrk (coreUnits n * 8 % 2 ^ 32) k = .ok (2 ^ 32 - 1, k')) :
    morecore S n h k = .ok (0, h, k') := by
  unfold morecore
  exact bind_eq_ok.2 ⟨(2 ^ 32 - 1, k'), hsbrk, rfl⟩

/-! ### The loop -/

/-- `malloc` has been around the list: it asks for more memory, and goes on for at most `i` turns. -/
def more (S : Sys κ) (n i : ℕ) (h : Heap) (k : κ) : Except Fault (ℕ × Heap × κ) := do
  let (p, h, k) ← morecore S n h k
  if p = 0 then .ok (0, h, k)
  else do
    S.deref k p
    scan S n i p (h.ptr p) h k

section turn

variable {i : ℕ} (hm : S.mapped k p = true)
include hm

theorem scan_take (hfit : n ≤ h.size p) : scan S n (i + 1) x p h k = (do
    let (r, h) ← h.take S k n x p
    .ok (r, h, k)) := by
  rw [scan, deref_ok hm]
  exact if_pos hfit

theorem scan_more (hfit : h.size p < n) (hp : p = h.freep) : scan S n (i + 1) x p h k = more S n i h k := by
  rw [scan, deref_ok hm]
  exact (if_neg (not_le.2 hfit)).trans (if_pos hp)

theorem scan_next (hfit : h.size p < n) (hp : p ≠ h.freep) :
    scan S n (i + 1) x p h k = scan S n i p (h.ptr p) h k := by
  rw [scan, deref_ok hm]
  exact (if_neg (not_le.2 hfit)).trans (if_neg hp)

end turn

/-- A path that ends at `freep`: the loop finds a block on it that is large enough, or comes to its end. -/
theorem scan_path {A : List ℕ} {i : ℕ} (hf : Follows h.ptr (y :: A ++ [h.freep]))
    (hm : ∀ a ∈ A ++ [h.freep], S.mapped k a = true) (hA : h.freep ∉ A) :
    (∃ x ∈ y :: A, n ≤ h.size (h.ptr x) ∧ scan S n (i + 1 + A.length) y (h.ptr y) h k = (do
      let (r, h) ← h.take S k n x (h.ptr x)
      .ok (r, h, k))) ∨
    (∀ a ∈ A ++ [h.freep], h.size a < n) ∧ scan S n (i + 1 + A.length) y (h.ptr y) h k = more S n i h k := by
  induction A generalizing y with
  | nil =>
    have hy : h.ptr y = h.freep := (follows_cons.1 hf).1
    rcases le_or_gt n (h.size h.freep) with hfit | hfit
    · refine .inl ⟨y, by simp, hy ▸ hfit, ?_⟩
      rw [hy]
      exact scan_take (hm _ (by simp)) hfit
    · refine .inr ⟨by simpa using hfit, ?_⟩
      rw [hy]
      exact scan_more (hm _ (by simp)) hfit rfl
  | cons a A ih =>
    obtain ⟨hya, hf⟩ := follows_cons.1 hf
    have hne : a ≠ h.freep := fun he => hA (by simp [he])
    have hma := hm a (by simp)
    rcases le_or_gt n (h.size a) with hfit | hfit
    · refine .inl ⟨y, by simp, hya ▸ hfit, ?_⟩
      rw [hya]
      exact scan_take hma hfit
    · have hnext : scan S n (i + 1 + (a :: A).length) y (h.ptr y) h k =
          scan S n (i + 1 + A.length) a (h.ptr a) h k := by
        rw [hya]
        exact scan_next hma hfit hne
      rw [hnext]
      rcases ih hf (fun b hb => hm b (List.mem_cons_of_mem a hb)) (fun h => hA (by simp [h])) with
        ⟨x, hx, hfit', hscan⟩ | ⟨hall, hscan⟩
      · exact .inl ⟨x, List.mem_cons_of_mem y hx, hfit', hscan⟩
      · refine .inr ⟨fun b hb => ?_, hscan⟩
        rcases List.mem_cons.1 hb with rfl | hb
        · exact hfit
        · exact hall b hb

/-- **Once around the list**, from `freep`: the loop takes the units from a block that has enough of them,
or finds that none has. -/
theorem Inv.scan {i : ℕ} (hi : Inv base h l live rs) (hm : Mapped S k rs) (hb : S.base = base) (hn : 0 < n)
    (hlen : l.length + 1 ≤ i) :
    (∃ r h' l', scan S n i h.freep (h.ptr h.freep) h k = .ok (r + 8, h', k) ∧
      Taken base h live rs n r h' l') ∨
    (∀ a ∈ l, h.size a < n) ∧
      scan S n i h.freep (h.ptr h.freep) h k = more S n (i - (l.length + 1)) h k := by
  obtain ⟨P, Q, hs⟩ := List.append_of_mem hi.list.freep
  have hmem : ∀ a, a ∈ base :: l ↔ a = h.freep ∨ a ∈ Q ++ P := by
    intro a
    rw [hs]
    simp only [List.mem_append, List.mem_cons]
    tauto
  have hnd := hi.list.nodup
  rw [hs] at hnd
  have hfreep : h.freep ∉ Q ++ P := by
    have := (List.nodup_cons.1 (List.nodup_middle.1 hnd)).1
    simpa [or_comm] using this
  have hlenQP : (Q ++ P).length = l.length := by
    have := congrArg List.length hs
    simp only [List.length_append, List.length_cons] at this ⊢
    omega
  obtain ⟨j, rfl⟩ : ∃ j, i = j + 1 + (Q ++ P).length := ⟨i - (l.length + 1), by omega⟩
  have hmapped : ∀ a ∈ base :: l, S.mapped k a = true := fun a ha =>
    hi.mapped hm hb (List.mem_append_left live ha)
  have hsub : ∀ a ∈ (Q ++ P) ++ [h.freep], a ∈ base :: l := fun a ha =>
    (hmem a).2 ((List.mem_append.1 ha).symm.imp_left fun h => by simpa using h)
  rcases scan_path (n := n) (i := j) (hi.list.ring.lap hs) (fun a ha => hmapped a (hsub a ha)) hfreep with
    ⟨x, hx, hfit, hscan⟩ | ⟨hall, hscan⟩
  · have hxl : x ∈ base :: l := (hmem x).2 (List.mem_cons.1 hx)
    obtain ⟨r, h', l', htake, ht⟩ := hi.take hm hxl hn hfit
    refine .inl ⟨r, h', l', hscan.trans ?_, ht⟩
    rw [htake]
    rfl
  · refine .inr ⟨fun a ha => hall a ?_, ?_⟩
    · rcases (hmem a).1 (List.mem_cons_of_mem base ha) with rfl | ha
      · simp
      · exact List.mem_append_left _ ha
    · rw [hscan]
      congr 1
      omega

/-! ### The whole call -/

/-- Before the first call of `malloc` there is no list. -/
def Ready (base : ℕ) (h : Heap) (l live : List ℕ) (rs : List (ℕ × ℕ)) : Prop :=
  h.freep = 0 ∧ 0 < base ∧ l = [] ∧ live = [] ∧ rs = [] ∨ Inv base h l live rs

theorem Inv.freep_ne (hi : Inv base h l live rs) : h.freep ≠ 0 := by
  have hpos := hi.regions.pos
  rcases List.mem_cons.1 hi.list.freep with h | h
  · omega
  · have := hi.bounds (List.mem_append_left live h)
    omega

theorem Ready.init (hr : Ready S.base h l live rs) :
    Inv S.base (h.init S) l live rs ∧ ∀ a ∈ live, (h.init S).size a = h.size a := by
  rcases hr with ⟨h0, hpos, rfl, rfl, rfl⟩ | hi
  · unfold Heap.init
    rw [if_pos h0]
    refine ⟨⟨⟨?_, List.pairwise_singleton .., nofun, Function.update_self .., by simp⟩, nofun, ?_,
      hpos, .nil, nofun⟩, nofun⟩
    · exact follows_cons.2 ⟨Function.update_self .., .singleton _⟩
    · simp [Tiles, blocks, allUnits]
  · unfold Heap.init
    rw [if_neg hi.freep_ne]
    exact ⟨hi, fun _ _ => rfl⟩

/-- The result of `malloc`. -/
inductive Result (S : Sys κ) (n : ℕ) (h : Heap) (live : List ℕ) (rs : List (ℕ × ℕ)) (k : κ) :
    ℕ → Heap → κ → Prop
  /-- A block with `n` units, from the memory that was there. -/
  | found {r : ℕ} {h' : Heap} {l' : List ℕ} : Taken S.base h live rs n r h' l' →
    Result S n h live rs k (r + 8) h' k
  /-- A block with `n` units, after `sbrk` has given more memory. -/
  | grown {p r : ℕ} {h' : Heap} {k' : κ} {l' : List ℕ} :
    S.sbrk (coreUnits n * 8 % 2 ^ 32) k = .ok (p, k') → p ≠ 2 ^ 32 - 1 →
    Taken S.base h live ((p, coreUnits n) :: rs) n r h' l' → Result S n h live rs k (r + 8) h' k'
  /-- `sbrk` has failed. -/
  | failed {h' : Heap} {k' : κ} {l' : List ℕ} :
    S.sbrk (coreUnits n * 8 % 2 ^ 32) k = .ok (2 ^ 32 - 1, k') → Inv S.base h' l' live rs →
    (∀ a ∈ live, h'.size a = h.size a) → Result S n h live rs k 0 h' k'

theorem nunits_pos (nbytes : ℕ) : 0 < nunits nbytes := Nat.succ_pos _

/-- **`malloc`** ends, with one of these results, if `sbrk` gives new memory or fails. -/
theorem Ready.malloc {nbytes : ℕ} {k' : κ} (hr : Ready S.base h l live rs) (hm : Mapped S k rs)
    (hsbrk : S.sbrk (coreUnits (nunits nbytes) * 8 % 2 ^ 32) k = .ok (p, k'))
    (hnew : p ≠ 2 ^ 32 - 1 → Regions S.base ((p, coreUnits (nunits nbytes)) :: rs) ∧
      Mapped S k' ((p, coreUnits (nunits nbytes)) :: rs)) :
    ∃ r h' k'', Umalloc.malloc S nbytes h k = .ok (r, h', k'') ∧ Result S (nunits nbytes) h live rs k r h' k'' := by
  obtain ⟨hi, hframe⟩ := hr.init
  have hn := nunits_pos nbytes
  have hlen := hi.length_le
  have hstart : Umalloc.malloc S nbytes h k =
      scan S (nunits nbytes) fuel (h.init S).freep ((h.init S).ptr (h.init S).freep) (h.init S) k := by
    unfold Umalloc.malloc
    dsimp only
    rw [deref_ok (hi.mapped hm rfl (List.mem_append_left live hi.list.freep))]
    rfl
  rw [hstart]
  rcases hi.scan hm rfl hn (show l.length + 1 ≤ 2 ^ 34 by omega) with ⟨r, h', l', hscan, ht⟩ | ⟨hall, hscan⟩
  · exact ⟨r + 8, h', k, hscan, .found ⟨ht.inv, ht.size, fun a ha => (ht.frame a ha).trans (hframe a ha)⟩⟩
  · refine hscan ▸ ?_
    by_cases hp : p = 2 ^ 32 - 1
    · subst hp
      refine ⟨0, h.init S, k', ?_, .failed hsbrk hi hframe⟩
      unfold more
      rw [morecore_fail hsbrk]
      rfl
    · obtain ⟨hregions, hmapped⟩ := hnew hp
      obtain ⟨h₁, l₁, hcore, hi₁, hframe₁, y, hy, hfit⟩ := hi.morecore rfl hsbrk hregions hmapped
      have hlen₁ := hi₁.length_le
      have hagain : more S (nunits nbytes) (fuel - (l.length + 1)) (h.init S) k =
          scan S (nunits nbytes) (fuel - (l.length + 1)) h₁.freep (h₁.ptr h₁.freep) h₁ k' := by
        unfold more
        rw [hcore]
        show (if _ then _ else _) = _
        rw [if_neg hi₁.freep_ne, deref_ok (hi₁.mapped hmapped rfl (List.mem_append_left live hi₁.list.freep))]
        rfl
      rw [hagain]
      -- the new region is part of a block that is large enough
      rcases hi₁.scan hmapped rfl hn (show l₁.length + 1 ≤ 2 ^ 34 - (l.length + 1) by omega) with
        ⟨r, h', l', hscan, ht⟩ | ⟨hall, -⟩
      · refine ⟨r + 8, h', k', hscan, .grown hsbrk hp ⟨ht.inv, ht.size, fun a ha => ?_⟩⟩
        rw [ht.frame a ha, hframe₁ a ha, hframe a ha]
      · exact absurd (hall y hy) (not_lt.2 hfit)

end Xv6.Umalloc
