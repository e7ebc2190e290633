import Xv6.Umalloc.Malloc
import Xv6.Lib.Machine

/-!
# Calls of `malloc` and `free`

A program calls `malloc`, gives pointers back that it has got, and writes into its blocks. `sbrk` fails,
or gives a region that does not overlap the earlier ones and lies above `base`; the address after the
end of a region is an address.
-/

namespace Xv6.Umalloc

open Lib

/-- The memory that `sbrk` has given, in units, and what it does when it is called next. -/
structure Brk where
  regions : List (ℕ × ℕ) := []
  answer : Option ℕ := none

/-- A system in which `sbrk` answers at will. -/
def brkSys (base : ℕ) : Sys Brk where
  base := base
  mapped k x := x = base ∨ ∃ r ∈ k.regions, r.1 ≤ x ∧ x + 8 ≤ r.1 + 8 * r.2
  sbrk n k := match k.answer with
    | none => .ok (2 ^ 32 - 1, k)
    | some a => .ok (a, { regions := (a, n / 8) :: k.regions })

structure State where
  heap : Heap
  regions : List (ℕ × ℕ) := []
  /-- The pointers that the program has got and not given back. -/
  live : List ℕ := []

inductive Act
  /-- `malloc(nbytes)`, with the answer of `sbrk` if it is called. -/
  | malloc (nbytes : ℕ) (answer : Option ℕ)
  | free (ap : ℕ)
  /-- Memory that can be read as a header at `x` is written. -/
  | write (x ptr size : ℕ)

def State.used (s : State) : List (ℕ × ℕ) := s.live.map fun ap => (ap - 8, s.heap.size (ap - 8))

/-- The call can be made: the units that are asked for are a positive `int` of bytes, and the answer of
`sbrk` is a new region; a pointer that is given back is in use; and what is written is inside of a block
in use. -/
def enabled (base : ℕ) (s : State) : Act → Bool
  | .malloc nbytes answer => ((nbytes + 7) / 8 + 1) * 8 < 2 ^ 31 ∧ ∀ a ∈ answer,
      base + 8 ≤ a ∧ a + 8 * coreUnits (nunits nbytes) < 2 ^ 32 ∧
      ∀ r ∈ s.regions, a + 8 * coreUnits (nunits nbytes) ≤ r.1 ∨ r.1 + 8 * r.2 ≤ a
  | .free ap => ap ∈ s.live
  | .write x _ _ => ∃ b ∈ s.used, b.1 < x ∧ x < b.1 + 8 * b.2

/-- Make the call: the new state, and what `malloc` returns. -/
def exec (base : ℕ) (s : State) : Act → Except Fault (State × Option ℕ)
  | .malloc nbytes answer => do
    let (r, heap, k) ← malloc (brkSys base) nbytes s.heap ⟨s.regions, answer⟩
    .ok ({ heap, regions := k.regions, live := if r = 0 then s.live else r :: s.live }, some r)
  | .free ap => do
    let heap ← s.heap.free (brkSys base) ⟨s.regions, none⟩ ap
    .ok ({ s with heap, live := s.live.erase ap }, none)
  | .write x ptr size => .ok ({ s with heap := { s.heap with
      ptr := Function.update s.heap.ptr x ptr
      size := Function.update s.heap.size x size } }, none)

/-- **A program that uses the allocator**, with what is in its memory at first. -/
def umalloc (base : ℕ) (ptr size : ℕ → ℕ) : Machine State Act (Option ℕ) Fault :=
  ⟨{ heap := { ptr, size } }, enabled base, exec base⟩

variable {base : ℕ} {s s' : State} {a : Act} {o : Option ℕ} {h : Heap} {l live live' : List ℕ}
  {rs : List (ℕ × ℕ)}

/-! ### The invariant -/

/-- The state of the allocator, with pointers instead of the headers before them. -/
structure Good (base : ℕ) (s : State) (l : List ℕ) : Prop where
  ready : Ready base s.heap l (s.live.map (· - 8)) s.regions
  live : ∀ ap ∈ s.live, 8 ≤ ap

theorem mapped_brkSys (answer : Option ℕ) : Mapped (brkSys base) ⟨rs, answer⟩ rs := by
  intro x hx
  refine decide_eq_true ?_
  rcases hx with hx | hx
  · exact .inl hx
  · obtain ⟨r, hr, i, hi, rfl⟩ := mem_allUnits.1 hx
    have := units_inside (mem_units.2 ⟨i, hi, rfl⟩ : r.1 + 8 * i ∈ units 8 r.1 r.2)
    exact .inr ⟨r, hr, this.1, this.2⟩

theorem Inv.perm (hi : Inv base h l live rs) (hp : live.Perm live') : Inv base h l live' rs where
  list := hi.list
  sizes x hx := hi.sizes x (hp.mem_iff.2 hx)
  tiles := ((hp.symm.append_left (base :: l)).map _ |>.flatMap_right _).trans hi.tiles
  regions := hi.regions

theorem Inv.write (hi : Inv base h l live rs) {b x : ℕ} (ptr size : ℕ) (hb : b ∈ live) (h₁ : b < x)
    (h₂ : x < b + 8 * h.size b) :
    Inv base { h with ptr := Function.update h.ptr x ptr, size := Function.update h.size x size } l live rs ∧
      x ∉ live := by
  have hbl : b ∈ l ++ live := List.mem_append_right l hb
  have hne : ∀ a ∈ base :: l ++ live, a ≠ x := by
    rintro a ha rfl
    rcases List.mem_cons.1 ha with rfl | ha
    · have := hi.bounds hbl
      omega
    · have := hi.apart_of_ne hbl ha (by omega)
      have := hi.pos ha
      omega
  exact ⟨hi.congr (fun a ha => Function.update_of_ne (hne a (List.mem_append_left live ha)) ..)
    (fun a ha => Function.update_of_ne (hne a ha) ..) rfl, fun hx => hne x (by simp [hx]) rfl⟩

theorem Ready.regions (hr : Ready base h l live rs) : Regions base rs := by
  rcases hr with ⟨-, hpos, -, -, rfl⟩ | hi
  · exact ⟨hpos, .nil, nofun⟩
  · exact hi.regions

/-- A request that is small enough is not wrapped around. -/
theorem nunits_eq {nbytes : ℕ} (hn : ((nbytes + 7) / 8 + 1) * 8 < 2 ^ 31) :
    nunits nbytes = (nbytes + 7) / 8 + 1 ∧ coreUnits (nunits nbytes) * 8 % 2 ^ 32 / 8 = coreUnits (nunits nbytes) := by
  have hunits : nunits nbytes = (nbytes + 7) / 8 + 1 := by
    unfold nunits
    rw [Nat.mod_eq_of_lt (by omega)]
    rfl
  refine ⟨hunits, ?_⟩
  rw [hunits]
  unfold coreUnits
  split <;> omega

/-- What a call of `malloc` leaves. -/
structure Served (s : State) (nbytes : ℕ) (answer : Option ℕ) (r : ℕ) (s' : State) : Prop where
  /-- Only if `sbrk` has failed, the result is 0. -/
  failed : r = 0 → answer = none ∧ s'.live = s.live
  live : r ≠ 0 → s'.live = r :: s.live ∧ s'.heap.size (r - 8) = nunits nbytes
  frame : ∀ ap ∈ s.live, s'.heap.size (ap - 8) = s.heap.size (ap - 8)

theorem Good.malloc {nbytes : ℕ} {answer : Option ℕ} (hg : Good base s l)
    (hen : enabled base s (.malloc nbytes answer) = true) :
    ∃ r s' l', exec base s (.malloc nbytes answer) = .ok (s', some r) ∧ Good base s' l' ∧
      Served s nbytes answer r s' := by
  obtain ⟨hn, hans⟩ := of_decide_eq_true hen
  obtain ⟨-, hcore⟩ := nunits_eq hn
  have hregions := hg.ready.regions
  -- a new region does not overlap the others
  have hnew : ∀ a, answer = some a → a ≠ 2 ^ 32 - 1 ∧
      Regions base ((a, coreUnits (nunits nbytes)) :: s.regions) := by
    intro a ha
    obtain ⟨h₁, h₂, h₃⟩ := hans a ha
    have hle : 4096 ≤ coreUnits (nunits nbytes) := by
      unfold coreUnits
      split <;> omega
    refine ⟨by omega, hregions.pos, List.pairwise_cons.2 ⟨h₃, hregions.apart⟩, fun r hr => ?_⟩
    rcases List.mem_cons.1 hr with rfl | hr
    · exact ⟨h₁, h₂⟩
    · exact hregions.bounds r hr
  obtain ⟨p, k', hsbrk, hp⟩ : ∃ p k', (brkSys base).sbrk (coreUnits (nunits nbytes) * 8 % 2 ^ 32)
      ⟨s.regions, answer⟩ = .ok (p, k') ∧ (p ≠ 2 ^ 32 - 1 → answer = some p ∧
        k' = ⟨(p, coreUnits (nunits nbytes)) :: s.regions, none⟩) := by
    cases answer with
    | none => exact ⟨_, _, rfl, fun h => absurd rfl h⟩
    | some a =>
      refine ⟨_, _, rfl, fun _ => ⟨rfl, ?_⟩⟩
      rw [hcore]
  obtain ⟨r, h', k'', hmalloc, hres⟩ := Ready.malloc (S := brkSys base) hg.ready (mapped_brkSys answer) hsbrk
    fun hne => by
      obtain ⟨ha, rfl⟩ := hp hne
      exact ⟨(hnew p ha).2, mapped_brkSys none⟩
  have hexec : exec base s (.malloc nbytes answer) =
      .ok ({ heap := h', regions := k''.regions, live := if r = 0 then s.live else r :: s.live }, some r) :=
    bind_eq_ok.2 ⟨_, hmalloc, rfl⟩
  have hframe : (∀ a ∈ s.live.map (· - 8), h'.size a = s.heap.size a) →
      ∀ ap ∈ s.live, h'.size (ap - 8) = s.heap.size (ap - 8) := fun hf ap hap =>
    hf (ap - 8) (List.mem_map_of_mem hap)
  have hlive : ∀ r, ∀ ap ∈ (r + 8) :: s.live, 8 ≤ ap := fun r ap hap => by
    rcases List.mem_cons.1 hap with rfl | hap
    · exact Nat.le_add_left 8 r
    · exact hg.live ap hap
  cases hres with
  | found ht =>
    rw [if_neg (Nat.succ_ne_zero _)] at hexec
    exact ⟨_, _, _, hexec, ⟨.inr ht.inv, hlive _⟩, fun h0 => absurd h0 (Nat.succ_ne_zero _),
      fun _ => ⟨rfl, ht.size⟩, hframe ht.frame⟩
  | grown hs hne ht =>
    obtain ⟨rfl, rfl⟩ := Prod.mk.inj (Except.ok.inj (hsbrk.symm.trans hs))
    obtain ⟨-, rfl⟩ := hp hne
    rw [if_neg (Nat.succ_ne_zero _)] at hexec
    exact ⟨_, _, _, hexec, ⟨.inr ht.inv, hlive _⟩, fun h0 => absurd h0 (Nat.succ_ne_zero _),
      fun _ => ⟨rfl, ht.size⟩, hframe ht.frame⟩
  | failed hs hi hf =>
    have hnone : answer = none := by
      cases answer with
      | none => rfl
      | some a => exact absurd (Prod.mk.inj (Except.ok.inj hs)).1 (hnew a rfl).1
    subst hnone
    obtain ⟨-, rfl⟩ := Prod.mk.inj (Except.ok.inj hs)
    exact ⟨_, _, _, hexec, ⟨.inr hi, hg.live⟩, fun _ => ⟨rfl, rfl⟩, fun h0 => absurd rfl h0, hframe hf⟩

theorem Good.free {ap : ℕ} (hg : Good base s l) (hap : ap ∈ s.live) :
    ∃ s' l', exec base s (.free ap) = .ok (s', none) ∧ Good base s' l' ∧
      s'.live = s.live.erase ap ∧ ∀ bp ∈ s'.live, s'.heap.size (bp - 8) = s.heap.size (bp - 8) := by
  have hge := hg.live ap hap
  have hi : Inv base s.heap l (s.live.map (· - 8)) s.regions := by
    refine hg.ready.resolve_left fun h => ?_
    rw [List.map_eq_nil_iff.1 h.2.2.2.1] at hap
    cases hap
  have hperm := (List.perm_cons_erase hap).map (· - 8)
  obtain ⟨h', l', hfree, hi', hframe, -⟩ := (hi.perm hperm).free (S := brkSys base)
    (mapped_brkSys none) rfl
  rw [Nat.sub_add_cancel hge] at hfree
  exact ⟨_, l', bind_eq_ok.2 ⟨h', hfree, rfl⟩, ⟨.inr hi', fun bp hbp => hg.live bp (List.mem_of_mem_erase hbp)⟩,
    rfl, fun bp hbp => hframe _ (List.mem_map_of_mem hbp)⟩

theorem Good.write {x ptr size : ℕ} (hg : Good base s l) (hen : enabled base s (.write x ptr size) = true) :
    ∃ s', exec base s (.write x ptr size) = .ok (s', none) ∧ Good base s' l ∧
      s'.live = s.live ∧ ∀ bp ∈ s'.live, s'.heap.size (bp - 8) = s.heap.size (bp - 8) := by
  obtain ⟨b, hb, h₁, h₂⟩ := of_decide_eq_true hen
  obtain ⟨ap, hap, rfl⟩ := List.mem_map.1 hb
  have hi : Inv base s.heap l (s.live.map (· - 8)) s.regions := by
    refine hg.ready.resolve_left fun h => ?_
    rw [List.map_eq_nil_iff.1 h.2.2.2.1] at hap
    cases hap
  obtain ⟨hi', hx⟩ := hi.write ptr size (List.mem_map_of_mem hap) h₁ h₂
  refine ⟨_, rfl, ⟨.inr hi', hg.live⟩, rfl, fun bp hbp => ?_⟩
  refine Function.update_of_ne ?_ ..
  rintro rfl
  exact hx (List.mem_map_of_mem hbp)

/-! ### Runs -/

/-- **A call that can be made is made**, and leaves the allocator in a state as before. -/
theorem Good.exec (hg : Good base s l) (hen : enabled base s a = true) :
    ∃ s' o l', Umalloc.exec base s a = .ok (s', o) ∧ Good base s' l' := by
  cases a with
  | malloc nbytes answer =>
    obtain ⟨r, s', l', hx, hg', -⟩ := hg.malloc hen
    exact ⟨s', some r, l', hx, hg'⟩
  | free ap =>
    obtain ⟨s', l', hx, hg', -⟩ := hg.free (of_decide_eq_true hen)
    exact ⟨s', none, l', hx, hg'⟩
  | write x ptr size =>
    obtain ⟨s', hx, hg', -⟩ := hg.write hen
    exact ⟨s', none, l, hx, hg'⟩

theorem good_of_runs {ptr size : ℕ → ℕ} {hist : List (Act × Option ℕ)} (hbase : 0 < base)
    (hr : (umalloc base ptr size).Runs hist s) : ∃ l, Good base s l := by
  refine hr.invariant (P := fun _ s => ∃ l, Good base s l) ⟨[], .inl ⟨rfl, hbase, rfl, rfl, rfl⟩, nofun⟩ ?_
  rintro - s a s' - ⟨l, hg⟩ ⟨hen, hx⟩
  obtain ⟨t, o, l', hx', hg'⟩ := hg.exec hen
  obtain ⟨rfl, -⟩ := Prod.mk.inj (Except.ok.inj (hx.symm.trans hx'))
  exact ⟨l', hg'⟩

/-! ### What the allocator guarantees -/

/-- The free list, and the blocks in use. -/
structure Sound (base : ℕ) (s : State) (l : List ℕ) : Prop where
  ring : Follows s.heap.ptr (base :: l ++ [base])
  freep : s.heap.freep ∈ base :: l
  sorted : (base :: l).Pairwise (· < ·)
  /-- A free block does not end where another one begins. -/
  coalesced : l.Pairwise fun x y => x + 8 * s.heap.size x < y
  apart : (blocks s.heap l ++ s.used).Pairwise (Apart 8)
  tiles : ∀ z, Covers 8 (blocks s.heap l ++ s.used) z ↔ Covers 8 s.regions z
  /-- If no block is in use, then a free block goes as far as there is memory from `sbrk`. -/
  maximal : s.live = [] → ∀ x ∈ l, ¬Covers 8 s.regions (x - 1) ∧ ¬Covers 8 s.regions (x + 8 * s.heap.size x)

/-- If every block is free, then there is none before and after a block. -/
theorem maximal_of_gaps {size : ℕ → ℕ} (hgaps : l.Pairwise fun x y => x + 8 * size x < y)
    {x : ℕ} (hx : x ∈ l) (hpos : 0 < x) :
    ¬Covers 8 (l.map fun y => (y, size y)) (x - 1) ∧ ¬Covers 8 (l.map fun y => (y, size y)) (x + 8 * size x) := by
  have hsep : ∀ y ∈ l, y = x ∨ y + 8 * size y < x ∨ x + 8 * size x < y := by
    intro y hy
    by_cases hne : y = x
    · exact .inl hne
    · have hpw : l.Pairwise fun x y => x + 8 * size x < y ∨ y + 8 * size y < x := hgaps.imp .inl
      have : Std.Symm fun x y => x + 8 * size x < y ∨ y + 8 * size y < x := ⟨fun _ _ => Or.symm⟩
      exact .inr (hpw.forall hy hx hne)
  constructor
  all_goals
    rintro ⟨b, hb, h₁, h₂⟩
    obtain ⟨y, hy, rfl⟩ := List.mem_map.1 hb
    rcases hsep y hy with rfl | h | h
    all_goals
      dsimp only at h₁ h₂
      omega

theorem Inv.sound {s : State} (hi : Inv base s.heap l (s.live.map (· - 8)) s.regions) : Sound base s l := by
  have hused : s.used = blocks s.heap (s.live.map (· - 8)) := by
    unfold State.used blocks
    rw [List.map_map]
    rfl
  have htiles : ∀ z, Covers 8 (blocks s.heap l ++ s.used) z ↔ Covers 8 s.regions z := by
    intro z
    rw [← hi.tiles.covers (by decide), hused, ← blocks_append]
    -- the block at `base` has no units
    simp only [Covers, List.cons_append, blocks_cons, List.mem_cons, exists_eq_or_imp, hi.list.zero]
    constructor
    · exact .inr
    · rintro (h | h)
      · omega
      · exact h
  have hgaps := (List.pairwise_cons.1 hi.list.gaps).2
  refine ⟨hi.list.ring, hi.list.freep, hi.list.gaps.imp fun h => by omega, hgaps, ?_, htiles, fun hlive x hx => ?_⟩
  · rw [hused, ← blocks_append]
    have hapart := (List.pairwise_cons.1 (hi.tiles.apart (by decide) hi.regions.apart)).2
    refine hapart.imp_of_mem fun {b c} hb hc h => h ?_ ?_
    · obtain ⟨x, hx, rfl⟩ := List.mem_map.1 hb
      exact hi.pos hx
    · obtain ⟨x, hx, rfl⟩ := List.mem_map.1 hc
      exact hi.pos hx
  · have hpos := (hi.bounds (List.mem_append_left _ hx)).1
    rw [← htiles, ← htiles, State.used, hlive, List.map_nil, List.append_nil]
    exact maximal_of_gaps hgaps hx (by omega)

/-- What `malloc` returns: 0 only if `sbrk` fails, and otherwise a block that is large enough, aligned
as the memory from `sbrk` is, and apart from those in use. -/
structure Allocated (s : State) (nbytes : ℕ) (answer : Option ℕ) (r : ℕ) (s' : State) : Prop where
  failed : r = 0 → answer = none
  large : r ≠ 0 → nbytes + 8 ≤ 8 * s'.heap.size (r - 8)
  aligned : r ≠ 0 → ∃ g ∈ s'.regions, r % 8 = g.1 % 8
  apart : r ≠ 0 → ∀ b ∈ s.used, Apart 8 b (r - 8, s'.heap.size (r - 8))

theorem Served.allocated {nbytes : ℕ} {answer : Option ℕ} {r : ℕ} (hs : Served s nbytes answer r s')
    (hn : ((nbytes + 7) / 8 + 1) * 8 < 2 ^ 31) (hg : Good base s' l) : Allocated s nbytes answer r s' := by
  have hinv : r ≠ 0 → Inv base s'.heap l ((r - 8) :: s.live.map (· - 8)) s'.regions := by
    intro h0
    have hlive := (hs.live h0).1
    have hi := hg.ready.resolve_left fun h => by
      rw [hlive] at h
      cases h.2.2.2.1
    rwa [hlive] at hi
  refine ⟨fun h0 => (hs.failed h0).1, fun h0 => ?_, fun h0 => ?_, fun h0 b hb => ?_⟩
  · rw [(hs.live h0).2, (nunits_eq hn).1]
    omega
  · have hi := hinv h0
    obtain ⟨g, hg', i, -, hr⟩ := mem_allUnits.1
      (hi.unit (x := r - 8) (i := 0) (by simp) (hi.sizes (r - 8) (by simp)))
    have := hg.live r (by rw [(hs.live h0).1]; simp)
    exact ⟨g, hg', by omega⟩
  · have hi := hinv h0
    obtain ⟨ap, hap, rfl⟩ := List.mem_map.1 hb
    have hmem : ap - 8 ∈ s.live.map (· - 8) := List.mem_map_of_mem hap
    have hne : r - 8 ≠ ap - 8 := by
      have hnodup := (List.nodup_append.1 (List.nodup_cons.1 hi.nodup).2).2.1
      rintro heq
      exact (List.nodup_cons.1 hnodup).1 (heq ▸ hmem)
    have := hi.apart_of_ne (x := ap - 8) (y := r - 8)
      (List.mem_append_right l (List.mem_cons_of_mem _ hmem)) (by simp) hne.symm
    rw [hs.frame ap hap] at this
    exact this

/-- **The allocator.** In every run, there is no memory yet, or the free blocks are sorted on a circle
through `base` and coalesced, and tile the memory from `sbrk` together with the blocks in use; and
every call ends, `malloc` with a new block unless `sbrk` fails. -/
theorem umalloc_sound {ptr size : ℕ → ℕ} {hist : List (Act × Option ℕ)} (hbase : 0 < base)
    (hr : (umalloc base ptr size).Runs hist s) :
    (s.heap.freep = 0 ∧ s.live = [] ∧ s.regions = [] ∨ ∃ l, Sound base s l) ∧
      ∀ a, enabled base s a = true → ∃ s' o, exec base s a = .ok (s', o) ∧
        ∀ nbytes answer, a = .malloc nbytes answer → ∃ r, o = some r ∧ Allocated s nbytes answer r s' := by
  obtain ⟨l, hg⟩ := good_of_runs hbase hr
  refine ⟨hg.ready.imp (fun h => ⟨h.1, List.map_eq_nil_iff.1 h.2.2.2.1, h.2.2.2.2⟩) fun hi => ⟨l, hi.sound⟩,
    fun a hen => ?_⟩
  by_cases ha : ∃ nbytes answer, a = .malloc nbytes answer
  · obtain ⟨nbytes, answer, rfl⟩ := ha
    obtain ⟨r, s', l', hx, hg', hs⟩ := hg.malloc hen
    refine ⟨s', some r, hx, fun _ _ ha => ?_⟩
    obtain ⟨rfl, rfl⟩ := Act.malloc.inj ha
    exact ⟨r, rfl, hs.allocated (of_decide_eq_true hen).1 hg'⟩
  · obtain ⟨s', o, -, hx, -⟩ := hg.exec hen
    exact ⟨s', o, hx, fun nbytes answer h => absurd ⟨nbytes, answer, h⟩ ha⟩

/-- Two blocks are allocated, and the first one is freed. -/
theorem umalloc_sound_free : ∃ s, (umalloc 4096 (fun _ => 0) fun _ => 0).Runs
    [(.free 40856, none), (.malloc 8 none, some 40840), (.malloc 100 (some 8192), some 40856)] s ∧
    s.live = [40840] ∧ ∃ l, Sound 4096 s l := by
  obtain ⟨s, hr, hs⟩ := (umalloc 4096 (fun _ => 0) fun _ => 0).exists_runs
    [(.malloc 100 (some 8192), some 40856), (.malloc 8 none, some 40840), (.free 40856, none)]
    (fun s => s.heap.freep ≠ 0 ∧ s.live = [40840]) (by decide +kernel)
  have hs := of_decide_eq_true hs
  exact ⟨s, hr, hs.2, (umalloc_sound (by decide) hr).1.resolve_left fun h => hs.1 h.1⟩

end Xv6.Umalloc
