import Xv6.Vm.Space

/-!
# Pools of pages, `kalloc`, `kfree` and `walkpgdir`

A pool is a set of pages that the code at hand may use; what is in the other pages is known and does
not change. A page that is taken out of the pool and held is one of the others.
-/

namespace Xv6.Vm

open Lib Layout

/-! ### Rules for the accesses to memory -/

section rules

variable {P : Mem → Prop} {Q : Unit → Mem → Prop} {f : Frame}

theorem triple_load {i : Fin 1024} : Prog.Triple P (load f i) fun w m => w = m.page f i ∧ P m :=
  fun m hm => ⟨m.page f i, m, rfl, rfl, hm⟩

theorem triple_setPage {pg : Page}
    (h : ∀ m, P m → Q () { m with page := Function.update m.page f pg }) :
    Prog.Triple P (setPage f pg) Q :=
  fun m hm => ⟨(), _, rfl, h m hm⟩

theorem triple_store {i : Fin 1024} {w : Word}
    (h : ∀ m, P m →
      Q () { m with page := Function.update m.page f (Function.update (m.page f) i w) }) :
    Prog.Triple P (store f i w) Q :=
  fun m hm => ⟨(), _, rfl, h m hm⟩

end rules

theorem addr_toNat (f : Frame) : f.addr.toNat = 4096 * f.toNat := by
  unfold Frame.addr
  rw [BitVec.toNat_append]
  simp [Nat.shiftLeft_eq, Nat.mul_comm]

theorem P2V_mod (f : Frame) : P2V f % PGSIZE = 0 := by
  apply BitVec.eq_of_toNat_eq
  rw [BitVec.toNat_umod, P2V, BitVec.toNat_add, addr_toNat]
  have h₁ : BitVec.toNat KERNBASE = 2147483648 := rfl
  have h₂ : BitVec.toNat PGSIZE = 4096 := rfl
  have h₃ : BitVec.toNat (0 : Word) = 0 := rfl
  rw [h₁, h₂, h₃]
  omega

variable [Layout]

/-! ### Pools -/

/-- `kfree` takes the page. -/
def Usable (f : Frame) : Prop := end_ ≤ P2V f ∧ P2V f - KERNBASE < PHYSTOP

/-- The first page of the memory is never given to the allocator. -/
theorem Usable.ne_zero {f : Frame} (h : Usable f) : f ≠ 0 := by
  rintro rfl
  have h₁ : KERNLINK.toNat < (data : Word).toNat := kernlink_lt
  have h₂ : (data : Word).toNat ≤ (end_ : Word).toNat := data_le
  have h₃ : (end_ : Word).toNat ≤ (P2V 0).toNat := h.1
  have h₄ : (P2V 0).toNat = 2147483648 := rfl
  have h₅ : KERNLINK.toNat = 2148532224 := rfl
  omega

/-- What `kfree` leaves in a page. -/
def junk : Page := fun _ => 0x01010101

theorem eval_kfree {f : Frame} (h : Usable f) (m : Mem) :
    (kfree f).eval m =
      (.ok (), { m with page := Function.update m.page f junk, free := f :: m.free }) := by
  unfold kfree
  rw [if_neg]
  · rfl
  · rintro (h' | h' | h')
    · exact h' (P2V_mod f)
    · exact BitVec.not_le.2 h' h.1
    · exact BitVec.not_le.2 h.2 h'

/-- The pages that some code may use, what is in the others, and whether `kalloc` fails only when no
page is free. -/
structure Pool where
  frames : Finset Frame
  rest : Frame → Page
  calm : Prop
  usable : ∀ f ∈ frames, Usable f

/-- The pages `X` of the pool are in use and the others are free. -/
structure In (W : Pool) (X : Multiset Frame) (m : Mem) : Prop where
  split : X + ↑m.free = W.frames.val
  out : ∀ f ∉ W.frames, m.page f = W.rest f
  calm : W.calm → m.luck = []

/-- `kalloc` has failed for want of a page. -/
def Short (W : Pool) (X : Multiset Frame) : Prop := W.calm → W.frames.card ≤ X.card

/-- The pool without a page that is held. -/
def Pool.hold (W : Pool) (f : Frame) (pg : Page) : Pool where
  frames := W.frames.erase f
  rest := Function.update W.rest f pg
  calm := W.calm
  usable := fun g hg => W.usable g (Finset.mem_of_mem_erase hg)

variable {W : Pool} {X : Multiset Frame} {m : Mem} {f : Frame} {pg : Page} {S : Space}

namespace In

theorem nodup (h : In W X m) : X.Nodup := by
  have := W.frames.nodup
  rw [← h.split, Multiset.nodup_add] at this
  exact this.1

theorem mem (h : In W X m) (hf : f ∈ X) : f ∈ W.frames := by
  show f ∈ W.frames.val
  rw [← h.split]
  exact Multiset.mem_add.2 (.inl hf)

theorem mem_free (h : In W X m) (hf : f ∈ m.free) : f ∈ W.frames ∧ f ∉ X := by
  have hn := W.frames.nodup
  rw [← h.split, Multiset.nodup_add] at hn
  refine ⟨?_, fun hX => Multiset.disjoint_left.1 hn.2.2 hX hf⟩
  show f ∈ W.frames.val
  rw [← h.split]
  exact Multiset.mem_add.2 (.inr hf)

theorem write (h : In W X m) (hf : f ∈ W.frames) (pg : Page) :
    In W X { m with page := Function.update m.page f pg } where
  split := h.split
  out g hg := by
    have hne : g ≠ f := fun hgf => hg (hgf ▸ hf)
    rw [← h.out g hg]
    exact Function.update_of_ne hne _ _
  calm := h.calm

theorem hold (h : In W (f ::ₘ X) m) : In (W.hold f (m.page f)) X m where
  split := by
    show _ = (W.frames.erase f).val
    rw [Finset.erase_val, ← h.split, Multiset.cons_add, Multiset.erase_cons_head]
  out g hg := by
    show _ = Function.update W.rest f (m.page f) g
    by_cases hgf : g = f
    · rw [hgf, Function.update_self]
    · rw [Function.update_of_ne hgf]
      exact h.out g fun hgW => hg (Finset.mem_erase.2 ⟨hgf, hgW⟩)
  calm := h.calm

theorem unhold (h : In (W.hold f pg) X m) (hf : f ∈ W.frames) :
    In W (f ::ₘ X) m ∧ m.page f = pg := by
  refine ⟨⟨?_, fun g hg => ?_, h.calm⟩, ?_⟩
  · have hsplit : X + ↑m.free = W.frames.val.erase f := h.split.trans (Finset.erase_val ..)
    rw [Multiset.cons_add, hsplit]
    exact Multiset.cons_erase hf
  · have hne : g ≠ f := fun hgf => hg (hgf ▸ hf)
    rw [h.out g fun hgW => hg (Finset.mem_of_mem_erase hgW)]
    exact Function.update_of_ne hne _ _
  · rw [h.out f fun hfW => Finset.notMem_erase f _ hfW]
    exact Function.update_self ..

theorem notMem (h : In (W.hold f pg) X m) : f ∉ X :=
  fun hf => Finset.notMem_erase f _ (h.mem hf)

end In

theorem kalloc_spec (R : (Frame → Page) → Prop) :
    Prog.Triple (fun m => In W X m ∧ R m.page) kalloc fun r m => R m.page ∧ match r with
      | none => In W X m ∧ Short W X
      | some f => f ∈ W.frames ∧ f ∉ X ∧ In (W.hold f (m.page f)) X m := by
  rintro m ⟨hin, hR⟩
  have hluck : W.calm → m.luck.tail = [] := fun hc => by rw [hin.calm hc, List.tail_nil]
  by_cases hl : m.luck.headD true = true
  · cases hfree : m.free with
    | nil =>
      refine ⟨none, { m with luck := m.luck.tail }, ?_, hR, ⟨hin.split, hin.out, hluck⟩, fun _ => ?_⟩
      · show kalloc m = _
        unfold kalloc
        rw [if_pos hl, hfree]
      · have hcard := congrArg Multiset.card hin.split
        rw [hfree, Multiset.card_add] at hcard
        exact (le_of_eq hcard.symm : W.frames.card ≤ _)
    | cons r free =>
      refine ⟨some r, { m with free := free, luck := m.luck.tail }, ?_, hR, ?_, ?_, In.hold ?_⟩
      · show kalloc m = _
        unfold kalloc
        rw [if_pos hl, hfree]
      · exact (hin.mem_free (hfree ▸ List.mem_cons_self)).1
      · exact (hin.mem_free (hfree ▸ List.mem_cons_self)).2
      · refine ⟨?_, hin.out, hluck⟩
        rw [← hin.split, hfree, ← Multiset.cons_coe, Multiset.cons_add, Multiset.add_cons]
  · refine ⟨none, { m with luck := m.luck.tail }, ?_, hR, ⟨hin.split, hin.out, hluck⟩, fun hc => ?_⟩
    · show kalloc m = _
      unfold kalloc
      rw [if_neg hl]
    · rw [hin.calm hc] at hl
      exact absurd rfl hl

theorem In.kfree (h : In W (f ::ₘ X) m) :
    ∃ m', (kfree f).eval m = (.ok (), m') ∧ In W X m' ∧ ∀ g ≠ f, m'.page g = m.page g := by
  have hf := h.mem (Multiset.mem_cons_self f X)
  refine ⟨_, eval_kfree (W.usable f hf) m, ⟨?_, ?_, h.calm⟩, fun g hg => Function.update_of_ne hg _ _⟩
  · rw [← h.split, ← Multiset.cons_coe, Multiset.cons_add, Multiset.add_cons]
  · exact (h.write hf junk).out

/-! ### An address space in a pool -/

/-- The pool is split into the address space `S` and the free pages. -/
structure At (W : Pool) (S : Space) (m : Mem) : Prop where
  rep : Rep S m.page
  pool : In W S.owned m

namespace At

theorem nodup (h : At W S m) : S.owned.Nodup := h.pool.nodup

theorem setHeld (h : At (W.hold f pg) S m) (hf : f ∈ W.frames) (pg' : Page) :
    At (W.hold f pg') S { m with page := Function.update m.page f pg' } := by
  have hnot := h.pool.notMem
  refine ⟨h.rep.congr fun g hg => Function.update_of_ne (by rintro rfl; exact hnot hg) _ _, ?_⟩
  have hin := (h.pool.unhold hf).1.write hf pg'
  have := hin.hold
  rwa [show ({ m with page := Function.update m.page f pg' } : Mem).page f = pg' from
    Function.update_self ..] at this

theorem freeHeld (h : At (W.hold f pg) S m) (hf : f ∈ W.frames) :
    ∃ m', (kfree f).eval m = (.ok (), m') ∧ At W S m' := by
  have hnot := h.pool.notMem
  obtain ⟨m', hm', hin, hpage⟩ := (h.pool.unhold hf).1.kfree
  exact ⟨m', hm', h.rep.congr fun g hg => hpage g (by rintro rfl; exact hnot hg), hin⟩

end At

/-- An address space outside of the pool. -/
structure Aside (S : Space) (W : Pool) : Prop where
  rep : Rep S W.rest
  disjoint : ∀ f ∈ S.owned, f ∉ W.frames

theorem Aside.rep_of_in (h : Aside S W) {X : Multiset Frame} (hin : In W X m) : Rep S m.page :=
  h.rep.congr fun f hf => hin.out f (h.disjoint f hf)

/-! ### `walkpgdir` -/

omit [Layout] in
theorem walk_spec {P : Mem → Prop} (hP : ∀ m, P m → Rep S m.page) (va : Word) :
    Prog.Triple P (walkpgdir S.dir va false) fun r m =>
      r = (S.tab (PDX va)).map (fun t => (t, PTX va)) ∧ P m := by
  unfold walkpgdir
  refine triple_load.bind fun w m hm => ?_
  obtain ⟨hw, hm⟩ := hm
  have hmap : mapped w = S.tab (PDX va) := hw ▸ (hP m hm).dir _
  refine ⟨(S.tab (PDX va)).map fun t => (t, PTX va), m, ?_, rfl, hm⟩
  cases ht : S.tab (PDX va) with
  | none =>
    rw [if_neg (mapped_eq_none.1 (hmap.trans ht))]
    rfl
  | some t =>
    obtain ⟨hp, hf⟩ := mapped_some.1 (hmap.trans ht)
    rw [if_pos hp, hf]
    rfl

/-- With `alloc`, a table is made unless there is no page for it. -/
theorem walk_alloc (va : Word) :
    Prog.Triple (At W S) (walkpgdir S.dir va true) fun r m => match r with
      | none => At W S m ∧ Short W S.owned
      | some (t, j) => j = PTX va ∧ (S.tab (PDX va) = none ∨ S.tab (PDX va) = some t) ∧
          At W (S.withTable (PDX va) t) m := by
  unfold walkpgdir
  refine triple_load.bind fun w => ?_
  by_cases hp : Present w
  · -- the table is there
    rw [if_pos hp]
    refine Prog.Triple.pure fun m hm => ?_
    obtain ⟨hw, hm⟩ := hm
    have ht : S.tab (PDX va) = some (PTE_ADDR w) := by
      rw [← hm.rep.dir, ← hw]
      exact mapped_some.2 ⟨hp, rfl⟩
    exact ⟨rfl, .inr ht, (Space.withTable_self ht).symm ▸ hm⟩
  · rw [if_neg hp, if_neg (by decide)]
    refine Prog.Triple.bind (Q := fun r m => (S.tab (PDX va) = none ∧ Rep S m.page) ∧ match r with
      | none => In W S.owned m ∧ Short W S.owned
      | some f => f ∈ W.frames ∧ f ∉ S.owned ∧ In (W.hold f (m.page f)) S.owned m) ?_ fun r => ?_
    · refine (kalloc_spec fun p => S.tab (PDX va) = none ∧ Rep S p).weaken (fun m hm => ?_)
        fun _ _ h => h
      obtain ⟨hw, hm⟩ := hm
      refine ⟨hm.pool, ?_, hm.rep⟩
      rw [← hm.rep.dir, ← hw]
      exact mapped_eq_none.2 hp
    · cases r with
      | none => exact Prog.Triple.pure fun m hm => ⟨⟨hm.1.2, hm.2.1⟩, hm.2.2⟩
      | some t =>
        -- the new table is cleared, then entered into the directory
        refine Prog.Triple.bind (Q := fun _ m => S.tab (PDX va) = none ∧ t ∈ W.frames ∧
          t ∉ S.owned ∧ At (W.hold t fun _ => 0) S m) (triple_setPage fun m hm => ?_) fun _ => ?_
        · obtain ⟨⟨hnone, hrep⟩, htW, htS, hin⟩ := hm
          exact ⟨hnone, htW, htS, At.setHeld ⟨hrep, hin⟩ htW _⟩
        refine Prog.Triple.bind (Q := fun _ m => S.tab (PDX va) = none ∧
          At W (S.withTable (PDX va) t) m) (triple_store fun m hm => ?_) fun _ => ?_
        · obtain ⟨hnone, htW, htS, hat⟩ := hm
          obtain ⟨hin, hz⟩ := hat.pool.unhold htW
          have howned : (S.withTable (PDX va) t).owned = t ::ₘ S.owned := Space.owned_table hnone
          refine ⟨hnone, hat.rep.addTable hat.nodup hnone htS hz, ?_⟩
          rw [howned]
          exact hin.write (hin.mem (Multiset.mem_cons_of_mem Space.dir_mem)) _
        · exact Prog.Triple.pure fun m hm => ⟨rfl, .inl hm.1, hm.2⟩

end Xv6.Vm
