import Xv6.Vm.Code
import Xv6.Lib.Slots

/-!
# Address spaces

What a page directory stands for: its tables, the entry of each virtual page, and the contents of the
user pages. An address space owns its directory, its tables and the pages below `KERNBASE`; a pool of
pages is split into what one address space owns and the free list, and everything outside the pool is
left alone. The pool is what makes the results here usable when there are other address spaces.
-/

namespace Xv6.Vm

open Lib Layout

/-! ### Entries -/

/-- The entry refers to a page. -/
abbrev Present (w : Word) : Prop := w &&& PTE_P ≠ 0

/-- The page of an entry. -/
def mapped (w : Word) : Option Frame := if Present w then some (PTE_ADDR w) else none

theorem present_iff {w : Word} : Present w ↔ w.getLsbD 0 = true := by
  have h : w &&& PTE_P = 0 ↔ w.getLsbD 0 = false := by
    constructor
    · intro h
      have := congrArg (·.getLsbD 0) h
      simpa using this
    · intro h
      ext i hi
      by_cases h0 : i = 0
      · simpa [h0, BitVec.getLsbD_eq_getElem] using h
      · have : (1#32)[i] = false := by simp [h0]
        simp [this]
  rw [Present, ne_eq, h, Bool.not_eq_false]

theorem not_present_zero : ¬ Present 0 := by decide

theorem mapped_zero : mapped 0 = none := rfl

theorem mapped_some {w : Word} {f : Frame} : mapped w = some f ↔ Present w ∧ PTE_ADDR w = f := by
  unfold mapped
  split <;> simp_all

theorem mapped_eq_none {w : Word} : mapped w = none ↔ ¬ Present w := by
  unfold mapped
  split <;> simp_all

theorem addr_getLsbD (f : Frame) (i : ℕ) : f.addr.getLsbD i = (decide (12 ≤ i) && f.getLsbD (i - 12)) := by
  unfold Frame.addr
  rw [BitVec.getLsbD_append]
  by_cases h : i < 12
  · simp [h, Nat.not_le.2 h]
  · simp [h, Nat.not_lt.1 h]

theorem getLsbD_of_lt {w : Word} {i : ℕ} (h : w.toNat < 2 ^ i) : w.getLsbD i = false :=
  Nat.testBit_lt_two_pow h

theorem flags_getLsbD {perm : Word} (h : perm.toNat < 4096) {i : ℕ} (hi : 12 ≤ i) :
    perm.getLsbD i = false :=
  getLsbD_of_lt (lt_of_lt_of_le h (Nat.pow_le_pow_right (by decide) hi : 2 ^ 12 ≤ 2 ^ i))

theorem present_entry (pa perm : Word) : Present (pa ||| perm ||| PTE_P) := by
  rw [present_iff]
  simp

theorem PTE_ADDR_entry (f : Frame) {perm : Word} (h : perm.toNat < 4096) :
    PTE_ADDR (f.addr ||| perm ||| PTE_P) = f := by
  unfold PTE_ADDR
  ext i hi
  have h₁ : perm.getLsbD (12 + i) = false := flags_getLsbD h (by omega)
  have h₂ : PTE_P.getLsbD (12 + i) = false := flags_getLsbD (by decide) (by omega)
  rw [BitVec.getElem_extractLsb', BitVec.getLsbD_or, BitVec.getLsbD_or, h₁, h₂, addr_getLsbD]
  simp [BitVec.getLsbD_eq_getElem hi]

theorem mapped_entry (f : Frame) {perm : Word} (h : perm.toNat < 4096) :
    mapped (f.addr ||| perm ||| PTE_P) = some f :=
  mapped_some.2 ⟨present_entry _ _, PTE_ADDR_entry f h⟩

theorem PTE_FLAGS_entry (f : Frame) {perm : Word} (h : perm.toNat < 4096) :
    PTE_FLAGS (f.addr ||| perm ||| PTE_P) = perm ||| PTE_P := by
  unfold PTE_FLAGS
  ext i hi
  have hmask : (0xFFF : Word).getLsbD i = decide (i < 12) :=
    (by decide : ∀ i : Fin 32, (0xFFF : Word).getLsbD i = decide (i.val < 12)) ⟨i, hi⟩
  rw [← BitVec.getLsbD_eq_getElem hi, ← BitVec.getLsbD_eq_getElem hi, BitVec.getLsbD_and,
    BitVec.getLsbD_or, BitVec.getLsbD_or, BitVec.getLsbD_or, hmask, addr_getLsbD]
  by_cases hi12 : i < 12
  · simp [hi12, Nat.not_le.2 hi12]
  · have h₁ := flags_getLsbD h (Nat.not_lt.1 hi12)
    have h₂ : PTE_P.getLsbD i = false := flags_getLsbD (by decide) (Nat.not_lt.1 hi12)
    simp only [hi12, h₁, h₂, decide_false, Bool.and_false, Bool.or_false]

/-- The entry of a page directory. -/
def pde : Option Frame → Word
  | none => 0
  | some t => t.addr ||| PTE_P ||| PTE_W ||| PTE_U

theorem mapped_pde (o : Option Frame) : mapped (pde o) = o := by
  cases o with
  | none => rfl
  | some t =>
    have h : pde (some t) = t.addr ||| (PTE_W ||| PTE_U) ||| PTE_P := by
      show t.addr ||| PTE_P ||| PTE_W ||| PTE_U = _
      rw [BitVec.or_assoc, BitVec.or_assoc, BitVec.or_assoc]
      rfl
    rw [h]
    exact mapped_entry t (by decide)

/-! ### Page numbers -/

def vpn (va : Word) : ℕ := va.toNat / 4096

def vaddr (v : ℕ) : Word := BitVec.ofNat 32 (4096 * v)

/-- The number of pages below a size. -/
def pages (sz : Word) : ℕ := (sz.toNat + 4095) / 4096

theorem vpn_lt (va : Word) : vpn va < 2 ^ 20 := by
  have := va.isLt
  unfold vpn
  omega

theorem vaddr_toNat {v : ℕ} (h : v < 2 ^ 20) : (vaddr v).toNat = 4096 * v := by
  unfold vaddr
  rw [BitVec.toNat_ofNat, Nat.mod_eq_of_lt (by omega)]

theorem vpn_vaddr {v : ℕ} (h : v < 2 ^ 20) : vpn (vaddr v) = v := by
  unfold vpn
  rw [vaddr_toNat h]
  omega

theorem PDX_val (va : Word) : (PDX va).val = vpn va / 1024 := by
  have := va.isLt
  unfold PDX vpn
  rw [Fin.val_ofNat, Nat.shiftRight_eq_div_pow]
  omega

theorem PTX_val (va : Word) : (PTX va).val = vpn va % 1024 := by
  unfold PTX vpn
  rw [Fin.val_ofNat, Nat.shiftRight_eq_div_pow]

theorem PDX_PTX (va : Word) : 1024 * (PDX va).val + (PTX va).val = vpn va := by
  rw [PDX_val, PTX_val]
  omega

theorem PGROUNDDOWN_toNat (a : Word) : (PGROUNDDOWN a).toNat = 4096 * vpn a := by
  have h : PGROUNDDOWN a = (a >>> 12) <<< 12 := by
    unfold PGROUNDDOWN
    ext i hi
    have hmask : (~~~(PGSIZE - 1)).getLsbD i = decide (12 ≤ i) :=
      (by decide : ∀ i : Fin 32, (~~~(PGSIZE - 1)).getLsbD i = decide (12 ≤ i.val)) ⟨i, hi⟩
    rw [← BitVec.getLsbD_eq_getElem hi, ← BitVec.getLsbD_eq_getElem hi, BitVec.getLsbD_and, hmask,
      BitVec.getLsbD_shiftLeft, BitVec.getLsbD_ushiftRight]
    by_cases h12 : i < 12
    · simp [h12, Nat.not_le.2 h12]
    · simp [h12, Nat.not_lt.1 h12, hi]
  have := a.isLt
  rw [h, BitVec.toNat_shiftLeft, BitVec.toNat_ushiftRight, Nat.shiftLeft_eq, Nat.shiftRight_eq_div_pow]
  unfold vpn
  omega

theorem PGROUNDDOWN_eq (a : Word) : PGROUNDDOWN a = vaddr (vpn a) := by
  apply BitVec.eq_of_toNat_eq
  rw [PGROUNDDOWN_toNat, vaddr_toNat (vpn_lt a)]

theorem PGROUNDDOWN_vaddr {v : ℕ} (h : v < 2 ^ 20) : PGROUNDDOWN (vaddr v) = vaddr v := by
  rw [PGROUNDDOWN_eq, vpn_vaddr h]

theorem vaddr_add (v : ℕ) : vaddr v + PGSIZE = vaddr (v + 1) := by
  unfold vaddr
  rw [Nat.mul_add, BitVec.ofNat_add]
  rfl

/-- Below `KERNBASE` rounding up does not wrap around. -/
theorem PGROUNDUP_eq {sz : Word} (h : sz.toNat ≤ 2 ^ 31) : PGROUNDUP sz = vaddr (pages sz) := by
  have h₁ : (sz + PGSIZE - 1).toNat = sz.toNat + 4095 := by
    rw [show sz + PGSIZE - 1 = sz + 4095 from by bv_omega, BitVec.toNat_add]
    exact Nat.mod_eq_of_lt (by simp; omega)
  show PGROUNDDOWN (sz + PGSIZE - 1) = _
  rw [PGROUNDDOWN_eq, vpn, h₁, pages]

theorem pages_le {sz : Word} (h : sz.toNat ≤ 2 ^ 31) : pages sz ≤ 2 ^ 19 := by
  unfold pages
  omega

theorem vaddr_lt {v : ℕ} {sz : Word} (h : v < 2 ^ 20) : vaddr v < sz ↔ v < pages sz := by
  show (vaddr v).toNat < sz.toNat ↔ _
  rw [vaddr_toNat h]
  unfold pages
  omega

theorem pages_vaddr {v : ℕ} (h : v < 2 ^ 20) : pages (vaddr v) = v := by
  rw [pages, vaddr_toNat h]
  omega

theorem vaddr_lt_KERNBASE {v : ℕ} (h : v < 2 ^ 19) : vaddr v < KERNBASE :=
  (vaddr_lt (by omega)).2 h

/-! ### Address spaces -/

/-- An address space: the page of the directory, the tables, the entry of each page, and the contents
of the user pages. -/
@[ext]
structure Space where
  dir : Frame
  tab : Fin 1024 → Option Frame
  leaf : ℕ → Word
  page : ℕ → Page

namespace Space

variable (S : Space)

/-- The page that a virtual page is mapped to. -/
def user (v : ℕ) : Option Frame := mapped (S.leaf v)

def tables : Multiset Frame := slots (List.finRange 1024) S.tab

/-- The pages that are mapped below `KERNBASE`. -/
def users : Multiset Frame := slots (List.range (2 ^ 19)) S.user

/-- The pages that the address space owns. -/
def owned : Multiset Frame := S.dir ::ₘ (S.tables + S.users)

variable {S} {i i' : Fin 1024} {t f : Frame} {v v' : ℕ} {w : Word}

theorem mem_tables (h : S.tab i = some t) : t ∈ S.tables := mem_slots.2 ⟨i, List.mem_finRange i, h⟩

theorem mem_users (hv : v < 2 ^ 19) (h : S.user v = some f) : f ∈ S.users :=
  mem_slots.2 ⟨v, List.mem_range.2 hv, h⟩

theorem dir_mem : S.dir ∈ S.owned := Multiset.mem_cons_self _ _

theorem tab_mem (h : S.tab i = some t) : t ∈ S.owned :=
  Multiset.mem_cons_of_mem (Multiset.mem_add.2 (.inl (mem_tables h)))

theorem user_mem (hv : v < 2 ^ 19) (h : S.user v = some f) : f ∈ S.owned :=
  Multiset.mem_cons_of_mem (Multiset.mem_add.2 (.inr (mem_users hv h)))

theorem mem_owned : f ∈ S.owned ↔
    f = S.dir ∨ (∃ i, S.tab i = some f) ∨ ∃ v < 2 ^ 19, S.user v = some f := by
  constructor
  · intro h
    rcases Multiset.mem_cons.1 h with h | h
    · exact .inl h
    · rcases Multiset.mem_add.1 h with h | h
      · obtain ⟨i, _, hi⟩ := mem_slots.1 h
        exact .inr (.inl ⟨i, hi⟩)
      · obtain ⟨v, hv, h⟩ := mem_slots.1 h
        exact .inr (.inr ⟨v, List.mem_range.1 hv, h⟩)
  · rintro (rfl | ⟨i, hi⟩ | ⟨v, hv, h⟩)
    · exact dir_mem
    · exact tab_mem hi
    · exact user_mem hv h

/-! The pages are told apart by what they are for. -/

section nodup

variable (hn : S.owned.Nodup)
include hn

theorem tab_ne_dir (h : S.tab i = some t) : t ≠ S.dir := by
  rintro rfl
  exact (Multiset.nodup_cons.1 hn).1 (Multiset.mem_add.2 (.inl (mem_tables h)))

theorem user_ne_dir (hv : v < 2 ^ 19) (h : S.user v = some f) : f ≠ S.dir := by
  rintro rfl
  exact (Multiset.nodup_cons.1 hn).1 (Multiset.mem_add.2 (.inr (mem_users hv h)))

theorem user_ne_tab (hv : v < 2 ^ 19) (h : S.user v = some f) (ht : S.tab i = some t) : f ≠ t := by
  rintro rfl
  have hd := (Multiset.nodup_add.1 (Multiset.nodup_cons.1 hn).2).2.2
  exact Multiset.disjoint_left.1 hd (mem_tables ht) (mem_users hv h)

theorem tab_inj (h : S.tab i = some t) (h' : S.tab i' = some t) : i = i' :=
  slots_inj (List.nodup_finRange 1024) (Multiset.nodup_add.1 (Multiset.nodup_cons.1 hn).2).1
    (List.mem_finRange i) (List.mem_finRange i') h h'

theorem user_inj (hv : v < 2 ^ 19) (hv' : v' < 2 ^ 19) (h : S.user v = some f)
    (h' : S.user v' = some f) : v = v' :=
  slots_inj List.nodup_range (Multiset.nodup_add.1 (Multiset.nodup_cons.1 hn).2).2.1
    (List.mem_range.2 hv) (List.mem_range.2 hv') h h'

end nodup

/-! ### How the owned pages change -/

theorem user_update (v v' : ℕ) (w : Word) (page : ℕ → Page) :
    ({ S with leaf := Function.update S.leaf v w, page := page } : Space).user v' =
      if v' = v then mapped w else S.user v' := by
  unfold user
  dsimp only
  by_cases h : v' = v
  · rw [h, Function.update_self, if_pos rfl]
  · rw [Function.update_of_ne h, if_neg h]

theorem users_map (hv : v < 2 ^ 19) (h : S.user v = none) (hw : mapped w = some f)
    (page : ℕ → Page) :
    ({ S with leaf := Function.update S.leaf v w, page := page } : Space).users = f ::ₘ S.users :=
  slots_fill List.nodup_range (List.mem_range.2 hv) h
    (by rw [user_update, if_pos rfl, hw]) fun x _ hx => by rw [user_update, if_neg hx]

theorem owned_map (hv : v < 2 ^ 19) (h : S.user v = none) (hw : mapped w = some f) (page : ℕ → Page) :
    ({ S with leaf := Function.update S.leaf v w, page := page } : Space).owned = f ::ₘ S.owned := by
  show S.dir ::ₘ (S.tables + _) = _
  rw [users_map hv h hw, Multiset.add_cons, Multiset.cons_swap]
  rfl

theorem owned_unmap (hv : v < 2 ^ 19) (h : S.user v = some f) :
    S.owned = f ::ₘ ({ S with leaf := Function.update S.leaf v 0 } : Space).owned := by
  have hempty : ({ S with leaf := Function.update S.leaf v 0 } : Space).user v = none := by
    rw [user_update, if_pos rfl]
    rfl
  have husers : S.users = f ::ₘ ({ S with leaf := Function.update S.leaf v 0 } : Space).users :=
    slots_fill List.nodup_range (List.mem_range.2 hv) hempty h
      fun x _ hx => by rw [user_update, if_neg hx]
  unfold owned
  rw [husers, Multiset.add_cons, Multiset.cons_swap]
  rfl

/-- An entry changes that is not one of a user page, or keeps its page. -/
theorem owned_of_mapped (h : v < 2 ^ 19 → mapped w = S.user v) (page : ℕ → Page) :
    ({ S with leaf := Function.update S.leaf v w, page := page } : Space).owned = S.owned := by
  have husers : ({ S with leaf := Function.update S.leaf v w, page := page } : Space).users = S.users := by
    refine slots_congr fun x hx => ?_
    rw [user_update]
    split
    · rename_i hxv
      rw [hxv] at hx ⊢
      exact h (List.mem_range.1 hx)
    · rfl
  show S.dir ::ₘ (S.tables + _) = _
  rw [husers]
  rfl

theorem owned_table (h : S.tab i = none) :
    ({ S with tab := Function.update S.tab i (some t) } : Space).owned = t ::ₘ S.owned := by
  have htables : ({ S with tab := Function.update S.tab i (some t) } : Space).tables =
      t ::ₘ S.tables :=
    slots_fill (List.nodup_finRange 1024) (List.mem_finRange i) h (Function.update_self i _ _)
      fun x _ hx => Function.update_of_ne hx _ _
  show S.dir ::ₘ (_ + S.users) = _
  rw [htables, Multiset.cons_add, Multiset.cons_swap]
  rfl

/-- The address space with a table for the address. -/
def withTable (S : Space) (i : Fin 1024) (t : Frame) : Space :=
  { S with tab := Function.update S.tab i (some t) }

theorem withTable_self (h : S.tab i = some t) : S.withTable i t = S := by
  unfold withTable
  rw [← h, Function.update_eq_self]

/-- The address space with other contents of a user page. -/
def write (S : Space) (v : ℕ) (pg : Page) : Space := { S with page := Function.update S.page v pg }

theorem owned_card_le (S : Space) : S.owned.card ≤ 1025 + S.users.card := by
  have := slots_card_le (l := List.finRange 1024) (f := S.tab)
  rw [List.length_finRange] at this
  unfold owned tables
  rw [Multiset.card_cons, Multiset.card_add]
  omega

end Space

/-! ### The address space in memory -/

/-- The pages `p` hold the address space `S`. -/
structure Rep (S : Space) (p : Frame → Page) : Prop where
  dir : ∀ i, mapped (p S.dir i) = S.tab i
  tab : ∀ {i t}, S.tab i = some t → ∀ j : Fin 1024, p t j = S.leaf (1024 * i + j)
  none : ∀ {i}, S.tab i = none → ∀ j : Fin 1024, S.leaf (1024 * i + j) = 0
  absent : ∀ {v}, v < 2 ^ 20 → ¬ Present (S.leaf v) → S.leaf v = 0
  page : ∀ {v f}, v < 2 ^ 19 → S.user v = some f → p f = S.page v

namespace Rep

variable {S : Space} {p p' : Frame → Page} {i : Fin 1024} {t f : Frame} {v : ℕ} {w : Word}

theorem congr (h : Rep S p) (heq : ∀ f ∈ S.owned, p' f = p f) : Rep S p' where
  dir i := by rw [heq _ Space.dir_mem, h.dir]
  tab ht j := by rw [heq _ (Space.tab_mem ht), h.tab ht]
  none := h.none
  absent := h.absent
  page hv hf := by rw [heq _ (Space.user_mem hv hf), h.page hv hf]

theorem leaf (h : Rep S p) {va : Word} (ht : S.tab (PDX va) = some t) :
    p t (PTX va) = S.leaf (vpn va) := by
  rw [h.tab ht, PDX_PTX]

theorem leaf_of_none (h : Rep S p) {va : Word} (ht : S.tab (PDX va) = Option.none) :
    S.leaf (vpn va) = 0 := by
  rw [← PDX_PTX]
  exact h.none ht _

theorem tab_of_present (h : Rep S p) {va : Word} (hp : Present (S.leaf (vpn va))) :
    ∃ t, S.tab (PDX va) = some t := by
  cases ht : S.tab (PDX va) with
  | none =>
    rw [h.leaf_of_none ht] at hp
    exact absurd hp not_present_zero
  | some t => exact ⟨t, rfl⟩

theorem index_ne {a b : Fin 1024} {va : Word} (h : ¬ (a = PDX va ∧ b = PTX va)) :
    1024 * a.val + b.val ≠ vpn va := by
  rw [← PDX_PTX]
  intro heq
  refine h ⟨Fin.ext ?_, Fin.ext ?_⟩
  · have := b.isLt
    have := (PTX va).isLt
    omega
  · have := b.isLt
    have := (PTX va).isLt
    omega

/-- An entry is written. The contents of the user pages are those of memory. -/
theorem store (h : Rep S p) (hn : S.owned.Nodup) {va : Word} (ht : S.tab (PDX va) = some t)
    (hw : Present w ∨ w = 0) {page : ℕ → Page}
    (hold : ∀ v < 2 ^ 19, ∀ f, v ≠ vpn va → S.user v = some f → page v = p f)
    (hnew : ∀ f, vpn va < 2 ^ 19 → mapped w = some f → f ≠ t ∧ page (vpn va) = p f) :
    Rep { S with leaf := Function.update S.leaf (vpn va) w, page := page }
      (Function.update p t (Function.update (p t) (PTX va) w)) where
  dir i := by rw [Function.update_of_ne (Space.tab_ne_dir hn ht).symm, h.dir]
  tab {i t'} ht' j := by
    dsimp only at ht' ⊢
    by_cases htt : t' = t
    · subst htt
      obtain rfl : i = PDX va := Space.tab_inj hn ht' ht
      rw [Function.update_self]
      by_cases hj : j = PTX va
      · rw [hj, PDX_PTX, Function.update_self, Function.update_self]
      · rw [Function.update_of_ne hj, Function.update_of_ne (index_ne fun h => hj h.2), h.tab ht]
    · have hi : i ≠ PDX va := fun hi => htt (Option.some.inj (ht'.symm.trans (hi ▸ ht)))
      rw [Function.update_of_ne htt, Function.update_of_ne (index_ne fun h => hi h.1), h.tab ht']
  none {i} hi j := by
    have hne : i ≠ PDX va := by
      rintro rfl
      cases hi.symm.trans ht
    dsimp only
    rw [Function.update_of_ne (index_ne fun h => hne h.1), h.none hi]
  absent {v} hv hp := by
    dsimp only at hp ⊢
    by_cases hva : v = vpn va
    · rw [hva, Function.update_self] at hp ⊢
      exact hw.resolve_left hp
    · rw [Function.update_of_ne hva] at hp ⊢
      exact h.absent hv hp
  page {v f} hv hf := by
    rw [Space.user_update] at hf
    split at hf
    · rename_i hva
      obtain ⟨hft, hpage⟩ := hnew f (hva ▸ hv) hf
      rw [Function.update_of_ne hft, hva]
      exact hpage.symm
    · rename_i hva
      rw [Function.update_of_ne (Space.user_ne_tab hn hv hf ht)]
      exact (hold v hv f hva hf).symm

theorem addTable (h : Rep S p) (hn : S.owned.Nodup) (hi : S.tab i = Option.none) (ht : t ∉ S.owned)
    (hz : p t = fun _ => 0) :
    Rep { S with tab := Function.update S.tab i (some t) }
      (Function.update p S.dir (Function.update (p S.dir) i (pde (some t)))) where
  dir i' := by
    dsimp only
    rw [Function.update_self]
    by_cases hii : i' = i
    · rw [hii, Function.update_self, Function.update_self, mapped_pde]
    · rw [Function.update_of_ne hii, Function.update_of_ne hii, h.dir]
  tab {i' t'} ht' j := by
    have htd : t ≠ S.dir := fun htd => ht (htd ▸ Space.dir_mem)
    dsimp only at ht' ⊢
    by_cases hii : i' = i
    · subst hii
      rw [Function.update_self] at ht'
      obtain rfl := Option.some.inj ht'
      rw [Function.update_of_ne htd, hz, h.none hi]
    · rw [Function.update_of_ne hii] at ht'
      rw [Function.update_of_ne (Space.tab_ne_dir hn ht'), h.tab ht']
  none {i'} hi' j := by
    dsimp only at hi' ⊢
    by_cases hii : i' = i
    · rw [hii, Function.update_self] at hi'
      cases hi'
    · rw [Function.update_of_ne hii] at hi'
      exact h.none hi' j
  absent := h.absent
  page hv hf := by rw [Function.update_of_ne (Space.user_ne_dir hn hv hf), h.page hv hf]

end Rep

end Xv6.Vm
