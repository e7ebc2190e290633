import Xv6.Vm.Walk

/-!
# `mappages`, `deallocuvm`, `freevm` and `setupkvm`

How the entries of an address space are written, and the loops that write them. A loop that fails half
way leaves an address space with what it has done so far.
-/

namespace Xv6.Vm

open Lib Layout

variable [Layout] {W : Pool} {X : Multiset Frame} {m : Mem} {f t : Frame} {pg : Page} {S : Space}
  {va w perm : Word} {v : ℕ}

/-! ### One entry -/

namespace At

theorem map (h : At (W.hold f pg) S m) (hf : f ∈ W.frames) (ht : S.tab (PDX va) = some t)
    (hv : vpn va < 2 ^ 19) (hn : ¬ Present (S.leaf (vpn va))) (hw : mapped w = some f) :
    At W { S with
        leaf := Function.update S.leaf (vpn va) w, page := Function.update S.page (vpn va) pg }
      { m with page := Function.update m.page t (Function.update (m.page t) (PTX va) w) } := by
  obtain ⟨hin, hpg⟩ := h.pool.unhold hf
  have hne : f ≠ t := by
    rintro rfl
    exact h.pool.notMem (Space.tab_mem ht)
  refine ⟨h.rep.store h.nodup ht (.inl (mapped_some.1 hw).1) (fun x hx g hxv hg => ?_)
    fun g _ hg => ?_, ?_⟩
  · rw [Function.update_of_ne hxv, h.rep.page hx hg]
  · obtain rfl := Option.some.inj (hw.symm.trans hg)
    exact ⟨hne, by rw [Function.update_self, hpg]⟩
  · rw [Space.owned_map hv (mapped_eq_none.2 hn) hw]
    exact hin.write (hin.mem (Multiset.mem_cons_of_mem (Space.tab_mem ht))) _

/-- An entry is written that refers to no user page, or to the same one as before. -/
theorem setLeaf (h : At W S m) (ht : S.tab (PDX va) = some t) (hp : Present w)
    (hw : vpn va < 2 ^ 19 → mapped w = S.user (vpn va)) :
    At W { S with leaf := Function.update S.leaf (vpn va) w }
      { m with page := Function.update m.page t (Function.update (m.page t) (PTX va) w) } := by
  refine ⟨h.rep.store h.nodup ht (.inl hp) (fun x hx g _ hg => (h.rep.page hx hg).symm)
    fun g hv hg => ?_, ?_⟩
  · rw [hw hv] at hg
    exact ⟨Space.user_ne_tab h.nodup hv hg ht, (h.rep.page hv hg).symm⟩
  · rw [Space.owned_of_mapped hw]
    exact h.pool.write (h.pool.mem (Space.tab_mem ht)) _

theorem unmap (h : At W S m) (ht : S.tab (PDX va) = some t) (hv : vpn va < 2 ^ 19)
    (hf : S.user (vpn va) = some f) :
    ∃ m', (kfree f).eval m = (.ok (), m') ∧
      At W { S with leaf := Function.update S.leaf (vpn va) 0 }
        { m' with page := Function.update m'.page t (Function.update (m'.page t) (PTX va) 0) } := by
  have howned := Space.owned_unmap hv hf
  have hft := Space.user_ne_tab h.nodup hv hf ht
  have hfn : f ∉ ({ S with leaf := Function.update S.leaf (vpn va) 0 } : Space).owned := by
    have hn := h.nodup
    rw [howned, Multiset.nodup_cons] at hn
    exact hn.1
  have hin := h.pool
  rw [howned] at hin
  obtain ⟨m', hm', hin', hpage⟩ := hin.kfree
  -- the entry may as well be cleared first
  have hrep : Rep { S with leaf := Function.update S.leaf (vpn va) 0 }
      (Function.update m.page t (Function.update (m.page t) (PTX va) 0)) :=
    h.rep.store h.nodup ht (.inr rfl) (fun x hx g _ hg => (h.rep.page hx hg).symm) fun g _ hg => nomatch hg
  refine ⟨m', hm', hrep.congr fun g hg => ?_, hin'.write (hin'.mem (Space.tab_mem ht)) _⟩
  have hgf : g ≠ f := by
    rintro rfl
    exact hfn hg
  dsimp only
  by_cases hgt : g = t
  · rw [hgt, Function.update_self, Function.update_self, hpage t hft.symm]
  · rw [Function.update_of_ne hgt, Function.update_of_ne hgt, hpage g hgf]

end At

/-! ### `mappages` -/

/-- The address space with one more user page, for which `t` is the table. -/
def Space.map (S : Space) (v : ℕ) (w : Word) (pg : Page) (t : Frame) : Space where
  dir := S.dir
  tab := Function.update S.tab (PDX (vaddr v)) (some t)
  leaf := Function.update S.leaf v w
  page := Function.update S.page v pg

omit [Layout] in
theorem last_eq {v n : ℕ} (hn : 0 < n) (hv : v + n ≤ 2 ^ 20) :
    PGROUNDDOWN (vaddr v + vaddr n - 1) = vaddr (v + n - 1) := by
  have h : (vaddr v + vaddr n - 1).toNat = 4096 * (v + n) - 1 := by
    unfold vaddr
    rw [← BitVec.ofNat_add, BitVec.toNat_sub, BitVec.toNat_ofNat]
    have h₁ : BitVec.toNat (1 : Word) = 1 := rfl
    rw [h₁]
    omega
  rw [PGROUNDDOWN_eq, vpn, h]
  congr 1
  omega

theorem mappages_user (hf : f ∈ W.frames) (hv : v < 2 ^ 19) (hn : ¬ Present (S.leaf v))
    (hperm : perm.toNat < 4096) :
    Prog.Triple (At (W.hold f pg) S) (mappages S.dir (vaddr v) PGSIZE f.addr perm) fun r m =>
      (r = 0 ∧ ∃ t, (S.tab (PDX (vaddr v)) = none ∨ S.tab (PDX (vaddr v)) = some t) ∧
        At W (S.map v (f.addr ||| perm ||| PTE_P) pg t) m) ∨
      (r = -1 ∧ At (W.hold f pg) S m ∧ Short (W.hold f pg) S.owned) := by
  have hv' : v < 2 ^ 20 := by omega
  have hvpn : vpn (vaddr v) = v := vpn_vaddr hv'
  have hlast : PGROUNDDOWN (vaddr v + PGSIZE - 1) = vaddr v := last_eq (n := 1) (by decide) (by omega)
  unfold mappages
  rw [PGROUNDDOWN_vaddr hv', hlast]
  -- the first turn is the last one
  refine (Prog.Triple.loop (I := fun x m => (x = (vaddr v, f.addr)) ∧ At (W.hold f pg) S m)
    (v := fun _ => 0) (fun x => Prog.Triple.of_imp ?_) (by decide : 0 < fuel)).weaken
    (fun m hm => ⟨rfl, hm⟩) fun _ _ h => h
  rintro rfl
  dsimp only
  refine (walk_alloc (vaddr v)).bind fun r => ?_
  cases r with
  | none => exact Prog.Triple.pure fun m hm => .inr ⟨rfl, hm⟩
  | some r =>
    obtain ⟨t, j⟩ := r
    dsimp only
    refine Prog.Triple.of_imp fun hj => Prog.Triple.of_imp fun htab => ?_
    subst hj
    have ht : (S.withTable (PDX (vaddr v)) t).tab (PDX (vaddr v)) = some t := Function.update_self ..
    refine triple_load.bind fun w m hm => ?_
    obtain ⟨hw, hat⟩ := hm
    rw [hat.rep.leaf ht, hvpn] at hw
    rw [if_neg (hw ▸ hn)]
    have hmap := hat.map (w := f.addr ||| perm ||| PTE_P) hf ht (hvpn.symm ▸ hv) (hvpn.symm ▸ hn)
      (mapped_entry f hperm)
    rw [hvpn] at hmap
    refine ⟨.inr 0, _, ?_, .inl ⟨rfl, t, htab, hmap⟩⟩
    rw [if_pos rfl]
    rfl

/-! ### The kernel's part -/

namespace Kmap

variable (k : Kmap)

def first : ℕ := vpn k.virt

def count : ℕ := vpn (k.phys_end - k.phys_start)

def Covers (v : ℕ) : Prop := k.first ≤ v ∧ v < k.first + k.count

instance (v : ℕ) : Decidable (k.Covers v) := inferInstanceAs (Decidable (_ ∧ _))

/-- The entry that a row prescribes. -/
def entry (v : ℕ) : Word := vaddr (vpn k.phys_start + (v - k.first)) ||| k.perm ||| PTE_P

/-- A row of whole pages in the upper half of the addresses. -/
structure Ok : Prop where
  virt : k.virt = vaddr k.first
  size : k.phys_end - k.phys_start = vaddr k.count
  phys : k.phys_start = vaddr (vpn k.phys_start)
  pos : 0 < k.count
  kern : 2 ^ 19 ≤ k.first
  top : k.first + k.count ≤ 2 ^ 20

end Kmap

variable {k : Kmap} {ks : List Kmap}

/-- The address space with the first `n` pages of a row mapped. -/
def Space.mapRow (S : Space) (k : Kmap) (n : ℕ) (tab : Fin 1024 → Option Frame) : Space :=
  { S with
    tab := tab
    leaf := fun v => if k.first ≤ v ∧ v < k.first + n then k.entry v else S.leaf v }

/-- Tables are added only where a row has pages. -/
def TabsFor (ks : List Kmap) (tab tab' : Fin 1024 → Option Frame) : Prop :=
  ∀ i, tab' i ≠ tab i → ∃ k ∈ ks, ∃ v, k.Covers v ∧ v / 1024 = i.val

omit [Layout] in
theorem Space.mapRow_users (hk : k.Ok) (n : ℕ) (tab : Fin 1024 → Option Frame) :
    (S.mapRow k n tab).users = S.users := by
  refine slots_congr fun v hv => ?_
  have := hk.kern
  have := List.mem_range.1 hv
  show mapped (if k.first ≤ v ∧ v < k.first + n then k.entry v else S.leaf v) = mapped (S.leaf v)
  rw [if_neg (by omega)]

theorem mappages_kernel (hk : k.Ok) (hn : ∀ v, k.Covers v → ¬ Present (S.leaf v)) :
    Prog.Triple (At W S) (mappages S.dir k.virt (k.phys_end - k.phys_start) k.phys_start k.perm)
      fun r m => ∃ n tab, TabsFor [k] S.tab tab ∧ At W (S.mapRow k n tab) m ∧
        (r = 0 ∧ n = k.count ∨ r = -1 ∧ Short W (S.mapRow k n tab).owned) := by
  have htop := hk.top
  have hpos := hk.pos
  have hfirst : k.first < 2 ^ 20 := by omega
  unfold mappages
  conv in PGROUNDDOWN (_ - _) => rw [hk.virt, hk.size, last_eq hpos htop]
  conv in PGROUNDDOWN k.virt => rw [hk.virt, PGROUNDDOWN_vaddr hfirst]
  -- `n` pages have been mapped before each turn
  refine (Prog.Triple.loop (I := fun x m => ∃ n tab, (x = (vaddr (k.first + n),
      vaddr (vpn k.phys_start + n)) ∧ n < k.count ∧ TabsFor [k] S.tab tab) ∧ At W (S.mapRow k n tab) m)
    (v := fun x => 2 ^ 20 - vpn x.1) (fun x => Prog.Triple.exists fun n => Prog.Triple.exists fun tab =>
      Prog.Triple.of_imp ?_) ?_).weaken ?_ fun _ _ h => h
  · rintro ⟨rfl, hlt, htab⟩
    have hv : k.first + n < 2 ^ 20 := by omega
    have hvpn := vpn_vaddr hv
    dsimp only
    refine (walk_alloc (S := S.mapRow k n tab) _).bind fun r => ?_
    cases r with
    | none => exact Prog.Triple.pure fun m hm => ⟨n, tab, htab, hm.1, .inr ⟨rfl, hm.2⟩⟩
    | some r =>
      obtain ⟨t, j⟩ := r
      dsimp only
      refine Prog.Triple.of_imp fun hj => Prog.Triple.of_imp fun _ => ?_
      subst hj
      have ht : ((S.mapRow k n tab).withTable (PDX (vaddr (k.first + n))) t).tab
          (PDX (vaddr (k.first + n))) = some t := Function.update_self ..
      have hleaf : (S.mapRow k n tab).leaf (k.first + n) = S.leaf (k.first + n) := if_neg (by omega)
      refine triple_load.bind fun w m hm => ?_
      obtain ⟨hw, hat⟩ := hm
      have hw' : w = S.leaf (k.first + n) := by
        rw [hw, hat.rep.leaf ht, hvpn]
        exact hleaf
      rw [if_neg (hw' ▸ hn _ ⟨by omega, by omega⟩)]
      have hmap := hat.setLeaf (w := vaddr (vpn k.phys_start + n) ||| k.perm ||| PTE_P) ht
        (present_entry _ _) fun hlow => by
          rw [hvpn] at hlow
          have := hk.kern
          omega
      rw [hvpn] at hmap
      -- the space that the turn leaves
      have hS : ({ (S.mapRow k n tab).withTable (PDX (vaddr (k.first + n))) t with
            leaf := Function.update (S.mapRow k n tab).leaf (k.first + n)
              (vaddr (vpn k.phys_start + n) ||| k.perm ||| PTE_P) } : Space) =
          S.mapRow k (n + 1) (Function.update tab (PDX (vaddr (k.first + n))) (some t)) := by
        refine Space.ext rfl rfl (funext fun x => ?_) rfl
        dsimp only [Space.mapRow, Space.withTable]
        by_cases hx : x = k.first + n
        · rw [hx, Function.update_self, if_pos (by omega), Kmap.entry, Nat.add_sub_cancel_left]
        · rw [Function.update_of_ne hx]
          by_cases hx' : k.first ≤ x ∧ x < k.first + n
          · rw [if_pos hx', if_pos (by omega)]
          · rw [if_neg hx', if_neg (by omega)]
      have htab' : TabsFor [k] S.tab (Function.update tab (PDX (vaddr (k.first + n))) (some t)) := by
        intro i hi
        by_cases hii : i = PDX (vaddr (k.first + n))
        · refine ⟨k, List.mem_cons_self, k.first + n, ⟨by omega, by omega⟩, ?_⟩
          rw [hii, PDX_val, hvpn]
        · rw [Function.update_of_ne hii] at hi
          exact htab i hi
      have hat' := hS ▸ hmap
      by_cases hend : vaddr (k.first + n) = vaddr (k.first + k.count - 1)
      · have hcount : n + 1 = k.count := by
          have := congrArg vpn hend
          rw [hvpn, vpn_vaddr (by omega)] at this
          omega
        refine ⟨.inr 0, _, ?_, n + 1, _, htab', hat', .inl ⟨rfl, hcount⟩⟩
        rw [if_pos hend]
        rfl
      · have hcount : n + 1 < k.count := by
          by_contra hge
          exact hend (congrArg vaddr (by omega))
        refine ⟨.inl (vaddr (k.first + (n + 1)), vaddr (vpn k.phys_start + (n + 1))), _, ?_,
          ⟨n + 1, _, ⟨rfl, hcount, htab'⟩, hat'⟩, ?_⟩
        · rw [if_neg hend, vaddr_add, vaddr_add]
          rfl
        · dsimp only
          rw [hvpn, vpn_vaddr (by omega)]
          omega
  · show 2 ^ 20 - vpn (vaddr k.first) < fuel
    unfold fuel
    omega
  · intro m hm
    refine ⟨0, S.tab, ⟨?_, hpos, fun i hi => absurd rfl hi⟩, ?_⟩
    · rw [Nat.add_zero, Nat.add_zero, ← hk.phys]
    · have : S.mapRow k 0 S.tab = S :=
        Space.ext rfl rfl (funext fun x => if_neg (by omega)) rfl
      rwa [this]

/-! ### `deallocuvm` and `freevm` -/

/-- The address space without the pages from `lo` up to `hi`. -/
def Space.clear (S : Space) (lo hi : ℕ) : Space :=
  { S with leaf := fun v => if lo ≤ v ∧ v < hi then 0 else S.leaf v }

omit [Layout] in
theorem Space.clear_congr {lo hi : ℕ} (lo' hi' : ℕ)
    (h : ∀ v, (lo ≤ v ∧ v < hi ↔ lo' ≤ v ∧ v < hi') ∨ S.leaf v = 0) :
    S.clear lo hi = S.clear lo' hi' := by
  refine Space.ext rfl rfl (funext fun v => ?_) rfl
  dsimp only [clear]
  rcases h v with h | h
  · by_cases hv : lo ≤ v ∧ v < hi
    · rw [if_pos hv, if_pos (h.1 hv)]
    · rw [if_neg hv, if_neg fun hv' => hv (h.2 hv')]
  · rw [h]
    split <;> split <;> rfl

omit [Layout] in
theorem Space.clear_empty {lo hi : ℕ} (h : hi ≤ lo) : S.clear lo hi = S :=
  Space.ext rfl rfl (funext fun v => if_neg (by omega)) rfl

omit [Layout] in
theorem Space.clear_succ {lo x : ℕ} (h : lo ≤ x) :
    ({ S.clear lo x with leaf := Function.update (S.clear lo x).leaf x 0 } : Space) =
      S.clear lo (x + 1) := by
  refine Space.ext rfl rfl (funext fun v => ?_) rfl
  dsimp only [clear]
  by_cases hv : v = x
  · rw [hv, Function.update_self, if_pos (by omega)]
  · rw [Function.update_of_ne hv]
    by_cases hv' : lo ≤ v ∧ v < x
    · rw [if_pos hv', if_pos (by omega)]
    · rw [if_neg hv', if_neg (by omega)]

omit [Layout] in
theorem PGADDR_eq (d : ℕ) : PGADDR d - PGSIZE + PGSIZE = vaddr (1024 * d) := by
  rw [BitVec.sub_add_cancel]
  unfold PGADDR vaddr
  apply BitVec.eq_of_toNat_eq
  rw [BitVec.toNat_shiftLeft, BitVec.toNat_ofNat, BitVec.toNat_ofNat, Nat.shiftLeft_eq]
  omega

theorem dealloc_spec {oldsz : Word} (newsz : Word) (hold : oldsz.toNat ≤ 2 ^ 31) :
    Prog.Triple (At W S) (deallocuvm S.dir oldsz newsz) fun r m =>
      (r = if newsz ≥ oldsz then oldsz else newsz) ∧ At W (S.clear (pages newsz) (pages oldsz)) m := by
  unfold deallocuvm
  by_cases hle : newsz ≥ oldsz
  · rw [if_pos hle, if_pos hle]
    have hpages : pages oldsz ≤ pages newsz := by
      have : oldsz.toNat ≤ newsz.toNat := hle
      unfold pages
      omega
    rw [Space.clear_empty hpages]
    exact Prog.Triple.pure fun m hm => ⟨rfl, hm⟩
  · rw [if_neg hle, if_neg hle]
    have hlt : newsz.toNat < oldsz.toNat := BitVec.not_le.1 hle
    have hhi : pages oldsz ≤ 2 ^ 19 := pages_le hold
    have hlo : pages newsz ≤ 2 ^ 19 := pages_le (by omega)
    rw [PGROUNDUP_eq (by omega : newsz.toNat ≤ 2 ^ 31)]
    -- all pages before the one at hand are gone; the last step over a hole may have gone too far
    refine (Prog.Triple.loop (I := fun a m => ∃ x, (a = vaddr x ∧ pages newsz ≤ x ∧ x ≤ 2 ^ 19) ∧
        At W (S.clear (pages newsz) (min x (pages oldsz))) m)
      (v := fun a => 2 ^ 20 - vpn a) (fun a => Prog.Triple.exists fun x => Prog.Triple.of_imp ?_)
      ?_).weaken ?_ fun _ _ h => h
    · rintro ⟨rfl, hx, hx19⟩
      have hx20 : x < 2 ^ 20 := by omega
      have hvpn := vpn_vaddr hx20
      unfold deallocTurn
      by_cases hend : vaddr x < oldsz
      · rw [if_pos hend]
        have hxhi : x < pages oldsz := (vaddr_lt hx20).1 hend
        rw [Nat.min_eq_left (by omega)]
        refine (walk_spec (S := S.clear (pages newsz) x) (fun m (hm : At W _ m) => hm.rep)
          (vaddr x)).bind fun r => Prog.Triple.of_imp fun hr => ?_
        have hleafx : (S.clear (pages newsz) x).leaf x = S.leaf x := if_neg (by omega)
        cases ht : S.tab (PDX (vaddr x)) with
        | none =>
          rw [show r = none from hr.trans (by rw [show (S.clear _ _).tab = S.tab from rfl, ht]; rfl)]
          have hpdx : (PDX (vaddr x)).val = x / 1024 := by rw [PDX_val, hvpn]
          refine Prog.Triple.pure fun m hm => ⟨⟨1024 * (x / 1024 + 1), ⟨?_, by omega, by omega⟩, ?_⟩, ?_⟩
          · rw [PGADDR_eq, hpdx]
          · rwa [Space.clear_congr (pages newsz) x fun v => ?_]
            by_cases hv : x ≤ v ∧ v < 1024 * (x / 1024 + 1)
            · refine .inr ?_
              have hzero := hm.rep.none ht ⟨v % 1024, by omega⟩
              dsimp only at hzero
              rw [hpdx, show 1024 * (x / 1024) + v % 1024 = v by omega] at hzero
              exact (if_neg (by omega) : (S.clear (pages newsz) x).leaf v = S.leaf v).symm.trans hzero
            · exact .inl (by omega)
          · rw [PGADDR_eq, hpdx, hvpn, vpn_vaddr (by omega)]
            omega
        | some t =>
          rw [show r = some (t, PTX (vaddr x)) from
            hr.trans (by rw [show (S.clear _ _).tab = S.tab from rfl, ht]; rfl)]
          dsimp only
          refine triple_load.bind fun w m hm => ?_
          obtain ⟨hw, hat⟩ := hm
          have hw' : w = S.leaf x := by
            rw [hw, hat.rep.leaf (show (S.clear (pages newsz) x).tab (PDX (vaddr x)) = some t from ht), hvpn, hleafx]
          have hvar : 2 ^ 20 - vpn (vaddr (x + 1)) < 2 ^ 20 - vpn (vaddr x) := by
            rw [hvpn, vpn_vaddr (by omega)]
            omega
          by_cases hp : Present w
          · have huser : (S.clear (pages newsz) x).user (vpn (vaddr x)) = some (PTE_ADDR w) := by
              rw [hvpn, Space.user, hleafx, ← hw']
              exact mapped_some.2 ⟨hp, rfl⟩
            have hlow : vpn (vaddr x) < 2 ^ 19 := by omega
            have husable := W.usable _ (hat.pool.mem (Space.user_mem hlow huser))
            obtain ⟨m', hm', hat'⟩ := hat.unmap ht hlow huser
            rw [if_pos hp, if_neg husable.ne_zero, vaddr_add]
            refine ⟨.inl (vaddr (x + 1)), _, Prog.eval_bind hm', ⟨x + 1, ⟨rfl, by omega, by omega⟩, ?_⟩,
              hvar⟩
            · rw [hvpn, Space.clear_succ hx] at hat'
              rw [Nat.min_eq_left (by omega)]
              exact hat'
          · have hzero : S.leaf x = 0 := by
              rw [← hleafx]
              exact hat.rep.absent hx20 (by rwa [hleafx, ← hw'])
            refine ⟨.inl (vaddr (x + 1)), m, ?_, ⟨x + 1, ⟨rfl, by omega, by omega⟩, ?_⟩, hvar⟩
            · rw [if_neg hp, ← vaddr_add]
              rfl
            · rwa [Space.clear_congr (pages newsz) x fun v => ?_]
              by_cases hv : v = x
              · exact .inr (hv ▸ hzero)
              · exact .inl (by omega)
      · rw [if_neg hend]
        have hxhi : pages oldsz ≤ x := Nat.not_lt.1 fun h => hend ((vaddr_lt hx20).2 h)
        rw [Nat.min_eq_right hxhi]
        exact Prog.Triple.pure fun m hm => ⟨rfl, hm⟩
    · rw [vpn_vaddr (by omega)]
      unfold fuel
      omega
    · intro m hm
      refine ⟨pages newsz, ⟨rfl, le_rfl, hlo⟩, ?_⟩
      rwa [Space.clear_empty (Nat.min_le_left _ _)]

theorem freevm_spec : Prog.Triple (At W S) (freevm S.dir) fun _ m => In W 0 m := by
  have husers : (S.clear 0 (2 ^ 19)).users = 0 := slots_none fun v hv => by
    show mapped (if 0 ≤ v ∧ v < 2 ^ 19 then 0 else S.leaf v) = none
    rw [if_pos ⟨by omega, List.mem_range.1 hv⟩]
    rfl
  -- the directory is read until the end, while the tables are freed one after the other
  have htables : ∀ l : List (Fin 1024), Prog.Triple
      (fun m => (∀ i, mapped (m.page S.dir i) = S.tab i) ∧ In W (slots l S.tab + {S.dir}) m)
      (l.forM fun i => do
        let pde ← load S.dir i
        if pde &&& PTE_P ≠ 0 then kfree (PTE_ADDR pde))
      fun _ m => In W {S.dir} m := by
    intro l
    induction l with
    | nil => exact Prog.Triple.pure fun m hm => by simpa [slots] using hm.2
    | cons i l ih =>
      refine Prog.Triple.bind ?_ fun _ => ih
      refine triple_load.bind fun w m hm => ?_
      obtain ⟨hw, hdir, hin⟩ := hm
      have hmap : mapped w = S.tab i := hw ▸ hdir i
      cases ht : S.tab i with
      | none =>
        rw [if_neg (mapped_eq_none.1 (hmap.trans ht))]
        rw [slots_cons_none ht] at hin
        exact ⟨(), m, rfl, hdir, hin⟩
      | some t =>
        obtain ⟨hp, hwt⟩ := mapped_some.1 (hmap.trans ht)
        rw [if_pos hp, hwt]
        rw [slots_cons_some ht, Multiset.cons_add] at hin
        have htd : S.dir ≠ t := by
          rintro rfl
          refine (Multiset.nodup_cons.1 hin.nodup).1 ?_
          exact Multiset.mem_add.2 (.inr (Multiset.mem_singleton_self _))
        obtain ⟨m', hm', hin', hpage⟩ := hin.kfree
        exact ⟨(), m', hm', fun i => hpage _ htd ▸ hdir i, hin'⟩
  unfold freevm
  refine (dealloc_spec 0 (by decide)).bind fun r => Prog.Triple.of_imp fun _ => ?_
  have hpages : S.clear (pages 0) (pages KERNBASE) = S.clear 0 (2 ^ 19) := rfl
  rw [hpages]
  refine Prog.Triple.bind (Q := fun _ m => In W {S.dir} m) ((htables _).weaken (fun m hm => ?_)
    fun _ _ h => h) fun _ m hm => ?_
  · refine ⟨hm.rep.dir, ?_⟩
    have := hm.pool
    rw [Space.owned, husers, Multiset.add_zero, ← Multiset.singleton_add, Multiset.add_comm] at this
    exact this
  · obtain ⟨m', hm', hin, _⟩ := In.kfree (X := 0) hm
    exact ⟨(), m', hm', hin⟩

/-! ### `setupkvm` -/

/-- The entries that the rows prescribe, over others. -/
def kleafOver (ks : List Kmap) (leaf : ℕ → Word) (v : ℕ) : Word :=
  match ks.find? fun k => k.Covers v with
  | some k => k.entry v
  | none => leaf v

/-- The entry of a kernel page, as `kmap` prescribes it. -/
def kleaf (v : ℕ) : Word := kleafOver kmap (fun _ => 0) v

/-- Rows that do not overlap. -/
def Apart (ks : List Kmap) : Prop := ks.Pairwise fun k k' => k.first + k.count ≤ k'.first

omit [Layout] in
theorem vaddr_vpn (h : w.toNat % 4096 = 0) : w = vaddr (vpn w) := by
  apply BitVec.eq_of_toNat_eq
  rw [vaddr_toNat (vpn_lt w), vpn]
  omega

omit [Layout] in
theorem Kmap.ok_of (hv : k.virt.toNat % 4096 = 0) (hp : k.phys_start.toNat % 4096 = 0)
    (hs : (k.phys_end - k.phys_start).toNat % 4096 = 0) (hpos : 0 < (k.phys_end - k.phys_start).toNat)
    (hk : 2 ^ 31 ≤ k.virt.toNat) (htop : k.virt.toNat + (k.phys_end - k.phys_start).toNat ≤ 2 ^ 32) :
    k.Ok where
  virt := vaddr_vpn hv
  size := vaddr_vpn hs
  phys := vaddr_vpn hp
  pos := by
    unfold count vpn
    omega
  kern := by
    unfold first vpn
    omega
  top := by
    unfold first count vpn
    omega

/-- The rows of `kmap` are whole pages in ascending order. -/
theorem kmap_ok : (∀ k ∈ kmap, k.Ok) ∧ Apart kmap := by
  have h₀ := data_aligned
  have h₁ : 2148532224 < (data : Word).toNat := kernlink_lt
  have h₂ : (data : Word).toNat < 2382364672 :=
    Nat.lt_of_le_of_lt (data_le : (data : Word).toNat ≤ (end_ : Word).toNat) end_lt
  have hb : KERNBASE.toNat = 2147483648 := rfl
  have hl : KERNLINK.toNat = 2148532224 := rfl
  have hd : (data - KERNBASE).toNat = (data : Word).toNat - 2147483648 := by
    rw [BitVec.toNat_sub, hb]
    omega
  have hs : (KERNLINK - KERNBASE).toNat % 4096 = 0 := by decide
  have hrow₂ : (data - KERNBASE - (KERNLINK - KERNBASE)).toNat = (data : Word).toNat - 2148532224 := by
    rw [BitVec.toNat_sub, hd, show (KERNLINK - KERNBASE).toNat = 1048576 from rfl]
    omega
  have hrow₃ : (PHYSTOP - (data - KERNBASE)).toNat = 2382364672 - (data : Word).toNat := by
    rw [BitVec.toNat_sub, hd, show PHYSTOP.toNat = 234881024 from rfl]
    omega
  constructor
  · intro k hk
    simp only [kmap, List.mem_cons, List.not_mem_nil, or_false] at hk
    rcases hk with rfl | rfl | rfl | rfl
    · exact Kmap.ok_of (by decide) (by decide) (by decide) (by decide) (by decide) (by decide)
    · exact Kmap.ok_of (by dsimp only; omega) hs (by dsimp only; omega) (by dsimp only; omega) (by dsimp only; omega)
        (by dsimp only; omega)
    · exact Kmap.ok_of h₀ (by dsimp only; omega) (by dsimp only; omega) (by dsimp only; omega)
        (by dsimp only; omega) (by dsimp only; omega)
    · exact Kmap.ok_of (by decide) (by decide) (by decide) (by decide) (by decide) (by decide)
  · have he : (EXTMEM - 0).toNat = 1048576 := rfl
    have hv : DEVSPACE.toNat = 4261412864 := rfl
    refine .cons ?_ (.cons ?_ (.cons ?_ (.cons nofun .nil)))
    all_goals
      intro k' hk'
      simp only [List.mem_cons, List.not_mem_nil, or_false] at hk'
    · rcases hk' with rfl | rfl | rfl <;> simp only [Kmap.first, Kmap.count, vpn] <;> omega
    · rcases hk' with rfl | rfl <;> simp only [Kmap.first, Kmap.count, vpn] <;> omega
    · subst hk'
      simp only [Kmap.first, Kmap.count, vpn]
      omega

omit [Layout] in
theorem Kmap.not_covers (h : ∀ k' ∈ ks, k.first + k.count ≤ k'.first) {v : ℕ} (hv : k.Covers v) :
    ks.find? (fun k' => k'.Covers v) = none := by
  refine List.find?_eq_none.2 fun k' hk' => ?_
  have := h k' hk'
  have := hv.2
  simp only [decide_eq_true_eq]
  exact fun hc => absurd hc.1 (by omega)

omit [Layout] in
theorem kleafOver_cons (h : ∀ k' ∈ ks, k.first + k.count ≤ k'.first) (leaf : ℕ → Word) :
    kleafOver ks (fun v => if k.Covers v then k.entry v else leaf v) = kleafOver (k :: ks) leaf := by
  funext v
  unfold kleafOver
  by_cases hv : k.Covers v
  · rw [Kmap.not_covers h hv, List.find?_cons_of_pos (by simpa using hv)]
    exact if_pos hv
  · rw [List.find?_cons_of_neg (by simpa using hv)]
    cases ks.find? fun k' => k'.Covers v with
    | none => exact if_neg hv
    | some k' => rfl

/-- The loop of `setupkvm`, from an address space without user pages. -/
theorem mapKernel_spec (hks : ∀ k ∈ ks, k.Ok) (ha : Apart ks)
    (hn : ∀ k ∈ ks, ∀ v, k.Covers v → ¬ Present (S.leaf v)) (hu : S.users = 0) :
    Prog.Triple (At W S) (mapKernel S.dir ks) fun r m => match r with
      | none => In W 0 m ∧ (W.calm → W.frames.card ≤ 1025)
      | some d => d = S.dir ∧ ∃ tab, TabsFor ks S.tab tab ∧
          At W { S with tab := tab, leaf := kleafOver ks S.leaf } m := by
  induction ks generalizing S with
  | nil =>
    exact Prog.Triple.pure fun m hm => ⟨rfl, S.tab, fun i hi => absurd rfl hi, hm⟩
  | cons k ks ih =>
    have hk := hks k List.mem_cons_self
    obtain ⟨hak, hak'⟩ := List.pairwise_cons.1 ha
    refine (mappages_kernel hk (hn k List.mem_cons_self)).bind fun r => ?_
    refine Prog.Triple.exists fun n => Prog.Triple.exists fun tab => Prog.Triple.of_imp fun htab => ?_
    have husers : (S.mapRow k n tab).users = 0 := (Space.mapRow_users hk n tab).trans hu
    by_cases hr : r < 0
    · rw [if_pos hr]
      intro m hm
      obtain ⟨hat, hres⟩ := hm
      obtain ⟨-, hshort⟩ := hres.resolve_left fun h => absurd h.1 hr.ne
      refine Prog.Triple.bind (P := At W (S.mapRow k n tab)) (freevm_spec (S := S.mapRow k n tab)) (fun _ =>
        Prog.Triple.pure fun m hm => ⟨hm, fun hc => ?_⟩) m hat
      have := (S.mapRow k n tab).owned_card_le
      rw [husers, Multiset.card_zero] at this
      exact (hshort hc).trans this
    · rw [if_neg hr]
      intro m hm
      obtain ⟨hat, hres⟩ := hm
      obtain ⟨-, rfl⟩ := hres.resolve_right fun h => hr (h.1 ▸ by decide)
      refine (ih (S := S.mapRow k k.count tab) (fun k' hk' => hks k' (.tail k hk')) hak'
        (fun k' hk' v hv => ?_) husers).weaken (fun _ h => h) (fun r m hm => ?_) m hat
      · have hle := hak k' hk'
        have hnot : ¬ (k.first ≤ v ∧ v < k.first + k.count) := fun h => by
          have := hv.1
          omega
        rw [show (S.mapRow k k.count tab).leaf v = S.leaf v from if_neg hnot]
        exact hn k' (.tail k hk') v hv
      · cases r with
        | none => exact hm
        | some d =>
          obtain ⟨hd, tab', htab', hat'⟩ := hm
          refine ⟨hd, tab', fun i hi => ?_, ?_⟩
          · by_cases hi' : tab' i = tab i
            · obtain ⟨k', hk', hc⟩ := htab i (hi' ▸ hi)
              exact ⟨k', by rw [List.mem_singleton.1 hk']; exact List.mem_cons_self, hc⟩
            · obtain ⟨k', hk', hc⟩ := htab' i hi'
              exact ⟨k', .tail k hk', hc⟩
          · rw [← kleafOver_cons hak S.leaf]
            exact hat'

/-- The address space of a directory without entries. -/
def Space.empty (dir : Frame) : Space where
  dir := dir
  tab := fun _ => none
  leaf := fun _ => 0
  page := fun _ _ => 0

/-- An address space with the kernel's part of `kmap`. -/
structure Space.Kernel (S : Space) : Prop where
  leaf : ∀ v, 2 ^ 19 ≤ v → v < 2 ^ 20 → S.leaf v = kleaf v
  tab : ∀ i, 512 ≤ i.val → S.tab i ≠ none → ∃ k ∈ kmap, ∃ v, k.Covers v ∧ v / 1024 = i.val

omit [Layout] in
theorem Space.empty_owned (dir : Frame) : (Space.empty dir).owned = {dir} := by
  have h₁ : (Space.empty dir).tables = 0 := slots_none fun _ _ => rfl
  have h₂ : (Space.empty dir).users = 0 := slots_none fun _ _ => mapped_zero
  unfold owned
  rw [h₁, h₂]
  rfl

omit [Layout] in
theorem Space.empty_rep {dir : Frame} {p : Frame → Page} (h : p dir = fun _ => 0) :
    Rep (Space.empty dir) p where
  dir i := (congrArg mapped (congrFun h i)).trans mapped_zero
  tab h := nomatch h
  none _ _ := rfl
  absent _ _ := rfl
  page _ h := nomatch mapped_zero.symm.trans h

/-- `setupkvm` gives an address space with the kernel's part and no user pages. -/
theorem setupkvm_spec :
    Prog.Triple (In W 0) setupkvm fun r m => match r with
      | none => In W 0 m ∧ (W.calm → W.frames.card ≤ 1025)
      | some d => ∃ S, S.dir = d ∧ S.Kernel ∧ (∀ v < 2 ^ 19, S.leaf v = 0) ∧ At W S m := by
  unfold setupkvm
  refine ((kalloc_spec fun _ => True).weaken (A := In W 0) (fun m hm => ⟨hm, trivial⟩)
    fun _ _ h => h).bind fun r => Prog.Triple.of_imp fun _ => ?_
  cases r with
  | none =>
    refine Prog.Triple.pure fun m hm => ⟨hm.1, fun hc => ?_⟩
    have := hm.2 hc
    rw [Multiset.card_zero] at this
    omega
  | some d =>
    refine Prog.Triple.of_imp fun hd => Prog.Triple.of_imp fun _ => ?_
    refine Prog.Triple.bind (Q := fun _ m => At W (Space.empty d) m) (triple_setPage fun m hm => ?_)
      fun _ => ?_
    · obtain ⟨hin, -⟩ := hm.unhold hd
      refine ⟨Space.empty_rep (Function.update_self ..), ?_⟩
      rw [Space.empty_owned]
      exact hin.write hd fun _ => 0
    · rw [if_neg (by decide)]
      have hu : (Space.empty d).users = 0 := slots_none fun _ _ => mapped_zero
      refine (mapKernel_spec (S := Space.empty d) kmap_ok.1 kmap_ok.2
        (fun _ _ _ _ => not_present_zero) hu).weaken (fun _ h => h) fun r m hm => ?_
      cases r with
      | none => exact hm
      | some d' =>
        obtain ⟨rfl, tab, htab, hat⟩ := hm
        refine ⟨_, rfl, ⟨fun v _ _ => rfl, fun i _ hi => htab i hi⟩, fun v hv => ?_, hat⟩
        have hnone : kmap.find? (fun k => k.Covers v) = none := by
          refine List.find?_eq_none.2 fun k hk => ?_
          have := (kmap_ok.1 k hk).kern
          simp only [decide_eq_true_eq]
          exact fun hc => absurd hc.1 (by omega)
        show kleafOver kmap _ v = 0
        unfold kleafOver
        rw [hnone]
        rfl

end Xv6.Vm
