import Xv6.Vm.Tables

/-!
# `allocuvm` and `copyuvm`

The user part of an address space grows page by page. When memory runs out, what has been added is
taken away again; only tables may be left over. `fork` copies the user part into a new address space.
-/

namespace Xv6.Vm

open Lib Layout

variable [Layout] {W : Pool} {m : Mem} {f t : Frame} {pg : Page} {S S' : Space} {lo hi x : ℕ} {w : Word}

/-- `S'` is `S` with new pages of zeros from `lo` up to `hi`. -/
structure Space.Grown (S : Space) (lo hi : ℕ) (S' : Space) : Prop where
  dir : S'.dir = S.dir
  tab : ∀ i, 512 ≤ i.val → S'.tab i = S.tab i
  keep : ∀ i t, S.tab i = some t → S'.tab i = some t
  leaf : ∀ v, ¬ (lo ≤ v ∧ v < hi) → S'.leaf v = S.leaf v
  page : ∀ v, ¬ (lo ≤ v ∧ v < hi) → Present (S.leaf v) → S'.page v = S.page v
  present : ∀ v, lo ≤ v → v < hi → Present (S'.leaf v)
  flags : ∀ v, lo ≤ v → v < hi → PTE_FLAGS (S'.leaf v) = PTE_W ||| PTE_U ||| PTE_P
  zero : ∀ v, lo ≤ v → v < hi → S'.page v = fun _ => 0
  card : S'.users.card = S.users.card + (hi - lo)

omit [Layout] in
theorem ne_PDX (hx : x < 2 ^ 19) {i : Fin 1024} (hi : 512 ≤ i.val) : i ≠ PDX (vaddr x) := by
  rintro rfl
  rw [PDX_val, vpn_vaddr (by omega)] at hi
  omega

namespace Space.Grown

omit [Layout] in
theorem refl (h : hi ≤ lo) : S.Grown lo hi S where
  dir := rfl
  tab _ _ := rfl
  keep _ _ h := h
  leaf _ _ := rfl
  page _ _ _ := rfl
  present v h₁ h₂ := absurd h₂ (by omega)
  flags v h₁ h₂ := absurd h₂ (by omega)
  zero v h₁ h₂ := absurd h₂ (by omega)
  card := by omega

omit [Layout] in
theorem succ (h : S.Grown lo x S') (hx : lo ≤ x) (hx19 : x < 2 ^ 19) (h0 : ¬ Present (S.leaf x))
    (ht : S'.tab (PDX (vaddr x)) = none ∨ S'.tab (PDX (vaddr x)) = some t) :
    S.Grown lo (x + 1) (S'.map x (f.addr ||| (PTE_W ||| PTE_U) ||| PTE_P) (fun _ => 0) t) where
  dir := h.dir
  tab i hi := by
    rw [← h.tab i hi]
    exact Function.update_of_ne (ne_PDX hx19 hi) _ _
  keep i t' hi := by
    have hi' := h.keep i t' hi
    by_cases hii : i = PDX (vaddr x)
    · subst hii
      rcases ht with ht | ht
      · cases ht.symm.trans hi'
      · rw [← hi', ht]
        exact Function.update_self ..
    · exact (Function.update_of_ne hii _ _).trans hi'
  leaf v hv := by
    rw [← h.leaf v (by omega)]
    exact Function.update_of_ne (by omega) _ _
  page v hv hp := by
    rw [← h.page v (by omega) hp]
    exact Function.update_of_ne (by omega) _ _
  present v h₁ h₂ := by
    dsimp only [Space.map]
    by_cases hv : v = x
    · rw [hv, Function.update_self]
      exact present_entry _ _
    · rw [Function.update_of_ne hv]
      exact h.present v h₁ (by omega)
  flags v h₁ h₂ := by
    dsimp only [Space.map]
    by_cases hv : v = x
    · rw [hv, Function.update_self]
      exact PTE_FLAGS_entry f (by decide)
    · rw [Function.update_of_ne hv]
      exact h.flags v h₁ (by omega)
  zero v h₁ h₂ := by
    dsimp only [Space.map]
    by_cases hv : v = x
    · rw [hv, Function.update_self]
    · rw [Function.update_of_ne hv]
      exact h.zero v h₁ (by omega)
  card := by
    have hnone : S'.user x = none := by
      rw [Space.user, h.leaf x (by omega)]
      exact mapped_eq_none.2 h0
    have hmapped : mapped (f.addr ||| (PTE_W ||| PTE_U) ||| PTE_P) = some f := mapped_entry f (by decide)
    have husers := Space.users_map (S := S') hx19 hnone hmapped S'.page
    have hcard : (S'.map x (f.addr ||| (PTE_W ||| PTE_U) ||| PTE_P) (fun _ => 0) t).users.card =
        S'.users.card + 1 := by
      rw [← Multiset.card_cons f, ← husers]
      rfl
    rw [hcard, h.card]
    omega

omit [Layout] in
theorem clear (h : S.Grown lo x S') (hx : x ≤ hi) (h0 : ∀ v, lo ≤ v → v < hi → S.leaf v = 0) :
    S.Grown lo lo (S'.clear lo hi) := by
  have hleaf : ∀ v, (S'.clear lo hi).leaf v = S.leaf v := by
    intro v
    dsimp only [Space.clear]
    split
    · rename_i hv
      exact (h0 v hv.1 hv.2).symm
    · exact h.leaf v (by omega)
  refine ⟨h.dir, h.tab, h.keep, fun v _ => hleaf v, fun v hv hp => h.page v ?_ hp, ?_, ?_, ?_, ?_⟩
  · rintro ⟨h₁, h₂⟩
    rw [h0 v h₁ (by omega)] at hp
    exact not_present_zero hp
  · intro v h₁ h₂
    omega
  · intro v h₁ h₂
    omega
  · intro v h₁ h₂
    omega
  · have : (S'.clear lo hi).users = S.users := slots_congr fun v _ => by
      rw [Space.user, hleaf]
      rfl
    rw [this]
    omega

end Space.Grown

/-- `allocuvm` adds the pages between the two sizes or, if there is not enough memory, none. -/
theorem alloc_spec {oldsz newsz : Word} (hold : oldsz ≤ newsz) (hnew : newsz < KERNBASE)
    (h0 : ∀ v, pages oldsz ≤ v → v < pages newsz → S.leaf v = 0) :
    Prog.Triple (At W S) (allocuvm S.dir oldsz newsz) fun r m => ∃ S', At W S' m ∧
      (r = newsz ∧ S.Grown (pages oldsz) (pages newsz) S' ∨
        r = 0 ∧ S.Grown (pages oldsz) (pages oldsz) S' ∧
          (W.calm → W.frames.card ≤ 1026 + S.users.card + (pages newsz - pages oldsz))) := by
  have hnew' : newsz.toNat < 2 ^ 31 := hnew
  have hold' : oldsz.toNat ≤ newsz.toNat := hold
  have hhi : pages newsz ≤ 2 ^ 19 := pages_le (by omega)
  have hlohi : pages oldsz ≤ pages newsz := by
    unfold pages
    omega
  unfold allocuvm
  rw [if_neg (BitVec.not_le.2 hnew), if_neg (BitVec.not_lt.2 hold),
    PGROUNDUP_eq (by omega : oldsz.toNat ≤ 2 ^ 31)]
  -- the pages up to the one at hand have been added
  refine (Prog.Triple.loop (I := fun a m => ∃ x S', (a = vaddr x ∧ pages oldsz ≤ x ∧
      x ≤ pages newsz ∧ S.Grown (pages oldsz) x S') ∧ At W S' m)
    (v := fun a => 2 ^ 20 - vpn a) (fun a => Prog.Triple.exists fun x => Prog.Triple.exists fun S' =>
      Prog.Triple.of_imp ?_) ?_).weaken ?_ fun _ _ h => h
  · rintro ⟨rfl, hx, hxhi, hgrown⟩
    have hx20 : x < 2 ^ 20 := by omega
    by_cases hend : vaddr x < newsz
    · rw [if_pos hend, ← hgrown.dir]
      have hxlt : x < pages newsz := (vaddr_lt hx20).1 hend
      have hcard : S'.owned.card ≤ 1025 + (S.users.card + (x - pages oldsz)) := by
        rw [← hgrown.card]
        exact S'.owned_card_le
      have hS0 : ¬ Present (S.leaf x) := by
        rw [h0 x hx hxlt]
        exact not_present_zero
      have hS'0 : ¬ Present (S'.leaf x) := by
        rwa [hgrown.leaf x (by omega)]
      refine ((kalloc_spec (Rep S')).weaken (A := At W S') (fun m hm => ⟨hm.pool, hm.rep⟩)
        fun _ _ h => h).bind fun r => ?_
      cases r with
      | none =>
        intro m hm
        obtain ⟨hrep, hin, hshort⟩ := hm
        refine (dealloc_spec (S := S') oldsz (by omega : newsz.toNat ≤ 2 ^ 31)).bind (fun r =>
          Prog.Triple.pure fun m hm => ⟨_, hm.2, .inr ⟨rfl, hgrown.clear hxhi h0, fun hc => ?_⟩⟩) m
          ⟨hrep, hin⟩
        have := hshort hc
        omega
      | some mem =>
        -- the page is held while `mappages` looks for a table
        refine Prog.Triple.bind (Q := fun _ m => mem ∈ W.frames ∧ At (W.hold mem fun _ => 0) S' m)
          (triple_setPage fun m hm => ⟨hm.2.1, At.setHeld ⟨hm.1, hm.2.2.2⟩ hm.2.1 _⟩) fun _ => ?_
        refine Prog.Triple.of_imp fun hmem => ?_
        refine (mappages_user hmem (by omega) hS'0 (by decide)).bind fun r => ?_
        by_cases hr : r < 0
        · rw [if_pos hr]
          intro m hm
          obtain ⟨-, hat, hshort⟩ := hm.resolve_left fun h => absurd h.1 hr.ne
          refine (dealloc_spec (S := S') oldsz (by omega : newsz.toNat ≤ 2 ^ 31)).bind (fun r =>
            Prog.Triple.of_imp fun _ => Prog.Triple.bind (Q := fun _ m =>
              At W (S'.clear (pages oldsz) (pages newsz)) m) (fun m hm => ?_) fun _ =>
              Prog.Triple.pure fun m hm => ⟨_, hm, .inr ⟨rfl, hgrown.clear hxhi h0, fun hc => ?_⟩⟩) m hat
          · obtain ⟨m', hm', hat'⟩ := hm.freeHeld hmem
            exact ⟨(), m', hm', hat'⟩
          · have := hshort hc
            have hcard' : (W.hold mem fun _ => 0).frames.card = W.frames.card - 1 :=
              Finset.card_erase_of_mem hmem
            omega
        · rw [if_neg hr]
          refine Prog.Triple.pure fun m hm => ?_
          obtain ⟨-, t, ht, hat⟩ := hm.resolve_right fun h => hr (h.1 ▸ by decide)
          refine ⟨⟨x + 1, _, ⟨vaddr_add x, by omega, by omega, hgrown.succ hx (by omega) hS0 ht⟩, hat⟩, ?_⟩
          rw [vaddr_add, vpn_vaddr hx20, vpn_vaddr (by omega)]
          omega
    · rw [if_neg hend]
      have hxeq : x = pages newsz := by
        have : ¬ x < pages newsz := fun h => hend ((vaddr_lt hx20).2 h)
        omega
      subst hxeq
      exact Prog.Triple.pure fun m hm => ⟨S', hm, .inl ⟨rfl, hgrown⟩⟩
  · rw [vpn_vaddr (by omega)]
    unfold fuel
    omega
  · exact fun m hm => ⟨pages oldsz, S, ⟨rfl, le_rfl, hlohi, .refl le_rfl⟩, hm⟩

/-! ### `copyuvm` -/

/-- `S'` has its own copies of the first `n` pages of `S`, and no other pages. -/
structure Space.Copied (S : Space) (n : ℕ) (S' : Space) : Prop where
  kernel : S'.Kernel
  present : ∀ v < n, Present (S'.leaf v)
  flags : ∀ v < n, PTE_FLAGS (S'.leaf v) = PTE_FLAGS (S.leaf v)
  page : ∀ v < n, S'.page v = S.page v
  rest : ∀ v, n ≤ v → v < 2 ^ 19 → S'.leaf v = 0

omit [Layout] in
theorem flags_lt (w : Word) : (PTE_FLAGS w).toNat < 4096 := by
  unfold PTE_FLAGS
  rw [BitVec.toNat_and]
  exact lt_of_le_of_lt Nat.and_le_right (by decide)

omit [Layout] in
theorem flags_or_present (h : Present w) : PTE_FLAGS w ||| PTE_P = PTE_FLAGS w := by
  have h0 := present_iff.1 h
  unfold PTE_FLAGS
  ext i hi
  rw [← BitVec.getLsbD_eq_getElem hi, ← BitVec.getLsbD_eq_getElem hi, BitVec.getLsbD_or]
  rcases i with _ | i
  · rw [BitVec.getLsbD_and, h0]
    rfl
  · have h1 : PTE_P.getLsbD (i + 1) = false := getLsbD_of_lt (by
      calc PTE_P.toNat = 1 := rfl
        _ < 2 ^ (i + 1) := Nat.one_lt_two_pow (by omega))
    rw [h1, Bool.or_false]

theorem Space.Kernel.map (h : S.Kernel) (hx : x < 2 ^ 19) : (S.map x w pg t).Kernel where
  leaf v hv hv20 := by
    rw [← h.leaf v hv hv20]
    exact Function.update_of_ne (by omega) _ _
  tab i hi := by
    dsimp only [Space.map]
    rw [Function.update_of_ne (ne_PDX hx hi)]
    exact h.tab i hi

theorem Space.Copied.succ (h : S.Copied x S') (hx : x < 2 ^ 19) (hp : Present (S.leaf x)) :
    S.Copied (x + 1) (S'.map x (f.addr ||| PTE_FLAGS (S.leaf x) ||| PTE_P) (S.page x) t) where
  kernel := h.kernel.map hx
  present v hv := by
    dsimp only [Space.map]
    by_cases hvx : v = x
    · rw [hvx, Function.update_self]
      exact present_entry _ _
    · rw [Function.update_of_ne hvx]
      exact h.present v (by omega)
  flags v hv := by
    dsimp only [Space.map]
    by_cases hvx : v = x
    · rw [hvx, Function.update_self, PTE_FLAGS_entry f (flags_lt _)]
      exact flags_or_present hp
    · rw [Function.update_of_ne hvx]
      exact h.flags v (by omega)
  page v hv := by
    dsimp only [Space.map]
    by_cases hvx : v = x
    · rw [hvx, Function.update_self]
    · rw [Function.update_of_ne hvx]
      exact h.page v (by omega)
  rest v hv hv19 := by
    rw [← h.rest v (by omega) hv19]
    exact Function.update_of_ne (by omega) _ _

/-- The child gets copies of the parent's pages, with their flags, in frames that are its own; or,
if memory runs out, all that was taken is free again. The parent's address space lies outside of the
pool and stays as it is. -/
theorem copyuvm_spec {sz : Word} (haside : Aside S W) (hsz : sz < KERNBASE)
    (hpages : ∀ v < pages sz, Present (S.leaf v)) :
    Prog.Triple (In W 0) (copyuvm S.dir sz) fun r m => Rep S m.page ∧ match r with
      | none => In W 0 m
      | some d => ∃ S', S'.dir = d ∧ S.Copied (pages sz) S' ∧ At W S' m := by
  have hsz' : sz.toNat < 2 ^ 31 := hsz
  have hle : pages sz ≤ 2 ^ 19 := pages_le (by omega)
  suffices Prog.Triple (In W 0) (copyuvm S.dir sz) fun r m => match r with
      | none => In W 0 m
      | some d => ∃ S', S'.dir = d ∧ S.Copied (pages sz) S' ∧ At W S' m by
    refine this.weaken (fun m hm => hm) fun r m hm => ⟨?_, hm⟩
    cases r with
    | none => exact haside.rep_of_in hm
    | some d =>
      obtain ⟨S', -, -, hat⟩ := hm
      exact haside.rep_of_in hat.pool
  unfold copyuvm
  refine setupkvm_spec.bind fun r => ?_
  cases r with
  | none => exact Prog.Triple.pure fun m hm => hm.1
  | some d =>
    -- the pages below the one at hand have been copied
    refine (Prog.Triple.loop (I := fun i m => ∃ x S', (i = vaddr x ∧ x ≤ pages sz ∧ S'.dir = d ∧
        S.Copied x S') ∧ At W S' m)
      (v := fun i => 2 ^ 20 - vpn i) (fun i => Prog.Triple.exists fun x => Prog.Triple.exists fun S' =>
        Prog.Triple.of_imp ?_) ?_).weaken ?_ fun _ _ h => h
    · rintro ⟨rfl, hx, rfl, hcopied⟩
      have hx20 : x < 2 ^ 20 := by omega
      by_cases hend : vaddr x < sz
      · rw [if_pos hend]
        have hxlt : x < pages sz := (vaddr_lt hx20).1 hend
        have hp : Present (S.leaf x) := hpages x hxlt
        obtain ⟨tab, htab⟩ : ∃ t, S.tab (PDX (vaddr x)) = some t :=
          haside.rep.tab_of_present (by rwa [vpn_vaddr hx20])
        have hS'0 : ¬ Present (S'.leaf x) := by
          rw [hcopied.rest x le_rfl (by omega)]
          exact not_present_zero
        refine (walk_spec (P := At W S') (fun m hm => haside.rep_of_in hm.pool) (vaddr x)).bind fun r =>
          Prog.Triple.of_imp fun hr => ?_
        subst hr
        rw [htab]
        refine Prog.Triple.bind (Q := fun w m => w = S.leaf x ∧ At W S' m)
          (triple_load.weaken (fun _ hm => hm) fun w m hm => ⟨?_, hm.2⟩) fun w =>
          Prog.Triple.of_imp fun hw => ?_
        · rw [hm.1, (haside.rep_of_in hm.2.pool).leaf htab, vpn_vaddr hx20]
        subst hw
        rw [if_neg hp]
        refine ((kalloc_spec (Rep S')).weaken (A := At W S') (fun m hm => ⟨hm.pool, hm.rep⟩)
          fun _ _ h => h).bind fun r => ?_
        cases r with
        | none =>
          exact (freevm_spec.weaken (A := fun m => _) (fun m hm => ⟨hm.1, hm.2.1⟩) fun _ _ h => h).bind
            fun _ => Prog.Triple.pure fun m hm => hm
        | some mem =>
          -- the page is held while `mappages` looks for a table
          refine Prog.Triple.bind (Q := fun s m => s.page (PTE_ADDR (S.leaf x)) = S.page x ∧
            mem ∈ W.frames ∧ At (W.hold mem (m.page mem)) S' m) (fun m hm => ⟨m, m, rfl, ?_, hm.2.1,
              hm.1, hm.2.2.2⟩) fun s => Prog.Triple.of_imp fun hs => ?_
          · have hrep := haside.rep_of_in (hm.2.2.2.unhold hm.2.1).1
            exact hrep.page (by omega) (mapped_some.2 ⟨hp, rfl⟩)
          dsimp only
          rw [hs]
          refine Prog.Triple.bind (Q := fun _ m => mem ∈ W.frames ∧ At (W.hold mem (S.page x)) S' m)
            (triple_setPage fun m hm => ⟨hm.1, At.setHeld hm.2 hm.1 _⟩) fun _ => ?_
          refine Prog.Triple.of_imp fun hmem => ?_
          refine (mappages_user hmem (by omega) hS'0 (flags_lt _)).bind fun r => ?_
          by_cases hr : r < 0
          · rw [if_pos hr]
            refine Prog.Triple.bind (Q := fun _ m => At W S' m) (fun m hm => ?_) fun _ =>
              freevm_spec.bind fun _ => Prog.Triple.pure fun m hm => hm
            obtain ⟨-, hat, -⟩ := hm.resolve_left fun h => absurd h.1 hr.ne
            obtain ⟨m', hm', hat'⟩ := hat.freeHeld hmem
            exact ⟨(), m', hm', hat'⟩
          · rw [if_neg hr]
            refine Prog.Triple.pure fun m hm => ?_
            obtain ⟨-, t, -, hat⟩ := hm.resolve_right fun h => hr (h.1 ▸ by decide)
            refine ⟨⟨x + 1, S'.map x _ _ t, ⟨vaddr_add x, by omega, rfl, hcopied.succ (by omega) hp⟩, hat⟩, ?_⟩
            rw [vaddr_add, vpn_vaddr hx20, vpn_vaddr (by omega)]
            omega
      · rw [if_neg hend]
        have hxeq : x = pages sz := by
          have : ¬ x < pages sz := fun h => hend ((vaddr_lt hx20).2 h)
          omega
        subst hxeq
        exact Prog.Triple.pure fun m hm => ⟨S', rfl, hcopied, hm⟩
    · rw [show (0 : Word) = vaddr 0 from rfl, vpn_vaddr (by decide)]
      unfold fuel
      omega
    · rintro m ⟨S', hd, hk, h0, hat⟩
      exact ⟨0, S', ⟨rfl, Nat.zero_le _, hd, hk, nofun, nofun, nofun, fun v _ hv => h0 v hv⟩, hat⟩

end Xv6.Vm
