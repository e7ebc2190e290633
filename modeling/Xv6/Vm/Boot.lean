import Xv6.Vm.Proc

/-!
# A process in fresh memory

`setupkvm` and `allocuvm` succeed as long as there are pages enough, so that from a memory in which all
pages are free a process of any size that fits can be built. Concrete states are taken from here.
-/

namespace Xv6.Vm

open Lib Layout

section layout

variable [Layout] {W : Pool} {m : Mem} {S S' : Space} {lo hi N : ℕ}

theorem Space.Kernel.grown (h : S.Kernel) (hg : S.Grown lo hi S') (hhi : hi ≤ 2 ^ 19) : S'.Kernel where
  leaf v h₁ h₂ := by rw [hg.leaf v (by omega), h.leaf v h₁ h₂]
  tab i hi ht := h.tab i hi (by rwa [← hg.tab i hi])

theorem exists_space (hin : In W 0 m) (hc : W.calm) (hN : 1026 + N < W.frames.card) (hN' : N < 2 ^ 19) :
    ∃ S m', At W S m' ∧ S.Kernel ∧ (∀ v < 2 ^ 19, Present (S.leaf v) ↔ v < N) ∧
      (∀ v < N, PTE_FLAGS (S.leaf v) = PTE_W ||| PTE_U ||| PTE_P) ∧ S.users.card = N := by
  obtain ⟨r, m₁, -, hr⟩ := setupkvm_spec m hin
  cases r with
  | none =>
    have := hr.2 hc
    omega
  | some d =>
    obtain ⟨S, rfl, hk, hlow, hat⟩ := hr
    have hN20 : N < 2 ^ 20 := by omega
    have hpages : pages (vaddr N) = N := pages_vaddr hN20
    have hp0 : pages 0 = 0 := by decide
    have hlt : vaddr N < KERNBASE := vaddr_lt_KERNBASE hN'
    have hzero : (0 : Word) ≤ vaddr N := Nat.zero_le _
    have husers : S.users.card = 0 := by
      have : S.users = 0 := slots_none fun v hv => by
        rw [Space.user, hlow v (List.mem_range.1 hv)]
        rfl
      rw [this, Multiset.card_zero]
    obtain ⟨r, m₂, -, S', hat', hres⟩ := alloc_spec (S := S) hzero hlt
      (fun v _ hv => hlow v (by omega)) m₁ hat
    rw [hpages, hp0] at hres
    rcases hres with ⟨-, hg⟩ | ⟨-, -, hshort⟩
    · refine ⟨S', m₂, hat', hk.grown hg (by omega), fun v hv => ?_, fun v hv => hg.flags v (by omega) hv,
        by rw [hg.card, husers, Nat.zero_add, Nat.sub_zero]⟩
      by_cases hvN : v < N
      · exact ⟨fun _ => hvN, fun _ => hg.present v (by omega) hvN⟩
      · rw [hg.leaf v (by omega), hlow v hv]
        exact ⟨fun hp => absurd hp not_present_zero, fun h => absurd h hvN⟩
    · have := hshort hc
      omega

omit [Layout] in
theorem Rep.fill {p : Frame → Page} (h : Rep S p) (hn : S.owned.Nodup) (page : ℕ → Page) :
    ∃ p', Rep { S with page := page } p' := by
  classical
  have hold : ∀ {f}, ¬ (∃ v < 2 ^ 19, S.user v = some f) →
      (if hf : ∃ v < 2 ^ 19, S.user v = some f then page hf.choose else p f) = p f := fun hf => dif_neg hf
  refine ⟨fun f => if hf : ∃ v < 2 ^ 19, S.user v = some f then page hf.choose else p f, ?_, ?_, h.none,
    h.absent, ?_⟩
  · intro i
    dsimp only
    rw [hold, h.dir]
    rintro ⟨v, hv, hd⟩
    exact Space.user_ne_dir hn hv hd rfl
  · intro i t ht j
    dsimp only at ht ⊢
    rw [hold, h.tab ht]
    rintro ⟨v, hv, hf⟩
    exact Space.user_ne_tab hn hv hf ht rfl
  · intro v f hv hf
    have hex : ∃ v < 2 ^ 19, S.user v = some f := ⟨v, hv, hf⟩
    dsimp only
    rw [dif_pos hex]
    exact congrArg page (Space.user_inj hn hex.choose_spec.1 hv hex.choose_spec.2 hf)

theorem Runs.fill {k : Kern} (h : Runs k S) (page : ℕ → Page) :
    ∃ p, Runs { k with mem := { k.mem with page := p } } { S with page := page } := by
  obtain ⟨p, hp⟩ := h.rep.fill (Multiset.nodup_add.1 h.nodup).1 page
  exact ⟨p, h.pgdir, h.kstack, hp, h.nodup, h.usable, h.sz, h.mapped⟩

end layout

/-! ### Fresh memory -/

/-- A kernel of 88 kilobytes. -/
@[reducible]
def sampleLayout : Layout where
  data := 0x80108000
  end_ := 0x80116000
  data_aligned := by decide
  kernlink_lt := by decide
  data_le := by decide
  end_lt := by decide

/-- The first `n` pages from the fourth megabyte on are free. -/
def freshMem (n : ℕ) : Mem where
  page := fun _ _ => 0
  free := (List.range n).map fun i => BitVec.ofNat 20 (1024 + i)

attribute [local instance] sampleLayout

variable {n N : ℕ}

theorem freshMem_nodup (hn : n ≤ 56320) : (0 + ↑(freshMem n).free : Multiset Frame).Nodup := by
  rw [Multiset.zero_add, Multiset.coe_nodup]
  refine List.Nodup.map_on (fun i hi j hj h => ?_) List.nodup_range
  have h := congrArg BitVec.toNat h
  rw [BitVec.toNat_ofNat, BitVec.toNat_ofNat] at h
  have := List.mem_range.1 hi
  have := List.mem_range.1 hj
  omega

theorem freshMem_usable (hn : n ≤ 56320) :
    ∀ f ∈ (0 + ↑(freshMem n).free : Multiset Frame), Usable f := by
  rw [Multiset.zero_add]
  intro f hf
  obtain ⟨i, hi, rfl⟩ := List.mem_map.1 (Multiset.mem_coe.1 hf)
  have hi := List.mem_range.1 hi
  have hf : (BitVec.ofNat 20 (1024 + i)).toNat = 1024 + i := by
    rw [BitVec.toNat_ofNat]
    omega
  have haddr := addr_toNat (BitVec.ofNat 20 (1024 + i))
  have hb : KERNBASE.toNat = 2147483648 := rfl
  constructor
  · show (0x80116000 : Word).toNat ≤ (P2V _).toNat
    rw [P2V, BitVec.toNat_add, haddr, hf, hb]
    have : (0x80116000 : Word).toNat = 2148622336 := rfl
    omega
  · rw [P2V, BitVec.add_sub_cancel, BitVec.lt_def, haddr, hf]
    have : PHYSTOP.toNat = 234881024 := rfl
    omega

/-- The pool of the free pages. -/
def freshPool (hn : n ≤ 56320) : Pool :=
  (freshMem n).pool 0 (freshMem_nodup hn) (freshMem_usable hn)

theorem freshPool_card (hn : n ≤ 56320) : (freshPool hn).frames.card = n := by
  show (0 + ↑(freshMem n).free : Multiset Frame).card = n
  rw [Multiset.zero_add, Multiset.coe_card]
  unfold freshMem
  rw [List.length_map, List.length_range]

/-- **A process of `N` pages**, with a kernel stack outside of the pool, in a memory of `n` pages. -/
theorem exists_runs (hn : n ≤ 56320) (hN : 1026 + N < n) (page : ℕ → Page) :
    ∃ k S, Runs k S ∧ S.page = page ∧ k.curproc.sz = vaddr N ∧ k.mem.luck = [] ∧
      n ≤ 1025 + N + k.mem.free.length := by
  have hcard := freshPool_card hn
  obtain ⟨S, m, hat, -, hmapped, -, husers⟩ := exists_space (W := freshPool hn)
    (Mem.in_pool ..) rfl (N := N) (by omega) (by omega)
  have hpages : pages (vaddr N) = N := pages_vaddr (by omega)
  let proc : Proc := {
    state := .running, sz := vaddr N, pgdir := some S.dir, kstack := some 1023, tf := ⟨0, 0⟩, name := [] }
  have hnodup : (S.owned + ↑m.free).Nodup := by
    rw [hat.pool.split]
    exact (freshPool hn).frames.nodup
  have husable : ∀ f ∈ S.owned + ↑m.free, Usable f := by
    intro f hf
    rw [hat.pool.split] at hf
    exact (freshPool hn).usable f hf
  have hsz : vaddr N < KERNBASE := vaddr_lt_KERNBASE (by omega)
  have hruns : Runs { mem := m, proc := fun _ => proc, cur := 0 } S := by
    refine ⟨rfl, nofun, hat.rep, hnodup, husable, hsz, fun v hv => ?_⟩
    show _ ↔ v < pages (vaddr N)
    rw [hpages]
    exact hmapped v hv
  obtain ⟨p, hp⟩ := hruns.fill page
  refine ⟨_, _, hp, rfl, rfl, hat.pool.calm rfl, ?_⟩
  · have hsplit := congrArg Multiset.card hat.pool.split
    rw [Multiset.card_add, Multiset.coe_card] at hsplit
    have hle := S.owned_card_le
    have htotal : (freshPool hn).frames.val.card = n := hcard
    dsimp only
    omega

end Xv6.Vm
