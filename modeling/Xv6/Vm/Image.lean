import Xv6.Vm.Args

/-!
# What `exec` does

The new image is made out of the free pages, beside the address space of the process that calls `exec`.
A call that fails gives them all back and leaves the process as it was. A call that succeeds has put the
arguments where `main` looks for them.
-/

namespace Xv6.Vm

open Lib Layout

section layout

variable [Layout] {k k' : Kern} {S S₀ : Space} {m : Mem} {ip path : List Byte} {argv : List Word}
  {strs : List (List Byte)} {d : Frame} {sz entry : Word}

/-! ### The pool of `exec` -/

namespace Runs

theorem free_nodup (h : Runs k S₀) : (0 + ↑k.mem.free : Multiset Frame).Nodup := by
  rw [Multiset.zero_add]
  exact (Multiset.nodup_add.1 h.nodup).2.1

theorem free_usable (h : Runs k S₀) : ∀ f ∈ (0 + ↑k.mem.free : Multiset Frame), Usable f := by
  intro f hf
  rw [Multiset.zero_add] at hf
  exact h.usable f (Multiset.mem_add.2 (.inr hf))

def freePool (h : Runs k S₀) : Pool := k.mem.pool 0 h.free_nodup h.free_usable

theorem in_freePool (h : Runs k S₀) : In h.freePool 0 k.mem := Mem.in_pool ..

theorem mem_freePool (h : Runs k S₀) {f : Frame} : f ∈ h.freePool.frames ↔ f ∈ k.mem.free := by
  show f ∈ (0 + ↑k.mem.free : Multiset Frame) ↔ _
  rw [Multiset.zero_add, Multiset.mem_coe]

theorem aside (h : Runs k S₀) : Aside S₀ h.freePool where
  rep := h.rep
  disjoint f hf hW := by
    have hd := (Multiset.nodup_add.1 h.nodup).2.2
    exact Multiset.disjoint_left.1 hd hf (h.mem_freePool.1 hW)

end Runs

theorem In.free_perm (h : Runs k S₀) (hin : In h.freePool 0 m) : m.free.Perm k.mem.free := by
  have hsplit : (0 + ↑m.free : Multiset Frame) = 0 + ↑k.mem.free := hin.split
  rw [Multiset.zero_add, Multiset.zero_add] at hsplit
  exact Multiset.coe_eq_coe.1 hsplit

/-! ### The parts together -/

/-- The process that has taken over a new image. -/
def Kern.become (k : Kern) (m : Mem) (copied : List (Word × ℕ)) (path : List Byte) (d : Frame)
    (sz entry sp : Word) : Kern where
  mem := m
  proc := Function.update k.proc k.cur { k.curproc with
    name := (lastElem path).take 15, pgdir := some d, sz := sz, tf := { eip := entry, esp := sp } }
  cur := k.cur
  copied := copied

theorem freevm_old (h : Runs k S₀) (hat : At h.freePool S m) :
    ∃ m', (freevm S₀.dir).eval m = (.ok (), m') ∧ (∀ f ∈ S.owned, m'.page f = m.page f) ∧
      S.owned + ↑m'.free = S₀.owned + ↑k.mem.free := by
  have hfree : ∀ f ∈ m.free, f ∈ k.mem.free ∧ f ∉ S.owned := fun f hf =>
    ⟨h.mem_freePool.1 (hat.pool.mem_free hf).1, (hat.pool.mem_free hf).2⟩
  have hd := (Multiset.nodup_add.1 h.nodup).2.2
  have hn : (S₀.owned + ↑m.free).Nodup := by
    have hfn := h.freePool.frames.nodup
    rw [← hat.pool.split] at hfn
    refine Multiset.nodup_add.2 ⟨(Multiset.nodup_add.1 h.nodup).1, (Multiset.nodup_add.1 hfn).2.1, ?_⟩
    exact Multiset.disjoint_left.2 fun hf hf' => Multiset.disjoint_left.1 hd hf (hfree _ hf').1
  have hu : ∀ f ∈ S₀.owned + ↑m.free, Usable f := by
    intro f hf
    rcases Multiset.mem_add.1 hf with hf | hf
    · exact h.usable f (Multiset.mem_add.2 (.inl hf))
    · exact h.usable f (Multiset.mem_add.2 (.inr (hfree f hf).1))
  have hat₀ : At (m.pool S₀.owned hn hu) S₀ m := ⟨h.aside.rep_of_in hat.pool, Mem.in_pool ..⟩
  obtain ⟨_, m', hm', hin⟩ := freevm_spec m hat₀
  refine ⟨m', hm', fun f hf => hin.out f fun hfW => ?_, ?_⟩
  · have hfW' : f ∈ S₀.owned + (m.free : Multiset Frame) := hfW
    rcases Multiset.mem_add.1 hfW' with hf' | hf'
    · exact h.aside.disjoint f hf' (hat.pool.mem hf)
    · exact (hfree f hf').2 hf
  · have h₁ : (0 + ↑m'.free : Multiset Frame) = S₀.owned + ↑m.free := hin.split
    have h₂ : S.owned + ↑m.free = (0 + ↑k.mem.free : Multiset Frame) := hat.pool.split
    rw [Multiset.zero_add] at h₁ h₂
    rw [h₁, ← h₂, ← Multiset.add_assoc, ← Multiset.add_assoc, Multiset.add_comm S.owned]

/-- What `exec` does after loading, as `r` is the result of the second part. -/
def ExecDone (h : Runs k S₀) (S : Space) (m : Mem) (new : List (Word × ℕ)) (path : List Byte)
    (sz entry : Word) (r : Except Fault (Option Word)) (out : Except Fault Int × Kern) : Prop :=
  match r with
  | .error e => out = (.error e, { k with mem := m, copied := new ++ k.copied })
  | .ok none => ∃ m', out = (.ok (-1), { k with mem := m', copied := new ++ k.copied }) ∧
      In h.freePool 0 m'
  | .ok (some sp) => ∃ m', out = (.ok 0, k.become m' (new ++ k.copied) path S.dir sz entry sp) ∧
      (∀ f ∈ S.owned, m'.page f = m.page f) ∧ S.owned + ↑m'.free = S₀.owned + ↑k.mem.free

theorem exec_notLoaded (hload : (execLoad ip).eval k.mem = (.ok none, m)) :
    (exec (some ip) path argv).eval k = (.ok (-1), { k with mem := m }) := by
  have hk : (myproc).eval k = (.ok k.curproc, k) := rfl
  unfold exec
  exact (Prog.eval_bind hk).trans ((Prog.eval_bind (eval_onMem hload)).trans (Prog.eval_pure _ _))

/-- **`exec` of a file that can be loaded.** -/
theorem exec_loaded (h : Runs k S₀) (hargs : List.Forall₂ (IsStr S₀ k.curproc.sz) argv strs)
    (hload : (execLoad ip).eval k.mem = (.ok (some (d, sz, entry)), m)) (path : List Byte) :
    ∃ S r m' new, S.dir = d ∧ At h.freePool S m ∧ Stacked S sz ∧ S.page (pages sz - 1) = (fun _ => 0) ∧
      ArgsDone h.freePool S sz strs m' new r ∧
      ExecDone h S m' new path sz entry r ((exec (some ip) path argv).eval k) := by
  obtain ⟨r₀, m₀, hload', hres⟩ := execLoad_spec ip k.mem h.in_freePool
  cases hload.symm.trans hload'
  obtain ⟨S, rfl, hat, hst, hzero⟩ := hres
  obtain ⟨r, m', new, hrun, hdone⟩ :=
    pushArgs_spec (k := { k with mem := m }) hst hzero h.aside h.sz hargs hat
  refine ⟨S, r, m', new, rfl, hat, hst, hzero, hdone, ?_⟩
  have hold : (deref k.curproc.pgdir).eval { k with mem := m } = (.ok S₀.dir, { k with mem := m }) := by
    rw [h.pgdir]
    rfl
  have hk : (myproc).eval k = (.ok k.curproc, k) := rfl
  unfold exec
  match r, hdone with
  | .error e, _ =>
    exact (Prog.eval_bind hk).trans ((Prog.eval_bind (eval_onMem hload)).trans
      ((Prog.eval_bind hold).trans (Prog.eval_bind_error hrun)))
  | .ok none, ⟨_, _, _, page, hat'⟩ =>
    obtain ⟨_, m'', hm'', hin⟩ := freevm_spec (S := { S with page := page }) m' hat'
    refine ⟨m'', ?_, hin⟩
    refine (Prog.eval_bind hk).trans ((Prog.eval_bind (eval_onMem hload)).trans
      ((Prog.eval_bind hold).trans ((Prog.eval_bind hrun).trans ?_)))
    exact (Prog.eval_bind (eval_onMem hm'')).trans rfl
  | .ok (some sp), ⟨_, _, _, _, pg, us, _, hat'⟩ =>
    obtain ⟨m'', hm'', hpage, hsplit⟩ := freevm_old h hat'
    refine ⟨m'', ?_, hpage, hsplit⟩
    refine (Prog.eval_bind hk).trans ((Prog.eval_bind (eval_onMem hload)).trans
      ((Prog.eval_bind hold).trans ((Prog.eval_bind hrun).trans ?_)))
    refine (Prog.eval_bind (a := ()) (t := k.become m' (new ++ k.copied) path S.dir sz entry sp)
      rfl).trans ?_
    unfold switchuvm
    rw [if_neg h.kstack, if_neg nofun, h.pgdir]
    exact (Prog.eval_bind (eval_onMem (k := k.become m' (new ++ k.copied) path S.dir sz entry sp)
      hm'')).trans rfl

/-! ### Loading is safe and atomic -/

/-- There are 57344 pages below `PHYSTOP`. -/
theorem Pool.card_le (W : Pool) : W.frames.card ≤ 57344 := by
  rw [← Finset.card_range 57344]
  refine Finset.card_le_card_of_injOn BitVec.toNat (fun f hf => ?_) fun f _ g _ h =>
    BitVec.eq_of_toNat_eq h
  have hu := (W.usable f hf).2
  rw [P2V, BitVec.add_sub_cancel, BitVec.lt_def, addr_toNat] at hu
  have hp : PHYSTOP.toNat = 234881024 := rfl
  rw [Finset.coe_range, Set.mem_Iio]
  omega

theorem Img.pages_le_card {W : Pool} (h : Img S sz) (hat : At W S m) : pages sz ≤ W.frames.card := by
  have hle := h.pages_le
  have huser : ∀ v < pages sz, S.user v = some (PTE_ADDR (S.leaf v)) := fun v hv =>
    mapped_some.2 ⟨(h.mapped v (by omega)).2 hv, rfl⟩
  rw [← Finset.card_range (pages sz)]
  refine Finset.card_le_card_of_injOn (fun v => PTE_ADDR (S.leaf v)) (fun v hv => ?_)
    fun v hv v' hv' heq => ?_
  · rw [Finset.coe_range, Set.mem_Iio] at hv
    exact hat.pool.mem (Space.user_mem (by omega) (huser v hv))
  · rw [Finset.coe_range, Set.mem_Iio] at hv hv'
    refine Space.user_inj hat.nodup (by omega) (by omega) (huser v hv) ?_
    rw [huser v' hv']
    exact congrArg some heq.symm

/-- The size of an image, also when it is rounded up, stays below `KERNBASE`. -/
theorem Img.round_lt {W : Pool} (h : Img S sz) (hat : At W S m) : PGROUNDUP sz < KERNBASE := by
  have h₁ := h.pages_le_card hat
  have h₂ := W.card_le
  rw [PGROUNDUP_eq (Nat.le_of_lt h.lt)]
  exact vaddr_lt_KERNBASE (by omega)

/-- **Loading an arbitrary file is safe and atomic.** Whatever the file holds and whenever `kalloc` fails,
loading comes to an end without a fault; after any number of program headers the size is below
`KERNBASE`; and when `exec` returns -1, the processes are as they were, and so are the pages in use and
the free pages. -/
theorem exec_atomic (k : Kern) (S₀ : Space) (h : Runs k S₀) (ip path : List Byte) (argv : List Word)
    (strs : List (List Byte)) (hargs : List.Forall₂ (IsStr S₀ k.curproc.sz) argv strs) :
    (∃ r m, (execLoad ip).eval k.mem = (.ok r, m) ∧
      ∀ d sz entry, r = some (d, sz, entry) → sz < KERNBASE) ∧
    (∀ d m₁, setupkvm.eval k.mem = (.ok (some d), m₁) → ∀ n off, ∃ r m₂,
      (loadSegments d ip n off 0).eval m₁ = (.ok r, m₂) ∧
        ∀ sz, r = some sz → sz < KERNBASE ∧ PGROUNDUP sz < KERNBASE) ∧
    ∀ k', (exec (some ip) path argv).eval k = (.ok (-1), k') → k'.proc = k.proc ∧ k'.cur = k.cur ∧
      (∀ f ∉ k.mem.free, k'.mem.page f = k.mem.page f) ∧ k'.mem.free.Perm k.mem.free := by
  obtain ⟨r, m, hload, hres⟩ := execLoad_spec ip k.mem h.in_freePool
  refine ⟨⟨r, m, hload, fun d sz entry hr => ?_⟩, fun d m₁ hm₁ n off => ?_, fun k' hk' => ?_⟩
  · subst hr
    obtain ⟨S, -, -, hst, -⟩ := hres
    exact hst.lt
  · obtain ⟨r', m', hm', hsetup⟩ := setupkvm_spec k.mem h.in_freePool
    cases hm₁.symm.trans hm'
    obtain ⟨S, rfl, hkern, hlow, hat⟩ := hsetup
    obtain ⟨r, m₂, hm₂, S', -, hat', himg⟩ :=
      loadSegments_spec ip n off (Img.of_setupkvm hkern hlow) m₁ hat
    exact ⟨r, m₂, hm₂, fun sz hsz => ⟨(himg sz hsz).lt, (himg sz hsz).round_lt hat'⟩⟩
  · have hback : ∀ {m}, In h.freePool 0 m → (∀ f ∉ k.mem.free, m.page f = k.mem.page f) ∧
        m.free.Perm k.mem.free := fun hin =>
      ⟨fun f hf => hin.out f fun hfW => hf (h.mem_freePool.1 hfW), hin.free_perm h⟩
    match r, hres with
    | none, hin =>
      cases (exec_notLoaded hload).symm.trans hk'
      exact ⟨rfl, rfl, hback hin⟩
    | some (d, sz, entry), _ =>
      obtain ⟨S, r, m', new, -, -, -, -, hargs', hdone⟩ := exec_loaded h hargs hload path
      rw [hk'] at hdone
      match r, hdone with
      | .ok none, ⟨m'', heq, hin⟩ =>
        cases heq
        exact ⟨rfl, rfl, hback hin⟩
      | .ok (some sp), ⟨m'', heq, _⟩ => cases heq
      | .error e, heq => cases heq

/-- A file is loaded if there is memory for its segments and its stack. -/
theorem execLoad_eval {W : Pool} {bs : List Byte} (hin : In W 0 m) (hc : W.calm) (hcard : 1025 < W.frames.card)
    (hbs : readStruct ip 0 52 = some bs) (hmagic : (elfhdr bs).magic = ELF_MAGIC) :
    ∃ S m₁, Img S 0 ∧ At W S m₁ ∧ S.users.card = 0 ∧ ∀ sz S' m₂, S'.dir = S.dir → Img S' sz → At W S' m₂ →
      1028 + S'.users.card < W.frames.card → pages sz + 2 < 2 ^ 19 →
      (loadSegments S.dir ip (elfhdr bs).phnum.toNat (elfhdr bs).phoff 0).eval m₁ = (.ok (some sz), m₂) →
      ∃ m', (execLoad ip).eval m = (.ok (some (S.dir, vaddr (pages sz + 2), (elfhdr bs).entry)), m') := by
  obtain ⟨r, m₁, hm₁, hr⟩ := setupkvm_spec m hin
  cases r with
  | none =>
    have := hr.2 hc
    omega
  | some d =>
    obtain ⟨S, rfl, hk, hlow, hat⟩ := hr
    have husers : S.users = 0 := slots_none fun v hv => by
      rw [Space.user, hlow v (List.mem_range.1 hv)]
      rfl
    refine ⟨S, m₁, .of_setupkvm hk hlow, hat, by rw [husers, Multiset.card_zero],
      fun sz S' m₂ hdir himg hat' hcard' hsz hload => ?_⟩
    have hpages : ∀ P, P < 2 ^ 19 → pages (vaddr P) = P := fun P hP => pages_vaddr (by omega)
    have hround := himg.roundUp (by omega)
    have hold : vaddr (pages sz) ≤ vaddr (pages sz + 2) := by
      show (vaddr (pages sz)).toNat ≤ (vaddr (pages sz + 2)).toNat
      rw [vaddr_toNat (by omega), vaddr_toNat (by omega)]
      omega
    have hnew : vaddr (pages sz + 2) < KERNBASE := vaddr_lt_KERNBASE hsz
    obtain ⟨r, m₃, hm₃, S₃, hat₃, hres⟩ := alloc_spec hold hnew
      (fun v h₁ h₂ => hround.leaf_zero hat'.rep h₁ (by rw [hpages _ hsz] at h₂; omega)) m₂ hat'
    rw [hpages _ (by omega), hpages _ hsz] at hres
    obtain ⟨rfl, hg⟩ := hres.resolve_right fun h => by
      have := h.2.2 hc
      omega
    obtain ⟨_, m₄, hm₄, -⟩ := clearpteu_spec (hround.grown hold hnew (by rwa [hpages _ (by omega), hpages _ hsz])) hsz
      m₃ hat₃
    rw [hdir] at hm₃
    rw [hg.dir, hdir] at hm₄
    refine ⟨m₄, ?_⟩
    have himage : (loadImage S.dir ip (elfhdr bs)).eval m₁ = (.ok (some (vaddr (pages sz + 2))), m₄) := by
      have hlt : sz.toNat < 2 ^ 31 := himg.lt
      unfold loadImage
      refine (Prog.eval_bind hload).trans ?_
      dsimp only
      rw [PGROUNDUP_eq (by omega), show vaddr (pages sz) + 2 * PGSIZE = vaddr (pages sz + 2) from
        vaddr_add_vaddr (pages sz) 2]
      refine (Prog.eval_bind hm₃).trans ?_
      rw [if_neg fun h0 => ?_, show vaddr (pages sz + 2) - 2 * PGSIZE = vaddr (pages sz) by
        rw [← vaddr_add_vaddr (pages sz) 2]
        exact BitVec.add_sub_cancel _ _]
      · exact (Prog.eval_bind hm₄).trans (Prog.eval_pure _ _)
      · have := congrArg BitVec.toNat h0
        rw [vaddr_toNat (by omega)] at this
        have h00 : BitVec.toNat (0 : Word) = 0 := rfl
        omega
    unfold execLoad
    rw [hbs]
    dsimp only
    rw [if_neg (not_not.2 hmagic)]
    exact (Prog.eval_bind hm₁).trans ((Prog.eval_bind himage).trans rfl)

/-- Pages full of the letter a, and a page that begins with a zero after them. -/
theorem isStr_letters (h : Runs k S) (lo hi : ℕ) (hlo : 0 < lo) (hhi : hi < pages k.curproc.sz)
    (ha : ∀ v, lo ≤ v → v < hi → S.page v = fun _ => 0x61616161) (hz : S.page hi = fun _ => 0) (hle : lo ≤ hi)
    (hpages : k.curproc.sz.toNat = 4096 * pages k.curproc.sz) :
    IsStr S k.curproc.sz (vaddr lo) (List.replicate (4096 * (hi - lo)) 0x61) := by
  have hlt : k.curproc.sz.toNat < 2 ^ 31 := h.sz
  have haddr : (vaddr lo).toNat = 4096 * lo := vaddr_toNat (by omega)
  have hletter : ∀ j : Fin 4, wordByte 0x61616161 j.val = 0x61 := by decide
  refine ⟨fun h0 => ?_, ?_, fun b hb => ?_, fun i hi' => ?_⟩
  · rw [h0] at haddr
    have h00 : BitVec.toNat (0 : Word) = 0 := rfl
    omega
  · rw [List.length_replicate]
    omega
  · rw [List.eq_of_mem_replicate hb]
    decide
  · rw [List.length_replicate] at hi'
    have hpres : Present (S.leaf ((4096 * lo + i) / 4096)) := (h.mapped _ (by omega)).2 (by omega)
    rw [haddr, Space.byte, if_pos hpres]
    by_cases hend : i < 4096 * (hi - lo)
    · rw [ha _ (by omega) (by omega), List.getElem?_append_left (by rwa [List.length_replicate]),
        List.getElem?_replicate_of_lt hend]
      exact congrArg some (hletter ⟨(4096 * lo + i) % 4096 % 4, by omega⟩)
    · obtain rfl : i = 4096 * (hi - lo) := by omega
      rw [show (4096 * lo + 4096 * (hi - lo)) / 4096 = hi by omega, hz, getByte_zero,
        List.getElem?_append_right (by rw [List.length_replicate]), List.length_replicate, Nat.sub_self]
      rfl

end layout

/-! ### A file and its arguments -/

/-- A program header: 4 bytes of the file at `off` go to the page `v`, where `memsz` bytes are for them. -/
def sampleHeader (off v memsz : Byte) : List Byte :=
  [1, 0, 0, 0, off, 0, 0, 0, 0, 16 * v, 0, 0, 0, 0, 0, 0, 4, 0, 0, 0, memsz, 0, 0, 0] ++ List.replicate 8 0

/-- A file with two segments. -/
def sampleElf : List Byte :=
  [0x7F, 0x45, 0x4C, 0x46] ++ List.replicate 20 0 ++ [4, 0, 0, 0, 52, 0, 0, 0] ++ List.replicate 12 0 ++ [2] ++
    List.replicate 7 0 ++ sampleHeader 116 0 4 ++ sampleHeader 120 1 8 ++ [0xEB, 0xFE, 0x90, 0x90, 1, 2, 3, 4]

/-- The strings `hi` and `yes`. -/
def sampleStrs : List (List Byte) := [[0x68, 0x69], [0x79, 0x65, 0x73]]

/-- The two strings are at the beginning of the first page. The second page is full of the letter a. -/
def samplePage : ℕ → Page
  | 1 => fun i => if i = 0 then 0x00006968 else if i = 1 then 0x00736579 else 0
  | 2 => fun _ => 0x61616161
  | _ => fun _ => 0

section sample

attribute [local instance] sampleLayout

theorem sampleElf_load {k : Kern} {S : Space} (h : Runs k S) (hluck : k.mem.luck = [])
    (hfree : 1030 < k.mem.free.length) :
    ∃ d m, (execLoad sampleElf).eval k.mem = (.ok (some (d, 16384, 4)), m) := by
  have hcard : h.freePool.frames.card = k.mem.free.length := by
    show (0 + ↑k.mem.free : Multiset Frame).card = _
    rw [Multiset.zero_add, Multiset.coe_card]
  obtain ⟨S₀, m₀, himg₀, hat₀, hu₀, hload⟩ := execLoad_eval h.in_freePool hluck (by omega)
    (by decide +kernel : readStruct sampleElf 0 52 = some (sampleElf.take 52)) (by decide +kernel)
  obtain ⟨S₁, m₁, hd₁, himg₁, hat₁, hu₁, hrun₁⟩ := loadSegments_load himg₀ hat₀ hluck
    (by rw [hu₀]; exact (by decide : 1026 + 0 + 1 < 1031).trans_le (by omega))
    (by decide +kernel : readStruct sampleElf 52 32 = some ((sampleElf.drop 52).take 32))
    (by decide +kernel) (by decide +kernel) (by decide +kernel) (by decide +kernel) (by decide +kernel)
    (by decide +kernel) (by decide +kernel)
  obtain ⟨S₂, m₂, hd₂, himg₂, hat₂, hu₂, hrun₂⟩ := loadSegments_load himg₁ hat₁ hluck
    (by rw [hu₁, hu₀]; exact (by decide : 1026 + 1 + 2 < 1031).trans_le (by omega))
    (by decide +kernel : readStruct sampleElf 84 32 = some ((sampleElf.drop 84).take 32))
    (by decide +kernel) (by decide +kernel) (by decide +kernel) (by decide +kernel) (by decide +kernel)
    (by decide +kernel) (by decide +kernel)
  obtain ⟨m', hm'⟩ := hload _ S₂ m₂ (hd₂.trans hd₁) himg₂ hat₂
    (by rw [hu₂, hu₁, hu₀]; exact (by decide : 1028 + 2 < 1031).trans_le (by omega)) (by decide)
    ((hrun₁ 1).trans (hd₁ ▸ (hrun₂ 0).trans rfl))
  exact ⟨_, m', hm'⟩

theorem exists_sample : ∃ k S d m, Runs k S ∧ List.Forall₂ (IsStr S k.curproc.sz) [4096, 4100] sampleStrs ∧
    IsStr S k.curproc.sz 8192 (List.replicate 4096 0x61) ∧
    (execLoad sampleElf).eval k.mem = (.ok (some (d, 16384, 4)), m) := by
  obtain ⟨k, S, h, hpage, hsz, hluck, hfree⟩ := exists_runs (n := 4000) (N := 4) (by omega) (by omega) samplePage
  obtain ⟨d, m, hload⟩ := sampleElf_load h hluck (by omega)
  have hpres : Present (S.leaf 1) := (h.mapped 1 (by decide)).2 (by rw [hsz]; decide)
  have hbyte : ∀ i < 4096, S.byte (4096 + i) = some (getByte (samplePage 1) i) := fun i hi => by
    rw [Space.byte, show (4096 + i) / 4096 = 1 by omega, show (4096 + i) % 4096 = i by omega, if_pos hpres, hpage]
  have hstr : ∀ (a : Word) (o : ℕ) (s : List Byte), a.toNat = 4096 + o → o + s.length < 4096 → (∀ b ∈ s, b ≠ 0) →
      (∀ i ≤ s.length, some (getByte (samplePage 1) (o + i)) = (s ++ [0])[i]?) → IsStr S k.curproc.sz a s := by
    intro a o s ha hlen hs hb
    refine ⟨?_, ?_, hs, fun i hi => ?_⟩
    · rintro rfl
      have h00 : BitVec.toNat (0 : Word) = 0 := rfl
      omega
    · rw [hsz, ha]
      have : (vaddr 4).toNat = 16384 := rfl
      omega
    · rw [ha, Nat.add_assoc, hbyte _ (by omega), hb i hi]
  refine ⟨k, S, d, m, h, .cons (hstr 4096 0 _ rfl (by decide) (by decide) (by decide))
    (.cons (hstr 4100 4 _ rfl (by decide) (by decide) (by decide)) .nil), ?_, hload⟩
  refine isStr_letters h 2 3 (by decide) (by rw [hsz]; decide) (fun v h₁ h₂ => ?_) ?_ (by decide)
    (by rw [hsz]; decide)
  · obtain rfl : v = 2 := by omega
    rw [hpage]
    rfl
  · rw [hpage]
    rfl

/-- A string that fills a page does not fit above the array: the image has been loaded, and is freed. -/
theorem exec_atomic_large : ∃ k k' S d m, Runs k S ∧ (execLoad sampleElf).eval k.mem = (.ok (some (d, 16384, 4)), m) ∧
    (exec (some sampleElf) [] [8192]).eval k = (.ok (-1), k') ∧ k'.proc = k.proc ∧
    k'.mem.free.Perm k.mem.free := by
  obtain ⟨k, S, d, m, h, -, hstr, hload⟩ := exists_sample
  have hargs : List.Forall₂ (IsStr S k.curproc.sz) [8192] [List.replicate 4096 0x61] := .cons hstr .nil
  have hatomic := exec_atomic k S h sampleElf [] [8192] _ hargs
  have hpush : push 0 (List.replicate 4096 (0x61 : Byte)).length = 4100 := by
    rw [List.length_replicate]
    rfl
  have htotal : total [List.replicate 4096 0x61] = 4120 := by rw [total, used, used, hpush]; rfl
  obtain ⟨S', r, m', new, -, -, -, -, hdone, hexec⟩ := exec_loaded h hargs hload []
  match r, hdone, hexec with
  | .error e, ⟨_, hn⟩, _ => exact absurd ⟨by omega, fun _ => trivial⟩ hn
  | .ok (some sp), ⟨hfit, _⟩, _ => omega
  | .ok none, _, ⟨m'', heq, _⟩ =>
    obtain ⟨hproc, -, -, hfree⟩ := hatomic.2.2 _ heq
    exact ⟨k, _, S, d, m, h, hload, heq, hproc, hfree⟩

end sample

section layout

variable [Layout] {k k' : Kern} {S S₀ : Space} {m : Mem} {ip path : List Byte} {argv : List Word}
  {strs : List (List Byte)} {d : Frame} {sz entry : Word}

/-! ### The arguments are copied to the stack -/

/-- `exec` comes to an end, each copy of an argument goes to the two pages of the stack, and arguments
that do not fit into its upper page make it return -1. -/
def CopiesSafe (k : Kern) (ip path : List Byte) (argv : List Word) (strs : List (List Byte)) (sz : Word) :
    Prop :=
  ∃ r k' new, (exec (some ip) path argv).eval k = (.ok r, k') ∧ k'.copied = new ++ k.copied ∧
    (∀ c ∈ new, InStack sz c) ∧ (4096 < total strs → r = -1)

/-- **`exec` stays inside the stack exactly if no string is so long** that, with what is on the stack, it
goes beyond the two pages. -/
theorem exec_copies_iff (k : Kern) (S₀ : Space) (h : Runs k S₀) (ip path : List Byte) (argv : List Word)
    (strs : List (List Byte)) (hargs : List.Forall₂ (IsStr S₀ k.curproc.sz) argv strs)
    (hcount : argv.length < MAXARG) (d : Frame) (sz entry : Word) (m : Mem)
    (hload : (execLoad ip).eval k.mem = (.ok (some (d, sz, entry)), m)) :
    CopiesSafe k ip path argv strs sz ↔ Near 0 strs := by
  obtain ⟨S, r, m', new, -, -, -, -, hdone, hexec⟩ := exec_loaded h hargs hload path
  have hlen : strs.length ≤ MAXARG := hargs.length_eq ▸ Nat.le_of_lt hcount
  match r, hdone, hexec with
  | .error e, ⟨_, hn⟩, heq =>
    refine ⟨fun hsafe => ?_, fun hnear => absurd hnear hn⟩
    obtain ⟨r, k', new', hk', -⟩ := hsafe
    cases heq.symm.trans hk'
  | .ok none, ⟨hbig, hin, hout, _⟩, ⟨m'', heq, _⟩ =>
    constructor
    · rintro ⟨r, k', new', hk', hnew, hsafe, -⟩
      cases heq.symm.trans hk'
      by_contra hn
      obtain ⟨c, hc, hcout⟩ := hout hlen hn
      obtain rfl : new = new' := List.append_cancel_right hnew
      exact hcout (hsafe c hc)
    · exact fun hn => ⟨_, _, new, heq, rfl, hin hn, fun _ => rfl⟩
  | .ok (some sp), ⟨hfit, _, hin, hn, _⟩, ⟨m'', heq, _⟩ =>
    exact ⟨fun _ => hn, fun _ => ⟨_, _, new, heq, rfl, hin, fun hbig => absurd hfit (Nat.not_le.2 hbig)⟩⟩

/-- A string so long that the stack pointer wraps around to an address without a table. -/
theorem pushStrings_null {W : Pool} {psz a : Word} {s : List Byte} {us : Ustack} (hst : Stacked S sz)
    (haside : Aside S₀ W) (hpsz : psz < KERNBASE) (hs : IsStr S₀ psz a s) (hat : At W S k.mem)
    (hbig : sz.toNat < push 0 s.length)
    (htab : S.tab (PDX (BitVec.ofNat 32 (2 ^ 32 + sz.toNat - push 0 s.length))) = none) :
    ∃ k', (pushStrings S₀.dir S.dir (a :: argv) 0 sz us).eval k = (.error .null, k') := by
  have hin := hs.inside
  have hpsz' : psz.toNat < 2 ^ 31 := hpsz
  have hsz := hst.toNat
  have htwo := hst.two
  have hle := push_le 0 s.length
  have hva := sp_push s.length (rfl : sz.toNat = sz.toNat - 0) (Nat.zero_le _) rfl (by omega) (by omega)
  rw [if_neg (by omega)] at hva
  have hspw : (sz - (BitVec.ofNat 32 s.length + 1)) &&& ~~~3 =
      BitVec.ofNat 32 (2 ^ 32 + sz.toNat - push 0 s.length) := by
    apply BitVec.eq_of_toNat_eq
    rw [hva, BitVec.toNat_ofNat]
    omega
  have hcopy := copyout_high (fun o n => readUsers S₀.dir (a + BitVec.ofNat 32 o) n) hst hat
    (by rw [hva]; omega) (Nat.succ_pos s.length)
  rw [hspw, if_pos htab] at hcopy
  have hlen := eval_strlen (haside.rep_of_in hat.pool) hpsz hs
  refine ⟨{ k with
    copied := (BitVec.ofNat 32 (2 ^ 32 + sz.toNat - push 0 s.length), s.length + 1) :: k.copied }, ?_⟩
  unfold pushStrings
  rw [if_neg hs.nonnull, if_neg (by decide)]
  refine (Prog.eval_bind (eval_onMem hlen)).trans ?_
  dsimp only
  rw [hspw]
  exact Prog.eval_bind_error (eval_execCopyout hcopy)

theorem exec_null {a : Word} {s : List Byte} (h : Runs k S₀) (hs : IsStr S₀ k.curproc.sz a s)
    (hload : (execLoad ip).eval k.mem = (.ok (some (d, sz, entry)), m)) (hbig : sz.toNat < push 0 s.length)
    (htab : ∀ S : Space, S.Kernel → S.tab (PDX (BitVec.ofNat 32 (2 ^ 32 + sz.toNat - push 0 s.length))) = none) :
    ∃ k', (exec (some ip) path (a :: argv)).eval k = (.error .null, k') := by
  obtain ⟨r, m', hload', hres⟩ := execLoad_spec ip k.mem h.in_freePool
  cases hload.symm.trans hload'
  obtain ⟨S, rfl, hat, hst, -⟩ := hres
  obtain ⟨k', hk'⟩ := pushStrings_null (k := { k with mem := m }) hst h.aside h.sz hs hat hbig
    (htab S hst.kernel)
  have hk : (myproc).eval k = (.ok k.curproc, k) := rfl
  have hold : (deref k.curproc.pgdir).eval { k with mem := m } = (.ok S₀.dir, { k with mem := m }) := by
    rw [h.pgdir]
    rfl
  refine ⟨k', ?_⟩
  unfold exec
  exact (Prog.eval_bind hk).trans ((Prog.eval_bind (eval_onMem hload)).trans
    ((Prog.eval_bind hold).trans (Prog.eval_bind_error (Prog.eval_bind_error hk'))))

end layout

section sample

attribute [local instance] sampleLayout

theorem exec_copies_iff_two : ∃ k, CopiesSafe k sampleElf [] [4096, 4100] sampleStrs 16384 := by
  obtain ⟨k, S, d, m, h, hargs, -, hload⟩ := exists_sample
  exact ⟨k, (exec_copies_iff k S h sampleElf [] _ _ hargs (by decide) d 16384 4 m hload).2
    ⟨by decide, fun _ => ⟨by decide, fun _ => trivial⟩⟩⟩

/-- There is no table between the memory and the devices. -/
theorem Space.Kernel.tab_hole {S : Space} (h : S.Kernel) : S.tab 1014 = none := by
  by_contra ht
  obtain ⟨k, hk, v, ⟨h₁, h₂⟩, hv⟩ := h.tab 1014 (by decide) ht
  have hrows : ∀ k ∈ kmap, k.first + k.count ≤ 0x8E000 ∨ 0xFE000 ≤ k.first := by decide
  have := hrows k hk
  have hval : (1014 : Fin 1024).val = 1014 := rfl
  omega

/-- **A string of 40 megabytes makes `exec` follow a null pointer**: the stack pointer wraps around to an
address for which the new image has no table. -/
theorem exec_null_long : ∃ k S, Runs k S ∧ IsStr S k.curproc.sz 4096 (List.replicate (4096 * 9999) 0x61) ∧
    (∃ d m, (execLoad sampleElf).eval k.mem = (.ok (some (d, 16384, 4)), m)) ∧
    (∃ k', (exec (some sampleElf) [] [4096]).eval k = (.error .null, k')) ∧
    ¬ CopiesSafe k sampleElf [] [4096] [List.replicate (4096 * 9999) 0x61] 16384 := by
  obtain ⟨k, S, h, hpage, hsz, hluck, hfree⟩ := exists_runs (n := 56320) (N := 10001) (by omega) (by omega)
    fun v => if 1 ≤ v ∧ v < 10000 then fun _ => 0x61616161 else fun _ => 0
  obtain ⟨d, m, hload⟩ := sampleElf_load h hluck (by omega)
  have hstr : IsStr S k.curproc.sz 4096 (List.replicate (4096 * 9999) 0x61) := by
    refine isStr_letters h 1 10000 (by decide) (by rw [hsz]; decide) (fun v h₁ h₂ => ?_) ?_
      (by decide) (by rw [hsz]; decide)
    · rw [hpage]
      exact if_pos ⟨h₁, h₂⟩
    · rw [hpage]
      exact if_neg (by omega)
  have hpush : push 0 (List.replicate (4096 * 9999) (0x61 : Byte)).length = 40955908 := by
    rw [List.length_replicate]
    rfl
  have hnull : ∃ k', (exec (some sampleElf) [] [4096]).eval k = (.error .null, k') := by
    refine exec_null h hstr hload ?_ fun S hS => ?_
    · rw [hpush]
      decide
    · rw [hpush]
      exact hS.tab_hole
  refine ⟨k, S, h, hstr, ⟨d, m, hload⟩, hnull, ?_⟩
  rintro ⟨r, k₁, new, hk₁, -⟩
  obtain ⟨k', hk'⟩ := hnull
  cases hk'.symm.trans hk₁

end sample

section layout

variable [Layout] {k k' : Kern} {S S₀ : Space} {m : Mem} {ip path : List Byte} {argv : List Word}
  {strs : List (List Byte)} {d : Frame} {sz entry : Word}

/-! ### The arguments are delivered -/

omit [Layout] in
theorem userWord_eq {p : Frame → Page} {a : ℕ} {w : Word}
    (h : ∀ j < 4, userByte p d (a + j) = some (wordByte w j)) : userWord p d a = some w := by
  have h₀ := h 0 (by decide)
  rw [Nat.add_zero] at h₀
  unfold userWord
  rw [h₀, h 1 (by decide), h 2 (by decide), h 3 (by decide)]
  exact congrArg some (ofBytes_wordByte w)

/-- The arguments in the memory of the image `d` of size `sz`, from the stack pointer on: a return
address, the number of the strings, the address of the array; the array of the addresses of the strings,
with a zero at its end. All of it is in the top page. -/
structure Delivered (p : Frame → Page) (d : Frame) (sz esp : ℕ) (strs : List (List Byte)) : Prop where
  aligned : esp % 4 = 0
  top : sz - 4096 ≤ esp ∧ esp + 4 * (4 + strs.length) ≤ sz
  ret : userWord p d esp = some 0xffffffff
  argc : userWord p d (esp + 4) = some (BitVec.ofNat 32 strs.length)
  argv : userWord p d (esp + 8) = some (BitVec.ofNat 32 (esp + 12))
  str : ∀ i s, strs[i]? = some s → ∃ a, userWord p d (esp + 12 + 4 * i) = some (BitVec.ofNat 32 a) ∧
    sz - 4096 ≤ a ∧ a + s.length < sz ∧ ∀ j ≤ s.length, userByte p d (a + j) = (s ++ [0])[j]?
  null : userWord p d (esp + 12 + 4 * strs.length) = some 0

section ustack

variable {us : Ustack} {argc : ℕ} {sp : Word}

omit [Layout] in
theorem ustack_ne {i : ℕ} (hi : 3 + i < 36) :
    Fin.ofNat 36 (3 + i) ≠ 0 ∧ Fin.ofNat 36 (3 + i) ≠ 1 ∧ Fin.ofNat 36 (3 + i) ≠ 2 := by
  have hval : (Fin.ofNat 36 (3 + i)).val = 3 + i := Nat.mod_eq_of_lt hi
  refine ⟨fun h => ?_, fun h => ?_, fun h => ?_⟩
  all_goals
    rw [h] at hval
    have : (0 : Fin 36).val = 0 ∧ (1 : Fin 36).val = 1 ∧ (2 : Fin 36).val = 2 := ⟨rfl, rfl, rfl⟩
    omega

omit [Layout] in
theorem lastUstack_arg {i : ℕ} (hi : i < argc) (hargc : argc ≤ 32) :
    lastUstack us argc sp (Fin.ofNat 36 (3 + i)) = us (Fin.ofNat 36 (3 + i)) := by
  obtain ⟨h₀, h₁, h₂⟩ := ustack_ne (by omega : 3 + i < 36)
  have hne : Fin.ofNat 36 (3 + i) ≠ Fin.ofNat 36 (3 + argc) := by
    intro h
    have := congrArg Fin.val h
    rw [Fin.val_ofNat, Fin.val_ofNat] at this
    omega
  unfold lastUstack
  rw [Function.update_of_ne h₂, Function.update_of_ne h₁, Function.update_of_ne h₀, Function.update_of_ne hne]

omit [Layout] in
theorem lastUstack_null (hargc : argc ≤ 32) : lastUstack us argc sp (Fin.ofNat 36 (3 + argc)) = 0 := by
  obtain ⟨h₀, h₁, h₂⟩ := ustack_ne (by omega : 3 + argc < 36)
  unfold lastUstack
  rw [Function.update_of_ne h₂, Function.update_of_ne h₁, Function.update_of_ne h₀, Function.update_self]

end ustack

omit [Layout] in
theorem getByte_word (us : Ustack) {i j : ℕ} (hj : j < 4) :
    getByte us (4 * i + j) = wordByte (us (Fin.ofNat 36 i)) j := by
  unfold getByte
  rw [show (4 * i + j) / 4 = i by omega, show (4 * i + j) % 4 = j by omega]

theorem userByte_top {p : Frame → Page} {pg : Page} (hst : Stacked S sz)
    (hrep : Rep (S.write (pages sz - 1) pg) p) {o : ℕ} (ho : o < 4096) :
    userByte p S.dir (4096 * (pages sz - 1) + o) = some (getByte pg o) := by
  have hlt := hst.pages_lt
  have htwo := hst.two
  have hpres : Present ((S.write (pages sz - 1) pg).leaf (pages sz - 1)) :=
    (hst.mapped (pages sz - 1) (by omega)).2 (by omega)
  have h := hrep.userByte (a := 4096 * (pages sz - 1) + o) (by omega)
  rw [show (4096 * (pages sz - 1) + o) / 4096 = pages sz - 1 by omega,
    show (4096 * (pages sz - 1) + o) % 4096 = o by omega, if_pos hpres, Space.write_page] at h
  exact h

/-- **What is on the stack is what `main` expects.** -/
theorem delivered {p : Frame → Page} {pg : Page} {us : Ustack} (hst : Stacked S sz)
    (hl : Laid (pages sz) strs (used 0 strs) us pg) (hfit : total strs ≤ 4096)
    (hrep : Rep (S.write (pages sz - 1) (copyIn pg (4096 - total strs)
      (copyOut (lastUstack us strs.length (BitVec.ofNat 32 (sz.toNat - used 0 strs))) 0
        (4 * (4 + strs.length))))) p) :
    Delivered p S.dir sz.toNat (sz.toNat - total strs) strs := by
  have hsz := hst.toNat
  have htwo := hst.two
  have hszlt := sz.isLt
  have hfour := hl.four
  have hcount : strs.length ≤ 32 := hl.count
  have htotal : total strs = used 0 strs + 4 * (4 + strs.length) := rfl
  -- the words of the array
  have hword : ∀ i < 4 + strs.length, userWord p S.dir (sz.toNat - total strs + 4 * i) =
      some (lastUstack us strs.length (BitVec.ofNat 32 (sz.toNat - used 0 strs)) (Fin.ofNat 36 i)) := by
    intro i hi
    refine userWord_eq fun j hj => ?_
    have h := userByte_top hst hrep (o := 4096 - total strs + (4 * i + j)) (by omega)
    rw [getByte_copyIn _ _ _ (by omega), copyOut_length, if_pos (by omega),
      show 4096 - total strs + (4 * i + j) - (4096 - total strs) = 4 * i + j by omega,
      getD_copyOut _ _ (by omega), Nat.zero_add, getByte_word _ hj] at h
    rw [← h]
    congr 1
    omega
  refine ⟨by omega, by omega, ?_, ?_, ?_, fun i s hs => ?_, ?_⟩
  · have h := hword 0 (by omega)
    rw [Nat.mul_zero, Nat.add_zero] at h
    exact h
  · exact hword 1 (by omega)
  · have h := hword 2 (by omega)
    have hptr : BitVec.ofNat 32 (sz.toNat - used 0 strs) - (BitVec.ofNat 32 strs.length + 1) * 4 =
        BitVec.ofNat 32 (sz.toNat - total strs + 12) := by
      apply BitVec.eq_of_toNat_eq
      rw [BitVec.toNat_sub, BitVec.toNat_mul, BitVec.toNat_add, BitVec.toNat_ofNat, BitVec.toNat_ofNat,
        BitVec.toNat_ofNat, show BitVec.toNat (1 : Word) = 1 from rfl,
        show BitVec.toNat (4 : Word) = 4 from rfl]
      omega
    exact h.trans (congrArg some hptr)
  · have hi : i < strs.length := (List.getElem?_eq_some_iff.1 hs).1
    obtain ⟨o, hus, ho, hend, hbyte⟩ := hl.str i s hs
    refine ⟨4096 * (pages sz - 1) + o, ?_, by omega, by omega, fun j hj => ?_⟩
    · have h := hword (3 + i) (by omega)
      rw [lastUstack_arg hi hcount, hus (Fin.ofNat 36 (3 + i)) (Nat.mod_eq_of_lt (by omega))] at h
      rw [← h]
      congr 1
      omega
    · -- the strings are above the array
      have hlen : j < (s ++ [0]).length := by
        rw [List.length_append, List.length_singleton]
        omega
      rw [Nat.add_assoc, userByte_top hst hrep (by omega), getByte_copyIn _ _ _ (by omega), copyOut_length,
        if_neg (by omega), hbyte j hj, List.getD_eq_getElem _ _ hlen, List.getElem?_eq_getElem hlen]
  · have h := hword (3 + strs.length) (by omega)
    rw [lastUstack_null hcount] at h
    rw [← h]
    congr 1
    omega

theorem userByte_below {p : Frame → Page} {pg : Page} {us : Ustack} {bs : List Byte} (hst : Stacked S sz)
    (hzero : S.page (pages sz - 1) = fun _ => 0) (hl : Laid (pages sz) strs (used 0 strs) us pg)
    (hfit : total strs ≤ 4096) (hrep : Rep S m.page)
    (hrep' : Rep (S.write (pages sz - 1) (copyIn pg (4096 - total strs) bs)) p) {a : ℕ}
    (ha : a < sz.toNat - total strs) : userByte p S.dir a = userByte m.page S.dir a := by
  have hsz := hst.toNat
  have htwo := hst.two
  have hlt : sz.toNat < 2 ^ 31 := hst.lt
  have hpages := hst.pages_lt
  have htotal : total strs = used 0 strs + 4 * (4 + strs.length) := rfl
  have hpres : Present (S.leaf (a / 4096)) := (hst.mapped (a / 4096) (by omega)).2 (by omega)
  have h := hrep.userByte (a := a) (by omega)
  have h' := hrep'.userByte (a := a) (by omega)
  rw [if_pos hpres] at h
  refine (h'.trans (if_pos hpres)).trans (Eq.trans (congrArg some ?_) h.symm)
  by_cases htop : a / 4096 = pages sz - 1
  · rw [htop, Space.write_page, getByte_copyIn _ _ _ (by omega), if_neg (by omega), hl.low _ (by omega), hzero,
      getByte_zero]
  · exact congrArg (getByte · (a % 4096)) (Function.update_of_ne htop _ _)

/-- **`exec` delivers its arguments.** When it returns 0, the new image holds them in its top page, and
what is below them is as the image was loaded; `ustack` is never indexed outside of its bounds. -/
theorem exec_delivers (k : Kern) (S₀ : Space) (h : Runs k S₀) (ip path : List Byte) (argv : List Word)
    (strs : List (List Byte)) (hargs : List.Forall₂ (IsStr S₀ k.curproc.sz) argv strs) :
    (∀ k', (exec (some ip) path argv).eval k = (.ok 0, k') → ∃ d sz entry m,
      (execLoad ip).eval k.mem = (.ok (some (d, sz, entry)), m) ∧ k'.curproc.pgdir = some d ∧
      k'.curproc.sz = sz ∧ Delivered k'.mem.page d sz.toNat k'.curproc.tf.esp.toNat strs ∧
      ∀ a < k'.curproc.tf.esp.toNat, userByte k'.mem.page d a = userByte m.page d a) ∧
    ∀ k', (exec (some ip) path argv).eval k ≠ (.error .bounds, k') := by
  obtain ⟨r, m, hload, hres⟩ := execLoad_spec ip k.mem h.in_freePool
  match r, hres with
  | none, _ =>
    have hexec : (exec (some ip) path argv).eval k = (.ok (-1), { k with mem := m }) := exec_notLoaded hload
    constructor
    · intro k' hk'
      cases hexec.symm.trans hk'
    · intro k' hk'
      cases hexec.symm.trans hk'
  | some (d, sz, entry), _ =>
    obtain ⟨S, r, m', new, rfl, hat, hst, hzero, hdone, hexec⟩ := exec_loaded h hargs hload path
    match r, hdone, hexec with
    | .error e, ⟨he, _⟩, heq =>
      constructor
      · intro k' hk'
        cases heq.symm.trans hk'
      · intro k' hk'
        cases heq.symm.trans hk'
        cases he
    | .ok none, _, ⟨m'', heq, _⟩ =>
      constructor
      · intro k' hk'
        cases heq.symm.trans hk'
      · intro k' hk'
        cases heq.symm.trans hk'
    | .ok (some sp), ⟨hfit, hsp, _, _, pg, us, hl, hat'⟩, ⟨m'', heq, hpage, _⟩ =>
      constructor
      · intro k' hk'
        cases heq.symm.trans hk'
        have hrep := hat'.rep.congr hpage
        have hcur : (k.become m'' (new ++ k.copied) path S.dir sz entry sp).curproc = { k.curproc with
            name := (lastElem path).take 15, pgdir := some S.dir, sz := sz,
            tf := { eip := entry, esp := sp } } := Function.update_self ..
        rw [hcur]
        dsimp only
        rw [hsp]
        exact ⟨S.dir, sz, entry, m, hload, rfl, rfl, delivered hst hl hfit hrep, fun a ha =>
          userByte_below hst hzero hl hfit hat.rep hrep ha⟩
      · intro k' hk'
        cases heq.symm.trans hk'

end layout

section sample

attribute [local instance] sampleLayout

/-- Two strings are delivered. -/
theorem exec_delivers_two : ∃ k k' d, (exec (some sampleElf) [] [4096, 4100]).eval k = (.ok 0, k') ∧
    Delivered k'.mem.page d 16384 k'.curproc.tf.esp.toNat sampleStrs := by
  obtain ⟨k, S, d, m, h, hargs, -, hload⟩ := exists_sample
  obtain ⟨S', r, m', new, -, -, -, -, hdone, hexec⟩ := exec_loaded h hargs hload []
  have htotal : total sampleStrs = 32 := rfl
  match r, hdone, hexec with
  | .error e, ⟨_, hn⟩, _ => exact absurd ⟨by decide, fun _ => ⟨by decide, fun _ => trivial⟩⟩ hn
  | .ok none, ⟨hbig, _⟩, _ =>
    have := hbig (by decide)
    omega
  | .ok (some sp), _, ⟨m'', heq, _⟩ =>
    obtain ⟨d', sz, entry, m₁, hload', -, -, hdel, -⟩ := (exec_delivers k S h sampleElf [] _ _ hargs).1 _ heq
    cases hload.symm.trans hload'
    exact ⟨k, _, d, heq, hdel⟩

end sample

end Xv6.Vm
