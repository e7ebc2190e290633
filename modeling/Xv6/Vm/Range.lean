import Xv6.Vm.Grow

/-!
# Ranges of user pages

`deallocuvm` and `allocuvm` work on the pages whose addresses are in a range, from a size that is rounded
up to one that is not. What they do is said here in terms of the entries that the hardware finds in
memory. The step of `deallocuvm` over an absent table is one over pages of which none is mapped; this is
so in every memory, whether or not it holds proper tables.
-/

namespace Xv6.Vm

open Lib Layout

/-- The address of the page is in `[PGROUNDUP(lo), hi)`. -/
def Within (lo hi : Word) (v : ℕ) : Prop := (PGROUNDUP lo).toNat ≤ 4096 * v ∧ 4096 * v < hi.toNat

instance (lo hi : Word) (v : ℕ) : Decidable (Within lo hi v) := inferInstanceAs (Decidable (_ ∧ _))

theorem within_iff {lo hi : Word} (h : lo.toNat ≤ 2 ^ 31) {v : ℕ} :
    Within lo hi v ↔ pages lo ≤ v ∧ v < pages hi := by
  have hle := pages_le h
  unfold Within
  rw [PGROUNDUP_eq h, vaddr_toNat (by omega)]
  unfold pages
  omega

/-! ### The step over an absent table -/

section every

variable [Layout] {m : Mem} {d : Frame} {oldsz newsz : Word}

/-- What `deallocuvm` does at an entry. -/
def deallocEntry (pgtab : Frame) (j : Fin 1024) : MemM Unit := do
  let pte ← load pgtab j
  if pte &&& PTE_P ≠ 0 then
    let pa := PTE_ADDR pte
    if pa = 0 then throw (.panic "kfree")
    kfree pa
    store pgtab j 0

/-- What `deallocuvm` does at a page. -/
def deallocPage (pgdir : Frame) (v : ℕ) : MemM Unit := do
  match ← walkpgdir pgdir (vaddr v) false with
  | none => pure ()
  | some (pgtab, j) => deallocEntry pgtab j

/-- `deallocuvm` without the step over absent tables: every page is visited. -/
def deallocEvery (pgdir : Frame) (oldsz newsz : Word) : MemM Word := do
  (List.range' (pages newsz) (pages oldsz - pages newsz)).forM (deallocPage pgdir)
  pure newsz

omit [Layout] in
theorem eval_walk_absent {va : Word} (h : ¬ Present (m.page d (PDX va))) :
    (walkpgdir d va false).eval m = (.ok none, m) := by
  have hload : (load d (PDX va)).eval m = (.ok (m.page d (PDX va)), m) := rfl
  unfold walkpgdir
  refine (Prog.eval_bind hload).trans ?_
  rw [if_neg h]
  rfl

omit [Layout] in
theorem eval_walk_present {va : Word} (h : Present (m.page d (PDX va))) :
    (walkpgdir d va false).eval m = (.ok (some (PTE_ADDR (m.page d (PDX va)), PTX va)), m) := by
  have hload : (load d (PDX va)).eval m = (.ok (m.page d (PDX va)), m) := rfl
  unfold walkpgdir
  refine (Prog.eval_bind hload).trans ?_
  rw [if_pos h]
  rfl

/-- Without a table there is nothing to do, at any page of the table. -/
theorem forM_absent {x : ℕ} (h : ¬ Present (m.page d (PDX (vaddr x)))) (k r : ℕ)
    (hk : x % 1024 + k ≤ 1024) (hx : x + k ≤ 2 ^ 20) :
    ((List.range' x (k + r)).forM (deallocPage d)).eval m =
      ((List.range' (x + k) r).forM (deallocPage d)).eval m := by
  induction k generalizing x with
  | zero => rw [Nat.zero_add, Nat.add_zero]
  | succ k ih =>
    have hpage : (deallocPage d x).eval m = (.ok (), m) := by
      unfold deallocPage
      exact (Prog.eval_bind (eval_walk_absent h)).trans rfl
    rw [show k + 1 + r = (k + r) + 1 by omega, List.range'_succ]
    refine (Prog.eval_bind hpage).trans ?_
    cases k with
    | zero => rw [Nat.zero_add]
    | succ k =>
      have hpdx : PDX (vaddr (x + 1)) = PDX (vaddr x) := by
        apply Fin.ext
        rw [PDX_val, PDX_val, vpn_vaddr (by omega), vpn_vaddr (by omega)]
        omega
      rw [ih (x := x + 1) (by rwa [hpdx]) (by omega) (by omega), show x + 1 + (k + 1) = x + (k + 1 + 1) by omega]

theorem eval_deallocTurn (newsz : Word) {x : ℕ} (hx : vaddr x < oldsz) (h : Present (m.page d (PDX (vaddr x)))) :
    (deallocTurn d oldsz newsz (vaddr x)).eval m =
      (deallocPage d x >>= fun _ => (pure (.inl (vaddr (x + 1))) : MemM (Word ⊕ Word))).eval m := by
  have hpage : (deallocPage d x >>= fun _ => (pure (.inl (vaddr (x + 1))) : MemM (Word ⊕ Word))).eval m =
      (deallocEntry (PTE_ADDR (m.page d (PDX (vaddr x)))) (PTX (vaddr x)) >>= fun _ =>
        (pure (.inl (vaddr (x + 1))) : MemM (Word ⊕ Word))).eval m := by
    unfold deallocPage
    rw [bind_assoc]
    exact Prog.eval_bind (eval_walk_present h)
  rw [hpage]
  unfold deallocTurn deallocEntry
  rw [if_pos hx, vaddr_add, bind_assoc]
  refine (Prog.eval_bind (eval_walk_present h)).trans (congrArg (Prog.eval · m) ?_)
  dsimp only
  refine bind_congr fun pte => ?_
  by_cases hp : pte &&& PTE_P ≠ 0
  · rw [if_pos hp, if_pos hp]
    by_cases h0 : PTE_ADDR pte = 0
    · rw [if_pos h0, if_pos h0, Prog.throw_bind, Prog.throw_bind, Prog.throw_bind]
    · rw [if_neg h0, if_neg h0, bind_assoc]
  · rw [if_neg hp, if_neg hp, pure_bind]

theorem eval_deallocLoop (hold : oldsz.toNat ≤ 2 ^ 31) {n x : ℕ} (hx : x ≤ 2 ^ 19) (hn : pages oldsz - x < n) :
    (Prog.loop .loop (deallocTurn d oldsz newsz) n (vaddr x)).eval m =
      ((List.range' x (pages oldsz - x)).forM (deallocPage d) >>= fun _ => (pure newsz : MemM Word)).eval m := by
  have hhi : pages oldsz ≤ 2 ^ 19 := pages_le hold
  induction n generalizing x m with
  | zero => omega
  | succ n ih =>
    have hx20 : x < 2 ^ 20 := by omega
    rw [Prog.loop]
    by_cases hend : vaddr x < oldsz
    · have hxlt : x < pages oldsz := (vaddr_lt hx20).1 hend
      by_cases hp : Present (m.page d (PDX (vaddr x)))
      · obtain ⟨k, hk⟩ : ∃ k, pages oldsz - x = k + 1 := ⟨pages oldsz - x - 1, by omega⟩
        have hnext : pages oldsz - (x + 1) = k := by omega
        rw [hk, List.range'_succ]
        have hturn := eval_deallocTurn newsz hend hp
        rcases hrun : (deallocPage d x).eval m with ⟨e | u, m'⟩
        · rw [Prog.eval_bind_error hrun] at hturn
          rw [Prog.eval_bind_error hturn]
          exact (Prog.eval_bind_error (Prog.eval_bind_error hrun)).symm
        · rw [Prog.eval_bind hrun] at hturn
          refine (Prog.eval_bind hturn).trans ?_
          dsimp only
          rw [ih (by omega) (by omega), hnext]
          show _ = (((deallocPage d x) >>= fun _ => (List.range' (x + 1) k).forM (deallocPage d)) >>= _).eval m
          rw [bind_assoc]
          exact (Prog.eval_bind (f := fun _ => (List.range' (x + 1) k).forM (deallocPage d) >>= fun _ => pure newsz)
            hrun).symm
      · have hpdx : (PDX (vaddr x)).val = x / 1024 := by rw [PDX_val, vpn_vaddr hx20]
        have hturn : (deallocTurn d oldsz newsz (vaddr x)).eval m =
            (.ok (.inl (vaddr (1024 * (x / 1024 + 1)))), m) := by
          unfold deallocTurn
          rw [if_pos hend, PGADDR_eq, hpdx]
          exact (Prog.eval_bind (eval_walk_absent hp)).trans rfl
        refine (Prog.eval_bind hturn).trans ?_
        dsimp only
        rw [ih (by omega) (by omega)]
        -- the pages that are left out
        have hskip := forM_absent hp (min (1024 - x % 1024) (pages oldsz - x))
          (pages oldsz - 1024 * (x / 1024 + 1)) (by omega) (by omega)
        rw [show min (1024 - x % 1024) (pages oldsz - x) + (pages oldsz - 1024 * (x / 1024 + 1)) = pages oldsz - x
          by omega] at hskip
        refine Prog.eval_bind_congr (Eq.trans ?_ hskip.symm)
        by_cases hlast : 1024 * (x / 1024 + 1) ≤ pages oldsz
        · rw [show x + min (1024 - x % 1024) (pages oldsz - x) = 1024 * (x / 1024 + 1) by omega]
        · rw [show pages oldsz - 1024 * (x / 1024 + 1) = 0 by omega]
          rfl
    · have hxge : pages oldsz - x = 0 := by
        have : ¬ x < pages oldsz := fun h => hend ((vaddr_lt hx20).2 h)
        omega
      rw [hxge]
      have hturn : (deallocTurn d oldsz newsz (vaddr x)).eval m = (.ok (.inr newsz), m) := by
        unfold deallocTurn
        rw [if_neg hend]
        rfl
      exact (Prog.eval_bind hturn).trans rfl

/-- **Stepping over absent tables gives what visiting every page gives**, in every memory. -/
theorem deallocuvm_eq_every (hold : oldsz.toNat ≤ 2 ^ 31) (hlt : newsz < oldsz) :
    (deallocuvm d oldsz newsz).eval m = (deallocEvery d oldsz newsz).eval m := by
  have hlt' : newsz.toNat < oldsz.toNat := hlt
  have hle := pages_le hold
  unfold deallocuvm deallocEvery
  rw [if_neg (BitVec.not_le.2 hlt), PGROUNDUP_eq (by omega)]
  refine eval_deallocLoop hold ?_ ?_
  · unfold pages
    omega
  · unfold fuel
    omega

end every

/-! ### What is freed and what is added -/

/-- The pages of memory that are mapped in a range. -/
def framesWithin (p : Frame → Page) (d : Frame) (lo hi : Word) : List Frame :=
  ((List.range (2 ^ 19)).filter fun v => Within lo hi v).filterMap fun v => mapped (pte p d v)

/-- The pages from `newsz` up to `oldsz` are gone: each page of memory that was mapped there is freed, once,
the entries are cleared, and nothing else is changed. -/
structure Deallocated (d : Frame) (oldsz newsz : Word) (m m' : Mem) : Prop where
  once : (framesWithin m.page d newsz oldsz).Nodup
  free : m'.free.Perm (framesWithin m.page d newsz oldsz ++ m.free)
  pte : ∀ v < 2 ^ 20, pte m'.page d v = if Within newsz oldsz v then 0 else pte m.page d v
  byte : ∀ a < 2 ^ 31, ¬ Within newsz oldsz (a / 4096) → userByte m'.page d a = userByte m.page d a

/-- The user sees what it saw. -/
structure Untouched (d : Frame) (m m' : Mem) : Prop where
  pte : ∀ v < 2 ^ 20, pte m'.page d v = pte m.page d v
  byte : ∀ a < 2 ^ 31, userByte m'.page d a = userByte m.page d a

/-- The pages from `oldsz` up to `newsz` are mapped to pages of memory that were free, no two to the same one,
which are zero and which the user may write; and nothing else is changed. -/
structure Allocated (d : Frame) (oldsz newsz : Word) (m m' : Mem) : Prop where
  pte : ∀ v < 2 ^ 20, ¬ Within oldsz newsz v → pte m'.page d v = pte m.page d v
  byte : ∀ a < 2 ^ 31, ¬ Within oldsz newsz (a / 4096) → userByte m'.page d a = userByte m.page d a
  new : ∀ v, Within oldsz newsz v → PTE_FLAGS (Vm.pte m'.page d v) = PTE_W ||| PTE_U ||| PTE_P ∧
    ∃ f ∈ m.free, mapped (Vm.pte m'.page d v) = some f ∧ m'.page f = fun _ => 0
  inj : ∀ v v' f, Within oldsz newsz v → Within oldsz newsz v' → mapped (Vm.pte m'.page d v) = some f →
    mapped (Vm.pte m'.page d v') = some f → v = v'

section layout

variable [Layout] {m m' : Mem} {S S' : Space} {oldsz newsz : Word}

/-- The directory `S.dir` is one of a process: its pages, its tables and the free pages are told apart. -/
structure Mem.Holds (m : Mem) (S : Space) : Prop where
  rep : Rep S m.page
  nodup : (S.owned + ↑m.free).Nodup
  usable : ∀ f ∈ S.owned + ↑m.free, Usable f

/-- The pool of the directory and the free pages. -/
def Mem.Holds.frames (h : m.Holds S) : Pool := m.pool S.owned h.nodup h.usable

theorem Mem.Holds.at (h : m.Holds S) : At h.frames S m := ⟨h.rep, Mem.in_pool ..⟩

omit [Layout] in
/-- The pages that are owned before some of them are cleared. -/
theorem Space.owned_clear (S : Space) (lo hi : ℕ) :
    S.owned = slots ((List.range (2 ^ 19)).filter fun v => lo ≤ v ∧ v < hi) S.user + (S.clear lo hi).owned := by
  have husers : S.users = slots ((List.range (2 ^ 19)).filter fun v => lo ≤ v ∧ v < hi) S.user +
      (S.clear lo hi).users := by
    refine slots_split _ fun v _ => ?_
    show mapped (if lo ≤ v ∧ v < hi then 0 else S.leaf v) = _
    split
    · rfl
    · rfl
  show S.dir ::ₘ (S.tables + S.users) = _ + (S.dir ::ₘ (S.tables + (S.clear lo hi).users))
  rw [husers, Multiset.add_cons, ← Multiset.add_assoc, Multiset.add_comm S.tables, Multiset.add_assoc]

omit [Layout] in
theorem framesWithin_eq (oldsz : Word) (h : Rep S m.page) (hnew : newsz.toNat ≤ 2 ^ 31) :
    (↑(framesWithin m.page S.dir newsz oldsz) : Multiset Frame) =
      slots ((List.range (2 ^ 19)).filter fun v => pages newsz ≤ v ∧ v < pages oldsz) S.user := by
  have hfilter : ((List.range (2 ^ 19)).filter fun v => Within newsz oldsz v) =
      (List.range (2 ^ 19)).filter fun v => pages newsz ≤ v ∧ v < pages oldsz :=
    List.filter_congr fun v _ => by simp only [within_iff hnew]
  unfold framesWithin
  rw [hfilter]
  refine congrArg _ (List.filterMap_congr fun v hv => ?_)
  have := List.mem_range.1 (List.mem_filter.1 hv).1
  rw [h.pte (by omega)]
  rfl

theorem Mem.Holds.dealloc (h : m.Holds S) (hlt : newsz < oldsz) (hold : oldsz ≤ KERNBASE) :
    ∃ m', (deallocuvm S.dir oldsz newsz).eval m = (.ok newsz, m') ∧ Deallocated S.dir oldsz newsz m m' := by
  have hold' : oldsz.toNat ≤ 2 ^ 31 := hold
  have hlt' : newsz.toNat < oldsz.toNat := hlt
  have hnew : newsz.toNat ≤ 2 ^ 31 := by omega
  obtain ⟨r, m', hm', hr, hat⟩ := dealloc_spec newsz hold' m h.at
  rw [if_neg (BitVec.not_le.2 hlt)] at hr
  subst hr
  have hframes := framesWithin_eq oldsz h.rep hnew
  have hown := S.owned_clear (pages r) (pages oldsz)
  rw [← hframes] at hown
  refine ⟨m', hm', ?_, ?_, fun v hv => ?_, fun a ha hout => ?_⟩
  · have hn := (Multiset.nodup_add.1 h.nodup).1
    rw [hown] at hn
    exact Multiset.coe_nodup.1 (Multiset.nodup_add.1 hn).1
  · have hsplit : (S.clear (pages r) (pages oldsz)).owned + ↑m'.free = S.owned + ↑m.free := hat.pool.split
    rw [hown, Multiset.add_comm (Multiset.ofList _), Multiset.add_assoc] at hsplit
    exact Multiset.coe_eq_coe.1 (Multiset.add_right_inj.1 hsplit)
  · have hpte := hat.rep.pte hv
    rw [h.rep.pte hv]
    refine hpte.trans ?_
    by_cases hin : Within r oldsz v
    · rw [if_pos hin]
      exact if_pos ((within_iff hnew).1 hin)
    · rw [if_neg hin]
      exact if_neg fun hc => hin ((within_iff hnew).2 hc)
  · refine userByte_eq h.rep hat.rep rfl ha ?_ fun _ => rfl
    exact if_neg fun hc => hout ((within_iff hnew).2 hc)

theorem Mem.Holds.alloc (h : m.Holds S) (hle : oldsz ≤ newsz) (hnew : newsz < KERNBASE)
    (hun : ∀ v, Within oldsz newsz v → ¬ Present (pte m.page S.dir v)) :
    ∃ r m', (allocuvm S.dir oldsz newsz).eval m = (.ok r, m') ∧
      (r = newsz ∧ Allocated S.dir oldsz newsz m m' ∨ r = 0 ∧ Untouched S.dir m m') := by
  have hnew' : newsz.toNat < 2 ^ 31 := hnew
  have hle' : oldsz.toNat ≤ newsz.toNat := hle
  have hold : oldsz.toNat ≤ 2 ^ 31 := by omega
  have hpages : pages newsz ≤ 2 ^ 19 := pages_le (by omega)
  have h0 : ∀ v, pages oldsz ≤ v → v < pages newsz → S.leaf v = 0 := fun v h₁ h₂ => by
    have hv := hun v ((within_iff hold).2 ⟨h₁, h₂⟩)
    rw [h.rep.pte (by omega)] at hv
    exact h.rep.absent (by omega) hv
  obtain ⟨r, m', hm', S', hat, hres⟩ := alloc_spec hle hnew h0 m h.at
  refine ⟨r, m', hm', ?_⟩
  rcases hres with ⟨rfl, hg⟩ | ⟨rfl, hg, -⟩
  · have hpte : ∀ v < 2 ^ 20, pte m'.page S.dir v = S'.leaf v := fun v hv => by
      rw [← hg.dir]
      exact hat.rep.pte hv
    have hlow : ∀ v, Within oldsz r v → pages oldsz ≤ v ∧ v < pages r := fun v => (within_iff hold).1
    refine .inl ⟨rfl, fun v hv hout => ?_, fun a ha hout => ?_, fun v hin => ?_, fun v v' f hin hin' hf hf' => ?_⟩
    · rw [hpte v hv, h.rep.pte hv]
      exact hg.leaf v fun hc => hout ((within_iff hold).2 hc)
    · have hout' := fun hc => hout ((within_iff hold).2 hc)
      exact userByte_eq h.rep hat.rep hg.dir ha (hg.leaf _ hout') (hg.page _ hout')
    · obtain ⟨h₁, h₂⟩ := hlow v hin
      have huser : S'.user v = some (PTE_ADDR (S'.leaf v)) := mapped_some.2 ⟨hg.present v h₁ h₂, rfl⟩
      rw [hpte v (by omega)]
      refine ⟨hg.flags v h₁ h₂, PTE_ADDR (S'.leaf v), ?_, huser, ?_⟩
      · have hmem : PTE_ADDR (S'.leaf v) ∈ S.owned + (m.free : Multiset Frame) :=
          hat.pool.mem (Space.user_mem (by omega) huser)
        refine (Multiset.mem_add.1 hmem).resolve_left fun hown => ?_
        -- what was owned is still in use for what it was
        rcases Space.mem_owned.1 hown with hd | ⟨i, hi⟩ | ⟨x, hx, hxf⟩
        · exact Space.user_ne_dir hat.nodup (by omega) huser (hd.trans hg.dir.symm)
        · exact Space.user_ne_tab hat.nodup (by omega) huser (hg.keep i _ hi) rfl
        · have hpx : Present (S.leaf x) := (mapped_some.1 hxf).1
          have hxout : ¬ (pages oldsz ≤ x ∧ x < pages r) := fun hc => by
            rw [h0 x hc.1 hc.2] at hpx
            exact not_present_zero hpx
          have hx' : S'.user x = some (PTE_ADDR (S'.leaf v)) := by
            rw [Space.user, hg.leaf x hxout]
            exact hxf
          have hvx := Space.user_inj hat.nodup (by omega) hx huser hx'
          exact hxout ⟨by omega, by omega⟩
      · rw [hat.rep.page (by omega) huser, hg.zero v h₁ h₂]
    · have hv := hlow v hin
      have hv' := hlow v' hin'
      rw [hpte v (by omega)] at hf
      rw [hpte v' (by omega)] at hf'
      exact Space.user_inj hat.nodup (by omega) (by omega) hf hf'
  · refine .inr ⟨rfl, fun v hv => ?_, fun a ha => ?_⟩
    · rw [h.rep.pte hv, ← hg.dir, hat.rep.pte hv]
      exact hg.leaf v (by omega)
    · exact userByte_eq h.rep hat.rep hg.dir ha (hg.leaf _ (by omega)) (hg.page _ (by omega))

/-- **The operations on ranges of user pages are exact.** -/
theorem uvm_exact (m : Mem) (S : Space) (h : m.Holds S) :
    (∀ oldsz newsz, newsz < oldsz → oldsz ≤ KERNBASE → ∃ m',
      (deallocuvm S.dir oldsz newsz).eval m = (.ok newsz, m') ∧
      (deallocEvery S.dir oldsz newsz).eval m = (.ok newsz, m') ∧ Deallocated S.dir oldsz newsz m m') ∧
    ∀ oldsz newsz, oldsz ≤ newsz → newsz < KERNBASE →
      (∀ v, Within oldsz newsz v → ¬ Present (pte m.page S.dir v)) → ∃ r m',
        (allocuvm S.dir oldsz newsz).eval m = (.ok r, m') ∧
          (r = newsz ∧ Allocated S.dir oldsz newsz m m' ∨ r = 0 ∧ Untouched S.dir m m') := by
  constructor
  · intro oldsz newsz hlt hold
    obtain ⟨m', hm', hd⟩ := h.dealloc hlt hold
    exact ⟨m', hm', (deallocuvm_eq_every hold hlt).symm.trans hm', hd⟩
  · intro oldsz newsz hle hnew hun
    exact h.alloc hle hnew hun

end layout

section sample

attribute [local instance] sampleLayout

/-- A process of two pages gives the second one back, and gets a third one. -/
theorem uvm_exact_two : ∃ m S, m.Holds S ∧
    (∃ m', (deallocuvm S.dir 8192 100).eval m = (.ok 100, m') ∧ pte m'.page S.dir 1 = 0) ∧
    ∃ m', (allocuvm S.dir 8192 8193).eval m = (.ok 8193, m') ∧ Allocated S.dir 8192 8193 m m' := by
  obtain ⟨k, S, h, -, hsz, hluck, hfree⟩ := exists_runs (n := 4000) (N := 2) (by omega) (by omega) fun _ _ => 0
  have hold : k.mem.Holds S := ⟨h.rep, h.nodup, h.usable⟩
  obtain ⟨hdealloc, halloc⟩ := uvm_exact k.mem S hold
  obtain ⟨m₁, hm₁, -, hd⟩ := hdealloc 8192 100 (by decide) (by decide)
  have hthird : ¬ Present (S.leaf 2) := by
    rw [h.mapped 2 (by decide), hsz]
    decide
  have hun : ∀ v, Within 8192 8193 v → ¬ Present (pte k.mem.page S.dir v) := by
    intro v hv
    obtain rfl : v = 2 := by
      obtain ⟨h₁, h₂⟩ := hv
      have h₃ : (PGROUNDUP 8192).toNat = 8192 := by decide
      have h₄ : BitVec.toNat (8193 : Word) = 8193 := rfl
      omega
    rwa [h.rep.pte (by decide)]
  obtain ⟨r, m₂, hm₂, hr⟩ := halloc 8192 8193 (by decide) (by decide) hun
  -- there is memory for the third page
  have hp : pages 8192 = 2 ∧ pages 8193 = 3 := by decide
  obtain ⟨r', m', hm', -, -, ⟨rfl, -⟩ | ⟨-, -, hshort⟩⟩ := alloc_spec (S := S)
    (W := k.mem.pool S.owned h.nodup h.usable) (by decide : (8192 : Word) ≤ 8193) (by decide)
    (fun v h₁ h₂ => by
      obtain rfl : v = 2 := by omega
      exact h.rep.absent (by decide) hthird) k.mem ⟨h.rep, Mem.in_pool ..⟩
  · cases hm₂.symm.trans hm'
    exact ⟨k.mem, S, hold, ⟨m₁, hm₁, (hd.pte 1 (by decide)).trans (if_pos (by decide))⟩, m₂, hm₂,
      (hr.resolve_right fun h => absurd h.1 (by decide)).2⟩
  · have hcard : (S.owned + ↑k.mem.free).card ≤ 1026 + S.users.card + (3 - 2) := hp.1 ▸ hp.2 ▸ hshort hluck
    rw [Multiset.card_add, Multiset.coe_card, Space.owned, Multiset.card_cons, Multiset.card_add] at hcard
    omega

end sample

end Xv6.Vm
