import Xv6.Vm.Load

/-!
# `uva2ka` and `copyout` at the stack of a new image

`exec` lowers its stack pointer in unsigned arithmetic and leaves it to `copyout` to find out whether
there is memory. What is given to `copyout` ends in the top page of the image or just below it. If it
begins in the top page it is copied; if it begins further down, the copy comes to the guard page and
fails; and if the stack pointer has wrapped around, it is in the kernel's part, where there is an entry
that the user may not use, or no table at all.
-/

namespace Xv6.Vm

open Lib Layout

section layout

variable {m : Mem} {S S₀ : Space} {f : Frame} {v : ℕ} {sz va w : Word}

/-! ### The user bit -/

theorem PTE_FLAGS_and_U (w : Word) : PTE_FLAGS w &&& PTE_U = w &&& PTE_U := by
  unfold PTE_FLAGS
  rw [BitVec.and_assoc]
  rfl

theorem user_eq_zero : w &&& PTE_U = 0 ↔ w.getLsbD 2 = false := by
  constructor
  · intro h
    have := congrArg (·.getLsbD 2) h
    simpa using this
  · intro h
    ext i hi
    have hbit : PTE_U.getLsbD i = decide (i = 2) :=
      (by decide : ∀ i : Fin 32, PTE_U.getLsbD i = decide (i.val = 2)) ⟨i, hi⟩
    rw [← BitVec.getLsbD_eq_getElem hi, BitVec.getLsbD_and, hbit]
    by_cases h2 : i = 2
    · subst h2
      have h' : w[2] = false := by rw [← BitVec.getLsbD_eq_getElem, h]
      simp [h']
    · simp [h2]

theorem vaddr_getLsbD (x : ℕ) {i : ℕ} (hi : i < 12) : (vaddr x).getLsbD i = false := by
  unfold vaddr
  rw [BitVec.getLsbD_ofNat, show 4096 * x = 2 ^ 12 * x from rfl, Nat.testBit_two_pow_mul]
  simp [Nat.not_le.2 hi]

variable [Layout] {W : Pool}

/-- No page of the kernel is for the user. -/
theorem kleaf_user (v : ℕ) : kleaf v &&& PTE_U = 0 := by
  unfold kleaf kleafOver
  cases hk : kmap.find? fun k => k.Covers v with
  | none => exact BitVec.zero_and
  | some k =>
    have hperm : k.perm.getLsbD 2 = false := by
      have hmem := List.mem_of_find?_eq_some hk
      simp only [kmap, List.mem_cons, List.not_mem_nil, or_false] at hmem
      rcases hmem with rfl | rfl | rfl | rfl <;> (dsimp only; decide)
    rw [user_eq_zero]
    dsimp only [Kmap.entry]
    rw [BitVec.getLsbD_or, BitVec.getLsbD_or, vaddr_getLsbD _ (by decide), hperm]
    rfl

theorem Stacked.pages_lt (h : Stacked S sz) : pages sz < 2 ^ 19 := by
  have h₁ : sz.toNat < 2 ^ 31 := h.lt
  have h₂ := congrArg BitVec.toNat h.aligned
  rw [vaddr_toNat (by have := pages_le (Nat.le_of_lt h₁); omega)] at h₂
  omega

theorem Stacked.toNat (h : Stacked S sz) : sz.toNat = 4096 * pages sz := by
  have := h.pages_lt
  conv_lhs => rw [h.aligned]
  exact vaddr_toNat (by omega)

theorem Stacked.setPage (h : Stacked S sz) (page : ℕ → Page) : Stacked { S with page := page } sz :=
  ⟨⟨h.kernel.leaf, h.kernel.tab⟩, h.lt, h.aligned, h.two, h.mapped, h.user, h.guard⟩

/-- The pages that the user may reach are those below the top and the guard page. -/
theorem Stacked.user_iff (h : Stacked S sz) (hv : v < 2 ^ 20) :
    (Present (S.leaf v) ∧ S.leaf v &&& PTE_U ≠ 0) ↔ v < pages sz ∧ v ≠ pages sz - 2 := by
  have hlt := h.pages_lt
  have htwo := h.two
  by_cases hlow : v < 2 ^ 19
  · by_cases hvsz : v < pages sz
    · by_cases hg : v = pages sz - 2
      · have h0 : S.leaf v &&& PTE_U = 0 := by
          rw [hg, ← PTE_FLAGS_and_U, h.guard]
          decide
        exact ⟨fun hu => absurd h0 hu.2, fun hu => absurd hg hu.2⟩
      · have h1 : S.leaf v &&& PTE_U ≠ 0 := by
          rw [← PTE_FLAGS_and_U, h.user v hvsz hg]
          decide
        exact ⟨fun _ => ⟨hvsz, hg⟩, fun _ => ⟨(h.mapped v hlow).2 hvsz, h1⟩⟩
    · exact ⟨fun hu => absurd ((h.mapped v hlow).1 hu.1) hvsz, fun hu => absurd hu.1 hvsz⟩
  · have h0 : S.leaf v &&& PTE_U = 0 := by
      rw [h.kernel.leaf v (by omega) hv]
      exact kleaf_user v
    exact ⟨fun hu => absurd h0 hu.2, fun hu => absurd hu.1 (by omega)⟩

/-! ### `uva2ka` -/

omit [Layout] in
theorem eval_walk (h : Rep S m.page) (va : Word) :
    (walkpgdir S.dir va false).eval m = (.ok ((S.tab (PDX va)).map fun t => (t, PTX va)), m) := by
  obtain ⟨r, m', hr, rfl, rfl⟩ := walk_spec (P := fun m' => m' = m) (fun m' hm' => hm' ▸ h) va m rfl
  exact hr

omit [Layout] in
theorem eval_uva2ka_null (h : Rep S m.page) (ht : S.tab (PDX va) = none) :
    (uva2ka S.dir va).eval m = (.error .null, m) := by
  unfold uva2ka
  have hw := eval_walk h va
  rw [ht] at hw
  exact (Prog.eval_bind hw).trans rfl

omit [Layout] in
theorem eval_uva2ka {t : Frame} (h : Rep S m.page) (ht : S.tab (PDX va) = some t) :
    (uva2ka S.dir va).eval m =
      (.ok (if Present (S.leaf (vpn va)) ∧ S.leaf (vpn va) &&& PTE_U ≠ 0
        then some (PTE_ADDR (S.leaf (vpn va))) else none), m) := by
  unfold uva2ka
  have hw := eval_walk h va
  rw [ht] at hw
  refine (Prog.eval_bind hw).trans ?_
  refine (Prog.eval_bind (a := S.leaf (vpn va)) (t := m) ?_).trans ?_
  · rw [← h.leaf ht]
    rfl
  · by_cases hp : S.leaf (vpn va) &&& PTE_P = 0
    · rw [if_pos hp, if_neg fun hc => hc.1 hp]
      rfl
    · by_cases hu : S.leaf (vpn va) &&& PTE_U = 0
      · rw [if_neg hp, if_pos hu, if_neg fun hc => hc.2 hu]
        rfl
      · rw [if_neg hp, if_neg hu, if_pos ⟨hp, hu⟩]
        rfl

/-! ### `copyout` -/

/-- What `src` gives of the bytes `bs`, without changing anything. -/
def Reads (W : Pool) (S : Space) (src : ℕ → ℕ → MemM (List Byte)) (bs : List Byte) : Prop :=
  ∀ page o n, o + n ≤ bs.length →
    Prog.Triple (At W { S with page := page }) (src o n) fun r m =>
      r = (bs.drop o).take n ∧ At W { S with page := page } m

variable {src : ℕ → ℕ → MemM (List Byte)} {bs : List Byte} {buf u : ℕ}

theorem Reads.setPage (h : Reads W S src bs) (page : ℕ → Page) :
    Reads W { S with page := page } src bs := fun page' o n hle => h page' o n hle

omit [Layout] in
theorem off_toNat (va : Word) : (va - PGROUNDDOWN va).toNat = va.toNat % 4096 := by
  have := va.isLt
  have h := PGROUNDDOWN_toNat va
  rw [vpn] at h
  rw [BitVec.toNat_sub, h]
  omega

omit [Layout] in
theorem vpn_PGROUNDDOWN (va : Word) : vpn (PGROUNDDOWN va) = vpn va := by
  rw [PGROUNDDOWN_eq, vpn_vaddr (vpn_lt va)]

omit [Layout] in
theorem PDX_PGROUNDDOWN (va : Word) : PDX (PGROUNDDOWN va) = PDX va := by
  apply Fin.ext
  rw [PDX_val, PDX_val, vpn_PGROUNDDOWN]

/-- A turn in a page that the user may reach fills it up to its end, or as far as there are bytes. -/
theorem copyoutTurn_user (va : Word) (h : Stacked S sz) (hsrc : Reads W S src bs) (hat : At W S m)
    (hbuf : buf < bs.length) (hv : vpn va < pages sz) (hg : vpn va ≠ pages sz - 2) :
    ∃ m', (copyoutTurn S.dir src bs.length va buf).eval m =
        (.ok (.inl (vaddr (vpn va + 1), buf + min (4096 - va.toNat % 4096) (bs.length - buf))), m') ∧
      At W (S.write (vpn va) (copyIn (S.page (vpn va)) (va.toNat % 4096)
        ((bs.drop buf).take (min (4096 - va.toNat % 4096) (bs.length - buf))))) m' := by
  have hlt := h.pages_lt
  have huser := (h.user_iff (vpn_lt va)).2 ⟨hv, hg⟩
  obtain ⟨t, ht⟩ := hat.rep.tab_of_present huser.1
  rw [← PDX_PGROUNDDOWN] at ht
  have hka := eval_uva2ka hat.rep ht
  rw [vpn_PGROUNDDOWN, if_pos huser] at hka
  have hn : (PGSIZE - (va - PGROUNDDOWN va)).toNat = 4096 - va.toNat % 4096 := by
    rw [BitVec.toNat_sub, off_toNat, show PGSIZE.toNat = 4096 from rfl]
    omega
  obtain ⟨r, m₁, hr, rfl, hat₁⟩ := hsrc S.page buf (min (4096 - va.toNat % 4096) (bs.length - buf))
    (by omega) m hat
  have hmapped : S.user (vpn va) = some (PTE_ADDR (S.leaf (vpn va))) := mapped_some.2 ⟨huser.1, rfl⟩
  have hat₂ := hat₁.writeUser (by omega) hmapped (copyIn (S.page (vpn va)) (va.toNat % 4096)
    ((bs.drop buf).take (min (4096 - va.toNat % 4096) (bs.length - buf))))
  refine ⟨_, ?_, hat₂⟩
  unfold copyoutTurn
  rw [if_pos hbuf]
  refine (Prog.eval_bind hka).trans ?_
  dsimp only
  rw [hn]
  refine (Prog.eval_bind hr).trans ?_
  refine (Prog.eval_bind (a := ()) rfl).trans ?_
  rw [off_toNat, ← hat₁.rep.page (by omega) hmapped, PGROUNDDOWN_eq, vaddr_add]
  rfl

omit [Layout] in
theorem copyoutTurn_end {len : ℕ} (hbuf : ¬ buf < len) :
    (copyoutTurn S.dir src len va buf).eval m = (.ok (.inr 0), m) := by
  unfold copyoutTurn
  rw [if_neg hbuf]
  rfl

/-- A turn in a page that the user may not reach ends the loop. -/
theorem copyoutTurn_stop {t : Frame} {len : ℕ} (h : Stacked S sz) (hat : At W S m) (hbuf : buf < len)
    (hv : ¬ (vpn va < pages sz ∧ vpn va ≠ pages sz - 2)) (ht : S.tab (PDX va) = some t) :
    (copyoutTurn S.dir src len va buf).eval m = (.ok (.inr (-1)), m) := by
  rw [← PDX_PGROUNDDOWN] at ht
  have hka := eval_uva2ka hat.rep ht
  rw [vpn_PGROUNDDOWN, if_neg fun hu => hv ((h.user_iff (vpn_lt va)).1 hu)] at hka
  unfold copyoutTurn
  rw [if_pos hbuf]
  exact (Prog.eval_bind hka).trans rfl

theorem copyout_top (h : Stacked S sz) (hsrc : Reads W S src bs) (hva : va.toNat = sz.toNat - u)
    (hlen : 0 < bs.length) (hle : bs.length ≤ u) (hu : u ≤ 4096) :
    Prog.Triple (At W S) (copyout S.dir va src bs.length) fun r m => r = 0 ∧
      At W (S.write (pages sz - 1) (copyIn (S.page (pages sz - 1)) (4096 - u) bs)) m := by
  have hsz := h.toNat
  have htwo := h.two
  have hvpn : vpn va = pages sz - 1 := by
    unfold vpn
    omega
  have hoff : va.toNat % 4096 = 4096 - u := by omega
  unfold copyout
  -- one turn copies all bytes, and the next one ends the loop
  refine (Prog.Triple.loop (I := fun x m => x = (va, 0) ∧ At W S m ∨ x.2 = bs.length ∧
      At W (S.write (pages sz - 1) (copyIn (S.page (pages sz - 1)) (4096 - u) bs)) m)
    (v := fun x => bs.length - x.2) (fun x m hm => ?_) ?_).weaken (fun m hm => .inl ⟨rfl, hm⟩)
    fun _ _ h => h
  · rcases hm with ⟨rfl, hat⟩ | ⟨hx, hat⟩
    · obtain ⟨m', hm', hat'⟩ := copyoutTurn_user va h hsrc hat hlen (by omega) (by omega)
      have hmin : min (4096 - va.toNat % 4096) (bs.length - 0) = bs.length := by omega
      rw [hmin, hvpn, hoff, List.drop_zero, List.take_length] at hat'
      rw [hmin] at hm'
      exact ⟨_, m', hm', .inr ⟨Nat.zero_add _, hat'⟩, by dsimp only; omega⟩
    · exact ⟨_, m, copyoutTurn_end (by omega), rfl, hat⟩
  · show bs.length - 0 < fuel
    unfold fuel
    omega

/-- The bytes begin below the top page: the copy comes to the guard page. -/
theorem copyout_low (h : Stacked S sz) (hsrc : Reads W S src bs) (hva : va.toNat = sz.toNat - u)
    (hlen : 0 < bs.length) (hreach : u < bs.length + 8192) (h₁ : 4096 < u) (h₂ : u ≤ sz.toNat) :
    Prog.Triple (At W S) (copyout S.dir va src bs.length) fun r m => r = -1 ∧
      ∃ page, At W { S with page := page } m := by
  have hsz := h.toNat
  have htwo := h.two
  have hlt := h.pages_lt
  have hszlt := sz.isLt
  unfold copyout
  -- the end of the bytes is above the beginning of the guard page
  refine (Prog.Triple.loop (I := fun x m => ∃ page, (vpn x.1 ≤ pages sz - 2 ∧
      x.1.toNat + (bs.length - x.2) = va.toNat + bs.length ∧ x.2 < bs.length) ∧
        At W { S with page := page } m)
    (v := fun x => pages sz - vpn x.1) (fun x => Prog.Triple.exists fun page =>
      Prog.Triple.of_imp ?_) ?_).weaken ?_ fun _ _ h => h
  · rintro ⟨hx, hend, hbuf⟩ m hat
    have hst := h.setPage page
    by_cases hg : vpn x.1 = pages sz - 2
    · have hpres : Present (S.leaf (vpn x.1)) := (h.mapped _ (by omega)).2 (by omega)
      obtain ⟨t, ht⟩ := hat.rep.tab_of_present hpres
      exact ⟨_, m, copyoutTurn_stop (S := { S with page := page }) hst hat hbuf (fun hc => hc.2 hg) ht,
        rfl, page, hat⟩
    · obtain ⟨m', hm', hat'⟩ := copyoutTurn_user x.1 hst (hsrc.setPage page) hat hbuf
        (by omega) hg
      have hvpn : vpn (vaddr (vpn x.1 + 1)) = vpn x.1 + 1 := vpn_vaddr (by omega)
      have hnext := vaddr_toNat (by omega : vpn x.1 + 1 < 2 ^ 20)
      have hdiv : vpn x.1 = x.1.toNat / 4096 := rfl
      refine ⟨_, m', hm', ⟨_, ⟨?_, ?_, ?_⟩, hat'⟩, ?_⟩
      · dsimp only
        omega
      · dsimp only
        omega
      · dsimp only
        omega
      · dsimp only
        omega
  · dsimp only
    unfold fuel
    omega
  · refine fun m hm => ⟨S.page, ⟨?_, by simp, ?_⟩, hm⟩
    · dsimp only
      unfold vpn
      omega
    · dsimp only
      omega

/-- The stack pointer has wrapped around into the kernel's part: there is no page for the user. -/
theorem copyout_high (src : ℕ → ℕ → MemM (List Byte)) (h : Stacked S sz) (hat : At W S m)
    (hva : 2 ^ 31 ≤ va.toNat) {len : ℕ} (hlen : 0 < len) :
    (copyout S.dir va src len).eval m =
      (if S.tab (PDX va) = none then .error .null else .ok (-1), m) := by
  have hlt := h.pages_lt
  have hfuel : fuel = 2 ^ 20 + 1 := rfl
  unfold copyout
  rw [hfuel, Prog.loop]
  cases ht : S.tab (PDX va) with
  | none =>
    rw [if_pos rfl]
    have hka : (uva2ka S.dir (PGROUNDDOWN va)).eval m = (.error .null, m) :=
      eval_uva2ka_null hat.rep (by rwa [PDX_PGROUNDDOWN])
    refine Prog.eval_bind_error ?_
    unfold copyoutTurn
    rw [if_pos hlen]
    exact Prog.eval_bind_error hka
  | some t =>
    have hv : ¬ (vpn va < pages sz ∧ vpn va ≠ pages sz - 2) := fun hc => by
      have := hc.1
      unfold vpn at this
      omega
    rw [if_neg nofun]
    exact (Prog.eval_bind (copyoutTurn_stop h hat hlen hv ht)).trans rfl

end layout

end Xv6.Vm
