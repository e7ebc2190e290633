import Xv6.Vm.Boot
import Xv6.Vm.Exec

/-!
# Loading an image

Whatever the file holds, the pages below the size of the image are mapped at every point of the loading,
so that `loaduvm` and `clearpteu` find what they look for; an image that cannot be loaded is freed.
-/

namespace Xv6.Vm

open Lib Layout

section layout

variable [Layout] {W : Pool} {m : Mem} {S S' : Space} {f : Frame} {v N : ℕ} {sz : Word}

theorem At.writeUser (h : At W S m) (hv : v < 2 ^ 19) (hf : S.user v = some f) (pg : Page) :
    At W (S.write v pg) { m with page := Function.update m.page f pg } := by
  have hrep := h.rep
  refine ⟨⟨fun i => ?_, fun ht j => ?_, hrep.none, hrep.absent, fun {x g} hx hg => ?_⟩,
    h.pool.write (h.pool.mem (Space.user_mem hv hf)) pg⟩
  · dsimp only [Space.write]
    rw [Function.update_of_ne (Space.user_ne_dir h.nodup hv hf).symm, hrep.dir]
  · dsimp only [Space.write]
    rw [Function.update_of_ne (Space.user_ne_tab h.nodup hv hf ht).symm, hrep.tab ht]
  · dsimp only [Space.write]
    by_cases hxv : x = v
    · subst hxv
      obtain rfl : f = g := Option.some.inj (hf.symm.trans hg)
      rw [Function.update_self, Function.update_self]
    · have hgf : g ≠ f := fun hgf => hxv (Space.user_inj h.nodup hx hv hg (hgf ▸ hf))
      rw [Function.update_of_ne hgf, Function.update_of_ne hxv, hrep.page hx hg]

omit [Layout] in
theorem mod_PGSIZE {w : Word} : w % PGSIZE = 0 ↔ w.toNat % 4096 = 0 := by
  constructor
  · intro h
    exact congrArg BitVec.toNat h
  · intro h
    exact BitVec.eq_of_toNat_eq h

omit [Layout] in
theorem vaddr_add_vaddr (a x : ℕ) : vaddr a + vaddr x = vaddr (a + x) := by
  unfold vaddr
  rw [Nat.mul_add, BitVec.ofNat_add]

omit [Layout] in
theorem readi_full {ip : List Byte} {off n : Word} (hlt : off.toNat + n.toNat < 2 ^ 32)
    (hle : off.toNat + n.toNat ≤ ip.length) : ∃ bs, readi ip off n = some bs ∧ bs.length = n.toNat := by
  have hsum : (off + n).toNat = off.toNat + n.toNat := by
    rw [BitVec.toNat_add]
    omega
  refine ⟨(ip.drop off.toNat).take n.toNat, if_neg ?_, ?_⟩
  · rw [BitVec.lt_def, hsum]
    omega
  · rw [List.length_take, List.length_drop]
    omega

/-- `loaduvm` into pages that are mapped changes nothing but their contents. It fails only where the file
ends before the segment. -/
theorem loaduvm_spec {addr : Word} (ip : List Byte) (offset : Word) (ha : addr.toNat % 4096 = 0)
    (hle : addr.toNat + sz.toNat ≤ 4096 * N) (hN : N ≤ 2 ^ 19) (hp : ∀ v < N, Present (S.leaf v)) :
    Prog.Triple (At W S) (loaduvm S.dir addr ip offset sz) fun r m =>
      (r = 0 ∨ r = -1 ∧ (offset.toNat + sz.toNat < 2 ^ 32 → ip.length < offset.toNat + sz.toNat)) ∧
        ∃ page, At W { S with page := page } m := by
  unfold loaduvm
  rw [if_neg (not_not.2 (mod_PGSIZE.2 ha))]
  have haddr := vaddr_vpn ha
  have hpages : vpn addr + pages sz ≤ N := by
    unfold vpn pages
    omega
  refine (Prog.Triple.loop (I := fun i m => ∃ x page, (i = vaddr x ∧ x ≤ pages sz) ∧
      At W { S with page := page } m)
    (v := fun i => 2 ^ 20 - vpn i) (fun i => Prog.Triple.exists fun x => Prog.Triple.exists fun page =>
      Prog.Triple.of_imp ?_) ?_).weaken ?_ fun _ _ h => h
  · rintro ⟨rfl, hx⟩
    have hx20 : x < 2 ^ 20 := by omega
    by_cases hend : vaddr x < sz
    · rw [if_pos hend]
      have hxlt : x < pages sz := (vaddr_lt hx20).1 hend
      have hva : addr + vaddr x = vaddr (vpn addr + x) := by
        conv_lhs => rw [haddr, vaddr_add_vaddr]
      have hvpn : vpn (addr + vaddr x) = vpn addr + x := by
        rw [hva, vpn_vaddr (by omega)]
      have hpres : Present (S.leaf (vpn (addr + vaddr x))) := hp _ (by omega)
      refine (walk_spec (S := { S with page := page }) (fun m (hm : At W _ m) => hm.rep)
        (addr + vaddr x)).bind fun r => ?_
      intro m hm
      obtain ⟨hr, hat⟩ := hm
      obtain ⟨t, ht⟩ := hat.rep.tab_of_present hpres
      rw [ht] at hr
      subst hr
      dsimp only [Option.map_some]
      refine (triple_load (P := At W { S with page := page })).bind (fun w m hm => ?_) m hat
      obtain ⟨hw, hat⟩ := hm
      rw [hat.rep.leaf ht] at hw
      have huser : ({ S with page := page } : Space).user (vpn addr + x) = some (PTE_ADDR w) := by
        rw [Space.user, hw]
        dsimp only at hpres ⊢
        rw [hvpn] at hpres ⊢
        exact mapped_some.2 ⟨hpres, rfl⟩
      have hfull : offset.toNat + sz.toNat < 2 ^ 32 → offset.toNat + sz.toNat ≤ ip.length → ∃ bs,
          readi ip (offset + vaddr x) (if sz - vaddr x < PGSIZE then sz - vaddr x else PGSIZE) = some bs ∧
            bs.length = (if sz - vaddr x < PGSIZE then sz - vaddr x else PGSIZE : Word).toNat := by
        intro h₁ h₂
        have hrest : (sz - vaddr x).toNat + 4096 * x = sz.toNat := by
          rw [BitVec.toNat_sub_of_le (BitVec.le_of_lt hend), vaddr_toNat hx20]
          have : (vaddr x).toNat < sz.toNat := hend
          rw [vaddr_toNat hx20] at this
          omega
        have hoff : (offset + vaddr x).toNat = offset.toNat + 4096 * x := by
          rw [BitVec.toNat_add, vaddr_toNat hx20]
          omega
        have hn : (if sz - vaddr x < PGSIZE then sz - vaddr x else PGSIZE : Word).toNat ≤ (sz - vaddr x).toNat := by
          split
          · exact Nat.le_refl _
          · exact BitVec.not_lt.1 ‹_›
        exact readi_full (by omega) (by omega)
      cases hread : readi ip (offset + vaddr x) (if sz - vaddr x < PGSIZE then sz - vaddr x else PGSIZE) with
      | none =>
        refine ⟨.inr (-1), m, rfl, .inr ⟨rfl, fun hlt => Nat.not_le.1 fun hle => ?_⟩, page, hat⟩
        obtain ⟨bs, hbs, -⟩ := hfull hlt hle
        cases hread.symm.trans hbs
      | some bs =>
        have hat' := hat.writeUser (by omega) huser (copyIn (m.page (PTE_ADDR w)) 0 bs)
        by_cases hlen : bs.length ≠
            (if sz - vaddr x < PGSIZE then sz - vaddr x else PGSIZE : Word).toNat
        · refine ⟨.inr (-1), _, ?_, .inr ⟨rfl, fun hlt => Nat.not_le.1 fun hle => hlen ?_⟩, _, hat'⟩
          · dsimp only
            rw [if_pos hlen]
            rfl
          · obtain ⟨bs', hbs, hbs'⟩ := hfull hlt hle
            cases hread.symm.trans hbs
            exact hbs'
        · refine ⟨.inl (vaddr (x + 1)), _, ?_, ⟨x + 1, _, ⟨rfl, by omega⟩, hat'⟩, ?_⟩
          · dsimp only
            rw [if_neg hlen, vaddr_add]
            rfl
          · rw [vpn_vaddr hx20, vpn_vaddr (by omega)]
            omega
    · rw [if_neg hend]
      exact Prog.Triple.pure fun m hm => ⟨.inl rfl, page, hm⟩
  · have h0 : vpn 0 = 0 := by decide
    rw [h0]
    decide
  · exact fun m hm => ⟨0, S.page, ⟨by decide, Nat.zero_le _⟩, hm⟩

/-! ### The segments -/

/-- An image in the making: exactly the pages below its size are mapped, for the user to write. -/
structure Img (S : Space) (sz : Word) : Prop where
  kernel : S.Kernel
  lt : sz < KERNBASE
  mapped : ∀ v < 2 ^ 19, Present (S.leaf v) ↔ v < pages sz
  flags : ∀ v < pages sz, PTE_FLAGS (S.leaf v) = PTE_W ||| PTE_U ||| PTE_P

namespace Img

theorem setPage (h : Img S sz) (page : ℕ → Page) : Img { S with page := page } sz :=
  ⟨⟨h.kernel.leaf, h.kernel.tab⟩, h.lt, h.mapped, h.flags⟩

theorem pages_le (h : Img S sz) : pages sz ≤ 2 ^ 19 := Vm.pages_le (Nat.le_of_lt h.lt)

theorem leaf_zero (h : Img S sz) (hrep : Rep S m.page) (h₁ : pages sz ≤ v) (h₂ : v < 2 ^ 19) :
    S.leaf v = 0 :=
  hrep.absent (by omega) fun hp => absurd ((h.mapped v h₂).1 hp) (by omega)

theorem grown (h : Img S sz) {newsz : Word} (hle : sz ≤ newsz) (hnew : newsz < KERNBASE)
    (hg : S.Grown (pages sz) (pages newsz) S') : Img S' newsz := by
  have hnew' : newsz.toNat < 2 ^ 31 := hnew
  have hhi : pages newsz ≤ 2 ^ 19 := Vm.pages_le (Nat.le_of_lt hnew)
  have hle' : sz.toNat ≤ newsz.toNat := hle
  have hmono : pages sz ≤ pages newsz := by
    unfold pages
    omega
  refine ⟨h.kernel.grown hg hhi, hnew, fun v hv => ?_, fun v hv => ?_⟩
  · by_cases hin : pages sz ≤ v ∧ v < pages newsz
    · exact ⟨fun _ => hin.2, fun _ => hg.present v hin.1 hin.2⟩
    · rw [hg.leaf v hin, h.mapped v hv]
      omega
  · by_cases hin : pages sz ≤ v ∧ v < pages newsz
    · exact hg.flags v hin.1 hin.2
    · rw [hg.leaf v hin]
      exact h.flags v (by omega)

/-- `allocuvm` of an image: its result is an error or a size that is large enough. -/
theorem alloc (h : Img S sz) (newsz : Word) :
    Prog.Triple (At W S) (allocuvm S.dir sz newsz) fun r m => ∃ S', S'.dir = S.dir ∧ At W S' m ∧
      (r ≠ 0 → Img S' r ∧ newsz ≤ r) := by
  by_cases hhigh : newsz ≥ KERNBASE
  · unfold allocuvm
    rw [if_pos hhigh]
    exact Prog.Triple.pure fun m hm => ⟨S, rfl, hm, fun h0 => absurd rfl h0⟩
  · have hnew := BitVec.not_le.1 hhigh
    by_cases hlow : newsz < sz
    · unfold allocuvm
      rw [if_neg hhigh, if_pos hlow]
      exact Prog.Triple.pure fun m hm => ⟨S, rfl, hm, fun _ => ⟨h, BitVec.le_of_lt hlow⟩⟩
    · have hle := BitVec.not_lt.1 hlow
      have hhi : pages newsz ≤ 2 ^ 19 := Vm.pages_le (Nat.le_of_lt hnew)
      intro m hm
      refine (alloc_spec hle hnew fun v h₁ h₂ => h.leaf_zero hm.rep h₁ (by omega)).weaken (fun _ h => h)
        (fun r m hm => ?_) m hm
      obtain ⟨S', hat, ⟨rfl, hg⟩ | ⟨rfl, hg, -⟩⟩ := hm
      · exact ⟨S', hg.dir, hat, fun _ => ⟨h.grown hle hnew hg, BitVec.le_refl _⟩⟩
      · exact ⟨S', hg.dir, hat, fun h0 => absurd rfl h0⟩

/-- An address space as `setupkvm` gives it is an image without pages. -/
theorem of_setupkvm (hk : S.Kernel) (hlow : ∀ v < 2 ^ 19, S.leaf v = 0) : Img S 0 := by
  have hp0 : pages 0 = 0 := by decide
  refine ⟨hk, by decide, fun v hv => ?_, fun v hv => ?_⟩
  · rw [hlow v hv, hp0]
    exact ⟨fun hp => absurd hp not_present_zero, fun h => absurd h (Nat.not_lt_zero v)⟩
  · rw [hp0] at hv
    exact absurd hv (Nat.not_lt_zero v)

theorem roundUp (h : Img S sz) (hlt : pages sz < 2 ^ 19) : Img S (vaddr (pages sz)) := by
  have hpages : pages (vaddr (pages sz)) = pages sz := pages_vaddr (by omega)
  exact ⟨h.kernel, vaddr_lt_KERNBASE hlt, fun v hv => by rw [hpages, h.mapped v hv],
    fun v hv => h.flags v (by rwa [hpages] at hv)⟩

end Img

/-- **The loop over the program headers**: whatever they say, `sz` stays the size of an image. -/
theorem loadSegments_spec (ip : List Byte) (n : ℕ) (off : Word) (h : Img S sz) :
    Prog.Triple (At W S) (loadSegments S.dir ip n off sz) fun r m => ∃ S', S'.dir = S.dir ∧ At W S' m ∧
      ∀ sz', r = some sz' → Img S' sz' := by
  induction n generalizing S off sz with
  | zero => exact Prog.Triple.pure fun m hm => ⟨S, rfl, hm, fun sz' hsz => Option.some.inj hsz ▸ h⟩
  | succ n ih =>
    have hbad : Prog.Triple (At W S) (pure none : MemM (Option Word)) fun r m => ∃ S', S'.dir = S.dir ∧
        At W S' m ∧ ∀ sz', r = some sz' → Img S' sz' :=
      Prog.Triple.pure fun m hm => ⟨S, rfl, hm, nofun⟩
    unfold loadSegments
    cases readStruct ip off 32 with
    | none => exact hbad
    | some bs =>
      dsimp only
      by_cases htype : (proghdr bs).type ≠ ELF_PROG_LOAD
      · rw [if_pos htype]
        exact ih _ h
      rw [if_neg htype]
      by_cases hmem : (proghdr bs).memsz < (proghdr bs).filesz
      · rw [if_pos hmem]
        exact hbad
      rw [if_neg hmem]
      by_cases hwrap : (proghdr bs).vaddr + (proghdr bs).memsz < (proghdr bs).vaddr
      · rw [if_pos hwrap]
        exact hbad
      rw [if_neg hwrap]
      refine (h.alloc _).bind fun r => Prog.Triple.exists fun S' => Prog.Triple.of_imp fun hdir => ?_
      by_cases hr : r = 0
      · rw [if_pos hr]
        exact Prog.Triple.pure fun m hm => ⟨S', hdir, hm.1, nofun⟩
      rw [if_neg hr]
      by_cases halign : (proghdr bs).vaddr % PGSIZE ≠ 0
      · rw [if_pos halign]
        exact Prog.Triple.pure fun m hm => ⟨S', hdir, hm.1, nofun⟩
      rw [if_neg halign]
      intro m hm
      obtain ⟨hat, himg⟩ := hm
      obtain ⟨himg, hle⟩ := himg hr
      -- the segment lies below the size
      have hfit : (proghdr bs).vaddr.toNat + (proghdr bs).filesz.toNat ≤ 4096 * pages r := by
        have h₁ : (proghdr bs).filesz.toNat ≤ (proghdr bs).memsz.toNat := BitVec.not_lt.1 hmem
        have h₂ : (proghdr bs).vaddr.toNat ≤ ((proghdr bs).vaddr + (proghdr bs).memsz).toNat :=
          BitVec.not_lt.1 hwrap
        have h₃ : ((proghdr bs).vaddr + (proghdr bs).memsz).toNat ≤ r.toNat := hle
        have h₄ := (proghdr bs).vaddr.isLt
        have h₅ := (proghdr bs).memsz.isLt
        rw [BitVec.toNat_add] at h₂ h₃
        unfold pages
        omega
      rw [← hdir]
      refine (loaduvm_spec ip _ (mod_PGSIZE.1 (not_not.1 halign)) hfit himg.pages_le fun v hv =>
        (himg.mapped v (by have := himg.pages_le; omega)).2 hv).bind (fun r' =>
          Prog.Triple.of_imp fun _ => Prog.Triple.exists fun page => ?_) m hat
      by_cases hr' : r' < 0
      · rw [if_pos hr']
        exact Prog.Triple.pure fun m hm => ⟨{ S' with page := page }, rfl, hm, nofun⟩
      · rw [if_neg hr']
        exact ih _ (himg.setPage page)

/-- A segment of the file is loaded if there is memory for it. -/
theorem loadSegments_load {ip bs : List Byte} {off : Word} (h : Img S sz) (hat : At W S m) (hc : W.calm)
    (hcard : 1026 + S.users.card + pages ((proghdr bs).vaddr + (proghdr bs).memsz) < W.frames.card)
    (hbs : readStruct ip off 32 = some bs) (htype : (proghdr bs).type = ELF_PROG_LOAD)
    (hmem : (proghdr bs).filesz ≤ (proghdr bs).memsz) (hwrap : (proghdr bs).vaddr ≤ (proghdr bs).vaddr + (proghdr bs).memsz)
    (hsz : sz < (proghdr bs).vaddr + (proghdr bs).memsz) (hlt : (proghdr bs).vaddr + (proghdr bs).memsz < KERNBASE)
    (halign : (proghdr bs).vaddr % PGSIZE = 0)
    (hfile : (proghdr bs).off.toNat + (proghdr bs).filesz.toNat ≤ min ip.length (2 ^ 32 - 1)) :
    ∃ S' m', S'.dir = S.dir ∧ Img S' ((proghdr bs).vaddr + (proghdr bs).memsz) ∧ At W S' m' ∧
      S'.users.card = S.users.card + (pages ((proghdr bs).vaddr + (proghdr bs).memsz) - pages sz) ∧
      ∀ n, (loadSegments S.dir ip (n + 1) off sz).eval m =
        (loadSegments S.dir ip n (off + 32) ((proghdr bs).vaddr + (proghdr bs).memsz)).eval m' := by
  generalize hnew : (proghdr bs).vaddr + (proghdr bs).memsz = new at *
  have hle : sz ≤ new := BitVec.le_of_lt hsz
  obtain ⟨r, m₁, hm₁, S₁, hat₁, ⟨rfl, hg⟩ | ⟨-, -, hshort⟩⟩ := alloc_spec hle hlt
    (fun v h₁ h₂ => h.leaf_zero hat.rep h₁ (by have := Vm.pages_le (Nat.le_of_lt hlt); omega)) m hat
  · have himg := h.grown hle hlt hg
    have hfit : (proghdr bs).vaddr.toNat + (proghdr bs).filesz.toNat ≤ 4096 * pages r := by
      have h₁ : (proghdr bs).filesz.toNat ≤ (proghdr bs).memsz.toNat := hmem
      have h₂ : (proghdr bs).vaddr.toNat ≤ r.toNat := hwrap
      have h₃ := congrArg BitVec.toNat hnew
      have h₄ := (proghdr bs).vaddr.isLt
      have h₅ := (proghdr bs).memsz.isLt
      rw [BitVec.toNat_add] at h₃
      unfold pages
      omega
    obtain ⟨r', m₂, hm₂, hr', page, hat₂⟩ := loaduvm_spec ip (proghdr bs).off (mod_PGSIZE.1 halign) hfit
      himg.pages_le (fun v hv => (himg.mapped v (by have := himg.pages_le; omega)).2 hv) m₁ hat₁
    obtain rfl : r' = 0 := hr'.resolve_right fun h' => by
      have := h'.2 (by omega)
      omega
    refine ⟨{ S₁ with page := page }, m₂, hg.dir, himg.setPage page, hat₂, hg.card, fun n => ?_⟩
    have hne : r ≠ 0 := by
      rintro rfl
      exact Nat.not_lt_zero _ hsz
    rw [hg.dir] at hm₂
    rw [loadSegments, hbs]
    dsimp only
    rw [if_neg (not_not.2 htype), if_neg (BitVec.not_lt.2 hmem), hnew, if_neg (BitVec.not_lt.2 hwrap)]
    refine (Prog.eval_bind hm₁).trans ?_
    rw [if_neg hne, if_neg (not_not.2 halign)]
    exact (Prog.eval_bind hm₂).trans (congrArg (Prog.eval · m₂) (if_neg (by decide)))
  · have := hshort hc
    omega

/-! ### The stack -/

omit [Layout] in
theorem clearU_getLsbD (w : Word) (i : ℕ) :
    (w &&& ~~~PTE_U).getLsbD i = (w.getLsbD i && !decide (i = 2)) := by
  by_cases hi : i < 32
  · have hmask : (~~~PTE_U).getLsbD i = !decide (i = 2) :=
      (by decide : ∀ i : Fin 32, (~~~PTE_U).getLsbD i = !decide (i.val = 2)) ⟨i, hi⟩
    rw [BitVec.getLsbD_and, hmask]
  · rw [BitVec.getLsbD_of_ge _ _ (Nat.not_lt.1 hi), BitVec.getLsbD_of_ge _ _ (Nat.not_lt.1 hi),
      Bool.false_and]

omit [Layout] in
theorem present_clearU {w : Word} : Present (w &&& ~~~PTE_U) ↔ Present w := by
  rw [present_iff, present_iff, clearU_getLsbD]
  simp

omit [Layout] in
theorem mapped_clearU (w : Word) : mapped (w &&& ~~~PTE_U) = mapped w := by
  have haddr : PTE_ADDR (w &&& ~~~PTE_U) = PTE_ADDR w := by
    unfold PTE_ADDR
    ext i hi
    rw [BitVec.getElem_extractLsb', BitVec.getElem_extractLsb', clearU_getLsbD]
    simp [show 12 + i ≠ 2 by omega]
  unfold mapped
  rw [haddr]
  by_cases hp : Present w
  · rw [if_pos hp, if_pos (present_clearU.2 hp)]
  · rw [if_neg hp, if_neg fun h => hp (present_clearU.1 h)]

omit [Layout] in
theorem PTE_FLAGS_clearU (w : Word) : PTE_FLAGS (w &&& ~~~PTE_U) = PTE_FLAGS w &&& ~~~PTE_U := by
  unfold PTE_FLAGS
  rw [BitVec.and_assoc, BitVec.and_assoc, BitVec.and_comm (~~~PTE_U)]

/-- A loaded image with a stack: the page below the top one cannot be reached by the user. -/
structure Stacked (S : Space) (sz : Word) : Prop where
  kernel : S.Kernel
  lt : sz < KERNBASE
  aligned : sz = vaddr (pages sz)
  two : 2 ≤ pages sz
  mapped : ∀ v < 2 ^ 19, Present (S.leaf v) ↔ v < pages sz
  user : ∀ v < pages sz, v ≠ pages sz - 2 → PTE_FLAGS (S.leaf v) = PTE_W ||| PTE_U ||| PTE_P
  guard : PTE_FLAGS (S.leaf (pages sz - 2)) = PTE_W ||| PTE_P

theorem clearpteu_spec {P : ℕ} (h : Img S (vaddr (P + 2))) (hP : P + 2 < 2 ^ 19) :
    Prog.Triple (At W S) (clearpteu S.dir (vaddr P)) fun _ m => ∃ S', S'.dir = S.dir ∧
      S'.page = S.page ∧ At W S' m ∧ Stacked S' (vaddr (P + 2)) := by
  have hpages : pages (vaddr (P + 2)) = P + 2 := pages_vaddr (by omega)
  have hvpn : vpn (vaddr P) = P := vpn_vaddr (by omega)
  have hpres : Present (S.leaf (vpn (vaddr P))) := by
    rw [hvpn]
    exact (h.mapped P (by omega)).2 (by omega)
  unfold clearpteu
  refine (walk_spec (fun m (hm : At W S m) => hm.rep) (vaddr P)).bind fun r m hm => ?_
  obtain ⟨hr, hat⟩ := hm
  obtain ⟨t, ht⟩ := hat.rep.tab_of_present hpres
  rw [ht] at hr
  subst hr
  dsimp only [Option.map_some]
  refine (triple_load (P := At W S)).bind (fun w => triple_store fun m hm => ?_) m hat
  obtain ⟨hw, hat⟩ := hm
  rw [hat.rep.leaf ht] at hw
  subst hw
  have hat' := hat.setLeaf ht (present_clearU.2 hpres) fun _ => mapped_clearU _
  rw [hvpn] at hat' ⊢
  refine ⟨{ S with leaf := Function.update S.leaf P (S.leaf P &&& ~~~PTE_U) }, rfl, rfl, hat', ?_⟩
  have hother : ∀ v, v ≠ P → Function.update S.leaf P (S.leaf P &&& ~~~PTE_U) v = S.leaf v :=
    fun v hv => Function.update_of_ne hv _ _
  refine ⟨⟨fun v h₁ h₂ => ?_, h.kernel.tab⟩, h.lt, ?_, ?_, fun v hv => ?_, fun v hv hne => ?_, ?_⟩
  · exact (hother v (by omega)).trans (h.kernel.leaf v h₁ h₂)
  · rw [hpages]
  · rw [hpages]
    omega
  · dsimp only
    by_cases hvP : v = P
    · rw [hvP, Function.update_self, present_clearU, h.mapped P (by omega)]
    · rw [hother v hvP, h.mapped v hv]
  · rw [hpages] at hv hne
    dsimp only
    rw [hother v (by omega)]
    exact h.flags v (by omega)
  · rw [hpages, Nat.add_sub_cancel]
    dsimp only
    rw [Function.update_self, PTE_FLAGS_clearU, h.flags P (by omega)]
    decide

/-- **The image of a file**, with its stack. -/
theorem loadImage_spec (ip : List Byte) (elf : Elfhdr) (h : Img S 0) :
    Prog.Triple (At W S) (loadImage S.dir ip elf) fun r m => ∃ S', S'.dir = S.dir ∧ At W S' m ∧
      ∀ sz, r = some sz → Stacked S' sz ∧ S'.page (pages sz - 1) = fun _ => 0 := by
  unfold loadImage
  refine (loadSegments_spec ip _ _ h).bind fun r => Prog.Triple.exists fun S₁ =>
    Prog.Triple.of_imp fun hdir => ?_
  cases r with
  | none => exact Prog.Triple.pure fun m hm => ⟨S₁, hdir, hm.1, nofun⟩
  | some sz =>
    intro m hm
    obtain ⟨hat, himg⟩ := hm
    have himg := himg sz rfl
    have hlt : sz.toNat < 2 ^ 31 := himg.lt
    have hle := himg.pages_le
    dsimp only
    rw [PGROUNDUP_eq (by omega), ← hdir, show vaddr (pages sz) + 2 * PGSIZE = vaddr (pages sz + 2) from
      vaddr_add_vaddr (pages sz) 2]
    by_cases hhigh : vaddr (pages sz + 2) ≥ KERNBASE
    · refine Prog.Triple.bind (P := At W S₁) (Q := fun r m => r = 0 ∧ At W S₁ m) ?_ (fun r =>
        Prog.Triple.of_imp fun hr => ?_) m hat
      · unfold allocuvm
        rw [if_pos hhigh]
        exact Prog.Triple.pure fun m hm => ⟨rfl, hm⟩
      · rw [if_pos hr]
        exact Prog.Triple.pure fun m hm => ⟨S₁, rfl, hm, nofun⟩
    · have hnew := BitVec.not_le.1 hhigh
      have hP : pages sz + 2 < 2 ^ 19 := by
        have : (vaddr (pages sz + 2)).toNat < 2 ^ 31 := hnew
        rw [vaddr_toNat (by omega)] at this
        omega
      have hpages : ∀ P, P ≤ 2 ^ 19 → pages (vaddr P) = P := fun P hP => pages_vaddr (by omega)
      have hsub : vaddr (pages sz + 2) - 2 * PGSIZE = vaddr (pages sz) := by
        rw [← vaddr_add_vaddr (pages sz) 2]
        exact BitVec.add_sub_cancel _ _
      have hold : vaddr (pages sz) ≤ vaddr (pages sz + 2) := by
        show (vaddr (pages sz)).toNat ≤ (vaddr (pages sz + 2)).toNat
        rw [vaddr_toNat (by omega), vaddr_toNat (by omega)]
        omega
      have hround : Img S₁ (vaddr (pages sz)) := himg.roundUp (by omega)
      refine (alloc_spec hold hnew fun v h₁ h₂ => hround.leaf_zero hat.rep h₁ ?_).bind (fun r =>
        Prog.Triple.exists fun S₂ => ?_) m hat
      · rw [hpages _ (by omega)] at h₂
        omega
      intro m hm
      obtain ⟨hat₂, ⟨rfl, hg⟩ | ⟨rfl, hg, -⟩⟩ := hm
      · have hne : vaddr (pages sz + 2) ≠ 0 := by
          intro h0
          have := congrArg BitVec.toNat h0
          rw [vaddr_toNat (by omega)] at this
          have h00 : BitVec.toNat (0 : Word) = 0 := rfl
          omega
        rw [if_neg hne, hsub, ← hg.dir]
        have hgz := hg.zero
        rw [hpages _ (by omega), hpages _ (by omega)] at hgz
        refine (clearpteu_spec (hround.grown hold hnew hg) hP).bind (fun _ =>
          Prog.Triple.pure fun m hm => ?_) m hat₂
        obtain ⟨S₃, hd, hpg, hat₃, hst⟩ := hm
        refine ⟨S₃, hd, hat₃, fun sz' hsz => ?_⟩
        rw [← Option.some.inj hsz, hpages _ (by omega), hpg]
        exact ⟨hst, hgz _ (by omega) (by omega)⟩
      · rw [if_pos rfl]
        exact ⟨none, m, rfl, S₂, hg.dir, hat₂, nofun⟩

theorem execLoad_spec (ip : List Byte) :
    Prog.Triple (In W 0) (execLoad ip) fun r m => match r with
      | none => In W 0 m
      | some (d, sz, _) => ∃ S, S.dir = d ∧ At W S m ∧ Stacked S sz ∧
          S.page (pages sz - 1) = fun _ => 0 := by
  have hbad : Prog.Triple (In W 0) (pure none : MemM (Option (Frame × Word × Word))) fun r m =>
      match r with
      | none => In W 0 m
      | some (d, sz, _) => ∃ S, S.dir = d ∧ At W S m ∧ Stacked S sz ∧
          S.page (pages sz - 1) = fun _ => 0 :=
    Prog.Triple.pure fun m hm => hm
  unfold execLoad
  cases readStruct ip 0 52 with
  | none => exact hbad
  | some bs =>
    dsimp only
    by_cases hmagic : (elfhdr bs).magic ≠ ELF_MAGIC
    · rw [if_pos hmagic]
      exact hbad
    rw [if_neg hmagic]
    refine setupkvm_spec.bind fun r => ?_
    cases r with
    | none => exact Prog.Triple.pure fun m hm => hm.1
    | some d =>
      refine Prog.Triple.exists fun S => ?_
      refine Prog.Triple.of_imp fun hd => Prog.Triple.of_imp fun hk => Prog.Triple.of_imp fun hlow => ?_
      rw [← hd]
      refine (loadImage_spec ip _ (Img.of_setupkvm hk hlow)).bind fun r => Prog.Triple.exists fun S' =>
        Prog.Triple.of_imp fun hdir => ?_
      cases r with
      | none =>
        rw [← hdir]
        refine Prog.Triple.bind (freevm_spec.weaken (fun m hm => hm.1) fun _ _ h => h) fun _ => hbad
      | some sz => exact Prog.Triple.pure fun m hm => ⟨S', hdir, hm.1, hm.2 sz rfl⟩

end layout

end Xv6.Vm
