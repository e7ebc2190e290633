import Xv6.Vm.Boot

/-!
# What `growproc` does

The new size is computed in unsigned arithmetic, and `allocuvm` and `deallocuvm` return 0 for an error.
Growing does what is asked or nothing. Shrinking does so as long as something of the process is left:
a process that gives back exactly all of its memory loses it and is told that the call has failed, and
one that gives back more than it has keeps everything and is told that the call has succeeded.
-/

namespace Xv6.Vm

open Lib Layout

/-- From `k` to `k'` the process has grown by `n`: exactly the pages below its new size are mapped, its
old bytes are as before and its new pages are zero. -/
structure Grew (dir : Frame) (n : Word) (k k' : Kern) : Prop where
  sz : (k'.curproc.sz.toNat : ℤ) = k.curproc.sz.toNat + n.toInt
  mapped : ∀ v < 2 ^ 19, Present (pte k'.mem.page dir v) ↔ v < pages k'.curproc.sz
  old : ∀ a < min k.curproc.sz.toNat k'.curproc.sz.toNat,
    userByte k'.mem.page dir a = userByte k.mem.page dir a
  new : ∀ a < 2 ^ 31, pages k.curproc.sz ≤ a / 4096 → a / 4096 < pages k'.curproc.sz →
    userByte k'.mem.page dir a = some 0

/-- From `k` to `k'` nothing has changed for the process. -/
structure Unchanged (dir : Frame) (k k' : Kern) : Prop where
  sz : k'.curproc.sz = k.curproc.sz
  pte : ∀ v < 2 ^ 19, pte k'.mem.page dir v = pte k.mem.page dir v
  byte : ∀ a < 2 ^ 31, userByte k'.mem.page dir a = userByte k.mem.page dir a

section layout

variable [Layout]

/-- `growproc(n)` is exact or has no effect. -/
def GrowExact (dir : Frame) (n : Word) (k : Kern) : Prop :=
  ∃ r k', (growproc n).eval k = (.ok r, k') ∧ k'.curproc.pgdir = k.curproc.pgdir ∧
    (r = 0 ∧ Grew dir n k k' ∨ r = -1 ∧ Unchanged dir k k')

variable {k : Kern} {S S' : Space} {n : Word} {m : Mem}

/-! ### The three branches -/

/-- The state with a new size of the process. -/
def Kern.resize (k : Kern) (m : Mem) (sz : Word) : Kern :=
  { k with mem := m, proc := Function.update k.proc k.cur { k.curproc with sz := sz } }

omit [Layout] in
theorem resize_sz (sz : Word) : (k.resize m sz).curproc.sz = sz := by
  show (Function.update k.proc k.cur _ k.cur).sz = sz
  rw [Function.update_self]

omit [Layout] in
theorem resize_pgdir (sz : Word) : (k.resize m sz).curproc.pgdir = k.curproc.pgdir := by
  show (Function.update k.proc k.cur _ k.cur).pgdir = _
  rw [Function.update_self]

/-- What `growproc` makes of the result of `allocuvm` or `deallocuvm`. -/
def grown (k : Kern) (m : Mem) (r : Word) : Except Fault Int × Kern :=
  if r = 0 then (.ok (-1), { k with mem := m }) else (.ok 0, k.resize m r)

theorem eval_resize (h : Runs k S) (sz : Word) :
    (do
      setProc { k.curproc with sz := sz }
      switchuvm { k.curproc with sz := sz }
      pure 0 : KernM Int).eval { k with mem := m } = (.ok 0, k.resize m sz) := by
  have hdir : k.curproc.pgdir ≠ none := by
    rw [h.pgdir]
    exact nofun
  refine (Prog.eval_bind (a := ()) (t := k.resize m sz) rfl).trans ?_
  unfold switchuvm
  rw [if_neg h.kstack, if_neg hdir]
  rfl

theorem eval_grow (h : Runs k S) {q : Frame → MemM Word} {r : Word}
    (hm : (q S.dir).eval k.mem = (.ok r, m)) :
    (do
      let pgdir ← deref k.curproc.pgdir
      let sz ← onMem (q pgdir)
      let r ← pure (if sz = 0 then none else some sz)
      match r with
      | none => pure (-1)
      | some sz => do
        setProc { k.curproc with sz := sz }
        switchuvm { k.curproc with sz := sz }
        pure 0 : KernM Int).eval k = grown k m r := by
  rw [h.pgdir]
  refine (Prog.eval_bind (a := S.dir) (t := k) rfl).trans ?_
  refine (Prog.eval_bind (eval_onMem hm)).trans ?_
  unfold grown
  by_cases hr : r = 0
  · rw [if_pos hr, if_pos hr]
    rfl
  · rw [if_neg hr, if_neg hr]
    exact eval_resize h r

theorem eval_grow_pos (h : Runs k S) (hn : n.toInt > 0) {r : Word}
    (hm : (allocuvm S.dir k.curproc.sz (k.curproc.sz + n)).eval k.mem = (.ok r, m)) :
    (growproc n).eval k = grown k m r := by
  unfold growproc
  refine (Prog.eval_bind (a := k.curproc) (t := k) rfl).trans ?_
  rw [if_pos hn]
  exact eval_grow h (q := fun d => allocuvm d _ _) hm

theorem eval_grow_neg (h : Runs k S) (hn : n.toInt < 0) {r : Word}
    (hm : (deallocuvm S.dir k.curproc.sz (k.curproc.sz + n)).eval k.mem = (.ok r, m)) :
    (growproc n).eval k = grown k m r := by
  unfold growproc
  refine (Prog.eval_bind (a := k.curproc) (t := k) rfl).trans ?_
  rw [if_neg (by omega), if_pos hn]
  exact eval_grow h (q := fun d => deallocuvm d _ _) hm

theorem eval_grow_zero (h : Runs k S) (hn : n.toInt = 0) :
    (growproc n).eval k = (.ok 0, k.resize k.mem k.curproc.sz) := by
  unfold growproc
  refine (Prog.eval_bind (a := k.curproc) (t := k) rfl).trans ?_
  rw [if_neg (by omega), if_neg (by omega)]
  exact eval_resize h k.curproc.sz

/-! ### What they leave -/

/-- The pool of the process that runs. -/
def Runs.pool (h : Runs k S) : Pool := k.mem.pool S.owned h.nodup h.usable

theorem Runs.at (h : Runs k S) : At h.pool S k.mem := ⟨h.rep, Mem.in_pool ..⟩

omit [Layout] in
/-- An entry that is as before, with its page, gives the same bytes. -/
theorem userByte_eq {p p' : Frame → Page} (h : Rep S p) (h' : Rep S' p') (hd : S'.dir = S.dir) {a : ℕ}
    (ha : a < 2 ^ 31) (hl : S'.leaf (a / 4096) = S.leaf (a / 4096))
    (hp : Present (S.leaf (a / 4096)) → S'.page (a / 4096) = S.page (a / 4096)) :
    userByte p' S.dir a = userByte p S.dir a := by
  rw [h.userByte ha, ← hd, h'.userByte ha, hl]
  split
  · rename_i hpres
    rw [hp hpres]
  · rfl

theorem Runs.unchanged (h : Runs k S) (h' : Rep S' m.page) (hd : S'.dir = S.dir)
    (hl : ∀ v, S'.leaf v = S.leaf v) (hp : ∀ v, Present (S.leaf v) → S'.page v = S.page v) :
    Unchanged S.dir k { k with mem := m } where
  sz := rfl
  pte v hv := by
    show pte m.page S.dir v = _
    rw [h.rep.pte (by omega), ← hd, h'.pte (by omega), hl]
  byte a ha := userByte_eq h.rep h' hd ha (hl _) (hp _)

theorem Runs.grew_of_grown (h : Runs k S) (h' : Rep S' m.page) {newsz : Word} (hsz : k.curproc.sz ≤ newsz)
    (hnew : newsz < KERNBASE) (hadd : (newsz.toNat : ℤ) = k.curproc.sz.toNat + n.toInt)
    (hg : S.Grown (pages k.curproc.sz) (pages newsz) S') : Grew S.dir n k (k.resize m newsz) := by
  have hhi : pages newsz ≤ 2 ^ 19 := pages_le (Nat.le_of_lt hnew)
  have hszlt : k.curproc.sz.toNat < 2 ^ 31 := h.sz
  have hle : k.curproc.sz.toNat ≤ newsz.toNat := hsz
  have hmono : pages k.curproc.sz ≤ pages newsz := by
    unfold pages
    omega
  refine ⟨?_, fun v hv => ?_, fun a ha => ?_, fun a ha h₁ h₂ => ?_⟩
  · rw [resize_sz]
    exact hadd
  · rw [resize_sz]
    show Present (pte m.page S.dir v) ↔ v < pages newsz
    rw [← hg.dir, h'.pte (by omega)]
    by_cases hin : pages k.curproc.sz ≤ v ∧ v < pages newsz
    · exact ⟨fun _ => hin.2, fun _ => hg.present v hin.1 hin.2⟩
    · rw [hg.leaf v hin, h.mapped v hv]
      omega
  · rw [resize_sz] at ha
    have hlow : a < k.curproc.sz.toNat := lt_of_lt_of_le ha (Nat.min_le_left _ _)
    have hin : ¬ (pages k.curproc.sz ≤ a / 4096 ∧ a / 4096 < pages newsz) := by
      unfold pages
      omega
    exact userByte_eq h.rep h' hg.dir (by omega) (hg.leaf _ hin) (hg.page _ hin)
  · rw [resize_sz] at h₂
    show userByte m.page S.dir a = some 0
    rw [← hg.dir, h'.userByte ha, if_pos (hg.present _ h₁ h₂), hg.zero _ h₁ h₂, getByte_zero]

theorem Runs.grew_of_clear (h : Runs k S) {newsz : Word} (hsz : newsz ≤ k.curproc.sz)
    (hadd : (newsz.toNat : ℤ) = k.curproc.sz.toNat + n.toInt)
    (h' : Rep (S.clear (pages newsz) (pages k.curproc.sz)) m.page) :
    Grew S.dir n k (k.resize m newsz) := by
  have hszlt : k.curproc.sz.toNat < 2 ^ 31 := h.sz
  have hle : newsz.toNat ≤ k.curproc.sz.toNat := hsz
  have hmono : pages newsz ≤ pages k.curproc.sz := by
    unfold pages
    omega
  refine ⟨?_, fun v hv => ?_, fun a ha => ?_, fun a ha h₁ h₂ => ?_⟩
  · rw [resize_sz]
    exact hadd
  · rw [resize_sz]
    show Present (pte m.page (S.clear (pages newsz) (pages k.curproc.sz)).dir v) ↔ v < pages newsz
    rw [h'.pte (by omega)]
    dsimp only [Space.clear]
    by_cases hin : pages newsz ≤ v ∧ v < pages k.curproc.sz
    · rw [if_pos hin]
      exact ⟨fun hp => absurd hp not_present_zero, fun hv => absurd hv (by omega)⟩
    · rw [if_neg hin, h.mapped v hv]
      omega
  · rw [resize_sz] at ha
    have hlow : a < newsz.toNat := lt_of_lt_of_le ha (Nat.min_le_right _ _)
    have hin : ¬ (pages newsz ≤ a / 4096 ∧ a / 4096 < pages k.curproc.sz) := by
      unfold pages
      omega
    exact userByte_eq h.rep h' rfl (by omega) (if_neg hin) fun _ => rfl
  · rw [resize_sz] at h₂
    omega

/-! ### The condition -/

omit [Layout] in
theorem toNat_add_of_pos {sz : Word} (hsz : sz.toNat < 2 ^ 31) (hn : n.toInt > 0) :
    ((sz + n).toNat : ℤ) = sz.toNat + n.toInt := by
  rw [BitVec.toNat_add]
  rw [BitVec.toInt_eq_toNat_cond] at hn ⊢
  have := n.isLt
  split at hn <;> omega

omit [Layout] in
theorem toNat_add_of_neg {sz : Word} (hsz : sz.toNat < 2 ^ 31) (hn : n.toInt < 0) :
    ((sz + n).toNat : ℤ) =
      if (sz.toNat : ℤ) + n.toInt < 0 then sz.toNat + n.toInt + 2 ^ 32 else sz.toNat + n.toInt := by
  rw [BitVec.toNat_add]
  rw [BitVec.toInt_eq_toNat_cond] at hn ⊢
  have := n.isLt
  split at hn
  · omega
  · rename_i h
    rw [if_neg h]
    split <;> omega

/-- `growproc` of a positive number: `allocuvm` has added the pages, or the new size is refused, or there
was no memory for the pages. -/
theorem grow_run (h : Runs k S) (hn : n.toInt > 0) : ∃ m S', At h.pool S' m ∧
    ((growproc n).eval k = (.ok 0, k.resize m (k.curproc.sz + n)) ∧ k.curproc.sz + n < KERNBASE ∧
        k.curproc.sz ≤ k.curproc.sz + n ∧ S.Grown (pages k.curproc.sz) (pages (k.curproc.sz + n)) S' ∨
      (growproc n).eval k = (.ok (-1), { k with mem := m }) ∧
        S.Grown (pages k.curproc.sz) (pages k.curproc.sz) S' ∧
        (k.mem.luck = [] → k.curproc.sz.toNat + n.toInt < 2 ^ 31 → h.pool.frames.card ≤
          1026 + S.users.card + (pages (k.curproc.sz + n) - pages k.curproc.sz))) := by
  have hadd := toNat_add_of_pos h.sz hn
  by_cases hhigh : k.curproc.sz + n ≥ KERNBASE
  · have hm : (allocuvm S.dir k.curproc.sz (k.curproc.sz + n)).eval k.mem = (.ok 0, k.mem) := by
      unfold allocuvm
      rw [if_pos hhigh]
      rfl
    refine ⟨k.mem, S, h.at, .inr ⟨eval_grow_pos h hn hm, .refl le_rfl, fun _ hlt => ?_⟩⟩
    have : 2 ^ 31 ≤ (k.curproc.sz + n).toNat := hhigh
    omega
  · have hnew : k.curproc.sz + n < KERNBASE := BitVec.not_le.1 hhigh
    have hnew' : (k.curproc.sz + n).toNat < 2 ^ 31 := hnew
    have hle : k.curproc.sz ≤ k.curproc.sz + n := by
      show k.curproc.sz.toNat ≤ (k.curproc.sz + n).toNat
      omega
    have h0 : ∀ v, pages k.curproc.sz ≤ v → v < pages (k.curproc.sz + n) → S.leaf v = 0 := by
      intro v h₁ h₂
      have := pages_le (Nat.le_of_lt hnew')
      refine h.rep.absent (by omega) fun hp => ?_
      have := (h.mapped v (by omega)).1 hp
      omega
    obtain ⟨r, m, hm, S', hat, hres⟩ := alloc_spec (S := S) hle hnew h0 k.mem h.at
    have hev := eval_grow_pos h hn hm
    refine ⟨m, S', hat, ?_⟩
    rcases hres with ⟨rfl, hg⟩ | ⟨rfl, hg, hshort⟩
    · have hne : k.curproc.sz + n ≠ 0 := by
        intro h0
        rw [h0] at hadd
        have : BitVec.toNat (0 : Word) = 0 := rfl
        omega
      rw [grown, if_neg hne] at hev
      exact .inl ⟨hev, hnew, hle, hg⟩
    · exact .inr ⟨hev, hg, fun hluck _ => hshort hluck⟩

theorem grow_pos (h : Runs k S) (hn : n.toInt > 0) : GrowExact S.dir n k := by
  obtain ⟨m, S', hat, ⟨hev, hnew, hle, hg⟩ | ⟨hev, hg, -⟩⟩ := grow_run h hn
  · exact ⟨0, _, hev, resize_pgdir _,
      .inl ⟨rfl, h.grew_of_grown hat.rep hle hnew (toNat_add_of_pos h.sz hn) hg⟩⟩
  · exact ⟨-1, _, hev, rfl, .inr ⟨rfl, h.unchanged hat.rep hg.dir (fun v => hg.leaf v (by omega))
      fun v hv => hg.page v (by omega) hv⟩⟩

theorem grow_zero (h : Runs k S) (hn : n.toInt = 0) : GrowExact S.dir n k := by
  have hrep : Rep (S.clear (pages k.curproc.sz) (pages k.curproc.sz)) k.mem.page := by
    rw [Space.clear_empty le_rfl]
    exact h.rep
  exact ⟨0, _, eval_grow_zero h hn, resize_pgdir _,
    .inl ⟨rfl, h.grew_of_clear (BitVec.le_refl _) (by omega) hrep⟩⟩

theorem dealloc_run (h : Runs k S) (newsz : Word) :
    ∃ m, (deallocuvm S.dir k.curproc.sz newsz).eval k.mem =
        (.ok (if newsz ≥ k.curproc.sz then k.curproc.sz else newsz), m) ∧
      At h.pool (S.clear (pages newsz) (pages k.curproc.sz)) m := by
  have hszlt : k.curproc.sz.toNat < 2 ^ 31 := h.sz
  obtain ⟨r, m, hm, rfl, hat⟩ :=
    dealloc_spec (S := S) newsz (Nat.le_of_lt hszlt) k.mem h.at
  exact ⟨m, hm, hat⟩

section shrink

variable (h : Runs k S) (hn : n.toInt < 0)
include h hn

/-- A process that gives back more than it has is told that it has done so. -/
theorem grow_wrap (hpos : 0 < k.curproc.sz.toNat) (hlt : (k.curproc.sz.toNat : ℤ) + n.toInt < 0) :
    ∃ m, (growproc n).eval k = (.ok 0, k.resize m k.curproc.sz) := by
  have hszlt : k.curproc.sz.toNat < 2 ^ 31 := h.sz
  have hlow : -2 ^ 31 ≤ n.toInt := BitVec.le_toInt n
  have hadd := toNat_add_of_neg hszlt hn
  rw [if_pos hlt] at hadd
  have hge : k.curproc.sz + n ≥ k.curproc.sz := by
    show k.curproc.sz.toNat ≤ (k.curproc.sz + n).toNat
    omega
  have hne : k.curproc.sz ≠ 0 := fun hz => by
    rw [hz] at hpos
    exact absurd hpos (by decide)
  obtain ⟨m, hm, -⟩ := dealloc_run h (k.curproc.sz + n)
  have hev := eval_grow_neg h hn hm
  rw [if_pos hge, grown, if_neg hne] at hev
  exact ⟨m, hev⟩

/-- A process that gives back all of its memory loses it and is told that the call has failed. -/
theorem grow_all (hpos : 0 < k.curproc.sz.toNat) (heq : (k.curproc.sz.toNat : ℤ) + n.toInt = 0) :
    ∃ m, (growproc n).eval k = (.ok (-1), { k with mem := m }) ∧
      ∀ v < 2 ^ 19, ¬ Present (pte m.page S.dir v) := by
  have hszlt : k.curproc.sz.toNat < 2 ^ 31 := h.sz
  have hadd := toNat_add_of_neg hszlt hn
  rw [if_neg (by omega), heq] at hadd
  have hsum : k.curproc.sz + n = 0 := BitVec.eq_of_toNat_eq (Int.ofNat.inj hadd)
  have hlt : ¬ (0 : Word) ≥ k.curproc.sz := fun hge => by
    have : k.curproc.sz.toNat ≤ 0 := hge
    omega
  obtain ⟨m, hm, hat⟩ := dealloc_run h (k.curproc.sz + n)
  have hev := eval_grow_neg h hn hm
  rw [hsum, if_neg hlt, grown, if_pos rfl] at hev
  refine ⟨m, hev, fun v hv => ?_⟩
  rw [hsum] at hat
  have hpages : pages 0 = 0 := by decide
  have hpte := hat.rep.pte (by omega : v < 2 ^ 20)
  dsimp only [Space.clear] at hpte
  rw [hpages] at hpte
  rw [hpte]
  split
  · exact not_present_zero
  · rename_i hout
    rw [h.mapped v hv]
    omega

/-- A process that keeps some of its memory, or has none, gets what it asks for. -/
theorem grow_neg (hc : k.curproc.sz.toNat = 0 ∨ (k.curproc.sz.toNat : ℤ) + n.toInt > 0) :
    GrowExact S.dir n k := by
  have hszlt : k.curproc.sz.toNat < 2 ^ 31 := h.sz
  have hadd := toNat_add_of_neg hszlt hn
  obtain ⟨m, hm, hat⟩ := dealloc_run h (k.curproc.sz + n)
  have hev := eval_grow_neg h hn hm
  rcases hc with hz | hpos
  · have hsz0 : k.curproc.sz = 0 := BitVec.eq_of_toNat_eq hz
    have hge : k.curproc.sz + n ≥ k.curproc.sz := by
      show k.curproc.sz.toNat ≤ (k.curproc.sz + n).toNat
      omega
    have hrep := hat.rep
    rw [Space.clear_empty (by rw [hsz0]; exact Nat.zero_le _)] at hrep
    rw [if_pos hge, grown, if_pos hsz0] at hev
    exact ⟨-1, _, hev, rfl, .inr ⟨rfl, h.unchanged hrep rfl (fun _ => rfl) fun _ _ => rfl⟩⟩
  · rw [if_neg (by omega)] at hadd
    have hnle : ¬ k.curproc.sz + n ≥ k.curproc.sz := by
      intro hge
      have : k.curproc.sz.toNat ≤ (k.curproc.sz + n).toNat := hge
      omega
    have hne : k.curproc.sz + n ≠ 0 := fun hs => by
      rw [hs, show BitVec.toNat (0 : Word) = 0 from rfl] at hadd
      omega
    rw [if_neg hnle, grown, if_neg hne] at hev
    exact ⟨0, _, hev, resize_pgdir _,
      .inl ⟨rfl, h.grew_of_clear (BitVec.le_of_lt (BitVec.not_le.1 hnle)) hadd hat.rep⟩⟩

theorem not_growExact (hpos : 0 < k.curproc.sz.toNat)
    (hle : (k.curproc.sz.toNat : ℤ) + n.toInt ≤ 0) : ¬ GrowExact S.dir n k := by
  rintro ⟨r, k', hk', -, hres⟩
  rcases lt_or_eq_of_le hle with hlt | heq
  · obtain ⟨m, hev⟩ := grow_wrap h hn hpos hlt
    cases hev.symm.trans hk'
    rcases hres with ⟨-, hg⟩ | ⟨hr, -⟩
    · have := hg.sz
      rw [resize_sz] at this
      omega
    · cases hr
  · obtain ⟨m, hev, hgone⟩ := grow_all h hn hpos heq
    cases hev.symm.trans hk'
    rcases hres with ⟨hr, -⟩ | ⟨-, hu⟩
    · cases hr
    · have hpage : 0 < pages k.curproc.sz := by
        unfold pages
        omega
      have hpres := (h.mapped 0 (by decide)).2 hpage
      rw [← h.rep.pte (by decide), ← hu.pte 0 (by decide)] at hpres
      exact hgone 0 (by decide) hpres

end shrink

/-- **`growproc` is exact or has no effect**, unless the process gives back all of its memory or more. -/
theorem growproc_exact_iff (k : Kern) (S : Space) (h : Runs k S) (n : Word) :
    GrowExact S.dir n k ↔
      ¬ (n.toInt < 0 ∧ 0 < k.curproc.sz.toNat ∧ (k.curproc.sz.toNat : ℤ) + n.toInt ≤ 0) := by
  rcases lt_trichotomy n.toInt 0 with hn | hn | hn
  · exact ⟨fun hg hc => not_growExact h hn hc.2.1 hc.2.2 hg, fun hc => grow_neg h hn (by omega)⟩
  · exact ⟨fun _ hc => by omega, fun _ => grow_zero h hn⟩
  · exact ⟨fun _ hc => by omega, fun _ => grow_pos h hn⟩

end layout

attribute [local instance] sampleLayout

/-- A process of two pages that asks for a third one, and one that gives back one of its two. -/
theorem growproc_exact_iff_two : ∃ k S, Runs k S ∧ k.curproc.sz = 8192 ∧
    GrowExact S.dir 4096 k ∧ GrowExact S.dir (-4096) k := by
  obtain ⟨k, S, h, -, hsz, -⟩ := exists_runs (n := 2000) (N := 2) (by omega) (by omega) fun _ _ => 0
  have hsz' : k.curproc.sz = 8192 := hsz
  refine ⟨k, S, h, hsz', (growproc_exact_iff k S h 4096).2 ?_, (growproc_exact_iff k S h (-4096)).2 ?_⟩
  · rw [hsz']
    decide
  · rw [hsz']
    decide

/-- A process of one page gives it back: the page is gone, the size is as before and the result is
-1. -/
theorem growproc_loses_page : ∃ k S, Runs k S ∧ k.curproc.sz = 4096 ∧
    Present (pte k.mem.page S.dir 0) ∧ (∃ k', (growproc (-4096)).eval k = (.ok (-1), k') ∧
      k'.curproc.sz = 4096 ∧ ¬ Present (pte k'.mem.page S.dir 0)) ∧ ¬ GrowExact S.dir (-4096) k := by
  obtain ⟨k, S, h, -, hsz, -⟩ := exists_runs (n := 2000) (N := 1) (by omega) (by omega) fun _ _ => 0
  have hsz' : k.curproc.sz = 4096 := hsz
  have hn : (-4096 : Word).toInt < 0 := by decide
  have hpos : 0 < k.curproc.sz.toNat := by
    rw [hsz']
    decide
  have heq : (k.curproc.sz.toNat : ℤ) + (-4096 : Word).toInt = 0 := by
    rw [hsz']
    decide
  have hlow : 0 < pages k.curproc.sz := by
    rw [hsz']
    decide
  obtain ⟨m, hev, hgone⟩ := grow_all h hn hpos heq
  refine ⟨k, S, h, hsz', ?_, ⟨_, hev, hsz', hgone 0 (by decide)⟩, not_growExact h hn hpos heq.le⟩
  rw [h.rep.pte (by decide)]
  exact (h.mapped 0 (by decide)).2 hlow

end Xv6.Vm
