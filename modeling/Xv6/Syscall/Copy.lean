import Xv6.Syscall.Call

/-!
# Copying stays inside the buffer

`fileread`, `filewrite`, `filestat` and the copying of `exec` touch only the bytes that the check of
their caller covers: `n` bytes from `addr` on, for a nonnegative `n`.
-/

namespace Xv6.Syscall

open Lib Process

variable {sz : Word} {m : Word → Byte} {α β : Type}

/-! ### Words as numbers -/

theorem add_toNat {a k : Word} (h : a.toNat + k.toNat < 2 ^ 32) : (a + k).toNat = a.toNat + k.toNat := by
  rw [BitVec.toNat_add, Nat.mod_eq_of_lt h]

theorem toInt_of_lt {a : Word} (h : a.toNat < 2 ^ 31) : a.toInt = a.toNat :=
  BitVec.toInt_eq_toNat_of_lt (by omega)

theorem sub_toNat {a b : Word} (h : b.toNat ≤ a.toNat) : (a - b).toNat = a.toNat - b.toNat :=
  BitVec.toNat_sub_of_le h

theorem word_sub_sub (a b : Word) : a - (a - b) = b := by bv_omega

/-- The part of a copy that is in one block is not empty and not more than what is left. -/
theorem inBlock_le {n tot : Word} (off : Word) (h : tot < n) :
    0 < (inBlock n tot off).toNat ∧ (inBlock n tot off).toNat ≤ n.toNat - tot.toNat := by
  have h' : tot.toNat < n.toNat := h
  have hsub : (n - tot).toNat = n.toNat - tot.toNat := sub_toNat (by omega)
  have hmod : (off % 512).toNat = off.toNat % 512 := BitVec.toNat_umod
  have hlt : off.toNat % 512 < 512 := Nat.mod_lt _ (by omega)
  have h512 : (512 : Word).toNat = 512 := rfl
  have hblk : (512 - off % 512 : Word).toNat = 512 - off.toNat % 512 := by
    rw [sub_toNat (by omega), hmod, h512]
  unfold inBlock
  split
  · omega
  · rename_i hge
    have hge' := BitVec.le_def.1 (BitVec.not_lt.1 hge)
    omega

/-! ### The loops -/

/-- The rule for `blockLoop`: the body gets parts of the buffer. -/
theorem triple_blockLoop {A : Mem → Prop} {body : (off p k : Word) → UserM Unit} {n off p : Word}
    (hp : p.toNat + n.toNat < 2 ^ 32)
    (hbody : ∀ off q k : Word, q.toNat + k.toNat ≤ p.toNat + n.toNat →
      Prog.Triple A (body off q k) fun _ => A) :
    Prog.Triple A (blockLoop body n off p) fun r s => r = n ∧ A s := by
  refine Prog.Triple.weaken (Prog.Triple.loop
    (I := fun x s => (x.1.toNat ≤ n.toNat ∧ x.2.2.toNat = p.toNat + x.1.toNat) ∧ A s)
    (v := fun x => n.toNat - x.1.toNat) (fun x => ?_) ?_)
    (fun s hs => ⟨⟨Nat.zero_le _, rfl⟩, hs⟩) fun _ _ hs => hs
  · obtain ⟨tot, off, q⟩ := x
    refine Prog.Triple.of_imp fun ⟨h₁, h₂⟩ => ?_
    dsimp only at h₁ h₂ ⊢
    split
    · rename_i hlt
      obtain ⟨hpos, hle⟩ := inBlock_le off hlt
      have htot := add_toNat (a := tot) (k := inBlock n tot off) (by omega)
      have hq := add_toNat (a := q) (k := inBlock n tot off) (by omega)
      refine (hbody _ q _ (by omega)).bind fun _ => Prog.Triple.pure fun s hs => ?_
      exact ⟨⟨⟨by dsimp only; omega, by dsimp only; omega⟩, hs⟩, by dsimp only; omega⟩
    · exact Prog.Triple.pure fun s hs => ⟨rfl, hs⟩
  · have := n.isLt
    unfold fuel
    dsimp only
    omega

theorem length_chunk (data : Word → Byte) (off : Word) (n : ℕ) : (chunk data off n).length = n := by
  simp [chunk]

theorem stays_readi {data : Word → Byte} {size dst off n : Word}
    (h : dst.toNat + n.toNat ≤ sz.toNat) : Stays sz (readi data size dst off n) := by
  unfold readi
  split
  · exact .pure
  · rename_i hno
    obtain ⟨h₁, h₂⟩ := not_or.1 hno
    have hsz := sz.isLt
    -- what is read is never more than what was asked for
    have hle : (if off + n > size then size - off else n).toNat ≤ n.toNat := by
      split
      · rename_i hgt
        have h₁' : off.toNat ≤ size.toNat := BitVec.not_lt.1 h₁
        have hgt' : size.toNat < (off + n).toNat := hgt
        have hadd := BitVec.toNat_add off n
        have hmod : (off.toNat + n.toNat) % 2 ^ 32 ≤ off.toNat + n.toNat := Nat.mod_le _ _
        rw [sub_toNat h₁']
        omega
      · exact le_rfl
    refine Prog.Triple.weaken (triple_blockLoop (by omega) fun off q k hk => ?_)
      (fun _ hs => hs) fun _ _ hs => hs.2
    exact stays_stores (by rw [length_chunk]; omega)

theorem reads_writei {size src off n : Word} (h : src.toNat + n.toNat ≤ sz.toNat) :
    Reads sz m (writei size src off n) fun r => r = n ∨ r = -1 := by
  unfold writei
  have hsz := sz.isLt
  split
  · exact .pure (.inr rfl)
  · split
    · exact .pure (.inr rfl)
    · refine Prog.Triple.weaken (triple_blockLoop (by omega) fun off q k hk => ?_)
        (fun _ hs => hs) fun r _ hs => ⟨.inl hs.1, hs.2⟩
      refine Prog.Triple.bind (reads_loads (by omega)) fun _ => ?_
      exact Prog.Triple.pure fun s hs => hs.2

/-- The comparison of an `int` counter with a nonnegative bound. -/
theorem toInt_lt_iff {i n : Word} (hn : n.toNat < 2 ^ 31) (hi : i.toNat ≤ n.toNat) :
    i.toInt < n.toInt ↔ i.toNat < n.toNat := by
  rw [toInt_of_lt hn, toInt_of_lt (by omega)]
  omega

theorem one_toNat : (1 : Word).toNat = 1 := rfl

theorem fuel_gt (n : Word) : n.toNat < fuel := by
  have := n.isLt
  unfold fuel
  omega

section transfer

variable {addr n : Word} (hn : n.toNat < 2 ^ 31) (h : addr.toNat + n.toNat ≤ sz.toNat)

include hn h

theorem stays_piperead {found : List Byte} : Stays sz (piperead found addr n) := by
  refine Prog.Triple.weaken (Prog.Triple.loop
    (I := fun x s => x.1.toNat ≤ n.toNat ∧ Inside sz s) (v := fun x => n.toNat - x.1.toNat)
    (fun x => ?_) (lt_of_le_of_lt (Nat.sub_le _ _) (fuel_gt n)))
    (fun s hs => ⟨Nat.zero_le _, hs⟩) fun _ _ hs => hs
  obtain ⟨i, bs⟩ := x
  refine Prog.Triple.of_imp fun hi => ?_
  dsimp only at hi ⊢
  split
  · rename_i hlt
    rw [toInt_lt_iff hn hi] at hlt
    have hsucc := add_toNat (a := i) (k := 1) (by rw [one_toNat]; omega)
    rw [one_toNat] at hsucc
    cases bs with
    | nil => exact Prog.Triple.pure fun s hs => hs
    | cons b bs =>
      refine Prog.Triple.bind (stays_store (add_lt (by omega))) fun _ => ?_
      exact Prog.Triple.pure fun s hs => ⟨⟨by dsimp only; omega, hs⟩, by dsimp only; omega⟩
  · exact Prog.Triple.pure fun s hs => hs

theorem stays_consoleread {input : List Byte} : Stays sz (consoleread input addr n) := by
  refine Prog.Triple.weaken (Prog.Triple.loop
    (I := fun x s => (x.2.1.toNat ≤ n.toNat ∧ x.1.toNat + x.2.1.toNat = addr.toNat + n.toNat) ∧
      Inside sz s) (v := fun x => x.2.1.toNat)
    (fun x => ?_) (fuel_gt n)) (fun s hs => ⟨⟨le_rfl, rfl⟩, hs⟩) fun _ _ hs => hs
  obtain ⟨dst, left, bs⟩ := x
  refine Prog.Triple.of_imp fun ⟨h₁, h₂⟩ => ?_
  have hsz := sz.isLt
  dsimp only at h₁ h₂ ⊢
  split
  · rename_i hpos
    rw [toInt_of_lt (by omega)] at hpos
    have hsucc := add_toNat (a := dst) (k := 1) (by rw [one_toNat]; omega)
    have hpred := sub_toNat (a := left) (b := 1) (by rw [one_toNat]; omega)
    rw [one_toNat] at hsucc hpred
    cases bs with
    | nil => exact Prog.Triple.pure fun s hs => hs
    | cons b bs =>
      dsimp only
      split
      · exact Prog.Triple.pure fun s hs => hs
      · refine Prog.Triple.bind (stays_store (show dst.toNat < sz.toNat by omega)) fun _ => ?_
        split
        · exact Prog.Triple.pure fun s hs => hs
        · exact Prog.Triple.pure fun s hs =>
            ⟨⟨⟨by dsimp only; omega, by dsimp only; omega⟩, hs⟩, by dsimp only; omega⟩
  · exact Prog.Triple.pure fun s hs => hs

theorem reads_pipewrite {room : ℕ} : Reads sz m (pipewrite room addr n) fun _ => True := by
  refine Prog.Triple.weaken (Prog.Triple.loop
    (I := fun i s => i.toNat ≤ n.toNat ∧ Intact sz m s) (v := fun i => n.toNat - i.toNat)
    (fun i => ?_) (lt_of_le_of_lt (Nat.sub_le _ _) (fuel_gt n)))
    (fun s hs => ⟨Nat.zero_le _, hs⟩) fun _ _ hs => ⟨trivial, hs⟩
  refine Prog.Triple.of_imp fun hi => ?_
  split
  · rename_i hlt
    rw [toInt_lt_iff hn hi] at hlt
    have hsucc := add_toNat (a := i) (k := 1) (by rw [one_toNat]; omega)
    rw [one_toNat] at hsucc
    split
    · refine Prog.Triple.bind (reads_load (add_lt (by omega))) fun b => ?_
      exact Prog.Triple.pure fun s hs => ⟨⟨by omega, hs.2⟩, by omega⟩
    · exact Prog.Triple.pure fun s hs => hs
  · exact Prog.Triple.pure fun s hs => hs

theorem reads_consolewrite : Reads sz m (consolewrite addr n) fun r => r = n := by
  refine Prog.Triple.weaken (Prog.Triple.loop
    (I := fun i s => i.toNat ≤ n.toNat ∧ Intact sz m s) (v := fun i => n.toNat - i.toNat)
    (fun i => ?_) (lt_of_le_of_lt (Nat.sub_le _ _) (fuel_gt n)))
    (fun s hs => ⟨Nat.zero_le _, hs⟩) fun _ _ hs => hs
  refine Prog.Triple.of_imp fun hi => ?_
  split
  · rename_i hlt
    rw [toInt_lt_iff hn hi] at hlt
    have hsucc := add_toNat (a := i) (k := 1) (by rw [one_toNat]; omega)
    rw [one_toNat] at hsucc
    refine Prog.Triple.bind (reads_load (add_lt (by omega))) fun b => ?_
    exact Prog.Triple.pure fun s hs => ⟨⟨by omega, hs.2⟩, by omega⟩
  · exact Prog.Triple.pure fun s hs => ⟨rfl, hs⟩

theorem stays_fileread {f : File} : Stays sz (fileread f addr n) := by
  unfold fileread
  split
  · exact .pure
  · split
    · exact .pure
    · exact stays_piperead hn h
    · exact stays_consoleread hn h
    · exact .pure
    · exact stays_readi h

theorem reads_writeInode {kind : FileKind} {size off : Word} :
    Reads sz m (writeInode kind size addr off n) fun r => r = n ∨ r = -1 := by
  unfold writeInode
  split
  · exact (reads_consolewrite hn h).mono fun r hr => .inl hr
  · exact reads_writei h
  · exact .pure (.inr rfl)

theorem reads_filewriteLoop {kind : FileKind} {off size : Word} :
    Reads sz m (Prog.loop .loop (filewriteTurn kind addr n) fuel (0, off, size)) fun _ => True := by
  refine Prog.Triple.weaken (Prog.Triple.loop
    (I := fun x s => x.1.toNat ≤ n.toNat ∧ Intact sz m s) (v := fun x => n.toNat - x.1.toNat)
    (fun x => ?_) (lt_of_le_of_lt (Nat.sub_le _ _) (fuel_gt n)))
    (fun s hs => ⟨Nat.zero_le _, hs⟩) fun _ _ hs => ⟨trivial, hs⟩
  obtain ⟨i, off, size⟩ := x
  refine Prog.Triple.of_imp fun hi => ?_
  have hsz := sz.isLt
  dsimp only [filewriteTurn] at hi ⊢
  split
  · rename_i hlt
    rw [toInt_lt_iff hn hi] at hlt
    have hsub := sub_toNat hi
    have hadd := add_toNat (a := addr) (k := i) (by omega)
    -- a part of what is left, and not an empty one
    have hpart : ∃ n1, n1 = (if (n - i).toInt > 1536 then 1536 else n - i : Word) ∧ 0 < n1.toNat ∧
        n1.toNat ≤ n.toNat - i.toNat := by
      refine ⟨_, rfl, ?_⟩
      split
      · rename_i hgt
        rw [toInt_of_lt (by omega)] at hgt
        have h1536 : (1536 : Word).toNat = 1536 := rfl
        omega
      · omega
    obtain ⟨n1, hn1, hpos, hle⟩ := hpart
    rw [← hn1]
    refine Prog.Triple.bind (reads_writeInode (by omega) (by omega)) fun r =>
      Prog.Triple.of_imp fun hr => ?_
    rcases hr with rfl | rfl
    · rw [if_neg (by rw [toInt_of_lt (by omega)]; omega), if_neg (by simp)]
      have hi' := add_toNat (a := i) (k := r) (by omega)
      exact Prog.Triple.pure fun s hs => ⟨⟨by dsimp only; omega, hs⟩, by dsimp only; omega⟩
    · rw [if_pos (by decide)]
      exact Prog.Triple.pure fun s hs => hs
  · exact Prog.Triple.pure fun s hs => hs

theorem reads_filewrite {f : File} : Reads sz m (filewrite f addr n) fun _ => True := by
  unfold filewrite
  split
  · exact .pure trivial
  · split
    · exact reads_pipewrite hn h
    · exact reads_filewriteLoop hn h
    · exact reads_filewriteLoop hn h
    · exact reads_filewriteLoop hn h

end transfer

theorem stays_filestat {f : File} {addr : Word} (h : addr.toNat + 20 ≤ sz.toNat) :
    Stays sz (filestat f addr) := by
  have hsz := sz.isLt
  have hoff : ∀ k : Word, k.toNat ≤ 16 → (addr + k).toNat = addr.toNat + k.toNat :=
    fun k hk => add_toNat (by omega)
  have h4 := hoff 4 (by decide)
  have h8 := hoff 8 (by decide)
  have h12 := hoff 12 (by decide)
  have h16 := hoff 16 (by decide)
  simp only [show (4 : Word).toNat = 4 from rfl, show (8 : Word).toNat = 8 from rfl,
    show (12 : Word).toNat = 12 from rfl, show (16 : Word).toNat = 16 from rfl] at h4 h8 h12 h16
  unfold filestat
  dsimp only
  split
  · exact .pure
  all_goals
    refine (stays_storeInt (by omega)).bind fun _ => ?_
    refine (stays_storeInt (by omega)).bind fun _ => ?_
    refine (stays_stores (by simp only [List.length_cons, List.length_nil]; omega)).bind fun _ => ?_
    refine (stays_stores (by simp only [List.length_cons, List.length_nil]; omega)).bind fun _ => ?_
    exact (stays_storeInt (by omega)).bind fun _ => .pure

/-! ### `exec` -/

theorem reads_copyout {mapped : Word → Bool} {va p len : Word}
    (h : p.toNat + len.toNat ≤ sz.toNat) : Reads sz m (copyout mapped va p len) fun _ => True := by
  refine Prog.Triple.weaken (Prog.Triple.loop
    (I := fun x s => x.2.1.toNat + x.2.2.toNat = p.toNat + len.toNat ∧ Intact sz m s)
    (v := fun x => x.2.2.toNat) (fun x => ?_) (fuel_gt len))
    (fun s hs => ⟨rfl, hs⟩) fun _ _ hs => ⟨trivial, hs⟩
  obtain ⟨va, q, left⟩ := x
  refine Prog.Triple.of_imp fun hq => ?_
  have hsz := sz.isLt
  dsimp only at hq ⊢
  split
  · rename_i hpos
    have hpos' : 0 < left.toNat := hpos
    split
    · exact Prog.Triple.pure fun s hs => hs
    · -- what is left of the page is not empty
      have hmod : (va % PGSIZE).toNat = va.toNat % 4096 := BitVec.toNat_umod
      have hlt : va.toNat % 4096 < 4096 := Nat.mod_lt _ (by omega)
      have hback : va - (va - va % PGSIZE) = va % PGSIZE := word_sub_sub _ _
      have hpg : (PGSIZE : Word).toNat = 4096 := rfl
      have hrest : (PGSIZE - va % PGSIZE).toNat = 4096 - va.toNat % 4096 := by
        rw [sub_toNat (by omega), hmod, hpg]
      rw [hback]
      have hpart : ∃ k, k = (if PGSIZE - va % PGSIZE > left then left else PGSIZE - va % PGSIZE) ∧
          0 < k.toNat ∧ k.toNat ≤ left.toNat := by
        refine ⟨_, rfl, ?_⟩
        split
        · omega
        · rename_i hle
          have hle' := BitVec.le_def.1 (BitVec.not_lt.1 hle)
          omega
      obtain ⟨k, hk, hk0, hkl⟩ := hpart
      rw [← hk]
      have hadd := add_toNat (a := q) (k := k) (by omega)
      have hsub := sub_toNat (a := left) (b := k) hkl
      refine Prog.Triple.bind (reads_loads (by omega)) fun _ => ?_
      exact Prog.Triple.pure fun s hs => ⟨⟨by dsimp only; omega, hs.2⟩, by dsimp only; omega⟩
  · exact Prog.Triple.pure fun s hs => hs

theorem reads_pushArgs {mapped : Word → Bool} :
    ∀ {argv : List Word} {argc : ℕ} {sp : Word}, (∀ a ∈ argv, IsStr sz m a) →
      Reads sz m (pushArgs mapped argv argc sp) fun _ => True
  | [], _, _, _ => .pure trivial
  | a :: argv, argc, sp, ha => by
    unfold pushArgs
    split
    · exact .pure trivial
    · refine (reads_strlen (ha a List.mem_cons_self)).bind fun _ _ => ?_
      refine (reads_strlen (ha a List.mem_cons_self)).bind fun n hn => ?_
      refine (reads_copyout hn).bind fun ok _ => ?_
      split
      · exact reads_pushArgs fun b hb => ha b (.tail _ hb)
      · exact .pure trivial

theorem reads_exec {N : Type} {c : Env N} {path : Word} {argv : List Word} (hp : IsStr sz m path)
    (ha : ∀ a ∈ argv, IsStr sz m a) : Reads sz m (exec c path argv) fun _ => True := by
  refine (reads_namex hp).bind fun r _ => ?_
  obtain ⟨e, hpe, he, h0⟩ := hp
  cases r with
  | none => exact .pure trivial
  | some ip =>
    dsimp only
    split
    · exact .pure trivial
    · refine (reads_pushArgs ha).bind fun ok _ => ?_
      split
      · refine (reads_lastElem hpe he h0).bind fun last hl => ?_
        refine (reads_safestrcpy (by decide) hl he h0).bind fun _ _ => ?_
        exact .pure trivial
      · exact .pure trivial

end Xv6.Syscall
