import Xv6.Fs.Sysfile

/-!
# The blocks of a file system in use

The system over the disk and the inode cache. Whatever sequence of system calls it takes, and of calls
of the functions of `fs.c` in between, no block belongs to two files and none is lost, no file gets a
hole, and the inode cache is written through.
-/

namespace Xv6.Fs

open Lib Log

/-- Any fault but a block that is freed twice. -/
def NotFreed (e : Fault) : Prop := e ≠ .panic "freeing free block"

theorem notFreed_fault (e : Panic) : NotFreed e.fault := by
  cases e <;> exact nofun

/-! ### The system over the blocks -/

/-- An operation: a system call, or a function of `fs.c` on inodes. -/
inductive Op
  | call (p : Fin NPROC) (c : Call)
  | fs (a : Act)

/-- **A well-formed image without holes**: no block belongs to two inodes, the free map knows exactly
the blocks that belong to one, no file has a hole, and free inodes have no blocks. -/
structure Image (sb : Superblock) (d : Disk) : Prop where
  owned : Owned sb d d.dinode
  noHoles : ∀ i, (d.dinode i).NoHoles d
  free : ∀ i, (d.dinode i).type = 0 → ∀ pl, (d.dinode i).num d pl = 0

/-- The disk and the inode cache after boot: the first entry holds the root directory, which the first
process is in. -/
def Blocks.boot (d : Disk) : Blocks where
  disk := d
  icache k :=
    { type := 0, nlink := 0, addrs := fun _ => 0, valid := false
      inum := if k = 0 then .ofNat 32 ROOTINO else 0
      ref := if k = 0 then 1 else 0 }
  lock _ := false

/-- The operations on the disk `d`. -/
def fileSystem (sb : Superblock) (devsw : Fin NDEV → Bool) (d : Disk) :
    Machine (Sys Blocks) Op (Option ℤ) Fault where
  init := ⟨.boot, .boot d⟩
  enabled s
    | .call p c => c.enabled s.files p
    | .fs _ => true
  exec s
    | .call p c => do
      let (s, r) ← s.call (blockLayer sb devsw) p c
      pure (s, some r)
    | .fs a => do
      let (_, i) ← (blockLayer sb devsw).exec a s.inodes
      pure ({ s with inodes := i }, none)

variable {sb : Superblock} {devsw : Fin NDEV → Bool} {d : Disk} {s s' : Sys Blocks}
  {h : List (Op × Option ℤ)}

theorem Image.boot (hd : Image sb d) : Sound sb (.boot d) where
  owned := hd.owned
  noHoles := hd.noHoles
  free := hd.free
  through _ _ hv := by cases hv
  typed _ _ hv := by cases hv
  once {k k'} hk hk' _ := by
    by_cases h : k = 0
    · by_cases h' : k' = 0
      · exact h.trans h'.symm
      · simp [Blocks.boot, h'] at hk'
    · simp [Blocks.boot, h] at hk

theorem Sound.call {p : Fin NPROC} {c : Call} {r : ℤ} (hs : Sound sb s.inodes)
    (h : s.call (blockLayer sb devsw) p c = .ok (s', r)) : Sound sb s'.inodes := by
  unfold Sys.call at h
  split at h
  · cases h
  · split at h
    · rename_i f r i hr
      cases h
      exact Cmd.run_keeps Sound.exec hs hr
    · cases h

theorem Sound.step {e : Op × Option ℤ} (hs : Sound sb s.inodes)
    (h : (fileSystem sb devsw d).Step s e s') : Sound sb s'.inodes := by
  obtain ⟨op, o⟩ := e
  obtain ⟨-, hx⟩ : _ ∧ (fileSystem sb devsw d).exec s op = .ok (s', o) := h
  cases op with
  | call p c =>
    obtain ⟨⟨s₁, r⟩, h₁, hx⟩ := bind_eq_ok.1 hx
    cases hx
    exact hs.call h₁
  | fs a =>
    obtain ⟨⟨r, i⟩, h₁, hx⟩ := bind_eq_ok.1 hx
    cases hx
    exact Sound.exec a _ _ _ hs h₁

theorem Image.runs (hd : Image sb d) (hr : (fileSystem sb devsw d).Runs h s) : Sound sb s.inodes :=
  hr.invariant (P := fun _ s => Sound sb s.inodes) hd.boot fun _ hs hst => hs.step hst

theorem Sound.exec_error (a : Act) (s : Blocks) (e : Fault) (hs : Sound sb s)
    (h : (blockLayer sb devsw).exec a s = .error e) : NotFreed e := by
  have hlocked : ∀ {k}, s.locked k = .error e → NotFreed e := fun {k} hk => by
    unfold Blocks.locked at hk
    split at hk <;> cases hk
    exact nofun
  have higet : ∀ {s : Blocks} {inum}, s.iget inum = .error e → NotFreed e := by
    intro s inum hk
    unfold Blocks.iget at hk
    split at hk
    · cases hk
    · split at hk <;> cases hk
      exact nofun
  cases a with
  | iget inum => exact higet h
  | idup k =>
    rcases bind_eq_error.1 h with h | ⟨s₁, -, h⟩
    · unfold Blocks.idup at h
      split at h <;> cases h
      exact nofun
    · cases h
  | ilock k =>
    rcases bind_eq_error.1 h with h | ⟨s₁, -, h⟩
    · unfold Blocks.ilock at h
      dsimp only at h
      split at h
      · cases h
        exact nofun
      split at h
      · cases h
        exact nofun
      split at h
      · cases h
      · split at h <;> cases h
        exact nofun
    · cases h
  | iunlock k =>
    rcases bind_eq_error.1 h with h | ⟨s₁, -, h⟩
    · unfold Blocks.iunlock at h
      split at h <;> cases h
      exact nofun
    · cases h
  | fields k =>
    rcases bind_eq_error.1 h with h | ⟨ip, -, h⟩
    · exact hlocked h
    · cases h
  | iupdate k major minor nlink =>
    rcases bind_eq_error.1 h with h | ⟨ip, -, h⟩
    · exact hlocked h
    · cases h
  | iput k =>
    rcases bind_eq_error.1 h with h | ⟨s₁, -, h⟩
    · rcases hs.iput_error h with rfl | rfl
      · exact nofun
      · exact nofun
    · cases h
  | ialloc type =>
    have h : s.ialloc sb type = _ := h
    unfold Blocks.ialloc at h
    split at h
    · cases h
      exact nofun
    · exact higet h
  | readi k off n =>
    rcases bind_eq_error.1 h with h | ⟨ip, h₁, h⟩
    · exact hlocked h
    · obtain ⟨rfl, hk, hv⟩ := locked_ok h₁
      obtain ⟨r, hr⟩ := hs.readi hk hv devsw off n
      rw [hr] at h
      cases h
  | writei k src off n =>
    rcases bind_eq_error.1 h with h | ⟨ip, h₁, h⟩
    · exact hlocked h
    · rcases bind_eq_error.1 h with h | ⟨x, -, h⟩
      · rw [writei_error h]
        exact nofun
      · cases h

theorem Sound.op_error (hs : Sound sb s.inodes) (op : Op) :
    (fileSystem sb devsw d).exec s op ≠ .error (.panic "freeing free block") := by
  intro h
  cases op with
  | call p c =>
    rcases bind_eq_error.1 h with h | ⟨x, -, h⟩
    · unfold Sys.call at h
      split at h
      · cases h
      · split at h
        · cases h
        · rename_i e hr
          cases h
          exact Cmd.run_error Sound.exec Sound.exec_error notFreed_fault hs hr rfl
    · cases h
  | fs a =>
    rcases bind_eq_error.1 h with h | ⟨x, -, h⟩
    · exact hs.exec_error _ _ _ h rfl
    · cases h

/-- **Ownership of blocks.** After any operations on a well-formed image, every block number that an
inode or an indirect block holds is that of a data block, no number is held in two places, the free
map marks those data blocks that an allocated inode holds, and no operation will ever free a block
that is free. -/
theorem block_ownership (hd : Image sb d) (hr : (fileSystem sb devsw d).Runs h s) :
    (∀ i pl, (s.inodes.disk.dinode i).num s.inodes.disk pl ≠ 0 →
      sb.inData ((s.inodes.disk.dinode i).num s.inodes.disk pl)) ∧
    (∀ i j pl pl', (s.inodes.disk.dinode i).num s.inodes.disk pl ≠ 0 →
      (s.inodes.disk.dinode i).num s.inodes.disk pl = (s.inodes.disk.dinode j).num s.inodes.disk pl' →
      i = j ∧ pl = pl') ∧
    (∀ b, sb.inData b → (s.inodes.disk.used b = true ↔ ∃ i, (s.inodes.disk.dinode i).type ≠ 0 ∧
      ∃ pl, (s.inodes.disk.dinode i).num s.inodes.disk pl = b)) ∧
    ∀ op, (fileSystem sb devsw d).exec s op ≠ .error (.panic "freeing free block") := by
  have hs := hd.runs hr
  refine ⟨hs.owned.data, fun i j pl pl' => hs.owned.excl, fun b hb => ⟨fun hu => ?_, ?_⟩, hs.op_error⟩
  · obtain ⟨i, pl, he⟩ := hs.owned.used b hb hu
    refine ⟨i, fun ht => hb.2.1 ?_, pl, he⟩
    rw [← he, hs.free i ht]
  · rintro ⟨i, -, pl, rfl⟩
    exact hs.owned.mark i pl hb.2.1

/-- **No holes, and a cache that is written through.** After any operations on a well-formed image
without holes no inode has a hole, what an entry of the inode cache that is in use and valid says is
what the disk says, and `readi` on such an entry allocates nothing: it leaves the inode and the disk
as they are. -/
theorem noHoles_writeThrough (hd : Image sb d) (hr : (fileSystem sb devsw d).Runs h s) :
    (∀ i m, m * BSIZE < (s.inodes.disk.dinode i).size.toNat →
      (s.inodes.disk.dinode i).block s.inodes.disk m ≠ 0) ∧
    ∀ k, 0 < (s.inodes.icache k).ref → (s.inodes.icache k).valid = true →
      (s.inodes.icache k).toDinode = s.inodes.disk.dinode (s.inodes.icache k).inum ∧
      ∀ off n, ∃ r, Fs.readi sb devsw (s.inodes.icache k) s.inodes.disk off n =
        .ok (r, s.inodes.icache k, s.inodes.disk) := by
  have hs := hd.runs hr
  exact ⟨hs.noHoles, fun k hk hv => ⟨hs.through k hk hv, hs.readi hk hv devsw⟩⟩

/-! ### A small image -/

/-- A root directory with the entries `.` and `..`, in the first data block. -/
def rootInode : Dinode where
  type := T_DIR
  nlink := 1
  size := 32
  addrs k := if k = 0 then 5 else 0

/-- A disk with a root directory and two free blocks. -/
def rootDisk : Disk where
  dinode i := if i = 1 then rootInode else { type := 0, nlink := 0, addrs := fun _ => 0 }
  used b := b.toNat < 6
  data b j := if b = 5 then (if j = 0 then 0x002e0001 else if j = 4 then 0x2e2e0001 else 0) else 0

theorem rootDisk_num (i : Word) (pl : Place) :
    (rootDisk.dinode i).num rootDisk pl = if i = 1 ∧ pl = .addr 0 then 5 else 0 := by
  by_cases hi : i = 1
  · subst hi
    cases pl with
    | addr k =>
      show (if k = 0 then (5 : Word) else 0) = _
      simp
    | entry j => rfl
  · rw [if_neg fun h => hi h.1]
    have : rootDisk.dinode i = { type := 0, nlink := 0, addrs := fun _ => 0 } := if_neg hi
    rw [this]
    cases pl <;> rfl

theorem tinySb_inData (b : BlockNo) : tinySb.inData b ↔ b.toNat = 5 ∨ b.toNat = 6 ∨ b.toNat = 7 := by
  have h : tinySb.inData b ↔ b.toNat < 8 ∧ b ≠ 0 ∧ b ≠ 1 ∧ ¬ (2 ≤ b.toNat ∧ b.toNat < 2 + 1) ∧
      ¬ (3 ≤ b.toNat ∧ b.toNat < 3 + 1) ∧ ¬ (4 ≤ b.toNat ∧ b.toNat < 4 + 1) := Iff.rfl
  rw [h]
  bv_omega

theorem image_rootDisk : Image tinySb rootDisk := by
  have hused : ∀ b, rootDisk.used b = true ↔ b.toNat < 6 := fun b => decide_eq_true_iff
  refine ⟨⟨fun i pl h => ?_, fun {i j pl pl'} h he => ?_, fun b hb hu => ?_, fun i pl h => ?_,
    fun b hb hn => ?_⟩, fun i m hm => ?_, fun i hi pl => ?_⟩
  · rw [rootDisk_num] at h ⊢
    rw [if_pos (by_contra fun hn => h (if_neg hn)), tinySb_inData]
    exact .inl rfl
  · rw [rootDisk_num] at h he
    have h₁ := by_contra fun hn => h (if_neg hn)
    rw [if_pos h₁, rootDisk_num] at he
    have h₂ := by_contra fun hn => absurd (he.trans (if_neg hn)) (by decide)
    exact ⟨h₁.1.trans h₂.1.symm, h₁.2.trans h₂.2.symm⟩
  · rw [tinySb_inData] at hb
    rw [hused] at hu
    refine ⟨1, .addr 0, ?_⟩
    rw [rootDisk_num, if_pos ⟨rfl, rfl⟩]
    bv_omega
  · rw [rootDisk_num] at h ⊢
    rw [if_pos (by_contra fun hn => h (if_neg hn))]
    rfl
  · have hb : b.toNat < 8 := hb
    rw [tinySb_inData] at hn
    rw [hused]
    omega
  · by_cases hi : i = 1
    · subst hi
      have hm : m * 512 < 32 := hm
      obtain rfl : m = 0 := by omega
      decide
    · have : rootDisk.dinode i = { type := 0, nlink := 0, addrs := fun _ => 0 } := if_neg hi
      rw [this] at hm
      simp at hm
  · rw [rootDisk_num, if_neg]
    rintro ⟨rfl, -⟩
    revert hi
    decide

/-- Make a directory, and write to a new file. -/
def smallRun : List (Op × Option ℤ) :=
  [(.call 0 (.sysMkdir ⟨[0x61], by decide⟩), some 0),
    (.call 0 (.sysOpen ⟨[0x62], by decide⟩ 0x202), some 0),
    (.call 0 (.sysWrite 0 (.ofNat 8) 3 0), some 3)]

theorem block_ownership_small :
    ∃ s, (fileSystem tinySb (fun _ => false) rootDisk).Runs smallRun.reverse s ∧
      ∃ i, (s.inodes.disk.dinode i).type ≠ 0 ∧ ∃ pl, (s.inodes.disk.dinode i).num s.inodes.disk pl = 7 := by
  obtain ⟨s, hr, hs⟩ := (fileSystem tinySb (fun _ => false) rootDisk).exists_runs smallRun
    (fun s => s.inodes.disk.used 7) (by decide +kernel)
  have hb : tinySb.inData 7 := (tinySb_inData 7).2 (.inr (.inr rfl))
  exact ⟨s, hr, ((block_ownership image_rootDisk hr).2.2.1 7 hb).1 hs⟩

theorem noHoles_writeThrough_small :
    ∃ s, (fileSystem tinySb (fun _ => false) rootDisk).Runs smallRun.reverse s ∧
      (s.inodes.disk.dinode (s.inodes.icache 1).inum).size = 3 ∧
      (s.inodes.disk.dinode (s.inodes.icache 1).inum).block s.inodes.disk 0 ≠ 0 := by
  obtain ⟨s, hr, hs⟩ := (fileSystem tinySb (fun _ => false) rootDisk).exists_runs smallRun
    (fun s => 0 < (s.inodes.icache 1).ref ∧ (s.inodes.icache 1).valid = true ∧
      (s.inodes.icache 1).size = 3) (by decide +kernel)
  obtain ⟨hk, hv, hsize⟩ := of_decide_eq_true hs
  obtain ⟨hholes, hcache⟩ := noHoles_writeThrough image_rootDisk hr
  have hsize : (s.inodes.disk.dinode (s.inodes.icache 1).inum).size = 3 := by
    rw [← (hcache 1 hk hv).1, hsize]
  exact ⟨s, hr, hsize, hholes _ 0 (by rw [hsize]; decide)⟩

end Xv6.Fs
