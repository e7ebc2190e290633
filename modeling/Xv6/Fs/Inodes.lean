import Xv6.Fs.Content
import Xv6.Fs.Iput
import Xv6.Lib.Cmd

/-!
# The inode layer of `fs.c`

The functions on inodes that the code of directories, of paths and of the system calls is made of, as
the operations of an interface, and what they do to the disk and to the inode cache. A call that the
code makes without a reference to the inode, or without having locked it, is a fault of its own: the
kernel does not look, and what it would do then depends on what the cache entry has become. The calls run
one after the other, so a lock that is held is held by the one who asks for it, and it waits for ever.

The invariant is that of `Xv6.Fs.Own` for the inodes on disk, together with: no file has a hole, and
what a valid cache entry says is what the disk says.
-/

namespace Xv6.Fs

open Lib Log

/-- An entry of the inode cache. -/
abbrev Slot := Fin NINODE

/-- The fields of an inode that the code reads. -/
structure Fields where
  inum : Word
  type : Short
  major : Short
  minor : Short
  nlink : Short
  size : Word
  deriving DecidableEq

inductive Act
  | iget (inum : Word)
  | idup (k : Slot)
  | ilock (k : Slot)
  | iunlock (k : Slot)
  /-- Read the fields of a locked inode. -/
  | fields (k : Slot)
  /-- Set fields of a locked inode, and `iupdate`. -/
  | iupdate (k : Slot) (major minor nlink : Short)
  | iput (k : Slot)
  | ialloc (type : Short)
  | readi (k : Slot) (off n : Word)
  | writei (k : Slot) (src : ℕ → Byte) (off n : Word)

def Ans : Act → Type
  | .iget _ => Slot
  | .idup _ => Unit
  | .ilock _ => Unit
  | .iunlock _ => Unit
  | .fields _ => Fields
  | .iupdate .. => Unit
  | .iput _ => Unit
  | .ialloc _ => Slot
  | .readi .. => Io (List Byte)
  | .writei .. => Io Word

/-- The faults of the programs over these operations. -/
inductive Panic
  | dirlookupNotDir
  | dirlookupRead
  | dirlinkRead
  | dirlink
  | isdiremptyReadi
  | createDots
  | createDirlink
  | unlinkNlink
  | unlinkWritei
  | filedup
  | fileclose
  | fileread
  | filewrite
  | shortFilewrite
  | initExiting
  /-- A pipe is closed that is not there. -/
  | pipe
  /-- A process is looked up that is not there. -/
  | proc
  /-- A loop has not ended within its bound. -/
  | loop
  deriving DecidableEq

def Panic.fault : Panic → Fault
  | dirlookupNotDir => .panic "dirlookup not DIR"
  | dirlookupRead => .panic "dirlookup read"
  | dirlinkRead => .panic "dirlink read"
  | dirlink => .panic "dirlink"
  | isdiremptyReadi => .panic "isdirempty: readi"
  | createDots => .panic "create dots"
  | createDirlink => .panic "create: dirlink"
  | unlinkNlink => .panic "unlink: nlink < 1"
  | unlinkWritei => .panic "unlink: writei"
  | filedup => .panic "filedup"
  | fileclose => .panic "fileclose"
  | fileread => .panic "fileread"
  | filewrite => .panic "filewrite"
  | shortFilewrite => .panic "short filewrite"
  | initExiting => .panic "init exiting"
  | pipe => .stale
  | proc => .null
  | loop => .loop

/-- The disk, the inode cache and the locks of its entries. -/
structure Blocks where
  disk : Disk
  icache : Slot → Inode
  lock : Slot → Bool

namespace Blocks

def put (s : Blocks) (k : Slot) (ip : Inode) : Blocks :=
  { s with icache := Function.update s.icache k ip }

theorem put_self (s : Blocks) (k : Slot) (ip : Inode) : (s.put k ip).icache k = ip :=
  Function.update_self ..

theorem put_of_ne (s : Blocks) {k k' : Slot} (ip : Inode) (h : k' ≠ k) :
    (s.put k ip).icache k' = s.icache k' := Function.update_of_ne h ..

def iget (s : Blocks) (inum : Word) : Except Fault (Slot × Blocks) :=
  match (List.finRange NINODE).find? fun k => 0 < (s.icache k).ref ∧ (s.icache k).inum = inum with
  | some k => .ok (k, s.put k { s.icache k with ref := (s.icache k).ref + 1 })
  | none =>
    match (List.finRange NINODE).find? fun k => (s.icache k).ref = 0 with
    | some k => .ok (k, s.put k { s.icache k with inum := inum, ref := 1, valid := false })
    | none => .error (.panic "iget: no inodes")

def idup (s : Blocks) (k : Slot) : Except Fault Blocks :=
  if (s.icache k).ref < 1 then .error .stale
  else .ok (s.put k { s.icache k with ref := (s.icache k).ref + 1 })

def setLock (s : Blocks) (k : Slot) (b : Bool) : Blocks := { s with lock := Function.update s.lock k b }

def ilock (s : Blocks) (k : Slot) : Except Fault Blocks :=
  let ip := s.icache k
  if ip.ref < 1 then .error (.panic "ilock")
  else if s.lock k then .error .deadlock
  else if ip.valid then .ok (s.setLock k true)
  else
    let ip := { ip with toDinode := s.disk.dinode ip.inum, valid := true }
    if ip.type = 0 then .error (.panic "ilock: no type") else .ok ((s.put k ip).setLock k true)

def iunlock (s : Blocks) (k : Slot) : Except Fault Blocks :=
  if s.lock k = false ∨ (s.icache k).ref < 1 then .error (.panic "iunlock") else .ok (s.setLock k false)

/-- The inode, if it is locked. -/
def locked (s : Blocks) (k : Slot) : Except Fault Inode :=
  if s.lock k ∧ 1 ≤ (s.icache k).ref ∧ (s.icache k).valid then .ok (s.icache k) else .error .stale

def iput (s : Blocks) (k : Slot) : Except Fault Blocks :=
  let ip := s.icache k
  if ip.ref < 1 then .error .stale
  -- `acquiresleep(&ip->lock)`, which is released before the count goes down
  else if s.lock k then .error .deadlock
  else if ip.valid ∧ ip.nlink = 0 ∧ ip.ref = 1 then do
    let (ip, d) ← Iput.freeInode ip s.disk
    pure { s with disk := d, icache := Function.update s.icache k { ip with ref := ip.ref - 1 } }
  else .ok (s.put k { ip with ref := ip.ref - 1 })

def ialloc (sb : Superblock) (s : Blocks) (type : Short) : Except Fault (Slot × Blocks) :=
  match (List.range sb.ninodes.toNat).find? fun i => 1 ≤ i ∧ (s.disk.dinode (.ofNat 32 i)).type = 0 with
  | none => .error (.panic "ialloc: no inodes")
  | some i =>
    let x : Dinode := { type := type, nlink := 0, addrs := fun _ => 0 }
    iget { s with disk := { s.disk with dinode := Function.update s.disk.dinode (.ofNat 32 i) x } }
      (.ofNat 32 i)

end Blocks

open Blocks in
def blockLayer (sb : Superblock) (devsw : Fin NDEV → Bool) : Layer Act Ans Panic Fault Blocks where
  fault := Panic.fault
  exec
    | .iget inum, s => iget s inum
    | .idup k, s => do
      let s ← idup s k
      pure ((), s)
    | .ilock k, s => do
      let s ← ilock s k
      pure ((), s)
    | .iunlock k, s => do
      let s ← iunlock s k
      pure ((), s)
    | .fields k, s => do
      let ip ← locked s k
      pure ((⟨ip.inum, ip.type, ip.major, ip.minor, ip.nlink, ip.size⟩ : Fields), s)
    | .iupdate k major minor nlink, s => do
      let ip ← locked s k
      let ip := { ip with major := major, minor := minor, nlink := nlink }
      pure ((), { s.put k ip with disk := Fs.iupdate ip s.disk })
    | .iput k, s => do
      let s ← iput s k
      pure ((), s)
    | .ialloc type, s => ialloc sb s type
    | .readi k off n, s => do
      let ip ← locked s k
      let (r, ip, d) ← Fs.readi sb devsw ip s.disk off n
      pure (r, { s.put k ip with disk := d })
    | .writei k src off n, s => do
      let ip ← locked s k
      let (r, ip, d) ← Fs.writei sb devsw ip s.disk src off n
      pure (r, { s.put k ip with disk := d })

/-! ### The invariant -/

/-- **What holds of the disk and the cache** between the operations. -/
structure Sound (sb : Superblock) (s : Blocks) : Prop where
  owned : Owned sb s.disk s.disk.dinode
  noHoles : ∀ i, (s.disk.dinode i).NoHoles s.disk
  free : ∀ i, (s.disk.dinode i).type = 0 → ∀ pl, (s.disk.dinode i).num s.disk pl = 0
  /-- The cache is written through. -/
  through : ∀ k, 0 < (s.icache k).ref → (s.icache k).valid = true →
    (s.icache k).toDinode = s.disk.dinode (s.icache k).inum
  typed : ∀ k, 0 < (s.icache k).ref → (s.icache k).valid = true → (s.icache k).type ≠ 0
  once : ∀ {k k'}, 0 < (s.icache k).ref → 0 < (s.icache k').ref →
    (s.icache k).inum = (s.icache k').inum → k = k'

variable {sb : Superblock} {devsw : Fin NDEV → Bool} {s s' : Blocks} {k : Slot} {ip : Inode}

theorem Sound.put (hs : Sound sb s) (k : Slot) (ip : Inode)
    (hip : 0 < ip.ref → ip.valid = true → ip.toDinode = s.disk.dinode ip.inum ∧ ip.type ≠ 0)
    (hnew : 0 < ip.ref → ∀ k', k' ≠ k → 0 < (s.icache k').ref → (s.icache k').inum ≠ ip.inum) :
    Sound sb (s.put k ip) := by
  have hself := s.put_self k ip
  have hrest : ∀ k', k' ≠ k → (s.put k ip).icache k' = s.icache k' := fun _ => s.put_of_ne ip
  refine ⟨hs.owned, hs.noHoles, hs.free, fun k' => ?_, fun k' => ?_, fun {k₁ k₂} => ?_⟩
  · by_cases hk : k' = k
    · rw [hk, hself]
      exact fun hr hv => (hip hr hv).1
    · rw [hrest k' hk]
      exact hs.through k'
  · by_cases hk : k' = k
    · rw [hk, hself]
      exact fun hr hv => (hip hr hv).2
    · rw [hrest k' hk]
      exact hs.typed k'
  · by_cases h₁ : k₁ = k <;> by_cases h₂ : k₂ = k
    · exact fun _ _ _ => h₁.trans h₂.symm
    · rw [h₁, hself, hrest k₂ h₂]
      exact fun hr hr' he => absurd he.symm (hnew hr k₂ h₂ hr')
    · rw [h₂, hself, hrest k₁ h₁]
      exact fun hr hr' he => absurd he (hnew hr' k₁ h₁ hr)
    · rw [hrest k₁ h₁, hrest k₂ h₂]
      exact hs.once

theorem Sound.setRef (hs : Sound sb s) (hk : 0 < (s.icache k).ref) (r : ℤ) :
    Sound sb (s.put k { s.icache k with ref := r }) :=
  hs.put k _ (fun _ hv => ⟨hs.through k hk hv, hs.typed k hk hv⟩)
    fun _ _ hne hr' he => hne (hs.once hr' hk he)

theorem Sound.iget (hs : Sound sb s) {inum : Word} (h : s.iget inum = .ok (k, s')) : Sound sb s' := by
  unfold Blocks.iget at h
  split at h
  · rename_i k' hf
    cases h
    have hk := List.find?_some hf
    simp only [decide_eq_true_eq] at hk
    exact hs.setRef hk.1 _
  · rename_i hf
    split at h
    · cases h
      refine hs.put _ _ (fun _ hv => by cases hv) fun _ k' _ hr' he => ?_
      have := List.find?_eq_none.1 hf k' (List.mem_finRange k')
      simp only [decide_eq_true_eq] at this
      exact this ⟨hr', he⟩
    · cases h

theorem Sound.setLock (hs : Sound sb s) (k : Slot) (b : Bool) : Sound sb (s.setLock k b) :=
  ⟨hs.owned, hs.noHoles, hs.free, hs.through, hs.typed, hs.once⟩

theorem Sound.ilock (hs : Sound sb s) (h : s.ilock k = .ok s') : Sound sb s' := by
  unfold Blocks.ilock at h
  dsimp only at h
  split at h
  · cases h
  rename_i href
  split at h
  · cases h
  split at h
  · cases h
    exact hs.setLock k true
  split at h
  · cases h
  · rename_i ht
    cases h
    have hput := hs.put k { s.icache k with toDinode := s.disk.dinode (s.icache k).inum, valid := true }
      (fun _ _ => ⟨rfl, ht⟩) fun _ _ hne hr' he => hne (hs.once hr' (by omega) he)
    exact hput.setLock k true

theorem iunlock_ok (h : s.iunlock k = .ok s') : s' = s.setLock k false := by
  unfold Blocks.iunlock at h
  split at h
  · cases h
  · exact (Except.ok.inj h).symm

theorem locked_ok (h : s.locked k = .ok ip) :
    ip = s.icache k ∧ 0 < (s.icache k).ref ∧ (s.icache k).valid = true := by
  unfold Blocks.locked at h
  split at h
  · rename_i hl
    cases h
    exact ⟨rfl, by omega, hl.2.2⟩
  · cases h

/-- The numbers of the blocks of a file say whether it has holes. -/
theorem noHoles_congr {d d' : Disk} {x : Dinode} (hnum : ∀ pl, x.num d' pl = x.num d pl)
    (hh : x.NoHoles d) : x.NoHoles d' := by
  intro m hm
  have := block_rest (t := fun _ => x) (i := 0) hnum m
  rw [this]
  exact hh m hm

/-- Another inode on disk, and another disk that is the same for the other inodes. -/
theorem Sound.disk (hs : Sound sb s) {d : Disk} {i : Word} {x : Dinode}
    (hd : d.dinode = Function.update s.disk.dinode i x) (ho : Owned sb d d.dinode)
    (hx : x.NoHoles d) (hfree : x.type = 0 → ∀ pl, x.num d pl = 0)
    (hrest : ∀ j, j ≠ i → ∀ pl, (s.disk.dinode j).num d pl = (s.disk.dinode j).num s.disk pl)
    (hcache : ∀ k, 0 < (s.icache k).ref → (s.icache k).valid = true → (s.icache k).inum ≠ i) :
    Sound sb { s with disk := d } := by
  refine ⟨ho, fun j => ?_, fun j hj pl => ?_, fun k hr hv => ?_, hs.typed, hs.once⟩
  · show (d.dinode j).NoHoles d
    rw [hd]
    by_cases hj : j = i
    · rw [hj, Function.update_self]
      exact hx
    · rw [Function.update_of_ne hj]
      exact noHoles_congr (hrest j hj) (hs.noHoles j)
  · revert hj
    show (d.dinode j).type = 0 → (d.dinode j).num d pl = 0
    rw [hd]
    by_cases hj : j = i
    · rw [hj, Function.update_self]
      exact fun ht => hfree ht pl
    · rw [Function.update_of_ne hj, hrest j hj]
      exact fun ht => hs.free j ht pl
  · show _ = d.dinode _
    rw [hd, Function.update_of_ne (hcache k hr hv)]
    exact hs.through k hr hv

/-- The inode of a cache entry that is in use changes, in the cache and on disk. -/
theorem Sound.replace (hs : Sound sb s) (ip : Inode) {d : Disk} {x : Dinode} (hk : 0 < (s.icache k).ref)
    (hinum : ip.inum = (s.icache k).inum) (hd : d.dinode = Function.update s.disk.dinode ip.inum x)
    (ho : Owned sb d d.dinode) (hx : x.NoHoles d) (hfree : x.type = 0 → ∀ pl, x.num d pl = 0)
    (hrest : ∀ j, j ≠ ip.inum → ∀ pl,
      (s.disk.dinode j).num d pl = (s.disk.dinode j).num s.disk pl)
    (hip : 0 < ip.ref → ip.valid = true → ip.toDinode = x ∧ x.type ≠ 0) :
    Sound sb { s with disk := d, icache := Function.update s.icache k ip } := by
  -- the entry is looked at as if it were not in use while the disk changes
  have h₀ : Sound sb (s.put k { s.icache k with ref := 0 }) := hs.setRef hk 0
  have h₁ : Sound sb { s.put k { s.icache k with ref := 0 } with disk := d } := by
    refine h₀.disk hd ho hx hfree hrest fun k' hr hv he => ?_
    by_cases hkk : k' = k
    · rw [hkk, s.put_self] at hr
      exact absurd hr (lt_irrefl _)
    · rw [s.put_of_ne _ hkk] at hr he
      exact hkk (hs.once hr hk (he.trans hinum))
  have h₂ := h₁.put k ip (fun hr hv => ?_) fun _ k' hne hr he => ?_
  · simpa [Blocks.put] using h₂
  · obtain ⟨he, ht⟩ := hip hr hv
    refine ⟨?_, by rw [he]; exact ht⟩
    show _ = d.dinode _
    rw [hd, Function.update_self, he]
  · simp only [Blocks.put, Function.update_of_ne hne] at hr he
    exact hne (hs.once hr hk (he.trans hinum))

theorem Sound.on_disk (hs : Sound sb s) (hk : 0 < (s.icache k).ref) (hv : (s.icache k).valid = true) :
    s.disk.dinode (s.icache k).inum = (s.icache k).toDinode := (hs.through k hk hv).symm

theorem Sound.inode_noHoles (hs : Sound sb s) (hk : 0 < (s.icache k).ref)
    (hv : (s.icache k).valid = true) : (s.icache k).NoHoles s.disk := by
  rw [hs.through k hk hv]
  exact hs.noHoles _

theorem Sound.freeInode (hs : Sound sb s) (hk : 0 < (s.icache k).ref)
    (hv : (s.icache k).valid = true) :
    Iput.freeInode (s.icache k) s.disk =
      .ok ({ s.icache k with addrs := fun _ => 0, size := 0, type := 0, valid := false },
        Iput.freedDisk (s.icache k) s.disk) :=
  Iput.freeInode_ok (hs.owned.freeable (hs.on_disk hk hv)) (s.icache k).ref

theorem Sound.iput (hs : Sound sb s) (h : s.iput k = .ok s') : Sound sb s' := by
  unfold Blocks.iput at h
  dsimp only at h
  split at h
  · cases h
  · rename_i href
    have hk : 0 < (s.icache k).ref := by omega
    split at h
    · cases h
    split at h
    · rename_i hc
      rw [hs.freeInode hk hc.1] at h
      cases h
      set x : Dinode := { (s.icache k).toDinode with addrs := fun _ => 0, size := 0, type := 0 } with hx
      have hd : (Iput.freedDisk (s.icache k) s.disk).dinode =
          Function.update s.disk.dinode (s.icache k).inum x := by
        show Function.update (Function.update s.disk.dinode (s.icache k).inum _) (s.icache k).inum _ = _
        rw [Function.update_idem]
      have hnum : ∀ pl, x.num (Iput.freedDisk (s.icache k) s.disk) pl = 0 := fun pl => by
        cases pl <;> rfl
      refine hs.replace _ hk rfl hd ?_ (fun m hm => absurd hm (by simp [x])) (fun _ => hnum)
        (fun j _ pl => by cases pl <;> rfl) fun _ hv => by cases hv
      rw [hd]
      exact hs.owned.trunc (hs.on_disk hk hc.1) (x := x) rfl
    · cases h
      exact hs.setRef hk _

theorem Sound.ialloc (hs : Sound sb s) {type : Short} (h : s.ialloc sb type = .ok (k, s')) :
    Sound sb s' := by
  unfold Blocks.ialloc at h
  split at h
  · cases h
  · rename_i i hf
    have hi := List.find?_some hf
    simp only [decide_eq_true_eq] at hi
    refine Sound.iget (s := { s with disk := _ }) ?_ h
    refine hs.disk (x := { type := type, nlink := 0, addrs := fun _ => 0 }) rfl
      (hs.owned.congr (fun j pl => ?_) rfl) (fun m hm => absurd hm (by simp)) (fun _ pl => by cases pl <;> rfl)
      (fun j _ pl => by cases pl <;> rfl) fun k hr hv he => ?_
    · by_cases hj : j = .ofNat 32 i
      · -- a free inode has no blocks, and neither has the new one
        rw [hj, hs.free _ hi.2 pl]
        show (Function.update s.disk.dinode (.ofNat 32 i) _ (.ofNat 32 i)).num _ pl = 0
        rw [Function.update_self]
        cases pl <;> rfl
      · show (Function.update s.disk.dinode (.ofNat 32 i) _ j).num _ pl = _
        rw [Function.update_of_ne hj]
        cases pl <;> rfl
    · have ht := hs.typed k hr hv
      rw [hs.through k hr hv, he] at ht
      exact ht hi.2

theorem Sound.iupdate (hs : Sound sb s) (hk : 0 < (s.icache k).ref) (hv : (s.icache k).valid = true)
    (major minor nlink : Short) :
    Sound sb { s.put k { s.icache k with major := major, minor := minor, nlink := nlink } with
      disk := Fs.iupdate { s.icache k with major := major, minor := minor, nlink := nlink } s.disk } := by
  have hnum : ∀ pl, ({ (s.icache k).toDinode with major := major, minor := minor, nlink := nlink } :
      Dinode).num s.disk pl = (s.disk.dinode (s.icache k).inum).num s.disk pl := fun pl => by
    rw [hs.on_disk hk hv]
    cases pl <;> rfl
  refine hs.replace { s.icache k with major := major, minor := minor, nlink := nlink }
    (x := { (s.icache k).toDinode with major := major, minor := minor, nlink := nlink }) hk rfl rfl
    (hs.owned.congr (fun j pl => ?_) rfl) ?_ (fun ht => absurd ht (hs.typed k hk hv))
    (fun j _ pl => by cases pl <;> rfl) fun _ _ => ⟨rfl, hs.typed k hk hv⟩
  · by_cases hj : j = (s.icache k).inum
    · rw [hj, ← hnum]
      show (Function.update s.disk.dinode (s.icache k).inum _ (s.icache k).inum).num _ pl = _
      rw [Function.update_self]
      cases pl <;> rfl
    · show (Function.update s.disk.dinode (s.icache k).inum _ j).num _ pl = _
      rw [Function.update_of_ne hj]
      cases pl <;> rfl
  · have := hs.inode_noHoles hk hv
    exact this

/-- **Reading changes nothing**: no block is missing. -/
theorem Sound.readi (hs : Sound sb s) (hk : 0 < (s.icache k).ref) (hv : (s.icache k).valid = true)
    (devsw : Fin NDEV → Bool) (off n : Word) :
    ∃ r, Fs.readi sb devsw (s.icache k) s.disk off n = .ok (r, s.icache k, s.disk) := by
  by_cases hdev : (s.icache k).type = T_DEV
  · exact ⟨_, if_pos hdev⟩
  · exact ⟨_, readi_ok (hs.inode_noHoles hk hv) hdev devsw off n⟩

theorem Sound.writei (hs : Sound sb s) (hk : 0 < (s.icache k).ref) (hv : (s.icache k).valid = true)
    {src : ℕ → Byte} {off n : Word} {r : Io Word} {d : Disk}
    (h : Fs.writei sb devsw (s.icache k) s.disk src off n = .ok (r, ip, d)) :
    Sound sb { s.put k ip with disk := d } := by
  have hsame : s.put k (s.icache k) = s := by simp [Blocks.put]
  by_cases hdev : (s.icache k).type = T_DEV
  · rw [writei_eq, if_pos hdev] at h
    cases h
    rw [hsame]
    exact hs
  · by_cases hf : Fits (s.icache k) off n
    · obtain ⟨-, hw⟩ := writei_done hs.owned (hs.on_disk hk hv) (hs.inode_noHoles hk hv) hdev hf h
      have hinum : ip.inum = (s.icache k).inum := by rw [hw.inode]
      have htype : ip.type = (s.icache k).type := by rw [hw.inode]
      have hd := hw.through (hs.on_disk hk hv)
      have ho := hw.owned
      rw [← hd] at ho
      rw [← hinum] at hd
      have ht := hs.typed k hk hv
      rw [← htype] at ht
      exact hs.replace ip hk hinum hd ho hw.noHoles (fun h0 => absurd h0 ht)
        (fun j hj => hw.rest j (by rwa [← hinum])) fun _ _ => ⟨rfl, ht⟩
    · rw [writei_fail hdev hf] at h
      cases h
      rw [hsame]
      exact hs

/-- **Every operation keeps the invariant.** -/
theorem Sound.exec (a : Act) (s : Blocks) (r : Ans a) (s' : Blocks) (hs : Sound sb s)
    (h : (blockLayer sb devsw).exec a s = .ok (r, s')) : Sound sb s' := by
  cases a with
  | iget inum => exact hs.iget h
  | idup k =>
    obtain ⟨s₁, h₁, h⟩ := bind_eq_ok.1 h
    cases h
    unfold Blocks.idup at h₁
    split at h₁
    · cases h₁
    · cases h₁
      exact hs.setRef (by omega) _
  | ilock k =>
    obtain ⟨s₁, h₁, h⟩ := bind_eq_ok.1 h
    cases h
    exact hs.ilock h₁
  | iunlock k =>
    obtain ⟨s₁, h₁, h⟩ := bind_eq_ok.1 h
    cases h
    rw [iunlock_ok h₁]
    exact hs.setLock k false
  | fields k =>
    obtain ⟨ip, h₁, h⟩ := bind_eq_ok.1 h
    cases h
    exact hs
  | iupdate k major minor nlink =>
    obtain ⟨ip, h₁, h⟩ := bind_eq_ok.1 h
    obtain ⟨rfl, hk, hv⟩ := locked_ok h₁
    cases h
    exact hs.iupdate hk hv major minor nlink
  | iput k =>
    obtain ⟨s₁, h₁, h⟩ := bind_eq_ok.1 h
    cases h
    exact hs.iput h₁
  | ialloc type => exact hs.ialloc h
  | readi k off n =>
    obtain ⟨ip, h₁, h⟩ := bind_eq_ok.1 h
    obtain ⟨rfl, hk, hv⟩ := locked_ok h₁
    obtain ⟨r', hr⟩ := hs.readi hk hv devsw off n
    obtain ⟨⟨r'', ip', d'⟩, h₂, h⟩ := bind_eq_ok.1 h
    rw [hr] at h₂
    cases h₂
    cases h
    simpa [Blocks.put] using hs
  | writei k src off n =>
    obtain ⟨ip, h₁, h⟩ := bind_eq_ok.1 h
    obtain ⟨rfl, hk, hv⟩ := locked_ok h₁
    obtain ⟨⟨r', ip', d'⟩, h₂, h⟩ := bind_eq_ok.1 h
    cases h
    exact hs.writei hk hv h₂

/-! ### What can go wrong -/

/-- The disk is full. -/
abbrev outOfBlocks : Fault := .panic "balloc: out of blocks"

theorem balloc_error {d : Disk} {e : Fault} (h : balloc sb d = .error e) : e = outOfBlocks := by
  rw [balloc_eq] at h
  split at h <;> cases h
  rfl

/-- The part of `bmap` that goes through the indirect block. -/
theorem bmap_entry_error {d : Disk} {j : Fin NINDIRECT} {e : Fault}
    (h : (if d.data (ip.addrs (Fin.last NDIRECT)) j = 0 then do
        let (addr, d₁) ← balloc sb d
        pure (addr, ip, { d₁ with
          data := Function.update d₁.data (ip.addrs (Fin.last NDIRECT)) <|
            Function.update (d.data (ip.addrs (Fin.last NDIRECT))) j addr })
      else pure (d.data (ip.addrs (Fin.last NDIRECT)) j, ip, d)) = Except.error e) :
    e = outOfBlocks := by
  split at h
  · rcases bind_eq_error.1 h with h | ⟨x, -, h⟩
    · exact balloc_error h
    · cases h
  · cases h

theorem bmap_error {d : Disk} {bn : ℕ} {e : Fault} (hbn : bn < MAXFILE)
    (h : bmap sb ip d bn = .error e) : e = outOfBlocks := by
  have hbn : bn < NDIRECT + NINDIRECT := hbn
  rw [bmap_eq] at h
  split at h
  · dsimp only at h
    split at h
    · rcases bind_eq_error.1 h with h | ⟨x, -, h⟩
      · exact balloc_error h
      · cases h
    · cases h
  · dsimp only at h
    split at h
    · split at h
      · rcases bind_eq_error.1 h with h | ⟨x, -, h⟩
        · exact balloc_error h
        · exact bmap_entry_error h
      · exact bmap_entry_error h
    · omega

theorem writeLoop_error {e : Fault} :
    ∀ {fuel off : ℕ} {src : List Byte} {ip : Inode} {d : Disk}, src.length ≤ fuel →
      off + src.length ≤ MAXFILE * BSIZE → writeLoop sb fuel ip d off src = .error e →
      e = outOfBlocks
  | fuel, off, [], ip, d, _, _, h => by
    cases fuel <;> cases h
  | 0, _, _ :: _, _, _, hf, _, _ => by simp at hf
  | fuel + 1, off, x :: src, ip, d, hf, hmax, h => by
    have hmod : off % BSIZE < BSIZE := Nat.mod_lt _ (by decide)
    rw [List.length_cons] at hf hmax
    have hbn : off / BSIZE < MAXFILE := Nat.div_lt_of_lt_mul (by rw [Nat.mul_comm]; omega)
    rw [writeLoop_cons] at h
    rcases bind_eq_error.1 h with h | ⟨⟨b, ip₁, d₁⟩, -, h⟩
    · exact bmap_error hbn h
    · refine writeLoop_error ?_ ?_ h
      · rw [List.length_drop, List.length_cons]
        omega
      · rw [List.length_drop, List.length_cons]
        omega

theorem writei_error {d : Disk} {src : ℕ → Byte} {off n : Word} {e : Fault}
    (h : Fs.writei sb devsw ip d src off n = .error e) : e = outOfBlocks := by
  by_cases hdev : ip.type = T_DEV
  · rw [writei_eq, if_pos hdev] at h
    cases h
  · by_cases hf : Fits ip off n
    · rw [writei_fits hdev hf] at h
      rcases bind_eq_error.1 h with h | ⟨x, -, h⟩
      · exact writeLoop_error (by simp) (by simpa using hf.2) h
      · cases h
    · rw [writei_fail hdev hf] at h
      cases h

/-- **`writei` fails only for lack of blocks**: fewer are free than it has to allocate. -/
theorem Sound.writei_short (hs : Sound sb s) (hk : 0 < (s.icache k).ref) (hv : (s.icache k).valid = true)
    {src : ℕ → Byte} {off n : Word} {e : Fault} (h : Fs.writei sb devsw (s.icache k) s.disk src off n = .error e) :
    (freeBlocks sb s.disk).card < (s.icache k).need s.disk off.toNat n.toNat := by
  by_cases hdev : (s.icache k).type = T_DEV
  · rw [writei_eq, if_pos hdev] at h
    cases h
  by_cases hf : Fits (s.icache k) off n
  · by_contra hroom
    have ho : Owned sb s.disk (Function.update s.disk.dinode (s.icache k).inum (s.icache k).toDinode) := by
      rw [← hs.on_disk hk hv, Function.update_eq_self]
      exact hs.owned
    obtain ⟨ip', d', hw⟩ : ∃ ip' d', writeLoop sb n.toNat (s.icache k) s.disk off.toNat ((List.range n.toNat).map src) =
        .ok (ip', d') :=
      writeLoop_total ho (by simp) (by simpa using hf.2) (by simpa using hroom)
    rw [writei_fits hdev hf, hw] at h
    cases h
  · rw [writei_fail hdev hf] at h
    cases h

/-- **`bfree` finds every block in use.** -/
theorem Sound.iput_error (hs : Sound sb s) {e : Fault} (h : s.iput k = .error e) : e = .stale ∨ e = .deadlock := by
  unfold Blocks.iput at h
  dsimp only at h
  split at h
  · cases h
    exact .inl rfl
  rename_i href
  split at h
  · cases h
    exact .inr rfl
  split at h
  · rename_i hc
    rw [hs.freeInode (by omega) hc.1] at h
    cases h
  · cases h

end Xv6.Fs
