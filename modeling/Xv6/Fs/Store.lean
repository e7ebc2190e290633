import Xv6.Fs.System

/-!
# Files as lists of bytes

The inode layer once more, with the content of a file in the place of its blocks. The functions of
`fs.c` on the disk and the inode cache do what the operations here say, unless a write needs more blocks
than are free; so what the code above them does on this layer it does there.
-/

namespace Xv6.Fs

open Lib

/-- An inode with its content. -/
structure Vnode where
  type : Short
  major : Short
  minor : Short
  nlink : Short
  data : List Byte

/-- The part of a cache entry that is not a copy of what is on disk. -/
structure Cached where
  inum : Word
  ref : ℤ
  valid : Bool

/-- The inodes, the inode cache and its locks. -/
@[ext]
structure Store where
  node : Word → Vnode
  slot : Slot → Cached
  lock : Slot → Bool

namespace Vnode

def size (x : Vnode) : Word := .ofNat 32 x.data.length

/-- An inode as `ialloc` makes it. -/
def fresh (type : Short) : Vnode := ⟨type, 0, 0, 0, []⟩

/-- An inode that has been given back. -/
def freed (x : Vnode) : Vnode := { x with type := 0, data := [] }

def read (devsw : Fin NDEV → Bool) (x : Vnode) (off n : Word) : Io (List Byte) :=
  if x.type = T_DEV then (if hasDriver devsw x.major then .device else .fail)
  else if off.toNat ≤ x.data.length ∧ off.toNat + n.toNat < 2 ^ 32 then
    .done ((x.data.drop off.toNat).take n.toNat)
  else .fail

/-- What `writei` answers, and makes of the inode. -/
def write (devsw : Fin NDEV → Bool) (x : Vnode) (src : ℕ → Byte) (off n : Word) : Io Word × Vnode :=
  if x.type = T_DEV then (if hasDriver devsw x.major then .device else .fail, x)
  else if off.toNat ≤ x.data.length ∧ off.toNat + n.toNat ≤ MAXFILE * BSIZE then
    (.done n, { x with
      data := x.data.take off.toNat ++ (List.range n.toNat).map src ++ x.data.drop (off.toNat + n.toNat) })
  else (.fail, x)

end Vnode

namespace Store

def setNode (s : Store) (i : Word) (x : Vnode) : Store := { s with node := Function.update s.node i x }

def setSlot (s : Store) (k : Slot) (e : Cached) : Store := { s with slot := Function.update s.slot k e }

def setLock (s : Store) (k : Slot) (b : Bool) : Store := { s with lock := Function.update s.lock k b }

def iget (s : Store) (inum : Word) : Except Fault (Slot × Store) :=
  match (List.finRange NINODE).find? fun k => 0 < (s.slot k).ref ∧ (s.slot k).inum = inum with
  | some k => .ok (k, s.setSlot k { s.slot k with ref := (s.slot k).ref + 1 })
  | none =>
    match (List.finRange NINODE).find? fun k => (s.slot k).ref = 0 with
    | some k => .ok (k, s.setSlot k ⟨inum, 1, false⟩)
    | none => .error (.panic "iget: no inodes")

def idup (s : Store) (k : Slot) : Except Fault Store :=
  if (s.slot k).ref < 1 then .error .stale
  else .ok (s.setSlot k { s.slot k with ref := (s.slot k).ref + 1 })

def ilock (s : Store) (k : Slot) : Except Fault Store :=
  if (s.slot k).ref < 1 then .error (.panic "ilock")
  else if s.lock k then .error .deadlock
  else if (s.slot k).valid then .ok (s.setLock k true)
  else if (s.node (s.slot k).inum).type = 0 then .error (.panic "ilock: no type")
  else .ok ((s.setSlot k { s.slot k with valid := true }).setLock k true)

def iunlock (s : Store) (k : Slot) : Except Fault Store :=
  if s.lock k = false ∨ (s.slot k).ref < 1 then .error (.panic "iunlock") else .ok (s.setLock k false)

/-- The number of the inode, if it is locked. -/
def locked (s : Store) (k : Slot) : Except Fault Word :=
  if s.lock k ∧ 1 ≤ (s.slot k).ref ∧ (s.slot k).valid then .ok (s.slot k).inum else .error .stale

def iput (s : Store) (k : Slot) : Except Fault Store :=
  let e := s.slot k
  if e.ref < 1 then .error .stale
  else if s.lock k then .error .deadlock
  else if e.valid ∧ (s.node e.inum).nlink = 0 ∧ e.ref = 1 then
    .ok ((s.setNode e.inum (s.node e.inum).freed).setSlot k ⟨e.inum, e.ref - 1, false⟩)
  else .ok (s.setSlot k { e with ref := e.ref - 1 })

def ialloc (ninodes : Word) (s : Store) (type : Short) : Except Fault (Slot × Store) :=
  match (List.range ninodes.toNat).find? fun i => 1 ≤ i ∧ (s.node (.ofNat 32 i)).type = 0 with
  | none => .error (.panic "ialloc: no inodes")
  | some i => iget (s.setNode (.ofNat 32 i) (.fresh type)) (.ofNat 32 i)

end Store

open Store in
def storeLayer (ninodes : Word) (devsw : Fin NDEV → Bool) : Layer Act Ans Panic Fault Store where
  fault := Panic.fault
  exec
    | .iget inum, s => iget s inum
    | .idup k, s => do
      let s ← idup s k
      pure ((), s)
    | .ilock k, s => do
      let s ← ilock s k
      pure ((), s)
    | .iunlock k, s => do
      let s ← iunlock s k
      pure ((), s)
    | .fields k, s => do
      let i ← locked s k
      let x := s.node i
      pure ((⟨i, x.type, x.major, x.minor, x.nlink, x.size⟩ : Fields), s)
    | .iupdate k major minor nlink, s => do
      let i ← locked s k
      pure ((), s.setNode i { s.node i with major := major, minor := minor, nlink := nlink })
    | .iput k, s => do
      let s ← iput s k
      pure ((), s)
    | .ialloc type, s => ialloc ninodes s type
    | .readi k off n, s => do
      let i ← locked s k
      pure ((s.node i).read devsw off n, s)
    | .writei k src off n, s => do
      let i ← locked s k
      let (r, x) := (s.node i).write devsw src off n
      pure (r, s.setNode i x)

/-! ### What the blocks hold -/

/-- An inode on disk with its content. -/
def Dinode.vnode (d : Disk) (x : Dinode) : Vnode := ⟨x.type, x.major, x.minor, x.nlink, x.content d⟩

/-- The inodes of a disk with their contents. -/
def Disk.node (d : Disk) (i : Word) : Vnode := (d.dinode i).vnode d

/-- What the disk and the cache hold. -/
def Blocks.store (s : Blocks) : Store where
  node := s.disk.node
  slot k := ⟨(s.icache k).inum, (s.icache k).ref, (s.icache k).valid⟩
  lock := s.lock

variable {sb : Superblock} {devsw : Fin NDEV → Bool} {s s' : Blocks} {k : Slot} {ip : Inode} {d : Disk}

theorem vnode_size (d : Disk) (x : Dinode) : (x.vnode d).size = x.size := by
  show BitVec.ofNat 32 (x.content d).length = x.size
  simp [Dinode.content]

theorem vnode_data {d d' : Disk} (h : d'.data = d.data) (x : Dinode) : x.vnode d' = x.vnode d := by
  obtain ⟨i, u, b⟩ := d
  obtain ⟨i', u', b'⟩ := d'
  obtain rfl : b' = b := h
  rfl

theorem node_update {d e : Disk} {i : Word} {x : Dinode} (hd : e.dinode = Function.update d.dinode i x)
    (h : e.data = d.data) : e.node = Function.update d.node i (x.vnode d) := by
  funext j
  rw [Disk.node, hd, vnode_data h]
  by_cases hj : j = i
  · rw [hj, Function.update_self, Function.update_self]
  · rw [Function.update_of_ne hj, Function.update_of_ne hj]
    rfl

theorem store_put {x : Vnode} (hx : d.node ip.inum = x) (hd : ∀ j, j ≠ ip.inum → d.node j = s.disk.node j) :
    Blocks.store { s.put k ip with disk := d } =
      (s.store.setNode ip.inum x).setSlot k ⟨ip.inum, ip.ref, ip.valid⟩ := by
  ext1
  · funext j
    show d.node j = Function.update s.disk.node ip.inum x j
    by_cases hj : j = ip.inum
    · rw [hj, Function.update_self, hx]
    · rw [Function.update_of_ne hj, hd j hj]
  · funext k'
    show Cached.mk ((s.put k ip).icache k').inum ((s.put k ip).icache k').ref
      ((s.put k ip).icache k').valid = Function.update s.store.slot k ⟨ip.inum, ip.ref, ip.valid⟩ k'
    by_cases hk : k' = k
    · rw [hk, Function.update_self, s.put_self]
    · rw [Function.update_of_ne hk, s.put_of_ne ip hk]
      rfl
  · rfl

theorem store_slot {e : Cached} (he : e = ⟨ip.inum, ip.ref, ip.valid⟩) :
    s.store.setSlot k e = (s.put k ip).store := by
  have := @store_put s k ip s.disk _ rfl fun _ _ => rfl
  rw [Store.setNode, show s.store.node = s.disk.node from rfl, Function.update_eq_self] at this
  rw [he]
  exact this.symm

theorem store_iget (s : Blocks) (i : Word) :
    s.store.iget i = (s.iget i).map fun x => (x.1, x.2.store) := by
  unfold Blocks.iget Store.iget
  show (match (List.finRange NINODE).find? (fun k => 0 < (s.icache k).ref ∧ (s.icache k).inum = i) with
    | some k => _ | none => _) = _
  cases (List.finRange NINODE).find? (fun k => 0 < (s.icache k).ref ∧ (s.icache k).inum = i) with
  | some k => exact congrArg (fun x => Except.ok (k, x)) (store_slot rfl)
  | none =>
    show (match (List.finRange NINODE).find? (fun k => (s.icache k).ref = 0) with
      | some k => _ | none => _) = _
    dsimp only
    cases (List.finRange NINODE).find? (fun k => (s.icache k).ref = 0) with
    | some k => exact congrArg (fun x => Except.ok (k, x)) (store_slot rfl)
    | none => rfl

theorem store_idup (s : Blocks) (k : Slot) : s.store.idup k = (s.idup k).map Blocks.store := by
  unfold Blocks.idup Store.idup
  show (if (s.icache k).ref < 1 then _ else _) = _
  split
  · rfl
  · exact congrArg Except.ok (store_slot rfl)

theorem store_ilock (s : Blocks) (k : Slot) : s.store.ilock k = (s.ilock k).map Blocks.store := by
  unfold Blocks.ilock Store.ilock
  show (if (s.icache k).ref < 1 then _ else if s.lock k = true then _ else if (s.icache k).valid = true then _ else
    if (s.disk.dinode (s.icache k).inum).type = 0 then _ else _) = _
  dsimp only
  split
  · rfl
  split
  · rfl
  split
  · rfl
  split
  · rfl
  · exact congrArg (fun t : Store => Except.ok (t.setLock k true)) (@store_slot s k
      { s.icache k with toDinode := s.disk.dinode (s.icache k).inum, valid := true } _ rfl)

theorem store_iunlock (s : Blocks) (k : Slot) : s.store.iunlock k = (s.iunlock k).map Blocks.store := by
  unfold Blocks.iunlock Store.iunlock
  show (if s.lock k = false ∨ (s.icache k).ref < 1 then _ else _) = _
  split <;> rfl

theorem store_locked (s : Blocks) (k : Slot) : s.store.locked k = (s.locked k).map Inode.inum := by
  unfold Blocks.locked Store.locked
  show (if s.lock k = true ∧ 1 ≤ (s.icache k).ref ∧ (s.icache k).valid = true then _ else _) = _
  split <;> rfl

theorem Sound.node (hs : Sound sb s) (hk : 0 < (s.icache k).ref) (hv : (s.icache k).valid = true) :
    s.disk.node (s.icache k).inum = (s.icache k).vnode s.disk := by
  rw [Disk.node, hs.on_disk hk hv]

theorem store_iput (hs : Sound sb s) (k : Slot) : s.store.iput k = (s.iput k).map Blocks.store := by
  unfold Blocks.iput Store.iput
  dsimp only
  show (if (s.icache k).ref < 1 then _ else if s.lock k = true then _ else if (s.icache k).valid = true ∧
    (s.disk.dinode (s.icache k).inum).nlink = 0 ∧ (s.icache k).ref = 1 then _ else _) = _
  by_cases href : (s.icache k).ref < 1
  · rw [if_pos href, if_pos href]
    rfl
  rw [if_neg href, if_neg href]
  by_cases hlock : s.lock k = true
  · rw [if_pos hlock, if_pos hlock]
    rfl
  rw [if_neg hlock, if_neg hlock]
  by_cases hv : (s.icache k).valid = true
  · have hk : 0 < (s.icache k).ref := by omega
    rw [hs.on_disk hk hv]
    split
    · rw [hs.freeInode hk hv]
      have hd : (Iput.freedDisk (s.icache k) s.disk).node = Function.update s.disk.node
          (s.icache k).inum (s.disk.node (s.icache k).inum).freed := by
        rw [hs.node hk hv]
        refine node_update (d := s.disk) (e := Iput.freedDisk (s.icache k) s.disk)
          (x := { (s.icache k).toDinode with
            addrs := fun _ => 0
            size := 0
            type := 0 }) ?_ rfl
        show Function.update (Function.update s.disk.dinode (s.icache k).inum _) (s.icache k).inum _ = _
        rw [Function.update_idem]
      refine congrArg Except.ok (@store_put s k
        { s.icache k with
          addrs := fun _ => 0
          size := 0
          type := 0
          ref := (s.icache k).ref - 1
          valid := false }
        (Iput.freedDisk (s.icache k) s.disk) _ ?_ fun j hj => ?_).symm
      · rw [hd]
        exact Function.update_self ..
      · rw [hd]
        exact Function.update_of_ne hj ..
    · exact congrArg Except.ok (store_slot rfl)
  · rw [if_neg (fun h => hv h.1), if_neg (fun h => hv h.1)]
    exact congrArg Except.ok (store_slot rfl)

theorem store_ialloc (s : Blocks) (type : Short) :
    s.store.ialloc sb.ninodes type = (s.ialloc sb type).map fun x => (x.1, x.2.store) := by
  unfold Blocks.ialloc Store.ialloc
  show (match (List.range sb.ninodes.toNat).find? (fun i => 1 ≤ i ∧
    (s.disk.dinode (.ofNat 32 i)).type = 0) with | none => _ | some i => _) = _
  cases (List.range sb.ninodes.toNat).find? (fun i => 1 ≤ i ∧ (s.disk.dinode (.ofNat 32 i)).type = 0) with
  | none => rfl
  | some i =>
    dsimp only
    rw [← store_iget]
    congr 1
    ext1
    · exact (node_update (d := s.disk) (x := { type := type, nlink := 0, addrs := fun _ => 0 })
        (e := { s.disk with dinode := Function.update s.disk.dinode _ _ }) rfl rfl).symm
    · rfl
    · rfl

/-- The disk has fewer free blocks than the write has to allocate. -/
def Act.Short (sb : Superblock) (s : Blocks) : Act → Prop
  | .writei k _ off n => (freeBlocks sb s.disk).card < (s.icache k).need s.disk off.toNat n.toNat
  | _ => False

/-- One operation in the blocks does what it does on contents, unless it is short of blocks, as `full` says. -/
def Agrees {α : Type} (full : Prop) (x : Except Fault (α × Blocks)) (y : Except Fault (α × Store)) : Prop :=
  match x with
  | .ok (r, s') => y = .ok (r, s'.store)
  | .error e => y = .error e ∨ e = outOfBlocks ∧ full

theorem Agrees.of_map {α : Type} {full : Prop} {x : Except Fault (α × Blocks)} {y : Except Fault (α × Store)}
    (h : y = x.map fun a => (a.1, a.2.store)) : Agrees full x y := by
  cases x with
  | error e => exact .inl h
  | ok a => exact h

theorem Agrees.unit {full : Prop} {x : Except Fault Blocks} {y : Except Fault Store} (h : y = x.map Blocks.store) :
    Agrees full (do let s ← x; pure ((), s)) (do let s ← y; pure ((), s)) := by
  cases x with
  | error e =>
    rw [h]
    exact .inl rfl
  | ok a =>
    rw [h]
    rfl

theorem Agrees.locked {α : Type} {full : Prop} {f : Inode → Except Fault (α × Blocks)}
    {g : Word → Except Fault (α × Store)} (h : 0 < (s.icache k).ref → (s.icache k).valid = true →
      Agrees full (f (s.icache k)) (g (s.icache k).inum)) :
    Agrees full (s.locked k >>= f) (s.store.locked k >>= g) := by
  rw [store_locked]
  cases hl : s.locked k with
  | error e => exact .inl rfl
  | ok ip =>
    obtain ⟨rfl, hk, hv⟩ := locked_ok hl
    exact h hk hv

theorem store_fields (hs : Sound sb s) (k : Slot) :
    Agrees False ((blockLayer sb devsw).exec (.fields k) s)
      ((storeLayer sb.ninodes devsw).exec (.fields k) s.store) := by
  refine Agrees.locked fun hk hv => ?_
  show Except.ok _ = Except.ok _
  have hn : s.store.node (s.icache k).inum = (s.icache k).vnode s.disk := hs.node hk hv
  rw [hn, vnode_size]
  rfl

/-- An inode changes, in the cache and on disk, while the entry stays what it was. -/
theorem store_set {x : Vnode} {i : Word} (hip : (⟨ip.inum, ip.ref, ip.valid⟩ : Cached) = s.store.slot k)
    (hi : i = ip.inum) (hx : d.node i = x) (hd : ∀ j, j ≠ i → d.node j = s.disk.node j) :
    s.store.setNode i x = Blocks.store { s.put k ip with disk := d } := by
  subst hi
  rw [store_put hx hd, hip]
  ext1
  · rfl
  · exact (Function.update_eq_self k s.store.slot).symm
  · rfl

theorem store_iupdate (hs : Sound sb s) (k : Slot) (major minor nlink : Short) :
    Agrees False ((blockLayer sb devsw).exec (.iupdate k major minor nlink) s)
      ((storeLayer sb.ninodes devsw).exec (.iupdate k major minor nlink) s.store) := by
  refine Agrees.locked fun hk hv => ?_
  have hn : s.store.node (s.icache k).inum = (s.icache k).vnode s.disk := hs.node hk hv
  have hd := node_update (d := s.disk) (i := (s.icache k).inum)
    (e := Fs.iupdate { s.icache k with major := major, minor := minor, nlink := nlink } s.disk)
    (x := { (s.icache k).toDinode with major := major, minor := minor, nlink := nlink }) rfl rfl
  show Except.ok ((), s.store.setNode (s.icache k).inum _) = Except.ok ((), _)
  rw [hn]
  refine congrArg (fun t => Except.ok ((), t)) (store_set rfl rfl ?_ fun j hj => ?_)
  · rw [hd]
    exact Function.update_self ..
  · rw [hd]
    exact Function.update_of_ne hj ..

theorem store_readi (hs : Sound sb s) (k : Slot) (off n : Word) :
    Agrees False ((blockLayer sb devsw).exec (.readi k off n) s)
      ((storeLayer sb.ninodes devsw).exec (.readi k off n) s.store) := by
  refine Agrees.locked fun hk hv => ?_
  have hn : s.store.node (s.icache k).inum = (s.icache k).vnode s.disk := hs.node hk hv
  have hread : Fs.readi sb devsw (s.icache k) s.disk off n =
      .ok (((s.icache k).vnode s.disk).read devsw off n, s.icache k, s.disk) := by
    unfold Vnode.read
    by_cases hdev : (s.icache k).type = T_DEV
    · rw [if_pos (show ((s.icache k).vnode s.disk).type = T_DEV from hdev), readi, if_pos hdev]
      rfl
    · rw [if_neg (show ¬ ((s.icache k).vnode s.disk).type = T_DEV from hdev),
        readi_ok (hs.inode_noHoles hk hv) hdev]
      have hlen : (((s.icache k).vnode s.disk).data).length = (s.icache k).size.toNat := by
        simp [Dinode.vnode, Dinode.content]
      rw [hlen]
      rfl
  dsimp only
  rw [hread, hn]
  show Except.ok _ = Except.ok _
  have hsame : ({ s.put k (s.icache k) with disk := s.disk } : Blocks) = s := by simp [Blocks.put]
  rw [hsame]

theorem store_writei (hs : Sound sb s) (k : Slot) (src : ℕ → Byte) (off n : Word) :
    Agrees ((Act.writei k src off n).Short sb s) ((blockLayer sb devsw).exec (.writei k src off n) s)
      ((storeLayer sb.ninodes devsw).exec (.writei k src off n) s.store) := by
  refine Agrees.locked fun hk hv => ?_
  have hn : s.store.node (s.icache k).inum = (s.icache k).vnode s.disk := hs.node hk hv
  have hself : s.store.setNode (s.icache k).inum ((s.icache k).vnode s.disk) = s.store := by
    rw [← hn]
    ext1
    · exact Function.update_eq_self ..
    · rfl
    · rfl
  have hlen : (((s.icache k).vnode s.disk).data).length = (s.icache k).size.toNat := by
    simp [Dinode.vnode, Dinode.content]
  have hsame : ({ s.put k (s.icache k) with disk := s.disk } : Blocks) = s := by simp [Blocks.put]
  dsimp only
  rw [hn]
  unfold Vnode.write
  by_cases hdev : (s.icache k).type = T_DEV
  · rw [if_pos (show ((s.icache k).vnode s.disk).type = T_DEV from hdev), writei_eq, if_pos hdev]
    show Except.ok (_, s.store.setNode _ _) = Except.ok (_, Blocks.store { s.put k _ with disk := _ })
    rw [hself, hsame]
    rfl
  rw [if_neg (show ¬ ((s.icache k).vnode s.disk).type = T_DEV from hdev), hlen]
  by_cases hf : Fits (s.icache k) off n
  · rw [if_pos (show off.toNat ≤ _ ∧ _ from hf)]
    cases hw : Fs.writei sb devsw (s.icache k) s.disk src off n with
    | error e => exact .inr ⟨writei_error hw, hs.writei_short hk hv hw⟩
    | ok y =>
      obtain ⟨r, ip, d⟩ := y
      obtain ⟨rfl, hwr⟩ := writei_done hs.owned (hs.on_disk hk hv) (hs.inode_noHoles hk hv) hdev hf hw
      have hip := hwr.inode
      have hd := hwr.through (hs.on_disk hk hv)
      refine congrArg (fun t => Except.ok (Io.done n, t)) (@store_set s k ip d _ _ ?_ ?_ ?_ fun j hj => ?_)
      · rw [hip]
        rfl
      · rw [hip]
      · rw [Disk.node, hd, Function.update_self, Dinode.vnode, hwr.content, hip]
        rfl
      · rw [Disk.node, hd, Function.update_of_ne hj, Dinode.vnode, (hwr.other hj (hs.noHoles j)).2]
        rfl
  · rw [if_neg (show ¬ (off.toNat ≤ _ ∧ _) from hf), writei_fail hdev hf]
    show Except.ok (_, s.store.setNode _ _) = Except.ok (_, Blocks.store { s.put k _ with disk := _ })
    rw [hself, hsame]

/-- **The disk and the cache do what the operations on contents say**, unless too few blocks are free. -/
theorem blockLayer_follows (sb : Superblock) (devsw : Fin NDEV → Bool) :
    (blockLayer sb devsw).Follows (storeLayer sb.ninodes devsw)
      (fun s t => Sound sb s ∧ s.store = t) (fun a s e => e = outOfBlocks ∧ a.Short sb s) where
  fault := rfl
  exec a s t h := by
    obtain ⟨hs, rfl⟩ := h
    have hx : Agrees (a.Short sb s) ((blockLayer sb devsw).exec a s) ((storeLayer sb.ninodes devsw).exec a s.store) := by
      cases a with
      | iget i => exact .of_map (store_iget s i)
      | idup k => exact .unit (store_idup s k)
      | ilock k => exact .unit (store_ilock s k)
      | iunlock k => exact .unit (store_iunlock s k)
      | fields k => exact store_fields hs k
      | iupdate k a b c => exact store_iupdate hs k a b c
      | iput k => exact .unit (store_iput hs k)
      | ialloc type => exact .of_map (store_ialloc s type)
      | readi k off n => exact store_readi hs k off n
      | writei k src off n => exact store_writei hs k src off n
    cases hr : (blockLayer sb devsw).exec a s with
    | error e =>
      rw [hr] at hx
      exact hx
    | ok x =>
      rw [hr] at hx
      exact ⟨_, hx, Sound.exec a s x.1 x.2 hs hr, rfl⟩

/-- The call comes to a write for which too few blocks are free. -/
def Sys.DiskFull (sb : Superblock) (devsw : Fin NDEV → Bool) (s : Sys Blocks) (p : Fin NPROC) (c : Call) : Prop :=
  ∃ pr, s.files.proc p = some pr ∧
    ∃ a t, (c.code s.files p pr).Reaches (blockLayer sb devsw) s.inodes a t ∧ a.Short sb t

theorem call_store (devsw : Fin NDEV → Bool) {s : Sys Blocks} (hs : Sound sb s.inodes) (p : Fin NPROC) (c : Call) :
    match s.call (blockLayer sb devsw) p c with
    | .ok (s', r) => Sound sb s'.inodes ∧
        Sys.call (storeLayer sb.ninodes devsw) ⟨s.files, s.inodes.store⟩ p c = .ok (⟨s'.files, s'.inodes.store⟩, r)
    | .error e => Sys.call (storeLayer sb.ninodes devsw) ⟨s.files, s.inodes.store⟩ p c = .error e ∨
        e = outOfBlocks ∧ s.DiskFull sb devsw p c := by
  unfold Sys.call
  cases hp : s.files.proc p with
  | none => exact .inl rfl
  | some pr =>
    have hrun := (blockLayer_follows sb devsw).run (c.code s.files p pr) ⟨hs, rfl⟩
    dsimp only
    cases hx : (c.code s.files p pr).run (blockLayer sb devsw) s.inodes with
    | error e =>
      rw [hx] at hrun
      refine hrun.imp (fun h => by rw [h]) ?_
      rintro ⟨a, t, ha, he, hshort⟩
      exact ⟨he, pr, hp, a, t, ha, hshort⟩
    | ok x =>
      rw [hx] at hrun
      obtain ⟨t, ht, hsound, rfl⟩ := hrun
      rw [ht]
      exact ⟨hsound, rfl⟩

/-- **The file system on blocks refines the file system on contents**: every run of system calls is one with the
same answers on contents, and a call that goes wrong, or waits for ever, does so there too, unless it comes to a
write that needs more blocks than are free. -/
theorem system_refines {d : Disk} (hd : Image sb d) {h : List ((Fin NPROC × Call) × ℤ)} {s : Sys Blocks}
    (hr : (system (blockLayer sb devsw) (.boot d)).Runs h s) :
    (system (storeLayer sb.ninodes devsw) (Blocks.boot d).store).Runs h ⟨s.files, s.inodes.store⟩ ∧
    ∀ p c e, s.call (blockLayer sb devsw) p c = .error e →
      Sys.call (storeLayer sb.ninodes devsw) ⟨s.files, s.inodes.store⟩ p c = .error e ∨
        e = outOfBlocks ∧ s.DiskFull sb devsw p c := by
  have hinv : Sound sb s.inodes ∧
      (system (storeLayer sb.ninodes devsw) (Blocks.boot d).store).Runs h ⟨s.files, s.inodes.store⟩ := by
    refine hr.invariant (P := fun h s => Sound sb s.inodes ∧
      (system (storeLayer sb.ninodes devsw) (Blocks.boot d).store).Runs h ⟨s.files, s.inodes.store⟩) ?_ ?_
    · exact ⟨hd.boot, .start⟩
    · rintro h s ⟨⟨p, c⟩, r⟩ s' - ⟨hs, hrun⟩ ⟨hen, hx⟩
      have hcall := call_store devsw hs p c
      have hx : s.call (blockLayer sb devsw) p c = .ok (s', r) := hx
      rw [hx] at hcall
      exact ⟨hcall.1, hrun.step ⟨hen, hcall.2⟩⟩
  refine ⟨hinv.2, fun p c e he => ?_⟩
  have hcall := call_store devsw hinv.1 p c
  rwa [he] at hcall

/-- Make a directory and a file in it, and write to the file. -/
def mkdirRun : List ((Fin NPROC × Call) × ℤ) :=
  [((0, .sysMkdir ⟨[0x64], by decide⟩), 0), ((0, .sysOpen ⟨[0x64, 0x2f, 0x65], by decide⟩ 0x202), 0),
    ((0, .sysWrite 0 (.ofNat 8) 3 0), 3)]

theorem system_refines_mkdir : ∃ s, (system (blockLayer tinySb fun _ => false) (.boot rootDisk)).Runs mkdirRun.reverse s ∧
    (system (storeLayer tinySb.ninodes fun _ => false) (Blocks.boot rootDisk).store).Runs mkdirRun.reverse
      ⟨s.files, s.inodes.store⟩ := by
  obtain ⟨s, hr, -⟩ := (system (blockLayer tinySb fun _ => false) (.boot rootDisk)).exists_runs mkdirRun
    (fun _ => true) (by decide +kernel)
  exact ⟨s, hr, (system_refines image_rootDisk hr).1⟩

end Xv6.Fs
