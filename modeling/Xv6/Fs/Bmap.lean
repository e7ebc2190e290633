import Xv6.Fs.Itrunc
import Xv6.Lib.Bytes

/-!
# `fs.c`: the content of an inode

`balloc`, `bmap`, `readi` and `writei`. The areas of the disk are kept apart: the free map, the
inodes on disk and the blocks of data are three functions. The calls of `bread` and `log_write` are left
open: the budget of a transaction looks at them, the rest does not. That the numbers stored in inodes
stay inside the area of the data blocks, which makes this a fair picture, is shown in `Xv6.Fs.Own`.
-/

namespace Xv6.Fs

open Lib Log

/-- The size of a file in blocks is at most this. -/
abbrev MAXFILE : ℕ := NDIRECT + NINDIRECT
abbrev IPB : ℕ := BSIZE / 64
abbrev BPB : ℕ := BSIZE * 8
abbrev NDEV : ℕ := 10

abbrev T_DIR : Short := 1
abbrev T_FILE : Short := 2
abbrev T_DEV : Short := 3

/-- `struct superblock`, without the number of data blocks. -/
structure Superblock where
  size : Word
  ninodes : Word
  nlog : Word
  logstart : Word
  inodestart : Word
  bmapstart : Word

/-- The block holds data: it is on the disk, and not the boot block, the super block, or a block of
the log, of inodes or of the free map. -/
def Superblock.inData (sb : Superblock) (b : BlockNo) : Prop :=
  b.toNat < sb.size.toNat ∧ b ≠ 0 ∧ b ≠ 1 ∧
    ¬ (sb.logstart.toNat ≤ b.toNat ∧ b.toNat < sb.logstart.toNat + sb.nlog.toNat) ∧
    ¬ (sb.inodestart.toNat ≤ b.toNat ∧
      b.toNat < sb.inodestart.toNat + (sb.ninodes.toNat / IPB + 1)) ∧
    ¬ (sb.bmapstart.toNat ≤ b.toNat ∧ b.toNat < sb.bmapstart.toNat + (sb.size.toNat / BPB + 1))

/-- `BBLOCK`: the block of the free map that has the bit of `b`. -/
def Superblock.bblock (sb : Superblock) (b : BlockNo) : BlockNo := .ofNat 32 (b.toNat / BPB) + sb.bmapstart

/-- `IBLOCK`: the block that has the inode `i`. -/
def Superblock.iblock (sb : Superblock) (i : Word) : BlockNo := .ofNat 32 (i.toNat / IPB) + sb.inodestart

def bzero (d : Disk) (b : BlockNo) : Disk := { d with data := Function.update d.data b fun _ => 0 }

/-- What `readi` and `writei` answer. -/
inductive Io (α : Type)
  /-- `-1`. -/
  | fail
  /-- The call goes to a device driver. -/
  | device
  | done (a : α)
  deriving DecidableEq

def hasDriver (devsw : Fin NDEV → Bool) (major : Short) : Bool :=
  if h : 0 ≤ major.toInt ∧ major.toInt < NDEV then devsw ⟨major.toInt.toNat, by omega⟩ else false

/-! ### The functions with their buffers -/

/-- What `fs.c` calls of the buffer cache and the log, in programs of the kind `m`. -/
structure Buffers (m : Type → Type) where
  bread : BlockNo → m Unit
  logWrite : BlockNo → m Unit

namespace Buffers

variable {m : Type → Type} [Monad m] [MonadExceptOf Fault m] (io : Buffers m) (sb : Superblock)

def bzero (d : Disk) (b : BlockNo) : m Disk := do
  io.bread b
  io.logWrite b
  pure (Fs.bzero d b)

/-- `balloc`: the first block that is free. The free map is read up to its bit. -/
def balloc (d : Disk) : m (BlockNo × Disk) :=
  match (List.range sb.size.toNat).find? fun b => !d.used (.ofNat 32 b) with
  | none => do
    (List.range ((sb.size.toNat + (BPB - 1)) / BPB)).forM fun i => io.bread (.ofNat 32 i + sb.bmapstart)
    throw (.panic "balloc: out of blocks")
  | some b => do
    (List.range (b / BPB + 1)).forM fun i => io.bread (.ofNat 32 i + sb.bmapstart)
    let b : BlockNo := .ofNat 32 b
    io.logWrite (sb.bblock b)
    let d ← io.bzero { d with used := Function.update d.used b true } b
    pure (b, d)

def bmap (ip : Inode) (d : Disk) (bn : ℕ) : m (BlockNo × Inode × Disk) :=
  if h : bn < NDIRECT then
    let i : Fin (NDIRECT + 1) := ⟨bn, Nat.lt_succ_of_lt h⟩
    if ip.addrs i = 0 then do
      let (addr, d) ← io.balloc sb d
      pure (addr, { ip with addrs := Function.update ip.addrs i addr }, d)
    else pure (ip.addrs i, ip, d)
  else
    let bn := bn - NDIRECT
    if h : bn < NINDIRECT then do
      let i := Fin.last NDIRECT
      let (ip, d) ←
        if ip.addrs i = 0 then do
          let (addr, d) ← io.balloc sb d
          pure ({ ip with addrs := Function.update ip.addrs i addr }, d)
        else pure (ip, d)
      let ind := ip.addrs i
      io.bread ind
      let a := d.data ind
      if a ⟨bn, h⟩ = 0 then do
        let (addr, d) ← io.balloc sb d
        -- `a` is the buffer of the indirect block, held across `balloc`
        io.logWrite ind
        pure (addr, ip, { d with data := Function.update d.data ind (Function.update a ⟨bn, h⟩ addr) })
      else pure (a ⟨bn, h⟩, ip, d)
    else throw (.panic "bmap: out of range")

/-- The loop of `writei`: the bytes `src` go to `off` and after. -/
def writeLoop : ℕ → Inode → Disk → ℕ → List Byte → m (Inode × Disk)
  | _, ip, d, _, [] => pure (ip, d)
  | 0, _, _, _, _ :: _ => throw .loop
  | fuel + 1, ip, d, off, x :: src => do
    let (b, ip, d) ← io.bmap sb ip d (off / BSIZE)
    io.bread b
    let n := min (src.length + 1) (BSIZE - off % BSIZE)
    let d := { d with
      data := Function.update d.data b (copyIn (d.data b) (off % BSIZE) ((x :: src).take n)) }
    io.logWrite b
    writeLoop fuel ip d (off + n) ((x :: src).drop n)

def iupdate (ip : Inode) (d : Disk) : m Disk := do
  io.bread (sb.iblock ip.inum)
  io.logWrite (sb.iblock ip.inum)
  pure (Fs.iupdate ip d)

/-- `writei`; `src` is the memory from the address `src` on. -/
def writei (devsw : Fin NDEV → Bool) (ip : Inode) (d : Disk) (src : ℕ → Byte) (off n : Word) :
    m (Io Word × Inode × Disk) :=
  if ip.type = T_DEV then pure (if hasDriver devsw ip.major then .device else .fail, ip, d)
  else if off > ip.size ∨ off + n < off then pure (.fail, ip, d)
  else if off + n > .ofNat 32 (MAXFILE * BSIZE) then pure (.fail, ip, d)
  else do
    let (ip, d) ← io.writeLoop sb n.toNat ip d off.toNat ((List.range n.toNat).map src)
    if n > 0 ∧ off + n > ip.size then do
      let ip := { ip with size := off + n }
      let d ← io.iupdate sb ip d
      pure (.done n, ip, d)
    else pure (.done n, ip, d)

end Buffers

/-! ### The functions without them -/

/-- Buffers that are not looked at. -/
def quiet : Buffers (Except Fault) := ⟨fun _ => .ok (), fun _ => .ok ()⟩

section quiet

variable (sb : Superblock) (ip : Inode) (d : Disk)

def balloc : Except Fault (BlockNo × Disk) := quiet.balloc sb d

def bmap (bn : ℕ) : Except Fault (BlockNo × Inode × Disk) := quiet.bmap sb ip d bn

def writeLoop (fuel : ℕ) (ip : Inode) (d : Disk) (off : ℕ) (src : List Byte) : Except Fault (Inode × Disk) :=
  quiet.writeLoop sb fuel ip d off src

def writei (devsw : Fin NDEV → Bool) (ip : Inode) (d : Disk) (src : ℕ → Byte) (off n : Word) :
    Except Fault (Io Word × Inode × Disk) := quiet.writei sb devsw ip d src off n

theorem quiet_forM {α : Type} (l : List α) (f : α → BlockNo) :
    (l.forM fun i => quiet.bread (f i)) = (.ok () : Except Fault PUnit) := by
  induction l with
  | nil => rfl
  | cons a l ih => exact ih

theorem balloc_eq : balloc sb d =
    match (List.range sb.size.toNat).find? fun b => !d.used (.ofNat 32 b) with
    | none => .error (.panic "balloc: out of blocks")
    | some b => .ok (.ofNat 32 b, bzero { d with used := Function.update d.used (.ofNat 32 b) true } (.ofNat 32 b)) := by
  unfold balloc Buffers.balloc
  split
  · rw [quiet_forM]
    rfl
  · rw [quiet_forM]
    rfl

theorem bmap_eq (bn : ℕ) : bmap sb ip d bn =
    if h : bn < NDIRECT then
      if ip.addrs ⟨bn, Nat.lt_succ_of_lt h⟩ = 0 then do
        let (addr, d) ← balloc sb d
        pure (addr, { ip with addrs := Function.update ip.addrs ⟨bn, Nat.lt_succ_of_lt h⟩ addr }, d)
      else pure (ip.addrs ⟨bn, Nat.lt_succ_of_lt h⟩, ip, d)
    else if h : bn - NDIRECT < NINDIRECT then do
      let (ip, d) ←
        if ip.addrs (Fin.last NDIRECT) = 0 then do
          let (addr, d) ← balloc sb d
          pure ({ ip with addrs := Function.update ip.addrs (Fin.last NDIRECT) addr }, d)
        else pure (ip, d)
      let a := d.data (ip.addrs (Fin.last NDIRECT))
      if a ⟨bn - NDIRECT, h⟩ = 0 then do
        let (addr, d) ← balloc sb d
        pure (addr, ip, { d with
          data := Function.update d.data (ip.addrs (Fin.last NDIRECT)) (Function.update a ⟨bn - NDIRECT, h⟩ addr) })
      else pure (a ⟨bn - NDIRECT, h⟩, ip, d)
    else .error (.panic "bmap: out of range") := rfl

theorem writeLoop_cons (fuel off : ℕ) (x : Byte) (src : List Byte) : writeLoop sb (fuel + 1) ip d off (x :: src) = (do
    let (b, ip, d) ← bmap sb ip d (off / BSIZE)
    let n := min (src.length + 1) (BSIZE - off % BSIZE)
    writeLoop sb fuel ip { d with
      data := Function.update d.data b (copyIn (d.data b) (off % BSIZE) ((x :: src).take n)) }
      (off + n) ((x :: src).drop n)) := rfl

theorem writei_eq (devsw : Fin NDEV → Bool) (src : ℕ → Byte) (off n : Word) : writei sb devsw ip d src off n =
    if ip.type = T_DEV then .ok (if hasDriver devsw ip.major then .device else .fail, ip, d)
    else if off > ip.size ∨ off + n < off then .ok (.fail, ip, d)
    else if off + n > .ofNat 32 (MAXFILE * BSIZE) then .ok (.fail, ip, d)
    else (do
      let (ip, d) ← writeLoop sb n.toNat ip d off.toNat ((List.range n.toNat).map src)
      if n > 0 ∧ off + n > ip.size then
        pure (.done n, { ip with size := off + n }, iupdate { ip with size := off + n } d)
      else pure (.done n, ip, d)) := rfl

end quiet

/-- The loop of `readi`: `n` bytes from `off` on. -/
def readLoop (sb : Superblock) :
    ℕ → Inode → Disk → ℕ → ℕ → Except Fault (List Byte × Inode × Disk)
  | _, ip, d, _, 0 => .ok ([], ip, d)
  | 0, _, _, _, _ + 1 => .error .loop
  | fuel + 1, ip, d, off, n + 1 => do
    let (b, ip, d) ← bmap sb ip d (off / BSIZE)
    let m := min (n + 1) (BSIZE - off % BSIZE)
    let bytes := copyOut (d.data b) (off % BSIZE) m
    let (rest, ip, d) ← readLoop sb fuel ip d (off + m) (n + 1 - m)
    pure (bytes ++ rest, ip, d)

def readi (sb : Superblock) (devsw : Fin NDEV → Bool) (ip : Inode) (d : Disk) (off n : Word) :
    Except Fault (Io (List Byte) × Inode × Disk) :=
  if ip.type = T_DEV then .ok (if hasDriver devsw ip.major then .device else .fail, ip, d)
  else if off > ip.size ∨ off + n < off then .ok (.fail, ip, d)
  else do
    let n := if off + n > ip.size then ip.size - off else n
    let (bytes, ip, d) ← readLoop sb n.toNat ip d off.toNat n.toNat
    pure (.done bytes, ip, d)

end Xv6.Fs
