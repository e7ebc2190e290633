import Xv6.Fs.Entries
import Xv6.Fs.Bmap
import Xv6.Ide.Code

/-!
# `mkfs.c`

The program that writes the first image of the disk. It keeps the areas of the disk apart as `fs.c` does, and has two
counters: `freeinode`, and `freeblock`, the first block that it has not given away. A read past the end of the image
fails, and that is how a file system that is too large ends. Nothing stops it at the end of the blocks of inodes,
where it goes on into the free map; the picture of areas that are apart is a fair one only for as many files as the
blocks of inodes have room for.
-/

namespace Xv6.Mkfs

open Lib Fs Log Ide

abbrev NINODES : ℕ := 200
abbrev nbitmap : ℕ := FSSIZE / (BSIZE * 8) + 1
abbrev ninodeblocks : ℕ := NINODES / IPB + 1
abbrev nlog : ℕ := LOGSIZE
abbrev nmeta : ℕ := 2 + nlog + ninodeblocks + nbitmap

def superblock : Superblock where
  size := .ofNat 32 FSSIZE
  ninodes := .ofNat 32 NINODES
  nlog := .ofNat 32 nlog
  logstart := .ofNat 32 2
  inodestart := .ofNat 32 (2 + nlog)
  bmapstart := .ofNat 32 (2 + nlog + ninodeblocks)

/-- How `mkfs` may end before it is done. -/
inductive Stop
  /-- An assertion fails. -/
  | assert
  /-- `exit(1)`, after a read that fails. -/
  | exit
  /-- The loop has no more turns; this does not happen. -/
  | loop

structure State where
  disk : Disk
  freeinode : ℕ
  freeblock : ℕ

def State.boot : State where
  disk := ⟨fun _ => { type := 0, nlink := 0, addrs := fun _ => 0 }, fun _ => false, fun _ _ => 0⟩
  freeinode := 1
  freeblock := nmeta

def rsect (sec : BlockNo) (s : State) : Except Stop Block :=
  if sec.toNat < FSSIZE then .ok (s.disk.data sec) else .error .exit

def wsect (sec : BlockNo) (buf : Block) (s : State) : State :=
  { s with disk := { s.disk with data := Function.update s.disk.data sec buf } }

def rinode (inum : ℕ) (s : State) : Dinode := s.disk.dinode (.ofNat 32 inum)

def winode (inum : ℕ) (din : Dinode) (s : State) : State :=
  { s with disk := { s.disk with dinode := Function.update s.disk.dinode (.ofNat 32 inum) din } }

def ialloc (type : Short) (s : State) : ℕ × State :=
  let inum := s.freeinode
  (inum, winode inum { type := type, nlink := 1, addrs := fun _ => 0 } { s with freeinode := inum + 1 })

/-- The number at `addrs[i]`, which is `freeblock++` if there is none. -/
def assign (i : Fin (NDIRECT + 1)) (din : Dinode) (s : State) : Dinode × State :=
  if din.addrs i = 0 then
    ({ din with addrs := Function.update din.addrs i (.ofNat 32 s.freeblock) }, { s with freeblock := s.freeblock + 1 })
  else (din, s)

/-- The part of `iappend` that finds the block `fbn` of the file. -/
def mapBlock (din : Dinode) (s : State) (fbn : ℕ) : Except Stop (BlockNo × Dinode × State) :=
  if h : fbn < NDIRECT then
    let i : Fin (NDIRECT + 1) := ⟨fbn, Nat.lt_succ_of_lt h⟩
    let (din, s) := assign i din s
    .ok (din.addrs i, din, s)
  else if h : fbn - NDIRECT < NINDIRECT then do
    let (din, s) := assign (Fin.last NDIRECT) din s
    let indirect ← rsect (din.addrs (Fin.last NDIRECT)) s
    if indirect ⟨fbn - NDIRECT, h⟩ = 0 then
      let x : BlockNo := .ofNat 32 s.freeblock
      pure (x, din, wsect (din.addrs (Fin.last NDIRECT)) (Function.update indirect ⟨fbn - NDIRECT, h⟩ x)
        { s with freeblock := s.freeblock + 1 })
    else pure (indirect ⟨fbn - NDIRECT, h⟩, din, s)
  else .error .assert

/-- The loop of `iappend`: the bytes go to `off` and after. -/
def appendLoop : ℕ → Dinode → State → ℕ → List Byte → Except Stop (Dinode × State)
  | _, din, s, _, [] => .ok (din, s)
  | 0, _, _, _, _ :: _ => .error .loop
  | fuel + 1, din, s, off, x :: p => do
    let (b, din, s) ← mapBlock din s (off / BSIZE)
    let n1 := min (p.length + 1) (BSIZE - off % BSIZE)
    let buf ← rsect b s
    appendLoop fuel din (wsect b (copyIn buf (off % BSIZE) ((x :: p).take n1)) s) (off + n1) ((x :: p).drop n1)

def iappend (inum : ℕ) (p : List Byte) (s : State) : Except Stop State := do
  let din := rinode inum s
  let off := din.size.toNat
  let (din, s) ← appendLoop p.length din s off p
  pure (winode inum { din with size := .ofNat 32 (off + p.length) } s)

/-- `balloc`: the free map, with the first blocks marked. -/
def balloc (used : ℕ) (s : State) : Except Stop State :=
  if used < BSIZE * 8 then
    .ok { s with disk := { s.disk with
      used := (List.range used).foldl (fun u i => Function.update u (.ofNat 32 i) true) fun _ => false } }
  else .error .assert

/-- A file that goes into the image: the argument that names it, and what the calls of `read` answer. -/
structure Arg where
  name : List Byte
  reads : List (List Byte)

/-- The name in the image: a leading `_` is skipped. -/
def Arg.fileName (a : Arg) : List Byte := if a.name.head? = some 0x5f then a.name.tail else a.name

/-- The buffers up to the first read that answers nothing. -/
def Arg.buffers (a : Arg) : List (List Byte) := a.reads.takeWhile (· ≠ [])

/-- One turn of the loop of `main`. -/
def addFile (s : State) (a : Arg) : Except Stop State :=
  if a.name.contains slash then .error .assert
  else do
    let (inum, s) := ialloc T_FILE s
    let s ← iappend ROOTINO (newEntry a.fileName (.ofNat 32 inum)).toBytes s
    a.buffers.foldlM (fun s buf => iappend inum buf s) s

/-- `main`, before it fixes the size of the root directory. -/
def build (args : List Arg) : Except Stop State := do
  let (rootino, s) := ialloc T_DIR .boot
  let s ← iappend rootino (newEntry dot (.ofNat 32 rootino)).toBytes s
  let s ← iappend rootino (newEntry dotdot (.ofNat 32 rootino)).toBytes s
  args.foldlM addFile s

def main (args : List Arg) : Except Stop State := do
  let s ← build args
  let din := rinode ROOTINO s
  let s := winode ROOTINO { din with size := .ofNat 32 ((din.size.toNat / BSIZE + 1) * BSIZE) } s
  balloc s.freeblock s

end Xv6.Mkfs
