import Mathlib.Algebra.Ring.Int.Defs
import Mathlib.Algebra.Ring.Nat
import Mathlib.Data.Fintype.EquivFin
import Mathlib.Data.Int.Notation

/-!
The constants of `param.h`, `proc.h` and `fs.h`, the machine word, and the ways in which a piece
of the kernel can go wrong.
-/

namespace Xv6

/-! ### `param.h`, `proc.h`, `fs.h` -/

/-- Maximum number of processes. -/
abbrev NPROC : ℕ := 64
/-- Number of ready queues of the multi-level feedback scheduler. -/
abbrev NUM_QUEUES : ℕ := 5
/-- Ticks after which a waiting process is moved up one queue. -/
abbrev AGE_LIMIT : ℕ := 30
/-- Maximum number of blocks one file system operation writes. -/
abbrev MAXOPBLOCKS : ℕ := 10
/-- Maximum number of data blocks in the on-disk log. -/
abbrev LOGSIZE : ℕ := MAXOPBLOCKS * 3
/-- Bytes in a disk block. -/
abbrev BSIZE : ℕ := 512
/-- Number of block addresses in an inode. -/
abbrev NDIRECT : ℕ := 12
/-- Number of block addresses in an indirect block. -/
abbrev NINDIRECT : ℕ := BSIZE / 4
/-- Length of a name in a directory. -/
abbrev DIRSIZ : ℕ := 14
/-- The inode of the root directory. -/
abbrev ROOTINO : ℕ := 1
/-- Open files per process. -/
abbrev NOFILE : ℕ := 16
/-- Open files per system. -/
abbrev NFILE : ℕ := 100
/-- Maximum number of cached inodes. -/
abbrev NINODE : ℕ := 50
/-- Maximum number of `exec` arguments. -/
abbrev MAXARG : ℕ := 32

-- the sizes of the tables are positive, so that their indices can be written as numbers
instance neZero_two : NeZero 2 := ⟨by decide⟩
instance neZero_queues : NeZero NUM_QUEUES := ⟨by decide⟩
instance (priority := high) neZero_addrs : NeZero (NDIRECT + 1) := ⟨by decide⟩
instance neZero_ustack : NeZero 36 := ⟨by decide⟩
instance neZero_inodes : NeZero NINODE := ⟨by decide⟩
instance neZero_procs : NeZero NPROC := ⟨by decide⟩
instance neZero_block : NeZero 128 := ⟨by decide⟩
instance neZero_pipe : NeZero BSIZE := ⟨by decide⟩
instance neZero_page : NeZero 1024 := ⟨by decide⟩

/-- A 32-bit machine word, the representation of `int`, `uint` and pointers alike. -/
abbrev Word := BitVec 32

abbrev Short := BitVec 16

/-- A count below `2 ^ 31` is read back by signed arithmetic. -/
theorem word_toInt {n : ℕ} (h : n < 2 ^ 31) : (BitVec.ofNat 32 n).toInt = n := by
  have hn : (BitVec.ofNat 32 n).toNat = n := by
    rw [BitVec.toNat_ofNat, Nat.mod_eq_of_lt (by omega)]
  rw [BitVec.toInt_eq_toNat_of_lt (by omega), hn]

theorem word_sub {n r : ℕ} (h : r ≤ n) :
    BitVec.ofNat 32 n - BitVec.ofNat 32 r = BitVec.ofNat 32 (n - r) := by
  conv_lhs => rw [← Nat.sub_add_cancel h, BitVec.ofNat_add]
  exact BitVec.add_sub_cancel _ _

/-- How a piece of the kernel can go wrong. -/
inductive Fault
  /-- A null pointer is followed. -/
  | null
  /-- An array is indexed outside its bounds. -/
  | bounds
  /-- A loop has not ended within its bound. -/
  | loop
  /-- An inode is used by a piece of code that has no reference to it, or has not locked it. -/
  | stale
  /-- A lock is waited for by the one who holds it. -/
  | deadlock
  /-- `panic(msg)`. -/
  | panic (msg : String)
  deriving DecidableEq

end Xv6
