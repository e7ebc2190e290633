import Xv6.Syscall.Path
import Xv6.Process.Table

/-!
# The system calls

What every system call does with user memory: the arguments that it fetches, the strings that it
goes through and the buffers that it copies from and to. What the rest of the kernel says to a call
(the open files, the file tree, the process table, what `exec` finds in a file) is given by an
environment; a call that has done its last access returns what the environment says.
-/

namespace Xv6.Syscall

open Lib Process

abbrev PGSIZE : Word := 4096
/-- The mode bit of `open` for a new file. -/
abbrev O_CREATE : Word := 0x200

/-! ### The environment -/

/-- `struct stat`, without padding. -/
structure Stat where
  type : BitVec 16
  dev : Word
  ino : Word
  nlink : BitVec 16
  size : Word

/-- What is behind an open file. -/
inductive FileKind
  /-- A pipe: the bytes that a reader finds, if it is not killed before, and how many bytes a writer
  gets in. -/
  | pipe (found : Option (List Byte)) (room : ℕ)
  /-- The console: the bytes that arrive before the reader is killed. -/
  | console (st : Stat) (input : List Byte)
  /-- A device without a driver. -/
  | noDev (st : Stat)
  /-- A file or directory: the contents and the offset. -/
  | inode (st : Stat) (off : Word) (data : Word → Byte)

structure File where
  readable : Bool
  writable : Bool
  kind : FileKind

/-- What a system call finds. -/
structure Env (N : Type) extends Frame where
  eax : Word
  ofile : Fin NOFILE → Option File
  tree : Tree N
  sched : Sched
  proc : ProcId → Proc
  /-- The child that `waitx` reaps. -/
  child : Option ProcId
  /-- The size of the image that `exec` loads, if it can. -/
  image : Option Word
  /-- The pages of that image. -/
  mapped : Word → Bool
  pipealloc : Bool
  /-- What a call returns after its last access. -/
  ret : Word

/-! ### Copying -/

/-- The bytes of a file from `off` on. -/
def chunk (data : Word → Byte) (off : Word) (n : ℕ) : List Byte :=
  (List.range n).map fun i => data (off + .ofNat 32 i)

/-- `min(n - tot, BSIZE - off%BSIZE)`, the part of a copy that is in one block. -/
def inBlock (n tot off : Word) : Word :=
  if n - tot < 512 - off % 512 then n - tot else 512 - off % 512

/-- The loop of `readi` and `writei`, block by block; `body` copies `k` bytes at the file offset `off`
and the address `p`. -/
def blockLoop (body : (off p k : Word) → UserM Unit) (n off p : Word) : UserM Word :=
  Prog.loop .loop (fun (tot, off, p) =>
    if tot < n then do
      let k := inBlock n tot off
      body off p k
      pure (.inl (tot + k, off + k, p + k))
    else pure (.inr n)) fuel (0, off, p)

/-- `readi` for a file or directory. -/
def readi (data : Word → Byte) (size dst off n : Word) : UserM Word :=
  if off > size ∨ off + n < off then pure (-1)
  else
    let n := if off + n > size then size - off else n
    blockLoop (fun off dst k => stores dst (chunk data off k.toNat)) n off dst

/-- `writei` for a file or directory. -/
def writei (size src off n : Word) : UserM Word :=
  if off > size ∨ off + n < off then pure (-1)
  else if off + n > (12 + 128) * 512 then pure (-1)
  else blockLoop (fun _ src k => do let _ ← loads src k.toNat) n off src

/-- `piperead`, past the wait for the first byte. -/
def piperead (found : List Byte) (addr n : Word) : UserM Word :=
  Prog.loop .loop (fun (i, bs) =>
    if i.toInt < n.toInt then
      match bs with
      | [] => pure (.inr i)
      | b :: bs => do
        store (addr + i) b
        pure (.inl (i + 1, bs))
    else pure (.inr i)) fuel (0, found)

def pipewrite (room : ℕ) (addr n : Word) : UserM Word :=
  Prog.loop .loop (fun i =>
    if i.toInt < n.toInt then
      if i.toNat < room then do
        let _ ← load (addr + i)
        pure (.inl (i + 1))
      else pure (.inr (-1))
    else pure (.inr n)) fuel 0

def consoleread (input : List Byte) (dst n : Word) : UserM Word :=
  Prog.loop .loop (fun (dst, left, bs) =>
    if left.toInt > 0 then
      match bs with
      | [] => pure (.inr (-1))
      | b :: bs =>
        if b = 4 then pure (.inr (n - left))
        else do
          store dst b
          if b = 10 then pure (.inr (n - (left - 1))) else pure (.inl (dst + 1, left - 1, bs))
    else pure (.inr (n - left))) fuel (dst, n, input)

def consolewrite (buf n : Word) : UserM Word :=
  Prog.loop .loop (fun i =>
    if i.toInt < n.toInt then do
      let _ ← load (buf + i)
      pure (.inl (i + 1))
    else pure (.inr n)) fuel 0

def fileread (f : File) (addr n : Word) : UserM Word :=
  if f.readable = false then pure (-1)
  else
    match f.kind with
    | .pipe none _ => pure (-1)
    | .pipe (some found) _ => piperead found addr n
    | .console _ input => consoleread input addr n
    | .noDev _ => pure (-1)
    | .inode st off data => readi data st.size addr off n

/-- `writei` for anything but a pipe. -/
def writeInode (kind : FileKind) (size src off n : Word) : UserM Word :=
  match kind with
  | .console _ _ => consolewrite src n
  | .inode _ _ _ => writei size src off n
  | _ => pure (-1)

/-- One turn of the loop of `filewrite`: `i` bytes have been written, and the offset and the size of
the file have grown with them. -/
def filewriteTurn (kind : FileKind) (addr n : Word) : Word × Word × Word →
    UserM ((Word × Word × Word) ⊕ Word)
  | (i, off, size) =>
    if i.toInt < n.toInt then do
      let n1 := if (n - i).toInt > 1536 then 1536 else n - i
      let r ← writeInode kind size (addr + i) off n1
      if r.toInt < 0 then pure (.inr (-1))
      else if r ≠ n1 then throw (.panic "short filewrite")
      else
        let off := off + r
        pure (.inl (i + r, off, if size < off then off else size))
    else pure (.inr (if i = n then n else -1))

def filewrite (f : File) (addr n : Word) : UserM Word :=
  if f.writable = false then pure (-1)
  else
    match f.kind with
    | .pipe _ room => pipewrite room addr n
    | .console st input => Prog.loop .loop (filewriteTurn (.console st input) addr n) fuel (0, 0, 0)
    | .noDev st => Prog.loop .loop (filewriteTurn (.noDev st) addr n) fuel (0, 0, 0)
    | .inode st off data =>
      Prog.loop .loop (filewriteTurn (.inode st off data) addr n) fuel (0, off, st.size)

/-- `filestat`, with the stores of `stati` at the offsets of the fields. -/
def filestat (f : File) (addr : Word) : UserM Word :=
  let stati (st : Stat) : UserM Word := do
    storeInt (addr + 4) st.dev
    storeInt (addr + 8) st.ino
    stores addr [st.type.extractLsb' 0 8, st.type.extractLsb' 8 8]
    stores (addr + 12) [st.nlink.extractLsb' 0 8, st.nlink.extractLsb' 8 8]
    storeInt (addr + 16) st.size
    pure 0
  match f.kind with
  | .pipe _ _ => pure (-1)
  | .console st _ | .noDev st | .inode st _ _ => stati st

/-! ### `exec` -/

/-- `copyout`: the reads from `p`. -/
def copyout (mapped : Word → Bool) (va p len : Word) : UserM Bool :=
  Prog.loop .loop (fun (va, p, len) =>
    if len > 0 then
      let va0 := va - va % PGSIZE
      if mapped va0 = false then pure (.inr false)
      else do
        let n := if PGSIZE - (va - va0) > len then len else PGSIZE - (va - va0)
        let _ ← loads p n.toNat
        pure (.inl (va0 + PGSIZE, p + n, len - n))
    else pure (.inr true)) fuel (va, p, len)

/-- The loop of `exec` that pushes the argument strings; `argc` of them have been pushed. -/
def pushArgs (mapped : Word → Bool) : List Word → ℕ → Word → UserM Bool
  | [], _, _ => pure true
  | a :: argv, argc, sp =>
    if argc ≥ MAXARG then pure false
    else do
      let n ← strlen a
      let sp := (sp - (n + 1)) &&& ~~~3
      let n ← strlen a
      let ok ← copyout mapped sp a (n + 1)
      if ok then pushArgs mapped argv (argc + 1) sp else pure false

variable {N : Type} (c : Env N)

/-- `exec`. The program name is copied into `name[16]`. -/
def exec (path : Word) (argv : List Word) : UserM Word := do
  let some _ ← namei c.tree path | pure (-1)
  match c.image with
  | none => pure (-1)
  | some sp =>
    let ok ← pushArgs c.mapped argv 0 sp
    if ok then
      let last ← lastElem path
      safestrcpy last 16
      pure c.ret
    else pure (-1)

/-! ### The calls -/

/-- `argfd`: the file. A negative descriptor is not below `NOFILE` as an unsigned number either. -/
def argfd (n : Word) : UserM (Option File) := do
  let some fd ← argint c.toFrame n | pure none
  if h : fd.toNat < NOFILE then pure (c.ofile ⟨fd.toNat, h⟩) else pure none

/-- `fdalloc`: the first free descriptor. -/
def fdalloc (ofile : Fin NOFILE → Bool) : Option (Fin NOFILE) :=
  (List.finRange NOFILE).find? fun fd => !ofile fd

/-- `create`: all that it does with user memory is the lookup of the parent. -/
def create (path : Word) : UserM Bool := do
  let dp ← nameiparent c.tree path
  pure dp.isSome

/-- A call that fetches one `int`. -/
def sysInt : UserM Word := do
  let some _ ← argint c.toFrame 0 | pure (-1)
  pure c.ret

def sysKill : UserM Word := sysInt c
def sysSbrk : UserM Word := sysInt c
def sysSleep : UserM Word := sysInt c
def sysSetPriority : UserM Word := sysInt c

/-- A call that fetches one descriptor. -/
def sysFd : UserM Word := do
  let some _ ← argfd c 0 | pure (-1)
  pure c.ret

def sysDup : UserM Word := sysFd c
def sysClose : UserM Word := sysFd c

/-- A call that moves bytes between a file and a buffer. -/
def sysTransfer (f : File → Word → Word → UserM Word) : UserM Word := do
  let some file ← argfd c 0 | pure (-1)
  let some n ← argint c.toFrame 2 | pure (-1)
  let some p ← argptr c.toFrame 1 n | pure (-1)
  f file p n

def sysRead : UserM Word := sysTransfer c fileread
def sysWrite : UserM Word := sysTransfer c filewrite

/-- `sys_fstat`, with `sizeof(struct stat) = 20`. -/
def sysFstat : UserM Word := do
  let some f ← argfd c 0 | pure (-1)
  let some st ← argptr c.toFrame 1 20 | pure (-1)
  filestat f st

def sysLink : UserM Word := do
  let some old ← argstr c.toFrame 0 | pure (-1)
  let some new ← argstr c.toFrame 1 | pure (-1)
  let some (ip, _) ← namei c.tree old | pure (-1)
  if c.tree.isDir ip then pure (-1)
  else
    let some _ ← nameiparent c.tree new | pure (-1)
    pure c.ret

def sysUnlink : UserM Word := do
  let some path ← argstr c.toFrame 0 | pure (-1)
  let some _ ← nameiparent c.tree path | pure (-1)
  pure c.ret

def sysOpen : UserM Word := do
  let some path ← argstr c.toFrame 0 | pure (-1)
  let some omode ← argint c.toFrame 1 | pure (-1)
  if omode &&& O_CREATE ≠ 0 then
    let ok ← create c path
    pure (if ok then c.ret else -1)
  else
    let some _ ← namei c.tree path | pure (-1)
    pure c.ret

def sysMkdir : UserM Word := do
  let some path ← argstr c.toFrame 0 | pure (-1)
  let ok ← create c path
  pure (if ok then c.ret else -1)

def sysMknod : UserM Word := do
  let some path ← argstr c.toFrame 0 | pure (-1)
  let some _ ← argint c.toFrame 1 | pure (-1)
  let some _ ← argint c.toFrame 2 | pure (-1)
  let ok ← create c path
  pure (if ok then c.ret else -1)

def sysChdir : UserM Word := do
  let some path ← argstr c.toFrame 0 | pure (-1)
  let some _ ← namei c.tree path | pure (-1)
  pure c.ret

/-- The loop of `sys_exec` over the argument vector: the pointers found, or a failure. -/
def fetchArgv (uargv : Word) : UserM (Option (List Word)) :=
  Prog.loop .loop (fun (i, argv) =>
    if i ≥ MAXARG then pure (.inr none)
    else do
      let some uarg ← fetchint c.toFrame (uargv + 4 * .ofNat 32 i) | pure (.inr none)
      if uarg = 0 then pure (.inr (some argv))
      else
        let some _ ← fetchstr c.toFrame uarg | pure (.inr none)
        pure (.inl (i + 1, argv ++ [uarg]))) fuel (0, [])

def sysExec : UserM Word := do
  let some path ← argstr c.toFrame 0 | pure (-1)
  let some uargv ← argint c.toFrame 1 | pure (-1)
  let some argv ← fetchArgv c uargv | pure (-1)
  exec c path argv

/-- `sys_pipe`, with `2*sizeof(fd[0]) = 8`. -/
def sysPipe : UserM Word := do
  let some fd ← argptr c.toFrame 0 8 | pure (-1)
  if c.pipealloc = false then pure (-1)
  else
    let used fd := (c.ofile fd).isSome
    match fdalloc used with
    | none => pure (-1)
    | some fd0 =>
      match fdalloc (Function.update used fd0 true) with
      | none => pure (-1)
      | some fd1 => do
        storeInt fd (.ofNat 32 fd0)
        storeInt (fd + 4) (.ofNat 32 fd1)
        pure 0

/-- `sys_waitx`, with `sizeof(int*) = 4`; `waitx` stores the times of the child that it reaps. -/
def sysWaitx : UserM Word := do
  let some wtime ← argptr c.toFrame 0 4 | pure (-1)
  let some rtime ← argptr c.toFrame 1 4 | pure (-1)
  match c.child with
  | none => pure (-1)
  | some p => do
    storeInt rtime (c.proc p).runTime
    storeInt wtime ((c.proc p).endTime - (c.proc p).startTime - (c.proc p).runTime)
    pure (c.proc p).pid

/-- The process that `getpinfo` reports on. -/
def findPid (pid : Word) : Option ProcId :=
  (List.finRange NPROC).find? fun p => (c.proc p).pid = pid

/-- `getpinfo`: the stores into a `struct proc_stat`. -/
def getpinfo (pid ps : Word) : UserM Word :=
  match findPid c pid with
  | none => pure (-1)
  | some p => do
    storeInt ps (c.proc p).pid
    storeInt (ps + 4) (c.proc p).runTime
    storeInt (ps + 8) (c.proc p).numRun
    storeInt (ps + 12) (if c.sched = .mlfq then .ofInt 32 (c.proc p).queue else -1)
    (List.finRange NUM_QUEUES).forM fun i =>
      storeInt (ps + 16 + 4 * .ofNat 32 i) (if c.sched = .mlfq then (c.proc p).ticks i else -1)
    pure 0

/-- `sys_getpinfo`. The size that it asks for is that of a pointer, `sizeof(struct proc_stat*) = 4`,
and not that of the `struct proc_stat` that `getpinfo` fills in. -/
def sysGetpinfo : UserM Word := do
  let some pid ← argint c.toFrame 0 | pure (-1)
  let some ps ← argptr c.toFrame 1 4 | pure (-1)
  getpinfo c pid ps

/-- The system calls, under their numbers. -/
def syscall : UserM Word :=
  match c.eax.toInt with
  -- `fork`, `exit`, `wait`, `getpid`, `uptime`
  | 1 | 2 | 3 | 11 | 14 => pure c.ret
  | 4 => sysPipe c
  | 5 => sysRead c
  | 6 => sysKill c
  | 7 => sysExec c
  | 8 => sysFstat c
  | 9 => sysChdir c
  | 10 => sysDup c
  | 12 => sysSbrk c
  | 13 => sysSleep c
  | 15 => sysOpen c
  | 16 => sysWrite c
  | 17 => sysMknod c
  | 18 => sysUnlink c
  | 19 => sysLink c
  | 20 => sysMkdir c
  | 21 => sysClose c
  | 22 => sysWaitx c
  | 23 => sysSetPriority c
  | 24 => sysGetpinfo c
  | _ => pure (-1)

end Xv6.Syscall
