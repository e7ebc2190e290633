import Xv6.Fs.File
import Xv6.Lib.Machine

/-!
# `sysfile.c`

The system calls on files, with `fork` and `exit` as far as files go, as programs over the inode
layer, and the system that takes such calls from its processes, one after the other. The system is
one for every layer: the disk and the cache of `Xv6.Fs.Inodes`, or what is put in their place.
-/

namespace Xv6.Fs

open Lib

/-- A string that a system call has fetched, without the NUL at its end. -/
abbrev Str := { l : List Byte // (0 : Byte) ∉ l }

abbrev O_WRONLY : Word := 1
abbrev O_RDWR : Word := 2
abbrev O_CREATE : Word := 0x200

namespace Code

def sysDup (f : Files) (p : Fin NPROC) (pr : Proc) (fd : Word) : Code (Files × ℤ) :=
  match argfd pr fd with
  | none => pure (f, -1)
  | some (_, i) =>
    match fdalloc pr i with
    | none => pure (f, -1)
    | some (fd, pr) => do
      let f ← filedup (f.setProc p (some pr)) i
      pure (f, fd.val)

def sysRead (f : Files) (pr : Proc) (fd n got : Word) : Code (Files × ℤ) :=
  match argfd pr fd with
  | none => pure (f, -1)
  | some (_, i) => if n.toInt < 0 then pure (f, -1) else fileread f i n got

def sysWrite (f : Files) (pr : Proc) (fd : Word) (src : ℕ → Byte) (n got : Word) :
    Code (Files × ℤ) :=
  match argfd pr fd with
  | none => pure (f, -1)
  | some (_, i) => if n.toInt < 0 then pure (f, -1) else filewrite f i src n got

def sysClose (f : Files) (p : Fin NPROC) (pr : Proc) (fd : Word) : Code (Files × ℤ) :=
  match argfd pr fd with
  | none => pure (f, -1)
  | some (fd, i) => do
    let f ← fileclose (f.setProc p (some { pr with ofile := Function.update pr.ofile fd none })) i
    pure (f, 0)

/-- The end of `sys_link` that undoes it. -/
def unlinkBad (ip : Slot) : Code Unit := do
  ilock ip
  let f ← fields ip
  setLinks ip f (f.nlink - 1)
  iunlockput ip

def sysLink (pr : Proc) (old new : List Byte) : Code ℤ := do
  match ← namei pr.cwd old with
  | none => pure (-1)
  | some ip => do
    ilock ip
    let f ← fields ip
    if f.type = T_DIR then do
      iunlockput ip
      pure (-1)
    else do
      setLinks ip f (f.nlink + 1)
      iunlock ip
      match ← nameiparent pr.cwd new with
      | none => do
        unlinkBad ip
        pure (-1)
      | some (dp, name) => do
        ilock dp
        let ok ← dirlink dp name f.inum
        iunlockput dp
        if ok then do
          iput ip
          pure 0
        else do
          unlinkBad ip
          pure (-1)

/-- The inode is a directory that is not empty. -/
def isfull (ip : Slot) (type : Short) : Code Bool :=
  if type = T_DIR then do
    let empty ← isdirempty ip
    pure !empty
  else pure false

/-- Take the link of a subdirectory off `dp`, if the inode that goes is a directory. -/
def dropUp (dp : Slot) (type : Short) : Code Unit :=
  if type = T_DIR then do
    let f ← fields dp
    setLinks dp f (f.nlink - 1)
  else pure ()

/-- `sys_unlink`, from where the directory `dp` is locked. -/
def unlinkAt (dp : Slot) (name : List Byte) : Code ℤ :=
  if namecmp name dot = 0 ∨ namecmp name dotdot = 0 then do
    iunlockput dp
    pure (-1)
  else do
    match ← dirlookup dp name with
    | none => do
      iunlockput dp
      pure (-1)
    | some (ip, off) => do
      ilock ip
      let f ← fields ip
      if f.nlink.toInt < 1 then .fail .unlinkNlink
      else do
        let full ← isfull ip f.type
        if full then do
          iunlockput ip
          iunlockput dp
          pure (-1)
        else do
          writeEntry dp .zero off .unlinkWritei
          dropUp dp f.type
          iunlockput dp
          let f ← fields ip
          setLinks ip f (f.nlink - 1)
          iunlockput ip
          pure 0

def sysUnlink (pr : Proc) (path : List Byte) : Code ℤ := do
  match ← nameiparent pr.cwd path with
  | none => pure (-1)
  | some (dp, name) => do
    ilock dp
    unlinkAt dp name

/-- `sys_open`, from where the inode `ip` is locked. -/
def openAt (f : Files) (p : Fin NPROC) (pr : Proc) (ip : Slot) (omode : Word) : Code (Files × ℤ) :=
  match f.filealloc with
  | none => do
    iunlockput ip
    pure (f, -1)
  | some (i, f) =>
    match fdalloc pr i with
    | none => do
      let f ← fileclose f i
      iunlockput ip
      pure (f, -1)
    | some (fd, pr) => do
      iunlock ip
      let f := f.setProc p (some pr)
      let x : File := { f.file i with
        type := .inode
        ip := ip
        off := 0
        readable := omode &&& O_WRONLY = 0
        writable := omode &&& O_WRONLY ≠ 0 ∨ omode &&& O_RDWR ≠ 0 }
      pure (f.setFile i x, fd.val)

def sysOpen (f : Files) (p : Fin NPROC) (pr : Proc) (path : List Byte) (omode : Word) :
    Code (Files × ℤ) :=
  if omode &&& O_CREATE ≠ 0 then do
    match ← create pr.cwd path T_FILE 0 0 with
    | none => pure (f, -1)
    | some ip => openAt f p pr ip omode
  else do
    match ← namei pr.cwd path with
    | none => pure (f, -1)
    | some ip => do
      ilock ip
      let x ← fields ip
      if x.type = T_DIR ∧ omode ≠ 0 then do
        iunlockput ip
        pure (f, -1)
      else openAt f p pr ip omode

/-- `sys_mkdir` and `sys_mknod`. -/
def sysMake (pr : Proc) (path : List Byte) (type major minor : Short) : Code ℤ := do
  match ← create pr.cwd path type major minor with
  | none => pure (-1)
  | some ip => do
    iunlockput ip
    pure 0

def sysChdir (f : Files) (p : Fin NPROC) (pr : Proc) (path : List Byte) : Code (Files × ℤ) := do
  match ← namei pr.cwd path with
  | none => pure (f, -1)
  | some ip => do
    ilock ip
    let x ← fields ip
    if x.type ≠ T_DIR then do
      iunlockput ip
      pure (f, -1)
    else do
      iunlock ip
      iput pr.cwd
      pure (f.setProc p (some { pr with cwd := ip }), 0)

/-- `sys_pipe`, for an argument that could be fetched. -/
def sysPipe (f : Files) (p : Fin NPROC) (pr : Proc) (page : Option Word) : Code (Files × ℤ) := do
  match ← pipealloc f page with
  | (f, none) => pure (f, -1)
  | (f, some (i, j)) =>
    match fdalloc pr i with
    | none => do
      let f ← fileclose f i
      let f ← fileclose f j
      pure (f, -1)
    | some (_, pr₁) =>
      match fdalloc pr₁ j with
      | none => do
        -- `ofile[fd0] = 0` puts the table back as it was
        let f ← fileclose f i
        let f ← fileclose f j
        pure (f, -1)
      | some (_, pr₂) => pure (f.setProc p (some pr₂), 0)

/-- The loop of `fork` over the open files. -/
def dupAll : List (Option (Fin NFILE)) → Files → Code Files
  | [], f => pure f
  | none :: l, f => dupAll l f
  | some i :: l, f => do
    let f ← filedup f i
    dupAll l f

/-- `fork`, as far as files go: the child is `np`, which stands for its pid. -/
def fork (f : Files) (pr : Proc) (np : Fin NPROC) : Code (Files × ℤ) := do
  let f ← dupAll ((List.finRange NOFILE).map pr.ofile) f
  idup pr.cwd
  pure (f.setProc np (some pr), np.val)

/-- The loop of `exit` over the open files. -/
def closeAll (p : Fin NPROC) : List (Fin NOFILE) → Files → Code Files
  | [], f => pure f
  | fd :: l, f =>
    match f.proc p with
    | none => .fail .proc
    | some pr =>
      match pr.ofile fd with
      | none => closeAll p l f
      | some i => do
        let f ← fileclose f i
        closeAll p l (f.setProc p (some { pr with ofile := Function.update pr.ofile fd none }))

/-- `exit`, as far as files go. -/
def exit (f : Files) (p : Fin NPROC) (pr : Proc) : Code (Files × ℤ) :=
  if p = 0 then .fail .initExiting
  else do
    let f ← closeAll p (List.finRange NOFILE) f
    iput pr.cwd
    pure (f.setProc p none, 0)

end Code

/-! ### The system -/

/-- The system calls. What memory and the drivers have to say is part of a call. -/
inductive Call
  /-- A call whose arguments cannot be fetched. -/
  | badargs
  | sysOpen (path : Str) (omode : Word)
  | sysDup (fd : Word)
  | sysClose (fd : Word)
  | sysRead (fd n got : Word)
  | sysWrite (fd : Word) (src : ℕ → Byte) (n got : Word)
  | sysLink (old new : Str)
  | sysUnlink (path : Str)
  | sysMkdir (path : Str)
  | sysMknod (path : Str) (major minor : Word)
  | sysChdir (path : Str)
  /-- `page` is what `kalloc` returns. -/
  | sysPipe (page : Option Word)
  /-- `np` is the slot for the child, if there are a slot and memory. -/
  | fork (np : Option (Fin NPROC))
  | exit

/-- A result, with the files as they were. -/
def keepFiles (f : Files) (m : Code ℤ) : Code (Files × ℤ) := do
  let r ← m
  pure (f, r)

/-- A system call by the process `p`. -/
def Call.code (f : Files) (p : Fin NPROC) (pr : Proc) : Call → Code (Files × ℤ)
  | badargs => pure (f, -1)
  | sysOpen path omode => Code.sysOpen f p pr path omode
  | sysDup fd => Code.sysDup f p pr fd
  | sysClose fd => Code.sysClose f p pr fd
  | sysRead fd n got => Code.sysRead f pr fd n got
  | sysWrite fd src n got => Code.sysWrite f pr fd src n got
  | sysLink old new => keepFiles f (Code.sysLink pr old new)
  | sysUnlink path => keepFiles f (Code.sysUnlink pr path)
  | sysMkdir path => keepFiles f (Code.sysMake pr path T_DIR 0 0)
  | sysMknod path major minor =>
    keepFiles f (Code.sysMake pr path T_DEV (major.setWidth 16) (minor.setWidth 16))
  | sysChdir path => Code.sysChdir f p pr path
  | sysPipe page => Code.sysPipe f p pr page
  | fork none => pure (f, -1)
  | fork (some np) => Code.fork f pr np
  | exit => Code.exit f p pr

/-- The state of the system over a layer with the states `σ`. -/
structure Sys (σ : Type) where
  files : Files
  inodes : σ

/-- The call can be made: the slot of a child is free, and so is the page of a pipe. -/
def Call.enabled (f : Files) (p : Fin NPROC) : Call → Bool
  | fork (some np) => (f.proc p).isSome && (f.proc np).isNone
  | sysPipe (some a) => (f.proc p).isSome && (f.pipe a).isNone
  | _ => (f.proc p).isSome

def Sys.call {σ : Type} (L : Layer Act Ans Panic Fault σ) (s : Sys σ) (p : Fin NPROC) (c : Call) :
    Except Fault (Sys σ × ℤ) :=
  match s.files.proc p with
  | none => .error .null
  | some pr =>
    match (c.code s.files p pr).run L s.inodes with
    | .ok ((f, r), i) => .ok (⟨f, i⟩, r)
    | .error e => .error e

/-- Open files and processes after boot: the first process is in the directory that the first entry
of the inode cache holds. -/
def Files.boot : Files where
  file _ := {}
  pipe _ := none
  proc p := if p = 0 then some { cwd := 0 } else none

/-- The system calls over a layer, from the state `s` of the layer on. -/
def system {σ : Type} (L : Layer Act Ans Panic Fault σ) (s : σ) :
    Machine (Sys σ) (Fin NPROC × Call) ℤ Fault where
  init := ⟨.boot, s⟩
  enabled s a := a.2.enabled s.files a.1
  exec s a := s.call L a.1 a.2

end Xv6.Fs
