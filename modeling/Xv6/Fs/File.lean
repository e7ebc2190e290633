import Xv6.Fs.Dir

/-!
# Open files, pipes and processes

`file.c`, the part of `pipe.c` that opens and closes pipes, and what a process holds: its open files
and its current directory.
-/

namespace Xv6.Fs

open Lib

inductive FdType
  | none
  | pipe
  | inode
  deriving DecidableEq

structure File where
  type : FdType := .none
  ref : ℤ := 0
  readable : Bool := false
  writable : Bool := false
  /-- The page of the pipe. -/
  pipe : Word := 0
  ip : Slot := 0
  off : Word := 0

/-- `struct pipe`, without what is in it. -/
structure Pipe where
  readopen : Bool
  writeopen : Bool

structure Proc where
  ofile : Fin NOFILE → Option (Fin NFILE) := fun _ => none
  cwd : Slot

/-- The file table, the pipes by their pages, and the processes. -/
structure Files where
  file : Fin NFILE → File
  pipe : Word → Option Pipe
  proc : Fin NPROC → Option Proc

namespace Files

def setFile (f : Files) (i : Fin NFILE) (x : File) : Files :=
  { f with file := Function.update f.file i x }

def setPipe (f : Files) (a : Word) (x : Option Pipe) : Files :=
  { f with pipe := Function.update f.pipe a x }

def setProc (f : Files) (p : Fin NPROC) (x : Option Proc) : Files :=
  { f with proc := Function.update f.proc p x }

def filealloc (f : Files) : Option (Fin NFILE × Files) :=
  match (List.finRange NFILE).find? fun i => (f.file i).ref = 0 with
  | none => none
  | some i => some (i, f.setFile i { f.file i with ref := 1 })

end Files

def fdalloc (pr : Proc) (i : Fin NFILE) : Option (Fin NOFILE × Proc) :=
  match (List.finRange NOFILE).find? fun fd => (pr.ofile fd).isNone with
  | none => none
  | some fd => some (fd, { pr with ofile := Function.update pr.ofile fd (some i) })

/-- `argfd`, for an argument that could be fetched. -/
def argfd (pr : Proc) (fd : Word) : Option (Fin NOFILE × Fin NFILE) :=
  if h : fd.toNat < NOFILE then (pr.ofile ⟨fd.toNat, h⟩).map fun i => (⟨fd.toNat, h⟩, i) else none

namespace Code

def filedup (f : Files) (i : Fin NFILE) : Code Files :=
  if (f.file i).ref < 1 then .fail .filedup
  else pure (f.setFile i { f.file i with ref := (f.file i).ref + 1 })

/-- `pipeclose`: the page is given back when both ends are closed. -/
def pipeclose (f : Files) (a : Word) (writable : Bool) : Code Files :=
  match f.pipe a with
  | none => .fail .pipe
  | some x =>
    let x : Pipe := if writable then { x with writeopen := false } else { x with readopen := false }
    pure (f.setPipe a (if x.readopen = false ∧ x.writeopen = false then none else some x))

def fileclose (f : Files) (i : Fin NFILE) : Code Files :=
  let ff := f.file i
  if ff.ref < 1 then .fail .fileclose
  else if 0 < ff.ref - 1 then pure (f.setFile i { ff with ref := ff.ref - 1 })
  else
    let f := f.setFile i { ff with ref := 0, type := .none }
    match ff.type with
    | .pipe => pipeclose f ff.pipe ff.writable
    | .inode => do
      iput ff.ip
      pure f
    | .none => pure f

/-- `pipealloc`: the two ends of a new pipe. `page` is what `kalloc` returns. -/
def pipealloc (f : Files) (page : Option Word) : Code (Files × Option (Fin NFILE × Fin NFILE)) :=
  match f.filealloc with
  | none => pure (f, none)
  | some (i, f) =>
    match f.filealloc with
    | none => do
      let f ← fileclose f i
      pure (f, none)
    | some (j, f) =>
      match page with
      | none => do
        let f ← fileclose f i
        let f ← fileclose f j
        pure (f, none)
      | some a =>
        let f := f.setPipe a (some ⟨true, true⟩)
        let f := f.setFile i
          { f.file i with type := .pipe, readable := true, writable := false, pipe := a }
        let f := f.setFile j
          { f.file j with type := .pipe, readable := false, writable := true, pipe := a }
        pure (f, some (i, j))

/-- `fileread` of an inode; `got` is the answer of the driver if it is a device. -/
def fileread (f : Files) (i : Fin NFILE) (n got : Word) : Code (Files × ℤ) :=
  let x := f.file i
  if x.readable = false then pure (f, -1)
  else
    match x.type with
    -- what is in a pipe is not looked at
    | .pipe => pure (f, got.toInt)
    | .inode => do
      ilock x.ip
      let r ← readi x.ip x.off n
      iunlock x.ip
      match r with
      | .fail => pure (f, -1)
      | .device =>
        if 0 < got.toInt then pure (f.setFile i { x with off := x.off + got }, got.toInt)
        else pure (f, got.toInt)
      | .done l => pure (f.setFile i { x with off := x.off + .ofNat 32 l.length }, l.length)
    | .none => .fail .fileread

/-- How much `filewrite` writes at once. -/
def writeMax : ℕ := (MAXOPBLOCKS - 1 - 1 - 2) / 2 * 512

/-- The loop of `filewrite`: `n` bytes of `src`, `m` of which are written; the new offset, and whether
all went well. -/
def writeLoop (ip : Slot) (src : ℕ → Byte) (n : ℕ) : ℕ → ℕ → Word → Code (Word × Bool)
  | 0, _, _ => .fail .loop
  | fuel + 1, m, off =>
    if m < n then do
      let n₁ := min (n - m) writeMax
      ilock ip
      let r ← writei ip (fun j => src (m + j)) off (.ofNat 32 n₁)
      iunlock ip
      match r with
      | .fail => pure (off, false)
      -- the console takes all that it is given
      | .device => writeLoop ip src n fuel (m + n₁) (off + .ofNat 32 n₁)
      | .done r =>
        if r ≠ .ofNat 32 n₁ then .fail .shortFilewrite
        else writeLoop ip src n fuel (m + n₁) (off + r)
    else pure (off, true)

def filewrite (f : Files) (i : Fin NFILE) (src : ℕ → Byte) (n : Word) (got : Word) :
    Code (Files × ℤ) :=
  let x := f.file i
  if x.writable = false then pure (f, -1)
  else
    match x.type with
    | .pipe => pure (f, got.toInt)
    | .inode => do
      let (off, ok) ← writeLoop x.ip src n.toNat (n.toNat + 1) 0 x.off
      pure (f.setFile i { x with off := off }, if ok then n.toInt else -1)
    | .none => .fail .filewrite

end Code

end Xv6.Fs
