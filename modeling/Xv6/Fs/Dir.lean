import Xv6.Fs.Dirent
import Xv6.Fs.Inodes

/-!
# Directories and paths

The part of `fs.c` above the inodes, and `create` and `isdirempty` of `sysfile.c`, as programs over
the operations on inodes. A call runs without any other in between.
-/

namespace Xv6.Fs

open Lib

/-- Programs over the inode layer. -/
abbrev Code := Cmd Act Ans Panic

namespace Code

def iget (inum : Word) : Code Slot := Cmd.call (Act.iget inum)
def idup (k : Slot) : Code Unit := Cmd.call (Act.idup k)
def ilock (k : Slot) : Code Unit := Cmd.call (Act.ilock k)
def iunlock (k : Slot) : Code Unit := Cmd.call (Act.iunlock k)
/-- Read the fields of a locked inode. -/
def fields (k : Slot) : Code Fields := Cmd.call (Act.fields k)
/-- Set fields of a locked inode, and `iupdate`. -/
def iupdate (k : Slot) (major minor nlink : Short) : Code Unit :=
  Cmd.call (Act.iupdate k major minor nlink)
def iput (k : Slot) : Code Unit := Cmd.call (Act.iput k)
def ialloc (type : Short) : Code Slot := Cmd.call (Act.ialloc type)
def readi (k : Slot) (off n : Word) : Code (Io (List Byte)) := Cmd.call (Act.readi k off n)
def writei (k : Slot) (src : ℕ → Byte) (off n : Word) : Code (Io Word) :=
  Cmd.call (Act.writei k src off n)

def iunlockput (k : Slot) : Code Unit := do
  iunlock k
  iput k

def setLinks (k : Slot) (f : Fields) (nlink : Short) : Code Unit := iupdate k f.major f.minor nlink

/-- Read the entry at `off`, or panic. -/
def readEntry (k : Slot) (off : Word) (e : Panic) : Code Dirent := do
  match ← readi k off (.ofNat 32 DIRENT) with
  | .done l => if l.length = DIRENT then pure (.ofBytes l) else .fail e
  | _ => .fail e

/-- Write the entry at `off`, or panic. -/
def writeEntry (k : Slot) (de : Dirent) (off : Word) (e : Panic) : Code Unit := do
  match ← writei k (de.toBytes.getD · 0) off (.ofNat 32 DIRENT) with
  | .done n => if n = .ofNat 32 DIRENT then pure () else .fail e
  | _ => .fail e

/-- The loop of `dirlookup`, over a directory of the given size. -/
def lookupLoop (k : Slot) (name : List Byte) (size : Word) : ℕ → Word → Code (Option (Slot × Word))
  | 0, _ => .fail .loop
  | fuel + 1, off =>
    if off < size then do
      let de ← readEntry k off .dirlookupRead
      if de.inum ≠ 0 ∧ namecmp name de.name = 0 then do
        let ip ← iget (de.inum.setWidth 32)
        pure (some (ip, off))
      else lookupLoop k name size fuel (off + .ofNat 32 DIRENT)
    else pure none

def turns (size : Word) : ℕ := size.toNat / DIRENT + 2

/-- `dirlookup`: the inode that the name names, and where the entry is. -/
def dirlookup (dp : Slot) (name : List Byte) : Code (Option (Slot × Word)) := do
  let f ← fields dp
  if f.type ≠ T_DIR then .fail .dirlookupNotDir
  else lookupLoop dp name f.size (turns f.size) 0

/-- The loop of `dirlink`: the first entry that is not in use, or the end of the directory. -/
def emptyLoop (k : Slot) (size : Word) : ℕ → Word → Code Word
  | 0, _ => .fail .loop
  | fuel + 1, off =>
    if off < size then do
      let de ← readEntry k off .dirlinkRead
      if de.inum = 0 then pure off else emptyLoop k size fuel (off + .ofNat 32 DIRENT)
    else pure off

/-- `dirlink`: whether it succeeds. -/
def dirlink (dp : Slot) (name : List Byte) (inum : Word) : Code Bool := do
  match ← dirlookup dp name with
  | some (ip, _) => do
    iput ip
    pure false
  | none => do
    let f ← fields dp
    let off ← emptyLoop dp f.size (turns f.size) 0
    writeEntry dp ⟨inum.setWidth 16, strncpy DIRSIZ name⟩ off .dirlink
    pure true

/-- The loop of `namex`. -/
def namexLoop (parent : Bool) : ℕ → Slot → List Byte → Code (Option (Slot × List Byte))
  | 0, _, _ => .fail .loop
  | fuel + 1, ip, path =>
    match skipelem path with
    | none =>
      if parent then do
        iput ip
        pure none
      else pure (some (ip, []))
    | some (name, path) => do
      ilock ip
      let f ← fields ip
      if f.type ≠ T_DIR then do
        iunlockput ip
        pure none
      else if parent ∧ path = [] then do
        iunlock ip
        pure (some (ip, name))
      else do
        match ← dirlookup ip name with
        | none => do
          iunlockput ip
          pure none
        | some (next, _) => do
          iunlockput ip
          namexLoop parent fuel next path

def start (cwd : Slot) (path : List Byte) : Code Slot :=
  if path.head? = some slash then iget (.ofNat 32 ROOTINO)
  else do
    idup cwd
    pure cwd

/-- `namex`: the inode of a path, or of its parent, with the last element of the path. -/
def namex (cwd : Slot) (path : List Byte) (parent : Bool) : Code (Option (Slot × List Byte)) := do
  let ip ← start cwd path
  namexLoop parent (path.length + 1) ip path

def namei (cwd : Slot) (path : List Byte) : Code (Option Slot) := do
  let r ← namex cwd path false
  pure (r.map Prod.fst)

def nameiparent (cwd : Slot) (path : List Byte) : Code (Option (Slot × List Byte)) :=
  namex cwd path true

/-- The loop of `isdirempty`. -/
def isemptyLoop (k : Slot) (size : Word) : ℕ → Word → Code Bool
  | 0, _ => .fail .loop
  | fuel + 1, off =>
    if off < size then do
      let de ← readEntry k off .isdiremptyReadi
      if de.inum ≠ 0 then pure false else isemptyLoop k size fuel (off + .ofNat 32 DIRENT)
    else pure true

def isdirempty (dp : Slot) : Code Bool := do
  let f ← fields dp
  isemptyLoop dp f.size (turns f.size) (.ofNat 32 (2 * DIRENT))

/-- The part of `create` that is for directories: the entries `.` and `..` of `ip`. -/
def makeDots (dp ip : Slot) (type : Short) : Code Unit :=
  if type = T_DIR then do
    let f ← fields dp
    setLinks dp f (f.nlink + 1)
    let fi ← fields ip
    let ok ← dirlink ip dot fi.inum
    if ok = false then .fail .createDots
    else do
      let ok ← dirlink ip dotdot f.inum
      if ok = false then .fail .createDots else pure ()
  else pure ()

/-- `create`, from where the name is known to be free: a new inode, and its entry in `dp`. -/
def make (dp : Slot) (name : List Byte) (type major minor : Short) : Code Slot := do
  let ip ← ialloc type
  ilock ip
  iupdate ip major minor 1
  makeDots dp ip type
  let fi ← fields ip
  let ok ← dirlink dp name fi.inum
  if ok = false then .fail .createDirlink
  else do
    iunlockput dp
    pure ip

def create (cwd : Slot) (path : List Byte) (type major minor : Short) : Code (Option Slot) := do
  match ← nameiparent cwd path with
  | none => pure none
  | some (dp, name) => do
    ilock dp
    match ← dirlookup dp name with
    | some (ip, _) => do
      iunlockput dp
      ilock ip
      let f ← fields ip
      if type = T_FILE ∧ f.type = T_FILE then pure (some ip)
      else do
        iunlockput ip
        pure none
    | none => do
      let ip ← make dp name type major minor
      pure (some ip)

end Code

end Xv6.Fs
