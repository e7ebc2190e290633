import Xv6.Vm.Proc

/-!
# `exec.c`

`exec` in its three parts: the image is loaded from the file, the arguments are copied to its stack,
and the process takes the image over. A `goto bad` of the source is the result `none` of a part. The
file is given by its content, or is missing; the arguments are pointers into the memory of the process
that calls `exec`.
-/

namespace Xv6.Vm

open Lib Layout

/-! ### `elf.h` -/

def ELF_MAGIC : Word := 0x464C457F
def ELF_PROG_LOAD : Word := 1

/-- The word at a place in some bytes. -/
def wordOf (bs : List Byte) (o : ℕ) : Word := ofBytes fun i => bs.getD (o + i) 0

/-- `struct elfhdr`, 52 bytes. -/
structure Elfhdr where
  magic : Word
  entry : Word
  phoff : Word
  phnum : BitVec 16

def elfhdr (bs : List Byte) : Elfhdr where
  magic := wordOf bs 0
  entry := wordOf bs 24
  phoff := wordOf bs 28
  phnum := bs.getD 45 0 ++ bs.getD 44 0

/-- `struct proghdr`, 32 bytes. -/
structure Proghdr where
  type : Word
  off : Word
  vaddr : Word
  filesz : Word
  memsz : Word

def proghdr (bs : List Byte) : Proghdr where
  type := wordOf bs 0
  off := wordOf bs 4
  vaddr := wordOf bs 8
  filesz := wordOf bs 16
  memsz := wordOf bs 20

/-- `readi` into a structure of `n` bytes. -/
def readStruct (ip : List Byte) (off : Word) (n : ℕ) : Option (List Byte) :=
  match readi ip off (BitVec.ofNat 32 n) with
  | none => none
  | some bs => if bs.length ≠ n then none else some bs

/-! ### Loading -/

section load

variable [Layout]

/-- The loop over `n` program headers, the first one at `off`. -/
def loadSegments (pgdir : Frame) (ip : List Byte) : ℕ → Word → Word → MemM (Option Word)
  | 0, _, sz => pure (some sz)
  | n + 1, off, sz =>
    match readStruct ip off 32 with
    | none => pure none
    | some bs =>
      let ph := proghdr bs
      if ph.type ≠ ELF_PROG_LOAD then loadSegments pgdir ip n (off + 32) sz
      else if ph.memsz < ph.filesz then pure none
      else if ph.vaddr + ph.memsz < ph.vaddr then pure none
      else do
        let sz ← allocuvm pgdir sz (ph.vaddr + ph.memsz)
        if sz = 0 then pure none
        else if ph.vaddr % PGSIZE ≠ 0 then pure none
        else do
          let r ← loaduvm pgdir ph.vaddr ip ph.off ph.filesz
          if r < 0 then pure none else loadSegments pgdir ip n (off + 32) sz

/-- The segments and, above them, a page that the user cannot reach and a page for the stack. -/
def loadImage (pgdir : Frame) (ip : List Byte) (elf : Elfhdr) : MemM (Option Word) := do
  match ← loadSegments pgdir ip elf.phnum.toNat elf.phoff 0 with
  | none => pure none
  | some sz => do
    let sz := PGROUNDUP sz
    let sz ← allocuvm pgdir sz (sz + 2 * PGSIZE)
    if sz = 0 then pure none
    else do
      clearpteu pgdir (sz - 2 * PGSIZE)
      pure (some sz)

/-- The first part of `exec`: the directory and the size of the image, and its entry point. -/
def execLoad (ip : List Byte) : MemM (Option (Frame × Word × Word)) :=
  match readStruct ip 0 52 with
  | none => pure none
  | some bs =>
    let elf := elfhdr bs
    if elf.magic ≠ ELF_MAGIC then pure none
    else do
      match ← setupkvm with
      | none => pure none
      | some pgdir => do
        match ← loadImage pgdir ip elf with
        | none => do
          freevm pgdir
          pure none
        | some sz => pure (some (pgdir, sz, elf.entry))

end load

/-! ### Arguments -/

/-- Read a byte of user memory through the page directory of the process. -/
def readUser (pgdir : Frame) (a : Word) : MemM Byte := do
  match ← walkpgdir pgdir a false with
  | none => throw (.panic "trap")
  | some (pgtab, j) => do
    let pte ← load pgtab j
    if pte &&& PTE_P = 0 then throw (.panic "trap")
    return getByte ((← get).page (PTE_ADDR pte)) (a.toNat % 4096)

def readUsers (pgdir : Frame) (a : Word) : ℕ → MemM (List Byte)
  | 0 => pure []
  | n + 1 => do
    let b ← readUser pgdir a
    let bs ← readUsers pgdir (a + 1) n
    pure (b :: bs)

def strlen (pgdir : Frame) (s : Word) : MemM ℕ :=
  Prog.loop .loop (fun n => do
    let b ← readUser pgdir (s + BitVec.ofNat 32 n)
    if b = 0 then pure (.inr n) else pure (.inl (n + 1))) (2 ^ 32 + 1) 0

/-- `uint ustack[3+MAXARG+1]`. -/
abbrev Ustack := Fin 36 → Word

def setUstack (us : Ustack) (i : ℕ) (w : Word) : KernM Ustack :=
  if h : i < 36 then pure (Function.update us ⟨i, h⟩ w) else throw .bounds

def readUstack (us : Ustack) (o n : ℕ) : MemM (List Byte) :=
  if o + n ≤ 144 then pure (copyOut us o n) else throw .bounds

/-- A call of `copyout`, which is recorded. -/
def execCopyout (pgdir : Frame) (sp : Word) (src : ℕ → ℕ → MemM (List Byte)) (len : ℕ) : KernM Int := do
  modify fun k => { k with copied := (sp, len) :: k.copied }
  onMem (copyout pgdir sp src len)

/-- The loop over the arguments, which ends at the pointer 0. -/
def pushStrings (old pgdir : Frame) :
    List Word → ℕ → Word → Ustack → KernM (Option (Word × ℕ × Ustack))
  | [], argc, sp, us => pure (some (sp, argc, us))
  | arg :: argv, argc, sp, us =>
    if arg = 0 then pure (some (sp, argc, us))
    else if argc ≥ MAXARG then pure none
    else do
      let len ← onMem (strlen old arg)
      let sp := (sp - (BitVec.ofNat 32 len + 1)) &&& ~~~3
      let r ← execCopyout pgdir sp (fun o n => readUsers old (arg + BitVec.ofNat 32 o) n) (len + 1)
      if r < 0 then pure none
      else do
        let us ← setUstack us (3 + argc) sp
        pushStrings old pgdir argv (argc + 1) sp us

/-- The array of the addresses, and below it what `main` finds on the stack: the stack pointer of the
image. -/
def pushArray (pgdir : Frame) (sp : Word) (argc : ℕ) (us : Ustack) : KernM (Option Word) := do
  let us ← setUstack us (3 + argc) 0
  let us ← setUstack us 0 0xffffffff
  let us ← setUstack us 1 (BitVec.ofNat 32 argc)
  let us ← setUstack us 2 (sp - (BitVec.ofNat 32 argc + 1) * 4)
  let sp := sp - (3 + BitVec.ofNat 32 argc + 1) * 4
  let r ← execCopyout pgdir sp (readUstack us) ((3 + argc + 1) * 4)
  if r < 0 then pure none else pure (some sp)

/-- The second part of `exec`. -/
def pushArgs (old pgdir : Frame) (argv : List Word) (sz : Word) : KernM (Option Word) := do
  match ← pushStrings old pgdir argv 0 sz (fun _ => 0) with
  | none => pure none
  | some (sp, argc, us) => pushArray pgdir sp argc us

/-! ### `exec` -/

/-- The last element of a path. -/
def lastElem (path : List Byte) : List Byte :=
  path.foldl (fun last c => if c = 0x2F then [] else last ++ [c]) []

variable [Layout]

/-- `freevm` of a pointer. -/
def freevmPtr : Option Frame → KernM Unit
  | none => throw (.panic "freevm: no pgdir")
  | some pgdir => onMem (freevm pgdir)

/-- `exec` of the file that `path` leads to. -/
def exec (ip : Option (List Byte)) (path : List Byte) (argv : List Word) : KernM Int := do
  let curproc ← myproc
  match ip with
  | none => pure (-1)
  | some ip => do
    match ← onMem (execLoad ip) with
    | none => pure (-1)
    | some (pgdir, sz, entry) => do
      let old ← deref curproc.pgdir
      match ← pushArgs old pgdir argv sz with
      | none => do
        onMem (freevm pgdir)
        pure (-1)
      | some sp => do
        let oldpgdir := curproc.pgdir
        let curproc := { curproc with
          name := (lastElem path).take 15
          pgdir := some pgdir
          sz := sz
          tf := { eip := entry, esp := sp } }
        setProc curproc
        switchuvm curproc
        freevmPtr oldpgdir
        pure 0

end Xv6.Vm
