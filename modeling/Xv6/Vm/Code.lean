import Xv6.Basic
import Xv6.Lib.Bytes
import Xv6.Lib.Hoare

/-!
# `kalloc.c` and `vm.c`: pages and page tables

The physical memory is an array of pages of 1024 words; the number of a page stands for its address
and for the pointer `P2V` of it. The free pages are kept in a list instead of being linked through
their first words. Each call of `kalloc` may be made to fail, as it does when another processor has
taken the last page.
-/

namespace Xv6.Vm

open Lib

/-! ### `memlayout.h` and `mmu.h` -/

abbrev EXTMEM : Word := 0x100000
abbrev PHYSTOP : Word := 0xE000000
abbrev DEVSPACE : Word := 0xFE000000
abbrev KERNBASE : Word := 0x80000000
abbrev KERNLINK : Word := KERNBASE + EXTMEM
abbrev PGSIZE : Word := 4096
abbrev PTE_P : Word := 1
abbrev PTE_W : Word := 2
abbrev PTE_U : Word := 4

/-- The symbols that the linker defines: where the data of the kernel begins, and where the kernel
ends. -/
class Layout where
  data : Word
  end_ : Word
  data_aligned : data.toNat % 4096 = 0
  kernlink_lt : KERNLINK < data
  data_le : data ≤ end_
  end_lt : end_ < KERNBASE + PHYSTOP

/-- The number of a page of physical memory. -/
abbrev Frame := BitVec 20

/-- The words of a page. -/
abbrev Page := Fin 1024 → Word

def Frame.addr (f : Frame) : Word := f ++ 0#12

/-- The address at which the kernel sees a page. -/
def P2V (f : Frame) : Word := f.addr + KERNBASE

def PDX (va : Word) : Fin 1024 := Fin.ofNat 1024 (va.toNat >>> 22)

def PTX (va : Word) : Fin 1024 := Fin.ofNat 1024 (va.toNat >>> 12)

/-- `PGADDR(d, 0, 0)`. -/
def PGADDR (d : ℕ) : Word := BitVec.ofNat 32 d <<< 22

def PGROUNDUP (sz : Word) : Word := (sz + PGSIZE - 1) &&& ~~~(PGSIZE - 1)

def PGROUNDDOWN (a : Word) : Word := a &&& ~~~(PGSIZE - 1)

/-- The page in a page table or page directory entry. -/
def PTE_ADDR (pte : Word) : Frame := pte.extractLsb' 12 20

def PTE_FLAGS (pte : Word) : Word := pte &&& 0xFFF

/-! ### Memory -/

/-- The memory, and `kmem.freelist`. -/
structure Mem where
  page : Frame → Page
  free : List Frame
  /-- Whether the next calls of `kalloc` may take a page that is free; at the end of the list they
  may. -/
  luck : List Bool := []

abbrev MemM := Prog Mem Fault

def load (f : Frame) (i : Fin 1024) : MemM Word := fun m => (.ok (m.page f i), m)

def setPage (f : Frame) (pg : Page) : MemM Unit := fun m =>
  (.ok (), { m with page := Function.update m.page f pg })

def store (f : Frame) (i : Fin 1024) (w : Word) : MemM Unit := fun m =>
  (.ok (), { m with page := Function.update m.page f (Function.update (m.page f) i w) })

/-- `memset` of a page, with the word of four bytes. -/
def memset (f : Frame) (w : Word) : MemM Unit := setPage f fun _ => w

/-- `memmove` of some bytes into a page. -/
def memmove (f : Frame) (o : ℕ) (src : List Byte) : MemM Unit := fun m =>
  (.ok (), { m with page := Function.update m.page f (copyIn (m.page f) o src) })

def fuel : ℕ := 2 ^ 20 + 1

variable [Layout]

open Layout

/-! ### `kalloc.c` -/

def kalloc : MemM (Option Frame) := fun m =>
  if m.luck.headD true then
    match m.free with
    | r :: free => (.ok (some r), { m with free := free, luck := m.luck.tail })
    | [] => (.ok none, { m with luck := m.luck.tail })
  else (.ok none, { m with luck := m.luck.tail })

def kfree (f : Frame) : MemM Unit := do
  let v := P2V f
  if v % PGSIZE ≠ 0 ∨ v < end_ ∨ v - KERNBASE ≥ PHYSTOP then throw (.panic "kfree")
  memset f 0x01010101
  modify fun m => { m with free := f :: m.free }

/-! ### `vm.c` -/

/-- `walkpgdir`: the table and the place in it. -/
def walkpgdir (pgdir : Frame) (va : Word) (alloc : Bool) : MemM (Option (Frame × Fin 1024)) := do
  let pde ← load pgdir (PDX va)
  if pde &&& PTE_P ≠ 0 then pure (some (PTE_ADDR pde, PTX va))
  else if !alloc then pure none
  else
    match ← kalloc with
    | none => pure none
    | some pgtab => do
      memset pgtab 0
      store pgdir (PDX va) (pgtab.addr ||| PTE_P ||| PTE_W ||| PTE_U)
      pure (some (pgtab, PTX va))

def mappages (pgdir : Frame) (va size pa perm : Word) : MemM Int :=
  let last := PGROUNDDOWN (va + size - 1)
  Prog.loop .loop (fun (a, pa) => do
    match ← walkpgdir pgdir a true with
    | none => pure (.inr (-1))
    | some (pgtab, j) => do
      let pte ← load pgtab j
      if pte &&& PTE_P ≠ 0 then throw (.panic "remap")
      store pgtab j (pa ||| perm ||| PTE_P)
      if a = last then pure (.inr 0) else pure (.inl (a + PGSIZE, pa + PGSIZE)))
    fuel (PGROUNDDOWN va, pa)

/-- A turn of the loop of `deallocuvm`. -/
def deallocTurn (pgdir : Frame) (oldsz newsz a : Word) : MemM (Word ⊕ Word) :=
  if a < oldsz then do
    match ← walkpgdir pgdir a false with
    | none => pure (.inl (PGADDR (PDX a + 1) - PGSIZE + PGSIZE))
    | some (pgtab, j) => do
      let pte ← load pgtab j
      if pte &&& PTE_P ≠ 0 then
        let pa := PTE_ADDR pte
        if pa = 0 then throw (.panic "kfree")
        kfree pa
        store pgtab j 0
      pure (.inl (a + PGSIZE))
  else pure (.inr newsz)

def deallocuvm (pgdir : Frame) (oldsz newsz : Word) : MemM Word :=
  if newsz ≥ oldsz then pure oldsz
  else Prog.loop .loop (deallocTurn pgdir oldsz newsz) fuel (PGROUNDUP newsz)

/-- `freevm` of a page directory. -/
def freevm (pgdir : Frame) : MemM Unit := do
  let _ ← deallocuvm pgdir KERNBASE 0
  (List.finRange 1024).forM fun i => do
    let pde ← load pgdir i
    if pde &&& PTE_P ≠ 0 then kfree (PTE_ADDR pde)
  kfree pgdir

/-- A row of `kmap`. -/
structure Kmap where
  virt : Word
  phys_start : Word
  phys_end : Word
  perm : Word

/-- The kernel's mappings, which are present in every process's page table. -/
def kmap : List Kmap := [
  { virt := KERNBASE, phys_start := 0, phys_end := EXTMEM, perm := PTE_W },
  { virt := KERNLINK, phys_start := KERNLINK - KERNBASE, phys_end := data - KERNBASE, perm := 0 },
  { virt := data, phys_start := data - KERNBASE, phys_end := PHYSTOP, perm := PTE_W },
  { virt := DEVSPACE, phys_start := DEVSPACE, phys_end := 0, perm := PTE_W }]

/-- The loop of `setupkvm`. -/
def mapKernel (pgdir : Frame) : List Kmap → MemM (Option Frame)
  | [] => pure (some pgdir)
  | k :: ks => do
    let r ← mappages pgdir k.virt (k.phys_end - k.phys_start) k.phys_start k.perm
    if r < 0 then do
      freevm pgdir
      pure none
    else mapKernel pgdir ks

def setupkvm : MemM (Option Frame) := do
  match ← kalloc with
  | none => pure none
  | some pgdir => do
    memset pgdir 0
    if KERNBASE + PHYSTOP > DEVSPACE then throw (.panic "PHYSTOP too high")
    mapKernel pgdir kmap

def allocuvm (pgdir : Frame) (oldsz newsz : Word) : MemM Word :=
  if newsz ≥ KERNBASE then pure 0
  else if newsz < oldsz then pure oldsz
  else Prog.loop .loop (fun a =>
    if a < newsz then do
      match ← kalloc with
      | none => do
        let _ ← deallocuvm pgdir newsz oldsz
        pure (.inr 0)
      | some mem => do
        memset mem 0
        let r ← mappages pgdir a PGSIZE mem.addr (PTE_W ||| PTE_U)
        if r < 0 then do
          let _ ← deallocuvm pgdir newsz oldsz
          kfree mem
          pure (.inr 0)
        else pure (.inl (a + PGSIZE))
    else pure (.inr newsz)) fuel (PGROUNDUP oldsz)

def clearpteu (pgdir : Frame) (uva : Word) : MemM Unit := do
  match ← walkpgdir pgdir uva false with
  | none => throw (.panic "clearpteu")
  | some (pgtab, j) => do
    let pte ← load pgtab j
    store pgtab j (pte &&& ~~~PTE_U)

def copyuvm (pgdir : Frame) (sz : Word) : MemM (Option Frame) := do
  match ← setupkvm with
  | none => pure none
  | some d => Prog.loop .loop (fun i =>
    if i < sz then do
      match ← walkpgdir pgdir i false with
      | none => throw (.panic "copyuvm: pte should exist")
      | some (pgtab, j) => do
        let pte ← load pgtab j
        if pte &&& PTE_P = 0 then throw (.panic "copyuvm: page not present")
        match ← kalloc with
        | none => do
          freevm d
          pure (.inr none)
        | some mem => do
          let src := (← get).page (PTE_ADDR pte)
          setPage mem src
          let r ← mappages d i PGSIZE mem.addr (PTE_FLAGS pte)
          if r < 0 then do
            kfree mem
            freevm d
            pure (.inr none)
          else pure (.inl (i + PGSIZE))
    else pure (.inr (some d))) fuel 0

/-- What `readi` gives of a file with the content `ip`: from `off` on, at most `n` bytes. -/
def readi (ip : List Byte) (off n : Word) : Option (List Byte) :=
  if off.toNat > ip.length ∨ off + n < off then none
  else some ((ip.drop off.toNat).take n.toNat)

def loaduvm (pgdir : Frame) (addr : Word) (ip : List Byte) (offset sz : Word) : MemM Int := do
  if addr % PGSIZE ≠ 0 then throw (.panic "loaduvm: addr must be page aligned")
  Prog.loop .loop (fun i =>
    if i < sz then do
      match ← walkpgdir pgdir (addr + i) false with
      | none => throw (.panic "loaduvm: address should exist")
      | some (pgtab, j) => do
        let pte ← load pgtab j
        let n := if sz - i < PGSIZE then sz - i else PGSIZE
        match readi ip (offset + i) n with
        | none => pure (.inr (-1))
        | some bs => do
          memmove (PTE_ADDR pte) 0 bs
          if bs.length ≠ n.toNat then pure (.inr (-1)) else pure (.inl (i + PGSIZE))
    else pure (.inr 0)) fuel 0

/-- `uva2ka`. The entry is read even when there is none. -/
def uva2ka (pgdir : Frame) (uva : Word) : MemM (Option Frame) := do
  match ← walkpgdir pgdir uva false with
  | none => throw .null
  | some (pgtab, j) => do
    let pte ← load pgtab j
    if pte &&& PTE_P = 0 then pure none
    else if pte &&& PTE_U = 0 then pure none
    else pure (some (PTE_ADDR pte))

/-- A turn of the loop of `copyout`, with `buf` bytes copied. -/
def copyoutTurn (pgdir : Frame) (src : ℕ → ℕ → MemM (List Byte)) (len : ℕ) (va : Word) (buf : ℕ) :
    MemM ((Word × ℕ) ⊕ Int) :=
  if buf < len then do
    let va0 := PGROUNDDOWN va
    match ← uva2ka pgdir va0 with
    | none => pure (.inr (-1))
    | some pa0 => do
      let n := min (PGSIZE - (va - va0)).toNat (len - buf)
      let bs ← src buf n
      memmove pa0 (va - va0).toNat bs
      pure (.inl (va0 + PGSIZE, buf + n))
  else pure (.inr 0)

/-- `copyout` of `len` bytes; `src` reads some of them. -/
def copyout (pgdir : Frame) (va : Word) (src : ℕ → ℕ → MemM (List Byte)) (len : ℕ) : MemM Int :=
  Prog.loop .loop (fun x => copyoutTurn pgdir src len x.1 x.2) fuel (va, 0)

end Xv6.Vm
