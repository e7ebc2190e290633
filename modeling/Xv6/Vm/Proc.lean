import Xv6.Process.Table
import Xv6.Vm.Alloc

/-!
# Processes and their memory

The part of `struct proc` that concerns memory, `switchuvm`, and `growproc` of `proc.c`. What a process
sees of the memory is read off its page directory.
-/

namespace Xv6.Vm

open Lib Layout
open Process (ProcId ProcState)

/-- The registers of the trap frame that `exec` sets. -/
structure TrapFrame where
  eip : Word
  esp : Word

structure Proc where
  state : ProcState
  sz : Word
  pgdir : Option Frame
  kstack : Option Frame
  tf : TrapFrame
  name : List Byte

/-- The memory, the process table and the process that runs. -/
structure Kern where
  mem : Mem
  proc : ProcId → Proc
  cur : ProcId
  /-- The addresses and lengths that `exec` has given to `copyout`, the last one first. -/
  copied : List (Word × ℕ) := []

def Kern.curproc (k : Kern) : Proc := k.proc k.cur

abbrev KernM := Prog Kern Fault

def onMem {α : Type} (p : MemM α) : KernM α := fun k =>
  match p.eval k.mem with
  | (r, mem) => (r, { k with mem := mem })

def myproc : KernM Proc := fun k => (.ok k.curproc, k)

def setProc (p : Proc) : KernM Unit := fun k =>
  (.ok (), { k with proc := Function.update k.proc k.cur p })

/-- Follow a pointer to a page. -/
def deref : Option Frame → KernM Frame
  | none => throw .null
  | some f => pure f

/-- The checks of `switchuvm`. -/
def switchuvm (p : Proc) : KernM Unit :=
  if p.kstack = none then throw (.panic "switchuvm: no kstack")
  else if p.pgdir = none then throw (.panic "switchuvm: no pgdir")
  else pure ()

variable [Layout]

def growproc (n : Word) : KernM Int := do
  let curproc ← myproc
  let sz := curproc.sz
  let r ←
    if n.toInt > 0 then do
      let pgdir ← deref curproc.pgdir
      let sz ← onMem (allocuvm pgdir sz (sz + n))
      pure (if sz = 0 then none else some sz)
    else if n.toInt < 0 then do
      let pgdir ← deref curproc.pgdir
      let sz ← onMem (deallocuvm pgdir sz (sz + n))
      pure (if sz = 0 then none else some sz)
    else pure (some sz)
  match r with
  | none => pure (-1)
  | some sz => do
    setProc { curproc with sz := sz }
    switchuvm { curproc with sz := sz }
    pure 0

/-! ### What a process sees -/

def pte (p : Frame → Page) (dir : Frame) (v : ℕ) : Word :=
  let w := p dir (Fin.ofNat 1024 (v / 1024))
  if Present w then p (PTE_ADDR w) (Fin.ofNat 1024 v) else 0

/-- The byte at an address, if its page is mapped. -/
def userByte (p : Frame → Page) (dir : Frame) (a : ℕ) : Option Byte :=
  (mapped (pte p dir (a / 4096))).map fun f => getByte (p f) (a % 4096)

def userWord (p : Frame → Page) (dir : Frame) (a : ℕ) : Option Word := do
  let b₀ ← userByte p dir a
  let b₁ ← userByte p dir (a + 1)
  let b₂ ← userByte p dir (a + 2)
  let b₃ ← userByte p dir (a + 3)
  pure (b₃ ++ b₂ ++ b₁ ++ b₀)

variable {S S' : Space} {p p' : Frame → Page} {m : Mem}

omit [Layout] in
theorem Rep.pte (h : Rep S p) {v : ℕ} (hv : v < 2 ^ 20) : pte p S.dir v = S.leaf v := by
  have hi : (Fin.ofNat 1024 (v / 1024)).val = v / 1024 := Nat.mod_eq_of_lt (by omega)
  have hj : (Fin.ofNat 1024 v).val = v % 1024 := rfl
  have hv' : 1024 * (Fin.ofNat 1024 (v / 1024)).val + (Fin.ofNat 1024 v).val = v := by omega
  unfold Vm.pte
  have hmap := h.dir (Fin.ofNat 1024 (v / 1024))
  cases ht : S.tab (Fin.ofNat 1024 (v / 1024)) with
  | none =>
    rw [if_neg (mapped_eq_none.1 (hmap.trans ht)), ← hv', h.none ht]
  | some t =>
    obtain ⟨hp, ht'⟩ := mapped_some.1 (hmap.trans ht)
    rw [if_pos hp, ht', h.tab ht, hv']

omit [Layout] in
theorem Rep.userByte (h : Rep S p) {a : ℕ} (ha : a < 2 ^ 31) :
    userByte p S.dir a =
      if Present (S.leaf (a / 4096)) then some (getByte (S.page (a / 4096)) (a % 4096)) else Option.none := by
  unfold Vm.userByte
  rw [h.pte (by omega)]
  by_cases hp : Present (S.leaf (a / 4096))
  · have hm : mapped (S.leaf (a / 4096)) = some (PTE_ADDR (S.leaf (a / 4096))) := if_pos hp
    rw [if_pos hp, hm, Option.map_some, h.page (by omega) hm]
  · rw [if_neg hp, mapped_eq_none.2 hp, Option.map_none]

/-- The pool of an address space and the free pages. -/
def Mem.pool (m : Mem) (X : Multiset Frame) (hn : (X + ↑m.free).Nodup)
    (hu : ∀ f ∈ X + ↑m.free, Usable f) : Pool where
  frames := { val := X + (m.free : Multiset Frame), nodup := hn }
  rest := m.page
  calm := m.luck = []
  usable := hu

theorem Mem.in_pool (m : Mem) (X : Multiset Frame) (hn : (X + ↑m.free).Nodup)
    (hu : ∀ f ∈ X + ↑m.free, Usable f) : In (m.pool X hn hu) X m :=
  ⟨rfl, fun _ _ => rfl, fun h => h⟩

/-- The process that runs has the address space `S`: its user pages are those below its size. -/
structure Runs (k : Kern) (S : Space) : Prop where
  pgdir : k.curproc.pgdir = some S.dir
  kstack : k.curproc.kstack ≠ none
  rep : Rep S k.mem.page
  nodup : (S.owned + ↑k.mem.free).Nodup
  usable : ∀ f ∈ S.owned + ↑k.mem.free, Usable f
  sz : k.curproc.sz < KERNBASE
  mapped : ∀ v < 2 ^ 19, Present (S.leaf v) ↔ v < pages k.curproc.sz

/-! ### Rules -/

variable {α : Type} {k : Kern}

omit [Layout] in
theorem eval_onMem {q : MemM α} {r : Except Fault α} {mem : Mem} (h : q.eval k.mem = (r, mem)) :
    (onMem q).eval k = (r, { k with mem := mem }) := by
  show (match q.eval k.mem with | (r, mem) => (r, ({ k with mem := mem } : Kern))) = _
  rw [h]

end Xv6.Vm
