import Xv6.Basic
import Mathlib.Logic.Function.Basic
import Mathlib.Tactic.Common

/-!
# `umalloc.c`

The allocator of user programs. Addresses and sizes are 32-bit words, and arithmetic on them wraps;
a `Header` has 8 bytes, and `p + n` for a pointer to one adds `n` times as many. What the allocator asks of
the system is `sbrk`, and memory at the addresses of the headers that it reads and writes.
-/

namespace Xv6.Umalloc

abbrev fuel : ℕ := 2 ^ 34

/-- The headers in memory, and `freep`. -/
structure Heap where
  /-- `p->s.ptr`. -/
  ptr : ℕ → ℕ
  /-- `p->s.size`. -/
  size : ℕ → ℕ
  freep : ℕ := 0

/-- What the allocator runs on. -/
structure Sys (κ : Type) where
  /-- `&base`. -/
  base : ℕ
  /-- There is memory for a header at this address. -/
  mapped : κ → ℕ → Bool
  sbrk : ℕ → κ → Except Fault (ℕ × κ)

variable {κ : Type}

/-- Access to the header at `p`. -/
def Sys.deref (S : Sys κ) (k : κ) (p : ℕ) : Except Fault Unit :=
  if S.mapped k p then .ok () else .error .bounds

/-- `p + n`. -/
def plus (p n : ℕ) : ℕ := (p + 8 * n) % 2 ^ 32

namespace Heap

variable (S : Sys κ) (k : κ)

/-- `free`: the loop that looks for the place of `bp`. -/
def search (h : Heap) (bp : ℕ) : ℕ → ℕ → Except Fault ℕ
  | 0, _ => .error .loop
  | n + 1, p => do
    S.deref k p
    if bp > p ∧ bp < h.ptr p then .ok p
    else if p ≥ h.ptr p ∧ (bp > p ∨ bp < h.ptr p) then .ok p
    else h.search bp n (h.ptr p)

/-- `free`: join `bp` with the block after it, or link it to that. -/
def joinNext (h : Heap) (bp p : ℕ) : Except Fault Heap :=
  if plus bp (h.size bp) = h.ptr p then do
    S.deref k (h.ptr p)
    .ok { h with
      size := Function.update h.size bp ((h.size bp + h.size (h.ptr p)) % 2 ^ 32)
      ptr := Function.update h.ptr bp (h.ptr (h.ptr p)) }
  else .ok { h with ptr := Function.update h.ptr bp (h.ptr p) }

/-- `free`: join the block before `bp` with it, or link that to `bp`. -/
def joinPrev (h : Heap) (bp p : ℕ) : Heap :=
  if plus p (h.size p) = bp then
    { h with
      size := Function.update h.size p ((h.size p + h.size bp) % 2 ^ 32)
      ptr := Function.update h.ptr p (h.ptr bp) }
  else { h with ptr := Function.update h.ptr p bp }

def free (h : Heap) (ap : ℕ) : Except Fault Heap := do
  let bp := (ap + 2 ^ 32 - 8) % 2 ^ 32
  let p ← h.search S k bp fuel h.freep
  S.deref k bp
  let h ← h.joinNext S k bp p
  .ok { h.joinPrev bp p with freep := p }

end Heap

def morecore (S : Sys κ) (nu : ℕ) (h : Heap) (k : κ) : Except Fault (ℕ × Heap × κ) := do
  let nu := if nu < 4096 then 4096 else nu
  let (p, k) ← S.sbrk (nu * 8 % 2 ^ 32) k
  if p = 2 ^ 32 - 1 then .ok (0, h, k)
  else do
    S.deref k p
    let h := { h with size := Function.update h.size p nu }
    let h ← h.free S k ((p + 8) % 2 ^ 32)
    .ok (h.freep, h, k)

/-- `malloc`: the units for `nbytes`, with one for the header. -/
def nunits (nbytes : ℕ) : ℕ := (nbytes + 8 - 1) % 2 ^ 32 / 8 + 1

/-- `malloc`: take `n` units from the block `p`, which `prevp` precedes. -/
def Heap.take (S : Sys κ) (k : κ) (h : Heap) (n prevp p : ℕ) : Except Fault (ℕ × Heap) :=
  if h.size p = n then
    .ok ((p + 8) % 2 ^ 32, { h with ptr := Function.update h.ptr prevp (h.ptr p), freep := prevp })
  else do
    let h := { h with size := Function.update h.size p (h.size p - n) }
    let p := plus p (h.size p)
    S.deref k p
    let h := { h with size := Function.update h.size p n }
    .ok ((p + 8) % 2 ^ 32, { h with freep := prevp })

/-- `malloc`: the loop through the free list. -/
def scan (S : Sys κ) (n : ℕ) : ℕ → ℕ → ℕ → Heap → κ → Except Fault (ℕ × Heap × κ)
  | 0, _, _, _, _ => .error .loop
  | i + 1, prevp, p, h, k => do
    S.deref k p
    if h.size p ≥ n then do
      let (r, h) ← h.take S k n prevp p
      .ok (r, h, k)
    else if p = h.freep then do
      let (p, h, k) ← morecore S n h k
      if p = 0 then .ok (0, h, k)
      else do
        S.deref k p
        scan S n i p (h.ptr p) h k
    else scan S n i p (h.ptr p) h k

/-- `malloc`: the first call sets up the list. -/
def Heap.init (S : Sys κ) (h : Heap) : Heap :=
  if h.freep = 0 then
    { ptr := Function.update h.ptr S.base S.base, size := Function.update h.size S.base 0, freep := S.base }
  else h

def malloc (S : Sys κ) (nbytes : ℕ) (h : Heap) (k : κ) : Except Fault (ℕ × Heap × κ) := do
  let h := h.init S
  S.deref k h.freep
  scan S (nunits nbytes) fuel h.freep (h.ptr h.freep) h k

end Xv6.Umalloc
