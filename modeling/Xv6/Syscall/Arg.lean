import Xv6.Basic
import Xv6.Lib.Hoare

/-!
# `syscall.c`: the arguments of a system call

The memory of a process as the kernel sees it during a system call, with the addresses of all bytes
that are read or written, and the functions that fetch the arguments from the user stack and check
the pointers among them. The checks are in unsigned 32-bit arithmetic; below `KERNBASE` they do not
wrap around.
-/

namespace Xv6.Syscall

open Lib

abbrev KERNBASE : Word := 0x80000000

abbrev Byte := BitVec 8

structure Mem where
  byte : Word → Byte
  /-- The addresses of the bytes that have been read or written, the last one first. -/
  trace : List Word := []

abbrev UserM := Prog Mem Fault

def load (a : Word) : UserM Byte := fun s => (.ok (s.byte a), { s with trace := a :: s.trace })

def store (a : Word) (b : Byte) : UserM Unit := fun s =>
  (.ok (), { byte := Function.update s.byte a b, trace := a :: s.trace })

def loads (a : Word) : ℕ → UserM (List Byte)
  | 0 => pure []
  | n + 1 => do
    let b ← load a
    let bs ← loads (a + 1) n
    pure (b :: bs)

def stores (a : Word) : List Byte → UserM Unit
  | [] => pure ()
  | b :: bs => do
    store a b
    stores (a + 1) bs

def bytes (w : Word) : List Byte :=
  [w.extractLsb' 0 8, w.extractLsb' 8 8, w.extractLsb' 16 8, w.extractLsb' 24 8]

def wordAt (m : Word → Byte) (a : Word) : Word := m (a + 3) ++ m (a + 2) ++ m (a + 1) ++ m a

def loadInt (a : Word) : UserM Word := do
  let b₀ ← load a
  let b₁ ← load (a + 1)
  let b₂ ← load (a + 2)
  let b₃ ← load (a + 3)
  pure (b₃ ++ b₂ ++ b₁ ++ b₀)

def storeInt (a w : Word) : UserM Unit := stores a (bytes w)

def fuel : ℕ := 2 ^ 32 + 1

/-- What the arguments of a system call are read from: `sz` of the process and the saved `esp`. -/
structure Frame where
  sz : Word
  esp : Word

variable (c : Frame)

def fetchint (addr : Word) : UserM (Option Word) :=
  if addr ≥ c.sz ∨ addr + 4 > c.sz then pure none
  else do
    let w ← loadInt addr
    pure (some w)

/-- `fetchstr`: the length of the string. -/
def fetchstr (addr : Word) : UserM (Option Word) :=
  if addr ≥ c.sz then pure none
  else Prog.loop .loop (fun s =>
    if s < c.sz then do
      let b ← load s
      if b = 0 then pure (.inr (some (s - addr))) else pure (.inl (s + 1))
    else pure (.inr none)) fuel addr

def argint (n : Word) : UserM (Option Word) := fetchint c (c.esp + 4 + 4 * n)

def argptr (n size : Word) : UserM (Option Word) := do
  let some i ← argint c n | pure none
  if size.toInt < 0 ∨ i ≥ c.sz ∨ i + size > c.sz then pure none
  else pure (some i)

/-- `argstr`: the pointer. -/
def argstr (n : Word) : UserM (Option Word) := do
  let some addr ← argint c n | pure none
  let some _ ← fetchstr c addr | pure none
  pure (some addr)

/-! ### Accesses inside the process -/

variable {sz : Word} {m : Word → Byte} {α β : Type}

/-- All accesses so far were below `sz`. -/
def Inside (sz : Word) (s : Mem) : Prop := ∀ a ∈ s.trace, a < sz

/-- The same, and the memory is still `m`. -/
def Intact (sz : Word) (m : Word → Byte) (s : Mem) : Prop := s.byte = m ∧ Inside sz s

/-- From the memory `m` the code only reads, inside the process, and its result satisfies `R`. -/
def Reads (sz : Word) (m : Word → Byte) (p : UserM α) (R : α → Prop) : Prop :=
  Prog.Triple (Intact sz m) p fun a s => R a ∧ Intact sz m s

/-- The code stays inside the process. -/
def Stays (sz : Word) (p : UserM α) : Prop := Prog.Triple (Inside sz) p fun _ => Inside sz

theorem Reads.pure {R : α → Prop} {a : α} (h : R a) : Reads sz m (pure a) R :=
  Prog.Triple.pure fun _ hs => ⟨h, hs⟩

theorem Reads.bind {p : UserM α} {f : α → UserM β} {R : α → Prop} {R' : β → Prop}
    (hp : Reads sz m p R) (hf : ∀ a, R a → Reads sz m (f a) R') : Reads sz m (p >>= f) R' :=
  Prog.Triple.bind hp fun a => Prog.Triple.of_imp (hf a)

theorem Reads.mono {p : UserM α} {R R' : α → Prop} (hp : Reads sz m p R) (h : ∀ a, R a → R' a) :
    Reads sz m p R' :=
  Prog.Triple.weaken hp (fun _ hs => hs) fun a _ hs => ⟨h a hs.1, hs.2⟩

theorem Stays.pure {a : α} : Stays sz (pure a : UserM α) := Prog.Triple.pure fun _ hs => hs

theorem Stays.bind {p : UserM α} {f : α → UserM β} (hp : Stays sz p) (hf : ∀ a, Stays sz (f a)) :
    Stays sz (p >>= f) := Prog.Triple.bind hp hf

theorem reads_load {a : Word} (ha : a < sz) : Reads sz m (load a) fun b => b = m a := by
  rintro s ⟨hm, hs⟩
  refine ⟨s.byte a, { s with trace := a :: s.trace }, rfl, by rw [hm], hm, fun x hx => ?_⟩
  rcases List.mem_cons.1 hx with rfl | hx
  · exact ha
  · exact hs x hx

theorem stays_store {a : Word} {b : Byte} (ha : a < sz) : Stays sz (store a b) := by
  intro s hs
  refine ⟨(), { byte := Function.update s.byte a b, trace := a :: s.trace }, rfl, fun x hx => ?_⟩
  rcases List.mem_cons.1 hx with rfl | hx
  · exact ha
  · exact hs x hx

theorem le_trans_lt {a b d : Word} (h : a ≤ b) (h' : b < d) : a < d := Nat.lt_of_le_of_lt h h'

theorem lt_trans_le {a b d : Word} (h : a < b) (h' : b ≤ d) : a < d := Nat.lt_of_lt_of_le h h'

theorem succ_toNat {a e : Word} (h : a < e) : (a + 1).toNat = a.toNat + 1 := by
  have h₁ : a.toNat < e.toNat := h
  have h₂ := e.isLt
  rw [BitVec.toNat_add]
  exact Nat.mod_eq_of_lt (by simp; omega)

theorem reads_loads {n : ℕ} {a : Word} (h : a.toNat + n ≤ sz.toNat) :
    Reads sz m (loads a n) fun _ => True := by
  induction n generalizing a with
  | zero => exact .pure trivial
  | succ n ih =>
    have ha : a < sz := by
      show a.toNat < sz.toNat
      omega
    refine (reads_load ha).bind fun b _ => ?_
    refine (ih (by rw [succ_toNat ha]; omega)).bind fun bs _ => ?_
    exact .pure trivial

theorem stays_stores {bs : List Byte} {a : Word} (h : a.toNat + bs.length ≤ sz.toNat) :
    Stays sz (stores a bs) := by
  induction bs generalizing a with
  | nil => exact .pure
  | cons b bs ih =>
    rw [List.length_cons] at h
    have ha : a < sz := by
      show a.toNat < sz.toNat
      omega
    refine (stays_store ha).bind fun _ => ?_
    exact ih (by rw [succ_toNat ha]; omega)

theorem stays_storeInt {a w : Word} (h : a.toNat + 4 ≤ sz.toNat) : Stays sz (storeInt a w) :=
  stays_stores h

/-- An address at a small distance from one inside the process. -/
theorem add_lt {a k : Word} (h : a.toNat + k.toNat < sz.toNat) : a + k < sz := by
  have := sz.isLt
  show (a + k).toNat < sz.toNat
  rw [BitVec.toNat_add, Nat.mod_eq_of_lt (by omega)]
  exact h

theorem reads_loadInt {a : Word} (h : a.toNat + 4 ≤ sz.toNat) :
    Reads sz m (loadInt a) fun w => w = wordAt m a := by
  refine (reads_load (show a.toNat < sz.toNat by omega)).bind fun b₀ h₀ => ?_
  refine (reads_load (add_lt (show a.toNat + 1 < sz.toNat by omega))).bind fun b₁ h₁ => ?_
  refine (reads_load (add_lt (show a.toNat + 2 < sz.toNat by omega))).bind fun b₂ h₂ => ?_
  refine (reads_load (add_lt (show a.toNat + 3 < sz.toNat by omega))).bind fun b₃ h₃ => ?_
  exact .pure (by rw [h₀, h₁, h₂, h₃]; rfl)

/-! ### What the functions return -/

/-- The word that `argint` finds. -/
def argWord (c : Frame) (m : Word → Byte) (n : Word) : Option Word :=
  let addr := c.esp + 4 + 4 * n
  if addr ≥ c.sz ∨ addr + 4 > c.sz then none else some (wordAt m addr)

/-- The pointer that `argptr` accepts. -/
def argPtr (c : Frame) (m : Word → Byte) (n size : Word) : Option Word :=
  match argWord c m n with
  | none => none
  | some i => if size.toInt < 0 ∨ i ≥ c.sz ∨ i + size > c.sz then none else some i

/-- A string that ends inside the process. -/
def IsStr (sz : Word) (m : Word → Byte) (a : Word) : Prop := ∃ e, a ≤ e ∧ e < sz ∧ m e = 0

variable {c}

theorem toNat_of_nonneg {size : Word} (h : ¬ size.toInt < 0) : size.toNat < 2 ^ 31 := by
  by_contra hge
  have := size.isLt
  rw [BitVec.toInt_eq_toNat_cond] at h
  split at h <;> omega

/-- Below `KERNBASE` the end of a range that passes the check does not wrap around. -/
theorem range_le {i size : Word} (hc : c.sz < KERNBASE)
    (h : ¬ (size.toInt < 0 ∨ i ≥ c.sz ∨ i + size > c.sz)) : i.toNat + size.toNat ≤ c.sz.toNat := by
  obtain ⟨h₁, h₂, h₃⟩ : ¬ size.toInt < 0 ∧ ¬ i ≥ c.sz ∧ ¬ i + size > c.sz := by
    simpa only [not_or] using h
  have hsize := toNat_of_nonneg h₁
  have hi : i.toNat < c.sz.toNat := BitVec.not_le.1 h₂
  have hsz : c.sz.toNat < 2 ^ 31 := hc
  have h₃' : (i + size).toNat ≤ c.sz.toNat := BitVec.not_lt.1 h₃
  rwa [BitVec.toNat_add, Nat.mod_eq_of_lt (by omega)] at h₃'

theorem reads_fetchint (hc : c.sz < KERNBASE) (addr : Word) :
    Reads c.sz m (fetchint c addr) fun r =>
      r = if addr ≥ c.sz ∨ addr + 4 > c.sz then none else some (wordAt m addr) := by
  unfold fetchint
  split
  · exact .pure rfl
  · rename_i h
    have hle : addr.toNat + (4 : Word).toNat ≤ c.sz.toNat :=
      range_le hc (by rw [not_or] at h ⊢; exact ⟨by decide, not_or.2 h⟩)
    exact (reads_loadInt hle).bind fun w hw => .pure (by rw [hw])

theorem reads_argint (hc : c.sz < KERNBASE) (n : Word) :
    Reads c.sz m (argint c n) fun r => r = argWord c m n := reads_fetchint hc _

theorem reads_argptr (hc : c.sz < KERNBASE) (n size : Word) :
    Reads c.sz m (argptr c n size) fun r => r = argPtr c m n size := by
  refine (reads_argint hc n).bind fun r hr => ?_
  unfold argPtr
  rw [← hr]
  cases r with
  | none => exact .pure rfl
  | some i =>
    dsimp only
    split
    · exact .pure rfl
    · exact .pure rfl

theorem argPtr_le (hc : c.sz < KERNBASE) {n size i : Word} (h : argPtr c m n size = some i) :
    i.toNat + size.toNat ≤ c.sz.toNat := by
  unfold argPtr at h
  split at h
  · cases h
  · split at h
    · cases h
    · rename_i hn
      cases h
      exact range_le hc hn

theorem argPtr_size {n size i : Word} (h : argPtr c m n size = some i) : size.toNat < 2 ^ 31 := by
  unfold argPtr at h
  split at h
  · cases h
  · split at h
    · cases h
    · rename_i hn
      exact toNat_of_nonneg (not_or.1 hn).1

theorem reads_fetchstr {addr : Word} :
    Reads c.sz m (fetchstr c addr) fun r => r.isSome → IsStr c.sz m addr := by
  unfold fetchstr
  split
  · exact .pure (by simp)
  · rename_i h
    have haddr : addr < c.sz := BitVec.not_le.1 h
    -- the variant is the distance to the end of the memory
    refine Prog.Triple.weaken (Prog.Triple.loop
      (I := fun a s => (addr ≤ a ∧ a ≤ c.sz) ∧ Intact c.sz m s)
      (v := fun a => c.sz.toNat - a.toNat) (fun a => ?_) ?_) (fun s hs => ⟨⟨?_, ?_⟩, hs⟩) fun _ _ hs => hs
    · refine Prog.Triple.of_imp fun ⟨h₁, h₂⟩ => ?_
      split
      · rename_i hlt
        have hsucc := succ_toNat hlt
        have hlt' : a.toNat < c.sz.toNat := hlt
        refine Prog.Triple.bind (reads_load hlt) fun b => Prog.Triple.of_imp fun hb => ?_
        split
        · rename_i h0
          exact Prog.Triple.pure fun s hs => ⟨fun _ => ⟨a, h₁, hlt, hb ▸ h0⟩, hs⟩
        · refine Prog.Triple.pure fun s hs => ⟨⟨⟨?_, ?_⟩, hs⟩, by omega⟩
          · have h₁' : addr.toNat ≤ a.toNat := h₁
            show addr.toNat ≤ (a + 1).toNat
            omega
          · show (a + 1).toNat ≤ c.sz.toNat
            omega
      · exact Prog.Triple.pure fun s hs => ⟨by simp, hs⟩
    · have := c.sz.isLt
      unfold fuel
      omega
    · exact BitVec.le_refl _
    · exact BitVec.le_of_lt haddr

theorem reads_argstr (hc : c.sz < KERNBASE) (n : Word) :
    Reads c.sz m (argstr c n) fun r => ∀ a, r = some a → IsStr c.sz m a := by
  refine (reads_argint hc n).bind fun r _ => ?_
  cases r with
  | none => exact .pure (by simp)
  | some addr =>
    refine reads_fetchstr.bind fun r hr => ?_
    cases r with
    | none => exact .pure (by simp)
    | some len => exact .pure fun a ha => Option.some.inj ha ▸ hr rfl

end Xv6.Syscall
