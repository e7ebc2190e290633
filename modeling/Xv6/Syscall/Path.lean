import Xv6.Syscall.Arg

/-!
# Strings in user memory

The code that goes through a string argument after `fetchstr` has accepted it: path lookup, and what
`exec` does with the path and the argument strings. None of it looks at `sz` again; it stays inside
the process because every loop stops at the terminating zero.
-/

namespace Xv6.Syscall

open Lib

abbrev slash : Byte := 47

/-- `while(p(*a)) a++;` -/
def skipWhile (p : Byte → Bool) (a : Word) : UserM Word :=
  Prog.loop .loop (fun a => do
    let b ← load a
    if p b then pure (.inl (a + 1)) else pure (.inr a)) fuel a

/-- `skipelem`: the rest of the path and the name. -/
def skipelem (path : Word) : UserM (Option (Word × List Byte)) := do
  let path ← skipWhile (· == slash) path
  let b ← load path
  if b = 0 then pure none
  else
    let s := path
    let path ← skipWhile (fun b => b != slash && b != 0) path
    let len := path - s
    let name ← loads s (min len.toNat DIRSIZ)
    let path ← skipWhile (· == slash) path
    pure (some (path, name))

/-- The file tree that a lookup goes through. -/
structure Tree (N : Type) where
  root : N
  cwd : N
  isDir : N → Bool
  dirlookup : N → List Byte → Option N

variable {N : Type} (t : Tree N)

/-- The test `nameiparent && *path == '\0'` of `namex`. -/
def lastOne (parent : Bool) (path : Word) : UserM Bool :=
  if parent then do
    let b ← load path
    pure (decide (b = 0))
  else pure false

/-- One turn of the loop of `namex`, at the inode `ip` and with the name copied last. -/
def namexTurn (parent : Bool) : N × Word × List Byte →
    UserM ((N × Word × List Byte) ⊕ Option (N × List Byte))
  | (ip, path, name) => do
    match ← skipelem path with
    | none => pure (.inr (if parent then none else some (ip, name)))
    | some (path, name) =>
      if t.isDir ip = false then pure (.inr none)
      else
        let stop ← lastOne parent path
        if stop then pure (.inr (some (ip, name)))
        else
          match t.dirlookup ip name with
          | none => pure (.inr none)
          | some next => pure (.inl (next, path, name))

def namex (path : Word) (parent : Bool) : UserM (Option (N × List Byte)) := do
  let b ← load path
  let ip := if b = slash then t.root else t.cwd
  Prog.loop .loop (namexTurn t parent) fuel (ip, path, [])

def namei (path : Word) : UserM (Option (N × List Byte)) := namex t path false

def nameiparent (path : Word) : UserM (Option (N × List Byte)) := namex t path true

def strlen (s : Word) : UserM Word := do
  let e ← skipWhile (· != 0) s
  pure (e - s)

/-- The loop of `exec` that looks for the last path element. -/
def lastElem (path : Word) : UserM Word :=
  Prog.loop .loop (fun (s, last) => do
    let b ← load s
    if b = 0 then pure (.inr last)
    else pure (.inl (s + 1, if b = slash then s + 1 else last))) fuel (path, path)

/-- The reads of `safestrcpy(_, t, n)`. -/
def safestrcpy (t : Word) (n : ℕ) : UserM Unit :=
  Prog.loop .loop (fun (t, n) =>
    if n - 1 > 0 then do
      let b ← load t
      if b = 0 then pure (.inr ()) else pure (.inl (t + 1, n - 1))
    else pure (.inr ())) fuel (t, n)

/-! ### They stay inside the string -/

variable {t} {sz : Word} {m : Word → Byte} {e : Word}

/-- Inside a string that ends at `e`, a loop that a zero stops does not pass `e`. -/
theorem reads_skipWhile {p : Byte → Bool} (hp : p 0 = false) (he : e < sz) (h0 : m e = 0) {a : Word}
    (ha : a ≤ e) :
    Reads sz m (skipWhile p a) fun r => (a ≤ r ∧ r ≤ e) ∧ p (m r) = false := by
  refine Prog.Triple.weaken (Prog.Triple.loop
    (I := fun x s => (a ≤ x ∧ x ≤ e) ∧ Intact sz m s)
    (v := fun x => e.toNat - x.toNat) (fun x => ?_) ?_)
    (fun s hs => ⟨⟨BitVec.le_refl _, ha⟩, hs⟩) fun _ _ hs => hs
  · refine Prog.Triple.of_imp fun ⟨h₁, h₂⟩ => ?_
    have hx : x < sz := le_trans_lt h₂ he
    refine Prog.Triple.bind (reads_load hx) fun b => Prog.Triple.of_imp fun hb => ?_
    split
    · rename_i hpb
      have hne : x ≠ e := by
        rintro rfl
        rw [hb, h0, hp] at hpb
        cases hpb
      have hlt : x < e := BitVec.lt_of_le_ne h₂ hne
      have hsucc := succ_toNat hlt
      have hlt' : x.toNat < e.toNat := hlt
      refine Prog.Triple.pure fun s hs => ⟨⟨⟨?_, ?_⟩, hs⟩, by omega⟩
      · have h₁' : a.toNat ≤ x.toNat := h₁
        show a.toNat ≤ (x + 1).toNat
        omega
      · show (x + 1).toNat ≤ e.toNat
        omega
    · rename_i hpb
      exact Prog.Triple.pure fun s hs => ⟨⟨⟨h₁, h₂⟩, hb ▸ by simpa using hpb⟩, hs⟩
  · have := e.isLt
    unfold fuel
    omega

/-- `skipelem` goes on in the string, and always by at least one character. -/
theorem reads_skipelem (he : e < sz) (h0 : m e = 0) {a : Word} (ha : a ≤ e) :
    Reads sz m (skipelem a) fun r => ∀ p n, r = some (p, n) → a < p ∧ p ≤ e := by
  refine (reads_skipWhile (by decide) he h0 ha).bind fun s ⟨⟨h₁, h₂⟩, hs⟩ => ?_
  refine (reads_load (le_trans_lt h₂ he)).bind fun b hb => ?_
  split
  · exact .pure (by simp)
  · rename_i hb0
    refine (reads_skipWhile (by decide) he h0 h₂).bind fun p ⟨⟨h₃, h₄⟩, hp⟩ => ?_
    have hsp : s < p := by
      refine BitVec.lt_of_le_ne h₃ ?_
      rintro rfl
      rw [hb] at hb0
      simp_all
    have hlen : s.toNat + min (p - s).toNat DIRSIZ ≤ sz.toNat := by
      have h₃' : s.toNat ≤ p.toNat := h₃
      have h₄' : p.toNat ≤ e.toNat := h₄
      have he' : e.toNat < sz.toNat := he
      have hsub : (p - s).toNat = p.toNat - s.toNat := BitVec.toNat_sub_of_le h₃
      omega
    refine (reads_loads hlen).bind fun name _ => ?_
    refine (reads_skipWhile (by decide) he h0 h₄).bind fun q ⟨⟨h₅, h₆⟩, _⟩ => ?_
    refine .pure fun p' n hr => ?_
    obtain ⟨rfl, rfl⟩ := Prod.mk.inj (Option.some.inj hr)
    exact ⟨le_trans_lt h₁ (lt_trans_le hsp h₅), h₆⟩

theorem reads_namexTurn {parent : Bool} (he : e < sz) (h0 : m e = 0) {ip : N} {a : Word}
    {name : List Byte} (ha : a ≤ e) :
    Reads sz m (namexTurn t parent (ip, a, name)) fun r =>
      ∀ x, r = .inl x → a < x.2.1 ∧ x.2.1 ≤ e := by
  unfold namexTurn
  refine (reads_skipelem he h0 ha).bind fun r hr => ?_
  cases r with
  | none => exact .pure (by simp)
  | some x =>
    obtain ⟨p, n⟩ := x
    obtain ⟨h₁, h₂⟩ := hr p n rfl
    dsimp only
    split
    · exact .pure (by simp)
    · refine Reads.bind (R := fun _ => True) ?_ fun stop _ => ?_
      · unfold lastOne
        split
        · exact (reads_load (le_trans_lt h₂ he)).bind fun b _ => .pure trivial
        · exact .pure trivial
      · split
        · exact .pure (by simp)
        · split
          · exact .pure (by simp)
          · refine .pure fun x hx => ?_
            cases hx
            exact ⟨h₁, h₂⟩

theorem reads_namex {parent : Bool} {a : Word} (ha : IsStr sz m a) :
    Reads sz m (namex t a parent) fun _ => True := by
  obtain ⟨e, hae, he, h0⟩ := ha
  refine (reads_load (le_trans_lt hae he)).bind fun b _ => ?_
  dsimp only
  refine Prog.Triple.weaken (Prog.Triple.loop
    (I := fun x s => x.2.1 ≤ e ∧ Intact sz m s) (v := fun x => e.toNat - x.2.1.toNat)
    (fun x => ?_) ?_) (fun s hs => ⟨hae, hs⟩) fun _ _ hs => hs
  · obtain ⟨ip, p, name⟩ := x
    refine Prog.Triple.of_imp fun hp => ?_
    refine Prog.Triple.weaken (reads_namexTurn he h0 hp) (fun _ hs => hs) fun r s ⟨hr, hs⟩ => ?_
    cases r with
    | inl x =>
      obtain ⟨h₁, h₂⟩ := hr x rfl
      have h₁' : p.toNat < x.2.1.toNat := h₁
      have h₂' : x.2.1.toNat ≤ e.toNat := h₂
      exact ⟨⟨h₂, hs⟩, by show e.toNat - x.2.1.toNat < e.toNat - p.toNat; omega⟩
    | inr r => exact ⟨trivial, hs⟩
  · have := e.isLt
    unfold fuel
    omega

/-- The length that `strlen` returns is that of a string inside the process. -/
theorem reads_strlen {a : Word} (ha : IsStr sz m a) :
    Reads sz m (strlen a) fun n => a.toNat + (n + 1).toNat ≤ sz.toNat := by
  obtain ⟨e, hae, he, h0⟩ := ha
  refine (reads_skipWhile (by decide) he h0 hae).bind fun r ⟨⟨h₁, h₂⟩, _⟩ => .pure ?_
  have h₁' : a.toNat ≤ r.toNat := h₁
  have h₂' : r.toNat ≤ e.toNat := h₂
  have he' : e.toNat < sz.toNat := he
  have hsz := sz.isLt
  have hsub : (r - a).toNat = r.toNat - a.toNat := BitVec.toNat_sub_of_le h₁
  have hadd : (r - a + 1).toNat = (r - a).toNat + 1 := by
    rw [BitVec.toNat_add]
    exact Nat.mod_eq_of_lt (by simp; omega)
  omega

theorem reads_lastElem {a : Word} (hae : a ≤ e) (he : e < sz) (h0 : m e = 0) :
    Reads sz m (lastElem a) fun last => last ≤ e := by
  refine Prog.Triple.weaken (Prog.Triple.loop
    (I := fun x s => (x.1 ≤ e ∧ x.2 ≤ e) ∧ Intact sz m s) (v := fun x => e.toNat - x.1.toNat)
    (fun x => ?_) ?_) (fun s hs => ⟨⟨hae, hae⟩, hs⟩) fun _ _ hs => hs
  · obtain ⟨x, last⟩ := x
    refine Prog.Triple.of_imp fun ⟨h₁, h₂⟩ => ?_
    refine Prog.Triple.bind (reads_load (le_trans_lt h₁ he)) fun b => Prog.Triple.of_imp fun hb => ?_
    split
    · exact Prog.Triple.pure fun s hs => ⟨h₂, hs⟩
    · rename_i hb0
      have hlt : x < e := BitVec.lt_of_le_ne h₁ (by
        rintro rfl
        exact hb0 (hb.trans h0))
      have hsucc := succ_toNat hlt
      have hlt' : x.toNat < e.toNat := hlt
      have hle : x + 1 ≤ e := by
        show (x + 1).toNat ≤ e.toNat
        omega
      refine Prog.Triple.pure fun s hs => ⟨⟨⟨hle, ?_⟩, hs⟩, ?_⟩
      · dsimp only
        split
        · exact hle
        · exact h₂
      · show e.toNat - (x + 1).toNat < e.toNat - x.toNat
        omega
  · have := e.isLt
    unfold fuel
    dsimp only
    omega

theorem reads_safestrcpy {a : Word} {n : ℕ} (hn : n < fuel) (hae : a ≤ e) (he : e < sz)
    (h0 : m e = 0) : Reads sz m (safestrcpy a n) fun _ => True := by
  refine Prog.Triple.weaken (Prog.Triple.loop
    (I := fun x s => x.1 ≤ e ∧ Intact sz m s) (v := fun x => x.2)
    (fun x => ?_) hn) (fun s hs => ⟨hae, hs⟩) fun _ _ hs => hs
  obtain ⟨x, n⟩ := x
  refine Prog.Triple.of_imp fun h₁ => ?_
  dsimp only
  split
  · refine Prog.Triple.bind (reads_load (le_trans_lt h₁ he)) fun b => Prog.Triple.of_imp fun hb => ?_
    split
    · exact Prog.Triple.pure fun s hs => ⟨trivial, hs⟩
    · rename_i hb0
      have hlt : x < e := BitVec.lt_of_le_ne h₁ (by
        rintro rfl
        exact hb0 (hb.trans h0))
      have hsucc := succ_toNat hlt
      have hlt' : x.toNat < e.toNat := hlt
      refine Prog.Triple.pure fun s hs => ⟨⟨?_, hs⟩, ?_⟩
      · show (x + 1).toNat ≤ e.toNat
        omega
      · show n - 1 < n
        omega
  · exact Prog.Triple.pure fun s hs => ⟨trivial, hs⟩

end Xv6.Syscall
