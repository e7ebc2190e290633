import Xv6.Basic
import Xv6.Lib.Writes

/-!
# `log.c`: the on-disk log

The disk, the buffer cache as far as the log sees it, and the code of `log.c` that moves blocks
between them. A buffer that has no pinned contents reads as the disk does. Every write that reaches
the disk is recorded in order, so that a crash can cut the sequence anywhere.
-/

namespace Xv6.Log

open Lib

abbrev BlockNo := Word

instance : LawfulBEq BlockNo := instLawfulBEq

/-- The contents of a block: `BSIZE` bytes as 128 words. -/
abbrev Block := Fin 128 → Word

/-- The device as the log sees it. -/
structure Dev where
  disk : BlockNo → Block
  /-- The buffers that are pinned in the cache with `B_DIRTY`. -/
  dirty : BlockNo → Option Block := fun _ => none
  /-- The writes that have reached the disk, oldest first. -/
  writes : List (BlockNo × Block) := []

/-- `bread`: the pinned contents, or those of the disk. -/
def bread (d : Dev) (b : BlockNo) : Block := (d.dirty b).getD (d.disk b)

/-- `bwrite`: the contents reach the disk and the buffer is clean. -/
def bwrite (d : Dev) (b : BlockNo) (x : Block) : Dev where
  disk := Function.update d.disk b x
  dirty := Function.update d.dirty b none
  writes := d.writes ++ [(b, x)]

/-- `struct logheader`: the first `n` entries of `block`. -/
structure LogHeader where
  block : List BlockNo
  le : block.length ≤ LOGSIZE

def LogHeader.empty : LogHeader := ⟨[], by simp⟩

/-- The block `log.start+tail+1`. -/
def logBlock (start : Word) (tail : ℕ) : BlockNo := start + .ofNat 32 (tail + 1)

/-- What `write_head` makes of the header block: `n` and the first `n` entries are overwritten. -/
def encodeHead (lh : LogHeader) (x : Block) : Block := fun i =>
  if i.val = 0 then .ofNat 32 lh.block.length else lh.block[i.val - 1]?.getD (x i)

/-- What `read_head` reads off the header block. `n` is an `int`; more entries than `LOGSIZE` run
over the end of the array in memory. -/
def decodeHead (x : Block) : Except Fault LogHeader :=
  let n := (x 0).toInt
  if h : n.toNat ≤ LOGSIZE then
    .ok ⟨(List.range n.toNat).map fun i => x (.ofNat _ (i + 1)), by simpa using h⟩
  else .error .bounds

def readHead (start : Word) (d : Dev) : Except Fault LogHeader := decodeHead (bread d start)

def writeHead (start : Word) (lh : LogHeader) (d : Dev) : Dev :=
  bwrite d start (encodeHead lh (bread d start))

/-- The loop of `write_log` from `tail` on: copy from the cache to the log. -/
def writeLog (start : Word) : List BlockNo → ℕ → Dev → Dev
  | [], _, d => d
  | b :: bs, tail, d => writeLog start bs (tail + 1) (bwrite d (logBlock start tail) (bread d b))

/-- The loop of `install_trans` from `tail` on: copy from the log to the home location. -/
def installTrans (start : Word) : List BlockNo → ℕ → Dev → Dev
  | [], _, d => d
  | b :: bs, tail, d =>
    installTrans start bs (tail + 1) (bwrite d b (bread d (logBlock start tail)))

def commit (start : Word) (lh : LogHeader) (d : Dev) : Dev :=
  if lh.block.length > 0 then
    let d := writeLog start lh.block 0 d
    let d := writeHead start lh d
    let d := installTrans start lh.block 0 d
    writeHead start .empty d
  else d

def recoverFromLog (start : Word) (d : Dev) : Except Fault Dev :=
  match readHead start d with
  | .error e => .error e
  | .ok lh => .ok (writeHead start .empty (installTrans start lh.block 0 d))

/-! ### What the code writes -/

section emits

variable {d d' d'' : Dev} {ws vs : List (BlockNo × Block)} {b : BlockNo} {start : Word}

/-- The device has gone from `d` to `d'` by the writes `ws`. -/
structure Emits (d : Dev) (ws : List (BlockNo × Block)) (d' : Dev) : Prop where
  writes : d'.writes = d.writes ++ ws
  disk : d'.disk = perform ws d.disk
  dirty : ∀ b, d'.dirty b = if b ∈ ws.map Prod.fst then none else d.dirty b

theorem Emits.refl (d : Dev) : Emits d [] d := ⟨by simp, rfl, by simp⟩

theorem Emits.trans (h : Emits d ws d') (h' : Emits d' vs d'') : Emits d (ws ++ vs) d'' where
  writes := by rw [h'.writes, h.writes, List.append_assoc]
  disk := by rw [h'.disk, h.disk, perform_append]
  dirty b := by
    simp only [h'.dirty, h.dirty, List.map_append, List.mem_append]
    grind

theorem emits_bwrite (d : Dev) (b : BlockNo) (x : Block) : Emits d [(b, x)] (bwrite d b x) where
  writes := rfl
  disk := rfl
  dirty c := by simp [bwrite, Function.update_apply]

theorem Emits.bread_other (h : Emits d ws d') (hb : b ∉ ws.map Prod.fst) :
    bread d' b = bread d b := by
  simp only [bread, h.dirty, if_neg hb, h.disk, perform_other hb]

theorem Emits.bread_clean (h : Emits d ws d') (hb : d.dirty b = none) : bread d' b = d'.disk b := by
  have : d'.dirty b = none := by rw [h.dirty, hb]; simp
  simp [bread, this]

/-- The log blocks `tail`, `tail + 1`, … with the contents `f` of `bs`. -/
def logWrites (start : Word) (f : BlockNo → Block) : List BlockNo → ℕ → List (BlockNo × Block)
  | [], _ => []
  | b :: bs, tail => (logBlock start tail, f b) :: logWrites start f bs (tail + 1)

theorem writeLog_emits {f : BlockNo → Block} {bs : List BlockNo} {tail : ℕ}
    (hf : ∀ b ∈ bs, bread d b = f b)
    (hlog : ∀ b ∈ bs, ∀ t, t < tail + bs.length → b ≠ logBlock start t) :
    Emits d (logWrites start f bs tail) (writeLog start bs tail d) := by
  induction bs generalizing tail d with
  | nil => exact .refl d
  | cons b bs ih =>
    have he := emits_bwrite d (logBlock start tail) (bread d b)
    rw [hf b List.mem_cons_self] at he
    show Emits d ([(logBlock start tail, f b)] ++ _) _
    refine he.trans ?_
    rw [← hf b List.mem_cons_self]
    refine ih (fun c hc => ?_) fun c hc t ht => hlog c (.tail _ hc) t (by simp; omega)
    have hne : c ≠ logBlock start tail := hlog c (.tail _ hc) tail (by simp)
    rw [(emits_bwrite d _ _).bread_other (by simpa using hne)]
    exact hf c (.tail _ hc)

theorem installTrans_emits {f : BlockNo → Block} {bs : List BlockNo} {tail : ℕ}
    (hf : ∀ i (hi : i < bs.length), bread d (logBlock start (tail + i)) = f bs[i])
    (hlog : ∀ b ∈ bs, ∀ t, t < tail + bs.length → b ≠ logBlock start t) :
    Emits d (bs.map fun b => (b, f b)) (installTrans start bs tail d) := by
  induction bs generalizing tail d with
  | nil => exact .refl d
  | cons b bs ih =>
    have hb : bread d (logBlock start tail) = f b := hf 0 (by simp)
    have he := emits_bwrite d b (f b)
    simp only [installTrans, hb]
    show Emits d ([(b, f b)] ++ _) _
    refine he.trans (ih (fun i hi => ?_) fun c hc t ht => hlog c (.tail _ hc) t (by simp; omega))
    have hne : logBlock start (tail + 1 + i) ≠ b :=
      (hlog b List.mem_cons_self _ (by simp; omega)).symm
    rw [he.bread_other (by simpa using hne)]
    have := hf (i + 1) (by simpa using hi)
    simpa [Nat.add_assoc, Nat.add_comm 1 i] using this

end emits

end Xv6.Log
