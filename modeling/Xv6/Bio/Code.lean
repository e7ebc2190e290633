import Xv6.Ide.Code
import Xv6.Lib.Dll

/-!
# `bio.c`

The buffer cache over the disk driver. Processes call `bread`, `bwrite`, `log_write` and `brelse`;
what they do in between with a buffer whose lock they hold is a change of its data. The steps are the
sections under `bcache.lock`, the lock of a buffer being taken and given back, and the steps of the
driver. A commit of the log is a process that reads, changes, writes and releases buffers like any
other, and of `log_write` there is only what it does to the buffer.

The kernel has `NBUF` buffers; here there are `n`.
-/

namespace Xv6.Bio

open Lib

/-- Device number of the file system's disk. -/
abbrev ROOTDEV : ℕ := 1

abbrev NBUF : ℕ := MAXOPBLOCKS * 3

variable {n : ℕ} {P D : Type}

/-- A call of `bread`. -/
structure Block where
  dev : ℕ
  blockno : ℕ
  deriving DecidableEq

inductive Pc (n : ℕ)
  /-- Not in `bio.c`. -/
  | out
  /-- In `bread`, at `acquiresleep`. -/
  | lock (k : Block) (b : Fin n)
  /-- In `bread`, with the lock of the buffer. -/
  | test (k : Block) (b : Fin n)
  /-- In `iderw`, called by `bread`, or by `bwrite`. -/
  | iderw (k : Option Block) (b : Fin n)
  /-- In `brelse`, after `releasesleep`. -/
  | unref (b : Fin n)
  deriving DecidableEq

structure State (n : ℕ) (P D : Type) where
  /-- `flags`, `data` and `qnext` of the buffers, and the disk. -/
  ide : Ide.State (Fin n) D
  /-- `dev` and `blockno`. -/
  block : Fin n → Block := fun _ => ⟨0, 0⟩
  refcnt : Fin n → ℕ := fun _ => 0
  /-- `next` and `prev`, with `none` for `&bcache.head`. -/
  links : Links (Fin n)
  /-- The process that holds the lock of the buffer. -/
  lock : Fin n → Option P := fun _ => none
  pc : P → Pc n := fun _ => .out
  /-- The data has been changed by the holder of the lock, who has to call `log_write` or `bwrite`
  before `brelse`. -/
  owed : Fin n → Bool := fun _ => false

inductive Act (n : ℕ) (P D : Type)
  /-- `bread` up to `acquiresleep`. -/
  | bget (p : P) (k : Block)
  /-- `acquiresleep` comes back. -/
  | acquire (p : P)
  /-- The rest of `bread`, up to the `sleep` of `iderw`. -/
  | test (p : P)
  /-- The process goes on after the `sleep` of `iderw`. -/
  | resume (p : P)
  /-- The process is killed, and so woken from the `sleep` of `iderw`. -/
  | kill (p : P)
  /-- The process changes the data. -/
  | modify (p : P) (b : Fin n) (d : D)
  | bwrite (p : P) (b : Fin n)
  | logWrite (p : P) (b : Fin n)
  /-- `brelse` up to `releasesleep`. -/
  | brelse (p : P) (b : Fin n)
  /-- The rest of `brelse`. -/
  | unref (p : P)
  | finish (err : Bool)
  | ideintr

structure Out (n : ℕ) (D : Type) where
  /-- The buffer that `bget` takes for another block. -/
  recycled : Option (Fin n) := none
  /-- The call of `bread` that returns, and what it returns. -/
  bread : Option (Block × Fin n) := none
  /-- The data that `ideintr` reads from the disk, the block that it belongs to, and the buffer. -/
  read : Option (Fin n × Block × D) := none
  deriving DecidableEq

namespace State

/-- The buffers as `ide.c` sees them. -/
def cfg (havedisk1 : Bool) (s : State n P D) : Ide.Config (Fin n) :=
  ⟨fun b => (s.block b).dev, fun b => (s.block b).blockno, havedisk1⟩

def binit (data : Fin n → D) (disk : ℕ → ℕ → D) : State n P D where
  ide := { data, disk }
  links := (List.finRange n).foldl Links.pushFront .empty

/-- `bget` up to `acquiresleep`: the buffer, and whether it has been recycled. -/
def bget (s : State n P D) (k : Block) : Except Fault (State n P D × Fin n × Bool) :=
  -- is the block already cached?
  match findLink s.links.next (fun b => s.block b = k) n (s.links.next none) with
  | none => .error .loop
  | some (some b) => .ok ({ s with refcnt := Function.update s.refcnt b (s.refcnt b + 1) }, b, false)
  | some none =>
    -- not cached; recycle an unused buffer
    match findLink s.links.prev (fun b => s.refcnt b = 0 && !s.ide.dirty b) n (s.links.prev none) with
    | none => .error .loop
    | some (some b) =>
      .ok ({ s with
        block := Function.update s.block b k
        ide := { s.ide with
          valid := Function.update s.ide.valid b false
          dirty := Function.update s.ide.dirty b false }
        refcnt := Function.update s.refcnt b 1 }, b, true)
    | some none => .error (.panic "bget: no buffers")

variable [DecidableEq P]

/-- `b->flags |= B_DIRTY`. -/
def markDirty (s : State n P D) (b : Fin n) : State n P D :=
  { s with
    ide := { s.ide with dirty := Function.update s.ide.dirty b true }
    owed := Function.update s.owed b false }

def iderw (havedisk1 : Bool) (s : State n P D) (p : P) (k : Option Block) (b : Fin n) :
    Except Fault (State n P D) := do
  let (ide, _) ← s.ide.iderw (s.cfg havedisk1) b
  .ok { s with ide, pc := Function.update s.pc p (.iderw k b) }

/-- The rest of `bread`. -/
def test (havedisk1 : Bool) (s : State n P D) (p : P) (k : Block) (b : Fin n) :
    Except Fault (State n P D × Out n D) :=
  if s.ide.valid b then
    .ok ({ s with pc := Function.update s.pc p .out }, { bread := some (k, b) })
  else do
    let s ← s.iderw havedisk1 p (some k) b
    .ok (s, {})

/-- A turn of the loop of `iderw`. -/
def resume (s : State n P D) (p : P) (k : Option Block) (b : Fin n) : State n P D × Out n D :=
  let (ide, returns) := s.ide.await b
  if returns then
    ({ s with ide, pc := Function.update s.pc p .out }, { bread := k.map fun k => (k, b) })
  else ({ s with ide }, {})

def bwrite (havedisk1 : Bool) (s : State n P D) (p : P) (b : Fin n) : Except Fault (State n P D) :=
  if s.lock b ≠ some p then .error (.panic "bwrite")
  else (s.markDirty b).iderw havedisk1 p none b

/-- `brelse` up to `releasesleep`. -/
def brelse (s : State n P D) (p : P) (b : Fin n) : Except Fault (State n P D) :=
  if s.lock b ≠ some p then .error (.panic "brelse")
  else .ok { s with
    lock := Function.update s.lock b none
    pc := Function.update s.pc p (.unref b) }

/-- The rest of `brelse`. -/
def unref (s : State n P D) (p : P) (b : Fin n) : State n P D :=
  let s := { s with
    refcnt := Function.update s.refcnt b (s.refcnt b - 1)
    pc := Function.update s.pc p .out }
  -- no one is waiting for it
  if s.refcnt b = 0 then { s with links := (s.links.unlink b).pushFront b } else s

end State

/-- The data that the next interrupt reads. -/
def incoming (s : State n P D) : Option (Fin n × Block × D) :=
  match s.ide.idequeue, s.ide.device with
  | some b, .done c false =>
    if s.ide.dirty b then none else some (b, ⟨c.dev, c.blockno⟩, s.ide.disk c.dev c.blockno)
  | _, _ => none

variable [DecidableEq P]

def enabled (s : State n P D) : Act n P D → Bool
  | .bget p _ | .bwrite p _ | .brelse p _ => s.pc p = .out
  | .modify p b _ | .logWrite p b => s.pc p = .out ∧ s.lock b = some p
  | .acquire p => match s.pc p with
    | .lock _ b => s.lock b = none
    | _ => false
  | .test p => match s.pc p with
    | .test _ _ => true
    | _ => false
  | .resume p => match s.pc p with
    | .iderw _ b => Ide.enabled s.ide (.resume b)
    | _ => false
  | .kill p => match s.pc p with
    | .iderw _ _ => true
    | _ => false
  | .unref p => match s.pc p with
    | .unref _ => true
    | _ => false
  | .finish err => Ide.enabled s.ide (.finish err)
  | .ideintr => Ide.enabled s.ide .ideintr

def exec (havedisk1 : Bool) (s : State n P D) : Act n P D → Except Fault (State n P D × Out n D)
  | .bget p k => do
    let (s, b, recycled) ← s.bget k
    .ok ({ s with pc := Function.update s.pc p (.lock k b) }, { recycled := if recycled then some b else none })
  | .acquire p => match s.pc p with
    | .lock k b => .ok ({ s with
        lock := Function.update s.lock b (some p)
        pc := Function.update s.pc p (.test k b) }, {})
    | _ => .error .stale
  | .test p => match s.pc p with
    | .test k b => s.test havedisk1 p k b
    | _ => .error .stale
  | .resume p => match s.pc p with
    | .iderw k b => .ok (s.resume p k b)
    | _ => .error .stale
  | .kill p => match s.pc p with
    | .iderw _ b => .ok ({ s with
        ide := { s.ide with sleeping := Function.update s.ide.sleeping b false } }, {})
    | _ => .error .stale
  | .modify _ b d => .ok ({ s with
      ide := { s.ide with data := Function.update s.ide.data b d }
      -- a buffer that is in the log need not be logged again
      owed := Function.update s.owed b (s.owed b || !s.ide.dirty b) }, {})
  | .bwrite p b => do
    let s ← s.bwrite havedisk1 p b
    .ok (s, {})
  | .logWrite _ b => .ok (s.markDirty b, {})
  | .brelse p b => do
    let s ← s.brelse p b
    .ok (s, {})
  | .unref p => match s.pc p with
    | .unref b => .ok (s.unref p b, {})
    | _ => .error .stale
  | .finish err => do
    let ide ← s.ide.finish err
    .ok ({ s with ide }, {})
  | .ideintr => do
    let (ide, _) ← s.ide.ideintr (s.cfg havedisk1)
    .ok ({ s with ide }, { read := incoming s })

/-- **The buffer cache**, with what the buffers and the disk hold at first. -/
def bcache (havedisk1 : Bool) (data : Fin n → D) (disk : ℕ → ℕ → D) :
    Machine (State n P D) (Act n P D) (Out n D) Fault :=
  ⟨.binit data disk, enabled, exec havedisk1⟩

end Xv6.Bio
