import Xv6.Basic
import Xv6.Lib.Chain
import Xv6.Lib.Fold
import Xv6.Lib.Machine
import Mathlib.Data.Fintype.Card

/-!
# `ide.c`

The queue of disk requests, the disk, and its interrupts. A request is made by the process that
holds the lock of the buffer, so that the calls of `iderw` are told apart by their buffers. The
sections under `idelock` are steps: `iderw` up to its `sleep`, one turn of its loop after that, and
the whole of `ideintr`.

The disk finishes the command that it has been given and raises an interrupt, which is handled some
time later; besides there are interrupts that nothing has caused, while the queue is empty.
-/

namespace Xv6.Ide

open Lib

abbrev FSSIZE : ℕ := 1000

variable {B D : Type}

/-- A command as `idestart` gives it to the disk, for the buffer `buf`. -/
structure Command (B D : Type) where
  buf : B
  dev : ℕ
  blockno : ℕ
  /-- What is to be written, or nothing if the block is to be read. -/
  write : Option D

inductive Device (B D : Type)
  | idle
  /-- A command is in progress. -/
  | busy (c : Command B D)
  /-- The command is finished, with `IDE_ERR` or without, and its interrupt is raised. -/
  | done (c : Command B D) (err : Bool)

/-- The buffers, as far as `ide.c` reads them only. -/
structure Config (B : Type) where
  dev : B → ℕ
  blockno : B → ℕ
  havedisk1 : Bool

structure State (B D : Type) where
  idequeue : Option B := none
  qnext : B → Option B := fun _ => none
  /-- `B_VALID`. -/
  valid : B → Bool := fun _ => false
  /-- `B_DIRTY`. -/
  dirty : B → Bool := fun _ => false
  data : B → D
  disk : ℕ → ℕ → D
  device : Device B D := .idle
  /-- The process that holds the lock of the buffer is in the loop of `iderw`. -/
  waiting : B → Bool := fun _ => false
  /-- It is `SLEEPING`. -/
  sleeping : B → Bool := fun _ => false

/-- What a `struct buf **` can point to. -/
inductive Cell (B : Type)
  | idequeue
  | qnext (b : B)

inductive Act (B D : Type)
  /-- The process that holds the lock of `b` sets its flags and its data. -/
  | hold (b : B) (valid dirty : Bool) (data : D)
  | iderw (b : B)
  /-- The caller of `iderw(b)` goes on after `sleep`. -/
  | resume (b : B)
  /-- The caller of `iderw(b)` is killed, and so woken. -/
  | kill (b : B)
  /-- The disk finishes its command. -/
  | finish (err : Bool)
  | ideintr

/-- What a step shows: the argument of `idestart` if it is called, the buffer whose request is
completed, and the buffer whose `iderw` returns. -/
structure Out (B : Type) where
  started : Option B := none
  completed : Option B := none
  returned : Option B := none
  deriving DecidableEq

namespace State

/-- `*pp`. -/
def load (s : State B D) : Cell B → Option B
  | .idequeue => s.idequeue
  | .qnext b => s.qnext b

/-- `(b->flags & (B_VALID|B_DIRTY)) == B_VALID`. -/
def clean (s : State B D) (b : B) : Bool := s.valid b && !s.dirty b

/-- `for(pp = ...; *pp; pp = &(*pp)->qnext);`, for at most `fuel` turns. -/
def walk (s : State B D) : ℕ → Cell B → Option (Cell B)
  | 0, _ => none
  | fuel + 1, pp =>
    match s.load pp with
    | none => some pp
    | some b => s.walk fuel (.qnext b)

def idestart (cfg : Config B) (s : State B D) (b : B) : Except Fault (State B D) :=
  if FSSIZE ≤ cfg.blockno b then .error (.panic "incorrect blockno")
  else
    let write := if s.dirty b then some (s.data b) else none
    .ok { s with device := .busy ⟨b, cfg.dev b % 2, cfg.blockno b, write⟩ }

variable [DecidableEq B]

/-- `*pp = b`. -/
def store (s : State B D) (b : B) : Cell B → State B D
  | .idequeue => { s with idequeue := some b }
  | .qnext b' => { s with qnext := Function.update s.qnext b' (some b) }

/-- One turn of the loop at the end of `iderw`. -/
def await (s : State B D) (b : B) : State B D × Bool :=
  if s.clean b then ({ s with waiting := Function.update s.waiting b false }, true)
  else ({ s with
    waiting := Function.update s.waiting b true
    sleeping := Function.update s.sleeping b true }, false)

/-- `iderw`: append `b` to the queue. -/
def append [Fintype B] (s : State B D) (b : B) : Except Fault (State B D) :=
  let s := { s with qnext := Function.update s.qnext b none }
  match s.walk (Fintype.card B + 1) .idequeue with
  | some pp => .ok (s.store b pp)
  | none => .error .loop

/-- `iderw`: start the disk if necessary. -/
def start (cfg : Config B) (s : State B D) (b : B) : Except Fault (State B D × Option B) :=
  if s.idequeue = some b then do
    let s ← s.idestart cfg b
    .ok (s, some b)
  else .ok (s, none)

/-- `iderw`, up to `sleep`. -/
def iderw [Fintype B] (cfg : Config B) (s : State B D) (b : B) : Except Fault (State B D × Out B) :=
  if s.clean b then .error (.panic "iderw: nothing to do")
  else if cfg.dev b ≠ 0 ∧ cfg.havedisk1 = false then
    .error (.panic "iderw: ide disk 1 not present")
  else do
    let s ← s.append b
    let (s, started) ← s.start cfg b
    let (s, returns) := s.await b
    .ok (s, { started, returned := if returns then some b else none })

/-- `ideintr`: read data if needed. -/
def collect (s : State B D) (b : B) : Except Fault (State B D) :=
  match s.device with
  | .done c err =>
    .ok { s with
      device := .idle
      data := if !s.dirty b && !err then Function.update s.data b (s.disk c.dev c.blockno) else s.data }
  -- `idewait` does not come back
  | _ => .error .loop

def ideintr (cfg : Config B) (s : State B D) : Except Fault (State B D × Out B) :=
  match s.idequeue with
  | none => .ok (s, {})
  | some b => do
    let s ← { s with idequeue := s.qnext b }.collect b
    let s := { s with
      valid := Function.update s.valid b true
      dirty := Function.update s.dirty b false
      sleeping := Function.update s.sleeping b false }
    match s.idequeue with
    | none => .ok (s, { completed := some b })
    | some b' => do
      let s ← s.idestart cfg b'
      .ok (s, { started := some b', completed := some b })

def finish (s : State B D) (err : Bool) : Except Fault (State B D) :=
  match s.device with
  | .busy c =>
    let disk := match c.write with
      | some d => if err then s.disk
        else Function.update s.disk c.dev (Function.update (s.disk c.dev) c.blockno d)
      | none => s.disk
    .ok { s with device := .done c err, disk }
  | _ => .error .null

end State

variable [DecidableEq B]

def enabled (s : State B D) : Act B D → Bool
  | .hold b _ _ _ | .iderw b => !s.waiting b
  | .resume b => s.waiting b && !s.sleeping b
  | .kill b => s.waiting b
  | .finish _ => match s.device with
    | .busy _ => true
    | _ => false
  | .ideintr => match s.device with
    | .done _ _ => true
    | _ => s.idequeue.isNone

def exec [Fintype B] (cfg : Config B) (s : State B D) : Act B D → Except Fault (State B D × Out B)
  | .hold b valid dirty data =>
    .ok ({ s with
      valid := Function.update s.valid b valid
      dirty := Function.update s.dirty b dirty
      data := Function.update s.data b data }, {})
  | .iderw b => s.iderw cfg b
  | .resume b =>
    let (s, returns) := s.await b
    .ok (s, { returned := if returns then some b else none })
  | .kill b => .ok ({ s with sleeping := Function.update s.sleeping b false }, {})
  | .finish err => do
    let s ← s.finish err
    .ok (s, {})
  | .ideintr => s.ideintr cfg

/-- **The disk driver**, with what the buffers and the disk hold at first. -/
def ide [Fintype B] (cfg : Config B) (data : B → D) (disk : ℕ → ℕ → D) :
    Machine (State B D) (Act B D) (Out B) Fault :=
  ⟨{ data, disk }, enabled, exec cfg⟩

end Xv6.Ide
