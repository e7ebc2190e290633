import Xv6.Log.Disk
import Xv6.Lib.Machine

/-!
# `log.c`: operations in progress

`begin_op`, `log_write`, `end_op` and the steps of `commit`, run by any processes in any order. A
step is a section under `log.lock`, the unlocked test at the top of `log_write`, or one disk write
of `commit`, which holds no lock.
-/

namespace Xv6.Log

open Lib

/-- Where a process is in the code of `log.c`. -/
inductive Pc
  /-- Outside any operation. -/
  | out
  /-- In `begin_op`, asleep on `&log`. -/
  | asleep
  /-- In `begin_op`, awake and about to test again. -/
  | retry
  /-- Between `begin_op` and `end_op`; the distinct blocks that the operation has logged. -/
  | inOp (logged : List BlockNo)
  /-- In `log_write(b)`, past the unlocked tests. -/
  | checked (logged : List BlockNo) (b : BlockNo)
  /-- In `end_op`, about to call `commit`. -/
  | commit
  /-- In `write_log`. -/
  | writeLog (tail : ℕ)
  /-- About to write the header. -/
  | writeHead
  /-- In `install_trans`. -/
  | installTrans (tail : ℕ)
  /-- About to set `log.lh.n = 0`. -/
  | clear
  /-- About to write the empty header. -/
  | eraseHead
  /-- In `end_op`, after `commit`. -/
  | committed
  deriving DecidableEq

/-- `struct log`, and where every process is. -/
structure State (P : Type) where
  /-- `log.lh.block[0..n)`. -/
  lh : List BlockNo := []
  outstanding : ℤ := 0
  committing : Bool := false
  pc : P → Pc := fun _ => .out

inductive Act (P : Type)
  /-- `begin_op`, one turn of its loop. -/
  | beginOp (p : P)
  /-- A sleeper wakes up by itself, as after a `kill`. -/
  | wake (p : P)
  /-- `log_write(b)`: the unlocked tests. -/
  | check (p : P) (b : BlockNo)
  /-- `log_write(b)`: the locked section. -/
  | logWrite (p : P) (b : BlockNo)
  /-- `end_op`, its first locked section. -/
  | endOp (p : P)
  /-- The next step of `commit`, or the last locked section of `end_op`. -/
  | commit (p : P)
  deriving DecidableEq

inductive Out
  | done
  /-- `begin_op` returns. -/
  | admitted
  /-- `begin_op` sleeps. -/
  | asleep
  /-- `end_op` goes on to `commit`. -/
  | commits
  /-- `write_log` has copied the block `b` to the log. -/
  | copied (b : BlockNo)
  /-- `write_head` has written a header with `n` entries. -/
  | header (n : ℕ)
  /-- `install_trans` has written the home block `b`. -/
  | installed (b : BlockNo)
  /-- `log.committing = 0`. -/
  | finished
  deriving DecidableEq

variable {P : Type} [DecidableEq P]

namespace State

def setPc (s : State P) (p : P) (x : Pc) : State P := { s with pc := Function.update s.pc p x }

@[simp] theorem setPc_pc_self (s : State P) (p : P) (x : Pc) : (s.setPc p x).pc p = x := by
  simp [setPc]

theorem setPc_pc (s : State P) (p q : P) (x : Pc) :
    (s.setPc p x).pc q = if q = p then x else s.pc q := by
  simp [setPc, Function.update_apply]

@[simp] theorem setPc_lh (s : State P) (p : P) (x : Pc) : (s.setPc p x).lh = s.lh := rfl
@[simp] theorem setPc_outstanding (s : State P) (p : P) (x : Pc) :
    (s.setPc p x).outstanding = s.outstanding := rfl
@[simp] theorem setPc_committing (s : State P) (p : P) (x : Pc) :
    (s.setPc p x).committing = s.committing := rfl

/-- `wakeup(&log)`. -/
def wakeup (s : State P) : State P :=
  { s with pc := fun p => if s.pc p = .asleep then .retry else s.pc p }

end State

def enabled (s : State P) : Act P → Bool
  | .beginOp p => s.pc p = .out || s.pc p = .retry
  | .wake p => s.pc p = .asleep
  | .check p _ => match s.pc p with | .inOp _ => true | _ => false
  | .logWrite p b => match s.pc p with | .checked _ c => b = c | _ => false
  | .endOp p => match s.pc p with | .inOp _ => true | _ => false
  | .commit p =>
    match s.pc p with
    | .commit | .writeLog _ | .writeHead | .installTrans _ | .clear | .eraseHead | .committed => true
    | _ => false

/-- One turn of the loop of `begin_op`. -/
def beginOp (s : State P) (p : P) : State P × Out :=
  if s.committing then (s.setPc p .asleep, .asleep)
  else if s.lh.length + (s.outstanding + 1) * MAXOPBLOCKS > LOGSIZE then
    (s.setPc p .asleep, .asleep)
  else ({ s.setPc p (.inOp []) with outstanding := s.outstanding + 1 }, .admitted)

/-- The unlocked tests of `log_write`. -/
def check (size : ℤ) (s : State P) (p : P) (b : BlockNo) (logged : List BlockNo) :
    Except Fault (State P × Out) :=
  if s.lh.length ≥ LOGSIZE ∨ s.lh.length ≥ size - 1 then .error (.panic "too big a transaction")
  else if s.outstanding < 1 then .error (.panic "log_write outside of trans")
  else .ok (s.setPc p (.checked logged b), .done)

/-- The locked section of `log_write`: a block that is not in the list yet is appended. -/
def logWrite (s : State P) (p : P) (b : BlockNo) (logged : List BlockNo) :
    Except Fault (State P × Out) :=
  let s' := s.setPc p (.inOp (logged.insert b))
  if b ∈ s.lh then .ok (s', .done)
  else if s.lh.length < LOGSIZE then .ok ({ s' with lh := s.lh ++ [b] }, .done)
  else .error .bounds

/-- The first locked section of `end_op`. -/
def endOp (s : State P) (p : P) : Except Fault (State P × Out) :=
  let s := { s with outstanding := s.outstanding - 1 }
  if s.committing then .error (.panic "log.committing")
  else if s.outstanding = 0 then .ok ({ s.setPc p .commit with committing := true }, .commits)
  else .ok (s.wakeup.setPc p .out, .done)

/-- The steps of `commit` and the end of `end_op`. -/
def commitStep (s : State P) (p : P) : Pc → Except Fault (State P × Out)
  | .commit => .ok (s.setPc p (if s.lh.length > 0 then .writeLog 0 else .committed), .done)
  | .writeLog tail =>
    match s.lh[tail]? with
    | some b => .ok (s.setPc p (.writeLog (tail + 1)), .copied b)
    | none => .ok (s.setPc p .writeHead, .done)
  | .writeHead => .ok (s.setPc p (.installTrans 0), .header s.lh.length)
  | .installTrans tail =>
    match s.lh[tail]? with
    | some b => .ok (s.setPc p (.installTrans (tail + 1)), .installed b)
    | none => .ok (s.setPc p .clear, .done)
  | .clear => .ok ({ s.setPc p .eraseHead with lh := [] }, .done)
  | .eraseHead => .ok (s.setPc p .committed, .header s.lh.length)
  | .committed => .ok ({ s.wakeup.setPc p .out with committing := false }, .finished)
  | _ => .error .null

def exec (size : ℤ) (s : State P) : Act P → Except Fault (State P × Out)
  | .beginOp p => .ok (beginOp s p)
  | .wake p => .ok (s.setPc p .retry, .done)
  | .check p b =>
    match s.pc p with
    | .inOp logged => check size s p b logged
    | _ => .error .null
  | .logWrite p b =>
    match s.pc p with
    | .checked logged _ => logWrite s p b logged
    | _ => .error .null
  | .endOp p => endOp s p
  | .commit p => commitStep s p (s.pc p)

abbrev Event (P : Type) := Act P × Out

/-- **The log** of a file system whose superblock says `nlog = size`. -/
def log (P : Type) [DecidableEq P] (size : ℤ) : Machine (State P) (Act P) Out Fault :=
  ⟨{}, enabled, exec size⟩

/-- The size that `mkfs` writes into the superblock: `nlog = LOGSIZE`. -/
def nlog : ℤ := LOGSIZE

theorem step_iff {size : ℤ} {s s' : State P} {e : Event P} :
    (log P size).Step s e s' ↔ enabled s e.1 = true ∧ exec size s e.1 = .ok (s', e.2) := Iff.rfl

end Xv6.Log
