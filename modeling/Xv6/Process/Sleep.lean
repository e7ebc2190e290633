import Xv6.Process.Table
import Xv6.Lib.Machine

/-!
# `sleep` and `wakeup`

The hand-over from a condition's lock to `ptable.lock` in `sleep`, instruction by instruction: any
number of processes on any number of CPUs take the lock `lk`, wait on the channel `chan` while the
condition on the data under `lk` is false, change the data, and wake the channel before they give
`lk` back if they have made the condition true. `lk` may be `ptable.lock` itself, as in `wait`; then
`sleep` keeps it and the waker calls `wakeup1`. The processes may also sleep on other channels, wake
any channel and yield.

Which runnable process a scheduler takes is left open, so all four builds are covered.
-/

namespace Xv6.Process.Sleep

open Lib

inductive LockId
  | ptable | other
  deriving DecidableEq

/-- What a kernel thread does next. In `sleep`, `own` says that the lock to give back is `lk`; in
`wakeup`, `held` says that the caller has `lk`. -/
inductive Pc (Ch : Type)
  /-- Outside the critical section, with no lock. -/
  | out
  /-- `acquire(lk)`. -/
  | acquire
  /-- In the critical section. -/
  | inside
  /-- `sleep`: `acquire(&ptable.lock)`. -/
  | sleep (own : Bool) (ch : Ch)
  /-- `sleep`: `release(lk)`. -/
  | unlock (own : Bool) (ch : Ch)
  /-- `sleep`: `p->chan = chan`. -/
  | setChan (own : Bool) (ch : Ch)
  /-- `sleep`: `p->state = SLEEPING`. -/
  | setState (own : Bool) (ch : Ch)
  /-- `sleep`: `sched()`. -/
  | sched (own : Bool)
  /-- Switched away in `sleep`. -/
  | asleep (own : Bool)
  /-- `sleep`: `p->chan = 0`. -/
  | tidy (own : Bool)
  /-- `sleep`: `release(&ptable.lock)`, before the lock is taken again. -/
  | relock (own : Bool)
  /-- `wakeup`: `acquire(&ptable.lock)`. -/
  | wakeup (held : Bool) (ch : Ch)
  /-- `wakeup1`, at the slot `i`. -/
  | scan (held : Bool) (ch : Ch) (i : ℕ)
  /-- `wakeup`: `release(&ptable.lock)`. -/
  | wakeEnd (held : Bool)
  /-- `yield`: `acquire(&ptable.lock)`. -/
  | yield
  /-- `yield`: `p->state = RUNNABLE`. -/
  | setRunnable
  /-- `yield`: `sched()`. -/
  | yieldSched
  /-- Switched away in `yield`, or never run. -/
  | yielded
  /-- `yield` and `forkret`: `release(&ptable.lock)`. -/
  | yieldEnd
  deriving DecidableEq

/-- What a CPU is doing. -/
inductive Cpu (n : ℕ)
  /-- The scheduler, before `acquire(&ptable.lock)`. -/
  | idle
  /-- The scheduler, looking for a process with the lock held. -/
  | looking
  /-- A process. -/
  | run (p : Fin n)
  /-- The scheduler, just back from a process: `c->proc = 0`. -/
  | back
  deriving DecidableEq

/-- The state of `n` processes on the CPUs `C`, with data `D` under `lk`. -/
structure State (n : ℕ) (C D Ch : Type) where
  pc : Fin n → Pc Ch := fun _ => .yielded
  state : Fin n → ProcState := fun _ => .runnable
  chan : Fin n → Option Ch := fun _ => none
  cpu : C → Cpu n := fun _ => .idle
  lock : LockId → Option C := fun _ => none
  data : D
  /-- The condition has been made true under `lk`, and the channel has not been woken since. -/
  owed : Bool := false

inductive Instr (n : ℕ) (D Ch : Type)
  /-- Outside: go for `lk`. -/
  | enter
  /-- Call `wakeup`, or `wakeup1` with `ptable.lock` held. -/
  | wakeup (ch : Ch)
  /-- Call `sleep` on another channel than the condition's. -/
  | sleep (ch : Ch)
  /-- Outside: `yield`, from a timer interrupt. -/
  | yield
  /-- Inside: a turn of `while(!C) sleep(chan, lk)`. -/
  | wait
  /-- Inside: change the data. -/
  | write (d : D)
  /-- Inside: `release(lk)`. -/
  | leave
  /-- The scheduler takes the process `p`. -/
  | dispatch (p : Fin n)
  /-- The scheduler gives the lock back. -/
  | giveUp
  /-- The next instruction of a function that has been called. -/
  | next

variable {n : ℕ} {C D Ch : Type} [DecidableEq C] [DecidableEq Ch]

/-! ### The code -/

section code

variable (lk : LockId) (chan : Ch) (cond : D → Bool)

def State.goto (s : State n C D Ch) (p : Fin n) (x : Pc Ch) : State n C D Ch :=
  { s with pc := Function.update s.pc p x }

/-- `acquire`, once the lock is free. -/
def State.acquire (s : State n C D Ch) (c : C) (l : LockId) : Except Fault (State n C D Ch) :=
  if s.lock l = some c then .error (.panic "acquire")
  else .ok { s with lock := Function.update s.lock l (some c) }

def State.release (s : State n C D Ch) (c : C) (l : LockId) : Except Fault (State n C D Ch) :=
  if s.lock l ≠ some c then .error (.panic "release")
  else .ok { s with lock := Function.update s.lock l none }

/-- `sched`, up to the switch to the scheduler. -/
def State.sched (s : State n C D Ch) (c : C) (p : Fin n) : Except Fault (State n C D Ch) :=
  if s.lock .ptable ≠ some c then .error (.panic "sched ptable.lock")
  else if s.lock .other = some c then .error (.panic "sched locks")
  else if s.state p = .running then .error (.panic "sched running")
  else .ok { s with cpu := Function.update s.cpu c .back }

/-- One turn of the loop of `wakeup1`. -/
def State.wake (s : State n C D Ch) (ch : Ch) (p : Fin n) : State n C D Ch :=
  if s.state p = .sleeping ∧ s.chan p = some ch then
    { s with state := Function.update s.state p .runnable }
  else s

/-- Where `sleep` begins: with `ptable.lock` in the caller's hands it is not taken. -/
def sleepPc (own : Bool) (ch : Ch) : Pc Ch :=
  if own ∧ lk = LockId.ptable then .setChan own ch else .sleep own ch

/-- Where `wakeup` begins, or `wakeup1` if the caller has `ptable.lock`. -/
def wakeupPc (held : Bool) (ch : Ch) : Pc Ch :=
  if held ∧ lk = LockId.ptable then .scan held ch 0 else .wakeup held ch

def next (s : State n C D Ch) (c : C) (p : Fin n) : Except Fault (State n C D Ch) :=
  match s.pc p with
  | .acquire => do pure ((← s.acquire c lk).goto p .inside)
  | .sleep own ch => do pure ((← s.acquire c .ptable).goto p (.unlock own ch))
  | .unlock own ch => do
    let s ← if own then s.release c lk else pure s
    pure (s.goto p (.setChan own ch))
  | .setChan own ch =>
    .ok ({ s with chan := Function.update s.chan p (some ch) }.goto p (.setState own ch))
  | .setState own _ =>
    .ok ({ s with state := Function.update s.state p .sleeping }.goto p (.sched own))
  | .sched own => do pure ((← s.sched c p).goto p (.asleep own))
  | .tidy own =>
    .ok ({ s with chan := Function.update s.chan p none }.goto p
      (if own ∧ lk = LockId.ptable then .inside else .relock own))
  | .relock own => do
    pure ((← s.release c .ptable).goto p (if own then .acquire else .out))
  | .wakeup held ch => do pure ((← s.acquire c .ptable).goto p (.scan held ch 0))
  | .scan held ch i =>
    if h : i < n then .ok ((s.wake ch ⟨i, h⟩).goto p (.scan held ch (i + 1)))
    else
      .ok ({ s with owed := s.owed && !(held && ch = chan) }.goto p
        (if held ∧ lk = LockId.ptable then .inside else .wakeEnd held))
  | .wakeEnd held => do
    pure ((← s.release c .ptable).goto p (if held then .inside else .out))
  | .yield => do pure ((← s.acquire c .ptable).goto p .setRunnable)
  | .setRunnable =>
    .ok ({ s with state := Function.update s.state p .runnable }.goto p .yieldSched)
  | .yieldSched => do pure ((← s.sched c p).goto p .yielded)
  | .yieldEnd => do pure ((← s.release c .ptable).goto p .out)
  | .out | .inside | .asleep _ | .yielded => .ok s

/-- Where a process goes on that has been switched to. -/
def Pc.resume : Pc Ch → Pc Ch
  | .asleep own => .tidy own
  | .yielded => .yieldEnd
  | x => x

/-- The lock that the next instruction spins for. -/
def Pc.wants : Pc Ch → Option LockId
  | .acquire => some lk
  | .sleep _ _ | .wakeup _ _ | .yield => some .ptable
  | _ => none

/-- The process is in the middle of a function. -/
def Pc.busy : Pc Ch → Bool
  | .out | .inside | .asleep _ | .yielded => false
  | _ => true

/-- CPU `c` can run the instruction now. A process that has made the condition true wakes the channel
before it gives `lk` back, and nobody sleeps on the channel but for the condition. -/
def enabled (s : State n C D Ch) : C × Instr n D Ch → Bool
  | (c, .enter) | (c, .yield) => match s.cpu c with | .run p => s.pc p = .out | _ => false
  | (c, .wakeup _) => match s.cpu c with | .run p => s.pc p = .out || s.pc p = .inside | _ => false
  | (c, .sleep ch) =>
    match s.cpu c with
    | .run p => ch ≠ chan && (s.pc p = .out || s.pc p = .inside && !s.owed)
    | _ => false
  | (c, .wait) | (c, .write _) => match s.cpu c with | .run p => s.pc p = .inside | _ => false
  | (c, .leave) => match s.cpu c with | .run p => s.pc p = .inside && !s.owed | _ => false
  | (c, .dispatch p) => s.cpu c = .looking && s.state p = .runnable
  | (c, .giveUp) => s.cpu c = .looking
  | (c, .next) =>
    match s.cpu c with
    | .run p => (s.pc p).busy && ((s.pc p).wants lk).all fun l => s.lock l = none ∨ s.lock l = some c
    | .idle => s.lock .ptable = none || s.lock .ptable = some c
    | .back => true
    | .looking => false

def instr (s : State n C D Ch) (c : C) (i : Instr n D Ch) : Except Fault (State n C D Ch) :=
  match s.cpu c, i with
  | .run p, .enter => .ok (s.goto p .acquire)
  | .run p, .yield => .ok (s.goto p .yield)
  | .run p, .wakeup ch => .ok (s.goto p (wakeupPc lk (s.pc p = .inside) ch))
  | .run p, .sleep ch => .ok (s.goto p (sleepPc lk (s.pc p = .inside) ch))
  | .run p, .wait => .ok (if cond s.data then s else s.goto p (sleepPc lk true chan))
  | .run _, .write d => .ok { s with data := d, owed := cond d && (s.owed || !cond s.data) }
  | .run p, .leave => do pure ((← s.release c lk).goto p .out)
  | .run p, .next => next lk chan s c p
  | .idle, .next => do pure { ← s.acquire c .ptable with cpu := Function.update s.cpu c .looking }
  | .back, .next => .ok { s with cpu := Function.update s.cpu c .looking }
  | .looking, .dispatch p =>
    .ok ({ s with
      cpu := Function.update s.cpu c (.run p)
      state := Function.update s.state p .running }.goto p (s.pc p).resume)
  | .looking, .giveUp => do
    pure { ← s.release c .ptable with cpu := Function.update s.cpu c .idle }
  | _, _ => .error .null

def exec (s : State n C D Ch) (e : C × Instr n D Ch) : Except Fault (State n C D Ch × Unit) := do
  pure (← instr lk chan cond s e.1 e.2, ())

/-- **Waiters and wakers** from the data `d`: everybody is runnable, and no lock is taken. -/
def machine (d : D) : Machine (State n C D Ch) (C × Instr n D Ch) Unit Fault :=
  ⟨{ data := d }, enabled lk chan, exec lk chan cond⟩

end code

end Xv6.Process.Sleep
