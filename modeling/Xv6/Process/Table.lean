import Xv6.Basic

/-!
# The process table

The state the kernel keeps under `ptable.lock`, together with what every CPU and every kernel
thread is in the middle of. A process structure holds the fields of `struct proc` that scheduling,
waiting and killing use; the fields for memory, open files and the name are left out.
-/

namespace Xv6.Process

/-- The `SCHEDULER` the kernel is built with. -/
inductive Sched
  | rr | fcfs | pbs | mlfq
  deriving DecidableEq

inductive ProcState
  | unused | embryo | sleeping | runnable | running | zombie
  deriving DecidableEq

/-- A slot of `ptable.proc`; a `struct proc *` is a slot or null. -/
abbrev ProcId := Fin NPROC

instance : LawfulBEq ProcId := Std.LawfulBEqOrd.lawfulBEq

/-- A cell of `surplus_nodes`. -/
abbrev NodeId := Fin NPROC

/-- The address a process sleeps on: a process structure (in `wait`), the tick counter, or
anything else. -/
inductive Chan
  | proc (p : ProcId)
  | ticks
  | addr (a : ℕ)
  deriving DecidableEq

/-- The two copies of the reaping loop. -/
inductive WaitKind
  | wait | waitx
  deriving DecidableEq

/-- Where `swtch` goes when it switches to a process: what `p->context` says. -/
inductive Context
  /-- First run, into `forkret`. -/
  | forkret
  /-- Back into `yield`. -/
  | yield
  /-- Back into a `sleep` that was given another lock than `ptable.lock`. -/
  | sleep
  /-- Back into the `sleep` of `wait` or `waitx`, which keep `ptable.lock`. -/
  | wait (w : WaitKind)
  deriving DecidableEq

/-- What the kernel thread of a process is in the middle of between two sections that hold
`ptable.lock`. -/
inductive Thread
  /-- Nothing: user code, or a system call that does not touch the table. -/
  | run
  /-- Inside `fork`, after `allocproc` returned the slot `np`; `copied` once the memory is
  copied and the parent recorded. -/
  | fork (np : ProcId) (copied : Bool)
  /-- Inside `exit`, after `end_time` was recorded. -/
  | exit
  deriving DecidableEq

/-- `struct proc`. The defaults are those of the zeroed table at boot. -/
structure Proc where
  state : ProcState := .unused
  pid : Word := 0
  parent : Option ProcId := none
  chan : Option Chan := none
  killed : Bool := false
  context : Context := .forkret
  thread : Thread := .run
  startTime : Word := 0
  endTime : Word := 0
  runTime : Word := 0
  priority : ℤ := 0
  timeslices : Word := 0
  ageTime : Word := 0
  curTimeslices : Word := 0
  queue : ℤ := 0
  punish : Bool := false
  numRun : Word := 0
  ticks : Fin NUM_QUEUES → Word := fun _ => 0

structure Node where
  next : Option NodeId := none
  p : Option ProcId := none
  use : Bool := false

/-- Who holds `ptable.lock` between two atomic pieces of code. The lock is handed over only
across `swtch`. -/
inductive Lock (C : Type)
  | free
  /-- CPU `c` has just switched to `p`, which returns from its own `swtch` with the lock held. -/
  | resumed (c : C) (p : ProcId)
  /-- `p` has just switched back to the scheduler of CPU `c`. -/
  | back (c : C) (p : ProcId)
  deriving DecidableEq

/-- How far the timer interrupt of CPU 0 has got: nothing pending, `ticks` incremented, run times
counted. -/
inductive TickPhase
  | idle | ticked | counted
  deriving DecidableEq

/-- How far `userinit` has got. -/
inductive Boot
  | start
  | embryo (p : ProcId)
  | done
  deriving DecidableEq

/-- The state of the kernel, for a set `C` of CPUs. -/
structure Kern (C : Type) where
  proc : ProcId → Proc := fun _ => {}
  nextpid : Word := 1
  initproc : Option ProcId := none
  ticks : Word := 0
  /-- `c->proc`. -/
  cpu : C → Option ProcId := fun _ => none
  /-- The value of `ticks` that the scheduler loop of `c` read before it took the lock. -/
  seen : C → Option Word := fun _ => none
  /-- `surplus_nodes`. -/
  node : NodeId → Node := fun _ => {}
  queues : Fin NUM_QUEUES → Option NodeId := fun _ => none
  lock : Lock C := .free
  phase : TickPhase := .idle
  boot : Boot := .start

namespace Kern

variable {C : Type}

def setProc (k : Kern C) (p : ProcId) (f : Proc → Proc) : Kern C :=
  { k with proc := Function.update k.proc p (f (k.proc p)) }

section setProc

variable (k : Kern C) (p q : ProcId) (f : Proc → Proc)

theorem setProc_proc : (k.setProc p f).proc q = if q = p then f (k.proc p) else k.proc q := by
  simp [setProc, Function.update_apply]

@[simp] theorem setProc_proc_self : (k.setProc p f).proc p = f (k.proc p) := by simp [setProc]

@[simp] theorem setProc_proc_ne {q : ProcId} (h : q ≠ p) : (k.setProc p f).proc q = k.proc q := by
  simp [setProc, h]

@[simp] theorem setProc_nextpid : (k.setProc p f).nextpid = k.nextpid := rfl
@[simp] theorem setProc_initproc : (k.setProc p f).initproc = k.initproc := rfl
@[simp] theorem setProc_ticks : (k.setProc p f).ticks = k.ticks := rfl
@[simp] theorem setProc_cpu : (k.setProc p f).cpu = k.cpu := rfl
@[simp] theorem setProc_seen : (k.setProc p f).seen = k.seen := rfl
@[simp] theorem setProc_node : (k.setProc p f).node = k.node := rfl
@[simp] theorem setProc_queues : (k.setProc p f).queues = k.queues := rfl
@[simp] theorem setProc_lock : (k.setProc p f).lock = k.lock := rfl
@[simp] theorem setProc_phase : (k.setProc p f).phase = k.phase := rfl
@[simp] theorem setProc_boot : (k.setProc p f).boot = k.boot := rfl

end setProc

end Kern

end Xv6.Process
