import Xv6.Process.Code
import Xv6.Lib.Machine

/-!
# The kernel as a transition system

A step is one atomic piece of code: a whole section under `ptable.lock`, the part of one up to the
hand-over of the lock at a `swtch`, or an unlocked access to the table. Any CPU may take the next
step; which pieces a process can run depends on where its kernel thread is (`Thread`).
-/

namespace Xv6.Process

open Lib

variable {C : Type} [DecidableEq C]

/-- The pieces of code of the process that runs on a CPU. -/
inductive ProcAct
  /-- `yield`, from a timer interrupt or from `set_priority`. -/
  | yield
  /-- `sleep` with another lock than `ptable.lock`. -/
  | sleep (chan : Chan)
  /-- `wait` or `waitx`. -/
  | wait (w : WaitKind)
  /-- `exit` up to the closing of files: record `end_time`. -/
  | exitBegin
  /-- The locked section of `exit`. -/
  | exit
  /-- `fork`: the locked section of `allocproc`. -/
  | forkAlloc
  /-- `fork` gives the new slot up: no page for the stack, or `copyuvm` failed. -/
  | forkFail
  /-- `fork` has copied the process: `np->parent = curproc`. -/
  | forkCopy
  /-- The locked section of `fork`. -/
  | fork
  | kill (pid : Word)
  /-- A trap in user mode that the kernel does not handle. -/
  | trapKill
  /-- The locked section of `set_priority`. -/
  | setPriority (n : ℤ)
  | incPinfoTicks
  | punisher
  | incTimeslice
  deriving DecidableEq

inductive Act (C : Type)
  /-- `userinit`: the locked section of `allocproc`. -/
  | userinitAlloc
  /-- `userinit`: the first process becomes runnable. -/
  | userinit
  /-- The scheduler loop of `c` reads `ticks` before it takes the lock. -/
  | readTicks (c : C)
  /-- A pass of the scheduler of `c`, up to `swtch`. -/
  | scheduler (c : C)
  /-- The process that `c` has switched to goes on. -/
  | resume (c : C)
  /-- The scheduler of `c` goes on after `swtch`. -/
  | back (c : C)
  /-- The process `p` on `c` runs a piece of code. -/
  | proc (c : C) (p : ProcId) (a : ProcAct)
  /-- `wakeup`, from any process or interrupt. -/
  | wakeup (chan : Chan)
  /-- Timer interrupt on CPU 0: `ticks++`. -/
  | tick
  /-- Timer interrupt on CPU 0: `inc_runtime()`. -/
  | incRuntime
  /-- Timer interrupt on CPU 0: `wakeup(&ticks)`. -/
  | wakeupTicks
  deriving DecidableEq

def ProcAct.locked : ProcAct → Bool
  | .exitBegin | .forkFail | .forkCopy | .trapKill => false
  | _ => true

/-- The kernel thread is at a place where it can run the piece of code. -/
def ProcAct.allowed : ProcAct → Thread → Bool
  | .wait _, t | .exitBegin, t | .forkAlloc, t | .kill _, t | .trapKill, t | .setPriority _, t =>
    t = .run
  | .exit, t => t = .exit
  | .forkFail, .fork _ copied | .forkCopy, .fork _ copied => !copied
  | .fork, .fork _ copied => copied
  | .forkFail, _ | .forkCopy, _ | .fork, _ => false
  | _, _ => true

/-- CPU `c` is on either side of a `swtch`, with the lock in its hands. -/
def Lock.heldBy : Lock C → C → Bool
  | .free, _ => false
  | .resumed c _, c' | .back c _, c' => c = c'

/-- The scheduler builds that read `ticks` before taking the lock. -/
def Sched.readsTicks : Sched → Bool
  | .fcfs | .pbs => true
  | _ => false

def enabled (b : Sched) (k : Kern C) : Act C → Bool
  | .userinitAlloc => k.boot = .start && k.lock = .free
  | .userinit => (match k.boot with | .embryo _ => true | _ => false) && k.lock = .free
  | .readTicks c => k.cpu c = none && !k.lock.heldBy c
  | .scheduler c => k.cpu c = none && k.lock = .free && (!b.readsTicks || (k.seen c).isSome)
  | .resume c => match k.lock with | .resumed c' _ => c' = c | _ => false
  | .back c => match k.lock with | .back c' _ => c' = c | _ => false
  | .proc c p a =>
    k.cpu c = some p && a.allowed (k.proc p).thread &&
      (if a.locked then decide (k.lock = .free) else !k.lock.heldBy c)
  | .wakeup _ => k.lock = .free
  | .tick => k.phase = .idle
  | .incRuntime => k.phase = .ticked && k.lock = .free
  | .wakeupTicks => k.phase = .counted && k.lock = .free

def incRuntime (k : Kern C) : Kern C :=
  { k with proc := fun p =>
      if (k.proc p).state = .running then { k.proc p with runTime := (k.proc p).runTime + 1 }
      else k.proc p }

/-- The process `p` on CPU `c` runs a piece of code. -/
def execProc (b : Sched) (k : Kern C) (c : C) (p : ProcId) : ProcAct → Except Fault (Kern C × Out)
  | .yield =>
    .ok ({ k.setProc p fun q => { q with state := .runnable, context := .yield } with
      lock := .back c p }, .done)
  | .sleep chan =>
    .ok ({ k.setProc p fun q =>
        { q with chan := some chan, state := .sleeping, context := .sleep } with
      lock := .back c p }, .done)
  | .wait w => .ok (waitLoop w k c p)
  | .exitBegin =>
    if k.initproc = some p then .error (.panic "init exiting")
    else .ok (k.setProc p fun q => { q with endTime := k.ticks, thread := .exit }, .done)
  | .exit =>
    match exit b k c p with
    | .error e => .error e
    | .ok k => .ok (k, .done)
  | .forkAlloc =>
    match allocproc k with
    | none => .ok (k, .failed)
    | some (np, k) => .ok (k.setProc p fun q => { q with thread := .fork np false }, .alloc np)
  | .forkFail =>
    match (k.proc p).thread with
    | .fork np _ =>
      .ok ((k.setProc np fun q => { q with state := .unused }).setProc p
        fun q => { q with thread := .run }, .failed)
    | _ => .error .null
  | .forkCopy =>
    match (k.proc p).thread with
    | .fork np _ =>
      .ok ((k.setProc np fun q => { q with parent := some p }).setProc p
        fun q => { q with thread := .fork np true }, .done)
    | _ => .error .null
  | .fork =>
    match (k.proc p).thread with
    | .fork np _ =>
      match activate b k np with
      | .error e => .error e
      | .ok k => .ok (k.setProc p fun q => { q with thread := .run }, .done)
    | _ => .error .null
  | .kill pid => kill b k pid
  | .trapKill => .ok (k.setProc p fun q => { q with killed := true }, .done)
  | .setPriority n =>
    if n < 0 ∨ n > 100 then .ok (k, .failed)
    else .ok (k.setProc p fun q =>
      { q with priority := n, timeslices := if n ≠ q.priority then 0 else q.timeslices }, .done)
  | .incPinfoTicks =>
    if h : 0 ≤ (k.proc p).queue ∧ (k.proc p).queue < NUM_QUEUES then
      let i : Fin NUM_QUEUES := ⟨(k.proc p).queue.toNat, by omega⟩
      .ok (k.setProc p fun q => { q with ticks := Function.update q.ticks i (q.ticks i + 1) },
        .done)
    else .error .bounds
  | .punisher => .ok (k.setProc p fun q => { q with punish := true }, .done)
  | .incTimeslice =>
    .ok (k.setProc p fun q => { q with curTimeslices := q.curTimeslices + 1 }, .done)

def exec (b : Sched) (k : Kern C) : Act C → Except Fault (Kern C × Out)
  | .userinitAlloc =>
    match allocproc k with
    | none => .error .null
    | some (p, k) => .ok ({ k with initproc := some p, boot := .embryo p }, .alloc p)
  | .userinit =>
    match k.boot with
    | .embryo p =>
      match activate b k p with
      | .error e => .error e
      | .ok k => .ok ({ k with boot := .done }, .done)
    | _ => .error .null
  | .readTicks c => .ok ({ k with seen := Function.update k.seen c (some k.ticks) }, .done)
  | .scheduler c =>
    scheduler b { k with seen := Function.update k.seen c none } c ((k.seen c).getD 0)
  | .resume c =>
    match k.lock with
    | .resumed _ p => .ok (resume k c p)
    | _ => .error .null
  | .back c =>
    match k.lock with
    | .back _ p => back b k c p
    | _ => .error .null
  | .proc c p a => execProc b k c p a
  | .wakeup chan =>
    match wakeup1 b k (some chan) with
    | .error e => .error e
    | .ok k => .ok (k, .done)
  | .tick => .ok ({ k with ticks := k.ticks + 1, phase := .ticked }, .done)
  | .incRuntime => .ok ({ incRuntime k with phase := .counted }, .done)
  | .wakeupTicks =>
    match wakeup1 b k (some .ticks) with
    | .error e => .error e
    | .ok k => .ok ({ k with phase := .idle }, .done)

/-- The labels of runs: a step and its answer. -/
abbrev Event (C : Type) := Act C × Out

/-- The event is an `allocproc` that took the slot `q`. -/
def allocates (q : ProcId) : Event C → Bool
  | (.userinitAlloc, .alloc p) => p = q
  | (.proc _ _ .forkAlloc, .alloc p) => p = q
  | _ => false

/-- The machine at boot: everything is zero, and the pool of queue nodes is free. -/
def boot (C : Type) : Kern C := {}

/-- **The kernel**, built with the scheduler `b`. -/
def kernel (b : Sched) : Machine (Kern C) (Act C) Out Fault := ⟨boot C, enabled b, exec b⟩

abbrev Step (b : Sched) : Kern C → Event C → Kern C → Prop := (kernel b).Step

theorem step_iff {b : Sched} {k k' : Kern C} {e : Event C} :
    Step b k e k' ↔ enabled b k e.1 = true ∧ exec b k e.1 = .ok (k', e.2) := Iff.rfl

/-! What a step has found, by its kind. -/

section found

variable {b : Sched} {k k' : Kern C} {o : Out} {c : C} {p : ProcId}

omit [DecidableEq C] in
theorem execProc_exit (h : execProc b k c p .exit = .ok (k', o)) : exit b k c p = .ok k' ∧ o = .done := by
  simp only [execProc] at h
  split at h
  · cases h
  · rename_i h₁
    cases h
    exact ⟨h₁, rfl⟩

omit [DecidableEq C] in
theorem execProc_forkFail (h : execProc b k c p .forkFail = .ok (k', o)) : ∃ np d,
    (k.proc p).thread = .fork np d ∧ k' = (k.setProc np fun q => { q with state := .unused }).setProc p
      (fun q => { q with thread := .run }) ∧ o = .failed := by
  simp only [execProc] at h
  split at h
  · rename_i np d ht
    cases h
    exact ⟨np, d, ht, rfl, rfl⟩
  · cases h

omit [DecidableEq C] in
theorem execProc_forkCopy (h : execProc b k c p .forkCopy = .ok (k', o)) : ∃ np d,
    (k.proc p).thread = .fork np d ∧ k' = (k.setProc np fun q => { q with parent := some p }).setProc p
      (fun q => { q with thread := .fork np true }) ∧ o = .done := by
  simp only [execProc] at h
  split at h
  · rename_i np d ht
    cases h
    exact ⟨np, d, ht, rfl, rfl⟩
  · cases h

omit [DecidableEq C] in
theorem execProc_fork (h : execProc b k c p .fork = .ok (k', o)) : ∃ np d k₁,
    (k.proc p).thread = .fork np d ∧ activate b k np = .ok k₁ ∧
      k' = k₁.setProc p (fun q => { q with thread := .run }) ∧ o = .done := by
  simp only [execProc] at h
  split at h
  · rename_i np d ht
    split at h
    · cases h
    · rename_i k₁ h₁
      cases h
      exact ⟨np, d, k₁, ht, h₁, rfl, rfl⟩
  · cases h

theorem exec_userinitAlloc (h : exec b k .userinitAlloc = .ok (k', o)) : ∃ p k₁,
    allocproc k = some (p, k₁) ∧ k' = { k₁ with initproc := some p, boot := .embryo p } ∧ o = .alloc p := by
  simp only [exec] at h
  split at h
  · cases h
  · rename_i p k₁ h₁
    cases h
    exact ⟨p, k₁, h₁, rfl, rfl⟩

theorem exec_userinit (h : exec b k .userinit = .ok (k', o)) : ∃ p k₁,
    k.boot = .embryo p ∧ activate b k p = .ok k₁ ∧ k' = { k₁ with boot := .done } ∧ o = .done := by
  simp only [exec] at h
  split at h
  · rename_i p hb
    split at h
    · cases h
    · rename_i k₁ h₁
      cases h
      exact ⟨p, k₁, hb, h₁, rfl, rfl⟩
  · cases h

theorem exec_resume (he : enabled b k (.resume c) = true) (h : exec b k (.resume c) = .ok (k', o)) :
    ∃ p, k.lock = .resumed c p ∧ resume k c p = (k', o) := by
  simp only [enabled] at he
  simp only [exec] at h
  split at h
  · rename_i c' p hl
    simp only [hl, decide_eq_true_eq] at he
    subst he
    exact ⟨p, hl, Except.ok.inj h⟩
  · cases h

theorem exec_back (he : enabled b k (.back c) = true) (h : exec b k (.back c) = .ok (k', o)) :
    ∃ p, k.lock = .back c p ∧ back b k c p = .ok (k', o) := by
  simp only [enabled] at he
  simp only [exec] at h
  split at h
  · rename_i c' p hl
    simp only [hl, decide_eq_true_eq] at he
    subst he
    exact ⟨p, hl, h⟩
  · cases h

theorem exec_wakeup {chan : Chan} (h : exec b k (.wakeup chan) = .ok (k', o)) :
    wakeup1 b k (some chan) = .ok k' ∧ o = .done := by
  simp only [exec] at h
  split at h
  · cases h
  · rename_i h₁
    cases h
    exact ⟨h₁, rfl⟩

theorem exec_wakeupTicks (h : exec b k .wakeupTicks = .ok (k', o)) :
    ∃ k₁, wakeup1 b k (some .ticks) = .ok k₁ ∧ k' = { k₁ with phase := .idle } ∧ o = .done := by
  simp only [exec] at h
  split at h
  · cases h
  · rename_i k₁ h₁
    cases h
    exact ⟨k₁, h₁, rfl, rfl⟩

end found

abbrev Runs (b : Sched) : List (Event C) → Kern C → Prop := (kernel b).Runs

/-- The runs of the kernel whose steps all meet `g`. -/
abbrev GuardedRuns (g : Kern C → Act C → Bool) (b : Sched) : List (Event C) → Kern C → Prop :=
  (kernel b).GuardedRuns g

end Xv6.Process
