import Xv6.Basic
import Xv6.Lib.Machine
import Mathlib.Logic.Function.Basic

/-!
# Interrupts and context switches

`pushcli`, `popcli`, `acquire`, `release`, `sched`, `yield` and `sleep`, as lists of the instructions that
matter for interrupts, on any number of CPUs, kernel threads and spinlocks. The rest of the kernel calls
these in any order. An interrupt comes between two instructions while the flag `IF` is set, and `swtch`
leaves a thread, which a scheduler resumes later, maybe on another CPU.
-/

namespace Xv6.Switch

open Lib

/-! ### The functions -/

section Functions

variable (L : Type)

/-- An instruction, with a spinlock of the type `L`. -/
inductive Op
  /-- `eflags = readeflags()`, in `pushcli`. -/
  | readeflags
  /-- The rest of `pushcli`, with what was read. -/
  | cli (eflags : Bool)
  | popcli
  /-- Panic if the lock is not held by this CPU, or is held by it. -/
  | check (lk : L) (held : Bool) (msg : String)
  /-- `while(xchg(&lk->locked, 1) != 0)`, and `lk->cpu` is set. -/
  | lock (lk : L)
  | unlock (lk : L)
  /-- `sched`, from its checks of the CPU up to `swtch`. -/
  | swtch
  /-- `mycpu()->intena = intena`, with what `sched` has saved. -/
  | resume (intena : Bool)
  deriving DecidableEq

inductive Call
  | pushcli
  | popcli
  | acquire (lk : L)
  | release (lk : L)
  | yield
  | sleep (lk : L)
  /-- `sched` at the end of `exit`. -/
  | exit
  /-- `forkret`, where a new thread begins. -/
  | forkret
  /-- `switchuvm`, in the scheduler. -/
  | switchuvm
  deriving DecidableEq

end Functions

variable {C T L : Type} [DecidableEq C] [DecidableEq T] [DecidableEq L]

namespace Op

def pushcli : List (Op L) := [readeflags]

/-- `holding`, of which a panic depends on the result. -/
def holding (lk : L) (held : Bool) (msg : String) : List (Op L) := pushcli ++ [check lk held msg, popcli]

def acquire (lk : L) : List (Op L) := pushcli ++ holding lk false "acquire" ++ [lock lk]

def release (lk : L) : List (Op L) := holding lk true "release" ++ [unlock lk, popcli]

def myproc : List (Op L) := pushcli ++ [popcli]

def sched (pt : L) : List (Op L) := myproc ++ holding pt true "sched ptable.lock" ++ [swtch]

def yield (pt : L) : List (Op L) := acquire pt ++ myproc ++ sched pt ++ release pt

def sleep (pt lk : L) : List (Op L) :=
  myproc ++ if lk = pt then sched pt else acquire pt ++ release lk ++ sched pt ++ release pt ++ acquire lk

end Op

/-- The instructions of a function, where `pt` is `ptable.lock`. -/
def Call.code (pt : L) : Call L → List (Op L)
  | pushcli => Op.pushcli
  | popcli => [.popcli]
  | acquire lk => Op.acquire lk
  | release lk => Op.release lk
  | yield => Op.yield pt
  | sleep lk => Op.sleep pt lk
  | exit => Op.sched pt
  | forkret => Op.release pt
  | switchuvm => Op.pushcli ++ [.popcli]

/-! ### The state -/

/-- The fields of `struct cpu` for interrupts, and the flag `IF`. -/
structure Cpu where
  ncli : ℕ := 0
  intena : Bool := false
  flag : Bool := false

/-- What is on the stack of a thread. -/
inductive Frame (L : Type)
  /-- A function that has the instructions `ops` still to do, and that was called at the nesting depth
  `before`. -/
  | call (k : Call L) (ops : List (Op L)) (before : ℕ)
  /-- The handler of an interrupt, with the saved flag. -/
  | intr (saved : Bool)

/-- No function is being called: other code of the kernel runs. -/
def Frame.free {L : Type} : List (Frame L) → Bool
  | .call .. :: _ => false
  | _ => true

@[ext]
structure Ctx (L : Type) where
  frames : List (Frame L) := []
  /-- How many more times the thread has called `pushcli` than `popcli`. -/
  depth : ℕ := 0
  /-- The flag when the thread made its outermost `pushcli`. -/
  outer : Option Bool := none

/-- Who runs: the scheduler of a CPU, or the kernel thread of a process. -/
inductive Who (C T : Type)
  | sched (c : C)
  | thread (t : T)
  deriving DecidableEq

structure State (C T L : Type) where
  cpu : C → Cpu := fun _ => {}
  /-- The CPU that holds a lock. -/
  locks : L → Option C := fun _ => none
  cur : C → Who C T := .sched
  ctx : Who C T → Ctx L
  /-- The thread does not run. -/
  out : T → Bool := fun _ => true
  /-- The scheduler looks through the process table. -/
  scan : C → Bool := fun _ => false

inductive Out (L : Type)
  | none
  /-- A function returns: the nesting depth when it was called, and `ncli` of the CPU now. -/
  | returned (k : Call L) (before now : ℕ)
  /-- The outermost `pushcli` is undone: the flag when it was made, and now. -/
  | outermost (before now : Bool)
  deriving DecidableEq

inductive Act (C T L : Type)
  /-- The code that runs calls a function. -/
  | invoke (c : C) (k : Call L)
  /-- The function does an instruction. -/
  | op (c : C)
  | ret (c : C)
  | intr (c : C)
  | iret (c : C)
  /-- The scheduler begins its loop, with `sti`. -/
  | sti (c : C)
  /-- The scheduler switches to a thread. -/
  | run (c : C) (t : T)

/-! ### Steps -/

variable (pt : L)

/-- A function that can be called, by a thread, by a scheduler in its loop, or by the handler of an
interrupt. -/
def State.calls (s : State C T L) (c : C) (k : Call L) : Bool :=
  match s.cur c, k with
  | _, .forkret => false
  | .thread _, .switchuvm => false
  | .thread _, _ => true
  | .sched _, k =>
    if (s.ctx (s.cur c)).frames.isEmpty then
      if s.scan c then k = .release pt ∨ k = .switchuvm else false
    else
      match k with
      | .pushcli | .popcli | .acquire _ | .release _ => true
      | _ => false

def enabled (s : State C T L) : Act C T L → Bool
  | .invoke c k => Frame.free (s.ctx (s.cur c)).frames && s.calls pt c k
  | .op c =>
    match (s.ctx (s.cur c)).frames with
    | .call _ (.lock lk :: _) _ :: _ => s.locks lk = none
    | .call _ (_ :: _) _ :: _ => true
    | _ => false
  | .ret c =>
    match (s.ctx (s.cur c)).frames with
    | .call _ [] _ :: _ => true
    | _ => false
  | .intr c => (s.cpu c).flag
  | .iret c =>
    -- a handler has released what it has acquired
    match (s.ctx (s.cur c)).frames with
    | .intr _ :: _ => (s.cpu c).ncli = 0
    | _ => false
  | .sti c => s.cur c = .sched c ∧ (s.ctx (.sched c)).frames.isEmpty ∧ s.scan c = false
  | .run c t => s.cur c = .sched c ∧ (s.ctx (.sched c)).frames.isEmpty ∧ s.scan c = true ∧ s.out t = true

/-- The CPU `c` and the thread on it are changed. -/
def State.put (s : State C T L) (c : C) (u : Cpu) (x : Ctx L) : State C T L :=
  { s with cpu := Function.update s.cpu c u, ctx := Function.update s.ctx (s.cur c) x }

/-- `mycpu()->ncli += 1`, after `cli`. -/
def Cpu.cli (u : Cpu) (eflags : Bool) : Cpu :=
  { ncli := u.ncli + 1, intena := if u.ncli = 0 then eflags else u.intena, flag := false }

/-- `popcli`, where it does not panic. -/
def Cpu.popcli (u : Cpu) : Cpu := { u with ncli := u.ncli - 1, flag := u.ncli - 1 = 0 ∧ u.intena }

/-- The instruction `o` of the function `k`, which has `ops` to do after it. -/
def execOp (s : State C T L) (c : C) (k : Call L) (b : ℕ) (ops : List (Op L)) (fs : List (Frame L)) :
    Op L → Except Fault (State C T L × Out L)
  | .readeflags =>
    let x := s.ctx (s.cur c)
    .ok (s.put c (s.cpu c) { x with frames := .call k (.cli (s.cpu c).flag :: ops) b :: fs }, .none)
  | .cli eflags =>
    let x := s.ctx (s.cur c)
    let outer := match s.cur c with
      | .thread _ => if x.depth = 0 then some (s.cpu c).flag else x.outer
      | .sched _ => none
    .ok (s.put c ((s.cpu c).cli eflags) { frames := .call k ops b :: fs, depth := x.depth + 1, outer }, .none)
  | .popcli =>
    let x := s.ctx (s.cur c)
    let u := s.cpu c
    if u.flag then .error (.panic "popcli - interruptible")
    else if u.ncli = 0 then .error (.panic "popcli")
    else if x.depth - 1 = 0 then
      .ok (s.put c u.popcli { frames := .call k ops b :: fs, depth := x.depth - 1, outer := none },
        match x.outer with
        | some v => .outermost v u.popcli.flag
        | none => .none)
    else .ok (s.put c u.popcli { x with frames := .call k ops b :: fs, depth := x.depth - 1 }, .none)
  | .check lk held msg =>
    let x := s.ctx (s.cur c)
    if decide (s.locks lk = some c) ≠ held then .error (.panic msg)
    else .ok (s.put c (s.cpu c) { x with frames := .call k ops b :: fs }, .none)
  | .lock lk =>
    let x := s.ctx (s.cur c)
    .ok ({ s.put c (s.cpu c) { x with frames := .call k ops b :: fs } with
      locks := Function.update s.locks lk (some c) }, .none)
  | .unlock lk =>
    let x := s.ctx (s.cur c)
    .ok ({ s.put c (s.cpu c) { x with frames := .call k ops b :: fs } with
      locks := Function.update s.locks lk none }, .none)
  | .swtch =>
    let x := s.ctx (s.cur c)
    if (s.cpu c).ncli ≠ 1 then .error (.panic "sched locks")
    else if (s.cpu c).flag then .error (.panic "sched interruptible")
    else match s.cur c with
      | .sched _ => .error .null
      | .thread t => .ok ({ s.put c (s.cpu c) { x with frames := .call k (.resume (s.cpu c).intena :: ops) b :: fs }
          with cur := Function.update s.cur c (.sched c), out := Function.update s.out t true }, .none)
  | .resume intena =>
    let x := s.ctx (s.cur c)
    .ok (s.put c { s.cpu c with intena } { x with frames := .call k ops b :: fs }, .none)

/-- Whether the scheduler is inside of its loop when the function `k` has returned. -/
def State.scanAfter (s : State C T L) (c : C) (k : Call L) (fs : List (Frame L)) : Bool :=
  match s.cur c, fs, k with
  | .sched _, [], .acquire _ => true
  | .sched _, [], .release _ => false
  | _, _, _ => s.scan c

def exec (s : State C T L) : Act C T L → Except Fault (State C T L × Out L)
  | .invoke c k =>
    let x := s.ctx (s.cur c)
    .ok (s.put c (s.cpu c) { x with frames := .call k (k.code pt) x.depth :: x.frames }, .none)
  | .op c =>
    match (s.ctx (s.cur c)).frames with
    | .call k (o :: ops) b :: fs => execOp s c k b ops fs o
    | _ => .error .null
  | .ret c =>
    let x := s.ctx (s.cur c)
    match x.frames with
    | .call k _ b :: fs =>
      .ok ({ s.put c (s.cpu c) { x with frames := fs } with
        scan := Function.update s.scan c (s.scanAfter c k fs) }, .returned k b (s.cpu c).ncli)
    | _ => .error .null
  | .intr c =>
    let x := s.ctx (s.cur c)
    .ok (s.put c { s.cpu c with flag := false } { x with frames := .intr (s.cpu c).flag :: x.frames }, .none)
  | .iret c =>
    let x := s.ctx (s.cur c)
    match x.frames with
    | .intr saved :: fs => .ok (s.put c { s.cpu c with flag := saved } { x with frames := fs }, .none)
    | _ => .error .null
  | .sti c =>
    let x := s.ctx (s.cur c)
    .ok (s.put c { s.cpu c with flag := true }
      { x with frames := .call (.acquire pt) ((Call.acquire pt).code pt) x.depth :: x.frames }, .none)
  | .run c t =>
    .ok ({ s with cur := Function.update s.cur c (.thread t), out := Function.update s.out t false }, .none)

/-- **The kernel at boot**: each CPU is about to run its scheduler, and every thread is a new one. -/
def init : State C T L where
  ctx
    | .sched _ => {}
    | .thread _ => { frames := [.call .forkret (Op.release pt) 1, .intr true], depth := 1 }

/-- **Threads on CPUs.** -/
def cpus : Machine (State C T L) (Act C T L) (Out L) Fault := ⟨init pt, enabled pt, exec pt⟩

end Xv6.Switch
