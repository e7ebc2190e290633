import Xv6.Process.Queue

/-!
# `proc.c`: the pieces of code that run under `ptable.lock`

Each function here is one piece of `proc.c` (or of `trap.c`) that runs from one point where the
lock changes hands to the next. Pieces that can only go wrong through a bad queue return
`Except Fault`; the builds of the kernel differ only where the source has an `#if`.
-/

namespace Xv6.Process

variable {C : Type} [DecidableEq C]

inductive Out
  | done
  /-- `allocproc` chose the slot `p`. -/
  | alloc (p : ProcId)
  /-- A system call returned `-1`. -/
  | failed
  /-- A scheduler pass found no process to run. -/
  | idle
  /-- A scheduler pass took a process off its queue that was not runnable. -/
  | discard (p : ProcId)
  | dispatch (p : ProcId)
  /-- `wait` or `waitx` freed the slot `q` of the child `pid`; `waitx` reports the wait time and
  the run time. -/
  | reaped (q : ProcId) (pid : Word) (times : Option (Word × Word))
  /-- `wait` or `waitx` goes to sleep. -/
  | asleep
  deriving DecidableEq

/-- `queues[q] = push(queues[q], p)`. -/
def enqueue (k : Kern C) (q : ℤ) (p : ProcId) : Except Fault (Kern C) :=
  if h : 0 ≤ q ∧ q < NUM_QUEUES then
    let i : Fin NUM_QUEUES := ⟨q.toNat, by omega⟩
    match push k.node (k.queues i) p with
    | .error e => .error e
    | .ok (node, head) =>
      .ok { k with node := node, queues := Function.update k.queues i head }
  else .error .bounds

/-! ### Making and waking processes -/

/-- What `allocproc` writes into the slot it found. `killed`, `chan` and `parent` keep what the
previous owner left. -/
def embryo (k : Kern C) (p : Proc) : Proc :=
  { p with
    state := .embryo, pid := k.nextpid, context := .forkret, thread := .run
    startTime := k.ticks, runTime := 0, endTime := 0, priority := 60, timeslices := 0
    ageTime := k.ticks, curTimeslices := 0, punish := false, queue := 0
    ticks := fun _ => 0, numRun := 0 }

/-- `allocproc`, up to the release of the lock. -/
def allocproc (k : Kern C) : Option (ProcId × Kern C) :=
  match (List.finRange NPROC).find? fun p => (k.proc p).state = .unused with
  | none => none
  | some p => some (p, { k.setProc p (embryo k) with nextpid := k.nextpid + 1 })

/-- The last section of `userinit` and of `fork`: the new process becomes runnable. -/
def activate (b : Sched) (k : Kern C) (p : ProcId) : Except Fault (Kern C) :=
  let k := k.setProc p fun q => { q with state := .runnable }
  if b = .mlfq then enqueue k 0 p else .ok k

/-- What `wakeup1` and `kill` do to a sleeping process. -/
def wake (b : Sched) (k : Kern C) (p : ProcId) : Except Fault (Kern C) :=
  let k := k.setProc p fun q => { q with state := .runnable }
  if b = .mlfq then
    match enqueue k (k.proc p).queue p with
    | .error e => .error e
    | .ok k' => .ok (k'.setProc p fun q => { q with curTimeslices := 0, ageTime := k.ticks })
  else .ok k

/-- One turn of the loop of `wakeup1`. -/
def wakeup1Body (b : Sched) (chan : Option Chan) (k : Kern C) (p : ProcId) :
    Except Fault (Kern C) :=
  if (k.proc p).state = .sleeping ∧ (k.proc p).chan = chan then wake b k p else .ok k

def wakeup1 (b : Sched) (k : Kern C) (chan : Option Chan) : Except Fault (Kern C) :=
  (List.finRange NPROC).foldlM (wakeup1Body b chan) k

/-- `kill`: the first slot with that pid, whatever its state. -/
def kill (b : Sched) (k : Kern C) (pid : Word) : Except Fault (Kern C × Out) :=
  match (List.finRange NPROC).find? fun p => (k.proc p).pid = pid with
  | none => .ok (k, .failed)
  | some p =>
    let k := k.setProc p fun q => { q with killed := true }
    if (k.proc p).state = .sleeping then
      match wake b k p with
      | .error e => .error e
      | .ok k => .ok (k, .done)
    else .ok (k, .done)

/-! ### `exit` and `wait` -/

/-- One turn of the loop of `exit` that passes the children of `p` to `initproc`. -/
def reparent (b : Sched) (p : ProcId) (k : Kern C) (q : ProcId) : Except Fault (Kern C) :=
  if (k.proc q).parent = some p then
    let k := k.setProc q fun r => { r with parent := k.initproc }
    if (k.proc q).state = .zombie then wakeup1 b k (k.initproc.map .proc) else .ok k
  else .ok k

/-- The locked section of `exit`, up to the switch to the scheduler. -/
def exit (b : Sched) (k : Kern C) (c : C) (p : ProcId) : Except Fault (Kern C) :=
  match wakeup1 b k ((k.proc p).parent.map .proc) with
  | .error e => .error e
  | .ok k =>
    match (List.finRange NPROC).foldlM (reparent b p) k with
    | .error e => .error e
    | .ok k => .ok { k.setProc p fun q => { q with state := .zombie } with lock := .back c p }

/-- What `wait` and `waitx` leave in the slot of the child they reap. -/
def reap (q : Proc) : Proc :=
  { q with pid := 0, parent := none, killed := false, state := .unused }

/-- The reaping loop of `wait` and `waitx`, run with the lock held until it is released or the
caller has gone to sleep. -/
def waitLoop (w : WaitKind) (k : Kern C) (c : C) (p : ProcId) : Kern C × Out :=
  match (List.finRange NPROC).find? fun q =>
      (k.proc q).parent = some p ∧ (k.proc q).state = .zombie with
  | some q =>
    let z := k.proc q
    let times := match w with
      | .wait => none
      | .waitx => some (z.endTime - z.startTime - z.runTime, z.runTime)
    ({ k.setProc q reap with lock := .free }, .reaped q z.pid times)
  | none =>
    let havekids := (List.finRange NPROC).any fun q => (k.proc q).parent = some p
    if !havekids || (k.proc p).killed then ({ k with lock := .free }, .failed)
    else
      ({ k.setProc p fun q =>
          { q with chan := some (.proc p), state := .sleeping, context := .wait w }
        with lock := .back c p }, .asleep)

/-! ### The scheduler loops -/

/-- Switch CPU `c` to the process `p`. -/
def switchTo (k : Kern C) (c : C) (p : ProcId) : Kern C :=
  { k.setProc p fun q => { q with numRun := q.numRun + 1, state := .running } with
    cpu := Function.update k.cpu c (some p), lock := .resumed c p }

/-- The round-robin loop from the slot `start` on. -/
def schedRR (k : Kern C) (c : C) (start : ℕ) : Kern C × Out :=
  match (List.finRange NPROC).find? fun p => start ≤ p.val ∧ (k.proc p).state = .runnable with
  | none => ({ k with lock := .free }, .idle)
  | some p => (switchTo k c p, .dispatch p)

/-- The runnable process with the least `start_time`, as signed words, below `ticks + 100`. -/
def pickFCFS (k : Kern C) (t : Word) : Option ProcId :=
  ((List.finRange NPROC).foldl (fun (m : Word × Option ProcId) p =>
    if (k.proc p).state ≠ .runnable then m
    else if (k.proc p).startTime.slt m.1 then ((k.proc p).startTime, some p) else m)
    (t + 100, none)).2

/-- The runnable process with the least priority, and among those the least time slices. -/
def pickPBS (k : Kern C) (t : Word) : Option ProcId :=
  ((List.finRange NPROC).foldl (fun (m : ℤ × Word × Option ProcId) p =>
    let q := k.proc p
    if q.state ≠ .runnable then m
    else if q.priority < m.1 then (q.priority, q.timeslices, some p)
    else if q.priority = m.1 ∧ q.timeslices.slt m.2.1 then (m.1, q.timeslices, some p) else m)
    (101, t + 100, none)).2.2

/-- `split(&queues[i], &queues[i - 1], AGE_LIMIT)`. -/
def ageQueue (k : Kern C) (i : Fin NUM_QUEUES) : Except Fault (Kern C) :=
  match split k.ticks (.ofNat 32 AGE_LIMIT) k.proc k.node (k.queues i) (k.queues (i - 1)) with
  | .error e => .error e
  | .ok r =>
    .ok { k with
      proc := r.proc, node := r.node
      queues := Function.update (Function.update k.queues i r.src) (i - 1) r.dst }

/-- The search through the queues: the first process of the first queue that is not empty. -/
def popFirst (k : Kern C) : List (Fin NUM_QUEUES) → Except Fault (Kern C × Option ProcId)
  | [] => .ok (k, none)
  | i :: is =>
    match length k.node (k.queues i) with
    | .error e => .error e
    | .ok 0 => popFirst k is
    | .ok (_ + 1) =>
      match k.queues i with
      | none => .error .null
      | some h =>
        let r := pop k.node (some h)
        .ok ({ k with node := r.1, queues := Function.update k.queues i r.2 }, (k.node h).p)

/-- The multi-level feedback loop from taking the lock to `swtch`. -/
def schedMLFQ (k : Kern C) (c : C) : Except Fault (Kern C × Out) :=
  match [1, 2, 3, 4].foldlM ageQueue k with
  | .error e => .error e
  | .ok k =>
    match popFirst k [0, 1, 2, 3, 4] with
    | .error e => .error e
    | .ok (k, none) => .ok ({ k with lock := .free }, .idle)
    | .ok (k, some p) =>
      if (k.proc p).state ≠ .runnable then .ok ({ k with lock := .free }, .discard p)
      else
        .ok (switchTo (k.setProc p fun q => { q with curTimeslices := q.curTimeslices + 1 }) c p,
          .dispatch p)

/-- One pass of the scheduler of CPU `c`; `t` is the value of `ticks` it read at the top of the
loop. -/
def scheduler (b : Sched) (k : Kern C) (c : C) (t : Word) : Except Fault (Kern C × Out) :=
  match b with
  | .rr => .ok (schedRR k c 0)
  | .fcfs =>
    match pickFCFS k t with
    | none => .ok ({ k with lock := .free }, .idle)
    | some p => .ok (switchTo k c p, .dispatch p)
  | .pbs =>
    match pickPBS k t with
    | none => .ok ({ k with lock := .free }, .idle)
    | some p =>
      .ok (switchTo (k.setProc p fun q => { q with timeslices := q.timeslices + 1 }) c p,
        .dispatch p)
  | .mlfq => schedMLFQ k c

/-- What the multi-level feedback loop does with a process that comes back runnable. -/
def requeue (k : Kern C) (p : ProcId) : Except Fault (Kern C) :=
  if (k.proc p).state = .runnable then
    let k := if !(k.proc p).punish then
        k.setProc p fun q => { q with curTimeslices := 0, ageTime := k.ticks }
      else
        k.setProc p fun q =>
          { q with
            curTimeslices := 0, punish := false, ageTime := k.ticks
            queue := if q.queue ≠ NUM_QUEUES - 1 then q.queue + 1 else q.queue }
    enqueue k (k.proc p).queue p
  else .ok k

/-- The scheduler of CPU `c` after `swtch` has come back from `p`. The round-robin loop goes on to
the next slot with the lock held; the others release it. -/
def back (b : Sched) (k : Kern C) (c : C) (p : ProcId) : Except Fault (Kern C × Out) :=
  let k := { k with cpu := Function.update k.cpu c none }
  match b with
  | .rr => .ok (schedRR k c (p + 1))
  | .mlfq =>
    match requeue k p with
    | .error e => .error e
    | .ok k => .ok ({ k with lock := .free }, .done)
  | _ => .ok ({ k with lock := .free }, .done)

/-- A process that `swtch` has just switched to goes on from where it left off. -/
def resume (k : Kern C) (c : C) (p : ProcId) : Kern C × Out :=
  match (k.proc p).context with
  | .forkret => ({ k with lock := .free }, .done)
  | .yield => ({ k with lock := .free }, .done)
  | .sleep => ({ k.setProc p fun q => { q with chan := none } with lock := .free }, .done)
  | .wait w => waitLoop w (k.setProc p fun q => { q with chan := none }) c p

end Xv6.Process
